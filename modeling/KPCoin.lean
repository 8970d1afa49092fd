import KPCoin.RandomX.Keys
import KPCoin.Coins.Sanity
import KPCoin.Validation.Headers
import KPCoin.HeadersSync.Honest
import KPCoin.TxRequest.Requestable
import KPCoin.Chainstate.Arrival
import KPCoin.Chainstate.FailedHeaders
import KPCoin.Chainstate.Candidates
import KPCoin.AddrMan.Consistent
import KPCoin.Pow.Arithmetic
import KPCoin.MerkleBlock.Sound
import KPCoin.Psbt.Combine
import KPCoin.CoinStats.Reorg
import KPCoin.Chain.VersionBits
import KPCoin.Consensus.SequenceLocks
import KPCoin.Pow.ChainWork
import KPCoin.Pow.CompactForm
import KPCoin.Compressor.Undo
import KPCoin.Validation.Recovery
import KPCoin.Validation.Reorganise
import KPCoin.Mempool.Reorg
import KPCoin.Bloom.Rolling
import KPCoin.CuckooCache
import KPCoin.Bech32.Distance
import KPCoin.NetAddress
import KPCoin.BlockEncodings
