import KPCoin.Primitives.Transaction

/-!
# Block headers and blocks

The data of `primitives/block.h`, which the tree lacks.  `HeaderFns` collects the two functions on
headers that the rest of the code calls; nothing is assumed of them.
-/

namespace KPCoin

/-- `CBlockHeader`. -/
structure BlockHeader where
  nVersion : ℤ := 0
  hashPrevBlock : Uint256
  hashMerkleRoot : Uint256 := 0
  nTime : ℕ := 0
  nBits : BitVec 32
  nNonce : ℕ := 0
  deriving DecidableEq, Repr

/-- `CBlock`.  The memo fields `fChecked` and `m_checked_merkle_root` are left out: they only skip
checks that the same block has passed before. -/
structure Block extends BlockHeader where
  vtx : List Transaction
  deriving DecidableEq, Repr

/-- The functions on headers. -/
structure HeaderFns where
  /-- `CBlockHeader::GetHash`. -/
  getHash : BlockHeader → Uint256
  /-- `DataStream ss; ss << header`. -/
  serialize : BlockHeader → List UInt8

end KPCoin
