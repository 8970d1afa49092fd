import KPCoin.Pow.Work

/-!
# RandomX proof of work

The RandomX hash of a header and its rotating key (`pow.cpp`, `crypto/randomx_wrapper.cpp`).  What
`RandomXWrapper::Hash` computes is a parameter here.
-/

namespace KPCoin.Pow

open Chain

/-- `RANDOMX_KEY_INTERVAL`. -/
def randomxKeyInterval : ℤ := 2048

/-- `RANDOMX_GENESIS_KEY`. -/
def randomxGenesisKey : List UInt8 := "KPCoin Genesis Block 2026".toUTF8.toList

/-- The bytes of a `uint256`, the lowest one first. -/
def uint256Bytes (h : Uint256) : List UInt8 :=
  (List.range 32).map fun i => UInt8.ofNat (h >>> (8 * i)).toNat

/-- `RandomXWrapper::GetKeyBlockHeight`; `-1` stands for the genesis key. -/
def getKeyBlockHeight (nHeight : ℤ) : ℤ :=
  if nHeight < randomxKeyInterval then -1
  else nHeight - nHeight.tmod randomxKeyInterval - 1

/-- The loop of `GetRandomXKey` back to the key block. -/
def walkToKeyBlock (keyBlockHeight : ℤ) : Branch → Branch
  | [] => []
  | b :: rest =>
    if (b.nHeight : ℤ) > keyBlockHeight then walkToKeyBlock keyBlockHeight rest else b :: rest

/-- The key block `GetRandomXKey` selects for the block after `pindexPrev`, if it is not the
genesis key. -/
def selectKeyBlock (pindexPrev : Branch) : Option BlockIndex :=
  let nNextHeight : ℤ := pindexPrev.head?.elim 0 fun b => b.nHeight + 1
  let keyBlockHeight := getKeyBlockHeight nNextHeight
  if keyBlockHeight < 0 then none
  else (walkToKeyBlock keyBlockHeight pindexPrev).head?.filter fun b =>
    decide ((b.nHeight : ℤ) = keyBlockHeight)

/-- `GetRandomXKey`. -/
def getRandomXKey (pindexPrev : Branch) : List UInt8 × ℤ :=
  match selectKeyBlock pindexPrev with
  | none => (randomxGenesisKey, -1)
  | some b => (uint256Bytes b.hash, b.nHeight)

/-- The hash of the key block, null for the genesis key. -/
def keyBlockHash (pindexPrev : Branch) : Uint256 :=
  (selectKeyBlock pindexPrev).elim 0 BlockIndex.hash

/-- What RandomX computes from an input and a key. -/
abbrev RandomXHash := (input key : List UInt8) → Uint256

variable (p : Params) (H : HeaderFns) (rx : RandomXHash)

/-- `GetRandomXBlockHash`. -/
def getRandomXBlockHash (header : BlockHeader) (nHeight : ℤ) (keyHash : Uint256) : Uint256 :=
  let key := if getKeyBlockHeight nHeight < 0 then randomxGenesisKey else uint256Bytes keyHash
  rx (H.serialize header) key

/-- `CheckProofOfWorkRandomX`. -/
def checkProofOfWorkRandomX (header : BlockHeader) (nHeight : ℤ) (keyHash : Uint256)
    (nBits : Compact) : Bool :=
  if nHeight = 0 then true
  else checkProofOfWork p (getRandomXBlockHash H rx header nHeight keyHash) nBits

end KPCoin.Pow
