import KPCoin.Primitives.Block
import KPCoin.Pow.Compact

/-!
# The block index

`CBlockIndex` (`chain.h`).  A block of the index is given with its ancestors, as a list whose head
is the block and whose tail starts with `pprev`; the empty list is the null pointer.  `pskip` only
makes `GetAncestor` faster and is left out.
-/

namespace KPCoin.Chain

open KPCoin.Pow

/-- `CBlockIndex`, apart from its links and status. -/
structure BlockIndex where
  /-- `*phashBlock`. -/
  hash : Uint256
  nHeight : ℕ
  nChainWork : Arith := 0
  nVersion : ℤ := 0
  hashMerkleRoot : Uint256 := 0
  nTime : ℕ := 0
  nBits : Compact
  nNonce : ℕ := 0
  deriving DecidableEq, Repr

/-- A block with nothing but a height, a time and a target. -/
def blockAt (nHeight nTime : ℕ) (nBits : Compact) : BlockIndex :=
  { hash := 0, nHeight, nTime, nBits }

/-- `MAX_FUTURE_BLOCK_TIME`. -/
def maxFutureBlockTime : ℤ := 2 * 60 * 60

/-- A block of the index with its ancestors. -/
abbrev Branch := List BlockIndex

/-- `GetAncestor`, walking the parents. -/
def getAncestor (height : ℤ) : Branch → Branch
  | [] => []
  | b :: rest =>
    if height > b.nHeight ∨ height < 0 then []
    else if b.nHeight = height then b :: rest
    else getAncestor height rest

/-- `GetBlockHeader`. -/
def getBlockHeader (b : BlockIndex) (pprev : Branch) : BlockHeader where
  nVersion := b.nVersion
  hashPrevBlock := pprev.head?.elim 0 BlockIndex.hash
  hashMerkleRoot := b.hashMerkleRoot
  nTime := b.nTime
  nBits := b.nBits
  nNonce := b.nNonce

/-- `nMedianTimeSpan`. -/
def medianTimeSpan : ℕ := 11

/-- `GetMedianTimePast`. -/
def getMedianTimePast (c : Branch) : ℕ :=
  let times := ((c.take medianTimeSpan).map BlockIndex.nTime).mergeSort
  times.getD (times.length / 2) 0

/-- `GetBlockProof` of a block with this target. -/
def getBlockProof (nBits : Compact) : Arith :=
  let t := setCompact nBits
  if t.negative || t.overflow || t.value == 0 then 0
  else ~~~t.value / (t.value + 1) + 1

/-- `GetBlockProofEquivalentTime`. -/
def getBlockProofEquivalentTime (toWork fromWork : Arith) (tipBits : Compact) (spacing : ℤ) : ℤ :=
  let (r, sign) : Arith × ℤ :=
    if toWork > fromWork then (toWork - fromWork, 1) else (fromWork - toWork, -1)
  let r := r * (BitVec.ofInt 64 spacing).setWidth 256 / getBlockProof tipBits
  if Pow.bits r > 63 then sign * (2 ^ 63 - 1) else sign * r.toNat

end KPCoin.Chain
