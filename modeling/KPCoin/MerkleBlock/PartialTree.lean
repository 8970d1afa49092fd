import KPCoin.Consensus.Merkle
import KPCoin.Primitives.Serialize

/-!
# Partial Merkle trees

`CPartialMerkleTree` (`merkleblock.cpp`, `merkleblock.h`) proves that some transactions are in a
block.  The tree over the transaction ids is traversed depth first.  A flag says of each node that
is visited whether there is a match below; a node without a match, or a leaf, has its hash stored,
and the traversal does not go below it.

`Hash(left, right)` is the double SHA-256 of 64 bytes, which `ComputeMerkleRoot` has from
`SHA256D64`.  The numbers of transactions that are let through are small, so the 32-bit arithmetic
of the source does not overflow and the model has natural numbers.
-/

namespace KPCoin.MerkleBlock

open Serialize

/-- `BitsToBytes`. -/
def bitsToBytes (bits : List Bool) : List UInt8 :=
  bits.zipIdx.foldl
    (fun ret b => ret.modify (b.2 / 8) (· ||| UInt8.ofNat (b.1.toNat <<< (b.2 % 8))))
    (List.replicate ((bits.length + 7) / 8) 0)

/-- `BytesToBits`. -/
def bytesToBits (bytes : List UInt8) : List Bool :=
  (List.range (bytes.length * 8)).map fun p =>
    (bytes.getD (p / 8) 0).toNat &&& (1 <<< (p % 8)) != 0

/-- `CPartialMerkleTree`. -/
structure PartialMerkleTree where
  nTransactions : ℕ
  vBits : List Bool
  vHash : List Uint256
  fBad : Bool
  deriving DecidableEq, Repr

/-- `CalcTreeWidth`: the number of nodes at a height. -/
def calcTreeWidth (nTransactions height : ℕ) : ℕ := (nTransactions + (1 <<< height) - 1) >>> height

/-- The loop for the height of the tree. -/
def heightLoop (nTransactions : ℕ) : ℕ → ℕ → ℕ
  | 0, nHeight => nHeight
  | rounds + 1, nHeight =>
    if calcTreeWidth nTransactions nHeight > 1 then heightLoop nTransactions rounds (nHeight + 1)
    else nHeight

/-- The height of the tree. -/
def treeHeight (nTransactions : ℕ) : ℕ := heightLoop nTransactions nTransactions 0

section Build

variable (T : TxFns) (vTxid : List Uint256)

/-- `CalcHash`.  It is only called for nodes of the tree, so no read is out of range. -/
def calcHash : ℕ → ℕ → Uint256
  | 0, pos => vTxid.getD pos 0
  | height + 1, pos =>
    let left := calcHash height (pos * 2)
    let right := if pos * 2 + 1 < calcTreeWidth vTxid.length height then
      calcHash height (pos * 2 + 1) else left
    T.sha256D64 left right

variable (vMatch : List Bool)

/-- There is a match below a node. -/
def parentOfMatch (height pos : ℕ) : Bool :=
  (List.range' (pos <<< height) (2 ^ height)).any fun p =>
    decide (p < vTxid.length) && vMatch.getD p false

/-- `TraverseAndBuild`, on `vBits` and `vHash`. -/
def traverseAndBuild : ℕ → ℕ → List Bool × List Uint256 → List Bool × List Uint256
  | 0, pos, (vBits, vHash) =>
    (vBits ++ [parentOfMatch vTxid vMatch 0 pos], vHash ++ [calcHash T vTxid 0 pos])
  | height + 1, pos, (vBits, vHash) =>
    let fParentOfMatch := parentOfMatch vTxid vMatch (height + 1) pos
    let vBits := vBits ++ [fParentOfMatch]
    if !fParentOfMatch then (vBits, vHash ++ [calcHash T vTxid (height + 1) pos])
    else
      let s := traverseAndBuild height (pos * 2) (vBits, vHash)
      if pos * 2 + 1 < calcTreeWidth vTxid.length height then
        traverseAndBuild height (pos * 2 + 1) s
      else s

/-- The constructor from the ids and the mask. -/
def build : PartialMerkleTree :=
  let s := traverseAndBuild T vTxid vMatch (treeHeight vTxid.length) 0 ([], [])
  { nTransactions := vTxid.length, vBits := s.1, vHash := s.2, fBad := false }

end Build

/-- Writing a tree. -/
def serialize (t : PartialMerkleTree) : List UInt8 :=
  leBytes 4 t.nTransactions ++ writeVector writeUint256 t.vHash ++
    writeVector (fun b => [b]) (bitsToBytes t.vBits)

/-- Reading a tree. -/
def unserialize : Reader UInt8 PartialMerkleTree := do
  let nTransactions ← readInt 4
  let vHash ← readVector readUint256
  let bytes ← readVector readByte
  return { nTransactions, vHash, vBits := bytesToBits bytes, fBad := false }

/-- What `TraverseAndExtract` changes. -/
structure Extraction where
  nBitsUsed : ℕ := 0
  nHashUsed : ℕ := 0
  vMatch : List Uint256 := []
  vnIndex : List ℕ
  fBad : Bool
  deriving DecidableEq, Repr

section Extract

variable (T : TxFns) (t : PartialMerkleTree)

/-- Use the next stored hash, for a match or not. -/
def useHash (isMatch : Bool) (pos : ℕ) (s : Extraction) : Uint256 × Extraction :=
  match t.vHash[s.nHashUsed]? with
  | none => (0, { s with fBad := true })
  | some hash =>
    let s := { s with nHashUsed := s.nHashUsed + 1 }
    (hash, if isMatch then
      { s with vMatch := s.vMatch ++ [hash], vnIndex := s.vnIndex ++ [pos] } else s)

/-- `TraverseAndExtract`. -/
def traverseAndExtract : ℕ → ℕ → Extraction → Uint256 × Extraction
  | 0, pos, s =>
    match t.vBits[s.nBitsUsed]? with
    | none => (0, { s with fBad := true })
    | some fParentOfMatch => useHash t fParentOfMatch pos { s with nBitsUsed := s.nBitsUsed + 1 }
  | height + 1, pos, s =>
    match t.vBits[s.nBitsUsed]? with
    | none => (0, { s with fBad := true })
    | some false => useHash t false pos { s with nBitsUsed := s.nBitsUsed + 1 }
    | some true =>
      let (left, s) := traverseAndExtract height (pos * 2) { s with nBitsUsed := s.nBitsUsed + 1 }
      if pos * 2 + 1 < calcTreeWidth t.nTransactions height then
        let (right, s) := traverseAndExtract height (pos * 2 + 1) s
        -- equal branches cannot come from different transactions
        (T.sha256D64 left right, if right = left then { s with fBad := true } else s)
      else (T.sha256D64 left left, s)

/-- `MAX_BLOCK_WEIGHT / MIN_TRANSACTION_WEIGHT`. -/
def maxTransactions : ℕ := 4000000 / (4 * 60)

/-- `ExtractMatches`: the root, or null, with the matches and their positions.  `vnIndex` is not
cleared before. -/
def extractMatches (vnIndex : List ℕ) : Uint256 × List Uint256 × List ℕ :=
  if t.nTransactions = 0 then (0, [], vnIndex)
  else if t.nTransactions > maxTransactions then (0, [], vnIndex)
  else if t.vHash.length > t.nTransactions then (0, [], vnIndex)
  else if t.vBits.length < t.vHash.length then (0, [], vnIndex)
  else
    let (hashMerkleRoot, s) := traverseAndExtract T t (treeHeight t.nTransactions) 0
      { vnIndex, fBad := t.fBad }
    if s.fBad then (0, s.vMatch, s.vnIndex)
    else if (s.nBitsUsed + 7) / 8 ≠ (t.vBits.length + 7) / 8 then (0, s.vMatch, s.vnIndex)
    else if s.nHashUsed ≠ t.vHash.length then (0, s.vMatch, s.vnIndex)
    else (hashMerkleRoot, s.vMatch, s.vnIndex)

end Extract

end KPCoin.MerkleBlock
