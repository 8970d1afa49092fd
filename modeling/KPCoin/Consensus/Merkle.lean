import KPCoin.Consensus.External

/-!
# Merkle roots

`ComputeMerkleRoot` (`consensus/merkle.cpp`): each round hashes the list pairwise, repeating the
last hash of an odd list, and notes whether the two hashes of a pair were equal.
-/

namespace KPCoin.Consensus

variable (T : TxFns)

/-- One round of hashing. -/
def hashPairs : List Uint256 → List Uint256
  | [] => []
  | [a] => [T.sha256D64 a a]
  | a :: b :: rest => T.sha256D64 a b :: hashPairs rest

/-- Two hashes of a pair are equal. -/
def pairMutated : List Uint256 → Bool
  | a :: b :: rest => a == b || pairMutated rest
  | _ => false

/-- The rounds, at most one for each hash of the list. -/
def merkleRounds : ℕ → List Uint256 → Bool → Uint256 × Bool
  | rounds + 1, a :: b :: rest, mutation =>
    merkleRounds rounds (hashPairs T (a :: b :: rest)) (mutation || pairMutated (a :: b :: rest))
  | _, hashes, mutation => (hashes.headD 0, mutation)

/-- `ComputeMerkleRoot`. -/
def computeMerkleRoot (hashes : List Uint256) : Uint256 × Bool :=
  merkleRounds T hashes.length hashes false

/-- `BlockMerkleRoot`. -/
def blockMerkleRoot (vtx : List Transaction) : Uint256 × Bool :=
  computeMerkleRoot T (vtx.map T.getHash)

end KPCoin.Consensus
