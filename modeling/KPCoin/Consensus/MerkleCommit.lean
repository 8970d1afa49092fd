import KPCoin.Consensus.Merkle
import KPCoin.Data.MerkleTree

/-!
# Merkle roots commit to the leaves

An odd level of the tree repeats its last hash, so two lists of leaves can have the same root.
`ComputeMerkleRoot` reports every pair of equal hashes that it meets (`mutated`), and that is
enough:

* `computeMerkleRoot_spec` : the root is above the leaves, and no level pairs twins if nothing is
  reported;
* `merkleRoot_commits` : two lists with the same root for which nothing is reported are equal,
  unless one of them is empty.

A hash function cannot be injective on all pairs, so collisions are excluded only among the pairs
that are hashed for the two lists (`merklePairs`).
-/

namespace KPCoin.Consensus

open MerkleTree

variable (T : TxFns)

/-- The pairs hashed for a Merkle root. -/
def merklePairs : ℕ → List Uint256 → List (Uint256 × Uint256)
  | rounds + 1, a :: b :: rest =>
    pairs (a :: b :: rest) ++ merklePairs rounds (hashPairs T (a :: b :: rest))
  | _, _ => []

variable {T} {l l' : List Uint256} {rounds : ℕ}

/-- A round of hashing is the next level of the tree. -/
theorem hashPairs_eq_up : (l : List Uint256) → hashPairs T l = up T.sha256D64 l
  | [] => rfl
  | [_] => rfl
  | a :: b :: rest => congrArg (T.sha256D64 a b :: ·) (hashPairs_eq_up rest)

theorem pairMutated_eq_false : {l : List Uint256} → pairMutated l = false → NoTwins l
  | [], _ => trivial
  | [_], _ => trivial
  | a :: b :: rest, h => by
    rw [pairMutated, Bool.or_eq_false_iff, beq_eq_false_iff_ne] at h
    exact ⟨h.1, pairMutated_eq_false h.2⟩

/-- The rounds end at the root, and notice all twins. -/
theorem merkleRounds_spec (mutation : Bool) (hne : l ≠ []) (hle : l.length ≤ rounds) :
    Above T.sha256D64 l [(merkleRounds T rounds l mutation).1] ∧
      ((merkleRounds T rounds l mutation).2 = false → mutation = false ∧ Plain T.sha256D64 l) := by
  induction rounds generalizing l mutation with
  | zero => exact absurd (List.length_eq_zero_iff.1 (by omega)) hne
  | succ rounds ih =>
    match l, hne with
    | [a], _ =>
      refine ⟨.refl, fun h => ⟨h, fun y hy => ?_⟩⟩
      rcases hy.cases_head with rfl | ⟨hlen, -⟩
      · trivial
      · simp at hlen
    | a :: b :: rest, _ =>
      have hlen : 2 ≤ (a :: b :: rest).length := by simp
      have hlength : (hashPairs T (a :: b :: rest)).length ≤ rounds := by
        rw [hashPairs_eq_up, length_up]
        omega
      have hup : hashPairs T (a :: b :: rest) ≠ [] := List.cons_ne_nil _ _
      obtain ⟨habove, hplain⟩ := ih (mutation || pairMutated (a :: b :: rest)) hup hlength
      rw [hashPairs_eq_up] at habove hplain
      rw [merkleRounds, hashPairs_eq_up]
      refine ⟨habove.head hlen, fun h => ?_⟩
      obtain ⟨hmutation, hplain⟩ := hplain h
      rw [Bool.or_eq_false_iff] at hmutation
      refine ⟨hmutation.1, fun y hy => ?_⟩
      rcases hy.cases_head with rfl | ⟨-, hy⟩
      · exact pairMutated_eq_false hmutation.2
      · exact hplain y hy

/-- **What `ComputeMerkleRoot` returns** for a list that is not empty. -/
theorem computeMerkleRoot_spec (hne : l ≠ []) :
    Above T.sha256D64 l [(computeMerkleRoot T l).1] ∧
      ((computeMerkleRoot T l).2 = false → Plain T.sha256D64 l) := by
  obtain ⟨habove, hplain⟩ := merkleRounds_spec false hne (Nat.le_refl _)
  exact ⟨habove, fun h => (hplain h).2⟩

theorem mem_merklePairs {p : Uint256 × Uint256} (hle : l.length ≤ rounds)
    (h : Hashed T.sha256D64 l p) : p ∈ merklePairs T rounds l := by
  induction rounds generalizing l with
  | zero =>
    obtain ⟨y, hy, hlen, -⟩ := h
    rcases hy.cases_head with rfl | ⟨hlen', -⟩ <;> omega
  | succ rounds ih =>
    obtain ⟨y, hy, hlen, hp⟩ := h
    match l with
    | [] => rcases hy.cases_head with rfl | ⟨hlen', -⟩ <;> simp at *
    | [_] => rcases hy.cases_head with rfl | ⟨hlen', -⟩ <;> simp at *
    | a :: b :: rest =>
      rw [merklePairs, List.mem_append]
      rcases hy.cases_head with rfl | ⟨hlen', hy⟩
      · exact .inl hp
      · rw [hashPairs_eq_up]
        refine .inr (ih ?_ ⟨y, hy, hlen, hp⟩)
        rw [length_up]
        omega

/-- **The root commits to the leaves.**  Two lists, both empty or both not, with the same root and
without reported mutation are equal, if no two different pairs hashed for them have the same hash
and no leaf of one is a hash computed for the other. -/
theorem merkleRoot_commits (T : TxFns) (l l' : List Uint256)
    (hinj : ∀ p ∈ merklePairs T l.length l, ∀ q ∈ merklePairs T l'.length l',
      T.sha256D64 p.1 p.2 = T.sha256D64 q.1 q.2 → p = q)
    (hleaf : ∀ x ∈ l, ∀ q ∈ merklePairs T l'.length l', T.sha256D64 q.1 q.2 ≠ x)
    (hleaf' : ∀ x ∈ l', ∀ p ∈ merklePairs T l.length l, T.sha256D64 p.1 p.2 ≠ x)
    (hroot : (computeMerkleRoot T l).1 = (computeMerkleRoot T l').1)
    (hmutated : (computeMerkleRoot T l).2 = false) (hmutated' : (computeMerkleRoot T l').2 = false)
    (hempty : l = [] ↔ l' = []) : l = l' := by
  by_cases hne : l = []
  · rw [hne, hempty.1 hne]
  · obtain ⟨habove, hplain⟩ := computeMerkleRoot_spec hne
    obtain ⟨habove', hplain'⟩ := computeMerkleRoot_spec (mt hempty.2 hne)
    rw [hroot] at habove
    exact eq_of_root_eq (hplain hmutated) (hplain' hmutated')
      (fun p q hp hq => hinj p (mem_merklePairs (Nat.le_refl _) hp) q
        (mem_merklePairs (Nat.le_refl _) hq))
      habove habove' (fun x hx q hq => hleaf x hx q (mem_merklePairs (Nat.le_refl _) hq))
      (fun x hx p hp => hleaf' x hx p (mem_merklePairs (Nat.le_refl _) hp))

/-- Three leaves: the last one is repeated, and the root commits to them. -/
theorem merkleRoot_commits_three : (computeMerkleRoot simpleTxFns [1, 2, 4]).2 = false ∧
    ([1, 2, 4] : List Uint256) = [1, 2, 4] := by
  have hmutated : (computeMerkleRoot simpleTxFns [1, 2, 4]).2 = false := by decide +kernel
  have hpairs : merklePairs simpleTxFns 3 [1, 2, 4] = [(1, 2), (4, 4), (3, 8)] := by decide +kernel
  have hinj : ∀ p ∈ merklePairs simpleTxFns 3 [1, 2, 4],
      ∀ q ∈ merklePairs simpleTxFns 3 [1, 2, 4],
      simpleTxFns.sha256D64 p.1 p.2 = simpleTxFns.sha256D64 q.1 q.2 → p = q := by
    rw [hpairs]
    simp [simpleTxFns]
  have hleaf : ∀ x ∈ ([1, 2, 4] : List Uint256), ∀ p ∈ merklePairs simpleTxFns 3 [1, 2, 4],
      simpleTxFns.sha256D64 p.1 p.2 ≠ x := by
    rw [hpairs]
    simp [simpleTxFns]
  exact ⟨hmutated, merkleRoot_commits simpleTxFns [1, 2, 4] [1, 2, 4] hinj hleaf hleaf rfl hmutated
    hmutated Iff.rfl⟩

/-- The empty list has the root of the list with a single null hash, and nothing is hashed. -/
theorem merkleRoot_empty_list : computeMerkleRoot simpleTxFns [] = (0, false) ∧
    computeMerkleRoot simpleTxFns [0] = (0, false) ∧ merklePairs simpleTxFns 0 [] = [] ∧
      merklePairs simpleTxFns 1 [0] = [] :=
  ⟨rfl, rfl, rfl, rfl⟩

end KPCoin.Consensus
