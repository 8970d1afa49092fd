import KPCoin.Pow.Work

/-!
# Difficulty transitions on a chain

`PermittedDifficultyTransition` is meant to let through every step of a chain that follows
`GetNextWorkRequired`.  Between retargets it asks for the target of the parent.  This is what the
rule prescribes, except on the genesis block: throughout the first period the rule prescribes the
limit, whatever the target of the genesis block is (`AtLimit`).
-/

namespace KPCoin.Pow

open Chain

variable (H : HeaderFns) (p : Params)

/-- The block `b` continues the branch `c`, with the target the rule prescribes. -/
def Follows (c : Branch) (b : BlockIndex) : Prop :=
  (∃ a ∈ c.head?, b.nHeight = a.nHeight + 1) ∧ b.hash = H.getHash (getBlockHeader b c) ∧
    getNextWorkRequired p c = some b.nBits

/-- A branch of the block index that goes down to a genesis block and on which each block has the
target that `GetNextWorkRequired` prescribes. -/
inductive IndexChain : Branch → Prop
  | genesis {g : BlockIndex} : g.nHeight = 0 → g.hash = H.getHash (getBlockHeader g []) →
      IndexChain [g]
  | next {c : Branch} {b : BlockIndex} : IndexChain c → Follows H p c b → IndexChain (b :: c)

/-- A genesis block with more blocks in its period has the limit as its target. -/
def AtLimit (height : ℤ) (nBits : Compact) : Prop :=
  height = 0 → 1 < p.difficultyAdjustmentInterval → nBits = getCompact p.powLimit

variable {H p} {c : Branch} {a b : BlockIndex} {rest : Branch}

theorem IndexChain.hash_eq (h : IndexChain H p (a :: c)) :
    a.hash = H.getHash (getBlockHeader a c) := by
  cases h with
  | genesis _ hh => exact hh
  | next _ hf => exact hf.2.1

theorem getNextWorkRequired_first (h : (a.nHeight + 1 : ℤ) < p.difficultyAdjustmentInterval) :
    getNextWorkRequired p (a :: rest) = some (getCompact p.powLimit) := by
  simp [getNextWorkRequired, h]

theorem getNextWorkRequired_between {bits : Compact}
    (hr : getNextWorkRequired p (a :: rest) = some bits)
    (h : ¬ (a.nHeight + 1 : ℤ) < p.difficultyAdjustmentInterval) :
    p.difficultyAdjustmentInterval ≠ 0 ∧
      ((a.nHeight + 1 : ℤ).tmod p.difficultyAdjustmentInterval ≠ 0 → bits = a.nBits) := by
  simp only [getNextWorkRequired, h, if_false] at hr
  split_ifs at hr with h0 hm
  · exact ⟨h0, fun _ => (Option.some.inj hr).symm⟩
  · exact ⟨h0, fun h => absurd h hm⟩

theorem getNextWorkRequired_retarget {bits : Compact}
    (hr : getNextWorkRequired p (a :: rest) = some bits)
    (hm : (a.nHeight + 1 : ℤ).tmod p.difficultyAdjustmentInterval = 0) :
    p.difficultyAdjustmentInterval ≠ 0 ∧
      ∃ first, calculateNextWorkRequired p a first = some bits := by
  simp only [getNextWorkRequired] at hr
  split_ifs at hr with hlt h0 hne
  · rw [Int.tmod_eq_of_lt (by omega) hlt] at hm
    omega
  · exact absurd hm hne
  · split at hr
    · cases hr
    · exact ⟨h0, _, hr⟩

theorem IndexChain.bits_first (h : IndexChain H p (a :: c)) (hpos : a.nHeight ≠ 0)
    (hlt : (a.nHeight : ℤ) < p.difficultyAdjustmentInterval) : a.nBits = getCompact p.powLimit := by
  cases h with
  | genesis h0 _ => exact absurd h0 hpos
  | next hc hf =>
    obtain ⟨⟨g, hg, hh⟩, -, hbits⟩ := hf
    obtain ⟨rest, rfl⟩ : ∃ rest, c = g :: rest := List.head?_eq_some_iff.1 hg
    rw [getNextWorkRequired_first (by rw [hh] at hlt; exact hlt)] at hbits
    exact (Option.some.inj hbits).symm

theorem permitted_between {height : ℤ} {old new : Compact}
    (ha : p.fPowAllowMinDifficultyBlocks = false) (h0 : p.difficultyAdjustmentInterval ≠ 0)
    (hm : height.tmod p.difficultyAdjustmentInterval ≠ 0) :
    permittedDifficultyTransition p height old new = some true ↔ old = new := by
  simp [permittedDifficultyTransition, ha, h0, hm]

end KPCoin.Pow
