import KPCoin.Chain.Index
import KPCoin.Data.OrderStatistic

/-!
# The median of the last times does not go back

`ContextualCheckBlockHeader` demands of a block that its time is after the median time past of its
parent.  Then the median does not go back along a branch (`getMedianTimePast_mono`), although the
times themselves may.
-/

namespace KPCoin.Chain

open List

/-- Each block is later than the median time past of its parent. -/
def TimesIncrease : Branch → Prop
  | [] => True
  | b :: c => (c ≠ [] → getMedianTimePast c < b.nTime) ∧ TimesIncrease c

instance : (c : Branch) → Decidable (TimesIncrease c)
  | [] => isTrue trivial
  | _ :: c =>
    have := instDecidableTimesIncrease c
    inferInstanceAs (Decidable (_ ∧ _))

variable {b : BlockIndex} {c c' : Branch} {m : ℕ}

/-- The times `GetMedianTimePast` looks at. -/
def medianWindow (c : Branch) : List ℕ := (c.take medianTimeSpan).map BlockIndex.nTime

theorem le_getMedianTimePast_iff (hc : c ≠ []) : m ≤ getMedianTimePast c ↔
    (medianWindow c).countP (fun x => decide (x < m)) ≤ (medianWindow c).length / 2 := by
  have hhalf : (medianWindow c).length / 2 < (medianWindow c).length := by
    have := length_pos_iff.2 hc
    rw [medianWindow, length_map, length_take, medianTimeSpan]
    omega
  rw [← le_getD_mergeSort_iff hhalf 0, ← length_mergeSort]
  rfl

/-- The window of the next block: its own time, and all but perhaps the oldest of the others. -/
theorem medianWindow_cons : medianWindow (b :: c) = b.nTime :: (medianWindow c).take 10 := by
  rw [medianWindow, medianWindow, ← map_take, take_take]
  rfl

theorem getMedianTimePast_le_cons (h : c ≠ [] → getMedianTimePast c < b.nTime) :
    getMedianTimePast c ≤ getMedianTimePast (b :: c) := by
  by_cases hc : c = []
  · subst hc
    have hnil : getMedianTimePast [] = 0 := by simp [getMedianTimePast]
    rw [hnil]
    exact Nat.zero_le _
  rw [le_getMedianTimePast_iff (cons_ne_nil b c), medianWindow_cons]
  have hold := (le_getMedianTimePast_iff hc).1 (le_refl (getMedianTimePast c))
  set m := getMedianTimePast c
  have hnew : ¬ b.nTime < m := not_lt.2 (h hc).le
  -- The new time is not below the old median, and no other time is added.
  have hcount : ((medianWindow c).take 10).countP (fun x => decide (x < m)) ≤
      (medianWindow c).countP (fun x => decide (x < m)) :=
    (take_sublist 10 _).countP_le
  rw [countP_cons_of_neg (by simpa using hnew), length_cons, length_take]
  have hlen : (medianWindow c).length ≤ 11 := by
    rw [medianWindow, length_map]
    exact length_take_le _ _
  omega

theorem getMedianTimePast_le (h : ∀ b ∈ c, b.nTime ≤ m) (hc : c ≠ []) :
    getMedianTimePast c ≤ m := by
  by_contra hlt
  have hcount := (le_getMedianTimePast_iff hc).1 (Nat.lt_of_not_le hlt)
  have hall : (medianWindow c).countP (fun x => decide (x < m + 1)) = (medianWindow c).length := by
    rw [countP_eq_length]
    intro t ht
    obtain ⟨b, hb, rfl⟩ := mem_map.1 ht
    exact decide_eq_true (Nat.lt_succ_of_le (h b (mem_of_mem_take hb)))
  have hpos : 0 < (medianWindow c).length := by
    rw [medianWindow, length_map, length_take, medianTimeSpan]
    have := length_pos_iff.2 hc
    omega
  rw [hall] at hcount
  omega

theorem TimesIncrease.suffix (h : TimesIncrease c') (hc : c <:+ c') : TimesIncrease c := by
  induction c' with
  | nil =>
    rw [suffix_nil.1 hc]
    exact trivial
  | cons b c' ih =>
    rcases suffix_cons_iff.1 hc with rfl | hc
    · exact h
    · exact ih h.2 hc

/-- The median time past does not go back along a branch. -/
theorem getMedianTimePast_mono (h : TimesIncrease c') (hc : c <:+ c') :
    getMedianTimePast c ≤ getMedianTimePast c' := by
  induction c' with
  | nil => rw [suffix_nil.1 hc]
  | cons b c' ih =>
    rcases suffix_cons_iff.1 hc with rfl | hc
    · exact le_rfl
    · exact (ih h.2 hc).trans (getMedianTimePast_le_cons h.1)

theorem getMedianTimePast_lt_iff (hc : c ≠ []) : getMedianTimePast c < m ↔
    (medianWindow c).length / 2 < (medianWindow c).countP (fun x => decide (x < m)) := by
  rw [← not_le, le_getMedianTimePast_iff hc, not_le]

/-- **The median time past of a block is at least that of its parent**, on a chain each of whose
blocks is later than the median time past of its parent. -/
theorem getMedianTimePast_parent_le {chain pprev : Branch} (h : TimesIncrease chain)
    (hb : (b :: pprev) <:+ chain) : getMedianTimePast pprev ≤ getMedianTimePast (b :: pprev) :=
  getMedianTimePast_le_cons (h.suffix hb).1

/-- Thirteen blocks, seven of which are earlier than their parents. -/
def unsortedChain : Branch :=
  [16, 17, 20, 15, 23, 14, 15, 17, 21, 12, 13, 11, 10].map fun nTime => blockAt 0 nTime 0

theorem getMedianTimePast_unsortedChain : TimesIncrease unsortedChain ∧
      getMedianTimePast unsortedChain.tail ≤ getMedianTimePast unsortedChain := by
  have htimes : TimesIncrease unsortedChain := by
    simp only [TimesIncrease, unsortedChain, map, ne_eq, reduceCtorEq, not_false_eq_true,
      forall_const, getMedianTimePast_lt_iff (cons_ne_nil _ _)]
    decide
  exact ⟨htimes, getMedianTimePast_parent_le htimes suffix_rfl⟩

end KPCoin.Chain
