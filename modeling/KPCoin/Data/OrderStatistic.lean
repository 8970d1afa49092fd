import Mathlib

/-!
# Elements by rank

The element at place `k` of a sorted list, described by counting: it is at least `m` if and only if
no more than `k` elements are below `m`.  The count does not depend on the order of the list, so
`le_getD_mergeSort_iff` speaks of a list before it is sorted.
-/

namespace List

variable {α : Type*} [LinearOrder α] {l : List α} {m : α} {k : ℕ}

theorem le_getElem_iff_countP_le (hl : l.Pairwise (· ≤ ·)) (hk : k < l.length) :
    m ≤ l[k] ↔ l.countP (fun x => decide (x < m)) ≤ k := by
  have hsplit : l.countP (fun x => decide (x < m)) =
      (l.take k).countP (fun x => decide (x < m)) +
        (l.drop k).countP (fun x => decide (x < m)) := by
    rw [← countP_append, take_append_drop]
  have hdrop : l.drop k = l[k] :: l.drop (k + 1) := drop_eq_getElem_cons hk
  have hpair : (l.take k ++ l.drop k).Pairwise (· ≤ ·) := by rwa [take_append_drop]
  obtain ⟨-, hsorted, hcross⟩ := pairwise_append.1 hpair
  constructor
  · intro hle
    have hzero : (l.drop k).countP (fun x => decide (x < m)) = 0 := by
      rw [countP_eq_zero]
      intro x hx
      have hkx : l[k] ≤ x := by
        rw [hdrop] at hx hsorted
        rcases mem_cons.1 hx with rfl | hx
        · exact le_rfl
        · exact (pairwise_cons.1 hsorted).1 x hx
      simpa using hle.trans hkx
    have hlen := countP_le_length (l := l.take k) (p := fun x => decide (x < m))
    rw [length_take] at hlen
    omega
  · intro hcount
    by_contra hlt
    rw [not_le] at hlt
    have hfull : (l.take k).countP (fun x => decide (x < m)) = k := by
      have hall : (l.take k).countP (fun x => decide (x < m)) = (l.take k).length := by
        rw [countP_eq_length]
        intro x hx
        have hxk : x ≤ l[k] := hcross x hx _ (by rw [hdrop]; exact mem_cons_self)
        simpa using hxk.trans_lt hlt
      rw [hall, length_take, min_eq_left hk.le]
    have hone : 0 < (l.drop k).countP (fun x => decide (x < m)) := by
      rw [countP_pos_iff]
      exact ⟨l[k], by rw [hdrop]; exact mem_cons_self, by simpa using hlt⟩
    omega

theorem le_getD_mergeSort_iff (hk : k < l.length) (d : α) :
    m ≤ (l.mergeSort fun a b => decide (a ≤ b)).getD k d ↔
      l.countP (fun x => decide (x < m)) ≤ k := by
  have hsorted := pairwise_mergeSort' (· ≤ ·) l
  have hk' : k < (l.mergeSort fun a b => decide (a ≤ b)).length := by rwa [length_mergeSort]
  rw [getD_eq_getElem _ _ hk', le_getElem_iff_countP_le hsorted hk', (mergeSort_perm l _).countP_eq]

end List
