import Mathlib

/-!
# How often a function takes a value

`fiberCard f b` is the number of points at which `f` has the value `b`.  It can be followed through
changes at single points (`fiberCard_update`).
-/

variable {α β : Type*} [Fintype α] [DecidableEq β] {f : α → β} {b : β}

/-- The number of points that `f` maps to `b`. -/
def fiberCard (f : α → β) (b : β) : ℕ := (Finset.univ.filter fun a => f a = b).card

theorem fiberCard_eq_zero : fiberCard f b = 0 ↔ ∀ a, f a ≠ b := by
  simp [fiberCard]

theorem fiberCard_pos : 0 < fiberCard f b ↔ ∃ a, f a = b := by
  rw [pos_iff_ne_zero, ne_eq, fiberCard_eq_zero]
  simp

theorem fiberCard_congr {f g : α → β} (h : ∀ a, f a = b ↔ g a = b) :
    fiberCard f b = fiberCard g b := by
  simp [fiberCard, h]

omit [Fintype α] [DecidableEq β] in
theorem update_eq_iff [DecidableEq α] {a x : α} {y b : β} (hb : b ≠ f a) (hy : b ≠ y) :
    Function.update f a y x = b ↔ f x = b := by
  rw [Function.update_apply]
  split_ifs with h
  · exact iff_of_false hy.symm (h ▸ hb.symm)
  · exact .rfl

omit [Fintype α] [DecidableEq β] in
theorem update_cases [DecidableEq α] {a x : α} {y : β} (h : Function.update f a y x = b) :
    (x = a ∧ y = b) ∨ (x ≠ a ∧ f x = b) := by
  rw [Function.update_apply] at h
  split_ifs at h with hx
  · exact .inl ⟨hx, h⟩
  · exact .inr ⟨hx, h⟩

theorem fiberCard_update [DecidableEq α] (f : α → β) (a : α) (y b : β) :
    (fiberCard (Function.update f a y) b : ℤ) =
      fiberCard f b - (if f a = b then 1 else 0) + if y = b then 1 else 0 := by
  have hsum : ∀ g : α → β, (fiberCard g b : ℤ) =
      ∑ x ∈ Finset.univ.erase a, (if g x = b then 1 else 0) + if g a = b then 1 else 0 := by
    intro g
    rw [Finset.sum_erase_add _ _ (Finset.mem_univ a), fiberCard, Finset.card_filter]
    push_cast
    rfl
  have hrest : ∑ x ∈ Finset.univ.erase a, (if Function.update f a y x = b then (1 : ℤ) else 0) =
      ∑ x ∈ Finset.univ.erase a, if f x = b then 1 else 0 :=
    Finset.sum_congr rfl fun x hx => by
      rw [Function.update_of_ne (Finset.ne_of_mem_erase hx)]
  rw [hsum, hsum f, hrest, Function.update_self]
  ring

theorem countP_eq_fiberCard {l : List α} (hl : l.Nodup) (hmem : ∀ a, a ∈ l) (f : α → β) (b : β) :
    l.countP (fun a => f a = b) = fiberCard f b := by
  classical
  have huniv : Finset.univ = l.toFinset := by
    ext a
    simp [hmem a]
  rw [fiberCard, huniv, List.filter_toFinset, List.toFinset_card_of_nodup (hl.filter _),
    List.countP_eq_length_filter]
