import Mathlib

/-!
# Blind writes

A list of writes to the entries of a map, each of which does not look at what is there.  What an
entry holds afterwards is the last write to it, or what it held before if there is none
(`overwrite_of_notMem`, `overwrite_congr`).

`Tracks` relates two maps that the same writes have been made to.  If the first one began as a
mixture of what the second one was and what it became, they end up equal (`Tracks.eq_of_mixed`).
-/

namespace Overwrite

open List Function

variable {α β : Type*} [DecidableEq α] {m m' : α → β} {ws ws' : List (α × β)} {a : α}

/-- The map after the writes. -/
def overwrite (m : α → β) (ws : List (α × β)) : α → β :=
  ws.foldl (fun m w => Function.update m w.1 w.2) m

@[simp] theorem overwrite_cons (m : α → β) (w : α × β) (ws : List (α × β)) :
    overwrite m (w :: ws) = overwrite (Function.update m w.1 w.2) ws := rfl

theorem overwrite_append (m : α → β) (ws ws' : List (α × β)) :
    overwrite m (ws ++ ws') = overwrite (overwrite m ws) ws' := foldl_append

theorem overwrite_of_notMem (h : a ∉ ws.map Prod.fst) : overwrite m ws a = m a := by
  induction ws generalizing m with
  | nil => rfl
  | cons w ws ih =>
    rw [map_cons, mem_cons, not_or] at h
    rw [overwrite_cons, ih h.2, update_of_ne h.1]

/-- What was there before does not matter where something is written. -/
theorem overwrite_congr (h : a ∈ ws.map Prod.fst ∨ m a = m' a) :
    overwrite m ws a = overwrite m' ws a := by
  induction ws generalizing m m' with
  | nil => exact h.resolve_left not_mem_nil
  | cons w ws ih =>
    rw [overwrite_cons, overwrite_cons]
    apply ih
    by_cases hw : a = w.1
    · exact .inr (by rw [hw, update_self, update_self])
    · rw [update_of_ne hw, update_of_ne hw]
      exact h.imp_left fun hmem => (mem_cons.1 hmem).resolve_left hw

/-- Writes that agree with a map lead to it, if it is reached already where nothing is written. -/
theorem overwrite_eq (hws : ∀ w ∈ ws, w.2 = m' w.1)
    (hrest : ∀ a, a ∉ ws.map Prod.fst → m a = m' a) : overwrite m ws = m' := by
  induction ws generalizing m with
  | nil => exact funext fun a => hrest a not_mem_nil
  | cons w ws ih =>
    rw [overwrite_cons]
    refine ih (fun w hw => hws w (mem_cons_of_mem _ hw)) fun a ha => ?_
    by_cases haw : a = w.1
    · rw [haw, update_self, hws w mem_cons_self]
    · rw [update_of_ne haw]
      exact hrest a (by rw [map_cons, mem_cons, not_or]; exact ⟨haw, ha⟩)

/-- `m` and `u` agree, except where neither has changed since they were `m₀` and `u₀`. -/
def Tracks (m₀ u₀ m u : α → β) : Prop := ∀ a, m a = u a ∨ (m a = m₀ a ∧ u a = u₀ a)

variable {m₀ u₀ u : α → β}

omit [DecidableEq α] in
theorem Tracks.refl (m₀ u₀ : α → β) : Tracks m₀ u₀ m₀ u₀ := fun _ => .inr ⟨rfl, rfl⟩

theorem Tracks.overwrite (h : Tracks m₀ u₀ m u) (ws : List (α × β)) :
    Tracks m₀ u₀ (overwrite m ws) (overwrite u ws) := by
  intro a
  by_cases ha : a ∈ ws.map Prod.fst
  · exact .inl (overwrite_congr (.inl ha))
  · rw [overwrite_of_notMem ha, overwrite_of_notMem ha]
    exact h a

omit [DecidableEq α] in
/-- A mixture of the old and the new map has become the new one. -/
theorem Tracks.eq_of_mixed (h : Tracks m₀ u₀ m u) (hmixed : ∀ a, m₀ a = u₀ a ∨ m₀ a = u a) :
    m = u := by
  funext a
  rcases h a with h | ⟨hm, hu⟩
  · exact h
  · rw [hm]
    exact (hmixed a).elim (fun h => h.trans hu.symm) id

end Overwrite
