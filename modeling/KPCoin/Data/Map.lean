import Mathlib

/-!
# Finite maps with totals

Finite maps are Mathlib's association lists without duplicate keys.  Operations on all the values
of a map are added here.

* `Map.modify k f m` rewrites the value at one key, if there is one;
* `Map.filterMapVals f m` rewrites every value of `m` by `f`, dropping the keys where `f` answers
  `none`;
* `Map.tally key f b l` goes through a list and updates by `f`, for each element, the value at its
  key;
* `Map.total g m` adds up `g` over the values of `m`.  In a commutative group each update of the
  map changes the total by the difference of the old and the new value (`total_insert`,
  `total_erase`).
-/

/-- Finite maps from `α` to `β`. -/
abbrev Map (α β : Type*) := AList fun _ : α => β

namespace Map

open List

variable {α β γ : Type*} (f : β → Option β)

section Lookup

variable [DecidableEq α] {m : Map α β}

theorem lookup_insert_eq_ite (m : Map α β) (k k' : α) (v : β) :
    (m.insert k v).lookup k' = if k' = k then some v else m.lookup k' := by
  split_ifs with h
  · subst h; exact AList.lookup_insert m
  · exact AList.lookup_insert_ne h

theorem lookup_erase_eq_ite (m : Map α β) (k k' : α) :
    (m.erase k).lookup k' = if k' = k then none else m.lookup k' := by
  split_ifs with h
  · subst h; exact AList.lookup_erase k' m
  · exact AList.lookup_erase_ne h

theorem lookup_eq_some_iff {k : α} {v : β} :
    m.lookup k = some v ↔ (⟨k, v⟩ : Sigma fun _ : α => β) ∈ m.entries :=
  AList.mem_lookup_iff

/-- Rewrite the value at `k` by `f`, if there is one. -/
def modify (k : α) (f : β → β) (m : Map α β) : Map α β :=
  match m.lookup k with
  | some v => m.insert k (f v)
  | none => m

theorem lookup_modify (k : α) (f : β → β) (m : Map α β) (k' : α) :
    (m.modify k f).lookup k' = if k' = k then (m.lookup k).map f else m.lookup k' := by
  unfold modify
  cases h : m.lookup k with
  | some v => exact lookup_insert_eq_ite m k k' (f v)
  | none =>
    split_ifs with hk
    · rw [hk, h]; rfl
    · rfl

theorem modify_congr {k : α} {f f' : β → β} {v : β} (h : m.lookup k = some v)
    (hf : f v = f' v) : m.modify k f = m.modify k f' := by
  simp [modify, h, hf]

end Lookup

/-- `filterMapVals` on the entries. -/
def filterMapEntries (f : β → Option β) (l : List (Sigma fun _ : α => β)) :
    List (Sigma fun _ : α => β) :=
  l.filterMap fun x => (f x.2).map (Sigma.mk x.1)

theorem keys_filterMapEntries_sublist (l : List (Sigma fun _ : α => β)) :
    (filterMapEntries f l).keys.Sublist l.keys := by
  induction l with
  | nil => simp [filterMapEntries]
  | cons x l ih =>
    cases h : f x.2 with
    | none => simpa [filterMapEntries, h] using ih.cons x.1
    | some v => simpa [filterMapEntries, h] using ih.cons_cons x.1

/-- Rewrite every value by `f`, dropping the keys where `f` answers `none`. -/
def filterMapVals (f : β → Option β) (m : Map α β) : Map α β where
  entries := filterMapEntries f m.entries
  nodupKeys := (keys_filterMapEntries_sublist f m.entries).nodup m.nodupKeys

theorem lookup_filterMapVals [DecidableEq α] (m : Map α β) (k : α) :
    (m.filterMapVals f).lookup k = (m.lookup k).bind f := by
  ext v
  simp only [lookup_eq_some_iff, filterMapVals, filterMapEntries, mem_filterMap,
    Option.map_eq_some_iff, Option.bind_eq_some_iff]
  constructor
  · rintro ⟨⟨k', u⟩, hu, v', hf, h⟩
    cases h
    exact ⟨u, hu, hf⟩
  · rintro ⟨u, hu, hf⟩
    exact ⟨⟨k, u⟩, hu, v, hf, rfl⟩

/-- For each element of the list, update the value at its key, starting from `b`. -/
def tally [DecidableEq α] (key : γ → α) (f : β → γ → β) (b : β) (l : List γ) : Map α β :=
  l.foldl (fun m x => m.insert (key x) (f ((m.lookup (key x)).getD b) x)) ∅

/-- The value at a key is that of the elements with this key. -/
theorem lookup_tally [DecidableEq α] (key : γ → α) (f : β → γ → β) (b : β) (l : List γ) (k : α) :
    (tally key f b l).lookup k =
      if ∃ x ∈ l, key x = k then some ((l.filter fun x => decide (key x = k)).foldl f b)
      else none := by
  induction l using reverseRecOn with
  | nil => simp [tally]
  | append_singleton l x ih =>
    have hstep : tally key f b (l ++ [x]) = (tally key f b l).insert (key x)
        (f (((tally key f b l).lookup (key x)).getD b) x) := by
      simp [tally]
    rw [hstep, lookup_insert_eq_ite]
    by_cases hk : k = key x
    · subst hk
      rw [ih]
      by_cases hex : ∃ y ∈ l, key y = key x
      · simp [hex]
      · have hnone : l.filter (fun y => decide (key y = key x)) = [] := by
          simpa using hex
        simp [hex, hnone]
    · have hk' : ¬ key x = k := fun h => hk h.symm
      simp [hk, hk', ih]

variable [AddCommGroup γ] (g : β → γ)

/-- The sum of `g` over the values of the map. -/
def total (m : Map α β) : γ := (m.entries.map fun x => g x.2).sum

theorem sum_kerase [DecidableEq α] (l : List (Sigma fun _ : α => β)) (k : α) :
    ((l.kerase k).map fun x => g x.2).sum =
      (l.map fun x => g x.2).sum - ((l.dlookup k).elim 0 g) := by
  induction l with
  | nil => simp
  | cons x l ih =>
    by_cases h : k = x.1
    · obtain ⟨k', v⟩ := x
      obtain rfl : k = k' := h
      simp
    · obtain ⟨k', v⟩ := x
      rw [kerase_cons_ne h, dlookup_cons_ne l _ h]
      simp only [map_cons, sum_cons, ih]
      abel

theorem total_erase [DecidableEq α] (m : Map α β) (k : α) :
    total g (m.erase k) = total g m - (m.lookup k).elim 0 g :=
  sum_kerase g m.entries k

theorem total_insert [DecidableEq α] (m : Map α β) (k : α) (v : β) :
    total g (m.insert k v) = total g m - (m.lookup k).elim 0 g + g v := by
  have : total g (m.insert k v) = g v + total g (m.erase k) := by
    simp [total, AList.erase]
  rw [this, total_erase, add_comm]

theorem total_modify [DecidableEq α] {m : Map α β} {k : α} {v : β} (h : m.lookup k = some v)
    (f : β → β) : total g (m.modify k f) = total g m - g v + g (f v) := by
  rw [modify]
  simp [total_insert, h]

/-- Rewriting one value does not change the total if it does not change what the value counts. -/
theorem total_modify_of_eq [DecidableEq α] {k : α} {f : β → β} (hf : ∀ v, g (f v) = g v)
    (m : Map α β) : total g (m.modify k f) = total g m := by
  cases h : m.lookup k with
  | some v => rw [total_modify g h, hf, sub_add_cancel]
  | none => rw [modify, h]

theorem total_congr_off [DecidableEq α] {g' : β → γ} {m : Map α β} {k : α} {v : β}
    (h : m.lookup k = some v) (hg : ∀ k' v', k' ≠ k → m.lookup k' = some v' → g' v' = g v') :
    total g' m = total g m - g v + g' v := by
  have hrest : total g' (m.erase k) = total g (m.erase k) := by
    refine congrArg sum (map_congr_left fun x hx => ?_)
    have hx' : (m.erase k).lookup x.1 = some x.2 := lookup_eq_some_iff.2 hx
    rw [lookup_erase_eq_ite] at hx'
    split_ifs at hx' with hk
    exact hg x.1 x.2 hk hx'
  rw [total_erase, total_erase, h, sub_eq_iff_eq_add] at hrest
  exact hrest

/-- The total after rewriting all values loses what the dropped and rewritten values lose. -/
theorem total_filterMapVals (m : Map α β) :
    total g (m.filterMapVals f) = total g m - total (fun v => g v - (f v).elim 0 g) m := by
  simp only [total, filterMapVals, filterMapEntries]
  induction m.entries with
  | nil => simp
  | cons x l ih =>
    cases h : f x.2 with
    | none => simp [h, ih]
    | some v => simp [h, ih]; abel

end Map
