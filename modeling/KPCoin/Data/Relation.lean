import Mathlib

/-!
# Reachability when points are added and removed

Two ways of changing a relation that leave the paths between the other points alone: adding a point
that leads nowhere (`withSink`), and dropping points that no path between the others goes through
(`off`), because the dropped set is closed upwards or downwards.

A set that is never entered can be cut off from the rest and joined to it again point by point
(`leaving`): a path stays in the set, or it has left it for good.
-/

namespace Relation

open TransGen

variable {α : Type*} {r : α → α → Prop} {a b t : α}

/-- The relation with edges from the points of `P` to `t`. -/
def withSink (r : α → α → Prop) (P : α → Prop) (t : α) : α → α → Prop :=
  fun a b => r a b ∨ b = t ∧ P a

/-- The relation between the points outside `S`. -/
def off (S : α → Prop) (r : α → α → Prop) : α → α → Prop := fun a b => r a b ∧ ¬ S a ∧ ¬ S b

section WithSink

variable {P : α → Prop}

theorem withSink_of_ne (hb : b ≠ t) : withSink r P t a b ↔ r a b := by simp [withSink, hb]

theorem withSink_to_sink (ht : ∀ x, ¬ r x t) : withSink r P t a t ↔ P a := by
  simp [withSink, ht a]

section

variable (ht : ∀ x, ¬ r t x)
include ht

theorem not_withSink_from_sink (hP : ¬ P t) : ¬ withSink r P t t b := by
  rintro (h | ⟨-, h⟩)
  · exact ht b h
  · exact hP h

/-- Paths that do not end in the new point do not use it. -/
theorem reflTransGen_withSink_of_ne (hP : ¬ P t) (hb : b ≠ t) :
    ReflTransGen (withSink r P t) a b ↔ ReflTransGen r a b := by
  constructor
  · intro h
    induction h with
    | refl => exact .refl
    | @tail c d hac hcd ih =>
      have hc : c ≠ t := by
        rintro rfl
        exact not_withSink_from_sink ht hP hcd
      exact (ih hc).tail ((withSink_of_ne hb).1 hcd)
  · exact ReflTransGen.mono (fun _ _ => Or.inl) a b

/-- Paths to the new point end with one of its edges. -/
theorem transGen_withSink_to_sink (ht' : ∀ x, ¬ r x t) (hP : ¬ P t) :
    TransGen (withSink r P t) a t ↔ ∃ c, P c ∧ ReflTransGen r a c := by
  rw [tail'_iff]
  refine exists_congr fun c => ?_
  rw [withSink_to_sink ht', and_comm]
  refine and_congr_right fun hc => ?_
  refine reflTransGen_withSink_of_ne ht hP ?_
  rintro rfl
  exact hP hc

theorem withSink_acyclic (hP : ¬ P t) (hr : ∀ x, ¬ TransGen r x x) (x : α) :
    ¬ TransGen (withSink r P t) x x := by
  intro h
  by_cases hx : x = t
  · subst hx
    obtain ⟨c, hc, -⟩ := head'_iff.1 h
    exact not_withSink_from_sink ht hP hc
  · obtain ⟨c, hxc, hcx⟩ := tail'_iff.1 h
    have hc : c ≠ t := by
      rintro rfl
      exact not_withSink_from_sink ht hP hcx
    exact hr x (tail'_iff.2
      ⟨c, (reflTransGen_withSink_of_ne ht hP hc).1 hxc, (withSink_of_ne hx).1 hcx⟩)

end

end WithSink

section Off

variable {S : α → Prop}

theorem ReflTransGen.stays_in (hS : ∀ x y, r x y → S x → S y) (h : ReflTransGen r a b)
    (ha : S a) : S b := by
  induction h with
  | refl => exact ha
  | tail _ hcd ih => exact hS _ _ hcd ih

/-- A path that ends in a set that is never entered has always been in it. -/
theorem ReflTransGen.starts_in (hS : ∀ x y, r x y → S y → S x) (h : ReflTransGen r a b)
    (hb : S b) : S a :=
  h.swap.stays_in (fun x y => hS y x) hb

/-- Paths between points outside a set that is closed downwards or upwards do not enter it. -/
theorem reflTransGen_off (hS : (∀ x y, r x y → S x → S y) ∨ ∀ x y, r x y → S y → S x)
    (ha : ¬ S a) (hb : ¬ S b) : ReflTransGen (off S r) a b ↔ ReflTransGen r a b := by
  constructor
  · exact ReflTransGen.mono (fun _ _ => And.left) a b
  · intro h
    induction h with
    | refl => exact .refl
    | @tail c d hac hcd ih =>
      have hc : ¬ S c := by
        rcases hS with hS | hS
        · exact fun hc => hb (hS c d hcd hc)
        · exact fun hc => ha (hac.starts_in hS hc)
      exact (ih hc).tail ⟨hcd, hc, hb⟩

end Off

/-- The relation, with only those edges out of `R` that start in `D`. -/
def leaving (R D : α → Prop) (r : α → α → Prop) : α → α → Prop :=
  fun a b => r a b ∧ (R a → R b ∨ D a)

section Leaving

variable {R D : α → Prop}

variable (hR : ∀ x y, r x y → R y → R x)
include hR

/-- With no edge out of the set left, the paths are those that do not leave it. -/
theorem reflTransGen_leaving_none :
    ReflTransGen (leaving R (fun _ => False) r) a b ↔
      leaving R (fun _ => False) (ReflTransGen r) a b := by
  constructor
  · intro h
    induction h with
    | refl => exact ⟨.refl, .inl⟩
    | tail _ hcd ih =>
      refine ⟨ih.1.tail hcd.1, fun ha => ?_⟩
      exact hcd.2 ((ih.2 ha).resolve_right id)
  · rintro ⟨h, hab⟩
    induction h with
    | refl => exact .refl
    | @tail c d hac hcd ih =>
      have hc : R a → R c := fun ha => hR c d hcd ((hab ha).resolve_right id)
      refine (ih fun ha => .inl (hc ha)).tail ⟨hcd, fun hRc => ?_⟩
      exact .inl ((hab (hac.starts_in hR hRc)).resolve_right id)

section

variable (hD : ∀ x y, r x y → D x → R y → D y)
include hD

theorem ReflTransGen.stays_between (h : ReflTransGen r a b) (ha : D a) (hb : R b) : D b := by
  induction h with
  | refl => exact ha
  | tail _ hcd ih => exact hD _ _ hcd (ih (hR _ _ hcd hb)) hb

/-- From a point of `D` all edges are there, if `D` has everything of the set that comes after it.
-/
theorem reflTransGen_leaving (ha : D a) :
    ReflTransGen (leaving R D r) a b ↔ ReflTransGen r a b := by
  constructor
  · exact ReflTransGen.mono (fun _ _ => And.left) a b
  · intro h
    induction h with
    | refl => exact .refl
    | tail hac hcd ih => exact ih.tail ⟨hcd, fun hc => .inr (hac.stays_between hR hD ha hc)⟩

theorem transGen_leaving (ha : D a) : TransGen (leaving R D r) a b ↔ TransGen r a b := by
  rw [tail'_iff, tail'_iff]
  constructor
  · rintro ⟨c, hac, hcb⟩
    exact ⟨c, (reflTransGen_leaving hR hD ha).1 hac, hcb.1⟩
  · rintro ⟨c, hac, hcb⟩
    exact ⟨c, (reflTransGen_leaving hR hD ha).2 hac, hcb, fun hc =>
      .inr (hac.stays_between hR hD ha hc)⟩

end

/-- Cutting off a set that is never entered breaks every cycle only if there was none. -/
theorem acyclic_of_leaving (h : ∀ x, ¬ TransGen (leaving R (fun _ => False) r) x x) (x : α) :
    ¬ TransGen r x x := by
  intro hx
  obtain ⟨c, hxc, hcx⟩ := tail'_iff.1 hx
  have hback : R x → R c := hR c x hcx
  refine h x (tail'_iff.2 ⟨c, ?_, hcx, fun hRc => .inl (hxc.starts_in hR hRc)⟩)
  exact (reflTransGen_leaving_none hR).2 ⟨hxc, fun hRx => .inl (hback hRx)⟩

end Leaving

theorem transGen_iff_ne_and (hirr : ∀ x, ¬ TransGen r x x) :
    TransGen r a b ↔ a ≠ b ∧ ReflTransGen r a b := by
  rw [reflTransGen_iff_eq_or_transGen]
  constructor
  · intro h
    exact ⟨fun hab => hirr b (hab ▸ h), .inr h⟩
  · rintro ⟨hne, h | h⟩
    · exact absurd h.symm hne
    · exact h

end Relation
