import KPCoin.Data.OrderedList

/-!
# Containers with several indexes

A `MultiIndex` holds its elements in three orders at once: by a key that has to be unique, and by
two that need not be.  It is built so that the three lists are always sorted and hold the same
elements.

An element is changed by `modify`.  As in the containers this follows, an element whose new unique
key is taken is dropped.
-/

open OrderedList

/-- Elements in the order of three keys, of which the first is unique. -/
structure MultiIndex {α K₁ K₂ K₃ : Type*} [LinearOrder K₁] [LinearOrder K₂] [LinearOrder K₃]
    (k₁ : α → K₁) (k₂ : α → K₂) (k₃ : α → K₃) where
  fst : List α
  snd : List α
  trd : List α
  strict : fst.Pairwise fun a b => k₁ a < k₁ b
  sorted_snd : Sorted k₂ snd
  sorted_trd : Sorted k₃ trd
  perm_snd : snd.Perm fst
  perm_trd : trd.Perm fst

namespace MultiIndex

open List

variable {α K K₁ K₂ K₃ : Type*} [LinearOrder K] [LinearOrder K₁] [LinearOrder K₂] [LinearOrder K₃]
  {k : α → K} {k₁ : α → K₁} {k₂ : α → K₂} {k₃ : α → K₃} {l : List α} {x x' y : α}

instance : Membership α (MultiIndex k₁ k₂ k₃) := ⟨fun I x => x ∈ I.fst⟩

theorem strict_iff : (l.Pairwise fun a b => k a < k b) ↔
    Sorted k l ∧ l.Pairwise fun a b => k a ≠ k b := by
  rw [Sorted, ← pairwise_and_iff]
  exact ⟨List.Pairwise.imp fun h => ⟨h.le, h.ne⟩, List.Pairwise.imp fun h => h.1.lt_of_ne h.2⟩

/-- A sorted list is strictly sorted if it has the same elements as one with unique keys. -/
theorem strict_of_perm {l' : List α} (hs : Sorted k l') (hp : l'.Perm l)
    (hl : l.Pairwise fun a b => k a ≠ k b) : l'.Pairwise fun a b => k a < k b :=
  strict_iff.2 ⟨hs, (hp.pairwise_iff Ne.symm).2 hl⟩

variable (I : MultiIndex k₁ k₂ k₃)

@[simp] theorem mem_fst : x ∈ I.fst ↔ x ∈ I := Iff.rfl

@[simp] theorem mem_snd : x ∈ I.snd ↔ x ∈ I := I.perm_snd.mem_iff

@[simp] theorem mem_trd : x ∈ I.trd ↔ x ∈ I := I.perm_trd.mem_iff

theorem nodup_fst : I.fst.Nodup := I.strict.imp fun h => ne_of_apply_ne k₁ h.ne

theorem nodup_snd : I.snd.Nodup := I.perm_snd.nodup_iff.2 I.nodup_fst

/-- The container without elements. -/
def empty : MultiIndex k₁ k₂ k₃ where
  fst := []
  snd := []
  trd := []
  strict := .nil
  sorted_snd := .nil
  sorted_trd := .nil
  perm_snd := .nil
  perm_trd := .nil

@[simp] theorem not_mem_empty : x ∉ (empty : MultiIndex k₁ k₂ k₃) := not_mem_nil

/-- `emplace`, which fails if the unique key is taken. -/
def emplace (x : α) : Option (MultiIndex k₁ k₂ k₃) :=
  if h : ∀ y ∈ I.fst, k₁ x ≠ k₁ y then
    some
      { fst := link k₁ x I.fst
        snd := link k₂ x I.snd
        trd := link k₃ x I.trd
        strict := strict_of_perm (Sorted.link (strict_iff.1 I.strict).1) (link_perm _ _)
          (pairwise_cons.2 ⟨h, (strict_iff.1 I.strict).2⟩)
        sorted_snd := I.sorted_snd.link
        sorted_trd := I.sorted_trd.link
        perm_snd := ((link_perm _ _).trans (I.perm_snd.cons x)).trans (link_perm _ _).symm
        perm_trd := ((link_perm _ _).trans (I.perm_trd.cons x)).trans (link_perm _ _).symm }
  else none

theorem emplace_eq_some {J : MultiIndex k₁ k₂ k₃} (h : I.emplace x = some J) :
    J.fst.Perm (x :: I.fst) ∧ ∀ y ∈ I, k₁ x ≠ k₁ y := by
  unfold emplace at h
  split_ifs at h with hx
  cases h
  exact ⟨link_perm _ _, hx⟩

variable [DecidableEq α]

/-- `erase`. -/
def erase (x : α) : MultiIndex k₁ k₂ k₃ where
  fst := I.fst.erase x
  snd := I.snd.erase x
  trd := I.trd.erase x
  strict := I.strict.sublist erase_sublist
  sorted_snd := List.Pairwise.sublist erase_sublist I.sorted_snd
  sorted_trd := List.Pairwise.sublist erase_sublist I.sorted_trd
  perm_snd := I.perm_snd.erase x
  perm_trd := I.perm_trd.erase x

@[simp] theorem mem_erase : y ∈ I.erase x ↔ y ≠ x ∧ y ∈ I := I.nodup_fst.mem_erase_iff

/-- `modify`: the element becomes `x'` and takes its new place in each order.  If its new unique
key is taken, it is dropped. -/
def modify (x x' : α) : MultiIndex k₁ k₂ k₃ :=
  if h : x ∈ I.fst ∧ ∀ y ∈ I.fst.erase x, k₁ x' ≠ k₁ y then
    { fst := relink k₁ x x' I.fst
      snd := relink k₂ x x' I.snd
      trd := relink k₃ x x' I.trd
      strict := strict_of_perm (Sorted.relink (strict_iff.1 I.strict).1 h.1) (relink_perm h.1)
        (pairwise_cons.2
          ⟨h.2, (strict_iff.1 (I.strict.sublist erase_sublist)).2⟩)
      sorted_snd := I.sorted_snd.relink (I.perm_snd.mem_iff.2 h.1)
      sorted_trd := I.sorted_trd.relink (I.perm_trd.mem_iff.2 h.1)
      perm_snd := ((relink_perm (I.perm_snd.mem_iff.2 h.1)).trans
        ((I.perm_snd.erase x).cons x')).trans (relink_perm h.1).symm
      perm_trd := ((relink_perm (I.perm_trd.mem_iff.2 h.1)).trans
        ((I.perm_trd.erase x).cons x')).trans (relink_perm h.1).symm }
  else I.erase x

variable {I}

section

variable (hx : x ∈ I) (hfree : ∀ y ∈ I, y ≠ x → k₁ x' ≠ k₁ y)
include hx hfree

theorem modify_perm : (I.modify x x').fst.Perm (x' :: I.fst.erase x) := by
  have h : x ∈ I.fst ∧ ∀ y ∈ I.fst.erase x, k₁ x' ≠ k₁ y :=
    ⟨hx, fun y hy => hfree y (mem_of_mem_erase hy) (I.nodup_fst.mem_erase_iff.1 hy).1⟩
  rw [modify, dif_pos h]
  exact relink_perm hx

theorem mem_modify : y ∈ I.modify x x' ↔ y = x' ∨ y ≠ x ∧ y ∈ I := by
  rw [← mem_fst, (modify_perm hx hfree).mem_iff, mem_cons, I.nodup_fst.mem_erase_iff, mem_fst]

end

end MultiIndex
