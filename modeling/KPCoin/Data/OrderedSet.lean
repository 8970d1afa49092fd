import KPCoin.Data.OrderedList

/-!
# Sets that are iterated in order, and walks over a graph with them

An `OrderedSet` is a finite set kept as its increasing list of elements, so that going through it
and taking its first element are functions of the set.

`OrderedSet.closure next n stage done` is the loop that takes the first staged element, moves it to
the set of those done, and stages the elements it leads to that are not done yet.
-/

open Relation

/-- A finite set, as the increasing list of its elements. -/
structure OrderedSet (α : Type*) [LinearOrder α] where
  elems : List α
  sorted : elems.Pairwise (· < ·)

namespace OrderedSet

variable {α : Type*} [LinearOrder α] {s t : OrderedSet α} {x y z : α} {l : List α}

instance : DecidableEq (OrderedSet α) := fun s t =>
  decidable_of_iff (s.elems = t.elems) ⟨fun h => by cases s; cases t; cases h; rfl, congrArg _⟩

instance : Membership α (OrderedSet α) := ⟨fun s x => x ∈ s.elems⟩

instance (x : α) (s : OrderedSet α) : Decidable (x ∈ s) := inferInstanceAs (Decidable (x ∈ s.elems))

instance : EmptyCollection (OrderedSet α) := ⟨⟨[], .nil⟩⟩

@[simp] theorem mem_elems : x ∈ s.elems ↔ x ∈ s := Iff.rfl

@[simp] theorem not_mem_empty : x ∉ (∅ : OrderedSet α) := List.not_mem_nil

theorem nodup (s : OrderedSet α) : s.elems.Nodup := s.sorted.imp ne_of_lt

/-- The number of elements. -/
def size (s : OrderedSet α) : ℕ := s.elems.length

/-- The set without its order. -/
def toFinset (s : OrderedSet α) : Finset α := ⟨s.elems, s.nodup⟩

@[simp] theorem mem_toFinset : x ∈ s.toFinset ↔ x ∈ s := Iff.rfl

@[simp] theorem toFinset_elems : s.elems.toFinset = s.toFinset := by
  ext x
  simp

@[simp] theorem card_toFinset : s.toFinset.card = s.size := rfl

@[simp] theorem toFinset_empty : (∅ : OrderedSet α).toFinset = ∅ := rfl

@[simp] theorem size_empty : (∅ : OrderedSet α).size = 0 := rfl

/-- The first element. -/
def begin? (s : OrderedSet α) : Option α := s.elems.head?

theorem mem_of_begin? (h : s.begin? = some x) : x ∈ s := List.mem_of_head? h

theorem not_mem_of_begin? (h : s.begin? = none) : x ∉ s := by
  have hnil : s.elems = [] := List.head?_eq_none_iff.1 h
  rw [← mem_elems, hnil]
  exact List.not_mem_nil

theorem pairwise_link (hl : l.Pairwise (· < ·)) (hx : x ∉ l) :
    (OrderedList.link id x l).Pairwise (· < ·) := by
  have hle : OrderedList.Sorted id l := hl.imp le_of_lt
  have hnodup : (OrderedList.link id x l).Nodup :=
    (OrderedList.link_perm x l).nodup_iff.2 (List.nodup_cons.2 ⟨hx, hl.imp ne_of_lt⟩)
  exact List.Pairwise.imp₂ (fun _ _ hle hne => lt_of_le_of_ne hle hne) hle.link hnodup

/-- Put an element into the set. -/
def insert (x : α) (s : OrderedSet α) : OrderedSet α :=
  if h : x ∈ s.elems then s else ⟨OrderedList.link id x s.elems, pairwise_link s.sorted h⟩

@[simp] theorem mem_insert : y ∈ s.insert x ↔ y = x ∨ y ∈ s := by
  unfold insert
  split_ifs with h
  · refine ⟨.inr, ?_⟩
    rintro (rfl | hy)
    · exact h
    · exact hy
  · rw [← mem_elems, (OrderedList.link_perm x s.elems).mem_iff, List.mem_cons, mem_elems]

/-- Take an element out of the set. -/
def erase (x : α) (s : OrderedSet α) : OrderedSet α :=
  ⟨s.elems.erase x, s.sorted.sublist List.erase_sublist⟩

@[simp] theorem mem_erase : y ∈ s.erase x ↔ y ≠ x ∧ y ∈ s := s.nodup.mem_erase_iff

@[simp] theorem toFinset_insert : (s.insert x).toFinset = Insert.insert x s.toFinset := by
  ext y
  simp

@[simp] theorem toFinset_erase : (s.erase x).toFinset = s.toFinset.erase x := by
  ext y
  simp

theorem size_insert (h : x ∉ s) : (s.insert x).size = s.size + 1 := by
  rw [← card_toFinset, toFinset_insert, Finset.card_insert_of_notMem h, card_toFinset]

theorem size_erase (h : x ∈ s) : (s.erase x).size + 1 = s.size := by
  rw [← card_toFinset, toFinset_erase, Finset.card_erase_add_one (mem_toFinset.2 h), card_toFinset]

/-- Put the elements of a list into the set. -/
def insertAll (l : List α) (s : OrderedSet α) : OrderedSet α := l.foldl (fun s x => s.insert x) s

@[simp] theorem mem_insertAll : y ∈ s.insertAll l ↔ y ∈ l ∨ y ∈ s := by
  induction l generalizing s with
  | nil => simp [insertAll]
  | cons x l ih =>
    have hstep : s.insertAll (x :: l) = (s.insert x).insertAll l := rfl
    rw [hstep, ih, mem_insert, List.mem_cons, or_left_comm, or_assoc]

/-- The elements of a list. -/
def ofList (l : List α) : OrderedSet α := (∅ : OrderedSet α).insertAll l

@[simp] theorem mem_ofList : y ∈ ofList l ↔ y ∈ l := by simp [ofList]

/-- The elements with a property. -/
def filter (P : α → Prop) [DecidablePred P] (s : OrderedSet α) : OrderedSet α :=
  ⟨s.elems.filter P, s.sorted.filter _⟩

@[simp] theorem mem_filter {P : α → Prop} [DecidablePred P] : y ∈ s.filter P ↔ y ∈ s ∧ P y := by
  rw [← mem_elems, filter, List.mem_filter, decide_eq_true_iff, mem_elems]

section Closure

variable (next : α → OrderedSet α)

/-- Stage the elements that are not done. -/
def stageNew (done : OrderedSet α) (l : List α) (stage : OrderedSet α) : OrderedSet α :=
  l.foldl (fun stage y => if y ∈ done then stage else stage.insert y) stage

@[simp] theorem mem_stageNew {done stage : OrderedSet α} :
    y ∈ stageNew done l stage ↔ y ∈ stage ∨ y ∈ l ∧ y ∉ done := by
  induction l generalizing stage with
  | nil => simp [stageNew]
  | cons x l ih =>
    have hstep : stageNew done (x :: l) stage =
        stageNew done l (if x ∈ done then stage else stage.insert x) := rfl
    by_cases x ∈ done
    · grind
    · grind [mem_insert]

/-- Move the first staged element to those done and stage what it leads to, `n` times. -/
def closure : ℕ → OrderedSet α → OrderedSet α → OrderedSet α
  | 0, _, done => done
  | n + 1, stage, done =>
    match stage.begin? with
    | none => done
    | some x =>
      closure n (stageNew (done.insert x) (next x).elems (stage.erase x)) (done.insert x)

theorem closure_of_nothing {stage : OrderedSet α} (h : stage.begin? = none) (n : ℕ)
    (done : OrderedSet α) : closure next n stage done = done := by
  cases n with
  | zero => rfl
  | succ n => rw [closure, h]

end Closure

end OrderedSet
