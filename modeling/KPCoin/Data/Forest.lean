import Mathlib

/-!
# Forests given by parents

A forest is given by the parent of each node, with a height that grows by one from the parent to
the child.  `F.path b` is the node with its ancestors up to the root, so `a ∈ F.path b` says that
`a` is `b` or an ancestor of it.

* `mem_path_trans`, `eq_of_mem_path`, `mem_path_or` : ancestors are an order, linear below a node;
* `path_suffix` : the path of an ancestor is the end of the path;
* `mem_takeWhile_path` : a path cut where it enters another one;
* `climbs_path` : the way from an ancestor up to a node.
-/

/-- A forest on the nodes `B`. -/
structure Forest (B : Type*) where
  parent : B → Option B
  height : B → ℕ
  height_parent : ∀ {b p}, parent b = some p → height b = height p + 1

namespace Forest

open List

variable {B : Type*} (F : Forest B) {a b c p : B}

/-- At most `n` parents above a node. -/
def climb : ℕ → B → List B
  | 0, b => [b]
  | n + 1, b => b :: (F.parent b).elim [] (climb n)

/-- The node and its ancestors, from the node up to the root. -/
def path (b : B) : List B := F.climb (F.height b) b

variable {F} {l1 l2 : List B}

theorem path_root (h : F.parent b = none) : F.path b = [b] := by
  unfold path
  cases F.height b with
  | zero => rfl
  | succ n => rw [climb, h, Option.elim_none]

theorem path_of_parent (h : F.parent b = some p) : F.path b = b :: F.path p := by
  unfold path
  rw [F.height_parent h, climb, h, Option.elim_some]

theorem induction {P : B → Prop} (step : ∀ b, (∀ p, F.parent b = some p → P p) → P b) (b : B) :
    P b := by
  have hP : ∀ n b, F.height b = n → P b := by
    intro n
    induction n with
    | zero =>
      intro b hb
      refine step b fun p hp => ?_
      have := F.height_parent hp
      omega
    | succ n ih =>
      intro b hb
      refine step b fun p hp => ih p ?_
      have := F.height_parent hp
      omega
  exact hP _ b rfl

theorem mem_path_iff : a ∈ F.path b ↔ a = b ∨ ∃ p, F.parent b = some p ∧ a ∈ F.path p := by
  cases h : F.parent b with
  | none => simp [path_root h]
  | some p => simp [path_of_parent h]

@[simp] theorem self_mem_path : b ∈ F.path b := mem_path_iff.2 (.inl rfl)

theorem mem_path_parent (h : F.parent b = some p) (ha : a ∈ F.path p) : a ∈ F.path b :=
  mem_path_iff.2 (.inr ⟨p, h, ha⟩)

theorem parent_mem_path (h : F.parent b = some p) : p ∈ F.path b := mem_path_parent h self_mem_path

@[simp] theorem head?_path : (F.path b).head? = some b := by
  cases h : F.parent b with
  | none => rw [path_root h, head?_cons]
  | some p => rw [path_of_parent h, head?_cons]

theorem path_suffix (h : a ∈ F.path b) : F.path a <:+ F.path b := by
  induction b using F.induction with
  | step b ih =>
    rcases mem_path_iff.1 h with rfl | ⟨p, hp, ha⟩
    · exact suffix_rfl
    · rw [path_of_parent hp]
      exact (ih p hp ha).trans (suffix_cons ..)

theorem mem_path_trans (hab : a ∈ F.path b) (hbc : b ∈ F.path c) : a ∈ F.path c :=
  (path_suffix hbc).mem hab

theorem height_le (h : a ∈ F.path b) : F.height a ≤ F.height b := by
  induction b using F.induction with
  | step b ih =>
    rcases mem_path_iff.1 h with rfl | ⟨p, hp, ha⟩
    · exact Nat.le_refl _
    · have h1 := ih p hp ha
      have h2 := F.height_parent hp
      omega

theorem height_lt (h : a ∈ F.path b) (hne : a ≠ b) : F.height a < F.height b := by
  rcases mem_path_iff.1 h with rfl | ⟨p, hp, ha⟩
  · exact absurd rfl hne
  · have h1 := height_le ha
    have h2 := F.height_parent hp
    omega

/-- A path is long enough to reach the ancestors. -/
theorem height_lt_length (h : a ∈ F.path b) : F.height b < F.height a + (F.path b).length := by
  induction b using F.induction with
  | step b ih =>
    rcases mem_path_iff.1 h with rfl | ⟨p, hp, ha⟩
    · exact Nat.lt_add_of_pos_right (length_pos_of_mem self_mem_path)
    · have h1 := ih p hp ha
      have h2 := F.height_parent hp
      rw [path_of_parent hp, length_cons]
      omega

theorem eq_of_mem_path (hab : a ∈ F.path b) (hba : b ∈ F.path a) : a = b := by
  by_contra hne
  have h1 := height_lt hab hne
  have h2 := height_le hba
  omega

theorem not_mem_path_parent (h : F.parent b = some p) : b ∉ F.path p := by
  intro hb
  have h1 := height_le hb
  have h2 := F.height_parent h
  omega

theorem mem_path_or (ha : a ∈ F.path c) (hb : b ∈ F.path c) : a ∈ F.path b ∨ b ∈ F.path a := by
  induction c using F.induction with
  | step c ih =>
    rcases mem_path_iff.1 ha with rfl | ⟨p, hp, ha'⟩
    · exact .inr hb
    · rcases mem_path_iff.1 hb with rfl | ⟨q, hq, hb'⟩
      · exact .inl ha
      · obtain rfl : p = q := Option.mem_unique hp hq
        exact ih p hp ha' hb'

theorem nodup_path : (F.path b).Nodup := by
  induction b using F.induction with
  | step b ih =>
    cases hp : F.parent b with
    | none => simp [path_root hp]
    | some p =>
      rw [path_of_parent hp]
      exact nodup_cons.2 ⟨not_mem_path_parent hp, ih p hp⟩

theorem mem_path_of_append (h : F.path c = l1 ++ l2) (ha : a ∈ l1) (hb : b ∈ l2) :
    b ∈ F.path a ∧ b ≠ a := by
  refine ⟨?_, fun he => ?_⟩
  · induction c using F.induction generalizing l1 with
    | step c ih =>
      cases l1 with
      | nil => cases ha
      | cons x l1 =>
        have hbc : b ∈ F.path c := h ▸ mem_append_right _ hb
        have hx : x = c := by
          have := (head?_path : (F.path c).head? = some c)
          rw [h] at this
          exact Option.some.inj this
        subst hx
        rcases mem_cons.1 ha with rfl | ha
        · exact hbc
        · cases hp : F.parent x with
          | none =>
            rw [path_root hp, cons_append, cons.injEq] at h
            rw [(append_eq_nil_iff.1 h.2.symm).1] at ha
            cases ha
          | some p =>
            rw [path_of_parent hp, cons_append, cons.injEq] at h
            exact ih p hp h.2 ha
  · subst he
    have hnodup := (nodup_path : (F.path c).Nodup)
    rw [h, nodup_append] at hnodup
    exact hnodup.2.2 b ha b hb rfl

variable (F) in
/-- Each node is a child of the one before, and the first one of `a`. -/
def Climbs : B → List B → Prop
  | _, [] => True
  | a, b :: l => F.parent b = some a ∧ Climbs b l

theorem climbs_append : F.Climbs a (l1 ++ l2) ↔ F.Climbs a l1 ∧ F.Climbs (l1.getLastD a) l2 := by
  induction l1 generalizing a with
  | nil => simp [Climbs]
  | cons b l1 ih =>
    rw [cons_append, Climbs, Climbs, ih, getLastD_cons, and_assoc]

theorem getLastD_append (l1 l2 : List B) (a : B) :
    (l1 ++ l2).getLastD a = l2.getLastD (l1.getLastD a) := by
  simp

section Cut

variable [DecidableEq B]

theorem takeWhile_ne_self : (F.path b).takeWhile (fun x => decide (x ≠ b)) = [] := by
  obtain ⟨l, hl⟩ := head?_eq_some_iff.1 (head?_path : (F.path b).head? = some b)
  simp [hl]

theorem takeWhile_ne_of_parent (hp : F.parent b = some p) (ha : a ∈ F.path p) :
    (F.path b).takeWhile (fun x => decide (x ≠ a)) =
      b :: (F.path p).takeWhile (fun x => decide (x ≠ a)) := by
  have hne : b ≠ a := by
    rintro rfl
    exact not_mem_path_parent hp ha
  rw [path_of_parent hp, takeWhile_cons, if_pos (decide_eq_true hne)]

/-- The part of a path below an ancestor. -/
theorem mem_of_mem_takeWhile_ne (ha : a ∈ F.path b)
    (hc : c ∈ (F.path b).takeWhile (fun x => decide (x ≠ a))) :
    c ∈ F.path b ∧ a ∈ F.path c ∧ c ≠ a := by
  induction b using F.induction with
  | step b ih =>
    rcases mem_path_iff.1 ha with rfl | ⟨p, hp, hap⟩
    · rw [takeWhile_ne_self] at hc
      cases hc
    · rw [takeWhile_ne_of_parent hp hap] at hc
      rcases mem_cons.1 hc with rfl | hc
      · refine ⟨self_mem_path, ha, ?_⟩
        rintro rfl
        exact not_mem_path_parent hp hap
      · obtain ⟨h1, h2⟩ := ih p hp hap hc
        exact ⟨mem_path_parent hp h1, h2⟩

theorem climbs_path (ha : a ∈ F.path b) :
    F.Climbs a ((F.path b).takeWhile (fun x => decide (x ≠ a))).reverse ∧
      ((F.path b).takeWhile (fun x => decide (x ≠ a))).reverse.getLastD a = b := by
  induction b using F.induction with
  | step b ih =>
    rcases mem_path_iff.1 ha with rfl | ⟨p, hp, hap⟩
    · rw [takeWhile_ne_self]
      exact ⟨trivial, rfl⟩
    · obtain ⟨h1, h2⟩ := ih p hp hap
      rw [takeWhile_ne_of_parent hp hap, reverse_cons, climbs_append, h2]
      exact ⟨⟨h1, hp, trivial⟩, by simp⟩

/-- The part of a path before it enters a set that is closed under parents. -/
theorem mem_takeWhile_path {S : List B} (hS : ∀ x ∈ S, ∀ y ∈ F.path x, y ∈ S) :
    a ∈ (F.path b).takeWhile (fun x => decide (x ∉ S)) ↔ a ∈ F.path b ∧ a ∉ S := by
  induction b using F.induction with
  | step b ih =>
    by_cases hb : b ∈ S
    · have hall : ∀ x ∈ F.path b, x ∈ S := hS b hb
      have hnil : (F.path b).takeWhile (fun x => decide (x ∉ S)) = [] := by
        obtain ⟨l, hl⟩ := head?_eq_some_iff.1 (head?_path : (F.path b).head? = some b)
        simp [hl, hb]
      rw [hnil]
      simp only [not_mem_nil, false_iff, not_and, not_not]
      exact hall a
    · cases hp : F.parent b with
      | none =>
        rw [path_root hp]
        simp only [takeWhile_cons, hb, not_false_eq_true, decide_true, if_true,
          takeWhile_nil, mem_singleton]
        exact ⟨fun h => ⟨h, h ▸ hb⟩, fun h => h.1⟩
      | some p =>
        rw [path_of_parent hp]
        simp only [takeWhile_cons, hb, not_false_eq_true, decide_true, if_true, mem_cons, ih p hp]
        constructor
        · rintro (rfl | ⟨h1, h2⟩)
          · exact ⟨.inl rfl, hb⟩
          · exact ⟨.inr h1, h2⟩
        · rintro ⟨rfl | h1, h2⟩
          · exact .inl rfl
          · exact .inr ⟨h1, h2⟩

end Cut

end Forest
