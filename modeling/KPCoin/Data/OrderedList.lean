import Mathlib

/-!
# Lists kept in the order of a key

An index of a container that allows equal keys is a list that is sorted by its key, in which a new
element comes after those with an equal key (`link`), and an element whose key has changed moves
only if it is out of order where it is (`relink`).

The neighbours of an element and the bounds of a range are then characterised by the keys alone:
`next_of_not_le`, `prev_of_not_le`, `prev_or_next`, `lowerBound_eq_some` and `mem_range`.
-/

namespace OrderedList

open List

variable {α K : Type*} [LinearOrder K] {key : α → K} {l : List α} {x x' y z : α} {k : K}
  {c : α → Bool}

/-- The keys do not decrease. -/
def Sorted (key : α → K) (l : List α) : Prop := l.Pairwise fun a b => key a ≤ key b

/-- Insert at the upper bound of the key. -/
def link (key : α → K) (x : α) : List α → List α
  | [] => [x]
  | y :: l => if key x < key y then x :: y :: l else y :: link key x l

/-- The first element whose key is not below `k`. -/
def lowerBound (key : α → K) (k : K) (l : List α) : Option α := l.find? fun y => decide (k ≤ key y)

/-- The elements from the lower bound of `k` on, as long as `c` holds. -/
def range (key : α → K) (k : K) (c : α → Bool) (l : List α) : List α :=
  (l.dropWhile fun y => decide (key y < k)).takeWhile c

section Positions

variable [DecidableEq α]

/-- What comes before the element. -/
def before (x : α) (l : List α) : List α := l.takeWhile (· != x)

/-- What comes after the element. -/
def after (x : α) (l : List α) : List α := (l.dropWhile (· != x)).tail

/-- The element after `x`. -/
def next (x : α) (l : List α) : Option α := (after x l).head?

/-- The element before `x`. -/
def prev (x : α) (l : List α) : Option α := (before x l).getLast?

/-- Replace `x` by `x'`, in the same place if that is in order. -/
def relink (key : α → K) (x x' : α) (l : List α) : List α :=
  if (∀ y ∈ prev x l, ¬ key x' < key y) ∧ ∀ y ∈ next x l, ¬ key y < key x' then
    before x l ++ x' :: after x l
  else link key x' (before x l ++ after x l)

theorem split (hx : x ∈ l) : before x l ++ x :: after x l = l := by
  induction l with
  | nil => simp at hx
  | cons y l ih =>
    by_cases h : y = x
    · subst h
      simp [before, after]
    · have hx : x ∈ l := by simpa [Ne.symm h] using hx
      have := ih hx
      simpa [before, after, h] using this

theorem after_of_split {pre post : List α} (hx : x ∉ pre) : after x (pre ++ x :: post) = post := by
  rw [after, dropWhile_append_of_pos fun y hy => by simpa using ne_of_mem_of_not_mem hy hx]
  simp

theorem before_append_after_perm (hx : x ∈ l) : (x :: (before x l ++ after x l)).Perm l :=
  (perm_middle.symm).trans (List.Perm.of_eq (split hx))

end Positions

theorem link_perm (x : α) (l : List α) : (link key x l).Perm (x :: l) := by
  induction l with
  | nil => exact .refl _
  | cons y l ih =>
    unfold link
    split_ifs
    · exact .refl _
    · exact (ih.cons y).trans (.swap x y l)

theorem Sorted.link (hl : Sorted key l) : Sorted key (link key x l) := by
  induction l with
  | nil => exact pairwise_singleton _ _
  | cons y l ih =>
    obtain ⟨hy, hl⟩ := pairwise_cons.1 hl
    unfold OrderedList.link
    split_ifs with h
    · refine pairwise_cons.2 ⟨fun z hz => ?_, pairwise_cons.2 ⟨hy, hl⟩⟩
      rcases mem_cons.1 hz with rfl | hz
      · exact h.le
      · exact h.le.trans (hy z hz)
    · refine pairwise_cons.2 ⟨fun z hz => ?_, ih hl⟩
      rcases mem_cons.1 ((link_perm x l).mem_iff.1 hz) with rfl | hz
      · exact not_lt.1 h
      · exact hy z hz

section Relink

variable [DecidableEq α]

theorem relink_perm (hx : x ∈ l) : (relink key x x' l).Perm (x' :: l.erase x) := by
  have herase : (before x l ++ after x l).Perm (l.erase x) := by
    have := ((before_append_after_perm hx).erase x)
    simpa using this
  unfold relink
  split_ifs
  · exact perm_middle.trans (herase.cons x')
  · exact (link_perm _ _).trans (herase.cons x')

theorem Sorted.relink (hl : Sorted key l) (hx : x ∈ l) : Sorted key (relink key x x' l) := by
  have hsplit : Sorted key (before x l ++ x :: after x l) := by rwa [split hx]
  obtain ⟨hb, ha, hab⟩ := pairwise_append.1 hsplit
  obtain ⟨-, ha⟩ := pairwise_cons.1 ha
  unfold OrderedList.relink
  split_ifs with h
  · -- the neighbours are in order, and all others are beyond them
    have hbefore : ∀ y ∈ before x l, key y ≤ key x' := by
      intro y hy
      obtain ⟨pre, last, hpre⟩ := (before x l).eq_nil_or_concat.resolve_left (ne_nil_of_mem hy)
      rw [concat_eq_append] at hpre
      have hlast : key last ≤ key x' := not_lt.1 (h.1 last (by simp [prev, hpre]))
      rw [hpre] at hy hb
      rcases mem_append.1 hy with hy | hy
      · exact ((pairwise_append.1 hb).2.2 y hy last (by simp)).trans hlast
      · rwa [mem_singleton.1 hy]
    have hafter : ∀ y ∈ after x l, key x' ≤ key y := by
      intro y hy
      obtain ⟨first, post, hpost⟩ := exists_cons_of_ne_nil (ne_nil_of_mem hy)
      have hfirst : key x' ≤ key first := not_lt.1 (h.2 first (by simp [next, hpost]))
      rw [hpost] at hy ha
      rcases mem_cons.1 hy with rfl | hy
      · exact hfirst
      · exact hfirst.trans ((pairwise_cons.1 ha).1 y hy)
    refine pairwise_append.2 ⟨hb, pairwise_cons.2 ⟨hafter, ha⟩, fun a ha b hb => ?_⟩
    rcases mem_cons.1 hb with rfl | hb
    · exact hbefore a ha
    · exact (hbefore a ha).trans (hafter b hb)
  · exact Sorted.link (pairwise_append.2
      ⟨hb, ha, fun a ha b hb => hab a ha b (mem_cons_of_mem _ hb)⟩)

end Relink

section Neighbours

variable [DecidableEq α] (hl : Sorted key l) (hn : l.Nodup) (hx : x ∈ l)
include hl hx

theorem prev_of_mem_before (hz : z ∈ before x l) : ∃ y, prev x l = some y ∧ key z ≤ key y := by
  rw [← split hx] at hl
  obtain ⟨hb, -⟩ := pairwise_append.1 hl
  obtain ⟨pre, y, hpre⟩ := (before x l).eq_nil_or_concat.resolve_left (ne_nil_of_mem hz)
  rw [concat_eq_append] at hpre
  refine ⟨y, by simp [prev, hpre], ?_⟩
  rw [hpre] at hb hz
  rcases mem_append.1 hz with hz | hz
  · exact (pairwise_append.1 hb).2.2 z hz y (by simp)
  · rw [mem_singleton.1 hz]

/-- Any other element is before `x`, and not after the one before it, or the other way round. -/
theorem prev_or_next (hz : z ∈ l) (hne : z ≠ x) : (∃ y, prev x l = some y ∧ key z ≤ key y) ∨
    ∃ y, next x l = some y ∧ key y ≤ key z := by
  have hz : z ∈ before x l ++ x :: after x l := by rwa [split hx]
  rcases mem_append.1 hz with hz | hz
  · exact .inl (prev_of_mem_before hl hx hz)
  · rw [← split hx] at hl
    obtain ⟨-, ha⟩ := pairwise_cons.1 (pairwise_append.1 hl).2.1
    have hz := (mem_cons.1 hz).resolve_left hne
    obtain ⟨y, post, hpost⟩ := exists_cons_of_ne_nil (ne_nil_of_mem hz)
    refine .inr ⟨y, by simp [next, hpost], ?_⟩
    rw [hpost] at ha hz
    rcases mem_cons.1 hz with rfl | hz
    · exact le_rfl
    · exact (pairwise_cons.1 ha).1 z hz

include hn in
theorem next_mem (h : next x l = some y) : y ∈ l ∧ y ≠ x ∧ key x ≤ key y := by
  obtain ⟨post, hpost⟩ := head?_eq_some_iff.1 h
  have hs := split hx
  rw [hpost] at hs
  rw [← hs] at hl hn ⊢
  refine ⟨by simp, ?_, (pairwise_cons.1 (pairwise_append.1 hl).2.1).1 y (by simp)⟩
  rintro rfl
  have := (nodup_append.1 hn).2.1
  simp at this

include hn in
theorem prev_mem (h : prev x l = some y) : y ∈ l ∧ y ≠ x ∧ key y ≤ key x := by
  obtain ⟨pre, hpre⟩ := getLast?_eq_some_iff.1 h
  have hs := split hx
  rw [hpre] at hs
  rw [← hs] at hl hn ⊢
  refine ⟨by simp, ?_, (pairwise_append.1 hl).2.2 y (by simp) x (by simp)⟩
  rintro rfl
  exact (nodup_append.1 hn).2.2 y (by simp) y (by simp) rfl

include hn in
theorem next_of_not_le (hz : z ∈ l) (hnot : ¬ key z ≤ key x) :
    ∃ y, next x l = some y ∧ key y ≤ key z := by
  refine (prev_or_next hl hx hz fun h => hnot (h ▸ le_rfl)).resolve_left ?_
  rintro ⟨y, hy, hle⟩
  exact hnot (hle.trans (prev_mem hl hn hx hy).2.2)

include hn in
theorem prev_of_not_le (hz : z ∈ l) (hnot : ¬ key x ≤ key z) :
    ∃ y, prev x l = some y ∧ key z ≤ key y := by
  refine (prev_or_next hl hx hz fun h => hnot (h ▸ le_rfl)).resolve_right ?_
  rintro ⟨y, hy, hle⟩
  exact hnot ((next_mem hl hn hx hy).2.2.trans hle)

end Neighbours

theorem head?_le (hl : Sorted key l) (h : l.head? = some x) (hy : y ∈ l) : key x ≤ key y := by
  obtain ⟨post, rfl⟩ := head?_eq_some_iff.1 h
  rcases mem_cons.1 hy with rfl | hy
  · exact le_rfl
  · exact (pairwise_cons.1 hl).1 y hy

theorem le_getLast? (hl : Sorted key l) (h : l.getLast? = some x) (hy : y ∈ l) : key y ≤ key x := by
  obtain ⟨pre, rfl⟩ := getLast?_eq_some_iff.1 h
  rcases mem_append.1 hy with hy | hy
  · exact (pairwise_append.1 hl).2.2 y hy x (by simp)
  · rw [mem_singleton.1 hy]

theorem lowerBound_eq_none (h : lowerBound key k l = none) (hy : y ∈ l) : key y < k := by
  simpa using find?_eq_none.1 h y hy

section

variable (hl : Sorted key l)
include hl

theorem lowerBound_eq_some (h : lowerBound key k l = some x) :
    x ∈ l ∧ k ≤ key x ∧ ∀ y ∈ l, k ≤ key y → key x ≤ key y := by
  refine ⟨mem_of_find?_eq_some h, by simpa using find?_some h, ?_⟩
  induction l with
  | nil => simp
  | cons z l ih =>
    obtain ⟨hz, hl⟩ := pairwise_cons.1 hl
    intro y hy hk
    by_cases hzk : k ≤ key z
    · obtain rfl : z = x := by simpa [lowerBound, hzk] using h
      rcases mem_cons.1 hy with rfl | hy
      · exact le_rfl
      · exact hz y hy
    · rcases mem_cons.1 hy with rfl | hy
      · exact absurd hk hzk
      · exact ih hl (by simpa [lowerBound, hzk] using h) y hy hk

theorem mem_takeWhile (hc : ∀ y ∈ l, ∀ z ∈ l, key y ≤ key z → c z = true → c y = true) :
    x ∈ l.takeWhile c ↔ x ∈ l ∧ c x = true := by
  induction l with
  | nil => simp
  | cons y l ih =>
    obtain ⟨hy, hl⟩ := pairwise_cons.1 hl
    by_cases hcy : c y = true
    · have hrest := ih hl fun u hu v hv => hc u (by simp [hu]) v (by simp [hv])
      rw [takeWhile_cons_of_pos hcy, mem_cons, mem_cons, hrest]
      refine ⟨?_, fun h => h.1.imp id fun hx => ⟨hx, h.2⟩⟩
      rintro (rfl | h)
      · exact ⟨.inl rfl, hcy⟩
      · exact ⟨.inr h.1, h.2⟩
    · rw [takeWhile_cons_of_neg hcy]
      refine ⟨fun h => absurd h (by simp), fun h => absurd ?_ hcy⟩
      rcases mem_cons.1 h.1 with rfl | hx
      · exact h.2
      · exact hc y (by simp) x (by simp [hx]) (hy x hx) h.2

theorem mem_dropWhile : x ∈ l.dropWhile (fun y => decide (key y < k)) ↔ x ∈ l ∧ k ≤ key x := by
  induction l with
  | nil => simp
  | cons y l ih =>
    obtain ⟨hy, hl⟩ := pairwise_cons.1 hl
    by_cases hky : key y < k
    · rw [dropWhile_cons_of_pos (by simpa using hky), ih hl, mem_cons]
      refine ⟨fun h => ⟨.inr h.1, h.2⟩, fun h => ⟨h.1.resolve_left ?_, h.2⟩⟩
      rintro rfl
      exact absurd h.2 (not_le.2 hky)
    · rw [dropWhile_cons_of_neg (by simpa using hky)]
      refine ⟨fun hx => ⟨hx, ?_⟩, fun h => h.1⟩
      rcases mem_cons.1 hx with rfl | hx
      · exact not_lt.1 hky
      · exact (not_lt.1 hky).trans (hy x hx)

/-- A range whose condition fails for good has all the elements that meet it. -/
theorem mem_range (hc : ∀ y ∈ l, ∀ z ∈ l, k ≤ key y → key y ≤ key z → c z = true → c y = true) :
    x ∈ range key k c l ↔ x ∈ l ∧ k ≤ key x ∧ c x = true := by
  have hdrop : Sorted key (l.dropWhile fun y => decide (key y < k)) :=
    List.Pairwise.sublist (dropWhile_sublist _) hl
  rw [range, mem_takeWhile hdrop, mem_dropWhile hl, and_assoc]
  intro y hy z hz
  rw [mem_dropWhile hl] at hy hz
  exact hc y hy.1 z hz.1 hy.2

end

end OrderedList
