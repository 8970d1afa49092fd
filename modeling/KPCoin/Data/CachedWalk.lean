import KPCoin.Data.OrderedSet

/-!
# Walks over a graph that use what is known already

`OrderedSet.cachedClosure next cached n w` collects what can be reached from the staged elements of
`w`, as `OrderedSet.closure` does.  For some elements it is known what comes after them: when the
walk meets one of these it takes over what is known instead of going on from there.  The known
element itself need not be collected.

If the elements with something known all belong to a class that is never entered from outside, and
what is known of them is all that lies outside the class, then the walk finds everything outside the
class (`mem_cachedClosure`).  With nothing known the walk is `OrderedSet.closure`, which collects
all that can be reached (`mem_closure`).
-/

open Relation

namespace OrderedSet

open Finset

variable {α : Type*} [LinearOrder α]

section Cached

variable (next : α → OrderedSet α) (cached : α → Option (OrderedSet α))

/-- Take over what is known of the elements of a list, and stage the others that have not been
found.  The first set is that of the staged elements, the second that of those found. -/
def stageUnknown (l : List α) (w : OrderedSet α × OrderedSet α) : OrderedSet α × OrderedSet α :=
  l.foldl (fun w y =>
    match cached y with
    | some known => (w.1, w.2.insertAll known.elems)
    | none => if y ∈ w.2 then w else (w.1.insert y, w.2)) w

/-- Move the first staged element to those found and look at what it leads to, `n` times. -/
def cachedClosure : ℕ → OrderedSet α × OrderedSet α → OrderedSet α
  | 0, w => w.2
  | n + 1, w =>
    match w.1.begin? with
    | none => w.2
    | some x => cachedClosure n (stageUnknown cached (next x).elems (w.1.erase x, w.2.insert x))

/-- The element is staged or found, or what is known of it has been taken over. -/
def Covered (w : OrderedSet α × OrderedSet α) (y : α) : Prop :=
  y ∈ w.1 ∨ y ∈ w.2 ∨ ∃ known, cached y = some known ∧ ∀ z ∈ known, z ∈ w.2

/-- The sets of a walk inside `U` that has visited `V`. -/
structure Going (U V : Finset α) (w : OrderedSet α × OrderedSet α) : Prop where
  inside : ∀ x ∈ w.1, x ∈ U
  fresh : ∀ x ∈ w.1, x ∉ V
  visited : ∀ x ∈ V, x ∈ w.2
  leads : ∀ x ∈ w.2, ∀ y ∈ next x, Covered cached w y

variable {next cached} {U V : Finset α} {w w' : OrderedSet α × OrderedSet α} {x y z : α} {n : ℕ}
  (l : List α)

theorem Covered.mono (h : Covered cached w y) (h1 : ∀ z ∈ w.1, z ∈ w'.1 ∨ z ∈ w'.2)
    (h2 : ∀ z ∈ w.2, z ∈ w'.2) : Covered cached w' y := by
  rcases h with h | h | ⟨known, hk, h⟩
  · exact (h1 y h).imp_right .inl
  · exact .inr (.inl (h2 y h))
  · exact .inr (.inr ⟨known, hk, fun z hz => h2 z (h z hz)⟩)

/-- What looking at a list of elements does to the two sets. -/
structure Looked (cached : α → Option (OrderedSet α)) (l : List α)
    (w w' : OrderedSet α × OrderedSet α) : Prop where
  stage_mono : ∀ y ∈ w.1, y ∈ w'.1
  found_mono : ∀ y ∈ w.2, y ∈ w'.2
  of_stage : ∀ y ∈ w'.1, y ∈ w.1 ∨ y ∈ l ∧ y ∉ w.2
  of_found : ∀ z ∈ w'.2, z ∈ w.2 ∨ ∃ y ∈ l, ∃ known, cached y = some known ∧ z ∈ known
  taken : ∀ y ∈ l, ∀ known, cached y = some known → ∀ z ∈ known, z ∈ w'.2
  covered : ∀ y ∈ l, Covered cached w' y

theorem Looked.cons {a : α} {l : List α} {w1 : OrderedSet α × OrderedSet α}
    (h : Looked cached [a] w w1) (h' : Looked cached l w1 w') : Looked cached (a :: l) w w' where
  stage_mono y hy := h'.stage_mono y (h.stage_mono y hy)
  found_mono y hy := h'.found_mono y (h.found_mono y hy)
  of_stage y hy := by
    rcases h'.of_stage y hy with hy | ⟨hl, hn⟩
    · exact (h.of_stage y hy).imp_right
        fun ⟨hl, hn⟩ => ⟨mem_singleton.1 hl ▸ List.mem_cons_self, hn⟩
    · exact .inr ⟨List.mem_cons_of_mem a hl, fun hw => hn (h.found_mono y hw)⟩
  of_found z hz := by
    rcases h'.of_found z hz with hz | ⟨y, hy, hknown⟩
    · exact (h.of_found z hz).imp_right fun ⟨y, hy, hknown⟩ =>
        ⟨y, mem_singleton.1 hy ▸ List.mem_cons_self, hknown⟩
    · exact .inr ⟨y, List.mem_cons_of_mem a hy, hknown⟩
  taken y hy known hk z hz := by
    rcases List.mem_cons.1 hy with rfl | hy
    · exact h'.found_mono z (h.taken y (mem_singleton.2 rfl) known hk z hz)
    · exact h'.taken y hy known hk z hz
  covered y hy := by
    rcases List.mem_cons.1 hy with rfl | hy
    · exact (h.covered y (mem_singleton.2 rfl)).mono (fun z hz => .inl (h'.stage_mono z hz))
        h'.found_mono
    · exact h'.covered y hy

theorem looked_singleton (a : α) (w : OrderedSet α × OrderedSet α) :
    Looked cached [a] w (stageUnknown cached [a] w) := by
  cases ha : cached a with
  | some known =>
    have hone : stageUnknown cached [a] w = (w.1, w.2.insertAll known.elems) := by
      simp [stageUnknown, ha]
    rw [hone]
    refine ⟨fun _ => id, fun y hy => mem_insertAll.2 (.inr hy), fun _ => .inl, fun z hz => ?_,
      fun y hy known' hk z hz => ?_, fun y hy => ?_⟩
    · rcases mem_insertAll.1 hz with hz | hz
      · exact .inr ⟨a, mem_singleton.2 rfl, known, ha, hz⟩
      · exact .inl hz
    · obtain rfl := mem_singleton.1 hy
      obtain rfl := Option.mem_unique ha hk
      exact mem_insertAll.2 (.inl hz)
    · obtain rfl := mem_singleton.1 hy
      exact .inr (.inr ⟨known, ha, fun z hz => mem_insertAll.2 (.inl hz)⟩)
  | none =>
    have hone : stageUnknown cached [a] w = if a ∈ w.2 then w else (w.1.insert a, w.2) := by
      simp [stageUnknown, ha]
    have htaken : ∀ y ∈ [a], ∀ known, cached y ≠ some known := by
      intro y hy known hk
      rw [mem_singleton.1 hy, ha] at hk
      cases hk
    rw [hone]
    split_ifs with haw
    · refine ⟨fun _ => id, fun _ => id, fun _ => .inl, fun _ => .inl,
        fun y hy known hk => absurd hk (htaken y hy known), fun y hy => ?_⟩
      exact .inr (.inl (mem_singleton.1 hy ▸ haw))
    · refine ⟨fun y hy => mem_insert.2 (.inr hy), fun _ => id, fun y hy => ?_, fun _ => .inl,
        fun y hy known hk => absurd hk (htaken y hy known),
        fun y hy => .inl (mem_insert.2 (.inl (mem_singleton.1 hy)))⟩
      rcases mem_insert.1 hy with rfl | hy
      · exact .inr ⟨mem_singleton.2 rfl, haw⟩
      · exact .inl hy

theorem looked (w : OrderedSet α × OrderedSet α) : Looked cached l w (stageUnknown cached l w) := by
  induction l generalizing w with
  | nil => exact ⟨fun _ => id, fun _ => id, fun _ => .inl, fun _ => .inl, by simp, by simp⟩
  | cons a l ih => exact (looked_singleton a w).cons (ih _)

/-- What is known of an element goes on to nothing else. -/
def Closed (next : α → OrderedSet α) (cached : α → Option (OrderedSet α)) : Prop :=
  ∀ k known, cached k = some known → ∀ x ∈ known, ∀ y ∈ next x, y ∈ known

theorem Going.visit (hclosed : Closed next cached) (hU : ∀ x ∈ U, ∀ y ∈ next x, y ∈ U)
    (h : Going next cached U V w) (hx : x ∈ w.1) :
    Going next cached U (Insert.insert x V)
      (stageUnknown cached (next x).elems (w.1.erase x, w.2.insert x)) := by
  have hl : Looked cached (next x).elems (w.1.erase x, w.2.insert x) _ := looked _ _
  refine ⟨fun y hy => ?_, fun y hy hV => ?_, fun y hy => ?_, fun y hy z hz => ?_⟩
  · rcases hl.of_stage y hy with hy | ⟨hy, -⟩
    · exact h.inside y (mem_erase.1 hy).2
    · exact hU x (h.inside x hx) y hy
  · rcases hl.of_stage y hy with hy | ⟨-, hn⟩
    · rcases Finset.mem_insert.1 hV with rfl | hV
      · exact (mem_erase.1 hy).1 rfl
      · exact h.fresh y (mem_erase.1 hy).2 hV
    · rcases Finset.mem_insert.1 hV with rfl | hV
      · exact hn (mem_insert.2 (.inl rfl))
      · exact hn (mem_insert.2 (.inr (h.visited y hV)))
  · apply hl.found_mono
    rcases Finset.mem_insert.1 hy with rfl | hy
    · exact mem_insert.2 (.inl rfl)
    · exact mem_insert.2 (.inr (h.visited y hy))
  · rcases hl.of_found y hy with hy | ⟨k, hk, known, hcached, hyk⟩
    · rcases mem_insert.1 hy with rfl | hy
      · exact hl.covered z hz
      · refine (h.leads y hy z hz).mono (fun a ha => ?_) fun a ha =>
          hl.found_mono a (mem_insert.2 (.inr ha))
        by_cases hax : a = x
        · exact .inr (hl.found_mono a (mem_insert.2 (.inl hax)))
        · exact .inl (hl.stage_mono a (mem_erase.2 ⟨hax, ha⟩))
    · -- it was taken over together with all it leads to
      exact .inr (.inl (hl.taken k hk known hcached z (hclosed k known hcached y hyk z hz)))

/-- What a walk that uses the cache has found in the end. -/
structure Found (next : α → OrderedSet α) (cached : α → Option (OrderedSet α))
    (w : OrderedSet α × OrderedSet α) (r : OrderedSet α) : Prop where
  staged : ∀ x ∈ w.1, x ∈ r
  found : ∀ x ∈ w.2, x ∈ r
  leads : ∀ x ∈ r, ∀ y ∈ next x, y ∈ r ∨ ∃ known, cached y = some known ∧ ∀ z ∈ known, z ∈ r
  /-- Nothing is found that does not come after what was staged. -/
  sound : ∀ Q : α → Prop, (∀ x ∈ w.1, Q x) → (∀ x ∈ w.2, Q x) → (∀ x y, Q x → y ∈ next x → Q y) →
    (∀ k known, Q k → cached k = some known → ∀ z ∈ known, Q z) → ∀ x ∈ r, Q x

theorem Going.found_of_empty (h : Going next cached U V w) (hempty : ∀ x, x ∉ w.1) :
    Found next cached w w.2 where
  staged x hx := absurd hx (hempty x)
  found _ := id
  leads x hx y hy := (h.leads x hx y hy).resolve_left (hempty y)
  sound _ _ hfound _ _ := hfound

theorem found_cachedClosure (hclosed : Closed next cached) (hU : ∀ x ∈ U, ∀ y ∈ next x, y ∈ U)
    (h : Going next cached U V w) (hn : (U \ V).card ≤ n) :
    Found next cached w (cachedClosure next cached n w) := by
  induction n generalizing V w with
  | zero =>
    refine h.found_of_empty fun x hx => ?_
    have hmem : x ∈ U \ V := mem_sdiff.2 ⟨h.inside x hx, h.fresh x hx⟩
    rw [card_eq_zero.1 (Nat.le_zero.1 hn)] at hmem
    exact notMem_empty x hmem
  | succ n ih =>
    cases hb : w.1.begin? with
    | none =>
      simp only [cachedClosure, hb]
      exact h.found_of_empty fun x => not_mem_of_begin? hb
    | some x =>
      have hx := mem_of_begin? hb
      have hcard : (U \ Insert.insert x V).card < (U \ V).card := by
        rw [sdiff_insert]
        exact card_erase_lt_of_mem (mem_sdiff.2 ⟨h.inside x hx, h.fresh x hx⟩)
      have hl : Looked cached (next x).elems (w.1.erase x, w.2.insert x) _ := looked _ _
      have hr := ih (h.visit hclosed hU hx) (by omega)
      simp only [cachedClosure, hb]
      refine ⟨fun y hy => ?_, fun y hy => ?_, hr.leads, fun Q hs hf hstep hknown => ?_⟩
      · by_cases hyx : y = x
        · exact hr.found y (hl.found_mono y (mem_insert.2 (.inl hyx)))
        · exact hr.staged y (hl.stage_mono y (mem_erase.2 ⟨hyx, hy⟩))
      · exact hr.found y (hl.found_mono y (mem_insert.2 (.inr hy)))
      · refine hr.sound Q (fun y hy => ?_) (fun y hy => ?_) hstep hknown
        · rcases hl.of_stage y hy with hy | ⟨hy, -⟩
          · exact hs y (mem_erase.1 hy).2
          · exact hstep x y (hs x hx) hy
        · rcases hl.of_found y hy with hy | ⟨k, hk, known, hcached, hyk⟩
          · rcases mem_insert.1 hy with rfl | hy
            · exact hs y hx
            · exact hf y hy
          · exact hknown k known (hstep x k (hs x hx) hk) hcached y hyk

/-- The elements outside the class `E` that a walk finds: all that can be reached.  The class is
never entered from outside, and what is known, of elements of the class, is what can be reached
outside. -/
theorem mem_cachedClosure {E : α → Prop} {stage : OrderedSet α}
    (hE : ∀ x y, ¬ E x → y ∈ next x → ¬ E y)
    (hcached : ∀ k known, cached k = some known → E k ∧
      ∀ z, z ∈ known ↔ ¬ E z ∧ TransGen (fun a b => b ∈ next a) k z)
    (hU : ∀ x ∈ U, ∀ y ∈ next x, y ∈ U) (hstage : ∀ x ∈ stage, x ∈ U) (hn : U.card ≤ n)
    (hz : ¬ E z) :
    z ∈ cachedClosure next cached n (stage, ∅) ↔
      ∃ x ∈ stage, ReflTransGen (fun a b => b ∈ next a) x z := by
  have hclosed : Closed next cached := by
    intro k known hk x hx y hy
    obtain ⟨-, hmem⟩ := hcached k known hk
    obtain ⟨hxE, hkx⟩ := (hmem x).1 hx
    exact (hmem y).2 ⟨hE x y hxE hy, hkx.tail hy⟩
  have hgoing : Going next cached U ∅ (stage, ∅) :=
    ⟨hstage, by simp, by simp, fun x hx => absurd hx not_mem_empty⟩
  have hr := found_cachedClosure hclosed hU hgoing (by simpa using hn)
  constructor
  · intro hmem
    refine hr.sound (fun z => ∃ x ∈ stage, ReflTransGen (fun a b => b ∈ next a) x z)
      (fun x hx => ⟨x, hx, .refl⟩) (fun x hx => absurd hx not_mem_empty) ?_ ?_ z hmem
    · rintro a b ⟨x, hx, hxa⟩ hab
      exact ⟨x, hx, hxa.tail hab⟩
    · rintro k known ⟨x, hx, hxk⟩ hk b hb
      exact ⟨x, hx, hxk.trans (((hcached k known hk).2 b).1 hb).2.to_reflTransGen⟩
  · rintro ⟨x, hx, hxz⟩
    -- along the path: found, or behind an element of which all that is known was taken over
    have hpath : z ∈ cachedClosure next cached n (stage, ∅) ∨ ∃ k known, cached k = some known ∧
        (∀ y ∈ known, y ∈ cachedClosure next cached n (stage, ∅)) ∧
        ReflTransGen (fun a b => b ∈ next a) k z := by
      clear hz
      induction hxz with
      | refl => exact .inl (hr.staged x hx)
      | @tail b c _ hbc ih =>
        rcases ih with hb | ⟨k, known, hk, hall, hkb⟩
        · rcases hr.leads b hb c hbc with hc | ⟨known, hk, hall⟩
          · exact .inl hc
          · exact .inr ⟨c, known, hk, hall, .refl⟩
        · exact .inr ⟨k, known, hk, hall, hkb.tail hbc⟩
    rcases hpath with hmem | ⟨k, known, hk, hall, hkz⟩
    · exact hmem
    · obtain ⟨hkE, hmem⟩ := hcached k known hk
      rcases reflTransGen_iff_eq_or_transGen.1 hkz with rfl | hkz
      · exact absurd hkE hz
      · exact hall z ((hmem z).2 ⟨hz, hkz⟩)

theorem stageUnknown_none (w : OrderedSet α × OrderedSet α) :
    stageUnknown (fun _ => none) l w = (stageNew w.2 l w.1, w.2) := by
  induction l generalizing w with
  | nil => rfl
  | cons a l ih =>
    have hcons : stageUnknown (fun _ => none) (a :: l) w =
        stageUnknown (fun _ => none) l (if a ∈ w.2 then w else (w.1.insert a, w.2)) := rfl
    rw [hcons, ih]
    by_cases ha : a ∈ w.2 <;> simp [stageNew, ha]

theorem closure_eq_cachedClosure (n : ℕ) (stage done : OrderedSet α) :
    closure next n stage done = cachedClosure next (fun _ => none) n (stage, done) := by
  induction n generalizing stage done with
  | zero => rfl
  | succ n ih =>
    unfold closure cachedClosure
    cases stage.begin? with
    | none => rfl
    | some x =>
      dsimp only
      rw [ih, stageUnknown_none]

/-- What a walk over the graph collects: all that can be reached from the staged elements.  `U` is
a set the walk cannot leave; it bounds the number of rounds. -/
theorem mem_closure {stage done : OrderedSet α} (hU : ∀ x ∈ U, ∀ y ∈ next x, y ∈ U)
    (hstage : ∀ x ∈ stage, x ∈ U ∧ x ∉ done) (hdone : ∀ x ∈ done, ∀ y ∈ next x, y ∈ done)
    (hn : (U \ done.toFinset).card ≤ n) :
    z ∈ closure next n stage done ↔
      z ∈ done ∨ ∃ x ∈ stage, ReflTransGen (fun a b => b ∈ next a) x z := by
  have hgoing : Going next (fun _ => none) U done.toFinset (stage, done) :=
    ⟨fun x hx => (hstage x hx).1, fun x hx => (hstage x hx).2, fun _ => id,
      fun x hx y hy => .inr (.inl (hdone x hx y hy))⟩
  have hr := found_cachedClosure (fun _ _ hk => by cases hk) hU hgoing hn
  rw [closure_eq_cachedClosure]
  constructor
  · refine hr.sound (fun z => z ∈ done ∨ ∃ x ∈ stage, ReflTransGen (fun a b => b ∈ next a) x z)
      (fun x hx => .inr ⟨x, hx, .refl⟩) (fun x hx => .inl hx) ?_ (fun _ _ _ hk => by cases hk) z
    rintro x y (hx | ⟨a, ha, hax⟩) hxy
    · exact .inl (hdone x hx y hxy)
    · exact .inr ⟨a, ha, hax.tail hxy⟩
  · rintro (hz | ⟨x, hx, hxz⟩)
    · exact hr.found z hz
    · induction hxz with
      | refl => exact hr.staged x hx
      | tail _ hbc ih => exact (hr.leads _ ih _ hbc).resolve_right (by simp)

end Cached

end OrderedSet
