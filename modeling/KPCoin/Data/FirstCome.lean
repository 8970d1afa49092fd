import KPCoin.Data.Map

/-!
# Merges in which the first value stays

Records are merged one into another, and what is already there stays.  A record *has* some items
and is *open* for some; merging `b` into `a` adds the items of `b` for which `a` is open
(`FirstCome`).  After a list of records has been merged one by one, an item is there if some record
has it and all the records before are open for it (`FirstCome.has_foldl`), so that the result is
the union of the records in every order of the list exactly if no record is closed for an item that
another one has and it lacks itself (`served_perm_iff`).

Two containers that are merged in this way are added to the maps: `Map.unionWith`, which combines
the values of the keys that both maps have, and `KeyedSet`, a set that is ordered by a function of
its elements and so never holds two elements of one key.
-/

section FirstCome

variable {S ι : Type*}

/-- Merging `b` into `a` adds the items of `b` for which `a` is open, for records that satisfy
`W`. -/
structure FirstCome (W : S → Prop) (merge : S → S → S) (Has Open : S → ι → Prop) : Prop where
  merge_mem : ∀ {a b}, W a → W b → W (merge a b)
  has_merge : ∀ {a b x}, W a → W b → (Has (merge a b) x ↔ Has a x ∨ Has b x ∧ Open a x)
  open_merge : ∀ {a b x}, W a → W b → (Open (merge a b) x ↔ Open a x ∧ Open b x)

/-- Some record of the list has the item, and the records before it are open for it. -/
def Served (Has Open : S → ι → Prop) : List S → ι → Prop
  | [], _ => False
  | s :: l, x => Has s x ∨ Open s x ∧ Served Has Open l x

variable {W : S → Prop} {merge : S → S → S} {Has Open : S → ι → Prop} {x : ι} {l : List S}

/-- What is there after a list of records has been merged. -/
theorem FirstCome.has_foldl (h : FirstCome W merge Has Open) {a : S} (ha : W a)
    (hl : ∀ s ∈ l, W s) (x : ι) : Has (l.foldl merge a) x ↔ Served Has Open (a :: l) x := by
  induction l generalizing a with
  | nil => simp [Served]
  | cons b l ih =>
    have hb : W b := hl b List.mem_cons_self
    rw [List.foldl_cons, ih (h.merge_mem ha hb) fun s hs => hl s (List.mem_cons_of_mem b hs)]
    simp only [Served, h.has_merge ha hb, h.open_merge ha hb]
    tauto

theorem Served.exists_has (h : Served Has Open l x) : ∃ s ∈ l, Has s x := by
  induction l with
  | nil => exact h.elim
  | cons s l ih =>
    rcases h with h | ⟨-, h⟩
    · exact ⟨s, List.mem_cons_self, h⟩
    · obtain ⟨t, ht, hx⟩ := ih h
      exact ⟨t, List.mem_cons_of_mem s ht, hx⟩

/-- An item is served if no record of the list is closed for it without having it. -/
theorem served_of_has (hex : ∃ s ∈ l, Has s x)
    (hl : ∀ t ∈ l, Has t x ∨ Open t x) : Served Has Open l x := by
  induction l with
  | nil => simp at hex
  | cons t l ih =>
    rcases hl t List.mem_cons_self with ht | ht
    · exact Or.inl ht
    · obtain ⟨s, hs, hx⟩ := hex
      rcases List.mem_cons.1 hs with rfl | hs
      · exact Or.inl hx
      · exact Or.inr ⟨ht, ih ⟨s, hs, hx⟩ fun u hu => hl u (List.mem_cons_of_mem t hu)⟩

/-- **In every order of the list the merge is the union** exactly if every record has, or is open
for, what another one has. -/
theorem served_perm_iff (l : List S) :
    (∀ l', l'.Perm l → ∀ x, Served Has Open l' x ↔ ∃ s ∈ l, Has s x) ↔
      ∀ s ∈ l, ∀ t ∈ l, ∀ x, Has s x → Has t x ∨ Open t x := by
  constructor
  · intro h s hs t ht x hx
    by_contra hn
    obtain ⟨l1, hperm⟩ : ∃ l1, (t :: l1).Perm l := by
      obtain ⟨p, q, rfl⟩ := List.append_of_mem ht
      exact ⟨p ++ q, List.perm_middle.symm⟩
    -- with `t` in front the item can no longer be added
    have := (h (t :: l1) hperm x).2 ⟨s, hs, hx⟩
    rcases this with ht' | ⟨ht', -⟩
    · exact hn (Or.inl ht')
    · exact hn (Or.inr ht')
  · intro h l' hperm x
    constructor
    · intro hx
      obtain ⟨s, hs, hsx⟩ := hx.exists_has
      exact ⟨s, hperm.mem_iff.1 hs, hsx⟩
    · rintro ⟨s, hs, hx⟩
      exact served_of_has ⟨s, hperm.mem_iff.2 hs, hx⟩ fun t ht => h s hs t (hperm.mem_iff.1 ht) x hx

/-- Merge the records of two lists position by position. -/
def mergeEach (merge : S → S → S) (as bs : List S) : List S :=
  as.mapIdx fun i a => match bs[i]? with
    | some b => merge a b
    | none => a

theorem length_mergeEach (merge : S → S → S) (as bs : List S) :
    (mergeEach merge as bs).length = as.length := by
  simp [mergeEach]

theorem mergeEach_cases (merge : S → S → S) {as bs : List S}
    (hlen : as.length = bs.length) (i : ℕ) :
    as[i]? = none ∧ bs[i]? = none ∧ (mergeEach merge as bs)[i]? = none ∨
      ∃ a ∈ as, ∃ b ∈ bs, as[i]? = some a ∧ bs[i]? = some b ∧
        (mergeEach merge as bs)[i]? = some (merge a b) := by
  by_cases hi : i < as.length
  · have ha := List.getElem?_eq_getElem hi
    have hb := List.getElem?_eq_getElem (hlen ▸ hi)
    refine Or.inr ⟨as[i], List.getElem_mem hi, bs[i], List.getElem_mem _, ha, hb, ?_⟩
    simp [mergeEach, ha, hb]
  · have hle : as.length ≤ i := Nat.le_of_not_lt hi
    exact Or.inl ⟨List.getElem?_eq_none hle, List.getElem?_eq_none (hlen ▸ hle),
      List.getElem?_eq_none ((length_mergeEach merge as bs).symm ▸ hle)⟩

section Each

variable {as bs : List S} (hlen : as.length = bs.length) (ha : ∀ a ∈ as, W a) (hb : ∀ b ∈ bs, W b)
include hlen ha hb

section

variable (h : FirstCome W merge Has Open)
include h

theorem FirstCome.mergeEach_mem : ∀ c ∈ mergeEach merge as bs, W c := by
  intro c hc
  obtain ⟨i, hi⟩ := List.getElem?_of_mem hc
  rcases mergeEach_cases merge hlen i with ⟨-, -, hn⟩ | ⟨a, ham, b, hbm, -, -, hm⟩
  · rw [hn] at hi; cases hi
  · rw [hm] at hi
    rw [← Option.some.inj hi]
    exact h.merge_mem (ha a ham) (hb b hbm)

theorem FirstCome.has_mergeEach {i : ℕ} : (∃ c, (mergeEach merge as bs)[i]? = some c ∧ Has c x) ↔
      (∃ a, as[i]? = some a ∧ Has a x) ∨
        (∃ b, bs[i]? = some b ∧ Has b x) ∧ ∀ a, as[i]? = some a → Open a x := by
  rcases mergeEach_cases merge hlen i with ⟨hai, hbi, hci⟩ | ⟨a, ham, b, hbm, hai, hbi, hci⟩
  · simp [hai, hbi, hci]
  · simp [hai, hbi, hci, h.has_merge (ha a ham) (hb b hbm)]

theorem FirstCome.open_mergeEach {i : ℕ} : (∀ c, (mergeEach merge as bs)[i]? = some c → Open c x) ↔
      (∀ a, as[i]? = some a → Open a x) ∧ ∀ b, bs[i]? = some b → Open b x := by
  rcases mergeEach_cases merge hlen i with ⟨hai, hbi, hci⟩ | ⟨a, ham, b, hbm, hai, hbi, hci⟩
  · simp [hai, hbi, hci]
  · simp [hai, hbi, hci, h.open_merge (ha a ham) (hb b hbm)]

end

end Each

end FirstCome

namespace Map

open List

variable {α β : Type*} [DecidableEq α]

/-- `std::map::insert` of a range keeps the values that are there. -/
theorem lookup_union (a b : Map α β) (k : α) : (a ∪ b).lookup k = (a.lookup k).or (b.lookup k) := by
  cases h : a.lookup k with
  | none => rw [AList.lookup_union_right (AList.lookup_eq_none.1 h), Option.none_or]
  | some v =>
    have hk : k ∈ a := AList.lookup_isSome.1 (by rw [h]; rfl)
    rw [AList.lookup_union_left hk, h, Option.some_or]

/-- Add the entries of `b` to `a`, combining the values of the keys that both have. -/
def unionWith (f : β → β → β) (a b : Map α β) : Map α β :=
  b.entries.foldl (fun m e => m.insert e.1
    (match m.lookup e.1 with
      | none => e.2
      | some v => f v e.2)) a

/-- The value of a key in two maps. -/
def combine (f : β → β → β) : Option β → Option β → Option β
  | none, w => w
  | some v, none => some v
  | some v, some w => some (f v w)

theorem lookup_foldl_combine (f : β → β → β) (l : List (Sigma fun _ : α => β))
    (hl : l.NodupKeys) (a : Map α β) (k : α) :
    (l.foldl (fun m e => m.insert e.1
      (match m.lookup e.1 with
        | none => e.2
        | some v => f v e.2)) a).lookup k = combine f (a.lookup k) (l.dlookup k) := by
  induction l generalizing a with
  | nil => cases h : a.lookup k <;> simp [combine, h]
  | cons e l ih =>
    obtain ⟨k', w⟩ := e
    rw [nodupKeys_cons] at hl
    rw [foldl_cons, ih hl.2, lookup_insert_eq_ite]
    by_cases hk : k = k'
    · subst hk
      have hnone : l.dlookup k = none := dlookup_eq_none.2 hl.1
      rw [if_pos rfl, hnone, dlookup_cons_eq]
      cases a.lookup k <;> rfl
    · rw [if_neg hk, dlookup_cons_ne _ _ hk]

theorem lookup_unionWith (f : β → β → β) (a b : Map α β) (k : α) :
    (a.unionWith f b).lookup k = combine f (a.lookup k) (b.lookup k) :=
  lookup_foldl_combine f b.entries b.nodupKeys a k

end Map

/-- A `std::set` whose order compares `key`: two elements of one key are the same to it. -/
structure KeyedSet {α κ : Type*} [DecidableEq κ] (key : α → κ) where
  byKey : Map κ α
  key_eq : ∀ {k x}, byKey.lookup k = some x → key x = k

namespace KeyedSet

variable {α κ : Type*} [DecidableEq κ] {key : α → κ}

instance : Membership α (KeyedSet key) := ⟨fun s x => s.byKey.lookup (key x) = some x⟩

variable {s : KeyedSet key} {t : KeyedSet key} {x : α}

theorem mem_def : x ∈ s ↔ s.byKey.lookup (key x) = some x := Iff.rfl

instance [DecidableEq α] (s : KeyedSet key) (x : α) : Decidable (x ∈ s) :=
  inferInstanceAs (Decidable (s.byKey.lookup (key x) = some x))

/-- The elements, in the order of the entries. -/
def elems (s : KeyedSet key) : List α := s.byKey.entries.map Sigma.snd

@[simp] theorem mem_elems : x ∈ s.elems ↔ x ∈ s := by
  simp only [elems, List.mem_map, mem_def]
  constructor
  · rintro ⟨⟨k, y⟩, hy, rfl⟩
    have hk := Map.lookup_eq_some_iff.2 hy
    rw [s.key_eq hk, hk]
  · intro h
    exact ⟨⟨key x, x⟩, Map.lookup_eq_some_iff.1 h, rfl⟩

/-- The set without elements. -/
def empty (key : α → κ) : KeyedSet key := ⟨∅, fun h => by simp at h⟩

/-- The set of one element. -/
def single (key : α → κ) (x : α) : KeyedSet key where
  byKey := (∅ : Map κ α).insert (key x) x
  key_eq := by
    intro k y h
    rw [Map.lookup_insert_eq_ite] at h
    split_ifs at h with hk
    · rw [hk, Option.some.inj h]
    · simp at h

/-- `std::set::insert` of a range. -/
def insertAll (s t : KeyedSet key) : KeyedSet key where
  byKey := s.byKey ∪ t.byKey
  key_eq := by
    intro k x h
    rw [Map.lookup_union, Option.or_eq_some_iff] at h
    rcases h with h | ⟨-, h⟩
    · exact s.key_eq h
    · exact t.key_eq h

/-- An element is added if the set has none of its key. -/
theorem mem_insertAll : x ∈ s.insertAll t ↔ x ∈ s ∨ x ∈ t ∧ s.byKey.lookup (key x) = none := by
  simp only [mem_def, insertAll, Map.lookup_union, Option.or_eq_some_iff]
  tauto

theorem lookup_insertAll_eq_none {k : κ} :
    (s.insertAll t).byKey.lookup k = none ↔ s.byKey.lookup k = none ∧ t.byKey.lookup k = none := by
  simp [insertAll, Map.lookup_union]

theorem eq_of_key_eq {x y : α} (hx : x ∈ s) (hy : y ∈ s) (h : key x = key y) : x = y := by
  rw [mem_def] at hx hy
  rw [h, hy] at hx
  exact (Option.some.inj hx).symm

end KeyedSet
