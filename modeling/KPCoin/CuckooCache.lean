import Mathlib

/-!
# The cuckoo cache

`CuckooCache::cache` of `cuckoocache.h`, which remembers the scripts and signatures that were
verified.  An element has eight locations in the table.  `insert` looks for a discardable one, and
otherwise takes a location from its element and goes on with that one, for `depth_limit` rounds.

A round swaps the element in hand with one of the table, so both together stay a permutation of what
they were.  At the end one element is left over, be it the last one in hand or the discardable one
that was overwritten:

* `insertLoop_perm` : the table and the element left over are the old table and the new element.
* `run_sound` : the cache contains only what was inserted, no element twice, each at one of its
  locations, and an insertion loses at most one, if the size is at most `2 ^ 32 - 8`.  Above that
  `bit_packed_atomic_flags` allocates nothing, and the first insertion is undefined.

`FastRange32` is not part of the tree, and may be any function that stays in its range.
-/

namespace KPCoin.CuckooCache

open List

/-- What the cache computes with: the eight hash functions, `FastRange32`, and `depth_limit` as
the logarithm of the size, taken in floating point. -/
structure HashFns (α : Type) where
  hashFunction : Fin 8 → α → BitVec 32
  fastRange32 : BitVec 32 → ℕ → ℕ
  fastRange32_lt : ∀ {x n}, 0 < n → fastRange32 x n < n
  log2 : ℕ → ℕ
  log2_pos : ∀ {n}, 2 ≤ n → 0 < log2 n

/-- `cache`. -/
structure Cache (α : Type) where
  table : List α
  size : ℕ
  /-- The bits of `mem`: the elements that may be discarded. -/
  collectionFlags : List Bool
  /-- A bit outside of `mem` was accessed, so that all else is undefined. -/
  outside : Bool := false
  /-- The elements that were inserted recently. -/
  epochFlags : List Bool
  epochHeuristicCounter : ℕ
  epochSize : ℕ
  depthLimit : ℕ

namespace Cache

variable {α : Type} (H : HashFns α) (c : Cache α)

/-- `compute_hashes`. -/
def computeHashes (e : α) : List ℕ :=
  (List.finRange 8).map fun i => H.fastRange32 (H.hashFunction i e) c.size

/-- Access these bits of `mem`. -/
def access (bits : List ℕ) : Cache α :=
  { c with outside := c.outside || bits.any (c.collectionFlags.length ≤ ·) }

/-- `allow_erase`. -/
def allowErase (n : ℕ) : Cache α :=
  { c.access [n] with collectionFlags := c.collectionFlags.set n true }

/-- `please_keep`, together with the epoch that `insert` writes next to it. -/
def pleaseKeep (n : ℕ) (epoch : Bool) : Cache α :=
  { c.access [n] with
    collectionFlags := c.collectionFlags.set n false, epochFlags := c.epochFlags.set n epoch }

/-- A step of the loop of `epoch_check` that ages the elements. -/
def age (i : ℕ) : Cache α :=
  if c.epochFlags.getD i false then { c with epochFlags := c.epochFlags.set i false }
  else c.allowErase i

/-- `epoch_check`. -/
def epochCheck : Cache α :=
  if c.epochHeuristicCounter ≠ 0 then
    { c with epochHeuristicCounter := c.epochHeuristicCounter - 1 }
  else
    let recent := (List.range c.size).filter (c.epochFlags.getD · false)
    let epochUnusedCount := recent.countP (!c.collectionFlags.getD · false)
    let c := c.access recent
    if c.epochSize ≤ epochUnusedCount then
      { (List.range c.size).foldl age c with epochHeuristicCounter := c.epochSize }
    else
      { c with
        epochHeuristicCounter := max 1 (max (c.epochSize / 16) (c.epochSize - epochUnusedCount)) }

/-- The location where an element is found. -/
def find [DecidableEq α] (e : α) : Option ℕ :=
  (c.computeHashes H e).find? fun loc => c.table[loc]? = some e

/-- `contains`. -/
def contains [DecidableEq α] (e : α) (erase : Bool) : Bool × Cache α :=
  match c.find H e with
  | some loc => (true, if erase then c.allowErase loc else c)
  | none => (false, c)

/-- The elements in the table. -/
def stored : Set α := {x | x ∈ c.table}

/-- Same table, whatever the flags are. -/
structure SameTable (c c' : Cache α) : Prop where
  table : c'.table = c.table
  size : c'.size = c.size
  flags : c'.collectionFlags.length = c.collectionFlags.length
  outside : c'.outside = c.outside

variable {H c} {c' : Cache α} {e : α} {i loc : ℕ} {l : List ℕ}

theorem access_eq (h : ∀ i ∈ l, i < c.collectionFlags.length) : c.access l = c := by
  have hany : l.any (c.collectionFlags.length ≤ ·) = false := by simpa using h
  rw [access, hany, Bool.or_false]

theorem sameTable_allowErase (h : i < c.collectionFlags.length) : SameTable c (c.allowErase i) := by
  rw [allowErase, access_eq (by simpa using h)]
  exact ⟨rfl, rfl, length_set .., rfl⟩

theorem sameTable_pleaseKeep (h : i < c.collectionFlags.length) (epoch : Bool) :
    SameTable c (c.pleaseKeep i epoch) := by
  rw [pleaseKeep, access_eq (by simpa using h)]
  exact ⟨rfl, rfl, length_set .., rfl⟩

theorem sameTable_ageAll (h : ∀ i ∈ l, i < c.collectionFlags.length) :
    SameTable c (l.foldl age c) := by
  induction l generalizing c with
  | nil => exact ⟨rfl, rfl, rfl, rfl⟩
  | cons i l ih =>
    have hage : SameTable c (c.age i) := by
      unfold age
      split
      · exact ⟨rfl, rfl, rfl, rfl⟩
      · exact sameTable_allowErase (h i (by simp))
    obtain ⟨ht, hn, hf, ho⟩ := ih (c := c.age i) fun j hj => hage.flags ▸ h j (by simp [hj])
    exact ⟨ht.trans hage.table, hn.trans hage.size, hf.trans hage.flags, ho.trans hage.outside⟩

theorem sameTable_epochCheck (h : c.size ≤ c.collectionFlags.length) :
    SameTable c c.epochCheck := by
  have hlt : ∀ i ∈ List.range c.size, i < c.collectionFlags.length :=
    fun i hi => (mem_range.1 hi).trans_le h
  unfold epochCheck
  split
  · exact ⟨rfl, rfl, rfl, rfl⟩
  · dsimp only
    rw [access_eq fun i hi => hlt i (mem_of_mem_filter hi)]
    split
    · obtain ⟨ht, hn, hf, ho⟩ := sameTable_ageAll hlt
      exact ⟨ht, hn, hf, ho⟩
    · exact ⟨rfl, rfl, rfl, rfl⟩

theorem find_eq_some [DecidableEq α] (h : c.find H e = some loc) : e ∈ c.table :=
  mem_of_getElem? (by simpa using find?_some h)

variable [Inhabited α]

variable (H) in
/-- The rounds of `insert`.  `std::find` gives 8 where `last_loc` is not one of the locations. -/
def insertLoop : ℕ → Cache α → α → ℕ → Bool → Cache α
  | 0, c, _, _, _ => c
  | depth + 1, c, e, lastLoc, lastEpoch =>
    let locs := c.computeHashes H e
    let isSet := (c.collectionFlags.getD · false)
    let c := c.access (locs.takeWhile (!isSet ·))
    match locs.find? isSet with
    | some loc => { c with table := c.table.set loc e }.pleaseKeep loc lastEpoch
    | none =>
      let loc := locs.getD ((1 + locs.idxOf lastLoc) % 8) 0
      insertLoop depth
        { c with table := c.table.set loc e, epochFlags := c.epochFlags.set loc lastEpoch }
        (c.table.getD loc default) loc (c.epochFlags.getD loc false)

/-- The elements are at their locations, where the default element stands for a free slot. -/
structure Placed (H : HashFns α) (c : Cache α) : Prop where
  pos : 0 < c.size
  length : c.table.length = c.size
  flags : c.size ≤ c.collectionFlags.length
  outside : c.outside = false
  mem : ∀ i x, c.table[i]? = some x → x ≠ default → i ∈ c.computeHashes H x

theorem Placed.of_sameTable (h : c.Placed H) (hs : SameTable c c') : c'.Placed H := by
  obtain ⟨ht, hn, hf, ho⟩ := hs
  refine ⟨hn ▸ h.pos, by rw [ht, hn, h.length], by rw [hn, hf]; exact h.flags, ho.trans h.outside,
    fun i x hx hd => ?_⟩
  rw [computeHashes, hn]
  exact h.mem i x (ht ▸ hx) hd

theorem Placed.lt (h : c.Placed H) (hl : loc ∈ c.computeHashes H e) : loc < c.table.length := by
  obtain ⟨-, -, rfl⟩ := mem_map.1 hl
  rw [h.length]
  exact H.fastRange32_lt h.pos

theorem Placed.lt_flags (h : c.Placed H) (hl : loc ∈ c.computeHashes H e) :
    loc < c.collectionFlags.length := (h.length ▸ h.lt hl).trans_le h.flags

theorem Placed.set (h : c.Placed H) (hl : loc ∈ c.computeHashes H e) (flags : List Bool) :
    Placed H { c with table := c.table.set loc e, epochFlags := flags } := by
  refine ⟨h.pos, by simpa using h.length, h.flags, h.outside, fun i x hx hd => ?_⟩
  rw [getElem?_set] at hx
  split at hx
  · next heq =>
    subst heq
    rw [if_pos (h.lt hl)] at hx
    cases hx
    exact hl
  · exact h.mem i x hx hd

theorem perm_set (t : List α) (hi : i < t.length) :
    (t.getD i default :: t.set i e).Perm (e :: t) := by
  rw [getD_eq_getElem _ _ hi]
  calc (t[i] :: t.set i e).Perm (t[i] :: e :: t.eraseIdx i) :=
        (set_perm_cons_eraseIdx hi e).cons _
    _ |>.Perm (e :: t[i] :: t.eraseIdx i) := List.Perm.swap ..
    _ |>.Perm (e :: t) := (getElem_cons_eraseIdx_perm hi).cons _

omit [Inhabited α] in
theorem getD_computeHashes_mem (c : Cache α) (e : α) (k : ℕ) :
    (c.computeHashes H e).getD (k % 8) 0 ∈ c.computeHashes H e := by
  have hlt : k % 8 < (c.computeHashes H e).length := by
    simpa [computeHashes] using Nat.mod_lt k (by omega)
  rw [getD_eq_getElem _ _ hlt]
  exact getElem_mem hlt

/-- **The rounds** keep the elements of the table and the one in hand, but for one. -/
theorem insertLoop_perm (depth : ℕ) (h : c.Placed H) (lastLoc : ℕ) (lastEpoch : Bool) :
    (insertLoop H depth c e lastLoc lastEpoch).Placed H ∧
      ∃ x, (x :: (insertLoop H depth c e lastLoc lastEpoch).table).Perm (e :: c.table) := by
  induction depth generalizing c e lastLoc lastEpoch with
  | zero => exact ⟨h, e, .refl _⟩
  | succ depth ih =>
    rw [insertLoop, access_eq fun i hi => h.lt_flags ((takeWhile_sublist _).mem hi)]
    split
    · next loc hloc =>
      have hmem := mem_of_find?_eq_some hloc
      exact ⟨(h.set hmem _).of_sameTable (sameTable_pleaseKeep ((h.set hmem _).lt_flags hmem) _), _,
        perm_set c.table (h.lt hmem)⟩
    · have hmem := getD_computeHashes_mem (H := H) c e (1 + (c.computeHashes H e).idxOf lastLoc)
      -- the element that was at the location is in hand in the next round
      obtain ⟨hp, x, hx⟩ := ih (h.set hmem _) _ _
      exact ⟨hp, x, hx.trans (perm_set c.table (h.lt hmem))⟩

variable [DecidableEq α]

variable (H c) in
/-- `insert`, where `last_loc` starts as `invalid()`. -/
def insert (e : α) : Cache α :=
  let c := c.epochCheck
  match c.find H e with
  | some loc => c.pleaseKeep loc true
  | none => insertLoop H c.depthLimit c e (2 ^ 32 - 1) true

theorem Placed.notMem (h : c.Placed H) (hf : c.find H e = none) (hd : e ≠ default) :
    e ∉ c.table := by
  intro hm
  obtain ⟨i, hi⟩ := mem_iff_getElem?.1 hm
  have := find?_eq_none.1 hf i (h.mem i e hi hd)
  simp [hi] at this

/-- What an insertion does to the table: the element was there, or it comes in and another is left
over. -/
theorem insert_cases (h : c.Placed H) (e : α) :
    (c.insert H e).Placed H ∧
      ((c.insert H e).table = c.table ∧ e ∈ c.table ∨
        (e ≠ default → e ∉ c.table) ∧ ∃ x, (x :: (c.insert H e).table).Perm (e :: c.table)) := by
  have hs := sameTable_epochCheck h.flags
  have he := h.of_sameTable hs
  unfold insert
  dsimp only
  split
  · next loc hloc =>
    have hkeep := sameTable_pleaseKeep (he.lt_flags (mem_of_find?_eq_some hloc)) true
    exact ⟨he.of_sameTable hkeep, .inl ⟨hkeep.table.trans hs.table, hs.table ▸ find_eq_some hloc⟩⟩
  · next hnone =>
    rw [← hs.table]
    obtain ⟨hp, hx⟩ := insertLoop_perm c.epochCheck.depthLimit he (2 ^ 32 - 1) true
    exact ⟨hp, .inr ⟨he.notMem hnone, hx⟩⟩

theorem stored_insert (h : c.Placed H) (e : α) :
    ∃ lost : Set α, lost.Subsingleton ∧
      (c.insert H e).stored = Insert.insert e c.stored \ lost := by
  obtain ⟨-, ⟨ht, he⟩ | ⟨-, x, hx⟩⟩ := insert_cases h e
  · exact ⟨∅, Set.subsingleton_empty, by simp [stored, ht, he]⟩
  · -- the element left over is lost, unless it is in the table a second time
    refine ⟨{y | y = x ∧ x ∉ (c.insert H e).table}, fun y hy z hz => hy.1.trans hz.1.symm, ?_⟩
    ext y
    simp only [stored, Set.mem_sdiff, Set.mem_ofPred_eq]
    grind

theorem Placed.sameTable_contains (h : c.Placed H) (e : α) (erase : Bool) :
    SameTable c (c.contains H e erase).2 := by
  unfold contains
  split
  · next loc hloc =>
    dsimp only
    split
    · exact sameTable_allowErase (h.lt_flags (mem_of_find?_eq_some hloc))
    · exact ⟨rfl, rfl, rfl, rfl⟩
  · exact ⟨rfl, rfl, rfl, rfl⟩

/-- A call of the cache. -/
inductive Call (α : Type) where
  | insert (e : α)
  | contains (e : α) (erase : Bool)

variable (H) in
/-- Make a call. -/
def call (c : Cache α) : Call α → Cache α
  | .insert e => c.insert H e
  | .contains e erase => (c.contains H e erase).2

variable (H) in
/-- `setup`, where the number of bytes of `mem` and `45 * size` are `uint32_t`. -/
def setup (newSize : BitVec 32) : Cache α :=
  let size := max 2 newSize.toNat
  let epochSize := max 1 (45 * size % 2 ^ 32 / 100)
  { table := List.replicate size default, size, depthLimit := H.log2 size
    collectionFlags := List.replicate (8 * ((size + 7) % 2 ^ 32 / 8)) true
    epochFlags := List.replicate size false, epochSize, epochHeuristicCounter := epochSize }

variable (H) in
/-- The calls after `setup`. -/
def run (newSize : BitVec 32) (calls : List (Call α)) : Cache α :=
  calls.foldl (call H) (setup H newSize)

/-- The cache after some calls. -/
structure Inv (H : HashFns α) (calls : List (Call α)) (c : Cache α) : Prop where
  placed : c.Placed H
  once : ∀ x, x ≠ default → c.table.count x ≤ 1
  inserted : ∀ x ∈ c.table, x = default ∨ .insert x ∈ calls

theorem Inv.insert {calls : List (Call α)} (h : Inv H calls c) (e : α) :
    Inv H (calls ++ [.insert e]) (c.insert H e) := by
  obtain ⟨hp, ⟨ht, -⟩ | ⟨hnew, x, hx⟩⟩ := insert_cases h.placed e
  · exact ⟨hp, ht ▸ h.once, fun y hy => (h.inserted y (ht ▸ hy)).imp id (by simp +contextual)⟩
  · refine ⟨hp, fun y hd => ?_, fun y hy => ?_⟩
    · have hle : (c.insert H e).table.count y ≤ (e :: c.table).count y :=
        hx.count_eq y ▸ count_le_count_cons
      have hy := h.once y hd
      rw [count_cons] at hle
      split at hle
      · next heq =>
        -- the element is new, so it is in the table once
        obtain rfl : e = y := by simpa using heq
        rw [count_eq_zero.2 (hnew hd)] at hle
        exact hle
      · omega
    · rcases mem_cons.1 (hx.subset (mem_cons_of_mem x hy)) with rfl | hm
      · exact .inr (by simp)
      · exact (h.inserted y hm).imp id (by simp +contextual)

theorem inv_run {newSize : BitVec 32} (hsize : newSize.toNat ≤ 2 ^ 32 - 8) (calls : List (Call α)) :
    Inv H calls (run H newSize calls) := by
  induction calls using reverseRecOn with
  | nil =>
    refine ⟨⟨by simp [run, setup], by simp [run, setup], ?_, rfl, fun i x hx hd => ?_⟩,
      fun x hd => ?_, fun x hx => .inl (eq_of_mem_replicate hx)⟩
    · simp only [run, setup, foldl_nil, length_replicate]
      omega
    · exact absurd (eq_of_mem_replicate (mem_of_getElem? hx)) hd
    · simp [run, setup, count_replicate, hd.symm]
  | append_singleton calls a ih =>
    rw [run, foldl_append]
    cases a with
    | insert e => exact ih.insert e
    | contains e erase =>
      have hs := ih.placed.sameTable_contains e erase
      exact ⟨ih.placed.of_sameTable hs, fun x hd => hs.table.symm ▸ ih.once x hd,
        fun x hx => (ih.inserted x (hs.table ▸ hx)).imp id (by simp +contextual)⟩

omit [DecidableEq α] in
/-- The rounds do not forget an access outside of `mem`. -/
theorem insertLoop_outside (depth : ℕ) (h : c.outside = true) (lastLoc : ℕ) (lastEpoch : Bool) :
    (insertLoop H depth c e lastLoc lastEpoch).outside = true := by
  induction depth generalizing c e lastLoc lastEpoch with
  | zero => exact h
  | succ depth ih =>
    rw [insertLoop]
    split
    · simp [pleaseKeep, access, h]
    · exact ih (by simp [access, h]) _ _

/-- Without a byte for the flags, the first insertion is outside of them. -/
theorem outside_insert {newSize : BitVec 32} (hsize : 2 ^ 32 - 8 < newSize.toNat) (e : α) :
    (run H newSize [.insert e]).outside = true := by
  have hflags : (setup H newSize : Cache α).collectionFlags = [] := by
    have h : 8 * ((max 2 newSize.toNat + 7) % 2 ^ 32 / 8) = 0 := by omega
    simp only [setup, h, replicate_zero]
  have hcheck : (setup H newSize : Cache α).epochCheck = { (setup H newSize : Cache α) with
      epochHeuristicCounter := (setup H newSize : Cache α).epochHeuristicCounter - 1 } :=
    if_pos (by simp only [setup]; omega)
  obtain ⟨depth, hdepth⟩ := Nat.exists_eq_add_one.2 (H.log2_pos (le_max_left 2 newSize.toNat))
  simp only [run, foldl_cons, foldl_nil, call, insert, hcheck]
  split
  · simp [pleaseKeep, access, hflags]
  · show (insertLoop H (H.log2 _) _ _ _ _).outside = true
    rw [hdepth, insertLoop]
    simp only [hflags, getD_nil, Bool.not_false]
    split
    · simp [pleaseKeep, access]
    · exact insertLoop_outside _ (by simp [access, computeHashes, finRange]) _ _

/-- **Soundness**, if the size is one for which `mem` has room: after any calls the cache contains
only elements that were inserted, an element is in one slot, at one of its locations, and the next
insertion loses at most one.  Above that size the first insertion is undefined. -/
theorem run_sound (H : HashFns α) (newSize : BitVec 32) :
    (newSize.toNat ≤ 2 ^ 32 - 8 → ∀ calls, let c := run H newSize calls
      c.outside = false ∧
      (∀ e erase, (c.contains H e erase).1 = true → e = default ∨ .insert e ∈ calls) ∧
      (∀ x, x ≠ default → c.table.count x ≤ 1) ∧
      (∀ i x, c.table[i]? = some x → x ≠ default → i ∈ c.computeHashes H x) ∧
      ∀ e, ∃ lost : Set α, lost.Subsingleton ∧
        (c.insert H e).stored = Insert.insert e c.stored \ lost) ∧
    (2 ^ 32 - 8 < newSize.toNat → ∀ e, (run H newSize [.insert e]).outside = true) := by
  refine ⟨fun hsize calls => ?_, outside_insert⟩
  have h := inv_run (H := H) hsize calls
  refine ⟨h.placed.outside, fun e erase hc => ?_, h.once, h.placed.mem, stored_insert h.placed⟩
  unfold contains at hc
  split at hc
  · next hf => exact h.inserted e (find_eq_some hf)
  · cases hc

/-- Numbers that are their own hashes. -/
def plainHash : HashFns ℕ where
  hashFunction _ e := BitVec.ofNat 32 e
  fastRange32 x n := x.toNat * n / 2 ^ 32
  fastRange32_lt h := Nat.div_lt_of_lt_mul (Nat.mul_lt_mul_of_pos_right (BitVec.isLt _) h)
  log2 := Nat.log2
  log2_pos h := by
    rw [Nat.log2_eq_log_two]
    exact Nat.log_pos (by decide) h

theorem outside_insert_max : (run plainHash 4294967294 [.insert 1]).outside = true :=
  outside_insert (by decide) 1

end Cache

end KPCoin.CuckooCache
