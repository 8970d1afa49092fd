import Mathlib

/-!
# The rolling bloom filter

`CRollingBloomFilter` of `common/bloom.cpp`.  Insertions are counted in generations, numbered 1, 2,
3 in turn, and a position holds the number of the last generation that wrote there, or 0.  A new
generation wipes the positions that hold its number.

Counted without end, the generation `T` has the number `T % 3 + 1`, and wipes what the generation
`T - 3` has written last.  So a key that was inserted `d` generations ago is still there while
`d ≤ 2` (`Inv`), and two generations are as long as `nElements`:

* `contains_of_recent` : the last `nElements` keys are contained.

`MurmurHash3` may be any function, and so may `FastRange32`, which is not part of the tree, as long
as it stays in its range.  The sizes that the constructor computes from the false positive rate are
parameters.  `nEntriesThisGeneration` is taken without its bound.
-/

namespace KPCoin.Bloom

open List BitVec

/-- The functions of other parts of the tree. -/
structure HashFns (Key : Type) where
  murmurHash3 : BitVec 32 → Key → BitVec 32
  fastRange32 : BitVec 32 → ℕ → ℕ
  fastRange32_lt : ∀ {x n}, 0 < n → fastRange32 x n < n

/-- The words `data[2 * i]` and `data[2 * i + 1]`, with the two bits of 64 positions. -/
abbrev Words := BitVec 64 × BitVec 64

/-- `CRollingBloomFilter`.  The size of `data` is even, so its words come in pairs. -/
structure RollingBloomFilter where
  nEntriesPerGeneration : ℕ
  nEntriesThisGeneration : ℕ := 0
  nGeneration : ℕ := 1
  data : List Words
  nTweak : BitVec 32
  nHashFuncs : ℕ

/-- Wipe the positions that hold the number of the generation. -/
def wipe (nGeneration : ℕ) (p : Words) : Words :=
  let nGenerationMask1 : BitVec 64 := 0#64 - BitVec.ofNat 64 (nGeneration &&& 1)
  let nGenerationMask2 : BitVec 64 := 0#64 - BitVec.ofNat 64 (nGeneration >>> 1)
  let mask := (p.1 ^^^ nGenerationMask1) ||| (p.2 ^^^ nGenerationMask2)
  (p.1 &&& mask, p.2 &&& mask)

/-- Write the number of the generation at a position. -/
def write (nGeneration bit : ℕ) (p : Words) : Words :=
  ((p.1 &&& ~~~(1#64 <<< bit)) ||| BitVec.ofNat 64 (nGeneration &&& 1) <<< bit,
    (p.2 &&& ~~~(1#64 <<< bit)) ||| BitVec.ofNat 64 (nGeneration >>> 1) <<< bit)

namespace RollingBloomFilter

variable {Key : Type} (H : HashFns Key) (f : RollingBloomFilter)

/-- `RollingBloomHash`. -/
def rollingBloomHash (nHashNum : ℕ) (nTweak : BitVec 32) (vKey : Key) : BitVec 32 :=
  H.murmurHash3 (BitVec.ofNat 32 nHashNum * 0xFBA4C795 + nTweak) vKey

/-- The index of the pair `data[pos & ~1U]`, `data[pos | 1]`. -/
def pair (vKey : Key) (n : ℕ) : ℕ :=
  H.fastRange32 (rollingBloomHash H n f.nTweak vKey) (2 * f.data.length) / 2

/-- The bit in both words. -/
def bit (vKey : Key) (n : ℕ) : ℕ := (rollingBloomHash H n f.nTweak vKey &&& 0x3F).toNat

/-- `insert` starts a generation when the last one is full. -/
def nextGeneration : RollingBloomFilter :=
  if f.nEntriesThisGeneration = f.nEntriesPerGeneration then
    let nGeneration := if f.nGeneration + 1 = 4 then 1 else f.nGeneration + 1
    { f with nEntriesThisGeneration := 0, nGeneration, data := f.data.map (wipe nGeneration) }
  else f

/-- `insert` writes a key. -/
def mark (vKey : Key) : RollingBloomFilter :=
  { f with
    nEntriesThisGeneration := f.nEntriesThisGeneration + 1
    data := (List.range f.nHashFuncs).foldl (fun data n =>
      data.modify (f.pair H vKey n) (write f.nGeneration (f.bit H vKey n))) f.data }

/-- `insert`. -/
def insert (vKey : Key) : RollingBloomFilter := f.nextGeneration.mark H vKey

/-- `contains`. -/
def contains (vKey : Key) : Bool :=
  (List.range f.nHashFuncs).all fun n =>
    let p := f.data.getD (f.pair H vKey n) 0
    ((p.1 ||| p.2) >>> f.bit H vKey n).getLsbD 0

/-- `reset`, with the new tweak. -/
def reset (nTweak : BitVec 32) : RollingBloomFilter :=
  { f with
    nTweak, nEntriesThisGeneration := 0, nGeneration := 1, data := f.data.map fun _ => 0 }

/-- The constructor, where `pairs` is half of the size of `data`. -/
def create (nElements : BitVec 32) (nHashFuncs pairs : ℕ) (nTweak : BitVec 32) :
    RollingBloomFilter :=
  { nEntriesPerGeneration := ((nElements + 1) / 2).toNat
    data := List.replicate pairs 0, nTweak, nHashFuncs }

end RollingBloomFilter

/-- The number at a position, as its two bits. -/
def tag (p : Words) (b : ℕ) : Bool × Bool := (p.1.getLsbD b, p.2.getLsbD b)

/-- The bits of the number of a generation. -/
def genTag (T : ℕ) : Bool × Bool := ((T % 3 + 1) &&& 1 = 1, (T % 3 + 1) >>> 1 = 1)

theorem genTag_bits (T : ℕ) : ((T % 3 + 1) &&& 1 = 0 ∨ (T % 3 + 1) &&& 1 = 1) ∧
    ((T % 3 + 1) >>> 1 = 0 ∨ (T % 3 + 1) >>> 1 = 1) := by
  rcases (by omega : T % 3 = 0 ∨ T % 3 = 1 ∨ T % 3 = 2) with h | h | h <;> rw [h] <;> decide

theorem getLsbD_set {v b b' : ℕ} (hv : v = 0 ∨ v = 1) (hb : b < 64) (w : BitVec 64) :
    ((w &&& ~~~(1#64 <<< b')) ||| BitVec.ofNat 64 v <<< b').getLsbD b =
      if b = b' then decide (v = 1) else w.getLsbD b := by
  have hone : (1#64 <<< b').getLsbD b = decide (b = b') := by
    rw [← twoPow_eq]
    by_cases h : b = b'
    · subst h
      simp [hb]
    · simp [h, Ne.symm h]
  rw [getLsbD_or, getLsbD_and, getLsbD_not, hone]
  rcases hv with rfl | rfl
  · by_cases h : b = b' <;> simp [h, hb]
  · rw [hone]
    by_cases h : b = b' <;> simp [h, hb]

theorem getLsbD_mask {v b : ℕ} (hv : v = 0 ∨ v = 1) (hb : b < 64) :
    (0#64 - BitVec.ofNat 64 v).getLsbD b = decide (v = 1) := by
  rcases hv with rfl | rfl
  · simp
  · rw [show 0#64 - BitVec.ofNat 64 1 = allOnes 64 by decide, getLsbD_allOnes]
    simp [hb]

theorem tag_write (T : ℕ) {b : ℕ} (b' : ℕ) (hb : b < 64) (p : Words) :
    tag (write (T % 3 + 1) b' p) b = if b = b' then genTag T else tag p b := by
  obtain ⟨h1, h2⟩ := genTag_bits T
  simp only [tag, write, getLsbD_set h1 hb, getLsbD_set h2 hb, genTag]
  split_ifs <;> rfl

theorem tag_wipe {T b : ℕ} (hb : b < 64) {p : Words} (h : tag p b ≠ genTag T) :
    tag (wipe (T % 3 + 1) p) b = tag p b := by
  obtain ⟨h1, h2⟩ := genTag_bits T
  simp only [tag, genTag, wipe, getLsbD_and, getLsbD_or, getLsbD_xor,
    getLsbD_mask h1 hb, getLsbD_mask h2 hb] at h ⊢
  generalize p.1.getLsbD b = x at h ⊢
  generalize p.2.getLsbD b = y at h ⊢
  generalize decide ((T % 3 + 1) &&& 1 = 1) = u at h ⊢
  generalize decide ((T % 3 + 1) >>> 1 = 1) = v at h ⊢
  revert x y u v
  decide

section Fresh

variable {T d b i : ℕ} {data : List Words}

/-- The position was last written at most `d` generations before `T`. -/
def Fresh (T d : ℕ) (data : List Words) (i b : ℕ) : Prop :=
  ∃ p, data[i]? = some p ∧ ∃ t ≤ T, T ≤ t + d ∧ tag p b = genTag t

theorem Fresh.write (h : Fresh T d data i b) (hb : b < 64) (i' b' : ℕ) :
    Fresh T d (data.modify i' (Bloom.write (T % 3 + 1) b')) i b := by
  obtain ⟨p, hp, t, ht, hd, htag⟩ := h
  refine ⟨_, by rw [getElem?_modify, hp]; rfl, ?_⟩
  split_ifs
  · rw [tag_write T b' hb]
    split_ifs
    · exact ⟨T, le_rfl, Nat.le_add_right .., rfl⟩
    · exact ⟨t, ht, hd, htag⟩
  · exact ⟨t, ht, hd, htag⟩

theorem fresh_write (hi : i < data.length) (hb : b < 64) :
    Fresh T 0 (data.modify i (Bloom.write (T % 3 + 1) b)) i b := by
  refine ⟨Bloom.write (T % 3 + 1) b data[i], by simp [hi], T, le_rfl, le_rfl, ?_⟩
  rw [tag_write T b hb, if_pos rfl]

theorem genTag_ne {t : ℕ} (h : t % 3 ≠ T % 3) : genTag t ≠ genTag T := by
  have ht := Nat.mod_lt t (by decide : 0 < 3)
  have hT := Nat.mod_lt T (by decide : 0 < 3)
  have hall : ∀ x < 3, ∀ y < 3, x ≠ y →
      ((decide ((x + 1) &&& 1 = 1), decide ((x + 1) >>> 1 = 1)) : Bool × Bool) ≠
        (decide ((y + 1) &&& 1 = 1), decide ((y + 1) >>> 1 = 1)) := by decide
  exact hall _ ht _ hT h

/-- A new generation has the number of that three before. -/
theorem Fresh.wipe (h : Fresh T d data i b) (hb : b < 64) (hd : d < 2) :
    Fresh (T + 1) (d + 1) (data.map (Bloom.wipe ((T + 1) % 3 + 1))) i b := by
  obtain ⟨p, hp, t, ht, hTd, htag⟩ := h
  have hne : genTag t ≠ genTag (T + 1) := genTag_ne (by omega)
  refine ⟨_, by rw [getElem?_map, hp]; rfl, t, by omega, by omega, ?_⟩
  rw [tag_wipe hb (htag ▸ hne), htag]

end Fresh

namespace RollingBloomFilter

variable {Key : Type} {H : HashFns Key} {f : RollingBloomFilter} {E T : ℕ} {recent : List Key}
  {pairs : ℕ}

theorem bit_lt (f : RollingBloomFilter) (k : Key) (n : ℕ) : f.bit H k n < 64 := by
  exact lt_of_le_of_lt Nat.and_le_right (by decide)

theorem pair_lt (h : f.data ≠ []) (k : Key) (n : ℕ) : f.pair H k n < f.data.length := by
  have := H.fastRange32_lt (x := rollingBloomHash H n f.nTweak k)
    (show 0 < 2 * f.data.length by have := length_pos_iff.2 h; omega)
  unfold pair
  omega

/-- All positions of the key were last written at most `d` generations before `T`. -/
def Has (H : HashFns Key) (f : RollingBloomFilter) (T d : ℕ) (k : Key) : Prop :=
  ∀ n < f.nHashFuncs, Fresh T d f.data (f.pair H k n) (f.bit H k n)

/-- With `E` entries in a generation and the generations counted up to `T`, a recent key that was
inserted `d` generations ago is in the filter while `d ≤ 2`, and comes after the `d - 1` full
generations between and the present one. -/
structure Inv (H : HashFns Key) (E T : ℕ) (f : RollingBloomFilter) (recent : List Key) : Prop where
  perGeneration : f.nEntriesPerGeneration = E
  data : f.data ≠ []
  generation : f.nGeneration = T % 3 + 1
  started : E = 0 → recent ≠ [] → 0 < f.nEntriesThisGeneration
  kept : ∀ j k, recent[j]? = some k → ∃ d, (d ≤ 2 → f.Has H T d k) ∧
    (0 < d → d * E + f.nEntriesThisGeneration ≤ j + E) ∧ (E = 0 → d = 0)

theorem foldl_write (k : Key) (ns : List ℕ) {data : List Words} (hl : data.length = f.data.length)
    (hdata : f.data ≠ []) : let data' := ns.foldl (fun data n =>
      data.modify (f.pair H k n) (write (T % 3 + 1) (f.bit H k n))) data
    data'.length = f.data.length ∧
      (∀ d i b, b < 64 → Fresh T d data i b → Fresh T d data' i b) ∧
      ∀ n ∈ ns, Fresh T 0 data' (f.pair H k n) (f.bit H k n) := by
  induction ns generalizing data with
  | nil => exact ⟨hl, fun _ _ _ _ h => h, by simp⟩
  | cons n ns ih =>
    obtain ⟨hlen, hkeep, hmark⟩ := ih ((length_modify
      (write (T % 3 + 1) (f.bit H k n)) data (f.pair H k n)).trans hl)
    refine ⟨hlen, fun d i b hb h => hkeep d i b hb (h.write hb _ _), fun m hm => ?_⟩
    rcases mem_cons.1 hm with rfl | hm
    · exact hkeep _ _ _ (f.bit_lt k m) (fresh_write (hl ▸ pair_lt hdata k m) (f.bit_lt k m))
    · exact hmark m hm

section

variable (h : Inv H E T f recent)
include h

theorem Inv.mark (k : Key) : Inv H E T (f.mark H k) (k :: recent) := by
  obtain ⟨hlen, hkeep, hmark⟩ := foldl_write k (range f.nHashFuncs) rfl h.data
  rw [← h.generation] at hlen hkeep hmark
  have hpair (k' n) : (f.mark H k).pair H k' n = f.pair H k' n := by
    rw [pair, show (f.mark H k).data.length = f.data.length from hlen]
    rfl
  refine ⟨h.perGeneration, fun hd => h.data (eq_nil_of_length_eq_zero ?_), h.generation,
    fun _ _ => Nat.succ_pos _, fun j k' hj => ?_⟩
  · rw [← hlen]
    exact length_eq_zero_iff.2 hd
  · cases j with
    | zero =>
      cases hj
      exact ⟨0, fun _ n hn => hpair k n ▸ hmark n (mem_range.2 hn), by omega, fun _ => rfl⟩
    | succ j =>
      obtain ⟨d, hd, hj, hE⟩ := h.kept j k' hj
      refine ⟨d, fun h2 n hn => ?_, fun h0 => ?_, hE⟩
      · exact hpair k' n ▸ hkeep _ _ _ (f.bit_lt k' n) (hd h2 n hn)
      · have := hj h0
        show d * E + (f.nEntriesThisGeneration + 1) ≤ _
        omega

/-- With a new generation every key is one generation older. -/
theorem Inv.nextGeneration : ∃ T', Inv H E T' f.nextGeneration recent := by
  by_cases hc : f.nEntriesThisGeneration = f.nEntriesPerGeneration
  case neg => exact ⟨T, by rwa [RollingBloomFilter.nextGeneration, if_neg hc]⟩
  have hg : (if f.nGeneration + 1 = 4 then 1 else f.nGeneration + 1) = (T + 1) % 3 + 1 := by
    rw [h.generation]
    split_ifs <;> omega
  have hcE : f.nEntriesThisGeneration = E := hc.trans h.perGeneration
  -- an empty generation is left before the first key only
  have hE (h0 : E = 0) : recent = [] := by
    by_contra hr
    exact absurd (h.started h0 hr) (by omega)
  refine ⟨T + 1, ?_⟩
  simp only [RollingBloomFilter.nextGeneration, if_pos hc, hg]
  refine ⟨h.perGeneration, by simpa using h.data, rfl, fun h0 hr => absurd (hE h0) hr,
    fun j k hj => ?_⟩
  obtain ⟨d, hd, hdj, -⟩ := h.kept j k hj
  refine ⟨d + 1, fun h2 n hn => ?_, fun _ => ?_, fun h0 => by simp [hE h0] at hj⟩
  · rw [pair, length_map]
    exact (hd (by omega) n hn).wipe (f.bit_lt k n) (by omega)
  · rcases eq_zero_or_pos d with rfl | h0
    · simp
    · have := hdj h0
      show (d + 1) * E + 0 ≤ j + E
      rw [Nat.succ_mul]
      omega

theorem Inv.reset (nTweak : BitVec 32) : Inv H E 0 (f.reset nTweak) [] :=
  ⟨h.perGeneration, by simpa [RollingBloomFilter.reset] using h.data, rfl, by simp, by simp⟩

/-- What changes a filter. -/
inductive Op (Key : Type)
  | insert (vKey : Key)
  | reset (nTweak : BitVec 32)

/-- The filter after an operation. -/
def exec (H : HashFns Key) (f : RollingBloomFilter) : Op Key → RollingBloomFilter
  | .insert vKey => f.insert H vKey
  | .reset nTweak => f.reset nTweak

/-- The keys since the last reset, the newest first. -/
def recentKeys (recent : List Key) : Op Key → List Key
  | .insert vKey => vKey :: recent
  | .reset _ => []

theorem Inv.run (ops : List (Op Key)) :
    ∃ T', Inv H E T' (ops.foldl (exec H) f) (ops.foldl recentKeys recent) := by
  induction ops generalizing T f recent with
  | nil => exact ⟨T, h⟩
  | cons op ops ih =>
    cases op with
    | insert k =>
      obtain ⟨_, h'⟩ := h.nextGeneration
      exact ih (h'.mark k)
    | reset nTweak => exact ih (h.reset nTweak)

end

theorem inv_create (nElements : BitVec 32) (nHashFuncs : ℕ) (hp : 0 < pairs) (nTweak : BitVec 32) :
    Inv H ((nElements + 1) / 2).toNat 0 (create nElements nHashFuncs pairs nTweak) [] :=
  ⟨rfl, by simp [create]; omega, rfl, by simp, by simp⟩

theorem Has.contains {d : ℕ} {k : Key} (h : f.Has H T d k) : f.contains H k = true := by
  refine all_eq_true.2 fun n hn => ?_
  obtain ⟨p, hp, t, -, -, htag⟩ := h n (mem_range.1 hn)
  have hset : p.1.getLsbD (f.bit H k n) = true ∨ p.2.getLsbD (f.bit H k n) = true := by
    simp only [tag, genTag, Prod.mk.injEq] at htag
    rw [htag.1, htag.2]
    rcases (by omega : t % 3 = 0 ∨ t % 3 = 1 ∨ t % 3 = 2) with h | h | h <;> rw [h] <;> decide
  simpa [hp] using hset

/-- **The last keys are contained.**  After any insertions and resets, of each of the `nElements`
keys inserted last since the last reset. -/
theorem contains_of_recent (H : HashFns Key) (nElements : BitVec 32) (nHashFuncs : ℕ) {pairs : ℕ}
    (hp : 0 < pairs) (nTweak : BitVec 32) (ops : List (Op Key)) {k : Key}
    (hk : k ∈ (ops.foldl recentKeys []).take nElements.toNat) :
    (ops.foldl (exec H) (create nElements nHashFuncs pairs nTweak)).contains H k = true := by
  obtain ⟨T, h⟩ := (inv_create nElements nHashFuncs hp nTweak).run ops
  obtain ⟨j, hj, rfl⟩ := mem_take_iff_getElem.1 hk
  obtain ⟨d, hd, hdj, hE⟩ := h.kept j _ (getElem?_eq_getElem (by omega))
  refine (hd ?_).contains
  by_contra h3
  have hmul := Nat.mul_le_mul_right ((nElements + 1) / 2).toNat (by omega : 3 ≤ d)
  have hN : nElements.toNat ≤ 2 * ((nElements + 1) / 2).toNat ∨
      ((nElements + 1) / 2).toNat = 0 := by
    simp
    omega
  rcases hN with hN | h0
  · omega
  · exact absurd (hE h0) (by omega)

theorem contains_of_recent_five :
    let H : HashFns ℕ :=
      ⟨fun seed k => seed + BitVec.ofNat 32 k, fun x n => x.toNat % n, Nat.mod_lt _⟩
    let ops := .reset 7 :: [1, 2, 3, 4, 5].map .insert
    (ops.foldl (exec H) (create 3 2 1 0)).contains H 3 = true := by
  intro H ops
  exact contains_of_recent H 3 2 (by decide) 0 ops (by decide)

end RollingBloomFilter

end KPCoin.Bloom
