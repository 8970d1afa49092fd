import KPCoin.Pow.Limbs

/-!
# The loops behind shifts and compact forms

`<<=`, `>>=` and `bits` of `base_uint` (`arith_uint256.cpp`) go through the eight limbs of a number;
`SetCompact` and `GetCompact` are made of them.  The model uses the operators of `BitVec 256`:

* `shiftLeft_eq`, `shiftRight_eq`, `bitsLoop_eq` : each loop is the operator, compared bit by bit;
* `setCompactLoops_eq`, `getCompactLoops_eq` : so are the two conversions, and the assertions of
  `GetCompact` hold.
-/

namespace KPCoin.Pow

variable {x : Arith} {a pn : ℕ → BitVec 32} {i j k s t : ℕ} {w : BitVec 32}

theorem getLsbD_zero_word {w : ℕ} : (0 : BitVec w).getLsbD i = false := BitVec.getLsbD_zero

/-- `pn[i]` of a number. -/
def limb (x : Arith) (i : ℕ) : BitVec 32 := (x >>> (32 * i)).setWidth 32

/-- The number with these limbs. -/
def fromLimbs (pn : ℕ → BitVec 32) : Arith := BitVec.ofNat 256 (limbValue ((List.range 8).map pn))

theorem getLsbD_limb (ht : t < 32) : (limb x i).getLsbD t = x.getLsbD (32 * i + t) := by
  rw [limb, BitVec.getLsbD_setWidth, BitVec.getLsbD_ushiftRight, decide_eq_true ht, Bool.true_and]

theorem testBit_limbValue (ds : List (BitVec 32)) (j : ℕ) (ht : t < 32) :
    (limbValue ds).testBit (32 * j + t) = (ds.getD j 0).getLsbD t := by
  induction ds generalizing j with
  | nil => simp [limbValue]
  | cons d ds ih =>
    rw [limbValue, add_comm, Nat.testBit_two_pow_mul_add _ d.isLt]
    cases j with
    | zero =>
      rw [if_pos (by omega), Nat.zero_add]
      rfl
    | succ j =>
      rw [if_neg (by omega), show 32 * (j + 1) + t - 32 = 32 * j + t by omega, ih,
        List.getD_cons_succ]

theorem getLsbD_fromLimbs (hj : j < 8) (ht : t < 32) :
    (fromLimbs pn).getLsbD (32 * j + t) = (pn j).getLsbD t := by
  have hbound : 32 * j + t < 256 := by omega
  rw [fromLimbs, BitVec.getLsbD_ofNat, decide_eq_true hbound, Bool.true_and,
    testBit_limbValue _ _ ht, List.getD_eq_getElem _ _ (by simpa using hj), List.getElem_map,
    List.getElem_range]

theorem eq_fromLimbs (h : ∀ j < 8, ∀ t < 32, (pn j).getLsbD t = x.getLsbD (32 * j + t)) :
    fromLimbs pn = x := by
  refine BitVec.eq_of_getLsbD_eq fun p hp => ?_
  rw [← Nat.div_add_mod p 32, getLsbD_fromLimbs (by omega) (Nat.mod_lt _ (by decide))]
  exact h _ (by omega) _ (Nat.mod_lt _ (by decide))

/-- `pn[j] |= w`. -/
def orAt (pn : ℕ → BitVec 32) (j : ℕ) (w : BitVec 32) : ℕ → BitVec 32 :=
  Function.update pn j (pn j ||| w)

theorem getLsbD_orAt_of (c : Prop) [Decidable c] (w : BitVec 32) :
    ((if c then orAt pn j w else pn) i).getLsbD t = true ↔
      (pn i).getLsbD t = true ∨ (c ∧ i = j ∧ w.getLsbD t = true) := by
  by_cases hc : c
  · by_cases hij : i = j
    · subst hij
      simp [hc, orAt]
    · simp [hc, hij, orAt]
  · simp [hc]

/-- A loop each round of which sets some bits: those of all rounds are set in the end. -/
theorem getLsbD_foldl_rounds {round : (ℕ → BitVec 32) → ℕ → ℕ → BitVec 32} {W : ℕ → Prop}
    (h : ∀ pn i, (round pn i j).getLsbD t = true ↔ (pn j).getLsbD t = true ∨ W i) (m : ℕ) :
    ((List.range m).foldl round (fun _ => 0) j).getLsbD t = true ↔ ∃ i < m, W i := by
  induction m with
  | zero => simp
  | succ m ih =>
    rw [List.range_succ, List.foldl_append, List.foldl_cons, List.foldl_nil, h, ih]
    constructor
    · rintro (⟨i, hi, hW⟩ | hW)
      · exact ⟨i, by omega, hW⟩
      · exact ⟨m, by omega, hW⟩
    · rintro ⟨i, hi, hW⟩
      rcases Nat.lt_succ_iff_lt_or_eq.1 hi with hlt | rfl
      · exact .inl ⟨i, hlt, hW⟩
      · exact .inr hW

/-- One round of the loop of `<<=`. -/
def shlRound (a : ℕ → BitVec 32) (k shift : ℕ) (pn : ℕ → BitVec 32) (i : ℕ) : ℕ → BitVec 32 :=
  let pn := if i + k + 1 < 8 ∧ shift ≠ 0 then orAt pn (i + k + 1) (a i >>> (32 - shift)) else pn
  if i + k < 8 then orAt pn (i + k) (a i <<< shift) else pn

/-- `<<=`. -/
def shiftLeft (x : Arith) (shift : ℕ) : Arith :=
  fromLimbs ((List.range 8).foldl (shlRound (limb x) (shift / 32) (shift % 32)) fun _ => 0)

/-- One round of the loop of `>>=`. -/
def shrRound (a : ℕ → BitVec 32) (k shift : ℕ) (pn : ℕ → BitVec 32) (i : ℕ) : ℕ → BitVec 32 :=
  let pn := if k + 1 ≤ i ∧ shift ≠ 0 then orAt pn (i - k - 1) (a i <<< (32 - shift)) else pn
  if k ≤ i then orAt pn (i - k) (a i >>> shift) else pn

/-- `>>=`. -/
def shiftRight (x : Arith) (shift : ℕ) : Arith :=
  fromLimbs ((List.range 8).foldl (shrRound (limb x) (shift / 32) (shift % 32)) fun _ => 0)

theorem getLsbD_limb_shiftLeft (ht : t < 32) : (limb x i <<< s).getLsbD t = true ↔
    s ≤ t ∧ x.getLsbD (32 * i + (t - s)) = true := by
  rw [BitVec.getLsbD_shiftLeft, decide_eq_true ht, getLsbD_limb (by omega)]
  simp

theorem getLsbD_limb_shiftRight : (limb x i >>> s).getLsbD t = true ↔
    s + t < 32 ∧ x.getLsbD (32 * i + (s + t)) = true := by
  rw [BitVec.getLsbD_ushiftRight]
  by_cases h : s + t < 32
  · rw [getLsbD_limb h]
    simp [h]
  · rw [BitVec.getLsbD_of_ge _ _ (by omega)]
    simp [h]

theorem shiftLeft_eq (x : Arith) (shift : ℕ) : shiftLeft x shift = x <<< shift := by
  refine eq_fromLimbs fun j hj t ht => Bool.eq_iff_iff.2 ?_
  have hword : (x <<< shift).getLsbD (32 * j + t) = true ↔
      shift ≤ 32 * j + t ∧ x.getLsbD (32 * j + t - shift) = true := by
    rw [BitVec.getLsbD_shiftLeft, decide_eq_true (show 32 * j + t < 256 by omega)]
    simp
  rw [hword]
  set k := shift / 32
  set s := shift % 32
  refine (getLsbD_foldl_rounds (W := fun i =>
    (i + k + 1 < 8 ∧ s ≠ 0) ∧ j = i + k + 1 ∧ (limb x i >>> (32 - s)).getLsbD t = true ∨
      i + k < 8 ∧ j = i + k ∧ (limb x i <<< s).getLsbD t = true) (fun pn i => ?_) 8).trans ?_
  · rw [shlRound, getLsbD_orAt_of, getLsbD_orAt_of, or_assoc]
  simp only [getLsbD_limb_shiftLeft ht, getLsbD_limb_shiftRight]
  constructor
  · rintro ⟨i, -, ⟨-, rfl, -, hbit⟩ | ⟨-, rfl, hle, hbit⟩⟩
    · rw [show 32 * (i + k + 1) + t - shift = 32 * i + (32 - s + t) by omega]
      exact ⟨by omega, hbit⟩
    · rw [show 32 * (i + k) + t - shift = 32 * i + (t - s) by omega]
      exact ⟨by omega, hbit⟩
  · rintro ⟨hle, hbit⟩
    by_cases t < s
    · refine ⟨j - k - 1, by omega, .inl ⟨by omega, by omega, by omega, ?_⟩⟩
      rwa [show 32 * (j - k - 1) + (32 - s + t) = 32 * j + t - shift by omega]
    · refine ⟨j - k, by omega, .inr ⟨by omega, by omega, by omega, ?_⟩⟩
      rwa [show 32 * (j - k) + (t - s) = 32 * j + t - shift by omega]

theorem shiftRight_eq (x : Arith) (shift : ℕ) : shiftRight x shift = x >>> shift := by
  refine eq_fromLimbs fun j hj t ht => Bool.eq_iff_iff.2 ?_
  rw [BitVec.getLsbD_ushiftRight]
  set k := shift / 32
  set s := shift % 32
  refine (getLsbD_foldl_rounds (W := fun i =>
    (k + 1 ≤ i ∧ s ≠ 0) ∧ j = i - k - 1 ∧ (limb x i <<< (32 - s)).getLsbD t = true ∨
      k ≤ i ∧ j = i - k ∧ (limb x i >>> s).getLsbD t = true) (fun pn i => ?_) 8).trans ?_
  · rw [shrRound, getLsbD_orAt_of, getLsbD_orAt_of, or_assoc]
  simp only [getLsbD_limb_shiftLeft ht, getLsbD_limb_shiftRight]
  constructor
  · rintro ⟨i, -, ⟨hk, rfl, hle, hbit⟩ | ⟨hk, rfl, -, hbit⟩⟩
    · rwa [show shift + (32 * (i - k - 1) + t) = 32 * i + (t - (32 - s)) by omega]
    · rwa [show shift + (32 * (i - k) + t) = 32 * i + (s + t) by omega]
  · intro hbit
    have hbound : shift + (32 * j + t) < 256 := by
      by_contra hge
      rw [BitVec.getLsbD_of_ge _ _ (by omega)] at hbit
      cases hbit
    by_cases hts : s + t < 32
    · refine ⟨j + k, by omega, .inr ⟨by omega, by omega, hts, ?_⟩⟩
      rwa [show 32 * (j + k) + (s + t) = shift + (32 * j + t) by omega]
    · refine ⟨j + k + 1, by omega, .inl ⟨by omega, by omega, by omega, ?_⟩⟩
      rwa [show 32 * (j + k + 1) + (t - (32 - s)) = shift + (32 * j + t) by omega]

/-- The inner loop of `bits`: the position of the highest bit of a limb, from `nbits` down. -/
def highBit (w : BitVec 32) : ℕ → ℕ
  | 0 => 1
  | nbits + 1 => if w &&& 1#32 <<< (nbits + 1) ≠ 0 then nbits + 2 else highBit w nbits

/-- The outer loop of `bits`, with `pos + 1` as counter. -/
def bitsLoop (pn : ℕ → BitVec 32) : ℕ → ℕ
  | 0 => 0
  | pos + 1 => if pn pos ≠ 0 then 32 * pos + highBit (pn pos) 31 else bitsLoop pn pos

theorem and_one_shiftLeft_ne_zero (ht : t < 32) : w &&& 1#32 <<< t ≠ 0 ↔ w.getLsbD t = true := by
  have hne : BitVec.twoPow 32 t ≠ 0 := fun h => by
    have hbit : (BitVec.twoPow 32 t).getLsbD t = true := by simp [ht]
    rw [h, getLsbD_zero_word] at hbit
    cases hbit
  rw [← BitVec.twoPow_eq, BitVec.and_twoPow]
  split_ifs with hbit
  · exact iff_of_true hne hbit
  · exact iff_of_false (not_not.2 rfl) hbit

theorem highBit_spec (hn : t < 32) (hlow : ∀ i, t < i → w.getLsbD i = false)
    (hne : w ≠ 0) : ∃ i, highBit w t = i + 1 ∧ w.getLsbD i = true ∧
      ∀ i', i < i' → w.getLsbD i' = false := by
  induction t with
  | zero =>
    refine ⟨0, rfl, ?_, hlow⟩
    by_contra hfalse
    refine hne (BitVec.eq_of_getLsbD_eq fun i _ => ?_)
    rw [getLsbD_zero_word]
    rcases eq_zero_or_pos i with rfl | hpos
    · exact Bool.eq_false_iff.2 hfalse
    · exact hlow i hpos
  | succ t ih =>
    rw [highBit]
    split_ifs with hbit
    · exact ⟨t + 1, rfl, (and_one_shiftLeft_ne_zero hn).1 hbit, hlow⟩
    · refine ih (by omega) fun i hi => ?_
      rcases Nat.lt_or_eq_of_le hi with hlt | rfl
      · exact hlow i hlt
      · exact Bool.eq_false_iff.2 (mt (and_one_shiftLeft_ne_zero hn).2 hbit)

theorem bits_eq_of_highest {p : ℕ} (hp : x.getLsbD p = true)
    (hlow : ∀ p', p < p' → x.getLsbD p' = false) : bits x = p + 1 := by
  rw [bits_eq_size]
  refine le_antisymm (Nat.size_le.2 (Nat.lt_pow_two_of_testBit _ hlow)) ?_
  exact Nat.lt_size.2 (Nat.ge_two_pow_of_testBit hp)

theorem bitsLoop_eq (x : Arith) : bitsLoop (limb x) 8 = bits x := by
  have hloop : ∀ n ≤ 8, (∀ p, 32 * n ≤ p → x.getLsbD p = false) →
      bitsLoop (limb x) n = bits x := by
    intro n hn hhigh
    induction n with
    | zero =>
      have hzero : x = 0 := BitVec.eq_of_getLsbD_eq fun p _ => by
        rw [hhigh p (by omega), getLsbD_zero_word]
      rw [bitsLoop, bits_eq_zero.2 hzero]
    | succ n ih =>
      have hlimb : ∀ i, 32 ≤ i → (limb x n).getLsbD i = false := fun i hi =>
        BitVec.getLsbD_of_ge _ _ hi
      rw [bitsLoop]
      split_ifs with hne
      · obtain ⟨i, hi, hbit, habove⟩ := highBit_spec (by decide) (hlimb) hne
        have hi32 : i < 32 := by
          by_contra hge
          rw [hlimb i (by omega)] at hbit
          cases hbit
        rw [hi, ← add_assoc]
        refine (bits_eq_of_highest (getLsbD_limb hi32 ▸ hbit) fun p hp => ?_).symm
        rcases lt_or_ge p (32 * (n + 1)) with hlt | hge
        · have hp' := habove (p - 32 * n) (by omega)
          rwa [getLsbD_limb (by omega), show 32 * n + (p - 32 * n) = p by omega] at hp'
        · exact hhigh p hge
      · rw [not_not] at hne
        refine ih (by omega) fun p hp => ?_
        rcases lt_or_ge p (32 * (n + 1)) with hlt | hge
        · rw [show p = 32 * n + (p - 32 * n) by omega, ← getLsbD_limb (by omega), hne]
          exact getLsbD_zero_word
        · exact hhigh p hge
  exact hloop 8 le_rfl fun p hp => BitVec.getLsbD_of_ge _ _ hp

/-- `SetCompact`, with the loop of `<<=`. -/
def setCompactLoops (nCompact : Compact) : Target :=
  let nSize := (nCompact >>> 24).toNat
  let word := nCompact &&& 0x007fffff
  let nWord := if nSize ≤ 3 then word >>> (8 * (3 - nSize)) else word
  { value :=
      if nSize ≤ 3 then nWord.setWidth 256 else shiftLeft (nWord.setWidth 256) (8 * (nSize - 3))
    negative := nWord != 0 && nCompact &&& 0x00800000 != 0
    overflow := nWord != 0 && (decide (nSize > 34) || decide (nWord.toNat > 0xff ∧ nSize > 33) ||
      decide (nWord.toNat > 0xffff ∧ nSize > 32)) }

/-- `GetCompact` of a value without sign, with the loops of `bits` and `>>=`; `none` if an assertion
fails. -/
def getCompactLoops (x : Arith) : Option Compact :=
  let nSize := (bitsLoop (limb x) 8 + 7) / 8
  let nCompact : Compact :=
    if nSize ≤ 3 then x.setWidth 64 <<< (8 * (3 - nSize)) |>.setWidth 32
    else (shiftRight x (8 * (nSize - 3))).setWidth 32
  let (nCompact, nSize) :=
    if nCompact &&& 0x00800000 != 0 then (nCompact >>> 8, nSize + 1) else (nCompact, nSize)
  if nCompact &&& ~~~0x007fffff ≠ 0 ∨ nSize ≥ 256 then none
  else some (nCompact ||| BitVec.ofNat 32 nSize <<< 24)

theorem setCompactLoops_eq (n : Compact) : setCompactLoops n = setCompact n := by
  simp [setCompactLoops, shiftLeft_eq, setCompact]

/-- A word below the sign bit passes the assertion of `GetCompact`. -/
theorem and_not_mask_eq_zero {w : Compact} (h : w.toNat < 2 ^ 23) : w &&& ~~~0x007fffff = 0 := by
  have hmask : w &&& 0x007fffff = w := by
    refine BitVec.eq_of_toNat_eq ?_
    change w.toNat &&& (2 ^ 23 - 1) = w.toNat
    rw [Nat.and_two_pow_sub_one_eq_mod, Nat.mod_eq_of_lt h]
  rw [← hmask, BitVec.and_assoc]
  exact BitVec.and_zero

theorem getCompactLoops_eq (x : Arith) : getCompactLoops x = some (getCompact x) := by
  have hlt := mantissa_lt x
  have hword := toNat_leadingWord x
  have hsign := sign_eq_true_iff (hword ▸ hlt)
  have hsize : byteSize x + 1 < 256 := by
    have := bits_le x
    unfold byteSize
    omega
  have hloops : getCompactLoops x =
      (if leadingWord x &&& 0x00800000 != 0 then
        if leadingWord x >>> 8 &&& ~~~0x007fffff ≠ 0 ∨ byteSize x + 1 ≥ 256 then none
        else some (leadingWord x >>> 8 ||| BitVec.ofNat 32 (byteSize x + 1) <<< 24)
      else if leadingWord x &&& ~~~0x007fffff ≠ 0 ∨ byteSize x ≥ 256 then none
        else some (leadingWord x ||| BitVec.ofNat 32 (byteSize x) <<< 24)) := by
    simp only [getCompactLoops, bitsLoop_eq, shiftRight_eq]
    rw [← byteSize, ← leadingWord]
    split_ifs <;> rfl
  have hcompact : getCompact x = if leadingWord x &&& 0x00800000 != 0 then
      (leadingWord x >>> 8) ||| (BitVec.ofNat 32 (byteSize x + 1) <<< 24)
      else leadingWord x ||| (BitVec.ofNat 32 (byteSize x) <<< 24) := rfl
  rw [hloops, hcompact]
  by_cases hneg : (leadingWord x &&& 0x00800000 != 0) = true
  · have hsmall : (leadingWord x >>> 8).toNat < 2 ^ 23 := by
      rw [BitVec.toNat_ushiftRight]
      omega
    have hok : ¬ (leadingWord x >>> 8 &&& ~~~0x007fffff ≠ 0 ∨ byteSize x + 1 ≥ 256) := by
      rw [not_or, not_not]
      exact ⟨and_not_mask_eq_zero hsmall, by omega⟩
    rw [if_pos hneg, if_pos hneg, if_neg hok]
  · have hok : ¬ (leadingWord x &&& ~~~0x007fffff ≠ 0 ∨ byteSize x ≥ 256) := by
      rw [not_or, not_not]
      exact ⟨and_not_mask_eq_zero (not_not.1 (mt hsign.2 hneg)), by omega⟩
    rw [if_neg hneg, if_neg hneg, if_neg hok]

end KPCoin.Pow
