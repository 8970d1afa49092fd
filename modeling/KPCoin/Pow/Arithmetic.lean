import KPCoin.Pow.Shifts
import KPCoin.Primitives.Serialize

/-!
# The loops behind the arithmetic of `arith_uint256`

The remaining operators of `base_uint` (`arith_uint256.h`, `arith_uint256.cpp`): `+=` and `*=` carry
in a word of 64 bits, `-=` adds the negation, `/=` shifts the divisor, compares and subtracts.  No
loop reads a limb of an operand after it has written that limb, so operands are passed by value.

**`arithmetic_modulo`** : on the numbers that the limbs stand for, every operator is the one of the
natural numbers modulo `2 ^ 256`.
-/

namespace KPCoin.Pow.BaseUint

open List Serialize

/-- `n` in `+=`. -/
def addNext (carry : BitVec 64) (d e : BitVec 32) : BitVec 64 :=
  carry + d.setWidth 64 + e.setWidth 64

/-- The two loops of `*=`, from the limb `pn[j]` on.  The last argument is `a` from the limb `j` on;
the inner loop is the last to write its first limb. -/
def mulLoops (b : List (BitVec 32)) : List (BitVec 32) → List (BitVec 32) → List (BitVec 32)
  | [], a => a
  | p :: pn, a =>
    match carryLoop (mulNext p) 0 a b with
    | [] => []
    | d :: a => d :: mulLoops b pn a

/-- The loop of `++`. -/
def incLoop : List (BitVec 32) → List (BitVec 32)
  | [] => []
  | d :: ds => if d + 1 = 0 then (d + 1) :: incLoop ds else (d + 1) :: ds

/-- The loop of `--`. -/
def decLoop : List (BitVec 32) → List (BitVec 32)
  | [] => []
  | d :: ds => if d - 1 = 0xffffffff then (d - 1) :: decLoop ds else (d - 1) :: ds

/-- The loop of `CompareTo`, with `i + 1` as counter. -/
def compareLoop (a b : ℕ → BitVec 32) : ℕ → ℤ
  | 0 => 0
  | i + 1 => if a i < b i then -1 else if a i > b i then 1 else compareLoop a b i

variable {ds es ps : List (BitVec 32)}

theorem limbValue_lt (ds : List (BitVec 32)) : limbValue ds < 2 ^ (32 * ds.length) := by
  induction ds with
  | nil => exact Nat.one_pos
  | cons d ds ih =>
    have hd := d.isLt
    rw [limbValue, length_cons, Nat.mul_succ, pow_add]
    omega

theorem length_carryLoop (next : BitVec 64 → BitVec 32 → BitVec 32 → BitVec 64) (c : BitVec 64)
    (h : ds.length ≤ es.length) : (carryLoop next c ds es).length = ds.length := by
  induction ds generalizing c es with
  | nil => rfl
  | cons d ds ih =>
    obtain _ | ⟨e, es⟩ := es
    · simp at h
    · rw [carryLoop, length_cons, ih _ (Nat.le_of_succ_le_succ h), length_cons]

theorem toNat_addNext (c : BitVec 64) (d e : BitVec 32) (hc : c.toNat < 2 ^ 32) :
    (addNext c d e).toNat = c.toNat + d.toNat + 1 * e.toNat := by
  have hd := d.isLt
  have he := e.isLt
  simp only [addNext, BitVec.toNat_add, BitVec.toNat_setWidth]
  omega

theorem limbValue_mulLoops (es ps ds : List (BitVec 32)) (hps : ps.length = ds.length)
    (h : ds.length ≤ es.length) : limbValue (mulLoops es ps ds) =
      (limbValue ds + limbValue ps * limbValue es) % 2 ^ (32 * ds.length) := by
  induction ps generalizing ds with
  | nil =>
    rw [mulLoops, limbValue, zero_mul, add_zero, Nat.mod_eq_of_lt (limbValue_lt ds)]
  | cons p ps ih =>
    rw [mulLoops]
    have hlen := length_carryLoop (mulNext p) 0 h
    have hval := limbValue_carryLoop (toNat_mulNext p) (c := 0) (by decide) h
    generalize carryLoop (mulNext p) 0 ds es = l at hlen hval
    obtain _ | ⟨d, l⟩ := l
    · rw [← hlen] at hps
      cases hps
    rw [length_cons] at hps hlen
    rw [← hlen] at hval ⊢
    rw [limbValue] at hval
    rw [limbValue_cons_mod (ih _ (by omega) (by omega)), mul_add, ← add_assoc, hval,
      Nat.mod_add_mod, limbValue, show (0 : BitVec 64).toNat = 0 from rfl]
    congr 1
    ring

theorem limbValue_incLoop (ds : List (BitVec 32)) :
    limbValue (incLoop ds) = (limbValue ds + 1) % 2 ^ (32 * ds.length) := by
  induction ds with
  | nil => simp [incLoop, limbValue]
  | cons d ds ih =>
    have hd : (d + 1).toNat = (d.toNat + 1) % 2 ^ 32 := BitVec.toNat_add d 1
    have hzero : d + 1 = 0 ↔ (d + 1).toNat = 0 := BitVec.toNat_eq
    rw [incLoop, limbValue, length_cons]
    split_ifs with hover <;> rw [hzero] at hover
    · have hsum : (d + 1).toNat + 2 ^ 32 * (limbValue ds + 1) = d.toNat +
          2 ^ 32 * limbValue ds + 1 := by
        omega
      rw [limbValue_cons_mod ih, hsum]
    · have hsum : (d + 1).toNat + 2 ^ 32 * limbValue ds = d.toNat + 2 ^ 32 * limbValue ds + 1 := by
        omega
      rw [limbValue_cons_mod (Nat.mod_eq_of_lt (limbValue_lt ds)).symm, hsum]

theorem length_decLoop (ds : List (BitVec 32)) : (decLoop ds).length = ds.length := by
  induction ds with
  | nil => rfl
  | cons d ds ih =>
    rw [decLoop]
    split_ifs
    · rw [length_cons, ih, length_cons]
    · rfl

theorem incLoop_decLoop (ds : List (BitVec 32)) : incLoop (decLoop ds) = ds := by
  induction ds with
  | nil => rfl
  | cons d ds ih =>
    have hd : d - 1 = 0xffffffff ↔ d = 0 := sub_eq_iff_eq_add
    rw [decLoop]
    split_ifs with hover
    · rw [incLoop, sub_add_cancel, if_pos (hd.1 hover), ih]
    · rw [incLoop, sub_add_cancel, if_neg (mt hd.2 hover)]

theorem limbValue_complement (ds : List (BitVec 32)) :
    limbValue (ds.map (~~~ ·)) = 2 ^ (32 * ds.length) - 1 - limbValue ds := by
  induction ds with
  | nil => rfl
  | cons d ds ih =>
    have hlt := limbValue_lt ds
    have hd := d.isLt
    have hnot : (~~~ d).toNat = 2 ^ 32 - 1 - d.toNat := BitVec.toNat_not
    rw [map_cons, limbValue, limbValue, ih, hnot, length_cons, Nat.mul_succ, pow_add]
    omega

theorem limbValue_concat (ds : List (BitVec 32)) (d : BitVec 32) :
    limbValue (ds ++ [d]) = limbValue ds + 2 ^ (32 * ds.length) * d.toNat := by
  induction ds with
  | nil => simp [limbValue]
  | cons e ds ih =>
    rw [cons_append, limbValue, ih, limbValue, length_cons, Nat.mul_succ, pow_add]
    ring

theorem compareLoop_eq (a b : ℕ → BitVec 32) (i : ℕ) : compareLoop a b i =
    if limbValue ((range i).map a) < limbValue ((range i).map b) then -1
    else if limbValue ((range i).map a) > limbValue ((range i).map b) then 1 else 0 := by
  induction i with
  | zero => rfl
  | succ i ih =>
    have ha := limbValue_lt ((range i).map a)
    have hb := limbValue_lt ((range i).map b)
    simp only [compareLoop, range_succ, map_append, map_cons, map_nil, limbValue_concat]
    simp only [length_map, length_range, gt_iff_lt, BitVec.lt_def] at ha hb ⊢
    -- a higher limb outweighs all the limbs below
    have hless : ∀ {d e : BitVec 32}, d.toNat < e.toNat →
        2 ^ (32 * i) * d.toNat + 2 ^ (32 * i) ≤ 2 ^ (32 * i) * e.toNat := fun h =>
      Nat.mul_le_mul_left _ (Nat.succ_le_of_lt h)
    rcases lt_trichotomy (a i).toNat (b i).toNat with hlt | heq | hgt
    · have hdiff := hless hlt
      rw [if_pos hlt, if_pos (by omega)]
    · simp only [heq, lt_irrefl, if_false, Nat.add_lt_add_iff_right, ih, gt_iff_lt]
    · have hdiff := hless hgt
      rw [if_neg hgt.asymm, if_pos hgt, if_neg (by omega), if_pos (by omega)]

variable (x y : Arith) (s : ℕ)

/-- The number whose limbs a loop leaves. -/
def ofLimbs (pn : List (BitVec 32)) : Arith := BitVec.ofNat 256 (limbValue pn)

/-- `= b`, and the constructor. -/
def ofUint64 (b : BitVec 64) : Arith :=
  ofLimbs (b.setWidth 32 :: (b >>> 32).setWidth 32 :: replicate 6 0)

/-- `+=`. -/
def add : Arith := ofLimbs (carryLoop addNext 0 (limbs 8 x) (limbs 8 y))

/-- `*=`. -/
def mul : Arith := ofLimbs (mulLoops (limbs 8 y) (limbs 8 x) (replicate 8 0))

/-- `++`.  The postfix form returns a copy of the operand. -/
def inc : Arith := ofLimbs (incLoop (limbs 8 x))

/-- `--`.  The postfix form returns a copy of the operand. -/
def dec : Arith := ofLimbs (decLoop (limbs 8 x))

/-- Unary `-`. -/
def neg : Arith := inc (ofLimbs ((limbs 8 x).map (~~~ ·)))

/-- `-=`. -/
def sub : Arith := add x (neg y)

/-- `CompareTo`. -/
def compareTo : ℤ := compareLoop (limb x) (limb y) 8

/-- `pn[shift / 32] |= (1U << (shift & 31))`. -/
def setBit : Arith := fromLimbs (orAt (limb x) (s / 32) (1#32 <<< (s % 32)))

/-- The loop of `/=`, with `shift + 1` as counter.  The quotient is collected in the last argument.
-/
def divLimbsLoop : ℕ → Arith → Arith → Arith → Arith
  | 0, _, _, q => q
  | shift + 1, num, div, q =>
    if compareTo num div ≥ 0 then
      divLimbsLoop shift (sub num div) (shiftRight div 1) (setBit q shift)
    else divLimbsLoop shift num (shiftRight div 1) q

/-- `/=`, or the message of the exception. -/
def divLimbs : Except String Arith :=
  let numBits := bitsLoop (limb x) 8
  let divBits := bitsLoop (limb y) 8
  if divBits = 0 then .error "Division by zero"
  else if divBits > numBits then .ok (ofUint64 0)
  else
    let shift := numBits - divBits
    .ok (divLimbsLoop (shift + 1) x (shiftLeft y shift) (ofUint64 0))

theorem toNat_ofLimbs {pn : List (BitVec 32)} {n : ℕ} (h : limbValue pn = n % 2 ^ 256) :
    (ofLimbs pn).toNat = n % 2 ^ 256 := by
  rw [ofLimbs, BitVec.toNat_ofNat, h, Nat.mod_mod]

theorem toNat_add : (add x y).toNat = (x.toNat + y.toNat) % 2 ^ 256 := by
  have h := limbValue_carryLoop toNat_addNext (c := 0) (by decide)
    ((length_limbs 8 x).trans (length_limbs 8 y).symm).le
  rw [one_mul, length_limbs, limbValue_limbs_eq, limbValue_limbs_eq,
    show (0 : BitVec 64).toNat = 0 from rfl, zero_add] at h
  exact toNat_ofLimbs h

theorem toNat_mul : (mul x y).toNat = x.toNat * y.toNat % 2 ^ 256 := by
  have h := limbValue_mulLoops (limbs 8 y) (limbs 8 x) (replicate 8 0)
    (by rw [length_limbs, length_replicate]) (by rw [length_limbs, length_replicate])
  rw [limbValue_limbs_eq, limbValue_limbs_eq, length_replicate,
    show limbValue (replicate 8 0) = 0 from rfl, zero_add] at h
  exact toNat_ofLimbs h

theorem toNat_inc : (inc x).toNat = (x.toNat + 1) % 2 ^ 256 := by
  have h := limbValue_incLoop (limbs 8 x)
  rw [length_limbs, limbValue_limbs_eq] at h
  exact toNat_ofLimbs h

theorem toNat_dec : ((dec x).toNat : ℤ) = (x.toNat - 1) % 2 ^ 256 := by
  have h := limbValue_incLoop (decLoop (limbs 8 x))
  rw [incLoop_decLoop, length_decLoop, length_limbs, limbValue_limbs_eq] at h
  rw [dec, ofLimbs, BitVec.toNat_ofNat]
  omega

theorem neg_eq : neg x = -x := by
  have h := limbValue_complement (limbs 8 x)
  have hlt := x.isLt
  rw [length_limbs, limbValue_limbs_eq] at h
  refine BitVec.eq_of_toNat_eq ?_
  rw [neg, toNat_inc, ofLimbs, h, BitVec.toNat_ofNat, BitVec.toNat_neg]
  omega

theorem sub_eq : sub x y = x - y := by
  refine BitVec.eq_of_toNat_eq ?_
  rw [sub, toNat_add, neg_eq, BitVec.toNat_neg, BitVec.toNat_sub, Nat.add_mod_mod, add_comm]

theorem toNat_ofUint64 (b : BitVec 64) : (ofUint64 b).toNat = b.toNat := by
  have hb := b.isLt
  simp only [ofUint64, ofLimbs, limbValue, BitVec.toNat_ofNat, BitVec.toNat_setWidth,
    BitVec.toNat_ushiftRight, Nat.shiftRight_eq_div_pow,
    show limbValue (replicate 6 0) = 0 from rfl]
  omega

theorem map_limb (n : ℕ) : (range n).map (limb x) = limbs n x := by
  induction n generalizing x with
  | zero => rfl
  | succ n ih =>
    have hnext : limb (x >>> 32) = limb x ∘ Nat.succ := by
      funext i
      rw [Function.comp_apply, limb, limb, ← BitVec.shiftRight_add, Nat.mul_succ, add_comm]
    rw [range_succ_eq_map, map_cons, map_map, ← hnext, ih, limbs, limb]
    rfl

theorem compareTo_eq : compareTo x y =
    if x.toNat < y.toNat then -1 else if x.toNat > y.toNat then 1 else 0 := by
  rw [compareTo, compareLoop_eq, map_limb, map_limb, limbValue_limbs_eq, limbValue_limbs_eq]

variable {s}

theorem setBit_eq (hs : s < 256) : setBit x s = x ||| (1 : Arith) <<< s := by
  refine eq_fromLimbs fun j hj t ht => Bool.eq_iff_iff.2 ?_
  have h : (orAt (limb x) (s / 32) (1#32 <<< (s % 32)) j).getLsbD t = true ↔ _ :=
    getLsbD_orAt_of True (1#32 <<< (s % 32))
  have hbit : (1#32 <<< (s % 32)).getLsbD t = true ↔ t = s % 32 := by
    rw [← BitVec.twoPow_eq, BitVec.getLsbD_twoPow]
    simp
    omega
  have hword : ((1 : Arith) <<< s).getLsbD (32 * j + t) = true ↔ 32 * j + t = s := by
    rw [show (1 : Arith) <<< s = BitVec.twoPow 256 s from (BitVec.twoPow_eq ..).symm,
      BitVec.getLsbD_twoPow]
    simp [hs]
    omega
  rw [hbit, getLsbD_limb ht] at h
  rw [h, BitVec.getLsbD_or, Bool.or_eq_true, hword]
  exact or_congr_right ⟨fun h => by omega, fun h => ⟨trivial, by omega, by omega⟩⟩

theorem divLimbsLoop_eq (hs : s ≤ 256) (num div q : Arith) :
    divLimbsLoop s num div q = divLoop s num div q := by
  induction s generalizing num div q with
  | zero => rfl
  | succ s ih =>
    have hcompare : compareTo num div ≥ 0 ↔ num ≥ div := by
      rw [compareTo_eq, ge_iff_le, ge_iff_le, BitVec.le_def]
      split_ifs <;> omega
    simp only [divLimbsLoop, divLoop, hcompare, ih (Nat.le_of_succ_le hs), sub_eq, shiftRight_eq,
      setBit_eq q hs]

theorem divLimbs_eq : divLimbs x y = if y = 0 then .error "Division by zero" else .ok (x / y) := by
  have hle := bits_le x
  have hzero : ofUint64 0 = 0 := by decide
  have hdiv := divide_eq x y
  simp only [divLimbs, bitsLoop_eq, hzero, shiftLeft_eq, ← bits_eq_zero]
  simp only [divide, ← bits_eq_zero] at hdiv
  split_ifs at hdiv ⊢ with h0 hgt
  · rfl
  · rw [Option.some.inj hdiv]
  · rw [divLimbsLoop_eq (by omega), Option.some.inj hdiv]

/-- `uint256`: 32 bytes. -/
abbrev Blob := { data : List UInt8 // data.length = 32 }

/-- The loop of `UintToArith256`. -/
def readLimbs : ℕ → List UInt8 → List (BitVec 32)
  | 0, _ => []
  | n + 1, bytes => BitVec.ofNat 32 (ofLeBytes (bytes.take 4)) :: readLimbs n (bytes.drop 4)

/-- `UintToArith256`. -/
def uintToArith256 (a : Blob) : Arith := ofLimbs (readLimbs 8 a)

/-- `ArithToUint256`. -/
def arithToUint256 : Blob := ⟨(limbs 8 x).flatMap fun d => leBytes 4 d.toNat, by
  simp [length_flatMap, length_leBytes, length_limbs]⟩

theorem readLimbs_flatMap (ds : List (BitVec 32)) :
    readLimbs ds.length (ds.flatMap fun d => leBytes 4 d.toNat) = ds := by
  induction ds with
  | nil => rfl
  | cons d ds ih =>
    have hlen := length_leBytes 4 d.toNat
    rw [flatMap_cons, length_cons, readLimbs, take_left' hlen, drop_left' hlen, ih,
      ofLeBytes_leBytes (d.isLt.trans_eq (by norm_num)), BitVec.ofNat_toNat, BitVec.setWidth_eq]

theorem flatMap_readLimbs {n : ℕ} {bytes : List UInt8} (h : bytes.length = 4 * n) :
    ((readLimbs n bytes).flatMap fun d => leBytes 4 d.toNat) = bytes := by
  induction n generalizing bytes with
  | zero => exact (length_eq_zero_iff.1 h).symm
  | succ n ih =>
    have hlen : (bytes.take 4).length = 4 := by
      rw [length_take]
      omega
    have hlt := ofLeBytes_lt (bytes.take 4)
    have hread := leBytes_ofLeBytes (bytes.take 4)
    rw [hlen] at hlt hread
    rw [readLimbs, flatMap_cons, ih (by rw [length_drop]; omega), BitVec.toNat_ofNat,
      Nat.mod_eq_of_lt (hlt.trans_eq (by norm_num)), hread, take_append_drop]

theorem limbValue_inj : ∀ {ds es : List (BitVec 32)}, ds.length = es.length →
    limbValue ds = limbValue es → ds = es
  | [], [], _, _ => rfl
  | d :: ds, e :: es, hlen, h => by
    have hd := d.isLt
    have he := e.isLt
    rw [limbValue, limbValue] at h
    rw [BitVec.eq_of_toNat_eq (x := d) (y := e) (by omega),
      limbValue_inj (Nat.succ.inj hlen) (by omega)]

theorem length_readLimbs (n : ℕ) (bytes : List UInt8) : (readLimbs n bytes).length = n := by
  induction n generalizing bytes with
  | zero => rfl
  | succ n ih => rw [readLimbs, length_cons, ih]

/-- **`arith_uint256` is arithmetic modulo `2 ^ 256`.** -/
theorem arithmetic_modulo (x y : Arith) (b32 : BitVec 32) (b64 : BitVec 64) (shift : ℕ) :
    ((add x y).toNat = (x.toNat + y.toNat) % 2 ^ 256 ∧
      (add x (ofUint64 b64)).toNat = (x.toNat + b64.toNat) % 2 ^ 256) ∧
    (((sub x y).toNat : ℤ) = (x.toNat - y.toNat) % 2 ^ 256 ∧
      ((sub x (ofUint64 b64)).toNat : ℤ) = (x.toNat - b64.toNat) % 2 ^ 256) ∧
    ((neg x).toNat : ℤ) = -x.toNat % 2 ^ 256 ∧
    ((mul x y).toNat = x.toNat * y.toNat % 2 ^ 256 ∧
      (mulWord x b32).toNat = x.toNat * b32.toNat % 2 ^ 256) ∧
    ((shiftLeft x shift).toNat = x.toNat * 2 ^ shift % 2 ^ 256 ∧
      (shiftRight x shift).toNat = x.toNat / 2 ^ shift) ∧
    ((inc x).toNat = (x.toNat + 1) % 2 ^ 256 ∧ ((dec x).toNat : ℤ) = (x.toNat - 1) % 2 ^ 256) ∧
    (divLimbs x y).map BitVec.toNat =
      (if y.toNat = 0 then .error "Division by zero" else .ok (x.toNat / y.toNat)) ∧
    compareTo x y = (if x.toNat < y.toNat then -1 else if x.toNat > y.toNat then 1 else 0) ∧
    (∀ i, bitsLoop (limb x) 8 ≤ i ↔ x.toNat < 2 ^ i) ∧
    uintToArith256 (arithToUint256 x) = x ∧ ∀ a, arithToUint256 (uintToArith256 a) = a := by
  have hsub : ∀ z : Arith, ((sub x z).toNat : ℤ) = (x.toNat - z.toNat) % 2 ^ 256 := by
    intro z
    have hz := z.isLt
    rw [sub_eq, BitVec.toNat_sub]
    omega
  refine ⟨⟨toNat_add x y, ?_⟩, ⟨hsub y, ?_⟩, ?_, ⟨toNat_mul x y, ?_⟩, ⟨?_, ?_⟩,
    ⟨toNat_inc x, toNat_dec x⟩, ?_, compareTo_eq x y, fun i => ?_, ?_, fun a => ?_⟩
  · rw [toNat_add, toNat_ofUint64]
  · rw [hsub, toNat_ofUint64]
  · have hx := x.isLt
    rw [neg_eq, BitVec.toNat_neg]
    omega
  · rw [mulWord_eq, BitVec.toNat_mul, BitVec.toNat_setWidth_of_le (by decide)]
  · rw [shiftLeft_eq, BitVec.toNat_shiftLeft, Nat.shiftLeft_eq]
  · rw [shiftRight_eq, BitVec.toNat_ushiftRight, Nat.shiftRight_eq_div_pow]
  · have hy : y = 0 ↔ y.toNat = 0 := BitVec.toNat_eq
    simp only [divLimbs_eq, hy]
    split_ifs
    · rfl
    · exact congrArg Except.ok BitVec.toNat_udiv
  · rw [bitsLoop_eq, bits_eq_size, Nat.size_le]
  · have h := readLimbs_flatMap (limbs 8 x)
    rw [length_limbs] at h
    refine BitVec.eq_of_toNat_eq ?_
    rw [uintToArith256, arithToUint256, h, ofLimbs, limbValue_limbs_eq, BitVec.toNat_ofNat,
      Nat.mod_eq_of_lt x.isLt]
  · have hlen := length_readLimbs 8 a.1
    have hlt := limbValue_lt (readLimbs 8 a)
    rw [hlen] at hlt
    have h : limbs 8 (uintToArith256 a) = readLimbs 8 a := by
      refine limbValue_inj ((length_limbs ..).trans hlen.symm) ?_
      rw [limbValue_limbs_eq, uintToArith256, ofLimbs, BitVec.toNat_ofNat, Nat.mod_eq_of_lt hlt]
    exact Subtype.ext ((congrArg _ h).trans (flatMap_readLimbs a.2))

end KPCoin.Pow.BaseUint
