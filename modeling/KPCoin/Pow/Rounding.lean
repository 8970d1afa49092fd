import KPCoin.Data.RoundDown
import KPCoin.Pow.Compact

/-!
# What the compact encoding keeps of a target

A target that is written in compact form and read back has lost all but its leading 15 to 23
binary digits, cut at a byte (`value_setCompact_getCompact`).  So reading back is monotone, and
does not change what has been read from a compact form before (`rounded_of_compact`).
-/

namespace KPCoin.Pow

open BitVec

/-- The number of digits that the compact form of a target with `b` digits drops. -/
def droppedBits (b : ℕ) : ℕ := 8 * (b / 8 - 2)

theorem droppedBits_lt {b : ℕ} (hb : 0 < b) : droppedBits b < b := by
  unfold droppedBits
  omega

variable (x : Arith) (n : Compact)

theorem bits_eq_size : bits x = x.toNat.size := by
  unfold bits
  split_ifs with h
  · simp [h]
  · have hx : x.toNat ≠ 0 := fun h0 => h (eq_of_toNat_eq h0)
    refine le_antisymm (Nat.lt_size.2 (Nat.log2_self_le hx)) (Nat.size_le.2 ?_)
    exact Nat.lt_log2_self

theorem bits_eq_zero {x : Arith} : bits x = 0 ↔ x = 0 := by
  refine ⟨fun h => ?_, fun h => by rw [bits, if_pos h]⟩
  by_contra hx
  rw [bits, if_neg hx] at h
  omega

/-- A compact form, from its exponent and its mantissa. -/
def packed (size word : ℕ) : Compact := BitVec.ofNat 32 word ||| BitVec.ofNat 32 size <<< 24

section Packed

variable {size word : ℕ} (hsize : size < 256) (hword : word < 2 ^ 23)
include hsize hword

theorem toNat_packed : (packed size word).toNat = size * 2 ^ 24 + word := by
  have hshift : size * 2 ^ 24 < 2 ^ 32 := by omega
  rw [packed, toNat_or, toNat_shiftLeft, toNat_ofNat, toNat_ofNat,
    Nat.mod_eq_of_lt (show word < 2 ^ 32 by omega), Nat.mod_eq_of_lt (show size < 2 ^ 32 by omega),
    Nat.shiftLeft_eq, Nat.mod_eq_of_lt hshift, Nat.or_comm, ← Nat.shiftLeft_eq,
    ← Nat.shiftLeft_add_eq_or_of_lt (by omega)]

theorem value_setCompact_packed : (setCompact (packed size word)).value.toNat =
    if size ≤ 3 then word / 2 ^ (8 * (3 - size)) else word * 2 ^ (8 * (size - 3)) % 2 ^ 256 := by
  have hp := toNat_packed hsize hword
  have hs : (packed size word >>> 24).toNat = size := by
    rw [toNat_ushiftRight]
    omega
  have hw : (packed size word &&& 0x007fffff).toNat = word := by
    rw [toNat_and, hp]
    change (size * 2 ^ 24 + word) &&& (2 ^ 23 - 1) = word
    rw [Nat.and_two_pow_sub_one_eq_mod]
    omega
  simp only [setCompact, hs]
  split_ifs
  · rw [toNat_setWidth, toNat_ushiftRight, hw, Nat.shiftRight_eq_div_pow]
    exact Nat.mod_eq_of_lt ((Nat.div_le_self _ _).trans_lt (hword.trans (by decide)))
  · rw [toNat_shiftLeft, toNat_setWidth, hw, Nat.shiftLeft_eq,
      Nat.mod_eq_of_lt (hword.trans (by decide))]

end Packed

section Mantissa

/-- The bytes of the target. -/
def byteSize : ℕ := (bits x + 7) / 8

/-- The three leading bytes of the target. -/
def mantissa : ℕ :=
  if byteSize x ≤ 3 then x.toNat * 2 ^ (8 * (3 - byteSize x))
  else x.toNat / 2 ^ (8 * (byteSize x - 3))

theorem toNat_lt_byteSize : x.toNat < 2 ^ (8 * byteSize x) := by
  refine Nat.size_le.1 ?_
  rw [← bits_eq_size, byteSize]
  omega

theorem bits_le : bits x ≤ 256 := by
  rw [bits_eq_size]
  exact Nat.size_le.2 x.isLt

theorem mantissa_lt : mantissa x < 2 ^ 24 := by
  have hx := toNat_lt_byteSize x
  unfold mantissa
  split_ifs
  · calc x.toNat * 2 ^ (8 * (3 - byteSize x))
        < 2 ^ (8 * byteSize x) * 2 ^ (8 * (3 - byteSize x)) :=
          mul_lt_mul_of_pos_right hx (by positivity)
      _ = 2 ^ 24 := by rw [← pow_add]; congr 1; omega
  · refine Nat.div_lt_of_lt_mul (hx.trans_eq ?_)
    rw [← pow_add]
    congr 1
    omega

/-- The sign bit of the mantissa is in use if the leading byte is. -/
theorem sign_le_mantissa (hx : x ≠ 0) : 2 ^ 23 ≤ mantissa x ↔ bits x = 8 * byteSize x := by
  have hle : bits x ≤ 8 * byteSize x := by
    unfold byteSize
    omega
  have hpos : 0 < bits x := pos_of_ne_zero (mt bits_eq_zero.1 hx)
  have htop : bits x = 8 * byteSize x ↔ 2 ^ (8 * byteSize x - 1) ≤ x.toNat := by
    rw [← Nat.lt_size, ← bits_eq_size]
    omega
  rw [htop]
  unfold mantissa
  split_ifs
  · have hsplit : 2 ^ 23 = 2 ^ (8 * byteSize x - 1) * 2 ^ (8 * (3 - byteSize x)) := by
      rw [← pow_add]
      congr 1
      omega
    rw [hsplit]
    exact Nat.mul_le_mul_right_iff (by positivity)
  · have hsplit : 2 ^ (8 * byteSize x - 1) = 2 ^ 23 * 2 ^ (8 * (byteSize x - 3)) := by
      rw [← pow_add]
      congr 1
      omega
    rw [hsplit]
    exact Nat.le_div_iff_mul_le (by positivity)

/-- The mantissa as `GetCompact` has it before it looks at the sign bit. -/
def leadingWord : Compact :=
  if byteSize x ≤ 3 then (x.setWidth 64 <<< (8 * (3 - byteSize x))).setWidth 32
  else (x >>> (8 * (byteSize x - 3))).setWidth 32

theorem toNat_leadingWord : (leadingWord x).toNat = mantissa x := by
  have hlt := mantissa_lt x
  unfold leadingWord
  unfold mantissa at hlt ⊢
  split_ifs with h
  · rw [if_pos h] at hlt
    have hx : x.toNat < 2 ^ 24 := (Nat.le_mul_of_pos_right _ (by positivity)).trans_lt hlt
    rw [toNat_setWidth, toNat_shiftLeft, toNat_setWidth,
      Nat.shiftLeft_eq, Nat.mod_eq_of_lt (show x.toNat < 2 ^ 64 by omega),
      Nat.mod_eq_of_lt (hlt.trans (by decide)), Nat.mod_eq_of_lt (hlt.trans (by decide))]
  · rw [if_neg h] at hlt
    rw [toNat_setWidth, toNat_ushiftRight, Nat.shiftRight_eq_div_pow,
      Nat.mod_eq_of_lt (hlt.trans (by decide))]

theorem sign_eq_true_iff {m : Compact} (hm : m.toNat < 2 ^ 24) :
    (m &&& 0x00800000 != 0) = true ↔ ¬ m.toNat < 2 ^ 23 := by
  have hbit : (m &&& 0x00800000).toNat = (m.toNat.testBit 23).toNat * 2 ^ 23 := by
    exact Nat.and_two_pow m.toNat 23
  rw [Nat.testBit_eq_decide_div_mod_eq] at hbit
  rw [bne_iff_ne, ← toNat_inj.ne, hbit]
  by_cases h : m.toNat < 2 ^ 23
  · have hzero : ¬ m.toNat / 2 ^ 23 % 2 = 1 := by omega
    simp only [hzero, h]
    decide
  · have hone : m.toNat / 2 ^ 23 % 2 = 1 := by omega
    simp only [hone, h]
    decide

theorem getCompact_eq : getCompact x =
    if mantissa x < 2 ^ 23 then packed (byteSize x) (mantissa x)
    else packed (byteSize x + 1) (mantissa x / 2 ^ 8) := by
  have hlt := mantissa_lt x
  have hword := toNat_leadingWord x
  have hsign := sign_eq_true_iff (hword ▸ hlt)
  rw [hword] at hsign
  have heq : getCompact x = if leadingWord x &&& 0x00800000 != 0 then
      (leadingWord x >>> 8) ||| (BitVec.ofNat 32 (byteSize x + 1) <<< 24)
      else leadingWord x ||| (BitVec.ofNat 32 (byteSize x) <<< 24) := rfl
  generalize leadingWord x = m at hword hsign heq
  have hm1 : m = BitVec.ofNat 32 (mantissa x) := by
    rw [← hword, ofNat_toNat, setWidth_eq]
  have hm2 : m >>> 8 = BitVec.ofNat 32 (mantissa x / 2 ^ 8) := by
    refine eq_of_toNat_eq ?_
    rw [toNat_ushiftRight, toNat_ofNat]
    omega
  rw [heq]
  by_cases h : mantissa x < 2 ^ 23
  · rw [if_neg fun hs => hsign.1 hs h, if_pos h, packed, ← hm1]
  · rw [if_pos (hsign.2 h), if_neg h, packed, ← hm2]

/-- The digits of the target that the compact form keeps. -/
def keptDigits : ℕ := x.toNat / 2 ^ droppedBits (bits x)

/-- The mantissa that is written, without a sign bit. -/
def keptWord : ℕ := keptDigits x * 2 ^ (8 * (2 - bits x / 8))

theorem toNat_lt_bits : x.toNat < 2 ^ bits x := by
  rw [bits_eq_size]
  exact Nat.lt_size_self _

theorem keptWord_lt : keptWord x < 2 ^ 23 := by
  have hkept : keptDigits x < 2 ^ (bits x - droppedBits (bits x)) := by
    refine Nat.div_lt_of_lt_mul ((toNat_lt_bits x).trans_le ?_)
    rw [← pow_add]
    exact Nat.pow_le_pow_right (by decide) (by omega)
  calc keptWord x < 2 ^ (bits x - droppedBits (bits x)) * 2 ^ (8 * (2 - bits x / 8)) :=
        mul_lt_mul_of_pos_right hkept (by positivity)
    _ = 2 ^ (bits x - droppedBits (bits x) + 8 * (2 - bits x / 8)) := (pow_add ..).symm
    _ ≤ 2 ^ 23 := Nat.pow_le_pow_right (by decide) (by unfold droppedBits; omega)

theorem getCompact_eq_packed (hx : x ≠ 0) :
    getCompact x = packed (bits x / 8 + 1) (keptWord x) := by
  have hsign := sign_le_mantissa x hx
  have hbits : bits x ≤ 8 * byteSize x ∧ 8 * byteSize x < bits x + 8 := by
    unfold byteSize
    omega
  rw [getCompact_eq]
  split_ifs
  · -- the exponent is the number of bytes
    have hbyte : byteSize x = bits x / 8 + 1 := by
      omega
    have hword : mantissa x = keptWord x := by
      rw [mantissa, keptWord, keptDigits, droppedBits, hbyte]
      split_ifs
      · rw [show bits x / 8 - 2 = 0 by omega]
        simp
      · rw [show 2 - bits x / 8 = 0 by omega]
        simp
    rw [hbyte, hword]
  · -- the sign bit would be set, and one more byte is dropped
    have hbyte : byteSize x = bits x / 8 := by
      omega
    have hword : mantissa x / 2 ^ 8 = keptWord x := by
      rw [mantissa, keptWord, keptDigits, droppedBits, hbyte]
      by_cases bits x / 8 ≤ 2
      · have hsplit : 8 * (3 - bits x / 8) = 8 * (2 - bits x / 8) + 8 := by omega
        rw [if_pos (by omega), hsplit, pow_add, ← Nat.mul_assoc, show bits x / 8 - 2 = 0 by omega]
        simp
      · rw [show 2 - bits x / 8 = 0 by omega, pow_zero, Nat.mul_one]
        split_ifs
        · rw [show bits x / 8 = 3 by omega]
          simp
        · rw [Nat.div_div_eq_div_mul, ← pow_add]
          congr 2
          omega
    rw [hbyte, hword]

end Mantissa

/-- A target as it is after being written in compact form and read back. -/
def rounded (x : Arith) : Arith := (setCompact (getCompact x)).value

/-- **Reading back a compact form clears the last digits.** -/
theorem toNat_rounded : (rounded x).toNat = x.toNat.roundDown droppedBits := by
  by_cases hx : x = 0
  · subst hx
    rfl
  have hbits : bits x ≤ 256 := bits_le x
  have hrest : keptDigits x * 2 ^ droppedBits (bits x) < 2 ^ 256 :=
    (Nat.div_mul_le_self _ _).trans_lt x.isLt
  rw [rounded, getCompact_eq_packed x hx, value_setCompact_packed (by omega) (keptWord_lt x),
    Nat.roundDown, ← bits_eq_size]
  change _ = keptDigits x * 2 ^ droppedBits (bits x)
  unfold keptWord
  by_cases bits x / 8 ≤ 2
  · rw [if_pos (by omega), droppedBits, show bits x / 8 - 2 = 0 by omega]
    simp
  · rw [droppedBits] at hrest ⊢
    rw [if_neg (by omega), show 2 - bits x / 8 = 0 by omega,
      show bits x / 8 + 1 - 3 = bits x / 8 - 2 by omega, pow_zero, mul_one,
      Nat.mod_eq_of_lt hrest]

theorem rounded_le : rounded x ≤ x := by
  rw [le_def, toNat_rounded]
  exact Nat.roundDown_le _

theorem rounded_mono {x y : Arith} (h : x ≤ y) : rounded x ≤ rounded y := by
  rw [le_def, toNat_rounded, toNat_rounded]
  exact Nat.roundDown_mono (fun _ => droppedBits_lt) h

/-- Targets that are rounded to the same have the same compact form. -/
theorem getCompact_eq_iff {x y : Arith} : getCompact x = getCompact y ↔ rounded x = rounded y := by
  refine ⟨fun h => congrArg (fun n => (setCompact n).value) h, fun h => ?_⟩
  have hround : x.toNat.roundDown droppedBits = y.toNat.roundDown droppedBits := by
    rw [← toNat_rounded, ← toNat_rounded, h]
  have hbits : bits x = bits y := by
    rw [bits_eq_size, bits_eq_size, ← Nat.size_roundDown fun _ => droppedBits_lt, hround,
      Nat.size_roundDown fun _ => droppedBits_lt]
  have hzero : x = 0 ↔ y = 0 := by
    rw [← bits_eq_zero, ← bits_eq_zero, hbits]
  by_cases hx : x = 0
  · rw [hx, hzero.1 hx]
  · have hkept : keptDigits x = keptDigits y := by
      rw [Nat.roundDown, Nat.roundDown, ← bits_eq_size, ← bits_eq_size] at hround
      change keptDigits x * _ = keptDigits y * _ at hround
      rw [hbits] at hround
      exact Nat.eq_of_mul_eq_mul_right (by positivity) hround
    rw [getCompact_eq_packed x hx, getCompact_eq_packed y (mt hzero.2 hx), keptWord,
      keptWord, hkept, hbits]

theorem value_setCompact :
    ∃ word k, word < 2 ^ 23 ∧ (setCompact n).value.toNat = word * 2 ^ (8 * k) := by
  have hmask : (n &&& 0x007fffff).toNat < 2 ^ 23 := by
    change n.toNat &&& (2 ^ 23 - 1) < 2 ^ 23
    rw [Nat.and_two_pow_sub_one_eq_mod]
    exact Nat.mod_lt _ (by decide)
  have hwidth : ∀ w : Compact, (w.setWidth 256).toNat = w.toNat := fun w => by
    rw [toNat_setWidth]
    exact Nat.mod_eq_of_lt (w.isLt.trans (by decide))
  simp only [setCompact]
  split_ifs
  · refine ⟨_, 0, ?_, (hwidth _).trans (mul_one _).symm⟩
    rw [toNat_ushiftRight, Nat.shiftRight_eq_div_pow]
    exact (Nat.div_le_self _ _).trans_lt hmask
  · generalize (n >>> 24).toNat - 3 = k
    rw [toNat_shiftLeft, Nat.shiftLeft_eq]
    by_cases hk : 8 * k ≤ 256
    · refine ⟨(n &&& 0x007fffff).toNat % 2 ^ (256 - 8 * k), k, (Nat.mod_le _ _).trans_lt hmask, ?_⟩
      rw [mul_comm, mul_comm _ (2 ^ (8 * k)), ← Nat.mul_mod_mul_left, ← pow_add]
      congr 2
      omega
    · refine ⟨0, 0, by decide, ?_⟩
      obtain ⟨j, hj⟩ := Nat.exists_eq_add_of_le (Nat.le_of_not_le hk)
      rw [hj, pow_add, ← mul_assoc, mul_comm _ (2 ^ 256), mul_assoc]
      simp

/-- What has been read from a compact form is not changed by rounding. -/
theorem rounded_of_compact : rounded (setCompact n).value = (setCompact n).value := by
  obtain ⟨word, k, hword, hval⟩ := value_setCompact n
  refine eq_of_toNat_eq ((toNat_rounded _).trans (Nat.roundDown_eq_self ?_))
  have hsize : (setCompact n).value.toNat.size ≤ 23 + 8 * k := by
    rw [Nat.size_le, hval, pow_add]
    exact mul_lt_mul_of_pos_right hword (by positivity)
  have hdrop : droppedBits (setCompact n).value.toNat.size ≤ 8 * k := by
    unfold droppedBits
    omega
  rw [hval] at hdrop ⊢
  exact (pow_dvd_pow 2 hdrop).mul_left _

end KPCoin.Pow
