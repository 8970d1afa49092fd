import KPCoin.Pow.Shifts

/-!
# Compact forms round down

`GetCompact` keeps the two or three leading bytes of a number, `SetCompact` reads them back.

* `flags_setCompact_getCompact` : what `GetCompact` writes raises no flag when it is read;
* `le_rounded_of_exponent` : it is the largest number below with that exponent;
* `compact_exact` : these, with the bytes that are kept, monotonicity, and which compact forms are
  written as they were read.
-/

namespace KPCoin.Pow

open BitVec

variable {x : Arith} {n : Compact}

/-- The leading byte of a compact form. -/
def exponent (n : Compact) : ℕ := (n >>> 24).toNat

section Packed

variable {size word : ℕ} (hsize : size < 256) (hword : word < 2 ^ 23)
include hsize hword

theorem exponent_packed : exponent (packed size word) = size := by
  rw [exponent, toNat_ushiftRight, toNat_packed hsize hword]
  omega

theorem word_packed : packed size word &&& 0x007fffff = BitVec.ofNat 32 word := by
  refine eq_of_toNat_eq ?_
  rw [toNat_and, toNat_packed hsize hword]
  change (size * 2 ^ 24 + word) &&& (2 ^ 23 - 1) = word % 2 ^ 32
  rw [Nat.and_two_pow_sub_one_eq_mod]
  omega

theorem sign_packed : packed size word &&& 0x00800000 = 0 := by
  refine eq_of_toNat_eq ?_
  rw [toNat_and, toNat_packed hsize hword]
  change (size * 2 ^ 24 + word) &&& 2 ^ 23 = 0
  rw [Nat.and_two_pow, Nat.testBit_eq_decide_div_mod_eq,
    decide_eq_false (show ¬ (size * 2 ^ 24 + word) / 2 ^ 23 % 2 = 1 by omega)]
  rfl

/-- No flag is raised if the mantissa is short enough for the exponent. -/
theorem flags_setCompact_packed (hfit : size ≤ 32 ∨ size = 33 ∧ word < 2 ^ 16) :
    (setCompact (packed size word)).negative = false ∧
      (setCompact (packed size word)).overflow = false := by
  have hexp : (packed size word >>> 24).toNat = size := exponent_packed hsize hword
  constructor
  · simp only [setCompact, sign_packed hsize hword, bne_self_eq_false, Bool.and_false]
  · simp only [setCompact, hexp, word_packed hsize hword]
    have h1 : ¬ size > 34 := by omega
    have h2 : ¬ size > 33 := by omega
    rcases hfit with hsmall | ⟨rfl, hshort⟩
    · have h3 : ¬ size > 32 := by omega
      simp [h1, h2, h3]
    · have hlow : ¬ (BitVec.ofNat 32 word).toNat > 0xffff := by
        rw [toNat_ofNat]
        omega
      simp only [show ¬ 33 ≤ 3 by decide, if_false, hlow]
      simp

end Packed

theorem keptWord_lt_of_bits (hbits : bits x = 256) : keptWord x < 2 ^ 16 := by
  rw [keptWord, keptDigits, hbits, droppedBits]
  omega

theorem flags_setCompact_getCompact (x : Arith) :
    (setCompact (getCompact x)).negative = false ∧
      (setCompact (getCompact x)).overflow = false := by
  by_cases hx : x = 0
  · subst hx
    decide
  · have hbits := bits_le x
    rw [getCompact_eq_packed x hx]
    refine flags_setCompact_packed (by omega) (keptWord_lt x) ?_
    rcases lt_or_eq_of_le hbits with hlt | heq
    · exact .inl (by omega)
    · exact .inr ⟨by omega, keptWord_lt_of_bits heq⟩

/-- What is read with an exponent ends with the zero bytes that it stands for. -/
theorem dvd_value_setCompact (h : exponent n ≤ 35) :
    2 ^ (8 * (exponent n - 3)) ∣ (setCompact n).value.toNat := by
  have hexp : (n >>> 24).toNat = exponent n := rfl
  simp only [setCompact, hexp]
  split_ifs
  · rw [show exponent n - 3 = 0 by omega]
    exact one_dvd _
  · rw [toNat_shiftLeft, Nat.shiftLeft_eq]
    exact (Nat.dvd_mod_iff (pow_dvd_pow 2 (by omega))).2 (Dvd.intro_left _ rfl)

/-- Nothing between the rounded number and the number itself has that exponent. -/
theorem le_rounded_of_exponent (hexp : exponent n = exponent (getCompact x))
    (hle : (setCompact n).value ≤ x) : (setCompact n).value ≤ rounded x := by
  by_cases hx : x = 0
  · subst hx
    exact hle
  · have hbits := bits_le x
    rw [getCompact_eq_packed x hx, exponent_packed (by omega) (keptWord_lt x)] at hexp
    obtain ⟨q, hq⟩ := dvd_value_setCompact (n := n) (by omega)
    have hdrop : 8 * (exponent n - 3) = droppedBits (bits x) := by
      rw [droppedBits]
      omega
    rw [hdrop] at hq
    rw [le_def, hq] at hle
    rw [le_def, hq, toNat_rounded, Nat.roundDown, ← bits_eq_size, mul_comm]
    refine Nat.mul_le_mul_right _ ((Nat.le_div_iff_mul_le (by positivity)).2 ?_)
    rwa [mul_comm]

/-- The bytes of a number that its compact form drops: all but two or three. -/
def clearedBytes (x : Arith) : ℕ := bits x / 8 - 2

theorem toNat_rounded_eq (x : Arith) :
    (rounded x).toNat = x.toNat / 256 ^ clearedBytes x * 256 ^ clearedBytes x := by
  rw [toNat_rounded, Nat.roundDown, ← bits_eq_size, droppedBits, pow_mul]
  rfl

/-- **Compact forms round down, and are stable once they have been written.** -/
theorem compact_exact :
    (∀ x : Arith,
      (setCompact (getCompact x)).negative = false ∧ (setCompact (getCompact x)).overflow = false ∧
      (setCompact (getCompact x)).value ≤ x ∧
      (∀ n, exponent n = exponent (getCompact x) → (setCompact n).value ≤ x →
        (setCompact n).value ≤ (setCompact (getCompact x)).value) ∧
      ∃ cleared, (setCompact (getCompact x)).value.toNat =
          x.toNat / 256 ^ cleared * 256 ^ cleared ∧
        (cleared = 0 ∨ (byteSize x = cleared + 2 ∨ byteSize x = cleared + 3) ∧
          15 ≤ bits x - 8 * cleared)) ∧
      (∀ x y : Arith, x ≤ y →
        (setCompact (getCompact x)).value ≤ (setCompact (getCompact y)).value) ∧
      (∀ n, (setCompact n).negative = false → (setCompact n).overflow = false →
        (setCompact (getCompact (setCompact n).value)).value = (setCompact n).value ∧
          (getCompact (setCompact n).value = n ↔ ∃ x, getCompact x = n)) ∧
      (∀ n, setCompactLoops n = setCompact n) ∧ ∀ x, getCompactLoops x = some (getCompact x) := by
  refine ⟨fun x => ?_, fun x y => rounded_mono, fun n _ _ => ⟨rounded_of_compact n, ?_⟩,
    setCompactLoops_eq, getCompactLoops_eq⟩
  · obtain ⟨hneg, hover⟩ := flags_setCompact_getCompact x
    refine ⟨hneg, hover, rounded_le x, fun n => le_rounded_of_exponent, clearedBytes x,
      toNat_rounded_eq x, ?_⟩
    rw [clearedBytes, byteSize]
    omega
  · refine ⟨fun h => ⟨_, h⟩, ?_⟩
    rintro ⟨x, rfl⟩
    exact getCompact_eq_iff.2 (rounded_of_compact (getCompact x))

end KPCoin.Pow
