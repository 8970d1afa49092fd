import KPCoin.Pow.Rounding
import KPCoin.Pow.Work

/-!
# The loops behind the arithmetic of targets

`base_uint` keeps a number in limbs of 32 bits (`arith_uint256.cpp`).  `*=` with a 32-bit factor
goes through the limbs with a carry, and `/=` shifts the divisor and subtracts.  The model of the
retarget uses the operators of `BitVec 256` instead:

* `mulWord_eq` : the multiplication loop is `*`, so it loses what does not fit;
* `divide_eq` : the division loop is `/`, and throws for a zero divisor;
* `scaleTarget_eq_loops` : the scaling of a target, in terms of the two loops.
-/

namespace KPCoin.Pow

open BitVec

/-- The lowest `n` limbs of a number, the lowest one first. -/
def limbs : ℕ → Arith → List (BitVec 32)
  | 0, _ => []
  | n + 1, x => x.setWidth 32 :: limbs n (x >>> 32)

/-- The number that limbs stand for. -/
def limbValue : List (BitVec 32) → ℕ
  | [] => 0
  | d :: ds => d.toNat + 2 ^ 32 * limbValue ds

theorem length_limbs (n : ℕ) (x : Arith) : (limbs n x).length = n := by
  induction n generalizing x with
  | zero => rfl
  | succ n ih => rw [limbs, List.length_cons, ih]

theorem mod_two_pow_limb (a n : ℕ) :
    a % 2 ^ (32 * (n + 1)) = a % 2 ^ 32 + 2 ^ 32 * (a / 2 ^ 32 % 2 ^ (32 * n)) := by
  rw [Nat.mul_succ, add_comm, pow_add, Nat.mod_mul]

theorem limbValue_limbs (n : ℕ) (x : Arith) : limbValue (limbs n x) = x.toNat % 2 ^ (32 * n) := by
  induction n generalizing x with
  | zero => simp [limbs, limbValue, Nat.mod_one]
  | succ n ih =>
    rw [limbs, limbValue, ih, mod_two_pow_limb, toNat_setWidth, toNat_ushiftRight,
      Nat.shiftRight_eq_div_pow]

/-- The loops with a carry: `n` is what `next` says, its low half is stored, its high half carried.
-/
def carryLoop (next : BitVec 64 → BitVec 32 → BitVec 32 → BitVec 64) :
    BitVec 64 → List (BitVec 32) → List (BitVec 32) → List (BitVec 32)
  | carry, d :: ds, e :: es =>
    let n := next carry d e
    n.setWidth 32 :: carryLoop next (n >>> 32) ds es
  | _, _, _ => []

/-- `n` in `*=`. -/
def mulNext (p : BitVec 32) (carry : BitVec 64) (d e : BitVec 32) : BitVec 64 :=
  carry + d.setWidth 64 + p.setWidth 64 * e.setWidth 64

/-- The loop of `*=`: `n` is 64 bits wide. -/
def mulLoop (b32 : BitVec 32) : BitVec 64 → List (BitVec 32) → List (BitVec 32)
  | _, [] => []
  | carry, d :: ds =>
    let n := carry + b32.setWidth 64 * d.setWidth 64
    n.setWidth 32 :: mulLoop b32 (n >>> 32) ds

/-- `*=` with a factor of 32 bits. -/
def mulWord (x : Arith) (b32 : BitVec 32) : Arith :=
  BitVec.ofNat 256 (limbValue (mulLoop b32 0 (limbs 8 x)))

variable {ds es : List (BitVec 32)} {c : BitVec 64}

/-- A limb in front of limbs that stand for a reduced number. -/
theorem limbValue_cons_mod {m n : ℕ} (h : limbValue ds = m % 2 ^ (32 * n)) (d : BitVec 32) :
    limbValue (d :: ds) = (d.toNat + 2 ^ 32 * m) % 2 ^ (32 * (n + 1)) := by
  rw [limbValue, h, mod_two_pow_limb, Nat.add_mul_mod_self_left, Nat.mod_eq_of_lt d.isLt,
    Nat.add_mul_div_left _ _ (by decide), Nat.div_eq_of_lt d.isLt, zero_add]

/-- If `n` is the sum that it should be, the limbs are those of the sum. -/
theorem limbValue_carryLoop {next : BitVec 64 → BitVec 32 → BitVec 32 → BitVec 64} {p : ℕ}
    (hnext : ∀ c d e, c.toNat < 2 ^ 32 → (next c d e).toNat = c.toNat + d.toNat + p * e.toNat)
    (hc : c.toNat < 2 ^ 32) (h : ds.length ≤ es.length) : limbValue (carryLoop next c ds es) =
      (c.toNat + limbValue ds + p * limbValue es) % 2 ^ (32 * ds.length) := by
  induction ds generalizing c es with
  | nil => simp [carryLoop, limbValue, Nat.mod_one]
  | cons d ds ih =>
    obtain _ | ⟨e, es⟩ := es
    · simp at h
    have hn := hnext c d e hc
    simp only [carryLoop, List.length_cons]
    generalize next c d e = n at hn ⊢
    have hhigh : (n >>> 32).toNat = n.toNat / 2 ^ 32 := by
      rw [toNat_ushiftRight, Nat.shiftRight_eq_div_pow]
    have hlow : (n.setWidth 32).toNat = n.toNat % 2 ^ 32 := toNat_setWidth 32 n
    have htail := ih (c := n >>> 32) (by have := n.isLt; omega) (Nat.le_of_succ_le_succ h)
    have hsum : c.toNat + (d.toNat + 2 ^ 32 * limbValue ds) +
        p * (e.toNat + 2 ^ 32 * limbValue es) =
        n.toNat + 2 ^ 32 * (limbValue ds + p * limbValue es) := by
      rw [hn]
      ring
    rw [limbValue_cons_mod htail, hhigh, hlow, limbValue, limbValue, hsum]
    congr 1
    omega

/-- A carry, a limb and the product of two limbs fit into 64 bits. -/
theorem toNat_mulNext (p : BitVec 32) (c : BitVec 64) (d e : BitVec 32) (hc : c.toNat < 2 ^ 32) :
    (mulNext p c d e).toNat = c.toNat + d.toNat + p.toNat * e.toNat := by
  have hprod : p.toNat * e.toNat ≤ (2 ^ 32 - 1) * (2 ^ 32 - 1) :=
    Nat.mul_le_mul (Nat.le_sub_one_of_lt p.isLt) (Nat.le_sub_one_of_lt e.isLt)
  have hd := d.isLt
  have hp : (p.setWidth 64).toNat = p.toNat := toNat_setWidth_of_le (by decide)
  have he : (e.setWidth 64).toNat = e.toNat := toNat_setWidth_of_le (by decide)
  rw [mulNext, toNat_add, toNat_add, toNat_mul, hp, he, toNat_setWidth]
  omega

/-- A word is multiplied as a number is, into limbs that are zero. -/
theorem mulLoop_eq (b : BitVec 32) (ds : List (BitVec 32)) (c : BitVec 64) :
    mulLoop b c ds = carryLoop (mulNext b) c (List.replicate ds.length 0) ds := by
  induction ds generalizing c with
  | nil => rfl
  | cons d ds ih => simp [mulLoop, carryLoop, mulNext, List.replicate_succ, ih]

theorem limbValue_limbs_eq (x : Arith) : limbValue (limbs 8 x) = x.toNat :=
  (limbValue_limbs 8 x).trans (Nat.mod_eq_of_lt x.isLt)

theorem mulWord_eq (x : Arith) (b : BitVec 32) : mulWord x b = x * b.setWidth 256 := by
  refine eq_of_toNat_eq ?_
  have hb : (b.setWidth 256).toNat = b.toNat := toNat_setWidth_of_le (by decide)
  have hlen : (List.replicate 8 (0 : BitVec 32)).length = (limbs 8 x).length := by
    rw [length_limbs, List.length_replicate]
  have hloop := limbValue_carryLoop (toNat_mulNext b) (c := 0) (by decide) hlen.le
  rw [limbValue_limbs_eq, show limbValue (List.replicate 8 0) = 0 from rfl,
    show (0 : BitVec 64).toNat = 0 from rfl, zero_add, zero_add] at hloop
  rw [mulWord, mulLoop_eq, length_limbs, hloop, toNat_ofNat, toNat_mul, hb, mul_comm]
  exact Nat.mod_mod _ _

/-- The loop of `/=`, with `shift + 1` as counter.  The quotient is collected in the last argument.
-/
def divLoop : ℕ → Arith → Arith → Arith → Arith
  | 0, _, _, q => q
  | shift + 1, num, div, q =>
    if num ≥ div then divLoop shift (num - div) (div >>> 1) (q ||| (1 : Arith) <<< shift)
    else divLoop shift num (div >>> 1) q

/-- `/=`.  A zero divisor throws. -/
def divide (a b : Arith) : Option Arith :=
  let numBits := bits a
  let divBits := bits b
  if divBits = 0 then none
  else if divBits > numBits then some 0
  else
    let shift := numBits - divBits
    some (divLoop (shift + 1) a (b <<< shift) 0)

theorem toNat_or_bit {q : Arith} {s : ℕ} (hs : s < 256) (hq : 2 ^ (s + 1) ∣ q.toNat) :
    (q ||| (1 : Arith) <<< s).toNat = q.toNat + 2 ^ s := by
  obtain ⟨k, hk⟩ := hq
  have hbit : ((1 : Arith) <<< s).toNat = 2 ^ s := by
    rw [toNat_shiftLeft, Nat.shiftLeft_eq]
    change 1 * 2 ^ s % 2 ^ 256 = 2 ^ s
    rw [one_mul, Nat.mod_eq_of_lt (Nat.pow_lt_pow_right (by decide) hs)]
  rw [toNat_or, hbit, hk,
    Nat.two_pow_add_eq_or_of_lt (Nat.pow_lt_pow_right (by decide) (Nat.lt_succ_self s))]

/-- The loop keeps `num` below the next divisor, so each bit of the quotient is decided once. -/
theorem toNat_divLoop {d s : ℕ} {num div q : Arith} (hnum : num.toNat < d * 2 ^ s)
    (hdiv : ∀ k, s = k + 1 → div.toNat = d * 2 ^ k) (hq : 2 ^ s ∣ q.toNat)
    (hfits : q.toNat + num.toNat / d < 2 ^ 256) :
    (divLoop s num div q).toNat = q.toNat + num.toNat / d := by
  induction s generalizing num div q with
  | zero =>
    rw [divLoop, Nat.div_eq_of_lt (by simpa using hnum), add_zero]
  | succ s ih =>
    have hcur := hdiv s rfl
    have hdouble : d * 2 ^ (s + 1) = d * 2 ^ s + d * 2 ^ s := by
      ring
    have hd : 0 < d := by
      rcases eq_zero_or_pos d with rfl | h
      · simp at hnum
      · exact h
    have hnext : ∀ k, s = k + 1 → (div >>> 1).toNat = d * 2 ^ k := by
      rintro k rfl
      rw [toNat_ushiftRight, Nat.shiftRight_eq_div_pow, hcur, pow_succ,
        ← mul_assoc, Nat.mul_div_cancel _ (by decide)]
    rw [divLoop]
    split_ifs with hge
    · rw [ge_iff_le, le_def, hcur] at hge
      have hsub : (num - div).toNat = num.toNat - d * 2 ^ s := by
        rw [toNat_sub_of_le (by rwa [le_def, hcur]), hcur]
      have hquot : num.toNat / d = 2 ^ s + (num.toNat - d * 2 ^ s) / d := by
        conv_lhs => rw [← Nat.sub_add_cancel hge, Nat.add_mul_div_left _ _ hd]
        exact add_comm _ _
      have hs : s < 256 := by
        by_contra hs
        have hbig : 2 ^ 256 ≤ 2 ^ s := Nat.pow_le_pow_right (by decide) (by omega)
        have hle : 2 ^ s ≤ num.toNat / d := hquot ▸ Nat.le_add_right _ _
        omega
      have hbit := toNat_or_bit hs hq
      rw [ih (by rw [hsub]; omega) hnext
        (by rw [hbit]; exact dvd_add ((pow_dvd_pow 2 (Nat.le_succ s)).trans hq) dvd_rfl)
        (by rw [hbit, hsub]; omega), hbit, hsub, hquot, add_assoc]
    · rw [ge_iff_le, le_def, hcur, not_le] at hge
      exact ih hge hnext ((pow_dvd_pow 2 (Nat.le_succ s)).trans hq) hfits

theorem divide_eq (a b : Arith) : divide a b = if b = 0 then none else some (a / b) := by
  by_cases hb : b = 0
  · simp [divide, bits, hb]
  have hpos : 0 < bits b := pos_of_ne_zero (mt bits_eq_zero.1 hb)
  have ha := toNat_lt_bits a
  have hhigh := toNat_lt_bits b
  have hlow : 2 ^ (bits b - 1) ≤ b.toNat := by
    rw [bits_eq_size] at hpos ⊢
    exact Nat.lt_size.1 (by omega)
  rw [divide, if_neg hpos.ne']
  split_ifs with hlt
  · -- the divisor has more digits
    have hsmall : a.toNat < b.toNat :=
      ha.trans_le ((Nat.pow_le_pow_right (by decide) (by omega)).trans hlow)
    refine congrArg some (eq_of_toNat_eq ?_)
    rw [toNat_udiv, Nat.div_eq_of_lt hsmall]
    rfl
  · refine congrArg some (eq_of_toNat_eq ?_)
    have hshift : (b <<< (bits a - bits b)).toNat = b.toNat * 2 ^ (bits a - bits b) := by
      rw [toNat_shiftLeft, Nat.shiftLeft_eq, Nat.mod_eq_of_lt]
      calc b.toNat * 2 ^ (bits a - bits b) < 2 ^ bits b * 2 ^ (bits a - bits b) :=
            mul_lt_mul_of_pos_right hhigh (by positivity)
        _ = 2 ^ bits a := by rw [← pow_add, Nat.add_sub_cancel' (not_lt.1 hlt)]
        _ ≤ 2 ^ 256 := Nat.pow_le_pow_right (by decide) (bits_le a)
    have hnum : a.toNat < b.toNat * 2 ^ (bits a - bits b + 1) := by
      calc a.toNat < 2 ^ bits a := ha
        _ = 2 ^ (bits b - 1) * 2 ^ (bits a - bits b + 1) := by rw [← pow_add]; congr 1; omega
        _ ≤ b.toNat * 2 ^ (bits a - bits b + 1) := Nat.mul_le_mul_right _ hlow
    refine (toNat_divLoop hnum ?_ (dvd_zero _) ?_).trans (zero_add _)
    · rintro k hk
      obtain rfl := Nat.succ.inj hk
      exact hshift
    · exact (zero_add _).trans_lt ((Nat.div_le_self _ _).trans_lt a.isLt)

/-- **The retarget, with the loops of `base_uint`.** -/
theorem scaleTarget_eq_loops (p : Params) (nBits : Compact) (t : ℤ) : scaleTarget p nBits t =
    (divide (mulWord (setCompact nBits).value (BitVec.ofInt 32 t))
      ((BitVec.ofInt 64 p.nPowTargetTimespan).setWidth 256)).map fun x =>
        if x > p.powLimit then p.powLimit else x := by
  rw [divide_eq, mulWord_eq, scaleTarget, divTimespan]
  split_ifs <;> rfl

end KPCoin.Pow
