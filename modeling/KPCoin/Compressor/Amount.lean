import KPCoin.Consensus.Params

/-!
# Compressed amounts

`CompressAmount` and `DecompressAmount` (`compressor.cpp`).  An amount is written as a number
without trailing zeros and the count of the zeros, up to nine; the last digit of the number is
packed apart, since it is not zero.

The functions work on words of 64 bits.  `compressAmountChecked` and `decompressAmountChecked` are
the same computations with a result only if no operation leaves the range of the word and the
assertion holds.  `Computes` says of a checked computation which word it returns and which number
that is.  `computes_roundTrip` says that for amounts up to `MAX_MONEY` nothing is lost and nothing
overflows.
-/

namespace KPCoin.Compressor

open BitVec

/-- The loop of `CompressAmount`: the number without its last zeros, and how many they were. -/
def dropZeros (n : BitVec 64) (e : ℕ) : BitVec 64 × ℕ :=
  if n % 10 = 0 ∧ e < 9 then dropZeros (n / 10) (e + 1) else (n, e)
termination_by 9 - e

/-- `CompressAmount`. -/
def compressAmount (n : BitVec 64) : BitVec 64 :=
  if n = 0 then 0
  else
    let (n, e) := dropZeros n 0
    if e < 9 then
      let d := n % 10
      1 + (n / 10 * 9 + d - 1) * 10 + BitVec.ofNat 64 e
    else 1 + (n - 1) * 10 + 9

/-- The loop of `DecompressAmount`. -/
def addZeros (n : BitVec 64) : ℕ → BitVec 64
  | 0 => n
  | e + 1 => addZeros (n * 10) e

/-- `DecompressAmount`. -/
def decompressAmount (x : BitVec 64) : BitVec 64 :=
  if x = 0 then 0
  else
    let x := x - 1
    let e := (x % 10).toNat
    let x := x / 10
    let n := if e < 9 then x / 9 * 10 + (x % 9 + 1) else x + 1
    addZeros n e

def checkedAdd (a b : BitVec 64) : Option (BitVec 64) :=
  if a.toNat + b.toNat < 2 ^ 64 then some (a + b) else none

def checkedSub (a b : BitVec 64) : Option (BitVec 64) :=
  if b.toNat ≤ a.toNat then some (a - b) else none

def checkedMul (a b : BitVec 64) : Option (BitVec 64) :=
  if a.toNat * b.toNat < 2 ^ 64 then some (a * b) else none

/-- `CompressAmount` with its assertion and without overflow. -/
def compressAmountChecked (n : BitVec 64) : Option (BitVec 64) :=
  if n = 0 then some 0
  else
    let (n, e) := dropZeros n 0
    if e < 9 then
      let d := n % 10
      if 1 ≤ d ∧ d ≤ 9 then do
        let x ← checkedMul (n / 10) 9
        let x ← checkedAdd x d
        let x ← checkedSub x 1
        let x ← checkedMul x 10
        let x ← checkedAdd 1 x
        checkedAdd x (BitVec.ofNat 64 e)
      else none
    else do
      let x ← checkedSub n 1
      let x ← checkedMul x 10
      let x ← checkedAdd 1 x
      checkedAdd x 9

def addZerosChecked (n : BitVec 64) : ℕ → Option (BitVec 64)
  | 0 => some n
  | e + 1 => do
    let n ← checkedMul n 10
    addZerosChecked n e

/-- The number with the last digit put back. -/
def unpackChecked (x : BitVec 64) (e : ℕ) : Option (BitVec 64) :=
  if e < 9 then do
    let d ← checkedAdd (x % 9) 1
    let n ← checkedMul (x / 9) 10
    checkedAdd n d
  else checkedAdd x 1

/-- `DecompressAmount` without overflow. -/
def decompressAmountChecked (x : BitVec 64) : Option (BitVec 64) :=
  if x = 0 then some 0
  else do
    let x ← checkedSub x 1
    let e := (x % 10).toNat
    let n ← unpackChecked (x / 10) e
    addZerosChecked n e

/-- The checked computation returns the word, and the word is the number. -/
def Computes (o : Option (BitVec 64)) (x : BitVec 64) (a : ℕ) : Prop := o = some x ∧ x.toNat = a

variable {x : BitVec 64} {y : BitVec 64} {a c : ℕ} {n : BitVec 64}

section

variable (hx : x.toNat = a) (hy : y.toNat = c)
include hx hy

theorem computes_add (h : a + c < 2 ^ 64) : Computes (checkedAdd x y) (x + y) (a + c) := by
  subst hx hy
  exact ⟨if_pos h, toNat_add_of_lt h⟩

theorem computes_sub (h : c ≤ a) : Computes (checkedSub x y) (x - y) (a - c) := by
  subst hx hy
  exact ⟨if_pos h, toNat_sub_of_le h⟩

theorem computes_mul (h : a * c < 2 ^ 64) : Computes (checkedMul x y) (x * y) (a * c) := by
  subst hx hy
  exact ⟨if_pos h, toNat_mul_of_lt h⟩

end

theorem Computes.bind {o : Option (BitVec 64)} {f : BitVec 64 → Option (BitVec 64)}
    (h : Computes o x a) (hf : x.toNat = a → Computes (f x) y c) : Computes (o >>= f) y c := by
  obtain ⟨rfl, ha⟩ := h
  exact hf ha

/-- What the loop of `CompressAmount` leaves of `n` at the count `e`. -/
structure Stripped (n : ℕ) (m e : ℕ) : Prop where
  eq : n = m * 10 ^ e
  le : e ≤ 9
  last : e < 9 → m % 10 ≠ 0

theorem dropZeros_stripped (n : BitVec 64) (e : ℕ) (he : e ≤ 9) :
    Stripped (n.toNat * 10 ^ e) (dropZeros n e).1.toNat (dropZeros n e).2 := by
  fun_induction dropZeros n e with
  | case1 n e h ih =>
    have hten : n.toNat % 10 = 0 := by
      have := congrArg BitVec.toNat h.1
      simpa using this
    have hdiv : (n / 10).toNat = n.toNat / 10 := by simp
    have hpow : (n / 10).toNat * 10 ^ (e + 1) = n.toNat * 10 ^ e := by
      rw [hdiv, pow_succ, mul_comm (10 ^ e), ← mul_assoc,
        Nat.div_mul_cancel (Nat.dvd_of_mod_eq_zero hten)]
    have hrest := ih (by omega)
    rwa [hpow] at hrest
  | case2 n e h =>
    refine ⟨rfl, he, fun hlt hmod => h ⟨?_, hlt⟩⟩
    apply eq_of_toNat_eq
    simpa using hmod

theorem Stripped.pos {n m e : ℕ} (h : Stripped n m e) (hn : 0 < n) : 0 < m := by
  rcases Nat.eq_zero_or_pos m with rfl | hm
  · have := h.eq
    omega
  · exact hm

theorem Stripped.le_self {n m e : ℕ} (h : Stripped n m e) : m ≤ n := by
  rw [h.eq]
  exact Nat.le_mul_of_pos_right m (Nat.pow_pos (by decide))

/-- The number `m` with `e` zeros, packed. -/
def packed (m e : ℕ) : ℕ :=
  if e < 9 then 1 + (m / 10 * 9 + m % 10 - 1) * 10 + e else 1 + (m - 1) * 10 + 9

theorem computes_compress (hn : n ≠ 0) (h : n.toNat ≤ 121300000000000000) :
    Computes (compressAmountChecked n) (compressAmount n)
      (packed (dropZeros n 0).1.toNat (dropZeros n 0).2) := by
  have hs := dropZeros_stripped n 0 (by decide)
  rw [pow_zero, mul_one] at hs
  have hpos := hs.pos (Nat.pos_of_ne_zero fun h => hn (eq_of_toNat_eq h))
  have hle := hs.le_self
  have he := hs.le
  have hlast := hs.last
  rw [compressAmount, compressAmountChecked, packed, if_neg hn, if_neg hn]
  generalize dropZeros n 0 = s at hpos hle he hlast ⊢
  obtain ⟨m, e⟩ := s
  simp only at hpos hle he hlast ⊢
  have hdiv : (m / 10).toNat = m.toNat / 10 := toNat_udiv
  have hmod : (m % 10).toNat = m.toNat % 10 := toNat_umod
  have hone : (1 : BitVec 64).toNat = 1 := rfl
  have hnine : (9 : BitVec 64).toNat = 9 := rfl
  have hten : (10 : BitVec 64).toNat = 10 := rfl
  have hzeros : (BitVec.ofNat 64 e).toNat = e := by
    rw [toNat_ofNat, Nat.mod_eq_of_lt (by omega)]
  by_cases h9 : e < 9
  · have hd : 1 ≤ m % 10 ∧ m % 10 ≤ 9 := by
      rw [le_def, le_def]
      omega
    rw [if_pos h9, if_pos h9, if_pos h9, if_pos hd]
    refine (computes_mul hdiv hnine (by omega)).bind fun h1 => ?_
    refine (computes_add h1 hmod (by omega)).bind fun h2 => ?_
    refine (computes_sub h2 hone (by omega)).bind fun h3 => ?_
    refine (computes_mul h3 hten (by omega)).bind fun h4 => ?_
    refine (computes_add hone h4 (by omega)).bind fun h5 => ?_
    exact computes_add h5 hzeros (by omega)
  · rw [if_neg h9, if_neg h9, if_neg h9]
    refine (computes_sub rfl hone (by omega)).bind fun h1 => ?_
    refine (computes_mul h1 hten (by omega)).bind fun h2 => ?_
    refine (computes_add hone h2 (by omega)).bind fun h3 => ?_
    exact computes_add h3 hnine (by omega)

theorem computes_addZeros {e : ℕ} (h : n.toNat * 10 ^ e < 2 ^ 64) :
    Computes (addZerosChecked n e) (addZeros n e) (n.toNat * 10 ^ e) := by
  induction e generalizing n with
  | zero => exact ⟨rfl, by rw [pow_zero, mul_one]; rfl⟩
  | succ e ih =>
    have hpow : n.toNat * 10 ^ (e + 1) = n.toNat * 10 * 10 ^ e := by
      rw [pow_succ, mul_comm (10 ^ e), mul_assoc]
    rw [hpow] at h ⊢
    have hten : n.toNat * 10 < 2 ^ 64 :=
      lt_of_le_of_lt (Nat.le_mul_of_pos_right _ (Nat.pow_pos (by decide))) h
    refine (computes_mul rfl rfl hten).bind fun hmul => ?_
    have hrest := ih (by rw [hmul]; exact h)
    rw [hmul] at hrest
    exact hrest

theorem computes_unpack {m e : ℕ} (hx : x.toNat = (packed m e - 1) / 10) (hm : 0 < m)
    (hlast : e < 9 → m % 10 ≠ 0) (h : m < 2 ^ 64) :
    Computes (unpackChecked x e) (if e < 9 then x / 9 * 10 + (x % 9 + 1) else x + 1) m := by
  have hone : (1 : BitVec 64).toNat = 1 := rfl
  rw [unpackChecked]
  unfold packed at hx
  by_cases h9 : e < 9
  · rw [if_pos h9] at hx
    have hdigit : (x % 9).toNat = m % 10 - 1 := by
      change _ % 9 = _
      omega
    have hhigh : (x / 9).toNat = m / 10 := by
      change _ / 9 = _
      omega
    rw [if_pos h9, if_pos h9]
    refine (computes_add hdigit hone (by omega)).bind fun h1 => ?_
    refine (computes_mul hhigh (show (10 : BitVec 64).toNat = 10 from rfl) (by omega)).bind
      fun h2 => ?_
    have hsum := computes_add h2 h1 (by omega)
    rwa [show m / 10 * 10 + (m % 10 - 1 + 1) = m by omega] at hsum
  · rw [if_neg h9] at hx
    rw [if_neg h9, if_neg h9]
    have hsum := computes_add (show x.toNat = m - 1 by omega) hone (by omega)
    rwa [Nat.sub_add_cancel hm] at hsum

theorem computes_decompress {m e : ℕ} (hx : x.toNat = packed m e) (hm : 0 < m)
    (he : e ≤ 9) (hlast : e < 9 → m % 10 ≠ 0) (h : m * 10 ^ e < 2 ^ 64) :
    Computes (decompressAmountChecked x) (decompressAmount x) (m * 10 ^ e) := by
  have hone : (1 : BitVec 64).toNat = 1 := rfl
  have hten : (10 : BitVec 64).toNat = 10 := rfl
  have hpos : 0 < packed m e := by
    unfold packed
    split_ifs <;> omega
  have hne : x ≠ 0 := by
    rintro rfl
    have hzero : 0 = packed m e := hx
    omega
  rw [decompressAmountChecked, decompressAmount, if_neg hne, if_neg hne]
  refine (computes_sub hx hone hpos).bind fun h1 => ?_
  have hzeros : ((x - 1) % 10).toNat = e := by
    rw [toNat_umod, h1, hten, packed]
    split_ifs <;> omega
  have hrest : ((x - 1) / 10).toNat = (packed m e - 1) / 10 := by
    rw [toNat_udiv, h1, hten]
  have hm' : m < 2 ^ 64 := lt_of_le_of_lt (Nat.le_mul_of_pos_right m (Nat.pow_pos (by decide))) h
  simp only [hzeros]
  refine (computes_unpack hrest hm hlast hm').bind fun h2 => ?_
  rw [← h2] at h ⊢
  exact computes_addZeros h

/-- **Amounts survive compression, and nothing overflows.** -/
theorem computes_roundTrip (h : (n.toNat : ℤ) ≤ maxMoney) :
    compressAmountChecked n = some (compressAmount n) ∧
      decompressAmountChecked (compressAmount n) = some (decompressAmount (compressAmount n)) ∧
      decompressAmount (compressAmount n) = n := by
  have hmax : maxMoney = 121300000000000000 := rfl
  by_cases hn : n = 0
  · subst hn
    decide
  · have hs := dropZeros_stripped n 0 (by decide)
    rw [pow_zero, mul_one] at hs
    have hpos := hs.pos (Nat.pos_of_ne_zero fun h => hn (eq_of_toNat_eq h))
    obtain ⟨hcompress, hpacked⟩ := computes_compress hn (by omega)
    obtain ⟨hdecompress, hvalue⟩ :=
      computes_decompress hpacked hpos hs.le hs.last (by rw [← hs.eq]; omega)
    exact ⟨hcompress, hdecompress, eq_of_toNat_eq (hvalue.trans hs.eq.symm)⟩

theorem compressAmount_inj {m n : BitVec 64} (hm : (m.toNat : ℤ) ≤ maxMoney)
    (hn : (n.toNat : ℤ) ≤ maxMoney) (h : compressAmount m = compressAmount n) : m = n := by
  have hm' := (computes_roundTrip hm).2.2
  rwa [h, (computes_roundTrip hn).2.2, eq_comm] at hm'

end KPCoin.Compressor
