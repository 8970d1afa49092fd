import KPCoin.Pow.Limbs

/-!
# When a retarget is exact

`CalculateNextWorkRequired` multiplies the target by the timespan in a word of 256 bits, and takes
the timespan as a word of 32 bits.  What it keeps of the product is `wrappedProduct`.

* `calculateNextWorkRequired_exact_iff` : the result is the one of exact arithmetic if and only if
  the product fits, or what is left of it still reaches the limit, or the exact target is zero;
* `retarget_exact_forall_iff` : it is exact for all blocks and times if and only if the product of
  the limit and the longest timespan fits.
-/

namespace KPCoin.Pow

open Option BitVec Chain

variable (p : Params) (last : BlockIndex) (nFirstBlockTime : ℤ)

/-- The signed 64-bit operations of `CalculateNextWorkRequired` do not overflow. -/
def NoSignedOverflow : Prop :=
  -2 ^ 63 ≤ last.nTime - nFirstBlockTime ∧ last.nTime - nFirstBlockTime < 2 ^ 63 ∧
    p.nPowTargetTimespan * 4 < 2 ^ 63

instance : Decidable (NoSignedOverflow p last nFirstBlockTime) :=
  inferInstanceAs (Decidable (_ ∧ _ ∧ _))

/-- The actual timespan, clamped to a quarter and to four times the intended one. -/
def clampedTimespan : ℕ :=
  (min (4 * p.nPowTargetTimespan)
    (max (p.nPowTargetTimespan / 4) (last.nTime - nFirstBlockTime))).toNat

/-- The product of the target and the timespan, as a number. -/
def exactProduct : ℕ := (setCompact last.nBits).value.toNat * clampedTimespan p last nFirstBlockTime

/-- The product of the target and the timespan, as far as the code keeps it. -/
def wrappedProduct : ℕ :=
  (setCompact last.nBits).value.toNat * (clampedTimespan p last nFirstBlockTime % 2 ^ 32) % 2 ^ 256

/-- The target that a product leads to: divided by the intended timespan, at most the limit. -/
def targetOf (product : ℕ) : Arith :=
  BitVec.ofNat 256 (min p.powLimit.toNat (product / p.nPowTargetTimespan.toNat))

variable {p last nFirstBlockTime}

theorem toNat_targetOf (n : ℕ) :
    (targetOf p n).toNat = min p.powLimit.toNat (n / p.nPowTargetTimespan.toNat) := by
  rw [targetOf, toNat_ofNat, Nat.mod_eq_of_lt]
  exact (min_le_left _ _).trans_lt p.powLimit.isLt

theorem scaleTarget_eq_targetOf {t : ℤ} (hT : 0 < p.nPowTargetTimespan)
    (hT64 : p.nPowTargetTimespan < 2 ^ 64) (ht : 0 ≤ t) (nBits : Compact) :
    scaleTarget p nBits t =
      some (targetOf p ((setCompact nBits).value.toNat * (t.toNat % 2 ^ 32) % 2 ^ 256)) := by
  have hmul : (mulTimespan (setCompact nBits).value t).toNat =
      (setCompact nBits).value.toNat * (t.toNat % 2 ^ 32) % 2 ^ 256 := by
    have ht32 : ((BitVec.ofInt 32 t).setWidth 256).toNat = t.toNat % 2 ^ 32 := by
      rw [toNat_setWidth, toNat_ofInt]
      omega
    rw [mulTimespan, toNat_mul, ht32]
  have hd : ((BitVec.ofInt 64 p.nPowTargetTimespan).setWidth 256).toNat =
      p.nPowTargetTimespan.toNat := by
    rw [toNat_setWidth, toNat_ofInt]
    omega
  have hne : (BitVec.ofInt 64 p.nPowTargetTimespan).setWidth 256 ≠ 0 := fun h => by
    have hzero : p.nPowTargetTimespan.toNat = 0 := by rw [← hd, h]; rfl
    omega
  simp only [scaleTarget, divTimespan, hne, if_false, bind_eq_bind, bind_some, pure_def]
  refine congrArg some (eq_of_toNat_eq ?_)
  rw [toNat_targetOf, ← hmul, ← hd]
  split_ifs with h
  · rw [gt_iff_lt, lt_def] at h
    exact (min_eq_left h.le).symm
  · rw [gt_iff_lt, lt_def, not_lt] at h
    exact (min_eq_right h).symm

section

variable (hno : p.fPowNoRetargeting = false) (hT : 0 < p.nPowTargetTimespan)
include hno hT

/-- A retarget scales the target by the clamped timespan. -/
theorem calculateNextWorkRequired_scale : calculateNextWorkRequired p last nFirstBlockTime =
      (scaleTarget p last.nBits (clampedTimespan p last nFirstBlockTime)).map getCompact := by
  have hquarter : p.nPowTargetTimespan.tdiv 4 = p.nPowTargetTimespan / 4 :=
    Int.tdiv_eq_ediv_of_nonneg hT.le
  have hclamp : (if (if last.nTime - nFirstBlockTime < p.nPowTargetTimespan / 4 then
      p.nPowTargetTimespan / 4 else last.nTime - nFirstBlockTime) > p.nPowTargetTimespan * 4
      then p.nPowTargetTimespan * 4 else
      if last.nTime - nFirstBlockTime < p.nPowTargetTimespan / 4 then
      p.nPowTargetTimespan / 4 else last.nTime - nFirstBlockTime) =
      clampedTimespan p last nFirstBlockTime := by
    unfold clampedTimespan
    split_ifs <;> omega
  simp only [calculateNextWorkRequired, hno, Bool.false_eq_true, if_false, hquarter, hclamp]
  cases scaleTarget p last.nBits (clampedTimespan p last nFirstBlockTime) <;> rfl

/-- **What a retarget computes**: the target of the wrapped product. -/
theorem calculateNextWorkRequired_eq (hover : NoSignedOverflow p last nFirstBlockTime) :
    calculateNextWorkRequired p last nFirstBlockTime =
      some (getCompact (targetOf p (wrappedProduct p last nFirstBlockTime))) := by
  rw [calculateNextWorkRequired_scale hno hT, scaleTarget_eq_targetOf hT (by linarith [hover.2.2])
    (Int.natCast_nonneg _)]
  rfl

end

/-- If the product does not fit, less than half of it is left. -/
theorem wrappedProduct_eq_or (p : Params) (nFirstBlockTime : ℤ)
    (htarget : 1 ≤ (setCompact last.nBits).value.toNat) :
    wrappedProduct p last nFirstBlockTime = exactProduct p last nFirstBlockTime ∨
      2 * wrappedProduct p last nFirstBlockTime < exactProduct p last nFirstBlockTime := by
  unfold wrappedProduct exactProduct
  generalize clampedTimespan p last nFirstBlockTime = t
  generalize (setCompact last.nBits).value.toNat = x at htarget ⊢
  by_cases ht : t < 2 ^ 32
  · rw [Nat.mod_eq_of_lt ht]
    omega
  · right
    have hhalf : 2 * (t % 2 ^ 32) < t := by omega
    calc 2 * (x * (t % 2 ^ 32) % 2 ^ 256) ≤ 2 * (x * (t % 2 ^ 32)) :=
          Nat.mul_le_mul_left _ (Nat.mod_le _ _)
      _ = x * (2 * (t % 2 ^ 32)) := by ring
      _ < x * t := mul_lt_mul_of_pos_left hhalf htarget

theorem wrappedProduct_eq_iff (htarget : 1 ≤ (setCompact last.nBits).value.toNat) :
    wrappedProduct p last nFirstBlockTime = exactProduct p last nFirstBlockTime ↔
      clampedTimespan p last nFirstBlockTime < 2 ^ 32 ∧
        exactProduct p last nFirstBlockTime < 2 ^ 256 := by
  unfold wrappedProduct exactProduct
  generalize clampedTimespan p last nFirstBlockTime = t
  generalize (setCompact last.nBits).value.toNat = x at htarget ⊢
  constructor
  · intro h
    have ht : t < 2 ^ 32 := by
      by_contra ht
      have hlt : x * (t % 2 ^ 32) < x * t := mul_lt_mul_of_pos_left (by omega) htarget
      exact absurd h ((Nat.mod_le _ _).trans_lt hlt).ne
    rw [← h]
    exact ⟨ht, Nat.mod_lt _ (by decide)⟩
  · rintro ⟨ht, hprod⟩
    rw [Nat.mod_eq_of_lt ht, Nat.mod_eq_of_lt hprod]

/-- A target between the rounded limit and the limit is rounded like the limit. -/
theorem rounded_targetOf (n : ℕ) (h : (rounded p.powLimit).toNat ≤ n / p.nPowTargetTimespan.toNat) :
    rounded (targetOf p n) = rounded p.powLimit := by
  have hle : targetOf p n ≤ p.powLimit := by
    rw [le_def, toNat_targetOf]
    exact min_le_left _ _
  have hge : rounded p.powLimit ≤ targetOf p n := by
    rw [le_def, toNat_targetOf]
    exact le_min (rounded_le _) h
  refine BitVec.le_antisymm (rounded_mono hle) ?_
  have hlimit : rounded (rounded p.powLimit) = rounded p.powLimit := rounded_of_compact _
  exact hlimit ▸ rounded_mono hge

/-- **The compact forms of two products**, one of which is less than half of the other, agree only
if both reach the limit or both lead to zero. -/
theorem getCompact_targetOf_eq_iff {m n : ℕ} (hT : 0 < p.nPowTargetTimespan) (hmn : 2 * m < n) :
    getCompact (targetOf p m) = getCompact (targetOf p n) ↔
      (rounded p.powLimit).toNat * p.nPowTargetTimespan.toNat ≤ m ∨
        n < p.nPowTargetTimespan.toNat := by
  have hpos : 0 < p.nPowTargetTimespan.toNat := by omega
  rw [getCompact_eq_iff, ← Nat.le_div_iff_mul_le hpos]
  constructor
  · intro heq
    by_contra! hnot
    obtain ⟨hlow, hge⟩ := hnot
    have hlimit : (rounded p.powLimit).toNat ≤ p.powLimit.toNat := rounded_le p.powLimit
    have hm : (targetOf p m).toNat = m / p.nPowTargetTimespan.toNat := by
      rw [toNat_targetOf]
      omega
    rcases le_or_gt (rounded p.powLimit).toNat (n / p.nPowTargetTimespan.toNat) with hcap | hcap
    · -- only the larger one reaches the limit
      have hle : (rounded (targetOf p m)).toNat ≤ (targetOf p m).toNat := rounded_le _
      rw [heq, rounded_targetOf n hcap, hm] at hle
      exact absurd hle (not_le.2 hlow)
    · have hn : (targetOf p n).toNat = n / p.nPowTargetTimespan.toNat := by
        rw [toNat_targetOf]
        omega
      have hhalf : 2 * (m / p.nPowTargetTimespan.toNat) ≤ n / p.nPowTargetTimespan.toNat :=
        (Nat.mul_div_le_mul_div_assoc ..).trans (Nat.div_le_div_right hmn.le)
      have hlt := Nat.roundDown_lt_of_two_mul_le (fun _ => droppedBits_lt)
        (Nat.div_pos hge hpos) hhalf
      rw [← hm, ← hn, ← toNat_rounded, ← toNat_rounded, heq] at hlt
      exact lt_irrefl _ hlt
  · rintro (hm | hn)
    · rw [rounded_targetOf m hm, rounded_targetOf n (hm.trans (Nat.div_le_div_right (by omega)))]
    · have hzero : ∀ k, k < p.nPowTargetTimespan.toNat → targetOf p k = 0 := fun k hk => by
        rw [targetOf, Nat.div_eq_of_lt hk, min_zero]
        rfl
      rw [hzero m (by omega), hzero n hn]

theorem exact_iff_of_noSignedOverflow (hno : p.fPowNoRetargeting = false)
    (hT : 0 < p.nPowTargetTimespan) (htarget : 1 ≤ (setCompact last.nBits).value.toNat)
    (hover : NoSignedOverflow p last nFirstBlockTime) :
    calculateNextWorkRequired p last nFirstBlockTime =
        some (getCompact (targetOf p (exactProduct p last nFirstBlockTime))) ↔
      (clampedTimespan p last nFirstBlockTime < 2 ^ 32 ∧
          exactProduct p last nFirstBlockTime < 2 ^ 256) ∨
        (rounded p.powLimit).toNat * p.nPowTargetTimespan.toNat ≤
          wrappedProduct p last nFirstBlockTime ∨
        exactProduct p last nFirstBlockTime < p.nPowTargetTimespan.toNat := by
  rw [calculateNextWorkRequired_eq hno hT hover, some_inj, ← wrappedProduct_eq_iff htarget]
  rcases wrappedProduct_eq_or p nFirstBlockTime htarget with heq | hlt
  · simp [heq]
  · rw [getCompact_targetOf_eq_iff hT hlt]
    have hne : wrappedProduct p last nFirstBlockTime ≠ exactProduct p last nFirstBlockTime := by
      omega
    simp [hne]

/-- **A retarget is exact** if and only if no signed operation overflows and the product of target
and timespan fits, or what is left of it reaches the limit, or the exact target is zero. -/
theorem calculateNextWorkRequired_exact_iff (p : Params) (last : BlockIndex) (nFirstBlockTime : ℤ)
    (hno : p.fPowNoRetargeting = false) (hT : 0 < p.nPowTargetTimespan)
    (htarget : 1 ≤ (setCompact last.nBits).value.toNat) :
    (NoSignedOverflow p last nFirstBlockTime ∧
      calculateNextWorkRequired p last nFirstBlockTime =
        some (getCompact (targetOf p (exactProduct p last nFirstBlockTime)))) ↔
    NoSignedOverflow p last nFirstBlockTime ∧
      ((clampedTimespan p last nFirstBlockTime < 2 ^ 32 ∧
          exactProduct p last nFirstBlockTime < 2 ^ 256) ∨
        (rounded p.powLimit).toNat * p.nPowTargetTimespan.toNat ≤
          wrappedProduct p last nFirstBlockTime ∨
        exactProduct p last nFirstBlockTime < p.nPowTargetTimespan.toNat) :=
  and_congr_right (exact_iff_of_noSignedOverflow hno hT htarget)

/-- A target that is small enough is scaled exactly, here doubled. -/
theorem retarget_doubled : calculateNextWorkRequired wideLimit (blockAt 0 2419200 0x1d00ffff) 0 =
    some (getCompact (targetOf wideLimit
      (exactProduct wideLimit (blockAt 0 2419200 0x1d00ffff) 0))) :=
  ((calculateNextWorkRequired_exact_iff wideLimit (blockAt 0 2419200 0x1d00ffff) 0 rfl (by decide)
    (by decide +kernel)).2 ⟨by decide, .inl (by decide +kernel)⟩).2

/-- The easiest target below the limit, after a period of the intended length: it should stay, and
becomes more than ten thousand times harder. -/
theorem retarget_wraps :
    NoSignedOverflow wideLimit (blockAt 0 1209600 0x207fffff) 0 ∧
      (setCompact 0x207fffff).value ≤ wideLimit.powLimit ∧
      clampedTimespan wideLimit (blockAt 0 1209600 0x207fffff) 0 = 1209600 ∧
      getCompact (targetOf wideLimit
        (exactProduct wideLimit (blockAt 0 1209600 0x207fffff) 0)) = 0x207fffff ∧
      calculateNextWorkRequired wideLimit (blockAt 0 1209600 0x207fffff) 0 = some 0x1e0cdebb := by
  decide +kernel

theorem rounded_two_pow {k : ℕ} (hk : k < 256) :
    (rounded (BitVec.ofNat 256 (2 ^ k))).toNat = 2 ^ k := by
  have hval : (BitVec.ofNat 256 (2 ^ k)).toNat = 2 ^ k := by
    rw [toNat_ofNat, Nat.mod_eq_of_lt (Nat.pow_lt_pow_right (by decide) hk)]
  rw [toNat_rounded, hval]
  refine Nat.roundDown_eq_self (pow_dvd_pow 2 ?_)
  have hdrop := droppedBits_lt (b := (2 ^ k).size) (Nat.size_pos.2 (by positivity))
  rw [Nat.size_pow] at hdrop ⊢
  omega

theorem fits_of_exact (hno : p.fPowNoRetargeting = false) (hT : 0 < p.nPowTargetTimespan)
    (h64 : p.nPowTargetTimespan * 4 < 2 ^ 63)
    (hexact : ∀ last nFirstBlockTime, NoSignedOverflow p last nFirstBlockTime →
      1 ≤ (setCompact last.nBits).value.toNat → (setCompact last.nBits).value ≤ p.powLimit →
      calculateNextWorkRequired p last nFirstBlockTime =
        some (getCompact (targetOf p (exactProduct p last nFirstBlockTime))))
    {x t : ℕ} (hx : 1 ≤ x) (y : Arith) (hy : (rounded y).toNat = x) (hlimit : x ≤ p.powLimit.toNat)
    (hlow : p.nPowTargetTimespan.toNat ≤ t) (hhigh : t ≤ 4 * p.nPowTargetTimespan.toNat) :
    (t < 2 ^ 32 ∧ x * t < 2 ^ 256) ∨
      (rounded p.powLimit).toNat * p.nPowTargetTimespan.toNat ≤ x * (t % 2 ^ 32) % 2 ^ 256 := by
  have hover : NoSignedOverflow p (blockAt 0 0 (getCompact y)) (-t) := by
    simp only [NoSignedOverflow, blockAt]
    omega
  have hclamp : clampedTimespan p (blockAt 0 0 (getCompact y)) (-t) = t := by
    simp only [clampedTimespan, blockAt]
    omega
  have htarget : (setCompact (blockAt 0 0 (getCompact y)).nBits).value.toNat = x := hy
  have h := (exact_iff_of_noSignedOverflow hno hT (by omega) hover).1
    (hexact _ _ hover (by omega) (by rw [le_def]; omega))
  rw [wrappedProduct, exactProduct, hclamp, htarget] at h
  rcases h with h | h | h
  · exact .inl h
  · exact .inr h
  · -- the timespan is not shorter than the intended one
    have hle : t ≤ x * t := Nat.le_mul_of_pos_left t hx
    omega

/-- If the largest product does not fit, some product of a power of two or of the largest target
leaves less than the limit. -/
theorem exists_wrapping {M T : ℕ} (hM : 1 ≤ M) (hT : 1 ≤ T) (h32 : 4 * T < 2 ^ 32)
    (hbig : 2 ^ 256 ≤ M * (4 * T)) :
    ∃ x t, x ≤ M ∧ (x = M ∨ ∃ k < 256, x = 2 ^ k) ∧ T ≤ t ∧ t ≤ 4 * T ∧ 2 ^ 256 ≤ x * t ∧
      x * t % 2 ^ 256 < M * T := by
  have hprod : 1 ≤ M * T := Nat.mul_pos hM hT
  have hsizePos : 0 < T.size := Nat.size_pos.2 hT
  have hsize : T < 2 ^ T.size := Nat.lt_size_self T
  have hhalf : 2 ^ T.size ≤ 2 * T := by
    have h := Nat.lt_size.1 (Nat.sub_lt hsizePos one_pos)
    have hpow : 2 ^ T.size = 2 * 2 ^ (T.size - 1) := by
      rw [← pow_succ', Nat.sub_add_cancel hsizePos]
    omega
  have hsize32 : T.size ≤ 32 := Nat.size_le.2 (by omega)
  have hsplit : 2 ^ (256 - T.size) * 2 ^ T.size = 2 ^ 256 := by
    rw [← pow_add]
    congr 1
    omega
  rcases le_or_gt (2 ^ (256 - T.size)) M with hpow | hpow
  · -- a product of powers of two leaves nothing
    refine ⟨2 ^ (256 - T.size), 2 ^ T.size, hpow, .inr ⟨_, by omega, rfl⟩, hsize.le, by omega,
      hsplit.ge, ?_⟩
    rw [hsplit]
    exact hprod
  · -- the first multiple of the intended timespan that does not fit leaves less than the limit
    have hone : M * T < 2 ^ 256 := by
      calc M * T ≤ M * 2 ^ T.size := Nat.mul_le_mul_left _ hsize.le
        _ < 2 ^ (256 - T.size) * 2 ^ T.size := mul_lt_mul_of_pos_right hpow (by positivity)
        _ = 2 ^ 256 := hsplit
    have hmul : ∀ c, M * (c * T) = c * (M * T) := fun c => by ring
    rw [hmul] at hbig
    obtain ⟨c, hc, hc', hlow, hhigh⟩ : ∃ c, 1 ≤ c ∧ c ≤ 4 ∧ 2 ^ 256 ≤ c * (M * T) ∧
        c * (M * T) < 2 ^ 256 + M * T := by
      rcases lt_or_ge (2 * (M * T)) (2 ^ 256) with h2 | h2
      · rcases lt_or_ge (3 * (M * T)) (2 ^ 256) with h3 | h3
        · exact ⟨4, by omega⟩
        · exact ⟨3, by omega⟩
      · exact ⟨2, by omega⟩
    refine ⟨M, c * T, le_rfl, .inl rfl, Nat.le_mul_of_pos_left T hc, Nat.mul_le_mul_right T hc', ?_⟩
    rw [hmul]
    exact ⟨hlow, by omega⟩

/-- **Exactness as a property of the network**: every retarget is exact if and only if the product
of the largest target and the longest timespan fits. -/
theorem retarget_exact_forall_iff (hno : p.fPowNoRetargeting = false)
    (hT : 0 < p.nPowTargetTimespan) (h64 : p.nPowTargetTimespan * 4 < 2 ^ 63)
    (hpos : 0 < p.powLimit.toNat) :
    (∀ last nFirstBlockTime, NoSignedOverflow p last nFirstBlockTime →
      1 ≤ (setCompact last.nBits).value.toNat → (setCompact last.nBits).value ≤ p.powLimit →
      calculateNextWorkRequired p last nFirstBlockTime =
        some (getCompact (targetOf p (exactProduct p last nFirstBlockTime)))) ↔
    4 * p.nPowTargetTimespan.toNat < 2 ^ 32 ∧
      (rounded p.powLimit).toNat * (4 * p.nPowTargetTimespan.toNat) < 2 ^ 256 := by
  have hT' : 1 ≤ p.nPowTargetTimespan.toNat := by omega
  constructor
  · intro hexact
    have hfits := @fits_of_exact p hno hT h64 hexact
    have hle : (rounded p.powLimit).toNat ≤ p.powLimit.toNat := rounded_le p.powLimit
    have hM : 1 ≤ (rounded p.powLimit).toNat := by
      rw [toNat_rounded]
      exact Nat.zero_lt_of_lt
        (Nat.roundDown_lt_of_two_mul_le (x := 0) (fun _ => droppedBits_lt) hpos (by omega))
    have hprod : 1 ≤ (rounded p.powLimit).toNat * p.nPowTargetTimespan.toNat := Nat.mul_pos hM hT'
    have h32 : 4 * p.nPowTargetTimespan.toNat < 2 ^ 32 := by
      by_contra hbig
      -- the low 32 bits of the timespan can be zero
      have h := hfits (t := 4 * p.nPowTargetTimespan.toNat / 2 ^ 32 * 2 ^ 32) le_rfl 1
        (by decide) hpos (by omega) (by omega)
      omega
    refine ⟨h32, ?_⟩
    by_contra hbig
    obtain ⟨x, t, hxM, hx, hlow, hhigh, hwraps, hleft⟩ := exists_wrapping hM hT' h32 (not_lt.1 hbig)
    have hx' : 1 ≤ x := Nat.pos_of_mul_pos_right ((by decide : 0 < 2 ^ 256).trans_le hwraps)
    obtain ⟨y, hy⟩ : ∃ y : Arith, (rounded y).toNat = x := by
      rcases hx with rfl | ⟨k, hk, rfl⟩
      · exact ⟨_, rfl⟩
      · exact ⟨_, rounded_two_pow hk⟩
    have h := hfits hx' y hy (hxM.trans hle) hlow hhigh
    rw [Nat.mod_eq_of_lt (show t < 2 ^ 32 by omega)] at h
    omega
  · rintro ⟨h32, hprod⟩ last first hover htarget hlimit
    have ht : clampedTimespan p last first ≤ 4 * p.nPowTargetTimespan.toNat := by
      unfold clampedTimespan
      omega
    have hx : (setCompact last.nBits).value.toNat ≤ (rounded p.powLimit).toNat := by
      rw [← rounded_of_compact last.nBits]
      exact rounded_mono hlimit
    exact (exact_iff_of_noSignedOverflow hno hT htarget hover).2
      (.inl ⟨by omega, (Nat.mul_le_mul hx ht).trans_lt hprod⟩)

/-- With the wide limit some retarget is not exact. -/
theorem not_retarget_exact_wideLimit : ¬ ∀ last first, NoSignedOverflow wideLimit last first →
    1 ≤ (setCompact last.nBits).value.toNat → (setCompact last.nBits).value ≤ wideLimit.powLimit →
      calculateNextWorkRequired wideLimit last first =
        some (getCompact (targetOf wideLimit (exactProduct wideLimit last first))) :=
  (retarget_exact_forall_iff rfl (by decide) (by decide) (by decide)).not.2 (by decide +kernel)

end KPCoin.Pow
