import KPCoin.Pow.Exact
import KPCoin.Pow.Transition

/-!
# Permitted retargets

`CalculateNextWorkRequired` scales the target by a timespan between a quarter and four times the
intended one and rounds it once.  `PermittedDifficultyTransition` scales by the two extreme
timespans, rounds, and compares.  As scaling and rounding are monotone, it lets every retarget
through, unless the products overflow: the target has to be within the limit, as
`CheckProofOfWork` demands of every block.

* `permitted_of_target_le` : from a block that is not the genesis block, has the target its parent
  prescribes and a target within the limit, every step is let through;
* `permitted_iff` : on a chain that follows the rule, and where no product overflows, a step is let
  through if and only if blocks of minimum difficulty are allowed, or it does not leave a genesis
  block whose target differs from the limit.
-/

namespace KPCoin.Pow

open Option BitVec Chain

/-- The heights of a branch count down to the genesis block. -/
def Linked : Branch → Prop
  | [] => True
  | b :: c => b.nHeight = c.length ∧ Linked c

/-- The target is within the limit, and scaling it overflows neither the timespan nor the product.
-/
structure RetargetFits (p : Params) (nBits : Compact) : Prop where
  four_le : 4 ≤ p.nPowTargetTimespan
  timespan_lt : p.nPowTargetTimespan * 4 < 2 ^ 32
  target_le : (setCompact nBits).value ≤ p.powLimit
  product_lt : (setCompact nBits).value.toNat * 4 * p.nPowTargetTimespan.toNat < 2 ^ 256

variable {p : Params} {a g : BlockIndex} {c : Branch} {old : Compact} {t t' : ℤ}

section Scaling

variable (hold : RetargetFits p old) {height : ℤ}
include hold

theorem scaleTarget_eq (h0 : 0 ≤ t) (ht : t ≤ p.nPowTargetTimespan * 4) :
    ∃ y, scaleTarget p old t = some y ∧ y.toNat =
      min p.powLimit.toNat
        ((setCompact old).value.toNat * t.toNat / p.nPowTargetTimespan.toNat) := by
  have hprod : (setCompact old).value.toNat * t.toNat < 2 ^ 256 := by
    refine lt_of_le_of_lt ?_ hold.product_lt
    rw [mul_assoc]
    exact Nat.mul_le_mul_left _ (by omega)
  have hT := hold.four_le
  have hT' := hold.timespan_lt
  refine ⟨_, scaleTarget_eq_targetOf (by omega) (by omega) h0 old, ?_⟩
  rw [toNat_targetOf, Nat.mod_eq_of_lt (show t.toNat < 2 ^ 32 by omega), Nat.mod_eq_of_lt hprod]

theorem scaleTarget_mono (h0 : 0 ≤ t) (htt : t ≤ t') (ht' : t' ≤ p.nPowTargetTimespan * 4)
    {y y' : Arith} (hy : scaleTarget p old t = some y) (hy' : scaleTarget p old t' = some y') :
    y ≤ y' := by
  obtain ⟨z, hz, hval⟩ := scaleTarget_eq hold h0 (htt.trans ht')
  obtain ⟨z', hz', hval'⟩ := scaleTarget_eq hold (h0.trans htt) ht'
  obtain rfl : y = z := mem_unique hy hz
  obtain rfl : y' = z' := mem_unique hy' hz'
  rw [le_def, hval, hval']
  exact min_le_min_left _ (Nat.div_le_div_right (Nat.mul_le_mul_left _ (by omega)))

/-- A new target between the two extreme ones is let through. -/
theorem permitted_of_between {new : Compact}
    (h0 : p.difficultyAdjustmentInterval ≠ 0)
    (hlow : ∀ y, scaleTarget p old (p.nPowTargetTimespan.tdiv 4) = some y →
      rounded y ≤ (setCompact new).value)
    (hhigh : ∀ y, scaleTarget p old (p.nPowTargetTimespan * 4) = some y →
      (setCompact new).value ≤ rounded y)
    (hm : height.tmod p.difficultyAdjustmentInterval = 0) :
    permittedDifficultyTransition p height old new = some true := by
  have hT := hold.four_le
  have hquarter : 0 ≤ p.nPowTargetTimespan.tdiv 4 ∧
      p.nPowTargetTimespan.tdiv 4 ≤ p.nPowTargetTimespan * 4 := by
    rw [Int.tdiv_eq_ediv_of_nonneg (by omega)]
    omega
  obtain ⟨y, hy, -⟩ := scaleTarget_eq hold hquarter.1 hquarter.2
  obtain ⟨z, hz, -⟩ := scaleTarget_eq hold (by omega) le_rfl
  have hl := hlow y hy
  have hh := hhigh z hz
  unfold permittedDifficultyTransition
  split_ifs
  · rfl
  · simp only [h0, hm, if_false, if_true, hy, hz, bind_eq_bind, bind_some]
    rw [if_neg (by simpa [rounded] using hh), if_neg (by simpa [rounded] using hl)]
    rfl

/-- **A retarget is let through.**  It is a scaling between the two extreme ones. -/
theorem permitted_retarget (first : ℤ) {last : BlockIndex} (hlast : last.nBits = old)
    (h0 : p.difficultyAdjustmentInterval ≠ 0)
    (hm : height.tmod p.difficultyAdjustmentInterval = 0) :
    ∃ new, calculateNextWorkRequired p last first = some new ∧
      permittedDifficultyTransition p height old new = some true := by
  have hT := hold.four_le
  have hquarter : 0 ≤ p.nPowTargetTimespan.tdiv 4 ∧
      p.nPowTargetTimespan.tdiv 4 ≤ p.nPowTargetTimespan := by
    rw [Int.tdiv_eq_ediv_of_nonneg (by omega)]
    omega
  cases hno : p.fPowNoRetargeting with
  | true =>
    -- the target stays, and the extreme ones are on its two sides
    refine ⟨old, by simp [calculateNextWorkRequired, hno, hlast],
      permitted_of_between hold h0 (fun y hy => ?_) (fun y hy => ?_) hm⟩
    · obtain ⟨z, hz, hval⟩ := scaleTarget_eq hold hquarter.1 (by omega)
      obtain rfl : y = z := mem_unique hy hz
      refine BitVec.le_trans (rounded_le y) ?_
      rw [le_def, hval]
      refine (min_le_right _ _).trans (Nat.div_le_of_le_mul ?_)
      rw [mul_comm]
      exact Nat.mul_le_mul_right _ (by omega)
    · obtain ⟨z, hz, hval⟩ := scaleTarget_eq hold (by omega)
        (le_refl (p.nPowTargetTimespan * 4))
      obtain rfl : y = z := mem_unique hy hz
      rw [← rounded_of_compact old]
      refine rounded_mono ?_
      rw [le_def, hval]
      refine le_min hold.target_le
        ((Nat.le_div_iff_mul_le (by omega)).2 (Nat.mul_le_mul_left _ (by omega)))
  | false =>
    have hrange : p.nPowTargetTimespan.tdiv 4 ≤ clampedTimespan p last first ∧
        clampedTimespan p last first ≤ p.nPowTargetTimespan * 4 := by
      rw [Int.tdiv_eq_ediv_of_nonneg (by omega)]
      unfold clampedTimespan
      omega
    obtain ⟨y, hy, -⟩ := scaleTarget_eq hold (by omega) hrange.2
    rw [calculateNextWorkRequired_scale hno (by omega), hlast, hy]
    refine ⟨getCompact y, rfl, permitted_of_between hold h0
      (fun z hz => rounded_mono ?_) (fun z hz => rounded_mono ?_) hm⟩
    · exact scaleTarget_mono hold hquarter.1 hrange.1 hrange.2 hz hy
    · exact scaleTarget_mono hold (by omega) hrange.2 le_rfl hy hz

end Scaling

theorem Linked.drop_ne_nil (h : Linked (a :: c)) {n : ℕ} (hn : n ≤ a.nHeight) :
    (a :: c).drop n ≠ [] := by
  rw [ne_eq, List.drop_eq_nil_iff, List.length_cons, ← h.1]
  omega

/-- **The steps that are let through.**  For a block after the genesis block that has the target
its parent prescribes, and a target within the limit, the next target is computed and let
through, whatever the times of the blocks. -/
theorem permitted_of_target_le (hT : 4 ≤ p.nPowTargetTimespan)
    (hT' : p.nPowTargetTimespan * 4 < 2 ^ 32)
    (hlimit : p.powLimit.toNat * 4 * p.nPowTargetTimespan.toNat < 2 ^ 256)
    (hlink : Linked (a :: g :: c)) (ha : getNextWorkRequired p (g :: c) = some a.nBits)
    (htarget : (setCompact a.nBits).value ≤ p.powLimit) :
    ∃ new, getNextWorkRequired p (a :: g :: c) = some new ∧
      permittedDifficultyTransition p (a.nHeight + 1) a.nBits new = some true := by
  have hheight : a.nHeight = g.nHeight + 1 := by
    obtain ⟨h₁, h₂, -⟩ := hlink
    rw [h₁, h₂, List.length_cons]
  have hsmall : p.difficultyAdjustmentInterval.natAbs < 2 ^ 30 := by
    have hle := Int.natAbs_tdiv_le_natAbs p.nPowTargetTimespan p.nPowTargetSpacing
    unfold Params.difficultyAdjustmentInterval
    omega
  have hne : p.difficultyAdjustmentInterval ≠ 0 := by
    by_cases hg : (g.nHeight + 1) < p.difficultyAdjustmentInterval
    · omega
    · exact (getNextWorkRequired_between ha hg).1
  by_cases hfirst : (a.nHeight + 1) < p.difficultyAdjustmentInterval
  · -- within the first period both targets are the limit
    rw [getNextWorkRequired_first (by omega)] at ha
    refine ⟨_, getNextWorkRequired_first hfirst, ?_⟩
    by_cases hmin : p.fPowAllowMinDifficultyBlocks = true
    · simp [permittedDifficultyTransition, hmin]
    · refine (permitted_between (by simpa using hmin) (by omega) ?_).2 (some.inj ha).symm
      rw [Int.tmod_eq_of_lt (by omega) hfirst]
      omega
  by_cases hm : (a.nHeight + 1 : ℤ).tmod p.difficultyAdjustmentInterval = 0
  · have hint : (BitVec.ofInt 32 p.difficultyAdjustmentInterval).toInt =
        p.difficultyAdjustmentInterval := by
      rw [toInt_ofInt, Int.bmod_eq_of_le] <;> omega
    obtain ⟨first, rest, hdrop⟩ := List.exists_cons_of_ne_nil (hlink.drop_ne_nil
      (n := (p.difficultyAdjustmentInterval - 1).toNat) (by omega))
    have hfits : RetargetFits p a.nBits := ⟨hT, hT', htarget, lt_of_le_of_lt
      (Nat.mul_le_mul_right _ (Nat.mul_le_mul_right _ htarget)) hlimit⟩
    obtain ⟨new, hnew, hperm⟩ := permitted_retarget hfits first.nTime rfl hne hm
    refine ⟨new, ?_, hperm⟩
    have hback : ¬ a.nHeight - (p.difficultyAdjustmentInterval - 1) < 0 := by omega
    simp only [getNextWorkRequired, hfirst, hne, hm, hback, hint, hdrop, if_false, ne_eq,
      not_true_eq_false, hnew]
  · have hsame : getNextWorkRequired p (a :: g :: c) = some a.nBits := by
      simp [getNextWorkRequired, hfirst, hne, hm]
    refine ⟨a.nBits, hsame, ?_⟩
    by_cases hmin : p.fPowAllowMinDifficultyBlocks = true
    · simp [permittedDifficultyTransition, hmin]
    · exact (permitted_between (by simpa using hmin) hne hm).2 rfl

/-- Blocks every 20 seconds, and a retarget at every second block. -/
def shortPeriod : Params :=
  { wideLimit with powLimit := 1#256 <<< 200, nPowTargetSpacing := 20, nPowTargetTimespan := 40 }

/-- A retarget after a period that was one second too long. -/
theorem permitted_short_period :
    ∃ new, getNextWorkRequired shortPeriod
        [blockAt 1 41 0x1a010000, blockAt 0 0 0x1a010000] = some new ∧
      permittedDifficultyTransition shortPeriod 2 0x1a010000 new = some true :=
  permitted_of_target_le (by decide) (by decide) (by decide) ⟨rfl, rfl, trivial⟩ (by decide +kernel)
    (by decide +kernel)

/-- A block with a target above the limit, `2 ^ 255`, and the same target as its parent: the product
with the longest timespan overflows to zero, and the retarget is not let through. -/
theorem retarget_above_limit_refused :
    4 ≤ shortPeriod.nPowTargetTimespan ∧ shortPeriod.nPowTargetTimespan * 4 < 2 ^ 32 ∧
      shortPeriod.powLimit.toNat * 4 * shortPeriod.nPowTargetTimespan.toNat < 2 ^ 256 ∧
      Linked [blockAt 3 82 0x21008000, blockAt 2 41 0x21008000, blockAt 1 20 0x1a010000,
        blockAt 0 0 0x1a010000] ∧
      getNextWorkRequired shortPeriod [blockAt 2 41 0x21008000, blockAt 1 20 0x1a010000,
        blockAt 0 0 0x1a010000] = some (blockAt 3 82 0x21008000).nBits ∧
      ∃ new, getNextWorkRequired shortPeriod [blockAt 3 82 0x21008000, blockAt 2 41 0x21008000,
        blockAt 1 20 0x1a010000, blockAt 0 0 0x1a010000] = some new ∧
      permittedDifficultyTransition shortPeriod ((blockAt 3 82 0x21008000).nHeight + 1)
        (blockAt 3 82 0x21008000).nBits new = some false :=
  ⟨by decide, by decide, by decide, ⟨rfl, rfl, rfl, rfl, trivial⟩, by decide +kernel, 0x1a010000,
    by decide +kernel, by decide +kernel⟩

/-- The steps of a chain that are let through. -/
theorem permitted_iff {H : HeaderFns} {b : BlockIndex} (hc : IndexChain H p (a :: c))
    (hf : Follows H p (a :: c) b)
    (hfits : (a.nHeight + 1 : ℤ).tmod p.difficultyAdjustmentInterval = 0 → RetargetFits p a.nBits) :
    permittedDifficultyTransition p (a.nHeight + 1) a.nBits b.nBits = some true ↔
      p.fPowAllowMinDifficultyBlocks = true ∨ AtLimit p a.nHeight a.nBits := by
  by_cases ha : p.fPowAllowMinDifficultyBlocks = true
  · simp [permittedDifficultyTransition, ha]
  simp only [ha, false_or, AtLimit, Bool.false_eq_true]
  have hbits := hf.2.2
  by_cases hm : (a.nHeight + 1 : ℤ).tmod p.difficultyAdjustmentInterval = 0
  · obtain ⟨h0, first, hcalc⟩ := getNextWorkRequired_retarget hbits hm
    obtain ⟨new, hnew, hperm⟩ := permitted_retarget (hfits hm) first rfl h0 hm
    rw [← mem_unique hnew hcalc]
    refine iff_of_true hperm fun h1 hlt => ?_
    rw [show (a.nHeight : ℤ) + 1 = 1 by omega, Int.tmod_eq_of_lt (by omega) hlt] at hm
    omega
  have hne : p.difficultyAdjustmentInterval ≠ 0 := by
    by_cases hlt : (a.nHeight + 1) < p.difficultyAdjustmentInterval
    · omega
    · exact (getNextWorkRequired_between hbits hlt).1
  rw [permitted_between (by simpa using ha) hne hm]
  by_cases hlt : (a.nHeight + 1) < p.difficultyAdjustmentInterval
  · -- the first period: the limit, which the parent has unless it is the genesis block
    rw [getNextWorkRequired_first hlt] at hbits
    rw [← some.inj hbits]
    refine ⟨fun h _ _ => h, fun h => ?_⟩
    by_cases hg : a.nHeight = 0
    · exact h (by omega) (by omega)
    · exact hc.bits_first hg (by omega)
  · exact iff_of_true ((getNextWorkRequired_between hbits hlt).2 hm).symm
      fun h0 h1 => absurd h1 (by omega)

/-- A target of `2 ^ 255` and a period that was on schedule: the product overflows, and the retarget
is not let through. -/
example :
    let p := { wideLimit with nPowTargetSpacing := 604800 }
    getNextWorkRequired p [blockAt 1 1209600 0x207fffff, blockAt 0 0 0x207fffff] = some 0x1e0cdebb ∧
      permittedDifficultyTransition p 2 0x207fffff 0x1e0cdebb = some false := by
  decide +kernel

end KPCoin.Pow
