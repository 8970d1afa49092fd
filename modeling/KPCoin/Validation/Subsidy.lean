import KPCoin.Validation.Supply

/-!
# The subsidy schedule

The subsidy is 500 coins in the first epoch of `nSubsidyHalvingInterval` blocks and half of it,
rounded down, in each epoch after that, until it is zero.

* `subsidy_schedule` : all subsidies together are less than 1000 coins for each block of an epoch,
  so for an interval of at most 1213000 blocks they never leave the range of money;
* `supply_le_maxMoney` : then neither do the coins of any state of the chain.
-/

namespace KPCoin.Validation

open Finset Consensus

theorem sum_range_epochs (f : ℕ → ℤ) {I : ℕ} (hI : 0 < I) (m : ℕ) :
    ∑ k ∈ range (I * m), f (k / I) = I * ∑ j ∈ range m, f j := by
  induction m with
  | zero => simp
  | succ m ih =>
    have hepoch : ∀ x ∈ range I, f ((I * m + x) / I) = f m := by
      intro x hx
      rw [Nat.mul_add_div hI, Nat.div_eq_of_lt (mem_range.1 hx), add_zero]
    rw [Nat.mul_succ, sum_range_add, ih, sum_congr rfl hepoch, sum_const,
      card_range, sum_range_succ, mul_add, nsmul_eq_mul]

/-- The subsidy of the blocks of an epoch. -/
def epochSubsidy (epoch : ℕ) : ℤ := if epoch ≥ 64 then 0 else (500 * coinUnit) >>> epoch

theorem epochSubsidy_eq {epoch : ℕ} (h : epoch < 64) :
    epochSubsidy epoch = ((50000000000 / 2 ^ epoch : ℕ) : ℤ) := by
  rw [epochSubsidy, if_neg (not_le.2 h), ← Nat.shiftRight_eq_div_pow]
  rfl

theorem epochSubsidy_nonneg (epoch : ℕ) : 0 ≤ epochSubsidy epoch := by
  rcases lt_or_ge epoch 64 with h | h
  · rw [epochSubsidy_eq h]
    exact Int.natCast_nonneg _
  · rw [epochSubsidy, if_pos h]

theorem epochSubsidy_antitone : Antitone epochSubsidy := by
  intro a b hab
  rcases lt_or_ge b 64 with hb | hb
  · rw [epochSubsidy_eq hb, epochSubsidy_eq (hab.trans_lt hb), Int.ofNat_le]
    exact Nat.div_le_div_left (Nat.pow_le_pow_right (by decide) hab) (Nat.two_pow_pos a)
  · rw [epochSubsidy, if_pos hb]
    exact epochSubsidy_nonneg a

theorem sum_epochSubsidy_lt (m : ℕ) : ∑ j ∈ range m, epochSubsidy j < 1000 * coinUnit := by
  have hzero : ∀ j ∈ range (m + 64), j ∉ range 64 → epochSubsidy j = 0 := by
    intro j _ hj
    rw [epochSubsidy, if_pos (by simpa using hj)]
  calc ∑ j ∈ range m, epochSubsidy j ≤ ∑ j ∈ range (m + 64), epochSubsidy j :=
        sum_le_sum_of_subset_of_nonneg (range_subset_range.2 (by omega))
          fun j _ _ => epochSubsidy_nonneg j
    _ = ∑ j ∈ range 64, epochSubsidy j :=
        (sum_subset (range_subset_range.2 (by omega)) hzero).symm
    _ < 1000 * coinUnit := by decide +kernel

section Schedule

variable {p : Params} (hI : 0 < p.nSubsidyHalvingInterval)
include hI

theorem getBlockSubsidy_eq (nHeight : ℕ) :
    getBlockSubsidy nHeight p = epochSubsidy (nHeight / p.nSubsidyHalvingInterval.toNat) := by
  have hhalvings : (nHeight : ℤ).tdiv p.nSubsidyHalvingInterval =
      ((nHeight / p.nSubsidyHalvingInterval.toNat : ℕ) : ℤ) := by
    rw [Int.tdiv_eq_ediv_of_nonneg (Int.natCast_nonneg _), Int.natCast_ediv,
      Int.toNat_of_nonneg hI.le]
  simp only [getBlockSubsidy, hhalvings, epochSubsidy, Int.toNat_natCast]
  norm_cast

theorem sum_getBlockSubsidy_lt (n : ℕ) :
    ∑ k ∈ range n, getBlockSubsidy k p < 1000 * coinUnit * p.nSubsidyHalvingInterval := by
  have hpos : 0 < p.nSubsidyHalvingInterval.toNat := by omega
  calc ∑ k ∈ range n, getBlockSubsidy k p
      = ∑ k ∈ range n, epochSubsidy (k / p.nSubsidyHalvingInterval.toNat) :=
        sum_congr rfl fun k _ => getBlockSubsidy_eq hI k
    _ ≤ ∑ k ∈ range (p.nSubsidyHalvingInterval.toNat * n),
          epochSubsidy (k / p.nSubsidyHalvingInterval.toNat) :=
        sum_le_sum_of_subset_of_nonneg
          (range_subset_range.2 (Nat.le_mul_of_pos_left n hpos))
          fun k _ _ => epochSubsidy_nonneg _
    _ = p.nSubsidyHalvingInterval * ∑ j ∈ range n, epochSubsidy j := by
        rw [sum_range_epochs _ hpos, Int.toNat_of_nonneg hI.le]
    _ < p.nSubsidyHalvingInterval * (1000 * coinUnit) :=
        mul_lt_mul_of_pos_left (sum_epochSubsidy_lt n) hI
    _ = 1000 * coinUnit * p.nSubsidyHalvingInterval := mul_comm _ _

theorem sum_getBlockSubsidy_le_maxMoney (hle : p.nSubsidyHalvingInterval ≤ 1213000) (n : ℕ) :
    ∑ k ∈ range n, getBlockSubsidy k p ≤ maxMoney := by
  refine (sum_getBlockSubsidy_lt hI n).le.trans ?_
  calc 1000 * coinUnit * p.nSubsidyHalvingInterval ≤ 1000 * coinUnit * 1213000 :=
        mul_le_mul_of_nonneg_left hle (by decide)
    _ = maxMoney := rfl

end Schedule

/-- **The subsidy schedule is bounded**: the subsidies of the blocks up to any height add up to less
than 1000 coins for each block of an epoch, the subsidy never grows with the height, and if an epoch
has at most 1213000 blocks then all subsidies together are in the range of money. -/
theorem subsidy_schedule (p : Params) (hI : 0 < p.nSubsidyHalvingInterval) :
    (∀ h, ∑ k ∈ range (h + 1), getBlockSubsidy k p <
      1000 * coinUnit * p.nSubsidyHalvingInterval) ∧
    (Antitone fun h => getBlockSubsidy h p) ∧
    (p.nSubsidyHalvingInterval ≤ 1213000 →
      ∀ h, moneyRange (∑ k ∈ range (h + 1), getBlockSubsidy k p) = true) := by
  refine ⟨fun h => sum_getBlockSubsidy_lt hI _, fun a b hab => ?_, fun hle h => ?_⟩
  · simp only [getBlockSubsidy_eq hI]
    exact epochSubsidy_antitone (Nat.div_le_div_right hab)
  · exact moneyRange_iff.2 ⟨sum_nonneg fun k _ => (getBlockSubsidy_range k p).1,
      sum_getBlockSubsidy_le_maxMoney hI hle _⟩

/-- With the longest interval, after the first halving. -/
theorem subsidy_schedule_longest :
    moneyRange (∑ k ∈ range (1213000 + 1), getBlockSubsidy k wideLimit) = true ∧
      getBlockSubsidy 1213000 wideLimit ≤ getBlockSubsidy 1212999 wideLimit :=
  have h := subsidy_schedule wideLimit (by decide)
  ⟨h.2.2 (by decide) 1213000, h.2.1 (by decide)⟩

/-- **The supply stays in the range of money**, in every state of a chain with such an interval. -/
theorem supply_le_maxMoney {E : Env} (hI : 0 < E.params.nSubsidyHalvingInterval)
    (hle : E.params.nSubsidyHalvingInterval ≤ 1213000) {s : ChainState}
    (h : (chainLts E).Reachable s) : ∑ᶠ o, coinValue (s.coins.visible o) ≤ maxMoney := by
  calc ∑ᶠ o, coinValue (s.coins.visible o) ≤ subsidies E.params s.height := supply_le_subsidies h
    _ ≤ ∑ k ∈ range (s.height + 1), getBlockSubsidy k E.params := by
        rw [sum_range_succ']
        exact le_add_of_nonneg_right (getBlockSubsidy_range 0 E.params).1
    _ ≤ maxMoney := sum_getBlockSubsidy_le_maxMoney hI hle _

/-- The first block is connected. -/
theorem supply_le_maxMoney_first : ∃ s, (chainLts sampleEnv).Reachable s ∧ s.height = 1 ∧
    ∑ᶠ o, coinValue (s.coins.visible o) ≤ maxMoney := by
  obtain ⟨s, hreach, hheight, -⟩ := exists_reachable_firstBlock
  exact ⟨s, hreach, hheight, supply_le_maxMoney (by decide) (by decide) hreach⟩

end KPCoin.Validation
