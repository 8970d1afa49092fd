import KPCoin.Pow.Limbs

/-!
# The work of blocks and chains

`GetBlockProof` of `chain.cpp` is the expected number of hashes: 2²⁵⁶ divided by the number of
hashes that do not meet the target, which the code reaches without leaving 256 bits.

* `toNat_getBlockProof` : the quotient is exact, for every compact target without a flag;
* `getBlockProof_eq_loops` : it is what the division loop of `base_uint` gives, which is never asked
  to divide by zero;
* `chainWork_exact` : the work of a chain of blocks that pass `CheckProofOfWork` grows with every
  block, as long as the sum fits.
-/

namespace KPCoin.Pow

open Chain

variable {n : Compact}

/-- The target can be used: it is not zero and no flag is raised. -/
def Usable (n : Compact) : Prop :=
  (setCompact n).negative = false ∧ (setCompact n).overflow = false ∧ (setCompact n).value ≠ 0

instance : Decidable (Usable n) := inferInstanceAs (Decidable (_ ∧ _ ∧ _))

theorem getBlockProof_eq_ite (n : Compact) : getBlockProof n =
    if Usable n then ~~~(setCompact n).value / ((setCompact n).value + 1) + 1 else 0 := by
  by_cases h : Usable n
  · have hflag : ((setCompact n).negative || (setCompact n).overflow ||
        (setCompact n).value == 0) = false := by
      rw [h.1, h.2.1, beq_eq_false_iff_ne.2 h.2.2]
      rfl
    rw [if_pos h, getBlockProof]
    simp only [hflag, Bool.false_eq_true, if_false]
  · have hflag : ((setCompact n).negative || (setCompact n).overflow ||
        (setCompact n).value == 0) = true := by
      by_contra hnone
      simp only [Bool.or_eq_true, beq_iff_eq, not_or, Bool.not_eq_true] at hnone
      exact h ⟨hnone.1.1, hnone.1.2, hnone.2⟩
    rw [if_neg h, getBlockProof]
    simp only [hflag, if_true]

/-- There is a number above every target: at most 23 digits stand before the zeros. -/
theorem toNat_setCompact_add_one_lt (n : Compact) : (setCompact n).value.toNat + 1 < 2 ^ 256 := by
  obtain ⟨word, k, hword, hval⟩ := value_setCompact n
  by_contra hge
  cases k with
  | zero => omega
  | succ k =>
    have heven : 2 ∣ word * 2 ^ (8 * (k + 1)) := (dvd_pow_self 2 (by omega)).mul_left word
    omega

theorem toNat_setCompact_add_one (n : Compact) :
    ((setCompact n).value + 1).toNat = (setCompact n).value.toNat + 1 := by
  exact Nat.mod_eq_of_lt (toNat_setCompact_add_one_lt n)

/-- **The proof of a block is the expected number of hashes.** -/
theorem toNat_getBlockProof (h : Usable n) :
    (getBlockProof n).toNat = 2 ^ 256 / ((setCompact n).value.toNat + 1) := by
  have hpos : 0 < (setCompact n).value.toNat :=
    pos_of_ne_zero fun hz => h.2.2 (BitVec.eq_of_toNat_eq hz)
  rw [getBlockProof_eq_ite, if_pos h, BitVec.toNat_add, BitVec.toNat_udiv, BitVec.toNat_not,
    toNat_setCompact_add_one]
  set t := (setCompact n).value.toNat
  have hquot : (2 ^ 256 - 1 - t) / (t + 1) + 1 = 2 ^ 256 / (t + 1) := by
    rw [← Nat.add_div_right _ (Nat.succ_pos t)]
    congr 1
    omega
  have hsmall : 2 ^ 256 / (t + 1) ≤ 2 ^ 256 / 2 := Nat.div_le_div_left (by omega) (by decide)
  rw [show (1 : BitVec 256).toNat = 1 from rfl, hquot]
  exact Nat.mod_eq_of_lt (hsmall.trans_lt (by decide))

theorem getBlockProof_eq_loops (h : Usable n) :
    (divide (~~~(setCompact n).value) ((setCompact n).value + 1)).map (· + 1) =
      some (getBlockProof n) := by
  have hne : (setCompact n).value + 1 ≠ 0 := by
    intro hzero
    have hnat := congrArg BitVec.toNat hzero
    rw [toNat_setCompact_add_one] at hnat
    exact Nat.succ_ne_zero _ hnat
  rw [divide_eq, if_neg hne, getBlockProof_eq_ite, if_pos h]
  rfl

theorem getBlockProof_pos (h : Usable n) : 0 < (getBlockProof n).toNat := by
  rw [toNat_getBlockProof h]
  exact Nat.div_pos (toNat_setCompact_add_one_lt n).le (Nat.succ_pos _)

theorem usable_of_checkProofOfWork {p : Params} {hash : Uint256}
    (h : checkProofOfWork p hash n = true) : Usable n := by
  unfold checkProofOfWork at h
  unfold Usable
  generalize setCompact n = t at h ⊢
  dsimp only at h
  split_ifs at h with hflag
  simp only [Bool.or_eq_true, beq_iff_eq, not_or, Bool.not_eq_true] at hflag
  exact ⟨hflag.1.1.1, hflag.1.2, hflag.1.1.2⟩

/-- `nChainWork` of the head of a branch: the sum of the proofs, in 256 bits. -/
def chainWork : Branch → Arith
  | [] => 0
  | b :: pprev => chainWork pprev + getBlockProof b.nBits

/-- The sum of the proofs, as a number. -/
def workSum (c : Branch) : ℕ := (c.map fun b => (getBlockProof b.nBits).toNat).sum

theorem toNat_chainWork {c : Branch} (h : workSum c < 2 ^ 256) :
    (chainWork c).toNat = workSum c := by
  induction c with
  | nil => rfl
  | cons b c ih =>
    have hsum : workSum (b :: c) = (getBlockProof b.nBits).toNat + workSum c := by
      rw [workSum, List.map_cons, List.sum_cons, workSum]
    rw [chainWork, BitVec.toNat_add, ih (by omega), add_comm]
    exact Nat.mod_eq_of_lt (hsum ▸ h)

theorem workSum_append (c c' : Branch) : workSum (c ++ c') = workSum c + workSum c' := by
  simp [workSum]

/-- **The work of a block is exact, and the work of a chain grows with every block.** -/
theorem chainWork_exact (p : Params) :
    (∀ n : Compact,
      (Usable n → (getBlockProof n).toNat = 2 ^ 256 / ((setCompact n).value.toNat + 1) ∧
        (divide (~~~(setCompact n).value) ((setCompact n).value + 1)).map (· + 1) =
          some (getBlockProof n)) ∧
      (¬ Usable n → getBlockProof n = 0)) ∧
      ∀ c c' : Branch, (∀ b ∈ c, checkProofOfWork p b.hash b.nBits = true) →
        workSum c < 2 ^ 256 → c' <:+ c → c' ≠ c → chainWork c' < chainWork c := by
  refine ⟨fun n => ⟨fun h => ⟨toNat_getBlockProof h, getBlockProof_eq_loops h⟩, fun h => ?_⟩,
    fun c c' hpow hsum hsuf hne => ?_⟩
  · rw [getBlockProof_eq_ite, if_neg h]
  · obtain ⟨later, rfl⟩ := hsuf
    rw [workSum_append] at hsum
    rw [BitVec.lt_def, toNat_chainWork (by omega), toNat_chainWork (by rwa [workSum_append]),
      workSum_append]
    cases later with
    | nil => exact absurd rfl hne
    | cons b later =>
      have hpos := getBlockProof_pos (usable_of_checkProofOfWork (hpow b List.mem_cons_self))
      have hle : (getBlockProof b.nBits).toNat ≤ workSum (b :: later) := by
        exact Nat.le_add_right _ _
      omega

/-- A block with the easiest target. -/
def easyBlock (height : ℕ) : BlockIndex := blockAt height 0 0x207fffff

theorem chainWork_easyBlocks : workSum [easyBlock 1, easyBlock 0] = 4 ∧
    chainWork [easyBlock 0] < chainWork [easyBlock 1, easyBlock 0] := by
  have hsum : workSum [easyBlock 1, easyBlock 0] = 4 := by decide +kernel
  refine ⟨hsum, (chainWork_exact wideLimit).2 _ _ ?_ (by rw [hsum]; decide)
    (List.suffix_cons _ _) (by simp)⟩
  decide +kernel

end KPCoin.Pow
