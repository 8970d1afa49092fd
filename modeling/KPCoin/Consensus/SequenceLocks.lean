import KPCoin.Chain.MedianTime
import KPCoin.Consensus.TxVerify
import KPCoin.Pow.KeyEpoch

/-!
# Relative lock times

What `SequenceLocks` decides, as BIP 68 puts it: the locks of all inputs are satisfied.  The code
joins them into one last height and one last time at which the transaction is not yet valid;
`calculateSequenceLocks_lt_iff` undoes that.

* `sequenceLocks_iff` : `SequenceLocks` is true if and only if the rule is off for the transaction
  or the lock of every input is satisfied;
* `sequenceLocks_exact` : and once satisfied the locks stay so on every later block.
-/

namespace KPCoin.Consensus

open List KPCoin.Chain KPCoin.Pow Program

variable {tx : Transaction} {verifySequence : Bool} {prevHeights : List ℕ} {b : BlockIndex}
  {pprev c c' : Branch} {coinHeight : ℕ} {txin : TxIn}

/-- The rule applies to the transaction. -/
def EnforceBIP68 (tx : Transaction) (verifySequence : Bool) : Prop :=
  2 ≤ (BitVec.ofInt 32 tx.nVersion).toNat ∧ verifySequence = true

/-- The lock of an input whose coin is from `coinHeight` is satisfied in the block `b` on `pprev`.
-/
def LockSatisfied (b : BlockIndex) (pprev : Branch) (txin : TxIn) (coinHeight : ℕ) : Prop :=
  txin.disableFlag = false →
    if txin.typeFlag then
      getAncestor (max ((coinHeight : ℤ) - 1) 0) (b :: pprev) ≠ [] ∧
        getMedianTimePast (getAncestor (max ((coinHeight : ℤ) - 1) 0) (b :: pprev)) +
          512 * txin.lockTime ≤ getMedianTimePast pprev
    else coinHeight + txin.lockTime ≤ b.nHeight

theorem exists_ok_iff {r : ℤ × ℤ} {P : ℤ × ℤ → Prop} :
    (∃ r', (Except.ok r : Except Stop (ℤ × ℤ)) = .ok r' ∧ P r') ↔ P r :=
  ⟨fun ⟨_, heq, hP⟩ => Except.ok.inj heq ▸ hP, fun hP => ⟨r, rfl, hP⟩⟩

/-- An input lets the locks stay below a height and a time if its own lock is. -/
theorem lockStep_lt_iff {locks : ℤ × ℤ} :
    (∃ r, lockStep (b :: pprev) locks (txin, coinHeight) = .ok r ∧ r.1 < b.nHeight ∧
        r.2 < getMedianTimePast pprev) ↔
      (locks.1 < b.nHeight ∧ locks.2 < getMedianTimePast pprev) ∧
        LockSatisfied b pprev txin coinHeight := by
  unfold LockSatisfied
  cases hdis : txin.disableFlag with
  | true =>
    have hstep : lockStep (b :: pprev) locks (txin, coinHeight) = .ok locks := by
      simp [lockStep, hdis, pure, Except.pure]
    rw [hstep]
    simp
  | false =>
    cases htype : txin.typeFlag with
    | true =>
      set a := getAncestor (max (coinHeight - 1) 0) (b :: pprev) with ha
      have hshift : txin.lockTime <<< sequenceLocktimeGranularity = 512 * txin.lockTime := by
        rw [sequenceLocktimeGranularity, Nat.shiftLeft_eq, mul_comm]
      by_cases hnil : a = []
      · have hstep : lockStep (b :: pprev) locks (txin, coinHeight) = .error (.fault .abort) := by
          simp [lockStep, hdis, htype, ← ha, hnil, failIf]
        rw [hstep]
        simp [hnil]
      · have hstep : lockStep (b :: pprev) locks (txin, coinHeight) =
            .ok (locks.1, max locks.2 ((getMedianTimePast a) + (512 * txin.lockTime) - 1)) := by
          simp [lockStep, hdis, htype, ← ha, hnil, failIf, bind, Except.bind, hshift, pure,
            Except.pure]
        rw [hstep, exists_ok_iff]
        simp only [if_true, forall_const, ne_eq, hnil, not_false_eq_true, true_and]
        omega
    | false =>
      have hstep : lockStep (b :: pprev) locks (txin, coinHeight) =
          .ok (max locks.1 (coinHeight + txin.lockTime - 1), locks.2) := by
        simp [lockStep, hdis, htype, pure, Except.pure]
      rw [hstep, exists_ok_iff]
      simp only [Bool.false_eq_true, if_false, forall_const]
      omega

theorem foldlM_lockStep_lt_iff (inputs : List (TxIn × ℕ)) (locks : ℤ × ℤ) :
    (∃ r, inputs.foldlM (lockStep (b :: pprev)) locks = .ok r ∧ r.1 < b.nHeight ∧
        r.2 < getMedianTimePast pprev) ↔
      (locks.1 < b.nHeight ∧ locks.2 < getMedianTimePast pprev) ∧
        ∀ input ∈ inputs, LockSatisfied b pprev input.1 input.2 := by
  induction inputs generalizing locks with
  | nil =>
    simp only [foldlM_nil, pure, not_mem_nil, false_implies, implies_true, and_true]
    exact exists_ok_iff
  | cons input inputs ih =>
    rw [foldlM_cons, forall_mem_cons, ← and_assoc, ← lockStep_lt_iff]
    cases lockStep (b :: pprev) locks input with
    | error e => simp [bind, Except.bind]
    | ok r =>
      rw [exists_ok_iff]
      exact ih r

theorem calculateSequenceLocks_lt_iff :
    (∃ r, calculateSequenceLocks tx verifySequence prevHeights (b :: pprev) = .ok r ∧
        r.1 < b.nHeight ∧ r.2 < getMedianTimePast pprev) ↔
      prevHeights.length = tx.vin.length ∧ (EnforceBIP68 tx verifySequence →
        ∀ input ∈ tx.vin.zip prevHeights, LockSatisfied b pprev input.1 input.2) := by
  have hinit : ((-1 : ℤ) < b.nHeight ∧ (-1 : ℤ) < getMedianTimePast pprev) := by omega
  unfold calculateSequenceLocks EnforceBIP68
  by_cases hlen : prevHeights.length = tx.vin.length
  swap
  · simp [failIf, hlen, bind, Except.bind]
  have hpass : failIf (prevHeights.length != tx.vin.length) (Stop.fault .abort) = .ok () := by
    simp [failIf, hlen]
  rw [hpass, and_iff_right hlen]
  simp only [bind, Except.bind]
  by_cases henforce : 2 ≤ (BitVec.ofInt 32 tx.nVersion).toNat ∧ verifySequence = true
  · have hcond : (decide ((BitVec.ofInt 32 tx.nVersion).toNat ≥ 2) && verifySequence) = true := by
      simpa using henforce
    rw [if_pos hcond]
    refine (foldlM_lockStep_lt_iff (tx.vin.zip prevHeights) (-1, -1)).trans ?_
    simp only [hinit, henforce, true_and, forall_const, and_self]
  · have hcond : ¬ (decide ((BitVec.ofInt 32 tx.nVersion).toNat ≥ 2) && verifySequence) = true := by
      simpa using henforce
    rw [if_neg hcond]
    simp only [henforce, false_implies, iff_true]
    exact ⟨(-1, -1), rfl, hinit⟩

theorem sequenceLocks_iff (hparent : pprev ≠ []) :
    sequenceLocks tx verifySequence prevHeights (b :: pprev) = .ok true ↔
      prevHeights.length = tx.vin.length ∧ (EnforceBIP68 tx verifySequence →
        ∀ input ∈ tx.vin.zip prevHeights, LockSatisfied b pprev input.1 input.2) := by
  rw [← calculateSequenceLocks_lt_iff]
  obtain ⟨p, rest, rfl⟩ := exists_cons_of_ne_nil hparent
  unfold sequenceLocks
  cases calculateSequenceLocks tx verifySequence prevHeights (b :: p :: rest) with
  | error e => simp [bind, Except.bind]
  | ok r =>
    simp only [bind, Except.bind, evaluateSequenceLocks, Except.ok.injEq, Bool.not_eq_true',
      Bool.or_eq_false_iff, decide_eq_false_iff_not, not_le, ge_iff_le]
    constructor
    · intro hr
      exact ⟨r, rfl, hr⟩
    · rintro ⟨_, rfl, hr⟩
      exact hr

/-- A satisfied lock stays so on a later block. -/
theorem LockSatisfied.later {b' : BlockIndex} {pprev' : Branch} (hlink : Linked (b' :: pprev'))
    (htimes : TimesIncrease (b' :: pprev')) (hsuf : (b :: pprev) <:+ (b' :: pprev'))
    (h : LockSatisfied b pprev txin coinHeight) : LockSatisfied b' pprev' txin coinHeight := by
  have hpsuf : pprev <:+ pprev' := by
    rcases suffix_cons_iff.1 hsuf with heq | hsuf
    · rw [(cons.inj heq).2]
    · exact (suffix_cons b pprev).trans hsuf
  have hlink' := hlink.suffix hsuf
  have hheight : b.nHeight ≤ b'.nHeight := by
    rw [hlink.1, hlink'.1]
    exact hpsuf.length_le
  intro hdis
  have h := h hdis
  split_ifs with htype
  · rw [if_pos htype] at h
    -- The ancestor was found, so it is below `b` and the same one from the later block.
    have hsame : getAncestor (max (coinHeight - 1) 0) (b' :: pprev') =
        getAncestor (max (coinHeight - 1) 0) (b :: pprev) := by
      have hle : max (coinHeight - 1) 0 ≤ b.nHeight := by
        by_contra hgt
        exact h.1 (by rw [getAncestor, if_pos (.inl (by omega))])
      obtain ⟨k, hk⟩ := Int.eq_ofNat_of_zero_le (le_max_right ((coinHeight : ℤ) - 1) 0)
      obtain ⟨later, heq⟩ := hsuf
      have hlt : k < (b :: pprev).length := by
        rw [length_cons, ← hlink'.1]
        omega
      rw [hk, Pow.getAncestor_eq hlink' hlt, ← heq,
        Pow.getAncestor_eq (heq ▸ hlink) (by rw [length_append]; omega), length_append,
        show later.length + (b :: pprev).length - 1 - k =
          later.length + ((b :: pprev).length - 1 - k) by omega, drop_length_add_append]
    rw [hsame]
    exact ⟨h.1, h.2.trans (getMedianTimePast_mono htimes.2 hpsuf)⟩
  · rw [if_neg htype] at h
    omega

/-- **Relative lock times are those of BIP 68, and a transaction stays valid by them.** -/
theorem sequenceLocks_exact (tx : Transaction) (verifySequence : Bool) (prevHeights : List ℕ)
    (b : BlockIndex) (pprev : Branch) (hparent : pprev ≠ []) :
    (sequenceLocks tx verifySequence prevHeights (b :: pprev) = .ok true ↔
      prevHeights.length = tx.vin.length ∧
        (((BitVec.ofInt 32 tx.nVersion).toNat < 2 ∨ verifySequence = false) ∨
          ∀ input ∈ tx.vin.zip prevHeights, LockSatisfied b pprev input.1 input.2)) ∧
      ∀ b' pprev', Linked (b' :: pprev') → TimesIncrease (b' :: pprev') →
        (b :: pprev) <:+ (b' :: pprev') →
          sequenceLocks tx verifySequence prevHeights (b :: pprev) = .ok true →
            sequenceLocks tx verifySequence prevHeights (b' :: pprev') = .ok true := by
  refine ⟨?_, fun b' pprev' hlink htimes hsuf hlocks => ?_⟩
  · rw [sequenceLocks_iff hparent, EnforceBIP68, imp_iff_not_or, not_and_or, not_le,
      Bool.not_eq_true]
  · have hparent' : pprev' ≠ [] := by
      rintro rfl
      have := hsuf.length_le
      rw [length_cons, length_singleton] at this
      exact hparent (length_eq_zero_iff.1 (by omega))
    rw [sequenceLocks_iff hparent] at hlocks
    rw [sequenceLocks_iff hparent']
    refine hlocks.imp_right fun hlocks henforce input hinput => ?_
    exact (hlocks henforce input hinput).later hlink htimes hsuf

/-- One input, locked for five blocks. -/
def fiveBlocks : Transaction := { vin := [{ prevout := ⟨1, 0⟩, nSequence := 5 }], vout := [] }

/-- A coin of block 1 can be spent with it in block 6, and in block 7. -/
theorem sequenceLocks_fiveBlocks :
    sequenceLocks fiveBlocks true [1] (Pow.numberedChain 7) = .ok true ∧
      sequenceLocks fiveBlocks true [1] (Pow.numberedChain 8) = .ok true := by
  obtain ⟨hiff, hlater⟩ := sequenceLocks_exact fiveBlocks true [1] _ _
    (cons_ne_nil _ (Pow.numberedChain 5))
  have hlocks : sequenceLocks fiveBlocks true [1] (Pow.numberedChain 7) = .ok true := by
    refine hiff.2 ⟨rfl, .inr fun input hinput => ?_⟩
    rw [mem_singleton.1 hinput]
    exact fun _ => by decide
  have htimes : TimesIncrease (Pow.numberedChain 8) := by
    simp only [TimesIncrease, Pow.numberedChain, ne_eq, reduceCtorEq, not_false_eq_true,
      forall_const, getMedianTimePast_lt_iff (cons_ne_nil _ _)]
    decide
  exact ⟨hlocks, hlater _ _ (Pow.linked_numberedChain 8).1 htimes (suffix_cons _ _) hlocks⟩

end KPCoin.Consensus
