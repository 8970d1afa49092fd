import KPCoin.Chain.Index
import KPCoin.Coins.Visible
import KPCoin.Consensus.TxCheck

/-!
# Transaction checks against the coins

`consensus/tx_verify.cpp`: relative lock times, signature operation counts, and `CheckTxInputs`,
which adds up the inputs of a transaction and computes its fee.  All of them only read the view.

`wp_checkTxInputs` is the contract of `CheckTxInputs`: every input is there, the fee is what the
inputs exceed the outputs by, and no sum overflows if every coin has a valid value.
-/

namespace KPCoin

open Program Coins Chain

/-- Block validation: programs on the coins cache that may find the block invalid. -/
abbrev BlockM := EStateM Stop CacheView

/-- The bit `CTxIn::SEQUENCE_LOCKTIME_DISABLE_FLAG`. -/
def TxIn.disableFlag (t : TxIn) : Bool := t.nSequence.testBit 31

/-- The bit `CTxIn::SEQUENCE_LOCKTIME_TYPE_FLAG`. -/
def TxIn.typeFlag (t : TxIn) : Bool := t.nSequence.testBit 22

/-- The bits under `CTxIn::SEQUENCE_LOCKTIME_MASK`. -/
def TxIn.lockTime (t : TxIn) : ℕ := t.nSequence % 2 ^ 16

namespace Consensus

variable (T : TxFns)

/-- `CTxIn::SEQUENCE_LOCKTIME_GRANULARITY`. -/
def sequenceLocktimeGranularity : ℕ := 9

/-- One input in the loop of `CalculateSequenceLocks`.  A height is an `int`; so is the sum with the
lock for heights below `2 ^ 31 - 2 ^ 16`. -/
def lockStep (block : Branch) (locks : ℤ × ℤ) (input : TxIn × ℕ) : Except Stop (ℤ × ℤ) := do
  if input.1.disableFlag then return (locks.1, locks.2)
  else if input.1.typeFlag then
    let ancestor := getAncestor (max ((input.2 : ℤ) - 1) 0) block
    failIf ancestor.isEmpty (.fault .abort)
    let nCoinTime : ℤ := getMedianTimePast ancestor
    let lock : ℕ := input.1.lockTime <<< sequenceLocktimeGranularity
    return (locks.1, max locks.2 (nCoinTime + lock - 1))
  else return (max locks.1 (input.2 + input.1.lockTime - 1), locks.2)

/-- `CalculateSequenceLocks`: the last height and time at which the transaction is not yet valid.
`block` is the block the transaction is to be in. -/
def calculateSequenceLocks (tx : Transaction) (verifySequence : Bool) (prevHeights : List ℕ)
    (block : Branch) : Except Stop (ℤ × ℤ) := do
  failIf (prevHeights.length != tx.vin.length) (.fault .abort)
  if (BitVec.ofInt 32 tx.nVersion).toNat ≥ 2 && verifySequence then
    (tx.vin.zip prevHeights).foldlM (lockStep block) (-1, -1)
  else return (-1, -1)

/-- `EvaluateSequenceLocks`. -/
def evaluateSequenceLocks (block : Branch) (lockPair : ℤ × ℤ) : Except Stop Bool :=
  match block with
  | [] | [_] => .error (.fault .abort)
  | b :: pprev =>
    .ok (!(decide (lockPair.1 ≥ b.nHeight) || decide (lockPair.2 ≥ getMedianTimePast pprev)))

/-- `SequenceLocks`. -/
def sequenceLocks (tx : Transaction) (verifySequence : Bool) (prevHeights : List ℕ)
    (block : Branch) : Except Stop Bool := do
  evaluateSequenceLocks block (← calculateSequenceLocks tx verifySequence prevHeights block)

/-- `GetLegacySigOpCount`. -/
def getLegacySigOpCount (tx : Transaction) : ℕ :=
  (tx.vin.map fun t => T.getSigOpCount t.scriptSig).sum +
    (tx.vout.map fun t => T.getSigOpCount t.scriptPubKey).sum

/-- `AccessCoin` of an input that must be there. -/
def accessInput (txin : TxIn) : BlockM Coin := do
  let coin ← mapError .fault (CacheView.accessCoin T.toScriptFns txin.prevout)
  rejectIf coin.isSpent (.fault .abort)
  return coin

/-- `GetP2SHSigOpCount`. -/
def getP2SHSigOpCount (tx : Transaction) : BlockM ℕ :=
  if T.isCoinBase tx then return 0
  else tx.vin.foldlM (fun nSigOps txin => do
    let coin ← accessInput T txin
    if T.isPayToScriptHash coin.out.scriptPubKey then
      return nSigOps + T.getP2SHSigOpCount coin.out.scriptPubKey txin.scriptSig
    else return nSigOps) 0

/-- `GetTransactionSigOpCost`. -/
def getTransactionSigOpCost (tx : Transaction) (flags : List ScriptFlag) : BlockM ℕ := do
  let nSigOps := getLegacySigOpCount T tx * witnessScaleFactor
  if T.isCoinBase tx then return nSigOps
  else
    let p2sh ← if .p2sh ∈ flags then getP2SHSigOpCount T tx else pure 0
    tx.vin.foldlM (fun nSigOps txin => do
      let coin ← accessInput T txin
      return nSigOps + T.countWitnessSigOps txin.scriptSig coin.out.scriptPubKey
        txin.scriptWitness flags) (nSigOps + p2sh * witnessScaleFactor)

/-- `HaveInputs`. -/
def haveInputs (tx : Transaction) : ViewM Bool :=
  if T.isCoinBase tx then return true
  else CacheView.haveInputs T.toScriptFns (tx.vin.map TxIn.prevout)

/-- The body of the loop of `CheckTxInputs`. -/
def checkTxInput (nSpendHeight : ℕ) (nValueIn : ℤ) (txin : TxIn) : BlockM ℤ := do
  let coin ← accessInput T txin
  rejectIf (coin.fCoinBase && decide ((nSpendHeight : ℤ) - coin.nHeight < coinbaseMaturity))
    (.invalidTx .prematureSpend "bad-txns-premature-spend-of-coinbase")
  let nValueIn ← ofExcept (addAmount nValueIn coin.out.nValue)
  rejectIf (!moneyRange coin.out.nValue || !moneyRange nValueIn)
    (.invalidTx .consensus "bad-txns-inputvalues-outofrange")
  return nValueIn

/-- `CheckTxInputs`: the fee. -/
def checkTxInputs (tx : Transaction) (nSpendHeight : ℕ) : BlockM ℤ := do
  let available ← mapError .fault (haveInputs T tx)
  rejectIf (!available) (.invalidTx .missingInputs "bad-txns-inputs-missingorspent")
  let nValueIn ← tx.vin.foldlM (checkTxInput T nSpendHeight) 0
  let valueOut := T.getValueOut tx
  rejectIf (decide (nValueIn < valueOut)) (.invalidTx .consensus "bad-txns-in-belowout")
  let txfee ← ofExcept (addAmount nValueIn (-valueOut))
  rejectIf (!moneyRange txfee) (.invalidTx .consensus "bad-txns-fee-outofrange")
  return txfee

section

variable {α β : Type} {v : CacheView} {T} {f : α → BlockM β} {nSpendHeight : ℕ} {m : BlockM α}
  {l : List α} (tx : Transaction)

/-- The program only reads the view, and none of its sums overflows. -/
def ReadsOnly (m : BlockM α) : Prop := ∀ v, wp m (fun _ v' => v.Fill v') (· ≠ .overflow) v

namespace ReadsOnly

theorem wp {Q : α → CacheView → Prop} {E : Stop → Prop} (h : ReadsOnly m)
    (hE : ∀ e, e ≠ .overflow → E e) (hQ : ∀ a v', v.Fill v' → Q a v') : wp m Q E v :=
  (h v).mono hQ hE

theorem pure (a : α) : ReadsOnly (pure a) := .refl

theorem bind (hm : ReadsOnly m) (hf : ∀ a, ReadsOnly (f a)) : ReadsOnly (m >>= f) := by
  intro v
  rw [wp_bind]
  exact hm.wp (fun _ => id) fun a v1 h1 => (hf a).wp (fun _ => id) fun _ _ h2 => h1.trans h2

theorem rejectIf {c : Bool} {e : Stop} (he : e ≠ .overflow) : ReadsOnly (rejectIf c e) := by
  intro v
  simp [he, CacheView.Fill.refl]

theorem ofExcept {x : Except Stop α} (h : Program.ensures x (fun _ => True) (· ≠ .overflow)) :
    ReadsOnly (ofExcept x) := by
  intro v
  rw [wp_ofExcept]
  exact h.mono (fun _ _ => .refl v) fun _ => id

theorem foldlM {f : β → α → BlockM β} {b : β} (hf : ∀ b x, ReadsOnly (f b x)) :
    ReadsOnly (l.foldlM f b) := fun v =>
  wp_foldlM (fun _ _ v' => v.Fill v') (.refl v) fun _ x _ b _ _ h =>
    (hf b x).wp (fun _ => id) fun _ _ h' => h.trans h'

theorem mapM (hf : ∀ x, ReadsOnly (f x)) : ReadsOnly (l.mapM f) := fun v =>
  wp_mapM (fun _ _ v' => v.Fill v') (.refl v) fun _ x _ _ _ _ h =>
    (hf x).wp (fun _ => id) fun _ _ h' => h.trans h'

end ReadsOnly

theorem accessInput_readsOnly (txin : TxIn) : ReadsOnly (accessInput T txin) := by
  refine .bind (fun v => ?_) fun coin => .bind (.rejectIf (by simp)) .pure
  rw [wp_mapError]
  exact CacheView.wp_accessCoin fun _ _ h _ => h

theorem getTransactionSigOpCost_readsOnly (flags : List ScriptFlag) :
    ReadsOnly (getTransactionSigOpCost T tx flags) := by
  have hp2sh : ReadsOnly (getP2SHSigOpCount T tx) := by
    unfold getP2SHSigOpCount
    split_ifs
    · exact .pure _
    · refine .foldlM fun n txin => .bind (accessInput_readsOnly txin) fun coin => ?_
      split_ifs <;> exact .pure _
  unfold getTransactionSigOpCost
  split_ifs
  · exact .pure _
  · exact .bind hp2sh fun _ => .foldlM fun n txin => .bind (accessInput_readsOnly txin) .pure
  · exact .bind (.pure 0) fun _ => .foldlM fun n txin =>
      .bind (accessInput_readsOnly txin) .pure

theorem sequenceLocks_readsOnly (verifySequence : Bool) (prevHeights : List ℕ) (block : Branch) :
    ReadsOnly (ofExcept (sequenceLocks tx verifySequence prevHeights block)) := by
  refine .ofExcept ?_
  have hcalc : Program.ensures (calculateSequenceLocks tx verifySequence prevHeights block)
      (fun _ => True) (· ≠ .overflow) := by
    rw [calculateSequenceLocks, ensures_bind, ensures_failIf]
    refine ⟨by simp, fun _ => ?_⟩
    split_ifs
    · refine ensures_foldlM trivial fun _ _ _ _ => ?_
      unfold lockStep
      split_ifs
      · trivial
      · rw [ensures_bind, ensures_failIf]
        exact ⟨by simp, fun _ => trivial⟩
      · trivial
    · trivial
  rw [sequenceLocks, ensures_bind]
  refine hcalc.mono (fun lock _ => ?_) fun _ => id
  rcases block with _ | ⟨-, _ | ⟨-, -⟩⟩ <;> simp [evaluateSequenceLocks]

/-- The value of a coin, if there is one. -/
def coinValue (c : Option Coin) : ℤ := c.elim 0 fun coin => coin.out.nValue

/-- Every coin has a valid value. -/
def ValuesInRange (m : CoinMap) : Prop :=
  ∀ o coin, m o = some coin → moneyRange coin.out.nValue = true

theorem wp_haveInputs (os : List OutPoint) :
    wp (CacheView.haveInputs T.toScriptFns os)
      (fun r v' => v.Fill v' ∧ (r = true → ∀ o ∈ os, (v.visible o).isSome = true))
      (fun _ => False) v := by
  induction os generalizing v with
  | nil => exact ⟨.refl v, by simp⟩
  | cons o os ih =>
    simp only [CacheView.haveInputs, wp_bind]
    refine CacheView.wp_haveCoin fun v1 h1 => ?_
    cases ho : (v.visible o).isSome with
    | false => exact ⟨h1, by simp⟩
    | true =>
      refine ih.mono ?_ fun _ => id
      rintro r v2 ⟨h2, hr⟩
      refine ⟨h1.trans h2, fun hrt => ?_⟩
      rw [h1.visible] at hr
      simpa [ho] using hr hrt

/-- What the loop of `CheckTxInputs` has established for the inputs done so far. -/
structure InputsCounted (m : CoinMap) (done : List TxIn) (nValueIn : ℤ) : Prop where
  available : ∀ t ∈ done, (m t.prevout).isSome = true
  total : nValueIn = (done.map fun t => coinValue (m t.prevout)).sum
  range : moneyRange nValueIn = true

theorem wp_checkTxInput {nValueIn : ℤ} {txin : TxIn} {done : List TxIn}
    (h : InputsCounted v.visible done nValueIn) :
    wp (checkTxInput T nSpendHeight nValueIn txin)
      (fun n v' => v.Fill v' ∧ InputsCounted v.visible (done ++ [txin]) n)
      (fun e => ValuesInRange v.visible → e ≠ .overflow) v := by
  simp only [checkTxInput, accessInput, wp_bind, wp_mapError, wp_rejectIf, wp_pure]
  refine CacheView.wp_accessCoin fun coin v' hf hc => ⟨by simp, fun hs => ⟨by simp, fun _ => ?_⟩⟩
  have hvis : v.visible txin.prevout = some coin := by
    rw [← hc, Coin.unspent_of_not_isSpent hs]
  rw [wp_ofExcept]
  unfold addAmount
  split_ifs with h64
  · rw [ensures_ok]
    refine ⟨by simp, fun hr => ⟨hf, ?_, ?_, ?_⟩⟩
    · simpa [or_imp, forall_and, hvis] using h.available
    · simp [h.total, coinValue, hvis]
    · simp only [Bool.or_eq_false_iff, Bool.not_eq_false'] at hr
      exact hr.2
  · exact fun hval => absurd (inInt64_add h.range (hval _ coin hvis)) h64

theorem wp_checkTxInputs {tx : Transaction} (htx : TxChecked tx) (hcb : T.isCoinBase tx = false) :
    wp (checkTxInputs T tx nSpendHeight)
      (fun fee v' => v.Fill v' ∧ (∀ t ∈ tx.vin, (v.visible t.prevout).isSome = true) ∧
        fee = (tx.vin.map fun t => coinValue (v.visible t.prevout)).sum -
          (tx.vout.map TxOut.nValue).sum ∧ moneyRange fee = true)
      (fun e => ValuesInRange v.visible → e ≠ .overflow) v := by
  simp only [checkTxInputs, haveInputs, hcb, Bool.false_eq_true, ↓reduceIte, wp_bind,
    wp_mapError, wp_rejectIf]
  refine (wp_haveInputs _).mono (fun r v1 h => ⟨by simp, fun _ => ?_⟩) (by simp)
  have hloop := wp_foldlM (l := tx.vin) (f := checkTxInput T nSpendHeight)
    (E := fun e => ValuesInRange v.visible → e ≠ .overflow)
    (fun done n v' => v.Fill v' ∧ InputsCounted v.visible done n) ⟨h.1, by simp, rfl, rfl⟩ ?_
  · refine hloop.mono ?_ fun _ => id
    rintro n v2 ⟨h2, hn⟩
    refine ⟨by simp, fun hlt => ?_⟩
    rw [T.getValueOut_eq tx htx.vout_range htx.total_range] at hlt ⊢
    have hout := moneyRange_iff.1 htx.total_range
    have hin := moneyRange_iff.1 hn.range
    have hmax : maxMoney = 121300000000000000 := rfl
    rw [addAmount_of_inInt64 (by constructor <;> omega)]
    refine ⟨by simp, fun hr => ⟨h2, hn.available, ?_, by simpa using hr⟩⟩
    rw [← hn.total]
    ring
  · rintro done txin rest n v' - ⟨hv', hn⟩
    rw [← hv'.visible] at hn ⊢
    exact (wp_checkTxInput hn).mono (fun n v'' => And.imp_left hv'.trans) fun _ => id

end

end Consensus

end KPCoin
