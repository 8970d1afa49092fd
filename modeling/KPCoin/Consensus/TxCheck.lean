import KPCoin.Consensus.External
import KPCoin.Coins.View
import KPCoin.Program.Wp

/-!
# Context-free transaction checks

`CheckTransaction` (`consensus/tx_check.cpp`).  Sums of amounts are formed by `addAmount`, which
stops with `Stop.overflow` where the 64-bit addition of the source would overflow.

`checkTransaction_spec` says what a transaction that passes looks like, and that no sum overflows,
whatever the transaction.
-/

namespace KPCoin

open Program

/-- `TxValidationResult`, as far as the modelled checks set it. -/
inductive TxResult
  | consensus
  | missingInputs
  | prematureSpend
  deriving DecidableEq, Repr

/-- `BlockValidationResult`. -/
inductive BlockResult
  | consensus
  | cachedInvalid
  | invalidHeader
  | mutated
  | missingPrev
  | invalidPrev
  | timeFuture
  | checkpoint
  | headerLowWork
  deriving DecidableEq, Repr

/-- How validation stops early. -/
inductive Stop
  /-- A `TxValidationState` became invalid, with this reject reason. -/
  | invalidTx (result : TxResult) (reason : String)
  /-- A `BlockValidationState` became invalid, with this reject reason. -/
  | invalidBlock (result : BlockResult) (reason : String)
  /-- A run-time error. -/
  | error (message : String)
  /-- An assertion failed or an exception was thrown. -/
  | fault (f : Coins.Fault)
  /-- The sum of two amounts left the range of `int64_t`. -/
  | overflow
  deriving DecidableEq, Repr

/-- The range of `int64_t`. -/
def inInt64 (x : ℤ) : Prop := -2 ^ 63 ≤ x ∧ x < 2 ^ 63

instance (x : ℤ) : Decidable (inInt64 x) := inferInstanceAs (Decidable (_ ∧ _))

/-- An addition of two `CAmount`s. -/
def addAmount (a b : ℤ) : Except Stop ℤ :=
  if inInt64 (a + b) then .ok (a + b) else .error .overflow

theorem addAmount_of_inInt64 {a b : ℤ} (h : inInt64 (a + b)) : addAmount a b = .ok (a + b) :=
  if_pos h

theorem inInt64_add {a b : ℤ} (ha : moneyRange a = true) (hb : moneyRange b = true) :
    inInt64 (a + b) := by
  rw [moneyRange_iff] at ha hb
  have : maxMoney = 121300000000000000 := rfl
  constructor <;> omega

namespace Consensus

open Program

variable (T : TxFns)

/-- The loop of `CheckTransaction` over the outputs, from the running total on. -/
def checkOutputs (nValueOut : ℤ) : List TxOut → Except Stop ℤ
  | [] => .ok nValueOut
  | t :: rest => do
    failIf (t.nValue < 0) (.invalidTx .consensus "bad-txns-vout-negative")
    failIf (t.nValue > maxMoney) (.invalidTx .consensus "bad-txns-vout-toolarge")
    let nValueOut ← addAmount nValueOut t.nValue
    failIf (!moneyRange nValueOut) (.invalidTx .consensus "bad-txns-txouttotal-toolarge")
    checkOutputs nValueOut rest

/-- The loop of `CheckTransaction` that collects the outpoints in a set. -/
def checkDuplicateInputs (vInOutPoints : List OutPoint) : List TxIn → Except Stop Unit
  | [] => .ok ()
  | t :: rest => do
    failIf (t.prevout ∈ vInOutPoints) (.invalidTx .consensus "bad-txns-inputs-duplicate")
    checkDuplicateInputs (t.prevout :: vInOutPoints) rest

/-- The last checks of `CheckTransaction`: a coinbase has a short script, the others spend real
outputs. -/
def checkInputs (tx : Transaction) : Except Stop Unit :=
  if T.isCoinBase tx then
    let size := (tx.vin.head?.elim [] TxIn.scriptSig).length
    failIf (size < 2 || size > 100) (.invalidTx .consensus "bad-cb-length")
  else
    failIf (tx.vin.any fun t => t.prevout.isNull) (.invalidTx .consensus "bad-txns-prevout-null")

/-- `CheckTransaction`. -/
def checkTransaction (tx : Transaction) : Except Stop Unit := do
  failIf tx.vin.isEmpty (.invalidTx .consensus "bad-txns-vin-empty")
  failIf tx.vout.isEmpty (.invalidTx .consensus "bad-txns-vout-empty")
  failIf (T.serializeSize tx * witnessScaleFactor > maxBlockWeight)
    (.invalidTx .consensus "bad-txns-oversize")
  let _ ← checkOutputs 0 tx.vout
  checkDuplicateInputs [] tx.vin
  checkInputs T tx

/-- What `CheckTransaction` guarantees to the checks after it. -/
structure TxChecked (tx : Transaction) : Prop where
  vin_ne_nil : tx.vin ≠ []
  vout_range : ∀ t ∈ tx.vout, moneyRange t.nValue = true
  total_range : moneyRange (tx.vout.map TxOut.nValue).sum = true
  prevouts_nodup : (tx.vin.map TxIn.prevout).Nodup

theorem checkOutputs_spec {n : ℤ} (l : List TxOut) (h : moneyRange n = true) :
    ensures (checkOutputs n l)
      (fun r => (∀ t ∈ l, moneyRange t.nValue = true) ∧ r = n + (l.map TxOut.nValue).sum ∧
        moneyRange r = true) (· ≠ .overflow) := by
  induction l generalizing n with
  | nil => simp [checkOutputs, h]
  | cons t rest ih =>
    simp only [checkOutputs, ensures_bind, ensures_failIf, decide_eq_true_eq,
      decide_eq_false_iff_not, not_lt]
    refine ⟨fun _ => by simp, fun h0 => ⟨fun _ => by simp, fun h1 => ?_⟩⟩
    have ht : moneyRange t.nValue = true := moneyRange_iff.2 ⟨h0, h1⟩
    rw [addAmount_of_inInt64 (inInt64_add h ht)]
    refine ⟨fun _ => by simp, fun hr => (ih (by simpa using hr)).mono ?_ fun _ => id⟩
    rintro r ⟨hrest, rfl, hr⟩
    refine ⟨?_, by simp [add_assoc], hr⟩
    simpa using ⟨ht, hrest⟩

theorem checkDuplicateInputs_spec (seen : List OutPoint) (l : List TxIn) :
    ensures (checkDuplicateInputs seen l)
      (fun _ => (l.map TxIn.prevout).Nodup ∧ ∀ t ∈ l, t.prevout ∉ seen) (· ≠ .overflow) := by
  induction l generalizing seen with
  | nil => simp [checkDuplicateInputs]
  | cons t rest ih =>
    simp only [checkDuplicateInputs, ensures_bind, ensures_failIf,
      decide_eq_true_eq, decide_eq_false_iff_not]
    refine ⟨fun _ => by simp, fun hs => (ih _).mono ?_ fun _ => id⟩
    rintro - ⟨hnd, hns⟩
    refine ⟨List.nodup_cons.2 ⟨?_, hnd⟩, ?_⟩
    · intro hm
      obtain ⟨u, hu, heq⟩ := List.mem_map.1 hm
      exact hns u hu (by simp [heq])
    · intro u hu
      obtain rfl | hu := List.mem_cons.1 hu
      · exact hs
      · exact fun hm => hns u hu (by simp [hm])

/-- `CheckTransaction` guarantees `TxChecked`, and none of its sums overflows. -/
theorem checkTransaction_spec (tx : Transaction) :
    ensures (checkTransaction T tx) (fun _ => TxChecked tx) (· ≠ .overflow) := by
  simp only [checkTransaction, ensures_bind, ensures_failIf]
  refine ⟨fun _ => by simp, fun hin => ⟨fun _ => by simp, fun _ => ⟨fun _ => by simp, fun _ => ?_⟩⟩⟩
  refine (checkOutputs_spec tx.vout (by decide)).mono ?_ fun _ => id
  rintro r ⟨hvout, rfl, hr⟩
  refine (checkDuplicateInputs_spec [] tx.vin).mono ?_ fun _ => id
  rintro - ⟨hnd, -⟩
  have hchecked : TxChecked tx := ⟨by simpa using hin, hvout, by simpa using hr, hnd⟩
  unfold checkInputs
  split_ifs <;> simp [hchecked]

end Consensus

end KPCoin
