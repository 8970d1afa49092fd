import KPCoin.Consensus.Params

/-!
# What validation calls outside the tree

`primitives/`, `script/` and the hash functions are not part of the tree.  `TxFns` has one field
for each function of theirs that transaction and block validation calls.  The only thing assumed
is that `GetValueOut` adds up the outputs when that sum is in range.
-/

namespace KPCoin

/-- The functions on transactions and scripts that validation calls. -/
structure TxFns extends ScriptFns where
  /-- `CTransaction::GetHash`. -/
  getHash : Transaction → Uint256
  /-- `CTransaction::IsCoinBase`. -/
  isCoinBase : Transaction → Bool
  /-- `GetSerializeSize(TX_NO_WITNESS(tx))`. -/
  serializeSize : Transaction → ℕ
  /-- `CTransaction::GetValueOut`. -/
  getValueOut : Transaction → ℤ
  getValueOut_eq : ∀ tx : Transaction, (∀ t ∈ tx.vout, moneyRange t.nValue = true) →
    moneyRange (tx.vout.map TxOut.nValue).sum = true →
      getValueOut tx = (tx.vout.map TxOut.nValue).sum
  /-- `CScript::GetSigOpCount(false)`. -/
  getSigOpCount : Script → ℕ
  /-- `CScript::IsPayToScriptHash`. -/
  isPayToScriptHash : Script → Bool
  /-- `CScript::GetSigOpCount(scriptSig)`. -/
  getP2SHSigOpCount : (scriptPubKey scriptSig : Script) → ℕ
  /-- `CountWitnessSigOps`. -/
  countWitnessSigOps : (scriptSig scriptPubKey : Script) → List Script → List ScriptFlag → ℕ
  /-- The script execution cache holds this transaction under these flags. -/
  scriptExecutionCached : Transaction → List ScriptFlag → Bool
  /-- `CScriptCheck` of one input: the reject reason if it fails. -/
  scriptCheck : Transaction → ℕ → TxOut → List ScriptFlag → Option String
  /-- The 64-byte pair hash `SHA256D64`. -/
  sha256D64 : Uint256 → Uint256 → Uint256

/-- Simple functions, for concrete blocks: the hash of a transaction is its lock time, and scripts
that start with `OP_RETURN` are unspendable and fail when they are run. -/
def simpleTxFns : TxFns where
  isUnspendable s := s.head? == some 0x6a
  mallocUsage _ := 0
  mallocUsage_zero := rfl
  getHash tx := BitVec.ofNat 256 tx.nLockTime
  isCoinBase tx := tx.vin.length == 1 && tx.vin.head?.any fun t => t.prevout.isNull
  serializeSize _ := 100
  getValueOut tx := (tx.vout.map TxOut.nValue).sum
  getValueOut_eq _ _ _ := rfl
  getSigOpCount _ := 0
  isPayToScriptHash _ := false
  getP2SHSigOpCount _ _ := 0
  countWitnessSigOps _ _ _ _ := 0
  scriptExecutionCached _ _ := false
  scriptCheck _ _ out _ :=
    if out.scriptPubKey.head? == some 0x6a then some "OP_RETURN was encountered" else none
  sha256D64 a b := a + b

end KPCoin
