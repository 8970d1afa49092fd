import Mathlib

/-!
# Transactions

The data of `primitives/transaction.h` and `script/script.h`.  The tree has neither header: the
fields are those the rest of the code reads, and the functions the coins code calls on scripts are
collected in `ScriptFns`, together with what it relies on.
-/

namespace KPCoin

/-- `uint256`, also read as a number by `UintToArith256`. -/
abbrev Uint256 := BitVec 256

/-- `CScript`. -/
abbrev Script := List UInt8

/-- `COutPoint`.  The index is the position of the output; the size limit of `CheckTransaction`
keeps it far from the 32-bit bound. -/
structure OutPoint where
  hash : Uint256
  n : ℕ
  deriving DecidableEq, Repr

/-- `COutPoint::IsNull`. -/
def OutPoint.isNull (o : OutPoint) : Bool := o.hash == 0 && o.n == 2 ^ 32 - 1

/-- `CTxIn`. -/
structure TxIn where
  prevout : OutPoint
  scriptSig : Script := []
  nSequence : ℕ := 2 ^ 32 - 1
  scriptWitness : List Script := []
  deriving DecidableEq, Repr

/-- `CTxOut`. -/
structure TxOut where
  nValue : ℤ
  scriptPubKey : Script
  deriving DecidableEq, Repr

/-- `CTxOut::SetNull`, also the default constructor. -/
def TxOut.null : TxOut := ⟨-1, []⟩

/-- `CTxOut::IsNull`. -/
def TxOut.isNull (t : TxOut) : Bool := t.nValue == -1

/-- `CTransaction`. -/
structure Transaction where
  nVersion : ℤ := 2
  vin : List TxIn
  vout : List TxOut
  nLockTime : ℕ := 0
  deriving DecidableEq, Repr

/-- The functions on scripts that the coins code calls. -/
structure ScriptFns where
  /-- `CScript::IsUnspendable`. -/
  isUnspendable : Script → Bool
  /-- `memusage::MallocUsage` of a block of this many bytes, which depends on the platform. -/
  mallocUsage : ℕ → BitVec 64
  mallocUsage_zero : mallocUsage 0 = 0

end KPCoin
