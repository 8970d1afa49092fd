import KPCoin.Data.OrderedSet

/-!
# Entries of the memory pool

The entries of `CTxMemPool::mapTx` and the functions that change one entry.  The class itself is
declared in a header the tree does not have; its stored fields are those the pool reads and writes,
`UpdateModifiedFee` adds to them and the getters return them.

The code adds to the fee totals with `SaturatingAdd`.  A `FeeTotal` keeps beside the number whether
one of these additions has been cut off, so that what is said about exact totals can be said of each
total that has never been.
-/

namespace KPCoin.Mempool

/-- `COutPoint`. -/
structure Prevout (Txid : Type*) where
  hash : Txid
  n : ℕ
  deriving DecidableEq, Repr

/-- What the pool reads of a `CTransaction`: its hash, the outputs it spends, and how many outputs
it has.  The hashes are ordered, as in the sets of entries that are sorted by them. -/
class PoolTx (Tx : Type*) (Txid : outParam (Type*)) where
  getHash : Tx → Txid
  vin : Tx → List (Prevout Txid)
  voutSize : Tx → ℕ

/-- The conversion to `int32_t`. -/
def int32 (x : ℤ) : ℤ := x.bmod (2 ^ 32)

/-- The conversion to `int64_t`. -/
def int64 (x : ℤ) : ℤ := x.bmod (2 ^ 64)

theorem int32_eq {x : ℤ} (h : -2 ^ 31 ≤ x) (h' : x < 2 ^ 31) : int32 x = x := by
  unfold int32
  rw [Int.bmod_eq_of_le] <;> omega

theorem int64_eq {x : ℤ} (h : -2 ^ 63 ≤ x) (h' : x < 2 ^ 63) : int64 x = x := by
  unfold int64
  rw [Int.bmod_eq_of_le] <;> omega

/-- `SaturatingAdd` of two `CAmount`s, of another header the tree does not have: the sum, cut off at
the bounds of the type. -/
def saturatingAdd (a b : ℤ) : ℤ := max (-2 ^ 63) (min (2 ^ 63 - 1) (a + b))

/-- A total that is added to by `SaturatingAdd`, and whether an addition has been cut off. -/
structure FeeTotal where
  val : ℤ
  saturated : Bool := false
  deriving DecidableEq, Repr

/-- Add to the total. -/
def FeeTotal.add (t : FeeTotal) (x : ℤ) : FeeTotal where
  val := saturatingAdd t.val x
  saturated := t.saturated || decide (saturatingAdd t.val x ≠ t.val + x)

/-- The total is `v`, unless it has been cut off. -/
def FeeTotal.Is (t : FeeTotal) (v : ℤ) : Prop := t.saturated = false → t.val = v

theorem FeeTotal.Is.add {t : FeeTotal} {v : ℤ} (h : t.Is v) (x : ℤ) : (t.add x).Is (v + x) := by
  intro hs
  simp only [FeeTotal.add, Bool.or_eq_false_iff, decide_eq_false_iff_not, not_not] at hs ⊢
  rw [hs.2, h hs.1]

/-- What is given for a new entry.  `GetTxSize` is an `int32_t`, and the cost of signature
operations of a transaction fits one. -/
structure TxInfo (Tx : Type*) where
  tx : Tx
  fee : ℤ
  size : ℤ
  sigOpCost : ℤ
  time : ℤ
  size_pos : 0 < size
  size_lt : size < 2 ^ 31
  sigOpCost_nonneg : 0 ≤ sigOpCost
  sigOpCost_lt : sigOpCost < 2 ^ 31

/-- `CTxMemPoolEntry`.  References to other entries are their hashes. -/
structure Entry (Tx Txid : Type*) [LinearOrder Txid] extends TxInfo Tx where
  modifiedFee : ℤ
  parents : OrderedSet Txid
  children : OrderedSet Txid
  countWithDescendants : ℤ
  sizeWithDescendants : ℤ
  modFeesWithDescendants : FeeTotal
  countWithAncestors : ℤ
  sizeWithAncestors : ℤ
  modFeesWithAncestors : FeeTotal
  sigOpCostWithAncestors : ℤ
  idxRandomized : ℕ
  /-- An assertion about the entry has failed, where the code stops.  The entry stays marked. -/
  aborted : Bool := false

namespace Entry

variable {Tx Txid : Type*} [LinearOrder Txid]

/-- A new entry is alone: its totals are its own. -/
def new (info : TxInfo Tx) : Entry Tx Txid where
  toTxInfo := info
  modifiedFee := info.fee
  parents := ∅
  children := ∅
  countWithDescendants := 1
  sizeWithDescendants := info.size
  modFeesWithDescendants := ⟨info.fee, false⟩
  countWithAncestors := 1
  sizeWithAncestors := info.size
  modFeesWithAncestors := ⟨info.fee, false⟩
  sigOpCostWithAncestors := info.sigOpCost
  idxRandomized := 0

/-- `CTxMemPoolEntry::UpdateDescendantState`. -/
def updateDescendantState (modifySize modifyFee modifyCount : ℤ) (e : Entry Tx Txid) :
    Entry Tx Txid :=
  let size := e.sizeWithDescendants + modifySize
  let count := e.countWithDescendants + modifyCount
  { e with
    sizeWithDescendants := size
    modFeesWithDescendants := e.modFeesWithDescendants.add modifyFee
    countWithDescendants := count
    aborted := e.aborted || !decide (0 < size ∧ 0 < count) }

/-- `CTxMemPoolEntry::UpdateAncestorState`. -/
def updateAncestorState (modifySize modifyFee modifyCount modifySigOps : ℤ) (e : Entry Tx Txid) :
    Entry Tx Txid :=
  let size := e.sizeWithAncestors + modifySize
  let count := e.countWithAncestors + modifyCount
  let sigOpCost := e.sigOpCostWithAncestors + modifySigOps
  { e with
    sizeWithAncestors := size
    modFeesWithAncestors := e.modFeesWithAncestors.add modifyFee
    countWithAncestors := count
    sigOpCostWithAncestors := sigOpCost
    -- the cost is converted to `int` for its assertion
    aborted := e.aborted || !decide (0 < size ∧ 0 < count ∧ 0 ≤ int32 sigOpCost) }

/-- `CTxMemPoolEntry::UpdateModifiedFee`. -/
def updateModifiedFee (feeDiff : ℤ) (e : Entry Tx Txid) : Entry Tx Txid :=
  { e with
    modFeesWithDescendants := e.modFeesWithDescendants.add feeDiff
    modFeesWithAncestors := e.modFeesWithAncestors.add feeDiff
    modifiedFee := e.modifiedFee + feeDiff }

end Entry

end KPCoin.Mempool
