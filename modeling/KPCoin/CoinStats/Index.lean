import KPCoin.Validation.ConnectBlock

/-!
# The index of coin statistics

`index/coinstatsindex.cpp` with `MuHash3072` of `crypto/muhash.cpp`.

* `Totals` are the twelve counters, in memory and in a database record; a counter is named by a
  `Stat` as the source names its fields;
* `MuHash3072` is a fraction modulo `p`, which is `2 ^ 3072 - 1103717` in the source: only that it
  is prime matters.  `Num3072` keeps numbers below `2 ^ 3072` and reduces them at each product, so
  they are taken modulo `p` here;
* `customAppend`, `reverseBlock` and `customRewind` change the running values and the two parts of
  the database, by height and by hash;
* `lookUpStats` reads them.

Amounts are integers: the totals are assumed to stay in range.  `kernel/coinstats.h`,
`primitives/` and the hash functions are not part of the tree, so `StatsFns` has a field for each of
their functions.  Undo data and blocks are read from disk without failure.
-/

namespace KPCoin.CoinStats

open Coins (Coin)
open Validation

/-- `MuHash3072`. -/
structure MuHash3072 (p : ℕ) where
  numerator : ZMod p := 1
  denominator : ZMod p := 1
  deriving DecidableEq

/-- `MuHash3072::Insert`, of a number. -/
def MuHash3072.insert {p : ℕ} (mu : MuHash3072 p) (x : ZMod p) : MuHash3072 p :=
  { mu with numerator := mu.numerator * x }

/-- `MuHash3072::Remove`, of a number. -/
def MuHash3072.remove {p : ℕ} (mu : MuHash3072 p) (x : ZMod p) : MuHash3072 p :=
  { mu with denominator := mu.denominator * x }

/-- The functions of other parts of the program, and what is assumed of them. -/
structure StatsFns (p : ℕ) extends TxFns where
  /-- `ToNum3072` of a coin as `TxOutSer` writes it. -/
  toNum3072 : OutPoint → Coin → ZMod p
  /-- The hash of the bytes of a number. -/
  getSHA256 : ZMod p → Uint256
  /-- `GetBogoSize`. -/
  getBogoSize : Script → ℤ
  /-- `ApplyCoinHash`. -/
  applyCoinHash (mu : MuHash3072 p) (outpoint : OutPoint) (coin : Coin) : MuHash3072 p :=
    mu.insert (toNum3072 outpoint coin)
  applyCoinHash_eq : ∀ mu outpoint coin,
    applyCoinHash mu outpoint coin = mu.insert (toNum3072 outpoint coin) := by intros; rfl
  /-- `RemoveCoinHash`. -/
  removeCoinHash (mu : MuHash3072 p) (outpoint : OutPoint) (coin : Coin) : MuHash3072 p :=
    mu.remove (toNum3072 outpoint coin)
  removeCoinHash_eq : ∀ mu outpoint coin,
    removeCoinHash mu outpoint coin = mu.remove (toNum3072 outpoint coin) := by intros; rfl

section MuHash

variable {p : ℕ}

/-- `Num3072::GetInverse`, a fixed chain of squares and products. -/
def getInverse (a : ZMod p) : ZMod p := a ^ (p - 2)

/-- `Num3072::Divide`. -/
def divide (a b : ZMod p) : ZMod p := a * getInverse b

/-- `MuHash3072::Finalize`. -/
def MuHash3072.finalize (F : StatsFns p) (mu : MuHash3072 p) : MuHash3072 p × Uint256 :=
  let numerator := divide mu.numerator mu.denominator
  (⟨numerator, 1⟩, F.getSHA256 numerator)

end MuHash

/-- The counters. -/
inductive Stat where
  | transactionOutputCount
  | bogoSize
  | totalAmount
  | totalSubsidy
  | totalUnspendableAmount
  | totalPrevoutSpentAmount
  | totalNewOutputsExCoinbaseAmount
  | totalCoinbaseAmount
  | totalUnspendablesGenesisBlock
  | totalUnspendablesBip30
  | totalUnspendablesScripts
  | totalUnspendablesUnclaimedRewards
  deriving DecidableEq, Repr

instance : Fintype Stat where
  elems := {.transactionOutputCount, .bogoSize, .totalAmount, .totalSubsidy,
    .totalUnspendableAmount, .totalPrevoutSpentAmount, .totalNewOutputsExCoinbaseAmount,
    .totalCoinbaseAmount,
    .totalUnspendablesGenesisBlock, .totalUnspendablesBip30, .totalUnspendablesScripts,
    .totalUnspendablesUnclaimedRewards}
  complete x := by cases x <;> decide

/-- The values of all counters. -/
abbrev Totals := Stat → ℤ

/-- `m_x += v`. -/
def Totals.add (t : Totals) (x : Stat) (v : ℤ) : Totals := t + Pi.single x v

/-- `m_x -= v`. -/
def Totals.sub (t : Totals) (x : Stat) (v : ℤ) : Totals := t - Pi.single x v

/-- `m_total_unspendable_amount += v; m_x += v`. -/
def Totals.addUnspendable (t : Totals) (x : Stat) (v : ℤ) : Totals :=
  (t.add .totalUnspendableAmount v).add x v

/-- `m_total_unspendable_amount -= v; m_x -= v`. -/
def Totals.subUnspendable (t : Totals) (x : Stat) (v : ℤ) : Totals :=
  (t.sub .totalUnspendableAmount v).sub x v

/-- `(spent prevouts + subsidy) - (new outputs + coinbase + unspendable)`. -/
def Totals.unclaimed (t : Totals) : ℤ :=
  (t .totalPrevoutSpentAmount + t .totalSubsidy) -
    (t .totalNewOutputsExCoinbaseAmount + t .totalCoinbaseAmount + t .totalUnspendableAmount)

/-- `DBVal`. -/
structure DBVal where
  muhash : Uint256
  totals : Totals
  deriving DecidableEq

/-- What the index keeps in memory. -/
structure Running (p : ℕ) where
  muhash : MuHash3072 p := {}
  totals : Totals := 0

/-- `CoinStatsIndex`: the running values and the database. -/
structure Index (p : ℕ) where
  running : Running p := {}
  /-- The records under `DBHeightKey`, each with the hash of its block. -/
  heightIndex : Map ℕ (Uint256 × DBVal) := ∅
  /-- The records under `DBHashKey`. -/
  hashIndex : Map Uint256 DBVal := ∅

/-- A block as it is read from disk, with its undo data. -/
structure StoredBlock where
  hash : Uint256
  vtx : List Transaction
  /-- `CBlockUndo::vtxundo`, for the transactions after the coinbase. -/
  vtxundo : List (List Coin)
  deriving DecidableEq

/-- A block with its ancestors; its height is the number of them. -/
abbrev Branch := List StoredBlock

/-- Why a call does not do its work. -/
inductive Fault where
  /-- There is no record of the previous block. -/
  | previousNotFound
  /-- `vtxundo.at` throws. -/
  | outOfRange
  /-- `CopyHeightIndexToHashIndex` does not find the key of a height. -/
  | unexpectedKey
  /-- An `Assert` of `ReverseBlock` fails. -/
  | assertion
  deriving DecidableEq, Repr

/-- `IsBIP30Unspendable`. -/
def isBIP30Unspendable (height : ℕ) (hash : Uint256) : Bool :=
  (height == 91722 &&
    hash == 0x00000000000271a2dc26e7667f8419f2e15416dc6955e5a6c6cdf3f2574dd08e) ||
  (height == 91812 &&
    hash == 0x00000000000af0aed4792b1acee3d966af36cf5def14935db8de83d6f9306f2f)

section Calls

variable {p : ℕ} (F : StatsFns p) (P : Params)

/-- One output of a new transaction. -/
def addOutput (height : ℕ) (tx : Transaction) (r : Running p) (x : TxOut × ℕ) : Running p :=
  let coin : Coin := { out := x.1, nHeight := height, fCoinBase := F.isCoinBase tx }
  let outpoint : OutPoint := ⟨F.getHash tx, x.2⟩
  if F.isUnspendable coin.out.scriptPubKey then
    { r with totals := r.totals.addUnspendable .totalUnspendablesScripts coin.out.nValue }
  else
    let totals := if F.isCoinBase tx then r.totals.add .totalCoinbaseAmount coin.out.nValue
      else r.totals.add .totalNewOutputsExCoinbaseAmount coin.out.nValue
    { muhash := F.applyCoinHash r.muhash outpoint coin
      totals :=
        ((totals.add .transactionOutputCount 1).add .totalAmount coin.out.nValue).add .bogoSize
          (F.getBogoSize coin.out.scriptPubKey) }

/-- One coin spent by a new transaction. -/
def spendPrevout (r : Running p) (x : TxIn × Coin) : Running p where
  muhash := F.removeCoinHash r.muhash x.1.prevout x.2
  totals :=
    (((r.totals.add .totalPrevoutSpentAmount x.2.out.nValue).sub .transactionOutputCount 1).sub
      .totalAmount x.2.out.nValue).sub .bogoSize (F.getBogoSize x.2.out.scriptPubKey)

/-- `block_undo.vtxundo.at(i - 1)`. -/
def undoAt (vtxundo : List (List Coin)) : ℕ → Except Fault (List Coin)
  | 0 => .error .outOfRange
  | i + 1 => match vtxundo[i]? with
    | some txUndo => .ok txUndo
    | none => .error .outOfRange

/-- The outputs of a transaction and then, unless it is a coinbase, the coins it spent, as both
loops over the transactions of a block go through them.  Undo data have one coin for each input. -/
def eachCoin (onOutput : Transaction → Running p → TxOut × ℕ → Running p)
    (onPrevout : Running p → TxIn × Coin → Running p) (block : StoredBlock) (r : Running p)
    (x : Transaction × ℕ) : Except Fault (Running p) := do
  let (tx, i) := x
  let r := tx.vout.zipIdx.foldl (onOutput tx) r
  if F.isCoinBase tx then return r
  let txUndo ← undoAt block.vtxundo i
  return (tx.vin.zip txUndo).foldl onPrevout r

/-- One turn of the loop over the transactions in `CustomAppend`. -/
def appendTx (height : ℕ) (block : StoredBlock) (r : Running p) (x : Transaction × ℕ) :
    Except Fault (Running p) :=
  if isBIP30Unspendable height block.hash && F.isCoinBase x.1 then
    .ok { r with
      totals := r.totals.addUnspendable .totalUnspendablesBip30 (getBlockSubsidy height P) }
  else eachCoin F (addOutput F height) (spendPrevout F) block r x

/-- The record of the previous block, which `CustomAppend` and `ReverseBlock` read.  A record under
a hash is too short to be read as one under a height, so the second attempt never succeeds. -/
def readPrevious (s : Index p) (height : ℕ) (expectedHash : Uint256) : Except Fault DBVal :=
  match s.heightIndex.lookup (height - 1) with
  | none => .error .previousNotFound
  | some (hash, val) => if hash ≠ expectedHash then .error .previousNotFound else .ok val

/-- `CustomAppend` for a block on the branch `prev`. -/
def customAppend (s : Index p) (block : StoredBlock) (prev : Branch) :
    Except Fault (Index p) := do
  let height := prev.length
  let blockSubsidy := getBlockSubsidy height P
  let r := { s.running with totals := s.running.totals.add .totalSubsidy blockSubsidy }
  let r ← match prev with
    | parent :: _ => do
      let _ ← readPrevious s height parent.hash
      block.vtx.zipIdx.foldlM (appendTx F P height block) r
    | [] => pure { r with
        totals := r.totals.addUnspendable .totalUnspendablesGenesisBlock blockSubsidy }
  let unclaimedRewards := r.totals.unclaimed
  let totals := r.totals.addUnspendable .totalUnspendablesUnclaimedRewards unclaimedRewards
  let (muhash, out) := r.muhash.finalize F
  return { s with
    running := { muhash, totals }
    heightIndex := s.heightIndex.insert height (block.hash, { muhash := out, totals }) }

/-- `CopyHeightIndexToHashIndex`, for `n` heights. -/
def copyHeightIndexToHashIndex (s : Index p) (startHeight n : ℕ) :
    Except Fault (Map Uint256 DBVal) :=
  (List.range' startHeight n).foldlM (fun batch height =>
    match s.heightIndex.lookup height with
    | none => .error .unexpectedKey
    | some (hash, val) => .ok (batch.insert hash val)) s.hashIndex

/-- One output of a reversed transaction. -/
def removeOutput (height : ℕ) (tx : Transaction) (r : Running p) (x : TxOut × ℕ) : Running p :=
  let outpoint : OutPoint := ⟨F.getHash tx, x.2⟩
  let coin : Coin := { out := x.1, nHeight := height, fCoinBase := F.isCoinBase tx }
  if F.isUnspendable coin.out.scriptPubKey then
    { r with totals := r.totals.subUnspendable .totalUnspendablesScripts coin.out.nValue }
  else
    let totals := if F.isCoinBase tx then r.totals.sub .totalCoinbaseAmount coin.out.nValue
      else r.totals.sub .totalNewOutputsExCoinbaseAmount coin.out.nValue
    { muhash := F.removeCoinHash r.muhash outpoint coin
      totals :=
        ((totals.sub .transactionOutputCount 1).sub .totalAmount coin.out.nValue).sub .bogoSize
          (F.getBogoSize coin.out.scriptPubKey) }

/-- One coin spent by a reversed transaction. -/
def restorePrevout (r : Running p) (x : TxIn × Coin) : Running p where
  muhash := F.applyCoinHash r.muhash x.1.prevout x.2
  totals :=
    (((r.totals.sub .totalPrevoutSpentAmount x.2.out.nValue).add .transactionOutputCount 1).add
      .totalAmount x.2.out.nValue).add .bogoSize (F.getBogoSize x.2.out.scriptPubKey)

/-- One turn of the loop over the transactions in `ReverseBlock`. -/
def reverseTx (height : ℕ) (block : StoredBlock) (r : Running p) (x : Transaction × ℕ) :
    Except Fault (Running p) :=
  eachCoin F (removeOutput F height) (restorePrevout F) block r x

/-- `ReverseBlock` for a block on the branch `prev`.  For the genesis block the record that is
compared is empty. -/
def reverseBlock (s : Index p) (block : StoredBlock) (prev : Branch) :
    Except Fault (Index p) := do
  let height := prev.length
  let r := { s.running with
    totals := s.running.totals.sub .totalSubsidy (getBlockSubsidy height P) }
  let readOut ← match prev with
    | parent :: _ => readPrevious s height parent.hash
    | [] => pure { muhash := 0, totals := 0 }
  let r ← block.vtx.zipIdx.foldlM (reverseTx F height block) r
  let unclaimedRewards := -r.totals.unclaimed
  let totals := r.totals.subUnspendable .totalUnspendablesUnclaimedRewards unclaimedRewards
  let (muhash, out) := r.muhash.finalize F
  if readOut.muhash = out ∧ totals = readOut.totals then
    return { s with running := { muhash, totals } }
  else throw .assertion

/-- The loop of `CustomRewind`, from a block down to `newTip`. -/
def reverseTo (newTip : Branch) : Branch → Index p → Except Fault (Index p)
  | [], s => pure s
  | block :: prev, s => do
    let s ← reverseBlock F P s block prev
    if prev = newTip then return s else reverseTo newTip prev s

/-- `CustomRewind`. -/
def customRewind (s : Index p) (currentTip newTip : Branch) : Except Fault (Index p) := do
  let hashIndex ← copyHeightIndexToHashIndex s (newTip.length - 1)
    (currentTip.length - newTip.length + 1)
  reverseTo F P newTip currentTip { s with hashIndex }

/-- `LookUpOne`. -/
def lookUpOne (s : Index p) (hash : Uint256) (height : ℕ) : Option DBVal :=
  match s.heightIndex.lookup height with
  | none => none
  | some (found, val) => if found = hash then some val else s.hashIndex.lookup hash

/-- `CCoinsStats`. -/
structure CoinsStats where
  nHeight : ℕ
  hashBlock : Uint256
  indexUsed : Bool
  hashSerialized : Uint256
  totals : Totals

/-- `LookUpStats`. -/
def lookUpStats (s : Index p) (block : StoredBlock) (prev : Branch) : Option CoinsStats :=
  (lookUpOne s block.hash prev.length).map fun entry =>
    { nHeight := prev.length, hashBlock := block.hash, indexUsed := true
      hashSerialized := entry.muhash, totals := entry.totals }

end Calls

end KPCoin.CoinStats
