import KPCoin.Data.Map
import KPCoin.Mempool.Entry

/-!
# The memory pool

`CTxMemPool` of `txmempool.cpp`: the entries by hash, the map from spent outputs to their spenders,
the fee deltas, the list of transactions in random order and the two totals.

The memory usage, the rolling minimum fee and the notifications are left out.  How much memory a
pool uses and which entry comes first in the index by descendant score (which compares `double`s)
are given from outside, in `Env`; `TrimToSize` only asks for them.

Walks over the links are bounded by the number of entries (`OrderedSet.closure`).  A reference that
leads to no entry reads as an entry without links; in the pools that are ever built there is none.
-/

namespace KPCoin.Mempool

open PoolTx OrderedSet

/-- `CTxMemPool`.  The two sums are 64-bit numbers in the code, which sizes below 2³¹ and fees do
not exhaust; here they are integers. -/
structure Pool (Tx Txid : Type*) [LinearOrder Txid] where
  mapTx : Map Txid (Entry Tx Txid)
  mapNextTx : Map (Prevout Txid) Tx
  mapDeltas : Map Txid ℤ
  txnsRandomized : List Tx
  totalTxSize : ℤ
  totalFee : ℤ
  /-- An assertion had failed about an entry that was removed since. -/
  failed : Bool := false

/-- `CTxMemPool::Limits`.  A limit is absent if it is the largest number of its type, which no
number of that type exceeds. -/
structure Limits where
  ancestorCount : Option ℤ
  ancestorSizeVbytes : Option ℤ
  descendantCount : Option ℤ
  descendantSizeVbytes : Option ℤ

/-- `Limits::NoLimits`. -/
def Limits.noLimits : Limits := ⟨none, none, none, none⟩

/-- The number is above the limit. -/
def exceeds (x : ℤ) : Option ℤ → Bool
  | some limit => decide (limit < x)
  | none => false

/-- A limit on a count is compared as a `uint64_t`. -/
abbrev asCount (limit : Option ℤ) : Option ℤ := limit.map (· % 2 ^ 64)

/-- The errors of `CalculateMemPoolAncestors`, with what their texts show. -/
inductive LimitError (Txid : Type*)
  /-- `"exceeds descendant size limit for tx %s [limit: %u]"` -/
  | descendantSize (tx : Txid) (limit : Option ℤ)
  /-- `"too many descendants for tx %s [limit: %u]"` -/
  | descendantCount (tx : Txid) (limit : Option ℤ)
  /-- `"exceeds ancestor size limit [limit: %u]"` -/
  | ancestorSize (limit : Option ℤ)
  /-- `"too many unconfirmed ancestors [limit: %u]"` -/
  | ancestorCount (limit : Option ℤ)
  /-- `"too many unconfirmed parents [limit: %u]"` -/
  | parentCount (limit : Option ℤ)

variable {Tx Txid : Type*} [LinearOrder Txid]

/-- What `TrimToSize` asks for: `DynamicMemoryUsage()`, and the first entry of the index
`descendant_score`. -/
structure Env (Tx Txid : Type*) [LinearOrder Txid] where
  dynamicMemoryUsage : Pool Tx Txid → ℕ
  descendantScoreBegin : (p : Pool Tx Txid) → Option { id : Txid // id ∈ p.mapTx }

namespace Pool

/-- The pool without transactions. -/
def empty : Pool Tx Txid where
  mapTx := ∅
  mapNextTx := ∅
  mapDeltas := ∅
  txnsRandomized := []
  totalTxSize := 0
  totalFee := 0

/-- `mapTx.find`. -/
def find (p : Pool Tx Txid) (id : Txid) : Option (Entry Tx Txid) := p.mapTx.lookup id

/-- `mapTx.modify`. -/
def modify (id : Txid) (f : Entry Tx Txid → Entry Tx Txid) (p : Pool Tx Txid) : Pool Tx Txid :=
  { p with mapTx := p.mapTx.modify id f }

/-- `GetMemPoolParentsConst`. -/
def parentsOf (p : Pool Tx Txid) (id : Txid) : OrderedSet Txid :=
  (p.find id).elim ∅ Entry.parents

/-- `GetMemPoolChildrenConst`. -/
def childrenOf (p : Pool Tx Txid) (id : Txid) : OrderedSet Txid :=
  (p.find id).elim ∅ Entry.children

/-- `CTxMemPool::UpdateChild`. -/
def updateChild (entry child : Txid) (add : Bool) : Pool Tx Txid → Pool Tx Txid :=
  modify entry fun e =>
    { e with children := if add then e.children.insert child else e.children.erase child }

/-- `CTxMemPool::UpdateParent`. -/
def updateParent (entry parent : Txid) (add : Bool) : Pool Tx Txid → Pool Tx Txid :=
  modify entry fun e =>
    { e with parents := if add then e.parents.insert parent else e.parents.erase parent }

/-- `mapTx.modify` for each entry of a set. -/
def modifyEach (ids : OrderedSet Txid) (f : Entry Tx Txid → Entry Tx Txid) (p : Pool Tx Txid) :
    Pool Tx Txid :=
  ids.elems.foldl (fun p id => p.modify id f) p

/-- `CTxMemPool::CalculateDescendants`. -/
def calculateDescendants (p : Pool Tx Txid) (entryit : Txid) (setDescendants : OrderedSet Txid) :
    OrderedSet Txid :=
  closure p.childrenOf p.mapTx.entries.length
    (if entryit ∈ setDescendants then ∅ else ofList [entryit]) setDescendants

/-- Stage the parents of a visited entry, as long as the number of ancestors is within its limit. -/
def stageParents (limits : Limits) (entryCount : ℤ) (ancestors : OrderedSet Txid)
    (parents : List Txid) (staged : OrderedSet Txid) :
    Except (LimitError Txid) (OrderedSet Txid) :=
  parents.foldlM (fun staged parent =>
    let staged := if parent ∈ ancestors then staged else staged.insert parent
    if exceeds (staged.size + ancestors.size + entryCount) (asCount limits.ancestorCount) then
      .error (.ancestorCount limits.ancestorCount)
    else .ok staged) staged

/-- `CTxMemPool::CalculateAncestorsAndCheckLimits`. -/
def calculateAncestorsAndCheckLimits (p : Pool Tx Txid) (entrySize entryCount : ℤ)
    (limits : Limits) : ℕ → ℤ → OrderedSet Txid → OrderedSet Txid →
      Except (LimitError Txid) (OrderedSet Txid)
  | 0, _, _, ancestors => .ok ancestors
  | n + 1, totalSizeWithAncestors, staged, ancestors =>
    match staged.begin? with
    | none => .ok ancestors
    | some stage =>
      let e := p.find stage
      let total := totalSizeWithAncestors + e.elim 0 (·.size)
      if exceeds (e.elim 0 (·.sizeWithDescendants) + entrySize) limits.descendantSizeVbytes then
        .error (.descendantSize stage limits.descendantSizeVbytes)
      else if exceeds (e.elim 0 (·.countWithDescendants) + entryCount)
          (asCount limits.descendantCount) then
        .error (.descendantCount stage limits.descendantCount)
      else if exceeds total limits.ancestorSizeVbytes then
        .error (.ancestorSize limits.ancestorSizeVbytes)
      else do
        let staged ← stageParents limits entryCount (ancestors.insert stage)
          (p.parentsOf stage).elems (staged.erase stage)
        p.calculateAncestorsAndCheckLimits entrySize entryCount limits n total staged
          (ancestors.insert stage)

section

variable [PoolTx Tx Txid]

/-- The parents of a new transaction are looked up in `mapTx`. -/
def searchParents (p : Pool Tx Txid) (limits : Limits) (vin : List (Prevout Txid)) :
    Except (LimitError Txid) (OrderedSet Txid) :=
  vin.foldlM (fun staged txin =>
    if (p.find txin.hash).isSome then
      if exceeds ((staged.insert txin.hash).size + 1) (asCount limits.ancestorCount) then
        .error (.parentCount limits.ancestorCount)
      else .ok (staged.insert txin.hash)
    else .ok staged) ∅

/-- `CTxMemPool::CalculateMemPoolAncestors`. -/
def calculateMemPoolAncestors (p : Pool Tx Txid) (entry : TxInfo Tx) (limits : Limits)
    (fSearchForParents : Bool) : Except (LimitError Txid) (OrderedSet Txid) := do
  let staged ← if fSearchForParents then p.searchParents limits (vin entry.tx)
    else .ok (p.parentsOf (getHash entry.tx))
  p.calculateAncestorsAndCheckLimits entry.size 1 limits p.mapTx.entries.length entry.size staged ∅

/-- `CTxMemPool::AssumeCalculateMemPoolAncestors`. -/
def assumeCalculateMemPoolAncestors (p : Pool Tx Txid) (entry : TxInfo Tx) (limits : Limits)
    (fSearchForParents : Bool) : OrderedSet Txid :=
  (p.calculateMemPoolAncestors entry limits fSearchForParents).toOption.getD ∅

/-- `CTxMemPool::UpdateAncestorsOf`. -/
def updateAncestorsOf (add : Bool) (it : Txid) (setAncestors : OrderedSet Txid)
    (p : Pool Tx Txid) : Pool Tx Txid :=
  match p.find it with
  | none => p
  | some e =>
    let p := e.parents.elems.foldl (fun p parent => p.updateChild parent it add) p
    let updateCount : ℤ := if add then 1 else -1
    p.modifyEach setAncestors
      (Entry.updateDescendantState (updateCount * e.size) (updateCount * e.modifiedFee) updateCount)

/-- `CTxMemPool::UpdateEntryForAncestors`.  The sums are an `int64_t`, a `CAmount` and an `int64_t`;
the size is passed on as an `int32_t`. -/
def updateEntryForAncestors (it : Txid) (setAncestors : OrderedSet Txid) (p : Pool Tx Txid) :
    Pool Tx Txid :=
  let ancestors := setAncestors.elems.filterMap p.find
  let updateSize := (ancestors.map (·.size)).sum
  let updateFee := int64 (ancestors.map (·.modifiedFee)).sum
  let updateSigOpsCost := (ancestors.map (·.sigOpCost)).sum
  p.modify it
    (Entry.updateAncestorState (int32 updateSize) updateFee setAncestors.size updateSigOpsCost)

/-- `mapTx.emplace`, which leaves an entry with the same hash as it is. -/
def emplace (info : TxInfo Tx) (p : Pool Tx Txid) : Pool Tx Txid :=
  match p.find (getHash info.tx) with
  | some _ => p
  | none => { p with mapTx := p.mapTx.insert (getHash info.tx) (Entry.new info) }

/-- The delta of `PrioritiseTransaction`, `ApplyDelta`, is added to the fee of the new entry. -/
def applyDelta (id : Txid) (p : Pool Tx Txid) : Pool Tx Txid :=
  let delta := (p.mapDeltas.lookup id).getD 0
  if delta = 0 then p else p.modify id (Entry.updateModifiedFee delta)

/-- The outputs that `tx` spends are entered in `mapNextTx`; `insert` leaves what is there. -/
def insertNextTx (tx : Tx) (p : Pool Tx Txid) : Pool Tx Txid :=
  { p with
    mapNextTx := (vin tx).foldl (fun m o => if (m.lookup o).isSome then m else m.insert o tx)
      p.mapNextTx }

/-- The parents of a new entry that are in the pool, `GetIterSet`, become its `m_parents`. -/
def linkParents (it : Txid) (tx : Tx) (p : Pool Tx Txid) : Pool Tx Txid :=
  ((ofList ((vin tx).map (·.hash))).elems.filter fun h => (p.find h).isSome).foldl
    (fun p pit => p.updateParent it pit true) p

/-- A new entry is counted, and goes to the end of `txns_randomized`. -/
def countNew (it : Txid) (info : TxInfo Tx) (p : Pool Tx Txid) : Pool Tx Txid :=
  { p.modify it (fun e => { e with idxRandomized := p.txnsRandomized.length }) with
    totalTxSize := p.totalTxSize + info.size
    totalFee := p.totalFee + info.fee
    txnsRandomized := p.txnsRandomized ++ [info.tx] }

/-- `CTxMemPool::addUnchecked`. -/
def addUnchecked (entry : TxInfo Tx) (setAncestors : OrderedSet Txid) (p : Pool Tx Txid) :
    Pool Tx Txid :=
  let newit := getHash entry.tx
  (((((p.emplace entry).applyDelta newit).insertNextTx entry.tx).linkParents newit
    entry.tx).updateAncestorsOf true newit setAncestors).updateEntryForAncestors newit setAncestors
    |>.countNew newit entry

/-- `CTxMemPool::UpdateChildrenForRemoval`. -/
def updateChildrenForRemoval (it : Txid) (p : Pool Tx Txid) : Pool Tx Txid :=
  (p.childrenOf it).elems.foldl (fun p child => p.updateParent child it false) p

/-- The first loop of `UpdateForRemoveFromMempool` for one entry: its descendants no longer count
it.  The cost is passed on as an `int`. -/
def leaveDescendants (removeIt : Txid) (p : Pool Tx Txid) : Pool Tx Txid :=
  match p.find removeIt with
  | none => p
  | some e =>
    p.modifyEach ((p.calculateDescendants removeIt ∅).erase removeIt)
      (Entry.updateAncestorState (-e.size) (-e.modifiedFee) (-1) (int32 (-e.sigOpCost)))

/-- The second loop of `UpdateForRemoveFromMempool` for one entry: its ancestors no longer count
it. -/
def leaveAncestors (removeIt : Txid) (p : Pool Tx Txid) : Pool Tx Txid :=
  match p.find removeIt with
  | none => p
  | some e =>
    p.updateAncestorsOf false removeIt
      (p.assumeCalculateMemPoolAncestors e.toTxInfo Limits.noLimits false)

/-- `CTxMemPool::UpdateForRemoveFromMempool`. -/
def updateForRemoveFromMempool (entriesToRemove : OrderedSet Txid) (updateDescendants : Bool)
    (p : Pool Tx Txid) : Pool Tx Txid :=
  let p := if updateDescendants then
      entriesToRemove.elems.foldl (fun p removeIt => p.leaveDescendants removeIt) p
    else p
  let p := entriesToRemove.elems.foldl (fun p removeIt => p.leaveAncestors removeIt) p
  entriesToRemove.elems.foldl (fun p removeIt => p.updateChildrenForRemoval removeIt) p

/-- An entry leaves `txns_randomized`: the last transaction takes its place. -/
def dropRandomized (idx : ℕ) (p : Pool Tx Txid) : Pool Tx Txid :=
  if 1 < p.txnsRandomized.length then
    match p.txnsRandomized.getLast? with
    | none => p
    | some back =>
      { p.modify (getHash back) (fun e => { e with idxRandomized := idx }) with
        txnsRandomized := (p.txnsRandomized.set idx back).dropLast }
  else { p with txnsRandomized := [] }

/-- `CTxMemPool::removeUnchecked`. -/
def removeUnchecked (it : Txid) (p : Pool Tx Txid) : Pool Tx Txid :=
  match p.find it with
  | none => p
  | some e =>
    let p := p.dropRandomized e.idxRandomized
    { p with
      mapNextTx := (vin e.tx).foldl (fun m o => m.erase o) p.mapNextTx
      totalTxSize := p.totalTxSize - e.size
      totalFee := p.totalFee - e.fee
      mapTx := p.mapTx.erase it
      failed := p.failed || e.aborted }

/-- `CTxMemPool::RemoveStaged`. -/
def removeStaged (stage : OrderedSet Txid) (updateDescendants : Bool) (p : Pool Tx Txid) :
    Pool Tx Txid :=
  stage.elems.foldl (fun p it => p.removeUnchecked it)
    (p.updateForRemoveFromMempool stage updateDescendants)

/-- The entries of a set and all their descendants. -/
def withDescendants (p : Pool Tx Txid) (ids : OrderedSet Txid) : OrderedSet Txid :=
  ids.elems.foldl (fun s it => p.calculateDescendants it s) ∅

/-- The entries `removeRecursive` starts from: the transaction itself, or, if it is not in the pool,
those that spend its outputs. -/
def recursiveRoots (p : Pool Tx Txid) (origTx : Tx) : OrderedSet Txid :=
  if (p.find (getHash origTx)).isSome then ofList [getHash origTx]
  else ofList ((List.range (voutSize origTx)).filterMap fun i =>
    (p.mapNextTx.lookup ⟨getHash origTx, i⟩).map getHash)

/-- `CTxMemPool::removeRecursive`. -/
def removeRecursive (origTx : Tx) (p : Pool Tx Txid) : Pool Tx Txid :=
  p.removeStaged (p.withDescendants (p.recursiveRoots origTx)) false

/-- `CTxMemPool::ClearPrioritisation`. -/
def clearPrioritisation (hash : Txid) (p : Pool Tx Txid) : Pool Tx Txid :=
  { p with mapDeltas := p.mapDeltas.erase hash }

/-- `CTxMemPool::removeConflicts`. -/
def removeConflicts (tx : Tx) (p : Pool Tx Txid) : Pool Tx Txid :=
  (vin tx).foldl (fun p txin =>
    match p.mapNextTx.lookup txin with
    | none => p
    | some txConflict =>
      if getHash txConflict = getHash tx then p
      else (p.clearPrioritisation (getHash txConflict)).removeRecursive txConflict) p

/-- One transaction of a block that is connected. -/
def removeBlockTx (tx : Tx) (p : Pool Tx Txid) : Pool Tx Txid :=
  let p := if (p.find (getHash tx)).isSome then
      p.removeStaged (ofList [getHash tx]) true
    else p
  (p.removeConflicts tx).clearPrioritisation (getHash tx)

/-- `CTxMemPool::removeForBlock`. -/
def removeForBlock (vtx : List Tx) (p : Pool Tx Txid) : Pool Tx Txid :=
  vtx.foldl (fun p tx => p.removeBlockTx tx) p

/-- The entry's fee in `PrioritiseTransaction`: it changes, and so do the totals of its ancestors
and descendants. -/
def changeFee (hash : Txid) (nFeeDelta : ℤ) (p : Pool Tx Txid) : Pool Tx Txid :=
  match p.find hash with
  | none => p
  | some e =>
    let p := p.modify hash (Entry.updateModifiedFee nFeeDelta)
    let p := p.modifyEach (p.assumeCalculateMemPoolAncestors e.toTxInfo Limits.noLimits false)
      (Entry.updateDescendantState 0 nFeeDelta 0)
    p.modifyEach ((p.calculateDescendants hash ∅).erase hash)
      (Entry.updateAncestorState 0 nFeeDelta 0 0)

/-- `CTxMemPool::PrioritiseTransaction`. -/
def prioritiseTransaction (hash : Txid) (nFeeDelta : ℤ) (p : Pool Tx Txid) : Pool Tx Txid :=
  let delta := saturatingAdd ((p.mapDeltas.lookup hash).getD 0) nFeeDelta
  let p := { p with mapDeltas := p.mapDeltas.insert hash delta }
  let p := p.changeFee hash nFeeDelta
  if delta = 0 then p.clearPrioritisation hash else p

/-- `CTxMemPool::Expire`, with the number of entries removed.  The index `entry_time` lists the
entries that are older than `time` first. -/
def expire (time : ℤ) (p : Pool Tx Txid) : Pool Tx Txid × ℕ :=
  let toremove := ofList
    ((p.mapTx.entries.filter fun x => decide (x.2.time < time)).map (·.1))
  let stage := p.withDescendants toremove
  (p.removeStaged stage false, stage.size)

/-- The loop of `TrimToSize`, with `pvNoSpendsRemaining`. -/
def trimLoop (env : Env Tx Txid) (sizelimit : ℕ) :
    ℕ → Pool Tx Txid → List (Prevout Txid) → Pool Tx Txid × List (Prevout Txid)
  | 0, p, noSpends => (p, noSpends)
  | n + 1, p, noSpends =>
    if env.dynamicMemoryUsage p ≤ sizelimit then (p, noSpends)
    else match env.descendantScoreBegin p with
      | none => (p, noSpends)
      | some it =>
        let stage := p.calculateDescendants it ∅
        let txn := (stage.elems.filterMap p.find).map (·.tx)
        let p' := p.removeStaged stage false
        let spent := (txn.flatMap vin).filter fun o => (p'.find o.hash).isNone
        trimLoop env sizelimit n p' (noSpends ++ spent)

/-- `CTxMemPool::TrimToSize`. -/
def trimToSize (env : Env Tx Txid) (sizelimit : ℕ) (p : Pool Tx Txid) :
    Pool Tx Txid × List (Prevout Txid) :=
  trimLoop env sizelimit p.mapTx.entries.length p []

end

end Pool

end KPCoin.Mempool
