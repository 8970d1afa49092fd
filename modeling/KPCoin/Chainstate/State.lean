import KPCoin.Data.Forest

/-!
# The block index and one chainstate

The data that `ChainstateManager`, `BlockManager` and one `Chainstate` (`validation.cpp`) keep about
the blocks of the index.  A block of the index is a pointer, with what never changes about it
in `Blocks` and the rest in an `Entry` of the state.

What the validation code takes from elsewhere is a parameter in `Blocks`, with its properties as
fields: the comparator of `setBlockIndexCandidates` and the index entry of a new header, which
`node/blockstorage.cpp` defines, and whether `ConnectBlock` accepts a block on top of the state
of its parent.  Work and heights are taken without their bounds.

Pruning, snapshots, the background chainstate, interrupts and errors of the system are left out,
and so are the memory pool, notifications and the set of entries to be written to disk.
-/

namespace KPCoin.Chainstate

/-- The validity levels of `BlockStatus`. -/
inductive Validity
  | unknown
  | reserved
  | tree
  | transactions
  | chain
  | scripts
  deriving DecidableEq, Repr

/-- The value of a level in `BLOCK_VALID_MASK`. -/
def Validity.level : Validity → ℕ
  | unknown => 0
  | reserved => 1
  | tree => 2
  | transactions => 3
  | chain => 4
  | scripts => 5

/-- Where a block and its undo data are stored. -/
structure FilePos where
  nFile : ℕ := 0
  nDataPos : ℕ := 0
  nUndoPos : ℕ := 0
  deriving DecidableEq, Repr

/-- The fields of `CBlockIndex` that change, with `nStatus` as its level and its flags. -/
structure Entry where
  nTx : BitVec 32 := 0
  nChainTx : BitVec 32 := 0
  validity : Validity := .unknown
  haveData : Bool := false
  failedValid : Bool := false
  failedChild : Bool := false
  optWitness : Bool := false
  nSequenceId : ℤ := 0
  pos : FilePos := {}
  deriving DecidableEq, Repr

namespace Entry

variable (e : Entry)

/-- `nStatus & BLOCK_FAILED_MASK`. -/
def failed : Bool := e.failedValid || e.failedChild

/-- `IsValid`. -/
def isValid (nUpTo : Validity) : Bool := !e.failed && decide (nUpTo.level ≤ e.validity.level)

/-- `HaveNumChainTxs`. -/
def haveNumChainTxs : Bool := e.nChainTx != 0

/-- `RaiseValidity`. -/
def raiseValidity (nUpTo : Validity) : Entry :=
  if e.failed then e
  else if e.validity.level < nUpTo.level then { e with validity := nUpTo }
  else e

/-- `nStatus &= ~BLOCK_FAILED_MASK`. -/
def clearFailed : Entry := { e with failedValid := false, failedChild := false }

end Entry

/-- What `CBlockIndexWorkComparator` compares. -/
structure SortKey (B : Type) where
  nChainWork : ℕ
  nSequenceId : ℤ
  block : B

/-- `CBlockIndexWorkComparator`: a strict order on the blocks, by work first and by the order of
arrival next. -/
structure WorkComparator (B : Type) where
  less : SortKey B → SortKey B → Bool
  irrefl : ∀ x, less x x = false
  trans : ∀ {x y z}, less x y = true → less y z = true → less x z = true
  total : ∀ {x y}, x.block ≠ y.block → less x y = true ∨ less y x = true
  work : ∀ {x y}, x.nChainWork < y.nChainWork → less x y = true
  sequence : ∀ {x y}, x.nChainWork = y.nChainWork → y.nSequenceId < x.nSequenceId → less x y = true

/-- The tree of all blocks, and what the rest of the node says about them. -/
structure Blocks (B : Type) extends Forest B where
  genesis : B
  parent_eq_none : ∀ {b}, parent b = none ↔ b = genesis
  height_genesis : height genesis = 0
  nChainWork : B → ℕ
  work_parent : ∀ {b p}, parent b = some p → nChainWork p < nChainWork b
  /-- `block.vtx.size()`, which `CheckBlock` bounds; it refuses a block without transactions. -/
  vtxSize : B → BitVec 32
  vtxSize_ne_zero : ∀ b, vtxSize b ≠ 0
  /-- `DeploymentActiveAt` for segwit. -/
  segwitActive : B → Bool
  /-- `ConnectBlock`, on the view of the parent.  `DisconnectBlock` restores a view, so this
  is a function of the block. -/
  connectBlock : B → Bool
  comparator : WorkComparator B
  /-- The entry that `AddToBlockIndex` makes. -/
  newEntry : Entry
  newEntry_failed : newEntry.failed = false
  newEntry_haveData : newEntry.haveData = false
  newEntry_nTx : newEntry.nTx = 0
  newEntry_nChainTx : newEntry.nChainTx = 0
  newEntry_tree : Validity.tree.level ≤ newEntry.validity.level
  newEntry_transactions : newEntry.validity.level < Validity.transactions.level
  /-- `m_best_header` after `AddToBlockIndex`. -/
  newBestHeader : Option B → B → Option B
  nMinimumChainWork : ℕ
  /-- The order of a set of pointers. -/
  pointerOrder : List B → List B
  pointerOrder_perm : ∀ l, (pointerOrder l).Perm l

/-- The state. -/
structure State (B : Type) where
  /-- The keys of `m_block_index`. -/
  index : List B := []
  entry : B → Entry
  mBlocksUnlinked : List (B × B) := []
  mFailedBlocks : List B := []
  setBlockIndexCandidates : List B := []
  /-- `m_chain.Tip()`; the chain is its path. -/
  tip : Option B := none
  /-- `CoinsTip().GetBestBlock()`. -/
  coinsBestBlock : Option B := none
  mBestInvalid : Option B := none
  mBestHeader : Option B := none
  nBlockSequenceId : ℤ := 1
  nBlockReverseSequenceId : ℤ := -1
  nLastPreciousChainwork : ℕ := 0

variable {B : Type} [DecidableEq B] (A : Blocks B)

namespace State

variable (s : State B)

/-- `m_chain`, from the tip down. -/
def chain : List B := s.tip.elim [] A.path

/-- What the comparator reads of a block. -/
def key (b : B) : SortKey B := ⟨A.nChainWork b, (s.entry b).nSequenceId, b⟩

/-- `CBlockIndexWorkComparator()(a, b)`. -/
def less (a b : B) : Bool := A.comparator.less (s.key A a) (s.key A b)

/-- The block sorts below the tip. -/
def belowTip (b : B) : Bool := s.tip.any fun t => s.less A b t

/-- The block sorts above the tip. -/
def aboveTip (b : B) : Bool := s.tip.any fun t => s.less A t b

/-- Change the entry of a block. -/
def modify (b : B) (f : Entry → Entry) : State B :=
  { s with entry := Function.update s.entry b (f (s.entry b)) }

/-- `nStatus |= BLOCK_FAILED_VALID`. -/
def setFailedValid (b : B) : State B := s.modify b fun e => { e with failedValid := true }

/-- `nStatus |= BLOCK_FAILED_CHILD`. -/
def setFailedChild (b : B) : State B := s.modify b fun e => { e with failedChild := true }

/-- `setBlockIndexCandidates.insert`. -/
def insertCandidate (b : B) : State B :=
  { s with setBlockIndexCandidates := s.setBlockIndexCandidates.insert b }

/-- `setBlockIndexCandidates.erase`. -/
def eraseCandidate (b : B) : State B :=
  { s with setBlockIndexCandidates := s.setBlockIndexCandidates.filter (· ≠ b) }

/-- `m_failed_blocks.insert`. -/
def insertFailed (b : B) : State B := { s with mFailedBlocks := s.mFailedBlocks.insert b }

/-- `m_failed_blocks.erase`. -/
def eraseFailed (b : B) : State B := { s with mFailedBlocks := s.mFailedBlocks.filter (· ≠ b) }

/-- `*setBlockIndexCandidates.rbegin()`, the greatest of these blocks. -/
def rbegin : List B → Option B
  | [] => none
  | b :: l =>
    match rbegin l with
    | none => some b
    | some a => if s.less A a b then some b else some a

/-- `TryAddBlockIndexCandidate`. -/
def tryAddBlockIndexCandidate (b : B) : State B :=
  if s.belowTip A b then s else s.insertCandidate b

/-- A block whose parent is linked is linked: one pass of the loop of `ReceivedBlockTransactions`.
-/
def link (b : B) : State B :=
  let parentTx := (A.parent b).elim 0 fun p => (s.entry p).nChainTx
  let s := s.modify b fun e => { e with
    nChainTx := parentTx + e.nTx
    nSequenceId := s.nBlockSequenceId }
  let s := { s with nBlockSequenceId := s.nBlockSequenceId + 1 }
  let s := s.tryAddBlockIndexCandidate A b
  { s with mBlocksUnlinked := s.mBlocksUnlinked.filter (·.1 ≠ b) }

/-- The loop of `ReceivedBlockTransactions` with its `queue`. -/
def linkAll : ℕ → List B → State B → State B
  | fuel + 1, b :: queue, s =>
    linkAll fuel (queue ++ (s.mBlocksUnlinked.filter (·.1 = b)).map Prod.snd) (s.link A b)
  | _, _, s => s

/-- The first part of `ReceivedBlockTransactions`: the entry of the block. -/
def storeData (b : B) (pos : FilePos) : State B :=
  s.modify b fun e => Entry.raiseValidity { e with
    nTx := A.vtxSize b
    nChainTx := 0
    pos := { pos with nUndoPos := 0 }
    haveData := true
    optWitness := e.optWitness || A.segwitActive b } .transactions

/-- `ReceivedBlockTransactions`. -/
def receivedBlockTransactions (b : B) (pos : FilePos) : State B :=
  let s := s.storeData A b pos
  if (A.parent b).all fun p => (s.entry p).haveNumChainTxs then
    linkAll A (s.mBlocksUnlinked.length + 1) [b] s
  else
    match A.parent b with
    | some p =>
      if (s.entry p).isValid .tree then
        { s with mBlocksUnlinked := s.mBlocksUnlinked ++ [(p, b)] }
      else s
    | none => s

/-- `InvalidChainFound`, whose assertion on the tip is left to the callers. -/
def invalidChainFound (b : B) : State B :=
  let s := if s.mBestInvalid.all fun i => A.nChainWork i < A.nChainWork b then
      { s with mBestInvalid := some b }
    else s
  if s.mBestHeader.any fun h => b ∈ A.path h then { s with mBestHeader := s.tip } else s

/-- `InvalidBlockFound`, of a block that is not mutated. -/
def invalidBlockFound (b : B) : State B :=
  (((s.setFailedValid b).insertFailed b).eraseCandidate b).invalidChainFound A b

/-- `FindMostWorkChain` walks from a candidate to the active chain.  It finds the first block that
cannot be used, with the blocks above it; the assertion is the first test. -/
def findUnusable : List B → Option (Option (List B × B))
  | [] => some none
  | b :: rest =>
    if (s.entry b).haveNumChainTxs || A.height b = 0 then
      if (s.entry b).failed || !(s.entry b).haveData then some (some ([], b))
      else (findUnusable rest).map (Option.map fun r => (b :: r.1, r.2))
    else none

/-- `FindMostWorkChain` removes a block above an unusable one. -/
def discard (fFailedChain : Bool) (b : B) : State B :=
  let s := if fFailedChain then s.setFailedChild b
    else { s with mBlocksUnlinked := s.mBlocksUnlinked ++ ((A.parent b).map (·, b)).toList }
  s.eraseCandidate b

/-- `FindMostWorkChain` removes the chain of a candidate that cannot be used. -/
def discardChain (pindexNew : B) (above : List B) (pindexTest : B) : State B :=
  let fFailedChain := (s.entry pindexTest).failed
  let s := if fFailedChain &&
        s.mBestInvalid.all fun i => A.nChainWork i < A.nChainWork pindexNew then
      { s with mBestInvalid := some pindexNew }
    else s
  (above.foldl (fun s b => s.discard A fFailedChain b) s).eraseCandidate pindexTest

/-- `FindMostWorkChain`, with a bound on the number of candidates it looks at. -/
def findMostWorkChain : ℕ → State B → Option (Option B × State B)
  | 0, _ => none
  | fuel + 1, s =>
    match s.rbegin A s.setBlockIndexCandidates with
    | none => some (none, s)
    | some pindexNew => do
      let r ← s.findUnusable A ((A.path pindexNew).takeWhile fun b => b ∉ s.chain A)
      match r with
      | none => some (some pindexNew, s)
      | some (above, pindexTest) =>
        findMostWorkChain fuel (s.discardChain A pindexNew above pindexTest)

/-- `PruneBlockIndexCandidates`. -/
def pruneBlockIndexCandidates : Option (State B) :=
  let l := s.setBlockIndexCandidates.filter fun b => !s.belowTip A b
  if l = [] then none else some { s with setBlockIndexCandidates := l }

/-- `DisconnectTip`. -/
def disconnectTip : Option (State B) := do
  let t ← s.tip
  let p ← A.parent t
  if s.coinsBestBlock = some t then
    some { s with tip := some p, coinsBestBlock := some p }
  else none

/-- `ConnectTip`, with the assertion of `ConnectBlock` on the view. -/
def connectTip (b : B) : Option (State B × Bool) :=
  if A.parent b = s.tip ∧ A.parent b = s.coinsBestBlock then
    if A.connectBlock b then
      -- the genesis block is not connected like the others
      let s := if b = A.genesis then s else s.modify b (Entry.raiseValidity · .scripts)
      some ({ s with tip := some b, coinsBestBlock := some b }, true)
    else s.tip.map fun _ => (s.invalidBlockFound A b, false)
  else none

/-- What `ActivateBestChainStep` has found: `fInvalidFound` and `fContinue`. -/
structure Progress (B : Type) where
  state : State B
  fInvalidFound : Bool := false
  fContinue : Bool := true

/-- `ActivateBestChainStep` connects a batch of blocks, of which `front` is the last. -/
def connectBatch (pindexOldTip : Option B) (front : B) : List B → State B → Option (Progress B)
  | [], s => some { state := s }
  | b :: rest, s => do
    let (s, connected) ← s.connectTip A b
    if connected then
      let s ← s.pruneBlockIndexCandidates A
      if pindexOldTip.all fun old => A.nChainWork old < A.nChainWork b then
        -- in a better position than before
        some { state := s, fContinue := false }
      else connectBatch pindexOldTip front rest s
    else some { state := s.invalidChainFound A front, fInvalidFound := true, fContinue := false }

/-- `ActivateBestChainStep` connects these blocks, in batches of 32. -/
def connectBlocks (pindexOldTip : Option B) : ℕ → List B → State B → Option (State B × Bool)
  | fuel + 1, b :: l, s => do
    let batch := (b :: l).take 32
    let r ← s.connectBatch A pindexOldTip (batch.getLast?.getD b) batch
    if r.fContinue then connectBlocks pindexOldTip fuel ((b :: l).drop 32) r.state
    else some (r.state, r.fInvalidFound)
  | _, _, s => some (s, false)

/-- `FindFork`. -/
def findFork (b : B) : Option B := (A.path b).find? (· ∈ s.chain A)

/-- `ActivateBestChainStep`, with `fInvalidFound`. -/
def activateBestChainStep (pindexMostWork : B) : Option (State B × Bool) := do
  let pindexFork := s.findFork A pindexMostWork
  let s' ← ((s.chain A).takeWhile fun b => some b ≠ pindexFork).foldlM
    (fun s _ => s.disconnectTip A) s
  let toConnect := ((A.path pindexMostWork).takeWhile fun b => some b ≠ pindexFork).reverse
  s'.connectBlocks A s.tip toConnect.length toConnect

/-- The variables of `ActivateBestChain`. -/
structure Activation (B : Type) where
  state : State B
  pindexMostWork : Option B := none
  pindexNewTip : Option B := none
  blocksConnected : Bool := false

/-- The inner loop of `ActivateBestChain`, with a bound on its number of passes. -/
def activateInner (startingTip : Option B) : ℕ → Activation B → Option (Activation B)
  | 0, _ => none
  | fuel + 1, v => do
    let (pindexMostWork, s) ← match v.pindexMostWork with
      | none => v.state.findMostWorkChain A (v.state.setBlockIndexCandidates.length + 1)
      | some m => some (some m, v.state)
    let v := { v with state := s, pindexMostWork := pindexMostWork }
    match pindexMostWork with
    | none => some v
    | some m =>
      if s.tip = some m then some v
      else do
        let (s, fInvalidFound) ← s.activateBestChainStep A m
        let v := { v with
          state := s
          pindexMostWork := if fInvalidFound then none else some m
          pindexNewTip := s.tip
          blocksConnected := true }
        if s.tip = none ∨ (startingTip.any fun t => s.tip.any fun t' => s.less A t' t) then
          activateInner startingTip fuel v
        else some v

/-- The outer loop of `ActivateBestChain`. -/
def activateOuter : ℕ → Activation B → Option (State B)
  | 0, _ => none
  | fuel + 1, v => do
    let v ← activateInner A v.state.tip (fuel + 1) { v with blocksConnected := false }
    if !v.blocksConnected then some v.state
    else if v.pindexNewTip = v.pindexMostWork then some v.state
    else activateOuter fuel v

/-- `ActivateBestChain`, with a bound on the number of passes through its loops. -/
def activateBestChain (fuel : ℕ) : Option (State B) := activateOuter A fuel { state := s }

/-- `PreciousBlock`, before it calls `ActivateBestChain`; the result says whether it does. -/
def markPrecious (b : B) : Option (State B × Bool) := do
  let t ← s.tip
  if A.nChainWork b < A.nChainWork t then some (s, false)
  else
    let s := if A.nChainWork t > s.nLastPreciousChainwork then
        { s with nBlockReverseSequenceId := -1 }
      else s
    let s := { s with nLastPreciousChainwork := A.nChainWork t }
    let s := s.eraseCandidate b
    let s := s.modify b fun e => { e with nSequenceId := s.nBlockReverseSequenceId }
    let s := if s.nBlockReverseSequenceId > -2 ^ 31 then
        { s with nBlockReverseSequenceId := s.nBlockReverseSequenceId - 1 }
      else s
    if (s.entry b).isValid .transactions && (s.entry b).haveNumChainTxs then
      ((s.insertCandidate b).pruneBlockIndexCandidates A).map (·, true)
    else some (s, true)

/-- `PreciousBlock`. -/
def preciousBlock (fuel : ℕ) (b : B) : Option (State B) := do
  let (s, activate) ← s.markPrecious A b
  if activate then s.activateBestChain A fuel else some s

/-- The variables of the loop of `InvalidateBlock`. -/
structure Invalidation (B : Type) where
  state : State B
  toMarkFailed : B
  candidateBlocksByWork : List B

/-- `InvalidateBlock` corrects the flags of the block before. -/
def correctFlags (toMarkFailed p : B) : State B :=
  if p = toMarkFailed ∧ (s.entry toMarkFailed).failedValid then
    s.modify toMarkFailed fun e => { e with failedValid := !e.failedValid, failedChild := true }
  else s

/-- One pass of the loop of `InvalidateBlock`. -/
def invalidateTip (v : Invalidation B) : Option (Invalidation B) := do
  let invalidWalkTip ← v.state.tip
  let s ← v.state.disconnectTip A
  let p ← s.tip
  let s := ((s.setFailedValid invalidWalkTip).eraseCandidate invalidWalkTip).insertCandidate p
  let s := s.correctFlags v.toMarkFailed p
  let found := v.candidateBlocksByWork.filter fun c =>
    A.nChainWork p ≤ A.nChainWork c && !s.less A c p
  some {
    state := found.foldl insertCandidate s
    toMarkFailed := invalidWalkTip
    candidateBlocksByWork := v.candidateBlocksByWork.filter (· ∉ found) }

/-- The loop of `InvalidateBlock`, with a bound on its number of passes. -/
def invalidateLoop (pindex : B) : ℕ → Invalidation B → Option (Invalidation B)
  | 0, _ => none
  | fuel + 1, v =>
    if pindex ∈ v.state.chain A then do
      let v ← invalidateTip A v
      invalidateLoop pindex fuel v
    else some v

/-- A block that may be a candidate, as `InvalidateBlock` and `ResetBlockFailureFlags` ask. -/
def connectable (b : B) : Bool := (s.entry b).isValid .transactions && (s.entry b).haveNumChainTxs

/-- `InvalidateBlock` after its loop. -/
def markInvalid (b : B) : State B :=
  let s := ((s.setFailedValid b).eraseCandidate b).insertFailed b
  let s := (s.index.filter fun c => s.connectable c && !s.belowTip A c).foldl insertCandidate s
  s.invalidChainFound A b

/-- `InvalidateBlock`, with what it returns. -/
def invalidateBlock (b : B) : Option (State B × Bool) :=
  match A.parent b with
  | none => some (s, false)
  | some p => do
    let byWork := s.index.filter fun c => c ∉ s.chain A && !s.less A c p && s.connectable c
    let v ← invalidateLoop A b ((s.chain A).length + 1) ⟨s, b, byWork⟩
    if v.toMarkFailed ∈ v.state.chain A then some (v.state, false)
    else v.state.tip.map fun _ => (v.state.markInvalid A v.toMarkFailed, true)

/-- `ResetBlockFailureFlags`, for a block of the index that descends from `b`. -/
def resetDescendant (b c : B) : State B :=
  if !(s.entry c).isValid .transactions && b ∈ A.path c then
    let s := s.modify c Entry.clearFailed
    let s := if s.connectable c && s.aboveTip A c then s.insertCandidate c else s
    let s := if s.mBestInvalid = some c then { s with mBestInvalid := none } else s
    s.eraseFailed c
  else s

/-- `ResetBlockFailureFlags`, for an ancestor. -/
def resetAncestor (c : B) : State B :=
  if (s.entry c).failed then (s.modify c Entry.clearFailed).eraseFailed c else s

/-- `ResetBlockFailureFlags`. -/
def resetBlockFailureFlags (b : B) : State B :=
  let s := s.index.foldl (fun s c => s.resetDescendant A b c) s
  (A.path b).foldl resetAncestor s

/-- What the checks of a header say: `CheckBlockHeader`, `ContextualCheckBlockHeader`, and whether
its chain has been checked for work. -/
structure HeaderChecks where
  checkBlockHeader : Bool
  contextualCheckBlockHeader : Bool
  minPowChecked : Bool
  deriving DecidableEq, Repr

/-- `AddToBlockIndex`. -/
def addToBlockIndex (b : B) : State B :=
  if b ∈ s.index then s
  else { s with
    index := s.index ++ [b]
    entry := Function.update s.entry b A.newEntry
    mBestHeader := A.newBestHeader s.mBestHeader b }

/-- `AcceptBlockHeader` for a block with a parent that is not in the index yet, up to the test of
`min_pow_checked`. -/
def checkAncestors (p : B) : Option (State B × Bool) :=
  if (s.entry p).isValid .scripts then some (s, true)
  else
    match (A.pointerOrder s.mFailedBlocks).find? (· ∈ A.path p) with
    | none => some (s, true)
    | some failed =>
      if (s.entry failed).failedValid then
        some (((A.path p).takeWhile (· ≠ failed)).foldl setFailedChild s, false)
      else none

/-- `AcceptBlockHeader`; `none` is the failure of its assertion. -/
def acceptBlockHeader (b : B) (checks : HeaderChecks) : Option (State B × Bool) :=
  match A.parent b with
  | none =>
    if checks.minPowChecked then some (s.addToBlockIndex A b, true) else some (s, false)
  | some p =>
    if b ∈ s.index then some (s, !(s.entry b).failed)
    else if !checks.checkBlockHeader then some (s, false)
    else if p ∉ s.index then some (s, false)
    else if (s.entry p).failed then some (s, false)
    else if !checks.contextualCheckBlockHeader then some (s, false)
    else do
      let (s, ok) ← s.checkAncestors A p
      if !ok then some (s, false)
      else if !checks.minPowChecked then some (s, false)
      else some (s.addToBlockIndex A b, true)

/-- What `CheckBlock` and `ContextualCheckBlock` say. -/
inductive BodyCheck
  | valid
  | invalid
  | mutated
  deriving DecidableEq, Repr

/-- `AcceptBlock`, with what is found out about the block and where it is stored. -/
def acceptBlock (b : B) (checks : HeaderChecks) (fRequested : Bool) (body : BodyCheck)
    (pos : FilePos) : Option (State B × Bool) := do
  let (s, acceptedHeader) ← s.acceptBlockHeader A b checks
  if !acceptedHeader then some (s, false)
  else
    let fHasMoreOrSameWork := s.tip.all fun t => A.nChainWork t ≤ A.nChainWork b
    -- `ActiveHeight()` is -1 for an empty chain
    let fTooFarAhead := A.height b + 1 > s.tip.elim 0 (fun t => A.height t + 1) + 288
    if (s.entry b).haveData then some (s, true)
    else if !fRequested && ((s.entry b).nTx != 0 || !fHasMoreOrSameWork || fTooFarAhead ||
        A.nChainWork b < A.nMinimumChainWork) then some (s, true)
    else
      match body with
      | .valid => some (s.receivedBlockTransactions A b pos, true)
      | .invalid => some (s.setFailedValid b, false)
      | .mutated => some (s, false)

end State

end KPCoin.Chainstate
