import KPCoin.Data.Map
import KPCoin.Data.MultiIndex
import KPCoin.Primitives.Transaction

/-!
# The transaction request tracker

`TxRequestTracker` (`txrequest.cpp`) remembers which peers have announced which transactions, and
from whom to request them.  An announcement is an object in a container with three indexes; an
iterator is modelled by the announcement it points to, and moves on with it when it is modified.

A call that runs into a failed assertion, or into an iterator that is no longer valid, is `none`.
`m_sequence` counts announcements and is taken without its bound of `2 ^ 59`; the counters of
`PeerInfo` are integers, so that a decrement below zero would show.
-/

namespace KPCoin.TxRequest

open OrderedList

/-- `State`. -/
inductive State
  | candidateDelayed
  | candidateReady
  | candidateBest
  | requested
  | completed
  deriving DecidableEq, Repr

/-- The value of the enumerator, by which the states are compared. -/
def State.rank : State → ℕ
  | .candidateDelayed => 0
  | .candidateReady => 1
  | .candidateBest => 2
  | .requested => 3
  | .completed => 4

/-- `GenTxid`. -/
structure GenTxid where
  isWtxid : Bool
  hash : Uint256
  deriving DecidableEq, Repr

/-- `Announcement`.  Times are in microseconds.  The sequence number, for which the source keeps 59
bits, has no bound here. -/
structure Announcement where
  txhash : Uint256
  time : ℤ
  peer : ℤ
  sequence : ℕ
  preferred : Bool
  isWtxid : Bool
  state : State := .candidateDelayed
  deriving DecidableEq, Repr

namespace Announcement

variable (a : Announcement) (s : State)

/-- `IsSelected`. -/
def isSelected : Bool := a.state == .candidateBest || a.state == .requested

/-- `IsWaiting`. -/
def isWaiting : Bool := a.state == .requested || a.state == .candidateDelayed

/-- `IsSelectable`. -/
def isSelectable : Bool := a.state == .candidateReady || a.state == .candidateBest

/-- `SetState`. -/
def setState (s : State) : Announcement := { a with state := s }

@[simp] theorem setState_state : (a.setState s).state = s := rfl

@[simp] theorem setState_txhash : (a.setState s).txhash = a.txhash := rfl

@[simp] theorem setState_peer : (a.setState s).peer = a.peer := rfl

@[simp] theorem setState_self : a.setState a.state = a := rfl

@[simp] theorem setState_setState (s s' : State) : (a.setState s).setState s' = a.setState s' := rfl

/-- `ToGenTxid`. -/
def toGenTxid : GenTxid := ⟨a.isWtxid, a.txhash⟩

end Announcement

/-- `PriorityComputer`, with the salted hash of a transaction and a peer. -/
structure PriorityComputer where
  sipHash : Uint256 → ℤ → BitVec 64

/-- The priority of an announcement: the upper 63 bits of the hash, below the preference. -/
def PriorityComputer.priority (C : PriorityComputer) (a : Announcement) : ℕ :=
  (C.sipHash a.txhash a.peer >>> 1 ||| if a.preferred then 1#64 <<< 63 else 0).toNat

/-- `WaitState` and `GetWaitState`: waiting announcements come first, selectable ones last. -/
def waitState (a : Announcement) : ℕ := if a.isWaiting then 0 else if a.isSelectable then 2 else 1

/-- `ByPeerView`. -/
abbrev PeerKey := ℤ ×ₗ Bool ×ₗ ℕ

/-- A key of the first index. -/
def peerKey (peer : ℤ) (best : Bool) (txhash : Uint256) : PeerKey :=
  toLex (peer, toLex (best, txhash.toNat))

/-- `ByPeerViewExtractor`. -/
def byPeer (a : Announcement) : PeerKey := peerKey a.peer (a.state == .candidateBest) a.txhash

/-- `ByTxHashView`. -/
abbrev TxHashKey := ℕ ×ₗ ℕ ×ₗ ℕ

/-- A key of the second index. -/
def txHashKey (txhash : Uint256) (s : State) (priority : ℕ) : TxHashKey :=
  toLex (txhash.toNat, toLex (s.rank, priority))

/-- `ByTxHashViewExtractor`: only announcements that are ready are compared by priority. -/
def byTxHash (C : PriorityComputer) (a : Announcement) : TxHashKey :=
  txHashKey a.txhash a.state (if a.state = .candidateReady then C.priority a else 0)

/-- `ByTimeViewExtractor`. -/
def byTime (a : Announcement) : ℕ ×ₗ ℤ := toLex (waitState a, a.time)

/-- `Index`. -/
abbrev Index (C : PriorityComputer) := MultiIndex byPeer (byTxHash C) byTime

/-- `PeerInfo`. -/
structure PeerInfo where
  total : ℤ := 0
  completed : ℤ := 0
  requested : ℤ := 0
  deriving DecidableEq, Repr

/-- `TxRequestTracker::Impl`. -/
structure Tracker (C : PriorityComputer) where
  currentSequence : ℕ := 0
  index : Index C := .empty
  peerinfo : Map ℤ PeerInfo := ∅

/-- One if the announcement is in this state. -/
def Announcement.inState (a : Announcement) (s : State) : ℤ := if a.state = s then 1 else 0

namespace Tracker

variable {C : PriorityComputer}

/-- `Erase`. -/
def erase (t : Tracker C) (a : Announcement) : Option (Tracker C) := do
  let info ← t.peerinfo.lookup a.peer
  let info : PeerInfo :=
    { total := info.total - 1
      completed := info.completed - a.inState .completed
      requested := info.requested - a.inState .requested }
  return { t with
    peerinfo := if info.total = 0 then t.peerinfo.erase a.peer else t.peerinfo.insert a.peer info
    index := t.index.erase a }

/-- `Modify`, of `a` into `a'`.  The counters are updated from what the iterator points to, which
has to survive the modification. -/
def modify (t : Tracker C) (a a' : Announcement) : Option (Tracker C) := do
  let info ← t.peerinfo.lookup a.peer
  let index := t.index.modify a a'
  guard (a' ∈ index.fst)
  return { t with
    peerinfo := t.peerinfo.insert a.peer
      { info with
        completed := info.completed - a.inState .completed + a'.inState .completed
        requested := info.requested - a.inState .requested + a'.inState .requested }
    index := index }

/-- `PromoteCandidateReady`. -/
def promoteCandidateReady (t : Tracker C) (a : Announcement) : Option (Tracker C) := do
  guard (a.state = .candidateDelayed)
  let ready := a.setState .candidateReady
  let t ← t.modify a ready
  match next ready t.index.snd with
  | none => t.modify ready (a.setState .candidateBest)
  | some following =>
    if following.txhash ≠ a.txhash ∨ following.state = .completed then
      t.modify ready (a.setState .candidateBest)
    else if following.state = .candidateBest then
      if C.priority ready > C.priority following then do
        let t ← t.modify following (following.setState .candidateReady)
        t.modify ready (a.setState .candidateBest)
      else return t
    else return t

/-- `ChangeAndReselect`. -/
def changeAndReselect (t : Tracker C) (a : Announcement) (s : State) : Option (Tracker C) := do
  guard (s = .completed ∨ s = .candidateDelayed)
  let t ← (match prev a t.index.snd with
    | none => some t
    | some previous =>
      if a.isSelected ∧ previous.txhash = a.txhash ∧ previous.state = .candidateReady then
        t.modify previous (previous.setState .candidateBest)
      else some t)
  t.modify a (a.setState s)

/-- `IsOnlyNonCompleted`. -/
def isOnlyNonCompleted (t : Tracker C) (a : Announcement) : Bool :=
  !(prev a t.index.snd).any (fun b => b.txhash == a.txhash) &&
    !(next a t.index.snd).any fun b => b.txhash == a.txhash && b.state != .completed

/-- `it = Erase(it)` as long as the hash is this one.  The fuel bounds the number of erasures. -/
def eraseHash (txhash : Uint256) : ℕ → Tracker C → Announcement → Option (Tracker C)
  | 0, _, _ => none
  | n + 1, t, a => do
    let following := next a t.index.snd
    let t ← t.erase a
    match following with
    | none => return t
    | some b => if b.txhash = txhash then eraseHash txhash n t b else return t

/-- `MakeCompleted`, with whether the announcement still exists. -/
def makeCompleted (t : Tracker C) (a : Announcement) : Option (Tracker C × Bool) :=
  if a.state = .completed then some (t, true)
  else if t.isOnlyNonCompleted a then
    (eraseHash a.txhash t.index.snd.length t a).map (·, false)
  else (t.changeAndReselect a .completed).map (·, true)

/-- The first loop of `SetTimePoint`, with the announcements that have expired. -/
def promoteLoop (now : ℤ) :
    ℕ → Tracker C → List (ℤ × GenTxid) → Option (Tracker C × List (ℤ × GenTxid))
  | 0, _, _ => none
  | n + 1, t, expired =>
    match t.index.trd.head? with
    | none => some (t, expired)
    | some a =>
      if a.state = .candidateDelayed ∧ a.time ≤ now then do
        promoteLoop now n (← t.promoteCandidateReady a) expired
      else if a.state = .requested ∧ a.time ≤ now then do
        let (t, _) ← t.makeCompleted a
        promoteLoop now n t (expired ++ [(a.peer, a.toGenTxid)])
      else some (t, expired)

/-- The second loop of `SetTimePoint`. -/
def demoteLoop (now : ℤ) : ℕ → Tracker C → Option (Tracker C)
  | 0, _ => none
  | n + 1, t =>
    match t.index.trd.getLast? with
    | none => some t
    | some a =>
      if a.isSelectable ∧ a.time > now then do
        demoteLoop now n (← t.changeAndReselect a .candidateDelayed)
      else some t

/-- `SetTimePoint`.  Each loop visits an announcement at most once. -/
def setTimePoint (t : Tracker C) (now : ℤ) : Option (Tracker C × List (ℤ × GenTxid)) := do
  let (t, expired) ← promoteLoop now (t.index.trd.length + 1) t []
  let t ← demoteLoop now (t.index.trd.length + 1) t
  return (t, expired)

/-- The announcement with this key in the first index. -/
def find (t : Tracker C) (k : PeerKey) : Option Announcement :=
  t.index.fst.find? fun a => decide (byPeer a = k)

/-- The loop of `DisconnectedPeer`.  What follows is decided before the announcement is dropped. -/
def disconnectLoop (peer : ℤ) : ℕ → Tracker C → Announcement → Option (Tracker C)
  | 0, _, _ => none
  | n + 1, t, a => do
    let following := (next a t.index.fst).filter fun b => b.peer = peer
    let (t, kept) ← t.makeCompleted a
    let t ← (if kept then t.erase (a.setState .completed) else some t)
    match following with
    | none => return t
    | some b => disconnectLoop peer n t (← t.index.fst.find? fun c => c.sequence = b.sequence)

/-- `DisconnectedPeer`. -/
def disconnectedPeer (t : Tracker C) (peer : ℤ) : Option (Tracker C) :=
  match lowerBound byPeer (peerKey peer false 0) t.index.fst with
  | none => some t
  | some a => if a.peer = peer then disconnectLoop peer t.index.fst.length t a else some t

/-- `ForgetTxHash`. -/
def forgetTxHash (t : Tracker C) (txhash : Uint256) : Option (Tracker C) :=
  match lowerBound (byTxHash C) (txHashKey txhash .candidateDelayed 0) t.index.snd with
  | none => some t
  | some a => if a.txhash = txhash then eraseHash txhash t.index.snd.length t a else some t

/-- `ReceivedInv`. -/
def receivedInv (t : Tracker C) (peer : ℤ) (gtxid : GenTxid) (preferred : Bool) (reqtime : ℤ) :
    Tracker C :=
  if (t.find (peerKey peer true gtxid.hash)).isSome then t
  else
    match t.index.emplace
      { txhash := gtxid.hash, time := reqtime, peer, sequence := t.currentSequence, preferred
        isWtxid := gtxid.isWtxid } with
    | none => t
    | some index =>
      let info := (t.peerinfo.lookup peer).getD {}
      { currentSequence := t.currentSequence + 1
        index := index
        peerinfo := t.peerinfo.insert peer { info with total := info.total + 1 } }

/-- `GetRequestable`, with the list it fills in. -/
def getRequestable (t : Tracker C) (peer now : ℤ) :
    Option (Tracker C × List GenTxid × List (ℤ × GenTxid)) := do
  let (t, expired) ← t.setTimePoint now
  let selected := range byPeer (peerKey peer true 0)
    (fun a => a.peer == peer && a.state == .candidateBest) t.index.fst
  let sorted := selected.mergeSort fun a b => decide (a.sequence ≤ b.sequence)
  return (t, sorted.map Announcement.toGenTxid, expired)

/-- `RequestedTx`. -/
def requestedTx (t : Tracker C) (peer : ℤ) (txhash : Uint256) (expiry : ℤ) : Option (Tracker C) :=
  match t.find (peerKey peer true txhash) with
  | some a => t.modify a { a with state := .requested, time := expiry }
  | none =>
    match t.find (peerKey peer false txhash) with
    | none => some t
    | some a =>
      if a.state ≠ .candidateDelayed ∧ a.state ≠ .candidateReady then some t
      else do
        let t ← (match lowerBound (byTxHash C) (txHashKey txhash .candidateBest 0) t.index.snd with
          | none => some t
          | some old =>
            if old.txhash ≠ txhash then some t
            else if old.state = .candidateBest then t.modify old (old.setState .candidateReady)
            else if old.state = .requested then t.modify old (old.setState .completed)
            else some t)
        t.modify a { a with state := .requested, time := expiry }

/-- `ReceivedResponse`. -/
def receivedResponse (t : Tracker C) (peer : ℤ) (txhash : Uint256) : Option (Tracker C) :=
  match (t.find (peerKey peer false txhash)).or (t.find (peerKey peer true txhash)) with
  | none => some t
  | some a => (t.makeCompleted a).map Prod.fst

/-- `PostGetRequestableSanityCheck`. -/
def PostGetRequestableSanityCheck (t : Tracker C) (now : ℤ) : Prop :=
  ∀ ann ∈ t.index,
    if ann.isWaiting then ann.time > now else if ann.isSelectable then ann.time ≤ now else True

end Tracker

/-- `RecomputePeerInfo`. -/
def recomputePeerInfo (index : List Announcement) : Map ℤ PeerInfo :=
  Map.tally Announcement.peer
    (fun info ann =>
      { total := info.total + 1
        completed := info.completed + ann.inState .completed
        requested := info.requested + ann.inState .requested })
    {} index

/-- `TxHashInfo`. -/
structure TxHashInfo where
  candidateDelayed : ℕ := 0
  candidateReady : ℕ := 0
  candidateBest : ℕ := 0
  requested : ℕ := 0
  priorityCandidateBest : ℕ := 2 ^ 64 - 1
  priorityBestCandidateReady : ℕ := 0
  peers : List ℤ := []
  deriving DecidableEq, Repr

/-- The body of the loop of `ComputeTxHashInfo`. -/
def TxHashInfo.add (C : PriorityComputer) (info : TxHashInfo) (ann : Announcement) :
    TxHashInfo where
  candidateDelayed := info.candidateDelayed + if ann.state = .candidateDelayed then 1 else 0
  candidateReady := info.candidateReady + if ann.state = .candidateReady then 1 else 0
  candidateBest := info.candidateBest + if ann.state = .candidateBest then 1 else 0
  requested := info.requested + if ann.state = .requested then 1 else 0
  priorityCandidateBest :=
    if ann.state = .candidateBest then C.priority ann else info.priorityCandidateBest
  priorityBestCandidateReady :=
    if ann.state = .candidateReady then max info.priorityBestCandidateReady (C.priority ann)
    else info.priorityBestCandidateReady
  peers := info.peers ++ [ann.peer]

/-- `ComputeTxHashInfo`. -/
def computeTxHashInfo (C : PriorityComputer) (index : List Announcement) : Map Uint256 TxHashInfo :=
  Map.tally Announcement.txhash (TxHashInfo.add C) {} index

/-- `SanityCheck`. -/
def Tracker.SanityCheck {C : PriorityComputer} (t : Tracker C) : Prop :=
  (∀ p, t.peerinfo.lookup p = (recomputePeerInfo t.index.fst).lookup p) ∧
    ∀ h info, (computeTxHashInfo C t.index.fst).lookup h = some info →
      -- not only completed announcements
      info.candidateDelayed + info.candidateReady + info.candidateBest + info.requested > 0 ∧
      -- at most one selected announcement, and exactly one if one is ready
      info.candidateBest + info.requested ≤ 1 ∧
      (info.candidateReady > 0 → info.candidateBest + info.requested = 1) ∧
      -- the best candidate is at least as good as the ready ones
      (info.candidateReady ≠ 0 ∧ info.candidateBest ≠ 0 →
        info.priorityCandidateBest ≥ info.priorityBestCandidateReady) ∧
      -- no peer has announced the transaction twice: `std::sort`, `std::adjacent_find`
      (info.peers.mergeSort fun p q => decide (p ≤ q)).IsChain (· ≠ ·)

end KPCoin.TxRequest
