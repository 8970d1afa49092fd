import KPCoin.Data.Map
import KPCoin.Program.Wp

/-!
# The address manager

`AddrManImpl` (`addrman.cpp`, `addrman_impl.h`) remembers the addresses of peers.  An address has an
identifier; it stands in up to eight slots of the table of new addresses, or in one slot of the
table of tried ones, where an empty slot holds `-1`.

A failed assertion stops a call.  A reference into `mapInfo` is modelled by the identifier, and
`mapInfo[..]` adds a default entry if there is none (`getInfo`).

* Identifiers are the values of an `int` that is incremented for every new entry, and wraps around
  after `2 ^ 31 - 1` as it does in two's complement.
* Other counters are integers without a bound, and times are in seconds.
* The buckets and positions of an address are hashes, with a secret key, of the address and its
  network group.  They are parameters, in `Params`.
* What a call draws at random or reads from the clock is an argument of the call.
-/

namespace KPCoin.AddrMan

open Program

/-- `ADDRMAN_TRIED_BUCKET_COUNT`. -/
abbrev triedBucketCount : ℕ := 256

/-- `ADDRMAN_NEW_BUCKET_COUNT`. -/
abbrev newBucketCount : ℕ := 1024

/-- `ADDRMAN_BUCKET_SIZE`. -/
abbrev bucketSize : ℕ := 64

/-- `ADDRMAN_NEW_BUCKETS_PER_ADDRESS`. -/
def newBucketsPerAddress : ℤ := 8

/-- `ADDRMAN_HORIZON`. -/
def horizon : ℤ := 30 * 24 * 60 * 60

/-- `ADDRMAN_RETRIES`. -/
def retries : ℤ := 3

/-- `ADDRMAN_MAX_FAILURES`. -/
def maxFailures : ℤ := 10

/-- `ADDRMAN_MIN_FAIL`. -/
def minFail : ℤ := 7 * 24 * 60 * 60

/-- `ADDRMAN_REPLACEMENT`. -/
def replacement : ℤ := 4 * 60 * 60

/-- `ADDRMAN_SET_TRIED_COLLISION_SIZE`. -/
def setTriedCollisionSize : ℕ := 10

/-- `ADDRMAN_TEST_WINDOW`. -/
def testWindow : ℤ := 40 * 60

/-- A bucket and a position of `vvNew`. -/
abbrev NewSlot := Fin newBucketCount × Fin bucketSize

/-- A bucket and a position of `vvTried`. -/
abbrev TriedSlot := Fin triedBucketCount × Fin bucketSize

/-- What is computed from a `CService` or a `CNetAddr`, for the key and the network groups that the
address manager is constructed with. -/
structure Params (Service NetAddr Network : Type) where
  /-- `nKey`. -/
  nKey : ℕ
  getNetwork : Service → Network
  getNetClass : Service → Network
  isRoutable : Service → Bool
  isValid : Service → Bool
  /-- The address without its port. -/
  netAddr : Service → NetAddr
  getTriedBucket : Service → Fin triedBucketCount
  getNewBucket : Service → NetAddr → Fin newBucketCount
  /-- `GetBucketPosition`, with `fNew` and the bucket. -/
  getBucketPosition : Service → Bool → ℕ → Fin bucketSize
  /-- `CService()`. -/
  nullService : Service
  /-- `CNetAddr()`. -/
  nullNetAddr : NetAddr

/-- `CAddress`. -/
structure Address (Service : Type) where
  addr : Service
  nTime : ℤ
  nServices : ℕ
  deriving DecidableEq

/-- `AddrInfo`. -/
structure AddrInfo (Service NetAddr : Type) extends Address Service where
  source : NetAddr
  lastTry : ℤ := 0
  lastCountAttempt : ℤ := 0
  lastSuccess : ℤ := 0
  nAttempts : ℤ := 0
  nRefCount : ℤ := 0
  fInTried : Bool := false
  nRandomPos : ℤ := -1
  deriving DecidableEq

variable {Service NetAddr Network : Type}

/-- `IsTerrible`. -/
def AddrInfo.isTerrible (info : AddrInfo Service NetAddr) (now : ℤ) : Bool :=
  if now - info.lastTry ≤ 60 then false
  else if info.nTime > now + 10 * 60 then true
  else if now - info.nTime > horizon then true
  else if info.lastSuccess = 0 ∧ info.nAttempts ≥ retries then true
  else if now - info.lastSuccess > minFail ∧ info.nAttempts ≥ maxFailures then true
  else false

namespace Params

variable (P : Params Service NetAddr Network)

/-- The slot of the tried table for an address. -/
def triedSlot (addr : Service) : TriedSlot :=
  (P.getTriedBucket addr, P.getBucketPosition addr false (P.getTriedBucket addr))

/-- The slot of an address in a bucket of the new table. -/
def slotIn (addr : Service) (bucket : Fin newBucketCount) : NewSlot :=
  (bucket, P.getBucketPosition addr true bucket)

/-- The slot of the new table for an address that comes from a source. -/
def newSlot (addr : Service) (source : NetAddr) : NewSlot :=
  P.slotIn addr (P.getNewBucket addr source)

/-- `AddrInfo()`. -/
def nullInfo : AddrInfo Service NetAddr where
  addr := P.nullService
  nTime := 100000000
  nServices := 0
  source := P.nullNetAddr

end Params

/-- The members of `AddrManImpl`.  An entry of `networkCounts` has the numbers of new and of tried
addresses. -/
structure State (Service NetAddr Network : Type) where
  nIdCount : ℤ := 0
  mapInfo : Map ℤ (AddrInfo Service NetAddr) := ∅
  mapAddr : Map Service ℤ := ∅
  vRandom : List ℤ := []
  nTried : ℤ := 0
  vvTried : TriedSlot → ℤ := fun _ => -1
  nNew : ℤ := 0
  vvNew : NewSlot → ℤ := fun _ => -1
  lastGood : ℤ := 1
  /-- `m_tried_collisions`, in increasing order. -/
  triedCollisions : List ℤ := []
  networkCounts : Map Network (ℤ × ℤ) := ∅

/-- A program on the state, which stops at a failed assertion. -/
abbrev M (Service NetAddr Network : Type) := EStateM Unit (State Service NetAddr Network)

/-- `assert`. -/
def assert (c : Bool) : M Service NetAddr Network Unit := rejectIf (!c) ()

/-- The increment of an `int`. -/
def increment (n : ℤ) : ℤ := Int.bmod (n + 1) (2 ^ 32)

variable [DecidableEq Service] [DecidableEq NetAddr] [DecidableEq Network]
  (P : Params Service NetAddr Network)

namespace State

variable (s : State Service NetAddr Network)

/-- Write to the entry of an identifier. -/
def modInfo (nId : ℤ) (f : AddrInfo Service NetAddr → AddrInfo Service NetAddr) :
    State Service NetAddr Network :=
  { s with mapInfo := s.mapInfo.modify nId f }

/-- Write to a slot of `vvNew`. -/
def setNew (slot : NewSlot) (nId : ℤ) : State Service NetAddr Network :=
  { s with vvNew := Function.update s.vvNew slot nId }

/-- Write to a slot of `vvTried`. -/
def setTried (slot : TriedSlot) (nId : ℤ) : State Service NetAddr Network :=
  { s with vvTried := Function.update s.vvTried slot nId }

/-- Add to the number of new addresses, in all and of a network. -/
def countNew (net : Network) (k : ℤ) : State Service NetAddr Network :=
  { s with
    nNew := s.nNew + k
    networkCounts := s.networkCounts.insert net ((s.networkCounts.lookup net).getD 0 + (k, 0)) }

/-- Add to the number of tried addresses, in all and of a network. -/
def countTried (net : Network) (k : ℤ) : State Service NetAddr Network :=
  { s with
    nTried := s.nTried + k
    networkCounts := s.networkCounts.insert net ((s.networkCounts.lookup net).getD 0 + (0, k)) }

/-- `Find`, with the identifier of the entry that it returns. -/
def find (addr : Service) : Option ℤ :=
  (s.mapAddr.lookup addr).bind fun nId => if nId ∈ s.mapInfo then some nId else none

/-- The state after `Create`. -/
def create (addr : Address Service) (source : NetAddr) : State Service NetAddr Network :=
  State.countNew
    { s with
      nIdCount := increment s.nIdCount
      mapInfo := s.mapInfo.insert s.nIdCount
        { toAddress := addr, source, nRandomPos := s.vRandom.length }
      mapAddr := s.mapAddr.insert addr.addr s.nIdCount
      vRandom := s.vRandom ++ [s.nIdCount] }
    (P.getNetwork addr.addr) 1

/-- The state after exchanging two positions of `vRandom` that hold these identifiers. -/
def swapRandom (nRndPos1 nRndPos2 : ℕ) (nId1 nId2 : ℤ) : State Service NetAddr Network :=
  { s with
    mapInfo := (s.mapInfo.modify nId1 fun info => { info with nRandomPos := nRndPos2 }).modify nId2
      fun info => { info with nRandomPos := nRndPos1 }
    vRandom := (s.vRandom.set nRndPos1 nId2).set nRndPos2 nId1 }

/-- Drop an entry that is the last in `vRandom`. -/
def remove (nId : ℤ) (addr : Service) : State Service NetAddr Network :=
  State.countNew
    { s with
      vRandom := s.vRandom.dropLast
      mapAddr := s.mapAddr.erase addr
      mapInfo := s.mapInfo.erase nId }
    (P.getNetwork addr) (-1)

/-- Take an identifier out of a slot of the new table. -/
def dropRef (slot : NewSlot) (nId : ℤ) : State Service NetAddr Network :=
  (s.modInfo nId fun info => { info with nRefCount := info.nRefCount - 1 }).setNew slot (-1)

/-- Put an identifier into a slot of the new table. -/
def addRef (slot : NewSlot) (nId : ℤ) : State Service NetAddr Network :=
  (s.modInfo nId fun info => { info with nRefCount := info.nRefCount + 1 }).setNew slot nId

end State

/-- `mapInfo[nId]`. -/
def getInfo (nId : ℤ) : M Service NetAddr Network (AddrInfo Service NetAddr) := do
  let s ← get
  match s.mapInfo.lookup nId with
  | some info => pure info
  | none => do
    set { s with mapInfo := s.mapInfo.insert nId P.nullInfo }
    pure P.nullInfo

/-- `Create`. -/
def create (addr : Address Service) (source : NetAddr) : M Service NetAddr Network ℤ := do
  let s ← get
  set (s.create P addr source)
  pure s.nIdCount

/-- `SwapRandom`. -/
def swapRandom (nRndPos1 nRndPos2 : ℕ) : M Service NetAddr Network Unit := do
  if nRndPos1 = nRndPos2 then pure ()
  else do
    let s ← get
    match s.vRandom[nRndPos1]?, s.vRandom[nRndPos2]? with
    | some nId1, some nId2 => do
      assert (nId1 ∈ s.mapInfo)
      assert (nId2 ∈ s.mapInfo)
      set (s.swapRandom nRndPos1 nRndPos2 nId1 nId2)
    | _, _ => throw ()

/-- `Delete`. -/
def delete (nId : ℤ) : M Service NetAddr Network Unit := do
  let s ← get
  assert (nId ∈ s.mapInfo)
  let info ← getInfo P nId
  assert (!info.fInTried)
  assert (info.nRefCount == 0)
  swapRandom info.nRandomPos.toNat (s.vRandom.length - 1)
  modify fun s => s.remove P nId info.addr

/-- `ClearNew`. -/
def clearNew (slot : NewSlot) : M Service NetAddr Network Unit := do
  let s ← get
  let nIdDelete := s.vvNew slot
  if nIdDelete ≠ -1 then do
    let infoDelete ← getInfo P nIdDelete
    assert (infoDelete.nRefCount > 0)
    modify fun s => s.dropRef slot nIdDelete
    if infoDelete.nRefCount - 1 = 0 then delete P nIdDelete
    else pure ()
  else pure ()

/-- The buckets of the new table, from one on and around.  Irreducible, as the list is long. -/
@[irreducible] def newBucketsFrom (startBucket : Fin newBucketCount) : List (Fin newBucketCount) :=
  (List.finRange newBucketCount).map (startBucket + ·)

theorem mem_newBucketsFrom (startBucket bucket : Fin newBucketCount) :
    bucket ∈ newBucketsFrom startBucket := by
  unfold newBucketsFrom
  exact List.mem_map.2 ⟨bucket - startBucket, List.mem_finRange _, add_sub_cancel _ _⟩

/-- The loop of `MakeTried` that takes the entry out of its slots of the new table. -/
def dropRefs (nId : ℤ) (addr : Service) : List (Fin newBucketCount) → M Service NetAddr Network Unit
  | [] => pure ()
  | bucket :: rest => do
    let s ← get
    if s.vvNew (P.slotIn addr bucket) = nId then do
      modify fun s => s.dropRef (P.slotIn addr bucket) nId
      let info ← getInfo P nId
      if info.nRefCount = 0 then pure ()
      else dropRefs nId addr rest
    else dropRefs nId addr rest

/-- The part of `MakeTried` that moves the entry in a slot of the tried table to the new table. -/
def evict (slot : TriedSlot) : M Service NetAddr Network Unit := do
  let s ← get
  let nIdEvict := s.vvTried slot
  assert (nIdEvict ∈ s.mapInfo)
  let infoOld ← getInfo P nIdEvict
  modify fun s => s.modInfo nIdEvict fun info => { info with fInTried := false }
  modify fun s => (s.setTried slot (-1)).countTried (P.getNetwork infoOld.addr) (-1)
  let newSlot := P.newSlot infoOld.addr infoOld.source
  clearNew P newSlot
  let s ← get
  assert (s.vvNew newSlot == -1)
  modify fun s => s.modInfo nIdEvict fun info => { info with nRefCount := 1 }
  modify fun s => (s.setNew newSlot nIdEvict).countNew (P.getNetwork infoOld.addr) 1

/-- The part of `MakeTried` that frees a slot of the tried table. -/
def makeSpace (slot : TriedSlot) : M Service NetAddr Network Unit := do
  let s ← get
  if s.vvTried slot ≠ -1 then evict P slot else pure ()

/-- `MakeTried`. -/
def makeTried (nId : ℤ) : M Service NetAddr Network Unit := do
  let info ← getInfo P nId
  dropRefs P nId info.addr (newBucketsFrom (P.getNewBucket info.addr info.source))
  modify fun s => s.countNew (P.getNetwork info.addr) (-1)
  let info ← getInfo P nId
  assert (info.nRefCount == 0)
  let slot := P.triedSlot info.addr
  makeSpace P slot
  let s ← get
  assert (s.vvTried slot == -1)
  modify fun s => (s.setTried slot nId).countTried (P.getNetwork info.addr) 1
  modify fun s => s.modInfo nId fun info => { info with fInTried := true }

/-- What `AddSingle` reads from the clock, twice, and draws at random. -/
structure Draw where
  now : ℤ
  later : ℤ
  random : ℕ

/-- Whether an entry with so many references takes a slot that holds `existing`. -/
def overwrites (existing nRefCount now : ℤ) : M Service NetAddr Network Bool := do
  if existing = -1 then pure true
  else do
    let infoExisting ← getInfo P existing
    pure (infoExisting.isTerrible now || (infoExisting.nRefCount > 1 && nRefCount == 0))

/-- Put the entry into the slot, or delete it if it is in no slot. -/
def insertOrDelete (slot : NewSlot) (nId nRefCount : ℤ) (fInsert : Bool) :
    M Service NetAddr Network Unit := do
  if fInsert then do
    clearNew P slot
    modify fun s => s.addRef slot nId
  else if nRefCount = 0 then delete P nId
  else pure ()

/-- The end of `AddSingle`: put the entry into the slot that belongs to the source, unless another
entry holds the slot and is better. -/
def addToNew (nId : ℤ) (source : NetAddr) (now : ℤ) : M Service NetAddr Network Bool := do
  let pinfo ← getInfo P nId
  let slot := P.newSlot pinfo.addr source
  let s ← get
  let existing := s.vvNew slot
  if existing ≠ nId then do
    let fInsert ← overwrites P existing pinfo.nRefCount now
    insertOrDelete P slot nId pinfo.nRefCount fInsert
    pure fInsert
  else pure (existing == -1)

/-- The time and services of a known entry when it is announced again. -/
def AddrInfo.refresh (addr : Address Service) (timePenalty now : ℤ)
    (info : AddrInfo Service NetAddr) : AddrInfo Service NetAddr :=
  let updateInterval : ℤ := if now - addr.nTime < 24 * 60 * 60 then 60 * 60 else 24 * 60 * 60
  { info with
    nTime := if info.nTime < addr.nTime - updateInterval - timePenalty then
        max 0 (addr.nTime - timePenalty)
      else info.nTime
    nServices := info.nServices ||| addr.nServices }

/-- `AddSingle`. -/
def addSingle (addr : Address Service) (source : NetAddr) (timePenalty : ℤ) (draw : Draw) :
    M Service NetAddr Network Bool := do
  if !P.isRoutable addr.addr then pure false
  else do
    let timePenalty := if P.netAddr addr.addr = source then 0 else timePenalty
    let s ← get
    match s.find addr.addr with
    | some nId => do
      modify fun s => s.modInfo nId (AddrInfo.refresh addr timePenalty draw.now)
      let pinfo ← getInfo P nId
      if addr.nTime ≤ pinfo.nTime then pure false
      else if pinfo.fInTried then pure false
      else if pinfo.nRefCount = newBucketsPerAddress then pure false
      else if pinfo.nRefCount > 0 ∧ draw.random % 2 ^ pinfo.nRefCount.toNat ≠ 0 then pure false
      else addToNew P nId source draw.later
    | none => do
      let nId ← create P addr source
      modify fun s => s.modInfo nId fun info =>
        { info with nTime := max 0 (info.nTime - timePenalty) }
      addToNew P nId source draw.later

/-- `Add_`, with the draws made for each address. -/
def add (vAddr : List (Address Service × Draw)) (source : NetAddr) (timePenalty : ℤ) :
    M Service NetAddr Network Bool := do
  let added ← vAddr.foldlM (fun (added : ℕ) x => do
    let inserted ← addSingle P x.1 source timePenalty x.2
    pure (added + if inserted then 1 else 0)) 0
  pure (added > 0)

/-- Remember that an entry waits for a slot of the tried table. -/
def State.addCollision (s : State Service NetAddr Network) (nId : ℤ) :
    State Service NetAddr Network :=
  if s.triedCollisions.length < setTriedCollisionSize ∧ nId ∉ s.triedCollisions then
    { s with triedCollisions := s.triedCollisions.orderedInsert (· ≤ ·) nId }
  else s

/-- `Good_`. -/
def good (addr : Service) (testBeforeEvict : Bool) (time : ℤ) : M Service NetAddr Network Bool := do
  modify fun s => { s with lastGood := time }
  let s ← get
  match s.find addr with
  | none => pure false
  | some nId => do
    modify fun s => s.modInfo nId fun info =>
      { info with lastSuccess := time, lastTry := time, nAttempts := 0 }
    let info ← getInfo P nId
    if info.fInTried then pure false
    else if ¬ info.nRefCount > 0 then pure false
    else do
      let s ← get
      if testBeforeEvict ∧ s.vvTried (P.triedSlot info.addr) ≠ -1 then do
        set (s.addCollision nId)
        pure false
      else do
        makeTried P nId
        pure true

/-- Write to the entry of an address, if there is one. -/
def onEntry (addr : Service)
    (f : State Service NetAddr Network → AddrInfo Service NetAddr → AddrInfo Service NetAddr) :
    M Service NetAddr Network Unit := do
  let s ← get
  match s.find addr with
  | none => pure ()
  | some nId => set (s.modInfo nId (f s))

/-- An entry after a connection attempt. -/
def AddrInfo.attempted (lastGood : ℤ) (fCountFailure : Bool) (time : ℤ)
    (info : AddrInfo Service NetAddr) : AddrInfo Service NetAddr :=
  if fCountFailure ∧ info.lastCountAttempt < lastGood then
    { info with lastTry := time, lastCountAttempt := time, nAttempts := info.nAttempts + 1 }
  else { info with lastTry := time }

/-- `Attempt_`. -/
def attempt (addr : Service) (fCountFailure : Bool) (time : ℤ) : M Service NetAddr Network Unit :=
  onEntry addr fun s => AddrInfo.attempted s.lastGood fCountFailure time

/-- An entry after a connection. -/
def AddrInfo.connected (time : ℤ) (info : AddrInfo Service NetAddr) : AddrInfo Service NetAddr :=
  if time - info.nTime > 20 * 60 then { info with nTime := time } else info

/-- `Connected_`. -/
def connected (addr : Service) (time : ℤ) : M Service NetAddr Network Unit :=
  onEntry addr fun _ => AddrInfo.connected time

/-- `SetServices_`. -/
def setServices (addr : Service) (nServices : ℕ) : M Service NetAddr Network Unit :=
  onEntry addr fun _ info => { info with nServices }

/-- One turn of `ResolveCollisions_`, returning `erase_collision`. -/
def resolveCollision (idNew now : ℤ) : M Service NetAddr Network Bool := do
  let s ← get
  if idNew ∉ s.mapInfo then pure true
  else do
    let infoNew ← getInfo P idNew
    if !P.isValid infoNew.addr then pure true
    else do
      let s ← get
      let idOld := s.vvTried (P.triedSlot infoNew.addr)
      if idOld ≠ -1 then do
        let infoOld ← getInfo P idOld
        if now - infoOld.lastSuccess < replacement then pure true
        else if now - infoOld.lastTry < replacement then
          if now - infoOld.lastTry > 60 then do
            let _ ← good P infoNew.addr false now
            pure true
          else pure false
        else if now - infoNew.lastSuccess > testWindow then do
          let _ ← good P infoNew.addr false now
          pure true
        else pure false
      else do
        let _ ← good P infoNew.addr false now
        pure true

/-- `ResolveCollisions_`, with the clock when each collision is dealt with. -/
def resolveCollisions (clock : ℤ → ℤ) : M Service NetAddr Network Unit := do
  let s ← get
  s.triedCollisions.forM fun idNew => do
    let eraseCollision ← resolveCollision P idNew (clock idNew)
    if eraseCollision then
      modify fun s => { s with triedCollisions := s.triedCollisions.erase idNew }
    else pure ()

/-- `SelectTriedCollision_`.  The entry at a random position is looked at. -/
def selectTriedCollision (random : ℕ) :
    M Service NetAddr Network (Option (Address Service × ℤ)) := do
  let s ← get
  match s.triedCollisions[random % s.triedCollisions.length]? with
  | none => pure none
  | some idNew =>
    if idNew ∉ s.mapInfo then do
      set { s with triedCollisions := s.triedCollisions.erase idNew }
      pure none
    else do
      let newInfo ← getInfo P idNew
      let s ← get
      let infoOld ← getInfo P (s.vvTried (P.triedSlot newInfo.addr))
      pure (some (infoOld.toAddress, infoOld.lastTry))

/-- `GetEntry`. -/
def State.getEntry (s : State Service NetAddr Network) (useTried : Bool)
    (bucket position : ℕ) : ℤ :=
  if useTried then
    if h : position < bucketSize ∧ bucket < triedBucketCount then
      s.vvTried (⟨bucket, h.2⟩, ⟨position, h.1⟩)
    else -1
  else
    if h : position < bucketSize ∧ bucket < newBucketCount then
      s.vvNew (⟨bucket, h.2⟩, ⟨position, h.1⟩)
    else -1

/-- The random choices of one turn of the loop of `Select_`.  Whether the entry is taken is decided
by comparing a random number with a chance in floating point. -/
structure Pick where
  bucket : ℕ
  position : ℕ
  taken : Bool

/-- What `Select_` returns, or that it is still searching. -/
inductive Selection (Service : Type)
  | empty
  | found (addr : Address Service) (lastTry : ℤ)
  | searching

/-- The first identifier in a bucket, of the network asked for, from a position on. -/
def State.firstEntry (s : State Service NetAddr Network) (searchTried : Bool)
    (network : Option Network) (bucket initialPosition : ℕ) : Option ℤ :=
  ((List.range bucketSize).map fun i =>
      s.getEntry searchTried bucket ((initialPosition + i) % bucketSize)).find? fun nodeId =>
    nodeId != -1 && match network with
      | none => true
      | some net => (s.mapInfo.lookup nodeId).any fun info => P.getNetwork info.addr == net

/-- The loop of `Select_`, for as many turns as there are picks. -/
def selectLoop (searchTried : Bool) (network : Option Network) :
    List Pick → M Service NetAddr Network (Selection Service)
  | [] => pure .searching
  | pick :: picks => do
    let s ← get
    let bucketCount := if searchTried then triedBucketCount else newBucketCount
    match s.firstEntry P searchTried network (pick.bucket % bucketCount)
      (pick.position % bucketSize) with
    | none => selectLoop searchTried network picks
    | some nodeId =>
      match s.mapInfo.lookup nodeId with
      | none => throw ()
      | some info =>
        if pick.taken then pure (.found info.toAddress info.lastTry)
        else selectLoop searchTried network picks

/-- `Select_`, with the coin that chooses a table. -/
def select (newOnly : Bool) (network : Option Network) (coin : Bool) (picks : List Pick) :
    M Service NetAddr Network (Selection Service) := do
  let s ← get
  if s.vRandom.isEmpty then pure .empty
  else
    match (match network with
      | none => some (s.nNew, s.nTried)
      | some net => s.networkCounts.lookup net) with
    | none => pure .empty
    | some (newCount, triedCount) =>
      if newOnly ∧ newCount = 0 then pure .empty
      else if newCount + triedCount = 0 then pure .empty
      else
        let searchTried :=
          if newOnly ∨ triedCount = 0 then false
          else if newCount = 0 then true
          else coin
        selectLoop P searchTried network picks

/-- `GetAddr_`. -/
def getAddr (maxAddresses maxPct : ℕ) (network : Option Network) (filtered : Bool) (now : ℤ)
    (random : ℕ → ℕ) : M Service NetAddr Network (List (Address Service)) := do
  let s ← get
  let size := s.vRandom.length
  let nNodes := if maxPct ≠ 0 then maxPct * size / 100 else size
  let nNodes := if maxAddresses ≠ 0 then min nNodes maxAddresses else nNodes
  (List.range size).foldlM (fun addresses n => do
    if addresses.length ≥ nNodes then pure addresses
    else do
      swapRandom n (random n % (size - n) + n)
      let s ← get
      match (s.vRandom[n]?).bind s.mapInfo.lookup with
      | none => throw ()
      | some ai =>
        if network.any (P.getNetClass ai.addr != ·) then pure addresses
        else if ai.isTerrible now && filtered then pure addresses
        else pure (addresses ++ [ai.toAddress])) []

end KPCoin.AddrMan
