import KPCoin.Pow.Work
import KPCoin.Program.Wp

/-!
# Headers synchronisation: the state machine

`HeadersSyncState` (`headerssync.h`, `headerssync.cpp`) downloads the headers of a peer twice.  In
the first phase it only adds up their work and keeps one bit for every 606th header; once the work
suffices it asks for the same headers again, checks them against the bits, and hands out those
that are buried deep enough.

The members that never change after construction are a `SyncConfig`, the others the state
`HeadersSyncState`.  A member function that returns `false` stops with `failed`, in the state it
has reached, and one that throws stops with `fault`.
-/

namespace KPCoin.HeadersSync

open Program Chain KPCoin.Pow

/-- `HEADER_COMMITMENT_PERIOD`. -/
def headerCommitmentPeriod : ℕ := 606

/-- `REDOWNLOAD_BUFFER_SIZE`. -/
def redownloadBufferSize : ℕ := 14441

/-- `CompressedHeader`: a header without the hash of its parent. -/
structure CompressedHeader where
  nVersion : ℤ
  hashMerkleRoot : Uint256
  nTime : ℕ
  nBits : Compact
  nNonce : ℕ
  deriving DecidableEq, Repr

namespace CompressedHeader

/-- The constructor from a header. -/
def ofHeader (header : BlockHeader) : CompressedHeader where
  nVersion := header.nVersion
  hashMerkleRoot := header.hashMerkleRoot
  nTime := header.nTime
  nBits := header.nBits
  nNonce := header.nNonce

/-- `GetFullHeader`. -/
def getFullHeader (c : CompressedHeader) (hashPrevBlock : Uint256) : BlockHeader where
  nVersion := c.nVersion
  hashPrevBlock := hashPrevBlock
  hashMerkleRoot := c.hashMerkleRoot
  nTime := c.nTime
  nBits := c.nBits
  nNonce := c.nNonce

@[simp] theorem getFullHeader_ofHeader (h : BlockHeader) :
    (ofHeader h).getFullHeader h.hashPrevBlock = h := rfl

@[simp] theorem nBits_ofHeader (h : BlockHeader) : (ofHeader h).nBits = h.nBits := rfl

end CompressedHeader

/-- The constant members, and what the constructor reads from outside. -/
structure SyncConfig where
  hdr : HeaderFns
  /-- `m_consensus_params`. -/
  params : Params
  /-- `m_chain_start`. -/
  chainStart : BlockIndex
  /-- The ancestors of `m_chain_start`. -/
  pprev : Branch
  /-- `m_minimum_required_work`. -/
  minimumRequiredWork : Arith
  /-- `m_commit_offset`, a random number below `HEADER_COMMITMENT_PERIOD`. -/
  commitOffset : ℕ
  /-- `m_hasher`, a salted hash function with 64-bit values. -/
  hasher : Uint256 → BitVec 64
  /-- `NodeClock::now()` at construction, in nanoseconds. -/
  now : ℤ

/-- `HeadersSyncState::State`. -/
inductive DownloadState
  | presync
  | redownload
  | final
  deriving DecidableEq, Repr

/-- The members that change.  Heights are `int64_t`, and far from overflowing. -/
structure HeadersSyncState where
  currentChainWork : Arith
  headerCommitments : List Bool := []
  lastHeaderReceived : BlockHeader
  currentHeight : ℤ
  redownloadedHeaders : List CompressedHeader := []
  redownloadBufferLastHeight : ℤ := 0
  redownloadBufferLastHash : Uint256 := 0
  redownloadBufferFirstPrevHash : Uint256 := 0
  redownloadChainWork : Arith := 0
  processAllRemainingHeaders : Bool := false
  downloadState : DownloadState := .presync
  deriving DecidableEq, Repr

/-- `HeadersSyncState::ProcessingResult`. -/
structure ProcessingResult where
  powValidatedHeaders : List BlockHeader := []
  success : Bool := false
  requestMore : Bool := false
  deriving DecidableEq, Repr

/-- Why a member function stops: it returns `false`, or an exception leaves it. -/
inductive SyncStop
  | failed
  | fault
  deriving DecidableEq, Repr

/-- The member functions. -/
abbrev SyncM := EStateM SyncStop HeadersSyncState

namespace SyncConfig

variable (C : SyncConfig)

/-- `m_max_commitments`: six blocks a second since the median time of the start, in commitments.
The division is one of unsigned numbers. -/
def maxCommitments : ℕ :=
  let elapsed := (C.now - 10 ^ 9 * getMedianTimePast (C.chainStart :: C.pprev)).tdiv (10 ^ 9)
  (BitVec.ofInt 64 (6 * (elapsed + maxFutureBlockTime))).toNat / headerCommitmentPeriod

/-- `height % HEADER_COMMITMENT_PERIOD == m_commit_offset`, an unsigned remainder. -/
def commits (height : ℤ) : Bool :=
  (BitVec.ofInt 64 height).toNat % headerCommitmentPeriod == C.commitOffset

/-- `m_hasher(header.GetHash()) & 1`. -/
def commitment (header : BlockHeader) : Bool := (C.hasher (C.hdr.getHash header)).getLsbD 0

/-- The constructor of `HeadersSyncState`. -/
def start : HeadersSyncState where
  currentChainWork := C.chainStart.nChainWork
  lastHeaderReceived := getBlockHeader C.chainStart C.pprev
  currentHeight := C.chainStart.nHeight

end SyncConfig

/-- A `CBlockHeader` after `SetNull`. -/
def nullHeader : BlockHeader := { hashPrevBlock := 0, nBits := 0 }

/-- `Finalize`. -/
def HeadersSyncState.finalize (s : HeadersSyncState) : HeadersSyncState :=
  { s with
    headerCommitments := []
    lastHeaderReceived := nullHeader
    redownloadedHeaders := []
    redownloadBufferLastHash := 0
    redownloadBufferFirstPrevHash := 0
    processAllRemainingHeaders := false
    currentHeight := 0
    downloadState := .final }

/-- Fail unless `PermittedDifficultyTransition`. -/
def requireTransition (p : Params) (height : ℤ) (oldBits newBits : Compact) : SyncM Unit :=
  match permittedDifficultyTransition p height oldBits newBits with
  | none => throw .fault
  | some b => rejectIf (!b) .failed

/-- Whether the function succeeds.  An exception goes on. -/
def succeeds (m : SyncM Unit) : SyncM Bool := fun s =>
  match m s with
  | .ok _ s => .ok true s
  | .error .failed s => .ok false s
  | .error .fault s => .error .fault s

/-- `next_height` in `ValidateAndProcessSingleHeader`: an `int`, though the member is an
`int64_t`. -/
def HeadersSyncState.nextHeight (s : HeadersSyncState) : ℤ :=
  (BitVec.ofInt 32 (s.currentHeight + 1)).toInt

variable (C : SyncConfig)

/-- `ValidateAndProcessSingleHeader`. -/
def validateAndProcessSingleHeader (current : BlockHeader) : SyncM Unit := do
  let s ← get
  rejectIf (s.downloadState != .presync) .failed
  requireTransition C.params s.nextHeight s.lastHeaderReceived.nBits current.nBits
  (if C.commits s.nextHeight then do
    modify fun s => { s with headerCommitments := s.headerCommitments ++ [C.commitment current] }
    rejectIf (decide (s.headerCommitments.length + 1 > C.maxCommitments)) .failed
  else pure ())
  modify fun s => { s with
    currentChainWork := s.currentChainWork + getBlockProof current.nBits
    lastHeaderReceived := current
    currentHeight := s.nextHeight }

/-- The switch to the second phase. -/
def HeadersSyncState.startRedownload (s : HeadersSyncState) : HeadersSyncState :=
  { s with
    redownloadedHeaders := []
    redownloadBufferLastHeight := C.chainStart.nHeight
    redownloadBufferFirstPrevHash := C.chainStart.hash
    redownloadBufferLastHash := C.chainStart.hash
    redownloadChainWork := C.chainStart.nChainWork
    downloadState := .redownload }

/-- `ValidateAndStoreHeadersCommitments`. -/
def validateAndStoreHeadersCommitments (headers : List BlockHeader) : SyncM Unit :=
  match headers with
  | [] => pure ()
  | first :: _ => do
    let s ← get
    rejectIf (s.downloadState != .presync) .failed
    rejectIf (first.hashPrevBlock != C.hdr.getHash s.lastHeaderReceived) .failed
    headers.forM (validateAndProcessSingleHeader C)
    modify fun s =>
      if s.currentChainWork ≥ C.minimumRequiredWork then s.startRedownload C else s

/-- `ValidateAndStoreRedownloadedHeader`. -/
def validateAndStoreRedownloadedHeader (header : BlockHeader) : SyncM Unit := do
  let s ← get
  rejectIf (s.downloadState != .redownload) .failed
  let nextHeight := s.redownloadBufferLastHeight + 1
  rejectIf (header.hashPrevBlock != s.redownloadBufferLastHash) .failed
  let previousBits := (s.redownloadedHeaders.getLast?.map CompressedHeader.nBits).getD
    C.chainStart.nBits
  requireTransition C.params nextHeight previousBits header.nBits
  let work := s.redownloadChainWork + getBlockProof header.nBits
  let processAll := decide (work ≥ C.minimumRequiredWork) || s.processAllRemainingHeaders
  modify fun s => { s with redownloadChainWork := work, processAllRemainingHeaders := processAll }
  (if !processAll && C.commits nextHeight then
    match s.headerCommitments with
    | [] => throw .failed
    | expected :: rest => do
      modify fun s => { s with headerCommitments := rest }
      rejectIf (C.commitment header != expected) .failed
  else pure ())
  modify fun s => { s with
    redownloadedHeaders := s.redownloadedHeaders ++ [CompressedHeader.ofHeader header]
    redownloadBufferLastHeight := nextHeight
    redownloadBufferLastHash := C.hdr.getHash header }

/-- The loop of `PopHeadersReadyForAcceptance`: the headers it takes from the buffer, what stays,
and the parent hash of the first that stays. -/
def popReady (processAll : Bool) :
    Uint256 → List CompressedHeader → List BlockHeader × List CompressedHeader × Uint256
  | firstPrev, [] => ([], [], firstPrev)
  | firstPrev, c :: rest =>
    if rest.length + 1 > redownloadBufferSize || processAll then
      let header := c.getFullHeader firstPrev
      let (ready, stays, firstPrev) := popReady processAll (C.hdr.getHash header) rest
      (header :: ready, stays, firstPrev)
    else ([], c :: rest, firstPrev)

/-- `PopHeadersReadyForAcceptance`. -/
def popHeadersReadyForAcceptance : SyncM (List BlockHeader) := do
  let s ← get
  if s.downloadState != .redownload then return []
  let (ready, stays, firstPrev) := popReady C s.processAllRemainingHeaders
    s.redownloadBufferFirstPrevHash s.redownloadedHeaders
  set { s with redownloadedHeaders := stays, redownloadBufferFirstPrevHash := firstPrev }
  return ready

/-- The target was reached and everything has been handed out. -/
def HeadersSyncState.complete (s : HeadersSyncState) : Bool :=
  s.redownloadedHeaders.isEmpty && s.processAllRemainingHeaders

/-- The first phase of `ProcessNextHeaders`. -/
def processPresync (receivedHeaders : List BlockHeader) (full : Bool) : SyncM ProcessingResult := do
  let success ← succeeds (validateAndStoreHeadersCommitments C receivedHeaders)
  let s ← get
  return { success, requestMore := success && (full || s.downloadState == .redownload) }

/-- The second phase of `ProcessNextHeaders`. -/
def processRedownload (receivedHeaders : List BlockHeader) (full : Bool) :
    SyncM ProcessingResult := do
  let success ← succeeds (receivedHeaders.forM (validateAndStoreRedownloadedHeader C))
  if !success then return {}
  let ready ← popHeadersReadyForAcceptance C
  let s ← get
  return { powValidatedHeaders := ready, success := true, requestMore := !s.complete && full }

/-- `ProcessNextHeaders`. -/
def processNextHeaders (receivedHeaders : List BlockHeader) (full : Bool) :
    SyncM ProcessingResult := do
  let s ← get
  if receivedHeaders.isEmpty || s.downloadState == .final then return {}
  let ret ← (match s.downloadState with
    | .presync => processPresync C receivedHeaders full
    | .redownload => processRedownload C receivedHeaders full
    | .final => pure {})
  (if !(ret.success && ret.requestMore) then modify HeadersSyncState.finalize else pure ())
  return ret

end KPCoin.HeadersSync
