import KPCoin.LTS.Basic
import KPCoin.Pow.RandomX
import KPCoin.Validation.CheckBlock

/-!
# Accepting block headers

`ContextualCheckBlockHeader` and `AcceptBlockHeader` (`validation.cpp`).  The block index is a map
from hashes to entries, each of which is given with its ancestors.  `AddToBlockIndex` and
`GetLastCheckpoint` are not part of the tree: they are fields of `IndexFns`, with what
`AddToBlockIndex` does to the entries.

* `acceptBlockHeader` is one call, which may change entries even if it fails;
* `accept_cases` says everything a call can do to the index;
* `headers_have_randomx_pow` : the index has RandomX proof of work as long as every header that
  passes the test on `GetHash` passes the one on the RandomX hash as well, and only so;
* `header_without_randomx_pow` : a header is accepted without it.
-/

namespace KPCoin.Validation

open Program Chain

/-- An entry of `m_block_index`, with the bits of `nStatus` that are read here. -/
structure Node where
  /-- The header the entry was made from. -/
  header : BlockHeader
  /-- The entry and its ancestors. -/
  branch : Branch
  failedValid : Bool := false
  failedChild : Bool := false
  /-- The validity level is at least `BLOCK_VALID_SCRIPTS`. -/
  validScripts : Bool := false

namespace Node

/-- `nStatus & BLOCK_FAILED_MASK`. -/
def failed (n : Node) : Bool := n.failedValid || n.failedChild

/-- `IsValid(BLOCK_VALID_SCRIPTS)`. -/
def isValid (n : Node) : Bool := !n.failed && n.validScripts

/-- `nHeight`. -/
def height (n : Node) : ℕ := n.branch.head?.elim 0 BlockIndex.nHeight

end Node

/-- The block index and `m_failed_blocks`. -/
structure BlockManager where
  blockIndex : Map Uint256 Node := ∅
  failedBlocks : List Uint256 := []

/-- The functions on the block index outside the tree. -/
structure IndexFns (H : HeaderFns) where
  /-- `AddToBlockIndex`. -/
  addToBlockIndex : BlockManager → BlockHeader → BlockManager
  /-- A known header is not added again. -/
  add_known : ∀ s header, (s.blockIndex.lookup (H.getHash header)).isSome = true →
    addToBlockIndex s header = s
  /-- The other entries stay. -/
  add_other : ∀ s header hash, hash ≠ H.getHash header →
    (addToBlockIndex s header).blockIndex.lookup hash = s.blockIndex.lookup hash
  /-- A new entry is one above its parent. -/
  add_new : ∀ s header, s.blockIndex.lookup (H.getHash header) = none →
    ∃ n, (addToBlockIndex s header).blockIndex.lookup (H.getHash header) = some n ∧
      n.header = header ∧ ∀ prev, s.blockIndex.lookup header.hashPrevBlock = some prev →
        ∃ b, n.branch = b :: prev.branch ∧ b.nHeight = prev.height + 1
  /-- The height of `GetLastCheckpoint`. -/
  getLastCheckpoint : BlockManager → Option ℕ

/-- One call of `AcceptBlockHeader`, with what it reads of the node. -/
structure HeaderCall where
  header : BlockHeader
  minPowChecked : Bool
  /-- `NodeClock::now()`, in whole seconds. -/
  now : ℤ
  checkpointsEnabled : Bool

/-- Programs on the block index. -/
abbrev HeaderM := EStateM Stop BlockManager

/-- The text of `%08x`. -/
def hex8 (n : ℤ) : String :=
  let digits := Nat.toDigits 16 (BitVec.ofInt 32 n).toNat
  String.ofList (List.replicate (8 - digits.length) '0' ++ digits)

section Model

variable (E : Env) (I : IndexFns E.header) (c : HeaderCall)

/-- `DeploymentActiveAfter`. -/
def deploymentActiveAfter (pindexPrev : Branch) (dep : BuriedDeployment) : Bool :=
  decide (pindexPrev.head?.elim (0 : ℤ) (fun b => b.nHeight + 1) ≥ E.params.deploymentHeight dep)

/-- The version is too old for the deployments that are active. -/
def outdatedVersion (pindexPrev : Branch) : Bool :=
  (decide (c.header.nVersion < 2) && deploymentActiveAfter E pindexPrev .heightInCb) ||
  (decide (c.header.nVersion < 3) && deploymentActiveAfter E pindexPrev .dersig) ||
  (decide (c.header.nVersion < 4) && deploymentActiveAfter E pindexPrev .cltv)

/-- `ContextualCheckBlockHeader`. -/
def contextualCheckBlockHeader (pindexPrev : Branch) (checkpoint : Option ℕ) :
    Except Stop Unit := do
  let nHeight := pindexPrev.head?.elim 0 fun b => b.nHeight + 1
  let required ← (match Pow.getNextWorkRequired E.params pindexPrev with
    | none => .error (.fault .abort)
    | some nBits => .ok nBits)
  failIf (c.header.nBits != required) (.invalidBlock .invalidHeader "bad-diffbits")
  failIf (c.checkpointsEnabled && checkpoint.any fun h => decide (nHeight < h))
    (.invalidBlock .checkpoint "bad-fork-prior-to-checkpoint")
  failIf (decide (c.header.nTime ≤ getMedianTimePast pindexPrev))
    (.invalidBlock .invalidHeader "time-too-old")
  failIf (decide ((c.header.nTime : ℤ) > c.now + maxFutureBlockTime))
    (.invalidBlock .timeFuture "time-too-new")
  failIf (outdatedVersion E c pindexPrev)
    (.invalidBlock .invalidHeader ("bad-version(0x" ++ hex8 c.header.nVersion ++ ")"))

/-- Mark one entry as descending from a failed block. -/
def markFailedChild (hash : Uint256) (s : BlockManager) : BlockManager :=
  match s.blockIndex.lookup hash with
  | none => s
  | some n => { s with blockIndex := s.blockIndex.insert hash { n with failedChild := true } }

/-- Mark the blocks from `pindexPrev` down to the failed block. -/
def markFailedChildren (failed : Uint256) : Branch → BlockManager → BlockManager
  | [], s => s
  | b :: rest, s => if b.hash = failed then s else markFailedChildren failed rest
      (markFailedChild b.hash s)

/-- The loop over `m_failed_blocks`. -/
def checkFailedBlocks (pindexPrev : Branch) : List Uint256 → HeaderM Unit
  | [] => pure ()
  | failed :: rest => do
    let s ← get
    match s.blockIndex.lookup failed with
    | none => throw (.fault .abort)
    | some n =>
      if (getAncestor n.height pindexPrev).head?.any fun b => b.hash == failed then do
        rejectIf (!n.failedValid) (.fault .abort)
        modify (markFailedChildren failed pindexPrev)
        throw (.invalidBlock .invalidPrev "bad-prevblk")
      else checkFailedBlocks pindexPrev rest

/-- The checks of a header that is not known yet. -/
def checkNewHeader : HeaderM Unit := do
  ofExcept (checkBlockHeader E c.header true)
  let s ← get
  match s.blockIndex.lookup c.header.hashPrevBlock with
  | none => throw (.invalidBlock .missingPrev "prev-blk-not-found")
  | some prev =>
    rejectIf prev.failed (.invalidBlock .invalidPrev "bad-prevblk")
    ofExcept (contextualCheckBlockHeader E c prev.branch (I.getLastCheckpoint s))
    (if prev.isValid then pure () else checkFailedBlocks prev.branch s.failedBlocks)

/-- The end of `AcceptBlockHeader`. -/
def addHeader : HeaderM Unit := do
  rejectIf (!c.minPowChecked) (.invalidBlock .headerLowWork "too-little-chainwork")
  modify fun s => I.addToBlockIndex s c.header

/-- `AcceptBlockHeader`. -/
def acceptBlockHeader : HeaderM Unit := do
  let hash := E.header.getHash c.header
  if hash = E.params.hashGenesisBlock then addHeader E I c
  else
    let s ← get
    match s.blockIndex.lookup hash with
    | some n => rejectIf n.failed (.invalidBlock .cachedInvalid "duplicate")
    | none => do
      checkNewHeader E I c
      addHeader E I c

end Model

variable {E : Env} {I : IndexFns E.header} {c : HeaderCall} {s s' : BlockManager}
  (pindexPrev : Branch) (failed : List Uint256)

/-- The headers in the index and their places, without their status. -/
def headersOf (s : BlockManager) (hash : Uint256) : Option (BlockHeader × Branch) :=
  (s.blockIndex.lookup hash).map fun n => (n.header, n.branch)

theorem headersOf_markFailedChild (hash : Uint256) (s : BlockManager) :
    headersOf (markFailedChild hash s) = headersOf s := by
  funext hash'
  unfold markFailedChild
  cases hl : s.blockIndex.lookup hash with
  | none => rfl
  | some n =>
    simp only [headersOf, Map.lookup_insert_eq_ite]
    split_ifs with h
    · rw [h, hl]; rfl
    · rfl

theorem headersOf_markFailedChildren (failed : Uint256) (branch : Branch) (s : BlockManager) :
    headersOf (markFailedChildren failed branch s) = headersOf s := by
  induction branch generalizing s with
  | nil => rfl
  | cons b rest ih =>
    unfold markFailedChildren
    split_ifs
    · rfl
    · rw [ih, headersOf_markFailedChild]

theorem checkFailedBlocks_keeps :
    Program.keeps headersOf (checkFailedBlocks pindexPrev failed) := by
  induction failed with
  | nil => exact .pure ()
  | cons f rest ih =>
    refine .bind .get fun s => ?_
    cases s.blockIndex.lookup f with
    | none => exact .throw _
    | some n =>
      dsimp only
      split_ifs
      · exact .bind .rejectIf fun _ => .bind
          (.modify fun s => headersOf_markFailedChildren f pindexPrev s) fun _ => .throw _
      · exact ih

theorem checkNewHeader_keeps : Program.keeps headersOf (checkNewHeader E I c) := by
  refine .bind .ofExcept fun _ => .bind .get fun s => ?_
  cases s.blockIndex.lookup c.header.hashPrevBlock with
  | none => exact .throw _
  | some prev =>
    refine .bind .rejectIf fun _ => .bind .ofExcept fun _ => ?_
    split_ifs
    · exact .pure ()
    · exact checkFailedBlocks_keeps _ _

/-- A loop over the failed blocks that returns has changed nothing. -/
theorem wp_checkFailedBlocks :
    Program.wp (checkFailedBlocks pindexPrev failed) (fun _ s' => s' = s) (fun _ => True) s := by
  induction failed with
  | nil => exact rfl
  | cons f rest ih =>
    change Program.wp (match s.blockIndex.lookup f with | none => _ | some n => _) _ _ s
    cases s.blockIndex.lookup f with
    | none => trivial
    | some n =>
      dsimp only
      split_ifs
      · simp
      · exact ih

/-- A new header that passes has a parent and meets its target with its `GetHash`. -/
theorem wp_checkNewHeader :
    Program.wp (checkNewHeader E I c) (fun _ s' => s' = s ∧
      Pow.checkProofOfWork E.params (E.header.getHash c.header) c.header.nBits = true ∧
      (s.blockIndex.lookup c.header.hashPrevBlock).isSome = true) (fun _ => True) s := by
  simp only [checkNewHeader, checkBlockHeader, wp_bind, wp_ofExcept, ensures_failIf]
  refine ⟨fun _ => trivial, fun hpow => ?_⟩
  change Program.wp (match s.blockIndex.lookup c.header.hashPrevBlock with
    | none => _ | some prev => _) _ _ s
  cases s.blockIndex.lookup c.header.hashPrevBlock with
  | none => trivial
  | some prev =>
    simp only [wp_bind, wp_rejectIf, wp_ofExcept]
    refine ⟨fun _ => trivial, fun _ => ?_⟩
    have hpost : ∀ s', s' = s → s' = s ∧
        Pow.checkProofOfWork E.params (E.header.getHash c.header) c.header.nBits = true ∧
        (some prev).isSome = true := fun s' h => ⟨h, by simpa using hpow, rfl⟩
    cases contextualCheckBlockHeader E c prev.branch (I.getLastCheckpoint s) with
    | error e => trivial
    | ok u =>
      split_ifs
      · exact hpost s rfl
      · exact (wp_checkFailedBlocks _ _).mono (fun _ => hpost) fun _ => id

/-- The state after a call; a failed assertion ends the program. -/
def afterCall (E : Env) (I : IndexFns E.header) (s : BlockManager) (c : HeaderCall) :
    Option BlockManager :=
  match acceptBlockHeader E I c s with
  | .ok _ s' => some s'
  | .error (.fault _) _ => none
  | .error _ s' => some s'

/-- The call puts a new header into the index. -/
structure Accepted (E : Env) (I : IndexFns E.header) (s : BlockManager) (c : HeaderCall)
    (s' : BlockManager) : Prop where
  not_genesis : E.header.getHash c.header ≠ E.params.hashGenesisBlock
  unknown : s.blockIndex.lookup (E.header.getHash c.header) = none
  pow : Pow.checkProofOfWork E.params (E.header.getHash c.header) c.header.nBits = true
  parent : (s.blockIndex.lookup c.header.hashPrevBlock).isSome = true
  added : s' = I.addToBlockIndex s c.header

theorem addHeader_eq : addHeader E I c s =
    if c.minPowChecked then .ok () (I.addToBlockIndex s c.header)
    else .error (.invalidBlock .headerLowWork "too-little-chainwork") s := by
  unfold addHeader
  cases c.minPowChecked <;> rfl

/-- Everything a call can do to the headers in the index. -/
theorem accept_cases (hg : (s.blockIndex.lookup E.params.hashGenesisBlock).isSome = true)
    (h : afterCall E I s c = some s') : headersOf s' = headersOf s ∨ Accepted E I s c s' := by
  by_cases hgen : E.header.getHash c.header = E.params.hashGenesisBlock
  · -- the genesis block is known
    refine .inl ?_
    rw [← hgen] at hg
    have hrun : acceptBlockHeader E I c s = addHeader E I c s := by
      simp [acceptBlockHeader, hgen]
    rw [afterCall, hrun, addHeader_eq, I.add_known s c.header hg] at h
    split_ifs at h <;> cases h <;> rfl
  · cases hl : s.blockIndex.lookup (E.header.getHash c.header) with
    | some n =>
      refine .inl ?_
      have hrun : acceptBlockHeader E I c s =
          rejectIf n.failed (.invalidBlock .cachedInvalid "duplicate") s := by
        simp [acceptBlockHeader, hgen, bind, EStateM.bind, get, getThe, MonadStateOf.get,
          EStateM.get, hl]
      rw [afterCall, hrun] at h
      cases hn : n.failed <;> rw [hn] at h <;> cases h <;> rfl
    | none =>
      have hrun : acceptBlockHeader E I c s =
          (do checkNewHeader E I c; addHeader E I c) s := by
        simp [acceptBlockHeader, hgen, bind, EStateM.bind, get, getThe, MonadStateOf.get,
          EStateM.get, hl]
      rw [afterCall, hrun] at h
      simp only [bind, EStateM.bind] at h
      cases hr : checkNewHeader E I c s with
      | error e s1 =>
        have hkeep := checkNewHeader_keeps (I := I) (c := c) s
        rw [hr] at h hkeep
        refine .inl ?_
        cases e <;> cases h <;> exact hkeep
      | ok u s1 =>
        obtain ⟨rfl, hpow, hprev⟩ := wp_checkNewHeader.ok hr
        rw [hr] at h
        simp only [addHeader_eq] at h
        split_ifs at h <;> cases h
        · exact .inr ⟨hgen, hl, hpow, hprev, rfl⟩
        · exact .inl rfl

open KPCoin.Pow

/-- Every header in the index but the genesis block has RandomX proof of work for its place. -/
def RandomXPow (E : Env) (rx : RandomXHash) (s : BlockManager) : Prop :=
  ∀ hash header branch, headersOf s hash = some (header, branch) →
    hash ≠ E.params.hashGenesisBlock → ∃ b pprev, branch = b :: pprev ∧
      checkProofOfWorkRandomX E.params E.header rx header b.nHeight (keyBlockHash pprev)
        header.nBits = true

/-- If the header meets its target with its `GetHash`, then also with its RandomX hash in the place
after its parent. -/
def RandomXImplied (E : Env) (rx : RandomXHash) (s : BlockManager) (c : HeaderCall) : Prop :=
  ∀ prev, s.blockIndex.lookup c.header.hashPrevBlock = some prev →
    checkProofOfWork E.params (E.header.getHash c.header) c.header.nBits = true →
      checkProofOfWorkRandomX E.params E.header rx c.header (prev.height + 1)
        (keyBlockHash prev.branch) c.header.nBits = true

/-- Calls of `AcceptBlockHeader`, from an index with nothing but the genesis block. -/
def headerLts (E : Env) (I : IndexFns E.header) : LTS BlockManager HeaderCall where
  init s := ∃ genesis, ∀ hash, s.blockIndex.lookup hash =
    if hash = E.params.hashGenesisBlock then some genesis else none
  step s c s' := afterCall E I s c = some s'

variable {rx : RandomXHash}

theorem Accepted.headersOf_new {prev : Node} (h : Accepted E I s c s')
    (hprev : s.blockIndex.lookup c.header.hashPrevBlock = some prev) :
    ∃ b, headersOf s' (E.header.getHash c.header) = some (c.header, b :: prev.branch) ∧
      b.nHeight = prev.height + 1 := by
  obtain ⟨n, hn, hheader, hbranch⟩ := I.add_new s c.header h.unknown
  obtain ⟨b, hb, hheight⟩ := hbranch prev hprev
  refine ⟨b, ?_, hheight⟩
  rw [headersOf, h.added, hn, ← hheader, ← hb]
  rfl

theorem Accepted.headersOf_other {hash : Uint256} (h : Accepted E I s c s')
    (hne : hash ≠ E.header.getHash c.header) : headersOf s' hash = headersOf s hash := by
  rw [headersOf, h.added, I.add_other s c.header hash hne]
  rfl

/-- An accepted header keeps the index in order exactly if it has RandomX proof of work. -/
theorem Accepted.randomXPow_iff (h : Accepted E I s c s') (hs : RandomXPow E rx s) :
    RandomXPow E rx s' ↔ RandomXImplied E rx s c := by
  obtain ⟨prev, hprev⟩ := Option.isSome_iff_exists.1 h.parent
  obtain ⟨b, hnew, hheight⟩ := h.headersOf_new hprev
  have hcast : (b.nHeight : ℤ) = prev.height + 1 := by rw [hheight]; rfl
  constructor
  · intro hs' prev' hprev' _
    obtain rfl : prev = prev' := Option.mem_unique hprev hprev'
    obtain ⟨b', pprev, hcons, hcheck⟩ := hs' _ _ _ hnew h.not_genesis
    cases hcons
    rwa [hcast] at hcheck
  · intro himp hash header branch hl hne
    by_cases hh : hash = E.header.getHash c.header
    · subst hh
      obtain ⟨rfl, rfl⟩ := Prod.mk.inj (Option.mem_unique hnew hl)
      exact ⟨b, prev.branch, rfl, by rw [hcast]; exact himp prev hprev h.pow⟩
    · exact hs hash header branch ((h.headersOf_other hh).symm.trans hl) hne

theorem genesis_step (hg : (s.blockIndex.lookup E.params.hashGenesisBlock).isSome = true)
    (h : afterCall E I s c = some s') :
    (s'.blockIndex.lookup E.params.hashGenesisBlock).isSome = true := by
  have key : ∀ s : BlockManager, (s.blockIndex.lookup E.params.hashGenesisBlock).isSome =
      (headersOf s E.params.hashGenesisBlock).isSome := fun s => by simp [headersOf]
  rw [key] at hg ⊢
  obtain hsame | hacc := accept_cases (by rwa [key]) h
  · rwa [hsame]
  · rwa [hacc.headersOf_other hacc.not_genesis.symm]

theorem genesis_reachable (h : (headerLts E I).Reachable s) :
    (s.blockIndex.lookup E.params.hashGenesisBlock).isSome = true := by
  refine h.invariant (fun s ⟨g, hs⟩ => ?_) fun s c s' hg hst => genesis_step hg hst
  simp [hs]

theorem randomXPow_restrict
    (h : ((headerLts E I).restrict (RandomXImplied E rx)).Reachable s) : RandomXPow E rx s := by
  refine (h.invariant (I := fun s => (s.blockIndex.lookup E.params.hashGenesisBlock).isSome = true ∧
    RandomXPow E rx s) (fun s ⟨g, hs⟩ => ⟨by simp [hs], fun hash header branch hl hne => ?_⟩)
    fun s c s' ⟨hg, hs⟩ ⟨hst, himp⟩ => ⟨genesis_step hg hst, ?_⟩).2
  · simp [headersOf, hs, hne] at hl
  · obtain hsame | hacc := accept_cases hg hst
    · unfold RandomXPow
      rw [hsame]
      exact hs
    · exact (hacc.randomXPow_iff hs).2 himp

/-- **RandomX proof of work is enforced only through `GetHash`**: in every run whose calls all meet
`RandomXImplied`, every header in the index has RandomX proof of work; and a call that puts a header
into an index in order without meeting the condition leaves it out of order. -/
theorem headers_have_randomx_pow :
    (∀ s, ((headerLts E I).restrict (RandomXImplied E rx)).Reachable s → RandomXPow E rx s) ∧
      ∀ s c s', (headerLts E I).Reachable s → (headerLts E I).step s c s' → RandomXPow E rx s →
        headersOf s' ≠ headersOf s → ¬ RandomXImplied E rx s c → ¬ RandomXPow E rx s' := by
  refine ⟨fun s => randomXPow_restrict, fun s c s' hr hst hs hne hnot hs' => ?_⟩
  obtain hsame | hacc := accept_cases (genesis_reachable hr) hst
  · exact hne hsame
  · exact hnot ((hacc.randomXPow_iff hs).1 hs')

/-- The entry for a new header. -/
def newNode (H : HeaderFns) (s : BlockManager) (header : BlockHeader) : Node :=
  let pprev := (s.blockIndex.lookup header.hashPrevBlock).elim [] Node.branch
  { header
    branch :=
      { hash := H.getHash header, nHeight := pprev.head?.elim 0 BlockIndex.nHeight + 1,
        nTime := header.nTime, nBits := header.nBits } :: pprev }

/-- A block index without checkpoints. -/
def plainIndex (H : HeaderFns) : IndexFns H where
  addToBlockIndex s header :=
    if (s.blockIndex.lookup (H.getHash header)).isSome then s
    else { s with blockIndex := s.blockIndex.insert (H.getHash header) (newNode H s header) }
  add_known s header h := if_pos h
  add_other s header hash h := by
    split_ifs
    · rfl
    · rw [Map.lookup_insert_eq_ite, if_neg h]
  add_new s header h := by
    refine ⟨newNode H s header, by simp [h], rfl, fun prev hprev => ?_⟩
    simp [newNode, hprev, Node.height]
  getLastCheckpoint _ := none

/-- Headers are numbered by their nonce; the genesis block has number 1. -/
def cheapEnv : Env where
  params := { wideLimit with hashGenesisBlock := 1 }
  tx := simpleTxFns
  header := { getHash := fun h => BitVec.ofNat 256 h.nNonce, serialize := fun _ => [] }
  blockSerializeSize _ := 0
  checkSignetBlockSolution _ := true

/-- The header of the first block. -/
def cheapHeader : BlockHeader :=
  { hashPrevBlock := 1, nTime := 100, nBits := 0x207fffff, nNonce := 2 }

/-- The genesis block before it. -/
def genesisNode : Node where
  header := { hashPrevBlock := 0, nBits := 0x207fffff, nNonce := 1 }
  branch := [{ hash := 1, nHeight := 0, nBits := 0x207fffff }]

/-- The index with the genesis block. -/
def genesisIndex : BlockManager where
  blockIndex := (∅ : Map Uint256 Node).insert 1 genesisNode

/-- The header's `GetHash` is 2 and meets every target; its RandomX hash is the largest number and
meets none.  The header is accepted. -/
theorem header_without_randomx_pow : let I := plainIndex cheapEnv.header
    let rx : RandomXHash := fun _ _ => BitVec.allOnes 256
    let call : HeaderCall :=
      { header := cheapHeader, minPowChecked := true, now := 200, checkpointsEnabled := true }
    (headerLts cheapEnv I).init genesisIndex ∧
      ∃ s', (headerLts cheapEnv I).step genesisIndex call s' ∧ ¬ RandomXPow cheapEnv rx s' := by
  intro I rx call
  have hrun : (afterCall cheapEnv I genesisIndex call).map (fun s => headersOf s 2) =
      some (some (cheapHeader, (newNode cheapEnv.header genesisIndex cheapHeader).branch)) := by
    decide +kernel
  obtain ⟨s', hst, hl⟩ := Option.map_eq_some_iff.1 hrun
  refine ⟨⟨genesisNode, fun hash => ?_⟩, s', hst, fun hpow => ?_⟩
  · exact (Map.lookup_insert_eq_ite _ _ _ _).trans (by rw [AList.lookup_empty]; congr)
  · obtain ⟨b, pprev, hb, hcheck⟩ := hpow 2 _ _ hl (by decide)
    cases hb
    exact absurd hcheck (by decide +kernel)

end KPCoin.Validation
