import KPCoin.HeadersSync.Step
import KPCoin.LTS.Basic

/-!
# What headers synchronisation hands out

The headers a peer is made to serve again are checked one by one against the last of them, but the
buffer keeps them without their parents' hashes and loses the old ones.  `Redownloading` relates
the members of the object to the list of all headers that were accepted in the second phase: the
buffer is its end, the two stored hashes and the height belong to its ends, and the flag says
whether its work has sufficed at some header.

A `Session` is an object together with the headers it has accepted in each phase and those it has
handed out.

* `released_headers_earned` : in every session, what has been handed out is a chain that has earned
  it.
-/

namespace KPCoin.HeadersSync

open Program HeadersSyncState List CompressedHeader Chain KPCoin.Pow

/-- The block a header is to be put on. -/
structure Tip where
  height : ℤ
  hash : Uint256
  nBits : Compact

section Chains

variable (C : SyncConfig)

/-- The block of the header itself. -/
def Tip.next (t : Tip) (h : BlockHeader) : Tip := ⟨t.height + 1, C.hdr.getHash h, h.nBits⟩

/-- The header names the block as its parent, and its target is a permitted one. -/
def Tip.Connects (t : Tip) (h : BlockHeader) : Prop :=
  h.hashPrevBlock = t.hash ∧
    permittedDifficultyTransition C.params (t.height + 1) t.nBits h.nBits = some true

namespace SyncConfig

/-- The start of the synchronisation. -/
def root : Tip := ⟨C.chainStart.nHeight, C.chainStart.hash, C.chainStart.nBits⟩

/-- The last block of a chain on top of the start. -/
def tip (l : List BlockHeader) : Tip := l.foldl (Tip.next C) C.root

/-- A chain on top of the start, linked by hashes and with permitted targets. -/
def Chained (l : List BlockHeader) : Prop := Walk (Tip.next C) (Tip.Connects C) C.root l

/-- The work of the start with a chain on top, in the arithmetic of the code. -/
def work (l : List BlockHeader) : Arith :=
  l.foldl (fun w h => w + getBlockProof h.nBits) C.chainStart.nChainWork

/-- At some header of the chain the work suffices. -/
def Reached (l : List BlockHeader) : Prop :=
  ∃ l', l' ≠ [] ∧ l' <+: l ∧ C.minimumRequiredWork ≤ C.work l'

variable {C} {l : List BlockHeader} {h : BlockHeader}

@[simp] theorem tip_nil : C.tip [] = C.root := rfl

@[simp] theorem tip_concat : C.tip (l ++ [h]) = (C.tip l).next C h := by simp [tip]

theorem height_tip : (C.tip l).height = C.chainStart.nHeight + l.length := by
  induction l using reverseRecOn with
  | nil => simp [root]
  | append_singleton l h ih =>
    simp only [tip_concat, Tip.next, ih, length_append, length_singleton]
    omega

@[simp] theorem work_nil : C.work [] = C.chainStart.nChainWork := rfl

@[simp] theorem work_concat : C.work (l ++ [h]) = C.work l + getBlockProof h.nBits := by
  simp [work]

/-- The work the code counts is never more than the true one. -/
theorem toNat_work_le : (C.work l).toNat ≤
    C.chainStart.nChainWork.toNat + (l.map fun h => (getBlockProof h.nBits).toNat).sum := by
  induction l using reverseRecOn with
  | nil => simp
  | append_singleton l h ih =>
    rw [work_concat, BitVec.toNat_add]
    simp only [map_append, sum_append, map_cons, map_nil, sum_singleton]
    omega

theorem not_reached_nil : ¬ C.Reached [] := by
  rintro ⟨l, hne, hl, -⟩
  exact hne (prefix_nil.1 hl)

theorem reached_concat :
    C.Reached (l ++ [h]) ↔ C.minimumRequiredWork ≤ C.work (l ++ [h]) ∨ C.Reached l := by
  constructor
  · rintro ⟨l', hne, hl, hw⟩
    rcases prefix_concat_iff.1 hl with rfl | hl
    · exact .inl hw
    · exact .inr ⟨l', hne, hl, hw⟩
  · rintro (hw | ⟨l', hne, hl, hw⟩)
    · exact ⟨_, by simp, prefix_rfl, hw⟩
    · exact ⟨l', hne, hl.trans (prefix_append _ _), hw⟩

end SyncConfig

end Chains

variable {C : SyncConfig} {released redownloaded : List BlockHeader} {h : BlockHeader}

section Phases

variable {s : HeadersSyncState}

variable (C) in
/-- In the second phase the headers `redownloaded` have been accepted, and of these `released`
have been handed out. -/
structure Redownloading (s : HeadersSyncState) (released redownloaded : List BlockHeader) :
    Prop where
  phase : s.downloadState = .redownload
  chained : C.Chained redownloaded
  buffer : ∃ buf, redownloaded = released ++ buf ∧
    s.redownloadedHeaders = buf.map ofHeader
  -- the buffer is only empty at the start, so its last target is that of the last header
  nonempty : s.redownloadedHeaders = [] → redownloaded = []
  lastHeight : s.redownloadBufferLastHeight = (C.tip redownloaded).height
  lastHash : s.redownloadBufferLastHash = (C.tip redownloaded).hash
  firstPrevHash : s.redownloadBufferFirstPrevHash = (C.tip released).hash
  work : s.redownloadChainWork = C.work redownloaded
  processAll : s.processAllRemainingHeaders = true ↔ C.Reached redownloaded

namespace Redownloading

variable (hr : Redownloading C s released redownloaded)
include hr

theorem previousBits : s.previousBits C = (C.tip redownloaded).nBits := by
  obtain ⟨buf, hbuf, hs⟩ := hr.buffer
  rcases eq_nil_or_concat buf with rfl | ⟨buf, last, rfl⟩
  · have hnil := hr.nonempty (hs)
    simp [HeadersSyncState.previousBits, hs, hnil, SyncConfig.root]
  · rw [concat_eq_append] at hbuf hs
    simp [HeadersSyncState.previousBits, hs, hbuf, ← append_assoc, Tip.next]

theorem processesAll (h : BlockHeader) :
    s.processesAll C h = true ↔ C.Reached (redownloaded ++ [h]) := by
  simp [HeadersSyncState.processesAll, SyncConfig.reached_concat, hr.work, hr.processAll]

/-- The tests of the second phase, in terms of the headers accepted so far. -/
theorem storable_iff :
    s.Storable C h ↔ (C.tip redownloaded).Connects C h ∧
      (¬ C.Reached (redownloaded ++ [h]) → C.commits ((C.tip redownloaded).height + 1) = true →
        s.headerCommitments.head? = some (C.commitment h)) := by
  simp [Storable, compares, ← Bool.not_eq_true,
    hr.processesAll, hr.lastHash, hr.lastHeight, hr.previousBits, Tip.Connects, and_assoc]

theorem stored (hc : (C.tip redownloaded).Connects C h) :
    Redownloading C (s.stored C h) released (redownloaded ++ [h]) where
  phase := hr.phase
  chained := Walk.concat_iff.2 ⟨hr.chained, hc⟩
  buffer := by
    obtain ⟨buf, hbuf, hs⟩ := hr.buffer
    exact ⟨buf ++ [h], by simp [hbuf], by simp [HeadersSyncState.stored, hs]⟩
  nonempty hnil := by simp [HeadersSyncState.stored] at hnil
  lastHeight := by simp [HeadersSyncState.stored, hr.lastHeight, Tip.next]
  lastHash := by simp [HeadersSyncState.stored, Tip.next]
  firstPrevHash := hr.firstPrevHash
  work := by simp [HeadersSyncState.stored, hr.work]
  processAll := hr.processesAll h

theorem foldl_stored {l : List BlockHeader}
    (hw : Walk (HeadersSyncState.stored C) (Storable C) s l) :
    Redownloading C (l.foldl (HeadersSyncState.stored C) s) released (redownloaded ++ l) := by
  induction l generalizing s redownloaded with
  | nil => simpa using hr
  | cons h l ih =>
    have := ih (hr.stored (hr.storable_iff.1 hw.1).1) hw.2
    simpa using this

end Redownloading

/-- What the loop takes from a buffer of chained headers: a first part of them, with their parents'
hashes restored, that is everything if the flag is set and otherwise not everything. -/
theorem popReady_spec {t : Tip} {buf : List BlockHeader}
    (hw : Walk (Tip.next C) (Tip.Connects C) t buf) (all : Bool) :
    ∃ ready rest, buf = ready ++ rest ∧
      popReady C all t.hash (buf.map ofHeader) =
        (ready, rest.map ofHeader, (ready.foldl (Tip.next C) t).hash) ∧
      (∀ i < ready.length, i + redownloadBufferSize < buf.length ∨ all = true) ∧
      (all = true → rest = []) ∧ (rest = [] → buf = [] ∨ all = true) := by
  induction buf generalizing t with
  | nil => exact ⟨[], [], rfl, rfl, by simp, by simp, by simp⟩
  | cons h buf ih =>
    obtain ⟨hc, hw⟩ := hw
    have hfull : (ofHeader h).getFullHeader t.hash = h := by
      rw [← hc.1, getFullHeader_ofHeader]
    by_cases hpop : redownloadBufferSize < buf.length + 1 ∨ all = true
    · obtain ⟨ready, rest, rfl, heq, hlen, hall, hrest⟩ := ih hw
      refine ⟨h :: ready, rest, rfl, ?_, fun i hi => ?_, hall, fun hnil => .inr ?_⟩
      · simp only [Tip.next] at heq
        simp only [map_cons, popReady, length_map, hfull, heq, foldl_cons]
        rw [if_pos (by simpa using hpop)]
        rfl
      · -- the loop has checked the length that was left before each header
        rcases Nat.eq_zero_or_pos i with rfl | hi0
        · simpa using hpop
        · refine (hlen (i - 1) (by simp at hi; omega)).imp_left fun h => ?_
          simp only [length_cons]
          omega
      · rcases hrest hnil with hbuf | hall
        · refine hpop.resolve_left fun hlt => ?_
          rw [hbuf] at hlt
          simp [redownloadBufferSize] at hlt
        · exact hall
    · refine ⟨[], h :: buf, rfl, ?_, by simp, fun hall => absurd (.inr hall) hpop, by simp⟩
      simp only [map_cons, popReady, length_map, foldl_nil]
      rw [if_neg (by simpa using hpop)]

theorem Redownloading.popped (hr : Redownloading C s released redownloaded) :
    ∃ ready t, s.popped C = (ready, t) ∧ released ++ ready <+: redownloaded ∧
      (∀ i, released.length ≤ i → i < (released ++ ready).length →
        i + redownloadBufferSize < redownloaded.length ∨ C.Reached redownloaded) ∧
      (C.Reached redownloaded → t.complete = true ∧ released ++ ready = redownloaded) ∧
      (¬ C.Reached redownloaded → t.complete = false ∧
        Redownloading C t (released ++ ready) redownloaded ∧
          t.headerCommitments = s.headerCommitments) := by
  obtain ⟨buf, hbuf, hs⟩ := hr.buffer
  have hchained := hr.chained
  rw [hbuf, SyncConfig.Chained, Walk.append_iff] at hchained
  obtain ⟨ready, rest, rfl, heq, hlen, hall, hrest⟩ :=
    popReady_spec hchained.2 s.processAllRemainingHeaders
  have hpop : s.popped C = (ready, { s with
      redownloadedHeaders := rest.map ofHeader
      redownloadBufferFirstPrevHash := (C.tip (released ++ ready)).hash }) := by
    simp only [HeadersSyncState.popped, hs, hr.firstPrevHash, SyncConfig.tip, foldl_append]
    rw [heq]
  refine ⟨ready, _, hpop, ⟨rest, by simp [hbuf]⟩, fun i hi hlt => ?_, fun hR => ?_, fun hR => ?_⟩
  · simp only [length_append] at hlt
    refine (hlen (i - released.length) (by omega)).imp (fun h => ?_) hr.processAll.1
    simp only [hbuf, length_append] at h ⊢
    omega
  · have hnil := hall (hr.processAll.2 hR)
    exact ⟨by simp [complete, hnil, hr.processAll.2 hR], by simp [hbuf, hnil]⟩
  · have hflag : s.processAllRemainingHeaders = false := by
      simpa using fun h => hR (hr.processAll.1 h)
    refine ⟨by simp [complete, hflag], ⟨hr.phase, hr.chained, ⟨rest, by simp [hbuf], rfl⟩, ?_,
      hr.lastHeight, hr.lastHash, rfl, hr.work, hr.processAll⟩, rfl⟩
    intro hnil
    rcases hrest (by simpa using hnil) with h | h
    · exact hr.nonempty (by simp [hs, h])
    · exact absurd h (by simp [hflag])

/-- At the switch to the second phase nothing has been downloaded again. -/
theorem redownloading_start (hs : s.processAllRemainingHeaders = false) :
    Redownloading C (s.startRedownload C) [] [] where
  phase := rfl
  chained := Walk.nil
  buffer := ⟨[], rfl, rfl⟩
  nonempty _ := rfl
  lastHeight := rfl
  lastHash := rfl
  firstPrevHash := rfl
  work := rfl
  processAll := by simp [startRedownload, hs, SyncConfig.not_reached_nil]

variable (C) in
/-- In the first phase the headers `presynced` have been accepted. -/
structure Presyncing (s : HeadersSyncState) (presynced : List BlockHeader) : Prop where
  phase : s.downloadState = .presync
  work : s.currentChainWork = C.work presynced
  processAll : s.processAllRemainingHeaders = false

namespace Presyncing

variable {presynced : List BlockHeader}

theorem start : Presyncing C C.start [] := ⟨rfl, rfl, rfl⟩

section

variable (hp : Presyncing C s presynced)
include hp

theorem extended (h : BlockHeader) : Presyncing C (s.extended C h) (presynced ++ [h]) :=
  ⟨hp.phase, by simp [HeadersSyncState.extended, hp.work], hp.processAll⟩

theorem foldl_extended (l : List BlockHeader) :
    Presyncing C (l.foldl (HeadersSyncState.extended C) s) (presynced ++ l) := by
  induction l generalizing s presynced with
  | nil => simpa using hp
  | cons h l ih => simpa using ih (hp.extended h)

theorem batchExtended (l : List BlockHeader) :
    (Presyncing C (s.batchExtended C l) (presynced ++ l) ∧
        ¬ C.minimumRequiredWork ≤ C.work (presynced ++ l)) ∨
      (Redownloading C (s.batchExtended C l) [] [] ∧
        C.minimumRequiredWork ≤ C.work (presynced ++ l)) := by
  have hl := hp.foldl_extended l
  simp only [HeadersSyncState.batchExtended, hl.work]
  split_ifs with hw
  · exact .inr ⟨redownloading_start hl.processAll, hw⟩
  · exact .inl ⟨hl, hw⟩

end

end Presyncing

end Phases

/-- An object, the headers it has accepted in its two phases, and those it has handed out. -/
structure Session where
  sync : HeadersSyncState
  presynced : List BlockHeader := []
  redownloaded : List BlockHeader := []
  released : List BlockHeader := []

/-- The arguments of a call of `ProcessNextHeaders`. -/
structure HeadersCall where
  headers : List BlockHeader
  full : Bool

/-- The session after a call with these headers, this result and this new state. -/
def Session.after (s : Session) (headers : List BlockHeader) (r : ProcessingResult)
    (sync : HeadersSyncState) : Session where
  sync := sync
  presynced := s.presynced ++
    if s.sync.downloadState = .presync ∧ r.success = true then headers else []
  redownloaded := s.redownloaded ++
    if s.sync.downloadState = .redownload ∧ r.success = true then headers else []
  released := s.released ++ r.powValidatedHeaders

variable (C) in
/-- A call, unless it throws. -/
def Session.call (s : Session) (c : HeadersCall) : Option Session :=
  match processNextHeaders C c.headers c.full s.sync with
  | .ok r sync => some (s.after c.headers r sync)
  | .error _ _ => none

theorem Session.call_eq_some {s s' : Session} {c : HeadersCall} (h : s.call C c = some s') :
    ∃ r sync, processNextHeaders C c.headers c.full s.sync = .ok r sync ∧
      s' = s.after c.headers r sync := by
  simp only [Session.call] at h
  cases hok : processNextHeaders C c.headers c.full s.sync with
  | ok r sync =>
    rw [hok] at h
    exact ⟨r, sync, rfl, (Option.some.inj h).symm⟩
  | error e sync => simp [hok] at h

variable (C) in
/-- Arbitrary calls on a fresh object. -/
def sessionLts : LTS Session HeadersCall where
  init s := s = { sync := C.start }
  step s c s' := s.call C c = some s'

variable (C) in
/-- The state agrees with what has been accepted, in each phase. -/
def Session.Sound (s : Session) : Prop :=
  s.released <+: s.redownloaded ∧ C.Chained s.redownloaded ∧
    (s.released ≠ [] → C.minimumRequiredWork ≤ C.work s.presynced) ∧
    match s.sync.downloadState with
    | .presync => s.redownloaded = [] ∧ Presyncing C s.sync s.presynced
    | .redownload => Redownloading C s.sync s.released s.redownloaded ∧
        C.minimumRequiredWork ≤ C.work s.presynced
    | .final => True

namespace Session

variable {s s' : Session} {c : HeadersCall}

theorem sound_start : Sound C { sync := C.start } :=
  ⟨prefix_rfl, Walk.nil, absurd rfl, rfl, Presyncing.start⟩

/-- A session whose object is finished only has to agree in what it has handed out. -/
theorem sound_of_final (hs : s.sync.downloadState = .final) (hp : s.released <+: s.redownloaded)
    (hc : C.Chained s.redownloaded)
    (hw : s.released ≠ [] → C.minimumRequiredWork ≤ C.work s.presynced) : s.Sound C :=
  ⟨hp, hc, hw, by rw [hs]; trivial⟩

variable {headers : List BlockHeader} {sync : HeadersSyncState} {r : ProcessingResult} {full : Bool}

theorem after_idle : s.after headers {} s.sync = s := by
  simp [after]

section

variable (hs : s.Sound C)
include hs

theorem Sound.presync (hphase : s.sync.downloadState = .presync) :
    s.released = [] ∧ s.redownloaded = [] ∧ Presyncing C s.sync s.presynced := by
  obtain ⟨hpre, -, -, hph⟩ := hs
  rw [hphase] at hph
  exact ⟨prefix_nil.1 (hph.1 ▸ hpre), hph⟩

theorem Sound.redownload (hphase : s.sync.downloadState = .redownload) :
    Redownloading C s.sync s.released s.redownloaded ∧
      C.minimumRequiredWork ≤ C.work s.presynced := by
  obtain ⟨-, -, -, hph⟩ := hs
  rw [hphase] at hph
  exact hph

/-- A call in the first phase hands out nothing. -/
theorem Sound.step_presync (hphase : s.sync.downloadState = .presync) (hne : headers ≠ [])
    (hok : processNextHeaders C headers full s.sync = .ok r sync) :
    (s.after headers r sync).Sound C ∧ r.powValidatedHeaders = [] := by
  obtain ⟨hrel, hre, hp⟩ := hs.presync hphase
  rcases (processNextHeaders_presync hphase hne full).ok hok with ⟨-, hr, hsync⟩ | ⟨-, rfl, hfin⟩
  · have hsucc : r.success = true := by rw [hr]
    have hpow : r.powValidatedHeaders = [] := by rw [hr]
    refine ⟨⟨by simp [after, hrel, hpow], by simp [after, hphase, hre, SyncConfig.Chained],
      by simp [after, hrel, hpow], ?_⟩, hpow⟩
    -- without a further request the object is finished
    cases hmore : r.requestMore with
    | false =>
      rw [hmore] at hsync
      simp [after, hsync, finalize]
    | true =>
      obtain rfl : sync = s.sync.batchExtended C headers := by simpa [hmore] using hsync
      rcases hp.batchExtended headers with ⟨hb, -⟩ | ⟨hb, hw⟩
      · rw [show (s.after headers r (s.sync.batchExtended C headers)).sync.downloadState = .presync
          from hb.phase]
        exact ⟨by simp [after, hphase, hre], by simpa [after, hphase, hsucc] using hb⟩
      · rw [show (s.after headers r (s.sync.batchExtended C headers)).sync.downloadState =
          .redownload from hb.phase]
        exact ⟨by simpa [after, hphase, hrel, hre, hpow] using hb,
          by simpa [after, hphase, hsucc] using hw⟩
  · refine ⟨sound_of_final hfin ?_ ?_ ?_, rfl⟩
    all_goals simp [after, hrel, hre, SyncConfig.Chained]

/-- A call in the second phase hands out headers that are buried, or all of them. -/
theorem Sound.step_redownload (hphase : s.sync.downloadState = .redownload) (hne : headers ≠ [])
    (hok : processNextHeaders C headers full s.sync = .ok r sync) :
    (s.after headers r sync).Sound C ∧
      ∀ i, s.released.length ≤ i → i < (s.after headers r sync).released.length →
        i + redownloadBufferSize < (s.after headers r sync).redownloaded.length ∨
          C.Reached (s.after headers r sync).redownloaded := by
  obtain ⟨hr, hw⟩ := hs.redownload hphase
  rcases (processNextHeaders_redownload hphase hne full).ok hok with
    ⟨hwalk, ready, t, hpop, hres, hsync⟩ | ⟨-, rfl, hfin⟩
  · have hr' := hr.foldl_stored hwalk
    obtain ⟨ready', t', hpop', hpre, hbury, hdone, hmore⟩ := hr'.popped
    obtain ⟨rfl, rfl⟩ : ready = ready' ∧ t = t' := by simpa [hpop] using hpop'
    have hre : (s.after headers r sync).redownloaded = s.redownloaded ++ headers := by
      simp [after, hphase, hres]
    have hrel : (s.after headers r sync).released = s.released ++ ready := by simp [after, hres]
    have hpres : (s.after headers r sync).presynced = s.presynced := by simp [after, hphase]
    refine ⟨⟨by rwa [hre, hrel], by rw [hre]; exact hr'.chained, fun _ => by rwa [hpres], ?_⟩,
      by simpa [hre, hrel] using hbury⟩
    cases hreq : r.requestMore with
    | false =>
      rw [hreq] at hsync
      simp [after, hsync, finalize]
    | true =>
      obtain rfl : sync = t := by simpa [hreq] using hsync
      -- a further request is only made while the work does not suffice
      have hcomplete : sync.complete = false := by
        rw [hres] at hreq
        simp only [Bool.and_eq_true, Bool.not_eq_true'] at hreq
        exact hreq.1
      have hR : ¬ C.Reached (s.redownloaded ++ headers) := fun h =>
        Bool.false_ne_true (hcomplete.symm.trans (hdone h).1)
      obtain ⟨-, hred, -⟩ := hmore hR
      rw [show (s.after headers r sync).sync.downloadState = .redownload from hred.phase, hre, hrel,
        hpres]
      exact ⟨hred, hw⟩
  · refine ⟨sound_of_final hfin ?_ ?_ fun _ => by simpa [after] using hw, ?_⟩
    · simpa [after] using hs.1
    · simpa [after] using hs.2.1
    · intro i h1 h2
      simp [after] at h2
      omega

theorem Sound.step (hst : (sessionLts C).step s c s') :
    s'.Sound C ∧ ∀ i, s.released.length ≤ i → i < s'.released.length →
      i + redownloadBufferSize < s'.redownloaded.length ∨ C.Reached s'.redownloaded := by
  obtain ⟨r, sync, hok, rfl⟩ := call_eq_some hst
  by_cases hidle : c.headers = [] ∨ s.sync.downloadState = .final
  · rw [processNextHeaders_idle _ hidle] at hok
    obtain ⟨rfl, rfl⟩ : {} = r ∧ s.sync = sync := by simpa using hok
    rw [after_idle]
    exact ⟨hs, fun i h1 h2 => absurd h2 (by omega)⟩
  push Not at hidle
  cases hphase : s.sync.downloadState with
  | final => exact absurd hphase hidle.2
  | presync =>
    obtain ⟨hs', hpow⟩ := hs.step_presync hphase hidle.1 hok
    refine ⟨hs', fun i h1 h2 => ?_⟩
    simp [after, hpow] at h2
    omega
  | redownload => exact hs.step_redownload hphase hidle.1 hok

end

theorem sound_of_reachable (h : (sessionLts C).Reachable s) : s.Sound C :=
  h.invariant (fun _ h => h ▸ sound_start) fun _ _ _ hs hst => (hs.step hst).1

end Session

/-- **Only a chain that has earned it is handed out.**  Whatever batches a peer serves, the headers
handed out so far are a chain on top of the start with permitted targets, and there are none
before the first phase has seen the required work.  A header is handed out by a call only under
more than `REDOWNLOAD_BUFFER_SIZE` accepted headers, itself included, or once the work of the
headers downloaded again has sufficed. -/
theorem released_headers_earned {s : Session} (hs : (sessionLts C).Reachable s) :
    C.Chained s.released ∧ s.released <+: s.redownloaded ∧
      (s.released ≠ [] → C.minimumRequiredWork ≤ C.work s.presynced) ∧
      ∀ c s', (sessionLts C).step s c s' →
        ∀ i, s.released.length ≤ i → i < s'.released.length →
          i + redownloadBufferSize < s'.redownloaded.length ∨ C.Reached s'.redownloaded := by
  have hsound := Session.sound_of_reachable hs
  refine ⟨hsound.2.1.of_initial hsound.1, hsound.1, hsound.2.2.1, fun c s' hst => ?_⟩
  exact (hsound.step hst).2

/-- A start at the genesis block, with work for two more blocks required. -/
def sampleSync : SyncConfig where
  hdr := { getHash := fun h => BitVec.ofNat 256 h.nNonce, serialize := fun _ => [] }
  params := wideLimit
  chainStart := { hash := 1, nHeight := 0, nChainWork := 2, nBits := 0x207fffff, nNonce := 1 }
  pprev := []
  minimumRequiredWork := 6
  commitOffset := 1
  hasher h := h.setWidth 64
  now := 10 ^ 9

/-- Two headers on top of it. -/
def twoHeaders : List BlockHeader :=
  [{ hashPrevBlock := 1, nBits := 0x207fffff, nNonce := 2 },
    { hashPrevBlock := 2, nBits := 0x207fffff, nNonce := 3 }]

/-- Served twice, the two headers are handed out. -/
theorem released_headers_earned_sample : ∃ s : Session,
    (sessionLts sampleSync).Reachable s ∧ s.released = twoHeaders ∧
      sampleSync.Chained s.released ∧ sampleSync.minimumRequiredWork ≤
        sampleSync.work s.presynced := by
  have hrun : ((Session.call sampleSync { sync := sampleSync.start } ⟨twoHeaders, true⟩).bind
      fun s => s.call sampleSync ⟨twoHeaders, false⟩).map Session.released = some twoHeaders := by
    decide +kernel
  obtain ⟨s₂, hs₂, hrel⟩ := Option.map_eq_some_iff.1 hrun
  obtain ⟨s₁, hs₁, hs₂⟩ := Option.bind_eq_some_iff.1 hs₂
  have hreach₁ : (sessionLts sampleSync).Reachable s₁ := LTS.Reachable.tail (.start rfl) hs₁
  have hreach : (sessionLts sampleSync).Reachable s₂ := hreach₁.tail hs₂
  obtain ⟨hch, -, hwork, -⟩ := released_headers_earned hreach
  exact ⟨s₂, hreach, hrel, hch, hwork (by rw [hrel]; simp [twoHeaders])⟩

end KPCoin.HeadersSync
