import KPCoin.HeadersSync.State

/-!
# What one call does

`ProcessNextHeaders` in each of its two phases is a test of the batch and an update of the state.
For a single header these are `Extends` and `extended` in the first phase, `Storable` and `stored`
in the second; a batch passes if its headers pass one after the other (`Walk`).

* `processNextHeaders_presync`, `processNextHeaders_redownload` : the result of a call and the
  state after it, for a batch that passes and for one that does not.
-/

namespace KPCoin.HeadersSync

open Program Chain KPCoin.Pow

variable {C : SyncConfig} {s : HeadersSyncState} {h : BlockHeader} {E : SyncStop → Prop}

theorem wp_requireTransition {p : Params} {height : ℤ} {a b : Compact}
    {Q : Unit → HeadersSyncState → Prop}
    (hQ : permittedDifficultyTransition p height a b = some true → Q () s)
    (hE : ∀ e, permittedDifficultyTransition p height a b ≠ some true → E e) :
    wp (requireTransition p height a b) Q E s := by
  unfold requireTransition
  rcases hp : permittedDifficultyTransition p height a b with _ | _ | _
  · exact hE _ (by simp [hp])
  · simpa using hE _ (by simp [hp])
  · simpa using hQ hp

theorem wp_succeeds {m : SyncM Unit} {c : Prop} {t : HeadersSyncState} (hm : does m s c t)
    {Q : Bool → HeadersSyncState → Prop} (hQ : c → Q true t)
    (hF : ¬ c → ∀ s', Q false s') (hE : ¬ c → ∀ e, E e) : wp (succeeds m) Q E s := by
  unfold wp succeeds
  cases hr : m s with
  | ok _ s' =>
    obtain ⟨hc, rfl⟩ := wp.ok hm hr
    exact hQ hc
  | error e s' =>
    have hc : ¬ c := wp.error (E := fun _ => ¬ c) hm hr
    cases e with
    | failed => exact hF hc s'
    | fault => exact hE hc _

namespace HeadersSyncState

variable (C)

/-- The header passes the tests of the first phase. -/
def Extends (s : HeadersSyncState) (h : BlockHeader) : Prop :=
  permittedDifficultyTransition C.params s.nextHeight s.lastHeaderReceived.nBits h.nBits =
      some true ∧
    (C.commits s.nextHeight = true → s.headerCommitments.length + 1 ≤ C.maxCommitments)

/-- The state after a header that passed. -/
def extended (s : HeadersSyncState) (h : BlockHeader) : HeadersSyncState :=
  { s with
    headerCommitments :=
      s.headerCommitments ++ if C.commits s.nextHeight then [C.commitment h] else []
    currentChainWork := s.currentChainWork + getBlockProof h.nBits
    lastHeaderReceived := h
    currentHeight := s.nextHeight }

/-- The first header of the batch connects, and all of them pass. -/
def BatchExtends (s : HeadersSyncState) (headers : List BlockHeader) : Prop :=
  (∀ first ∈ headers.head?, first.hashPrevBlock = C.hdr.getHash s.lastHeaderReceived) ∧
    Walk (extended C) (Extends C) s headers

/-- The state after a batch that passed. -/
def batchExtended (s : HeadersSyncState) (headers : List BlockHeader) : HeadersSyncState :=
  let s' := headers.foldl (extended C) s
  if s'.currentChainWork ≥ C.minimumRequiredWork then s'.startRedownload C else s'

end HeadersSyncState

open HeadersSyncState

theorem does_validateAndProcessSingleHeader (hp : s.downloadState = .presync) (h : BlockHeader) :
    does (validateAndProcessSingleHeader C h) s (s.Extends C h) (s.extended C h) := by
  simp only [does, validateAndProcessSingleHeader, wp_bind, wp_get, wp_rejectIf, hp]
  refine ⟨by simp, fun _ => wp_requireTransition (fun ht => ?_) fun e ht hx => ht hx.1⟩
  by_cases hc : C.commits s.nextHeight = true
  · simp only [hc, if_true, wp_bind, wp_modify, wp_rejectIf]
    refine ⟨fun hm hx => ?_, fun hm => ⟨⟨ht, fun _ => ?_⟩, ?_⟩⟩
    · have := hx.2 hc
      simp at hm
      omega
    · simp at hm
      omega
    · simp only [extended, hc, if_true]
      rfl
  · simp only [hc, Bool.false_eq_true, if_false, wp_pure, wp_modify]
    refine ⟨⟨ht, fun hc' => absurd hc' hc⟩, ?_⟩
    simp [extended, hc]

variable {headers : List BlockHeader}

theorem does_validateAndStoreHeadersCommitments (hp : s.downloadState = .presync)
    (hne : headers ≠ []) :
    does (validateAndStoreHeadersCommitments C headers) s (s.BatchExtends C headers)
      (s.batchExtended C headers) := by
  obtain ⟨first, rest, rfl⟩ := List.exists_cons_of_ne_nil hne
  simp only [does, validateAndStoreHeadersCommitments, wp_bind, wp_get, wp_rejectIf, hp]
  refine ⟨by simp, fun _ => ⟨fun hx hb => ?_, fun hx => ?_⟩⟩
  · have := hb.1 first rfl
    simp [this] at hx
  · have hloop := does.forM
      (fun s x hs => does_validateAndProcessSingleHeader (C := C) hs x) (fun s x hs => hs)
      (first :: rest) hp
    refine wp.mono hloop ?_ fun _ hw hb => hw hb.2
    rintro _ _ ⟨hw, rfl⟩
    exact ⟨⟨by simpa using hx, hw⟩, rfl⟩

namespace HeadersSyncState

variable (C)

/-- The target of the last header in the buffer, or of the start. -/
def previousBits (s : HeadersSyncState) : Compact :=
  (s.redownloadedHeaders.getLast?.map CompressedHeader.nBits).getD C.chainStart.nBits

/-- Whether the work suffices with this header, or did before. -/
def processesAll (s : HeadersSyncState) (h : BlockHeader) : Bool :=
  decide (s.redownloadChainWork + getBlockProof h.nBits ≥ C.minimumRequiredWork) ||
    s.processAllRemainingHeaders

/-- Whether the header is compared with a commitment. -/
def compares (s : HeadersSyncState) (h : BlockHeader) : Bool :=
  !s.processesAll C h && C.commits (s.redownloadBufferLastHeight + 1)

/-- The header passes the tests of the second phase. -/
def Storable (s : HeadersSyncState) (h : BlockHeader) : Prop :=
  h.hashPrevBlock = s.redownloadBufferLastHash ∧
    permittedDifficultyTransition C.params (s.redownloadBufferLastHeight + 1) (s.previousBits C)
      h.nBits = some true ∧
    (s.compares C h = true → s.headerCommitments.head? = some (C.commitment h))

/-- The state after a header that passed. -/
def stored (s : HeadersSyncState) (h : BlockHeader) : HeadersSyncState :=
  { s with
    redownloadChainWork := s.redownloadChainWork + getBlockProof h.nBits
    processAllRemainingHeaders := s.processesAll C h
    headerCommitments := if s.compares C h then s.headerCommitments.tail else s.headerCommitments
    redownloadedHeaders := s.redownloadedHeaders ++ [CompressedHeader.ofHeader h]
    redownloadBufferLastHeight := s.redownloadBufferLastHeight + 1
    redownloadBufferLastHash := C.hdr.getHash h }

/-- What is ready for acceptance, and the state without it. -/
def popped (s : HeadersSyncState) : List BlockHeader × HeadersSyncState :=
  let (ready, stays, firstPrev) := popReady C s.processAllRemainingHeaders
    s.redownloadBufferFirstPrevHash s.redownloadedHeaders
  (ready, { s with redownloadedHeaders := stays, redownloadBufferFirstPrevHash := firstPrev })

end HeadersSyncState

theorem foldl_stored_downloadState (l : List BlockHeader) :
    (l.foldl (stored C) s).downloadState = s.downloadState := by
  induction l generalizing s with
  | nil => rfl
  | cons h l ih => exact ih

theorem does_validateAndStoreRedownloadedHeader (hp : s.downloadState = .redownload)
    (h : BlockHeader) :
    does (validateAndStoreRedownloadedHeader C h) s (s.Storable C h) (s.stored C h) := by
  simp only [does, validateAndStoreRedownloadedHeader, wp_bind, wp_get, wp_rejectIf, hp]
  refine ⟨by simp, fun _ => ⟨fun hx hs => ?_, fun hx => ?_⟩⟩
  · simp [hs.1] at hx
  refine wp_requireTransition (fun ht => ?_) fun e ht hs => ht hs.2.1
  have hprev : h.hashPrevBlock = s.redownloadBufferLastHash := by simpa using hx
  by_cases hc : s.compares C h = true
  · rw [if_pos (by exact hc)]
    cases hq : s.headerCommitments with
    | nil =>
      intro hs
      simpa [hq] using hs.2.2 hc
    | cons expected rest =>
      simp only [wp_bind, wp_modify, wp_rejectIf]
      refine ⟨fun hx hs => ?_, fun hx => ⟨⟨hprev, ht, fun _ => ?_⟩, ?_⟩⟩
      · have := hs.2.2 hc
        simp [hq] at this
        simp [this] at hx
      · have : C.commitment h = expected := by simpa using hx
        simp [hq, this]
      · simp only [stored, hc, hq, if_true]
        rfl
  · rw [if_neg (by exact hc)]
    refine ⟨⟨hprev, ht, fun hc' => absurd hc' hc⟩, ?_⟩
    simp only [stored, hc, Bool.false_eq_true, if_false]
    rfl

theorem popHeadersReadyForAcceptance_eq (hp : s.downloadState = .redownload) :
    popHeadersReadyForAcceptance C s = .ok (s.popped C).1 (s.popped C).2 := by
  have hif : (s.downloadState != .redownload) = false := by simp [hp]
  simp only [popHeadersReadyForAcceptance, bind, EStateM.bind, get, getThe, MonadStateOf.get,
    EStateM.get, hif]
  rfl

theorem processNextHeaders_idle (full : Bool) (h : headers = [] ∨ s.downloadState = .final) :
    processNextHeaders C headers full s = .ok {} s := by
  have hif : (headers.isEmpty || s.downloadState == .final) = true := by
    rcases h with rfl | h
    · rfl
    · simp [h]
  simp only [processNextHeaders, bind, EStateM.bind, get, getThe, MonadStateOf.get,
    EStateM.get, hif, if_true]
  rfl

theorem processNextHeaders_presync (hp : s.downloadState = .presync)
    (hne : headers ≠ []) (full : Bool) :
    wp (processNextHeaders C headers full) (fun r s' =>
        (s.BatchExtends C headers ∧
          r = { success := true
                requestMore := full || (s.batchExtended C headers).downloadState == .redownload } ∧
          s' = if r.requestMore then s.batchExtended C headers
            else (s.batchExtended C headers).finalize) ∨
        (¬ s.BatchExtends C headers ∧ r = {} ∧ s'.downloadState = .final))
      (fun _ => ¬ s.BatchExtends C headers) s := by
  have hif : (headers.isEmpty || DownloadState.presync == .final) = false := by simpa using hne
  simp only [processNextHeaders, wp_bind, wp_get, hp, hif, Bool.false_eq_true, if_false,
    processPresync]
  refine wp_succeeds (does_validateAndStoreHeadersCommitments hp hne) (fun hb => ?_)
    (fun hb s' => ?_) fun hb _ => hb
  · simp only [wp_pure]
    cases full || (s.batchExtended C headers).downloadState == .redownload
    · exact .inl ⟨hb, by simp, by simp⟩
    · exact .inl ⟨hb, by simp, by simp⟩
  · exact .inr ⟨hb, rfl, rfl⟩

theorem processNextHeaders_redownload (hp : s.downloadState = .redownload) (hne : headers ≠ [])
    (full : Bool) : wp (processNextHeaders C headers full) (fun r s' =>
        (Walk (stored C) (Storable C) s headers ∧
          ∃ ready t, popped C (headers.foldl (stored C) s) = (ready, t) ∧
            r = { powValidatedHeaders := ready, success := true
                  requestMore := !t.complete && full } ∧
            s' = if r.requestMore then t else t.finalize) ∨
        (¬ Walk (stored C) (Storable C) s headers ∧ r = {} ∧ s'.downloadState = .final))
      (fun _ => ¬ Walk (stored C) (Storable C) s headers) s := by
  have hif : (headers.isEmpty || DownloadState.redownload == .final) = false := by simpa using hne
  have hphase := (foldl_stored_downloadState (C := C) headers).trans hp
  simp only [processNextHeaders, wp_bind, wp_get, hp, hif, Bool.false_eq_true, if_false,
    processRedownload]
  refine wp_succeeds (does.forM
    (fun _ x hs => does_validateAndStoreRedownloadedHeader hs x) (fun _ _ hs => hs) headers hp)
    (fun hw => ?_) (fun hw s' => ?_) fun hw _ => hw
  · simp only [Bool.not_true, Bool.false_eq_true, if_false, wp_bind, wp_get]
    refine wp_of_ok (popHeadersReadyForAcceptance_eq hphase) ?_
    generalize hpop : popped C (headers.foldl (stored C) s) = pop
    obtain ⟨ready, t⟩ := pop
    cases hr : !t.complete && full
    · exact .inl ⟨hw, ready, t, rfl, by simp [hr], by simp⟩
    · exact .inl ⟨hw, ready, t, rfl, by simp [hr], by simp⟩
  · exact .inr ⟨hw, rfl, rfl⟩

end KPCoin.HeadersSync
