import KPCoin.HeadersSync.Release
import KPCoin.Pow.Retarget

/-!
# Headers synchronisation with an honest peer

A peer that has a chain of the block index serves the headers after the start in batches, from the
beginning in each phase.  `serveTwice` collects the results of the calls.

Such a peer can be turned away: `PermittedDifficultyTransition` does not let through the step from
a genesis block whose target is not the limit, although `GetNextWorkRequired` prescribes the limit
on top of it (`genesis_sync_refused`).

* `honest_sync_iff` : a peer with enough work and not too many headers, whose retargets do not
  overflow, is served to the end if and only if blocks of minimum difficulty are allowed or the
  start is not such a genesis block.
-/

namespace KPCoin.HeadersSync

open Program HeadersSyncState List Option SyncConfig Tip Chain
open KPCoin.Pow (permittedDifficultyTransition IndexChain Follows AtLimit RetargetFits)

section Batches

variable {H : Type} {P Q : List H → Prop} [DecidablePred P] [DecidablePred Q]

/-- The batches up to the first with which the elements so far have the property. -/
def takeThrough (P : List H → Prop) [DecidablePred P] : List H → List (List H) → List (List H)
  | _, [] => []
  | done, b :: bs => if P (done ++ b) then [b] else b :: takeThrough P (done ++ b) bs

theorem takeThrough_initial (done : List H) (bs : List (List H)) :
    takeThrough P done bs <+: bs := by
  induction bs generalizing done with
  | nil => exact prefix_rfl
  | cons b bs ih =>
    unfold takeThrough
    split_ifs
    · exact ⟨bs, rfl⟩
    · exact cons_prefix_cons.2 ⟨rfl, ih _⟩

theorem takeThrough_mono (hPQ : ∀ l, l ≠ [] → P l → Q l) (done : List H) {bs : List (List H)}
    (hne : ∀ b ∈ bs, b ≠ []) : takeThrough Q done bs <+: takeThrough P done bs := by
  induction bs generalizing done with
  | nil => exact prefix_rfl
  | cons b bs ih =>
    have hb : done ++ b ≠ [] := by simp [hne b (by simp)]
    simp only [takeThrough]
    by_cases hP : P (done ++ b)
    · rw [if_pos hP, if_pos (hPQ _ hb hP)]
    · rw [if_neg hP]
      split_ifs
      · exact ⟨_, rfl⟩
      · exact cons_prefix_cons.2 ⟨rfl, ih _ fun b hb => hne b (by simp [hb])⟩

end Batches

section Protocol

variable (C : SyncConfig)

/-- Serve the batches as long as the object stays in this phase.  All but the last are full. -/
def serve (phase : DownloadState) (lastFull : Bool) :
    HeadersSyncState → List (List BlockHeader) → Option (List ProcessingResult × HeadersSyncState)
  | s, [] => some ([], s)
  | s, b :: bs =>
    match processNextHeaders C b (!bs.isEmpty || lastFull) s with
    | .error _ _ => none
    | .ok r s' =>
      if s'.downloadState = phase then
        (serve phase lastFull s' bs).map fun (rs, t) => (r :: rs, t)
      else some ([r], s')

/-- Serve the batches to a fresh object, from the beginning in each phase. -/
def serveTwice (lastFull : Bool) (batches : List (List BlockHeader)) :
    Option (List ProcessingResult) := do
  let (rs, s) ← serve C .presync lastFull C.start batches
  if s.downloadState = .redownload then
    let (rs', _) ← serve C .redownload lastFull s batches
    return rs ++ rs'
  else return rs

/-- The headers of the blocks on top of a branch. -/
def headersOn : Branch → List BlockIndex → List BlockHeader
  | _, [] => []
  | c, b :: bs => getBlockHeader b c :: headersOn (b :: c) bs

/-- The commitments to a chain on top of a block at this height. -/
def SyncConfig.commitments (height : ℤ) : List BlockHeader → List Bool
  | [] => []
  | h :: l => (if C.commits (height + 1) then [C.commitment h] else []) ++
      commitments (height + 1) l

/-- The work suffices. -/
def SyncConfig.Enough (l : List BlockHeader) : Prop := C.minimumRequiredWork ≤ C.work l

instance : DecidablePred C.Enough := fun l =>
  inferInstanceAs (Decidable (C.minimumRequiredWork ≤ C.work l))

instance : DecidablePred C.Reached := fun l =>
  decidable_of_iff (∃ l' ∈ l.inits, l' ≠ [] ∧ C.minimumRequiredWork ≤ C.work l') (by
    simp only [mem_inits, SyncConfig.Reached]
    exact exists_congr fun l' => ⟨fun h => ⟨h.2.1, h.1, h.2.2⟩, fun h => ⟨h.2.1, h.1, h.2.2⟩⟩)

end Protocol

variable {C : SyncConfig} {s : HeadersSyncState} {h : BlockHeader} {l l' : List BlockHeader}

namespace SyncConfig

theorem commitments_append (height : ℤ) : C.commitments height (l ++ l') =
    C.commitments height l ++ C.commitments (height + l.length) l' := by
  induction l generalizing height with
  | nil => simp [commitments]
  | cons h l ih =>
    simp only [cons_append, commitments, ih, append_assoc, length_cons]
    push_cast
    rw [add_right_comm, add_assoc]

theorem commitments_concat : C.commitments C.chainStart.nHeight (l ++ [h]) =
    C.commitments C.chainStart.nHeight l ++
      if C.commits ((C.tip l).height + 1) then [C.commitment h] else [] := by
  simp [commitments_append, commitments, height_tip]

theorem Reached.of_enough (hne : l ≠ []) (h : C.Enough l) : C.Reached l := ⟨l, hne, prefix_rfl, h⟩

theorem Reached.mono (hl : l <+: l') (h : C.Reached l) : C.Reached l' := by
  obtain ⟨l0, hne, hl0, hw⟩ := h
  exact ⟨l0, hne, hl0.trans hl, hw⟩

end SyncConfig

variable (C) in
/-- The header names its parent, and only the step from a genesis block may not be let through. -/
def Tip.Honest (t : Tip) (h : BlockHeader) : Prop :=
  h.hashPrevBlock = t.hash ∧
    (permittedDifficultyTransition C.params (t.height + 1) t.nBits h.nBits = some true ↔
      C.params.fPowAllowMinDifficultyBlocks = true ∨ AtLimit C.params t.height t.nBits)

variable (C) in
/-- The headers come from a chain of the index, and there are not too many of them. -/
structure Served (headers : List BlockHeader) : Prop where
  startHash : C.hdr.getHash (getBlockHeader C.chainStart C.pprev) = C.chainStart.hash
  honest : Walk (next C) (Tip.Honest C) C.root headers
  -- heights are of type `int`
  heights : C.chainStart.nHeight + headers.length < 2 ^ 31
  commitments : (C.commitments C.chainStart.nHeight headers).length ≤ C.maxCommitments

theorem Served.of_initial {headers : List BlockHeader} (hs : Served C headers)
    (hl : l <+: headers) : Served C l := by
  obtain ⟨l', rfl⟩ := hl
  refine ⟨hs.startHash, (Walk.append_iff.1 hs.honest).1, ?_, ?_⟩
  · have := hs.heights
    simp only [length_append] at this
    omega
  · have := hs.commitments
    simp only [commitments_append, length_append] at this
    omega

variable {blocks : List BlockIndex} {a : BlockIndex}

/-- A chain of the index, cut at one of its blocks. -/
theorem indexChain_cut {H : HeaderFns} {p : Params}
    {c : Branch} (h : IndexChain H p (blocks.reverse ++ a :: c)) :
    IndexChain H p (a :: c) ∧ Walk (fun c b => b :: c) (Follows H p) (a :: c) blocks := by
  induction blocks generalizing a c with
  | nil => exact ⟨h, Walk.nil⟩
  | cons b blocks ih =>
    rw [reverse_cons, append_assoc] at h
    obtain ⟨hb, hw⟩ := ih h
    cases hb with
    | next hc hf => exact ⟨hc, hf, hw⟩

variable (C) in
/-- Where a block is followed by a retarget, this does not overflow. -/
def RetargetsFit (blocks : List BlockIndex) : Prop := ∀ b ∈ blocks,
  (b.nHeight + 1 : ℤ).tmod C.params.difficultyAdjustmentInterval = 0 → RetargetFits C.params b.nBits

theorem walk_headersOn {c : Branch} (hc : IndexChain C.hdr C.params (a :: c))
    (hfits : RetargetsFit C (a :: blocks))
    (hw : Walk (fun c b => b :: c) (Follows C.hdr C.params) (a :: c) blocks) :
    Walk (next C) (Tip.Honest C) ⟨a.nHeight, a.hash, a.nBits⟩ (headersOn (a :: c) blocks) := by
  induction blocks generalizing a c with
  | nil => trivial
  | cons b blocks ih =>
    obtain ⟨hf, hw⟩ := hw
    refine ⟨⟨rfl, Pow.permitted_iff hc hf (hfits a mem_cons_self)⟩, ?_⟩
    obtain ⟨a', ha', hh⟩ := hf.1
    obtain rfl : a = a' := by simpa using ha'
    have htip : (⟨a.nHeight, a.hash, a.nBits⟩ : Tip).next C (getBlockHeader b (a :: c)) =
        ⟨b.nHeight, b.hash, b.nBits⟩ := by
      simp [Tip.next, hh, hf.2.1, getBlockHeader]
    rw [htip]
    exact ih (.next hc hf) (fun x hx => hfits x (mem_cons_of_mem _ hx)) hw

theorem length_headersOn (c : Branch) (blocks : List BlockIndex) :
    (headersOn c blocks).length = blocks.length := by
  induction blocks generalizing c with
  | nil => rfl
  | cons b blocks ih => simp [headersOn, ih]

theorem served_of_indexChain
    (hc : IndexChain C.hdr C.params (blocks.reverse ++ C.chainStart :: C.pprev))
    (hfits : RetargetsFit C (C.chainStart :: blocks))
    (hint : C.chainStart.nHeight + blocks.length < 2 ^ 31)
    (hmax : (C.commitments C.chainStart.nHeight
      (headersOn (C.chainStart :: C.pprev) blocks)).length ≤ C.maxCommitments) :
    Served C (headersOn (C.chainStart :: C.pprev) blocks) := by
  obtain ⟨hb, hw⟩ := indexChain_cut hc
  exact ⟨hb.hash_eq.symm, walk_headersOn hb hfits hw, by rwa [length_headersOn], hmax⟩

/-- The headers of a chain are permitted unless they start on an irregular genesis block. -/
theorem Served.chained_iff {headers : List BlockHeader} (hs : Served C headers)
    (hne : headers ≠ []) : C.Chained headers ↔ C.params.fPowAllowMinDifficultyBlocks = true ∨
      AtLimit C.params C.chainStart.nHeight C.chainStart.nBits := by
  have key : ∀ l t, 0 < t.height → Walk (next C) (Tip.Honest C) t l →
      Walk (next C) (Tip.Connects C) t l := by
    intro l
    induction l with
    | nil => exact fun _ _ _ => trivial
    | cons h l ih =>
      intro t ht hw
      have hperm := hw.1.2.2 (.inr fun h0 => absurd h0 ht.ne')
      exact ⟨⟨hw.1.1, hperm⟩, ih _ (ht.trans (lt_add_one _)) hw.2⟩
  obtain ⟨h, l, rfl⟩ := exists_cons_of_ne_nil hne
  obtain ⟨⟨hprev, hperm⟩, hw⟩ := hs.honest
  refine Iff.trans ?_ hperm
  exact ⟨fun hc => hc.1.2, fun hp => ⟨⟨hprev, hp⟩, key l _ (by simp [Tip.next, root]) hw⟩⟩

variable (C) in
/-- The state in the first phase after the headers `l` of a chain. -/
structure PresyncTrace (s : HeadersSyncState) (l : List BlockHeader) : Prop
    extends Presyncing C s l where
  lastHash : C.hdr.getHash s.lastHeaderReceived = (C.tip l).hash
  lastBits : s.lastHeaderReceived.nBits = (C.tip l).nBits
  height : s.currentHeight = (C.tip l).height
  commitments : s.headerCommitments = C.commitments C.chainStart.nHeight l

namespace PresyncTrace

variable (ht : PresyncTrace C s l)
include ht

theorem nextHeight_eq (hs : Served C (l ++ [h])) : s.nextHeight = (C.tip l).height + 1 := by
  have hlen := hs.heights
  simp only [length_append, length_singleton] at hlen
  rw [nextHeight, ht.height, BitVec.toInt_ofInt, height_tip]
  exact Int.bmod_eq_of_le (by omega) (by omega)

theorem extends_iff (hs : Served C (l ++ [h])) : s.Extends C h ↔ (C.tip l).Connects C h := by
  have hprev := (Walk.concat_iff.1 hs.honest).2.1
  have hmax := hs.commitments
  rw [commitments_concat, ← ht.commitments] at hmax
  simp only [Extends, ht.nextHeight_eq hs, ht.lastBits, Tip.Connects]
  refine ⟨fun h => ⟨hprev, h.1⟩, fun h => ⟨h.2, fun hc => ?_⟩⟩
  simpa [hc] using hmax

theorem extended (hs : Served C (l ++ [h])) : PresyncTrace C (s.extended C h) (l ++ [h]) where
  toPresyncing := ht.toPresyncing.extended h
  lastHash := by simp [HeadersSyncState.extended, Tip.next]
  lastBits := by simp [HeadersSyncState.extended, Tip.next]
  height := by simp [HeadersSyncState.extended, Tip.next, ht.nextHeight_eq hs]
  commitments := by
    rw [commitments_concat]
    simp [HeadersSyncState.extended, ht.commitments, ht.nextHeight_eq hs]

/-- A batch of the chain passes if its steps are permitted. -/
theorem walk_iff (hs : Served C (l ++ l')) :
    (Walk (HeadersSyncState.extended C) (Extends C) s l' ↔
        Walk (next C) (Tip.Connects C) (C.tip l) l') ∧
      PresyncTrace C (l'.foldl (HeadersSyncState.extended C) s) (l ++ l') := by
  induction l' generalizing s l with
  | nil => simpa using ht
  | cons h l' ih =>
    have hs' : Served C (l ++ [h]) := hs.of_initial ⟨l', by simp⟩
    have := ih (ht.extended hs') (by simpa using hs)
    simp only [Walk.cons_iff, ht.extends_iff hs', this.1, tip_concat, true_and]
    simpa using this.2

theorem batchExtends_iff (hs : Served C (l ++ l')) :
    s.BatchExtends C l' ↔ Walk (next C) (Tip.Connects C) (C.tip l) l' := by
  rw [BatchExtends, (ht.walk_iff hs).1, and_iff_right_iff_imp]
  intro _ first hfirst
  obtain ⟨rest, rfl⟩ := head?_eq_some_iff.1 hfirst
  rw [ht.lastHash]
  exact (Walk.append_iff.1 hs.honest).2.1.1

end PresyncTrace

theorem Served.presyncTrace_start (hs : Served C l) : PresyncTrace C C.start [] where
  toPresyncing := .start
  lastHash := hs.startHash
  lastBits := rfl
  height := rfl
  commitments := rfl

/-- A batch leaves the commitments alone when the phase changes. -/
theorem PresyncTrace.batchExtended (ht : PresyncTrace C s l) (hs : Served C (l ++ l')) :
    (PresyncTrace C (s.batchExtended C l') (l ++ l') ∧ ¬ C.Enough (l ++ l')) ∨
      (Redownloading C (s.batchExtended C l') [] [] ∧ C.Enough (l ++ l') ∧
        (s.batchExtended C l').headerCommitments =
          C.commitments C.chainStart.nHeight (l ++ l')) := by
  have ht' := (ht.walk_iff hs).2
  simp only [HeadersSyncState.batchExtended, ht'.work]
  split_ifs with hw
  · exact .inr ⟨redownloading_start ht'.processAll, hw, ht'.commitments⟩
  · exact .inl ⟨ht', hw⟩

/-- A batch that passes, unless it is the last one and there is not enough work. -/
theorem PresyncTrace.call (ht : PresyncTrace C s l) (hs : Served C (l ++ l')) (hne : l' ≠ [])
    (hwalk : Walk (next C) (Tip.Connects C) (C.tip l) l') (full : Bool)
    (hfull : full = true ∨ C.Enough (l ++ l')) :
    ∃ r, processNextHeaders C l' full s = .ok r (s.batchExtended C l') ∧ r.success = true ∧
      r.powValidatedHeaders = [] := by
  have hcall := processNextHeaders_presync (C := C) ht.phase hne full
  rw [ht.batchExtends_iff hs] at hcall
  obtain ⟨r, s', hok, hpost⟩ := (hcall.mono (fun _ _ h => h) fun _ h => absurd hwalk h).exists_ok
  obtain ⟨-, hr, hs'⟩ := hpost.resolve_right fun h => h.1 hwalk
  have hmore : r.requestMore = true := by
    rcases hfull with hfull | hyes
    · simp [hr, hfull]
    · rcases ht.batchExtended hs with ⟨-, hno⟩ | ⟨hred, -⟩
      · exact absurd hyes hno
      · simp [hr, hred.phase]
  rw [hmore, if_pos rfl] at hs'
  exact ⟨r, hs' ▸ hok, by simp [hr], by simp [hr]⟩

section Serve

variable {phase : DownloadState} {lastFull : Bool} {b : List BlockHeader}
  {bs : List (List BlockHeader)} {r : ProcessingResult} {s' : HeadersSyncState}

section

variable (hok : processNextHeaders C b (!bs.isEmpty || lastFull) s = .ok r s')
include hok

theorem serve_stay (hp : s'.downloadState = phase) : serve C phase lastFull s (b :: bs) =
      (serve C phase lastFull s' bs).map fun (rs, t) => (r :: rs, t) := by
  simp [serve, hok, hp]

theorem serve_stop (hp : s'.downloadState ≠ phase) :
    serve C phase lastFull s (b :: bs) = some ([r], s') := by
  simp [serve, hok, hp]

end

theorem serve_first {rs : List ProcessingResult} {t : HeadersSyncState}
    (h : serve C phase lastFull s (b :: bs) = some (rs, t)) :
    ∃ r s', processNextHeaders C b (!bs.isEmpty || lastFull) s = .ok r s' ∧ r ∈ rs := by
  cases hok : processNextHeaders C b (!bs.isEmpty || lastFull) s with
  | error e s' => simp [serve, hok] at h
  | ok r s' =>
    refine ⟨r, s', rfl, ?_⟩
    by_cases hp : s'.downloadState = phase
    · rw [serve_stay hok hp, map_eq_some_iff] at h
      obtain ⟨⟨rs', t'⟩, -, heq⟩ := h
      obtain ⟨rfl, -⟩ := Prod.mk.inj heq
      simp
    · rw [serve_stop hok hp] at h
      obtain ⟨rfl, -⟩ := Prod.mk.inj (some.inj h)
      simp

end Serve

/-- The first phase with the headers of a chain that ends with enough work: the second phase
begins after the batch with which there is enough, or a call fails. -/
theorem serve_presync (lastFull : Bool) {batches : List (List BlockHeader)} (hne : batches ≠ [])
    (ht : PresyncTrace C s l) (hs : Served C (l ++ batches.flatten))
    (hb : ∀ b ∈ batches, b ≠ []) (hw : C.Enough (l ++ batches.flatten)) :
    (Walk (next C) (Tip.Connects C) (C.tip l) (takeThrough C.Enough l batches).flatten ∧
        ∃ rs t, serve C .presync lastFull s batches = some (rs, t) ∧
          (∀ r ∈ rs, r.success = true ∧ r.powValidatedHeaders = []) ∧ Redownloading C t [] [] ∧
          C.Enough (l ++ (takeThrough C.Enough l batches).flatten) ∧
          t.headerCommitments = C.commitments C.chainStart.nHeight
            (l ++ (takeThrough C.Enough l batches).flatten)) ∨
      (¬ Walk (next C) (Tip.Connects C) (C.tip l) (takeThrough C.Enough l batches).flatten ∧
        ∀ rs t, serve C .presync lastFull s batches = some (rs, t) →
          ∃ r ∈ rs, r.success = false) := by
  induction batches generalizing s l with
  | nil => exact absurd rfl hne
  | cons b bs ih =>
    have hs' : Served C (l ++ b) := hs.of_initial ⟨bs.flatten, by simp⟩
    by_cases hwalk : Walk (next C) (Tip.Connects C) (C.tip l) b
    · rcases ht.batchExtended hs' with ⟨ht', hno⟩ | ⟨hred, hyes, hcom⟩
      · -- there is not enough work yet, so this is not the last batch
        have hbs : bs ≠ [] := by
          rintro rfl
          exact hno (by simpa using hw)
        obtain ⟨r, hok, hr⟩ := ht.call hs' (hb b (by simp)) hwalk
          (!bs.isEmpty || lastFull) (.inl (by simp [hbs]))
        have ih' := ih hbs ht' (by simpa using hs) (fun b h => hb b (by simp [h]))
          (by simpa using hw)
        rw [serve_stay hok ht'.phase]
        simp only [takeThrough, if_neg hno, flatten_cons, Walk.append_iff, hwalk, true_and,
          ← append_assoc]
        rw [show b.foldl (next C) (C.tip l) = C.tip (l ++ b) by simp [tip]]
        obtain ⟨hw, rs, t, hserve, hrs, hrest⟩ | ⟨hw, hserve⟩ := ih'
        · exact .inl ⟨hw, r :: rs, t, by simp [hserve], forall_mem_cons.2 ⟨hr, hrs⟩, hrest⟩
        · refine .inr ⟨hw, fun rs t hrs => ?_⟩
          obtain ⟨⟨rs', t'⟩, hrs', heq⟩ := map_eq_some_iff.1 hrs
          obtain ⟨rfl, -⟩ := Prod.mk.inj heq
          obtain ⟨r', hr', hfail⟩ := hserve rs' t' hrs'
          exact ⟨r', by simp [hr'], hfail⟩
      · obtain ⟨r, hok, hr⟩ := ht.call hs' (hb b (by simp)) hwalk
          (!bs.isEmpty || lastFull) (.inr hyes)
        left
        simp only [takeThrough, if_pos hyes, flatten_cons, flatten_nil, append_nil]
        exact ⟨hwalk, [r], _, serve_stop hok (by simp [hred.phase]), by simpa using hr, hred, hyes,
          hcom⟩
    · right
      have hpre : b <+: (takeThrough C.Enough l (b :: bs)).flatten := by
        unfold takeThrough
        split_ifs
        · simp
        · simp
      refine ⟨fun h => hwalk (h.of_initial hpre), fun rs t hserve => ?_⟩
      obtain ⟨r, s', hok, hr⟩ := serve_first hserve
      have hcall := processNextHeaders_presync (C := C) ht.phase (hb b (by simp))
        (!bs.isEmpty || lastFull)
      rw [ht.batchExtends_iff hs'] at hcall
      obtain ⟨-, rfl, -⟩ := (hcall.ok hok).resolve_left fun h => hwalk h.1
      exact ⟨_, hr, rfl⟩

variable {presynced redownloaded released headers : List BlockHeader}

variable (C) in
/-- As long as the work does not suffice, the headers downloaded again are the first of those
seen before, and the commitments to the others are left. -/
def Pending (s : HeadersSyncState) (presynced redownloaded : List BlockHeader) : Prop :=
  ¬ C.Reached redownloaded → ∃ rest, presynced = redownloaded ++ rest ∧
    s.headerCommitments = C.commitments (C.tip redownloaded).height rest

section

variable (hq : Pending C s presynced redownloaded) (hr : Redownloading C s released redownloaded)
include hq hr

theorem Pending.storable (hc : (C.tip redownloaded).Connects C h)
    (hre : redownloaded ++ [h] <+: headers) (hpre : presynced <+: headers)
    (henough : C.Reached presynced) :
    s.Storable C h ∧ Pending C (s.stored C h) presynced (redownloaded ++ [h]) := by
  rw [hr.storable_iff]
  by_cases hR : C.Reached (redownloaded ++ [h])
  · exact ⟨⟨hc, absurd hR⟩, absurd hR⟩
  obtain ⟨rest, rfl, hcom⟩ := hq fun h => hR (h.mono ⟨_, rfl⟩)
  -- the header is among those of the first phase, which has seen enough work
  have hmem : redownloaded ++ [h] <+: redownloaded ++ rest :=
    (List.prefix_or_prefix_of_prefix hre hpre).resolve_right fun h => hR (henough.mono h)
  obtain ⟨rest, rfl⟩ := (prefix_append_right_inj _).1 hmem
  have hcompare : s.compares C h = C.commits ((C.tip redownloaded).height + 1) := by
    have : s.processesAll C h = false := by simpa using fun h' => hR ((hr.processesAll h).1 h')
    simp [compares, this, hr.lastHeight]
  simp only [cons_append, nil_append, commitments] at hcom
  refine ⟨⟨hc, fun _ hcommit => by simp [hcom, hcommit]⟩, fun _ => ⟨rest, by simp, ?_⟩⟩
  simp only [stored, hcompare, hcom, tip_concat, Tip.next]
  split_ifs
  · simp
  · simp

theorem Pending.walk (hw : Walk (next C) (Tip.Connects C) (C.tip redownloaded) l)
    (hre : redownloaded ++ l <+: headers) (hpre : presynced <+: headers)
    (henough : C.Reached presynced) :
    Walk (stored C) (Storable C) s l ∧
      Pending C (l.foldl (stored C) s) presynced (redownloaded ++ l) := by
  induction l generalizing s redownloaded with
  | nil => exact ⟨trivial, by simpa using hq⟩
  | cons h l ih =>
    have hre' : redownloaded ++ [h] <+: headers := List.IsPrefix.trans ⟨l, by simp⟩ hre
    obtain ⟨hst, hq'⟩ := hq.storable hr hw.1 hre' hpre henough
    obtain ⟨hw', hq''⟩ := ih hq' (hr.stored hw.1) (by simpa using hw.2) (by simpa using hre)
    exact ⟨⟨hst, hw'⟩, by simpa using hq''⟩

end

theorem Redownloading.call (hr : Redownloading C s released redownloaded)
    (hst : Walk (HeadersSyncState.stored C) (Storable C) s l) (hne : l ≠ []) (full : Bool)
    {ready : List BlockHeader} {t : HeadersSyncState}
    (hpop : (l.foldl (HeadersSyncState.stored C) s).popped C = (ready, t)) :
    ∃ r s', processNextHeaders C l full s = .ok r s' ∧
      r = { powValidatedHeaders := ready, success := true, requestMore := !t.complete && full } ∧
      s' = if r.requestMore then t else t.finalize := by
  have hcall := processNextHeaders_redownload (C := C) hr.phase hne full
  obtain ⟨r, s', hok, hpost⟩ := (hcall.mono (fun _ _ h => h) fun _ h => absurd hst h).exists_ok
  obtain ⟨-, ready', t', hpop', hres, hs'⟩ := hpost.resolve_right fun h => h.1 hst
  obtain ⟨rfl, rfl⟩ : ready = ready' ∧ t = t' := by simpa [hpop] using hpop'
  exact ⟨r, s', hok, hres, hs'⟩

/-- The second phase with the headers of the first: they are handed out up to the batch in which
the work suffices. -/
theorem serve_redownload (lastFull : Bool) {batches : List (List BlockHeader)}
    (hr : Redownloading C s released redownloaded) (hq : Pending C s presynced redownloaded)
    (hR : ¬ C.Reached redownloaded) (hb : ∀ b ∈ batches, b ≠ [])
    (hw : Walk (next C) (Tip.Connects C) (C.tip redownloaded)
      (takeThrough C.Reached redownloaded batches).flatten)
    (hpre : presynced <+: redownloaded ++ batches.flatten) (henough : C.Reached presynced) :
    ∃ rs t, serve C .redownload lastFull s batches = some (rs, t) ∧
      (∀ r ∈ rs, r.success = true) ∧
      released ++ rs.flatMap ProcessingResult.powValidatedHeaders =
        redownloaded ++ (takeThrough C.Reached redownloaded batches).flatten := by
  induction batches generalizing s released redownloaded with
  | nil => exact absurd (henough.mono (by simpa using hpre)) hR
  | cons b bs ih =>
    have hwb : Walk (next C) (Tip.Connects C) (C.tip redownloaded) b := by
      refine hw.of_initial ?_
      unfold takeThrough
      split_ifs
      · simp
      · simp
    have hre : redownloaded ++ b <+: redownloaded ++ (b :: bs).flatten := ⟨bs.flatten, by simp⟩
    obtain ⟨hst, hq'⟩ := hq.walk hr hwb hre hpre henough
    obtain ⟨ready, t, hpop, -, -, hdone, hmore⟩ := (hr.foldl_stored hst).popped
    obtain ⟨r, s', hok, hres, hs'⟩ := hr.call hst (hb b (by simp)) (!bs.isEmpty || lastFull) hpop
    by_cases hRb : C.Reached (redownloaded ++ b)
    · obtain ⟨hcomplete, hall⟩ := hdone hRb
      have hfinal : s'.downloadState = .final := by simp [hs', hres, hcomplete, finalize]
      refine ⟨[r], s', serve_stop hok (by simp [hfinal]), by simp [hres], ?_⟩
      simpa [takeThrough, hRb, hres] using hall
    · obtain ⟨hcomplete, hred, hcom⟩ := hmore hRb
      have hbs : bs ≠ [] := by
        rintro rfl
        exact hRb (henough.mono (by simpa using hpre))
      obtain rfl : s' = t := by simp [hs', hres, hcomplete, hbs]
      have hq'' : Pending C s' presynced (redownloaded ++ b) := by simpa [Pending, hcom] using hq'
      simp only [takeThrough, if_neg hRb, flatten_cons, Walk.append_iff] at hw
      rw [show b.foldl (next C) (C.tip redownloaded) = C.tip (redownloaded ++ b) by
        simp [tip]] at hw
      obtain ⟨rs, u, hserve, hrs, heq⟩ := ih hred hq'' hRb (fun b h => hb b (by simp [h])) hw.2
        (by simpa using hpre)
      refine ⟨r :: rs, u, by simp [serve_stay hok hred.phase, hserve], ?_, ?_⟩
      · exact forall_mem_cons.2 ⟨by simp [hres], hrs⟩
      · simpa [takeThrough, hRb, hres] using heq

/-- A start whose second block has a retarget on top. -/
def retargetSync : SyncConfig :=
  { sampleSync with
    params := Pow.shortPeriod
    chainStart := { sampleSync.chainStart with nBits := 0x1a010000 }
    minimumRequiredWork := 2 ^ 57 }

def retargetBlocks : List BlockIndex :=
  [{ hash := 2, nHeight := 1, nTime := 20, nBits := 0x1a010000, nNonce := 2 },
    { hash := 3, nHeight := 2, nTime := 60, nBits := 0x1a008000, nNonce := 3 }]

/-- The same start, on a genesis block with the target that `mine_genesis.cpp` gives it. -/
def minedGenesisSync : SyncConfig :=
  { sampleSync with
    chainStart := { sampleSync.chainStart with nBits := 0x217fffff }
    minimumRequiredWork := 4 }

/-- The two blocks of `twoHeaders`. -/
def twoBlocks : List BlockIndex :=
  [{ hash := 2, nHeight := 1, nBits := 0x207fffff, nNonce := 2 },
    { hash := 3, nHeight := 2, nBits := 0x207fffff, nNonce := 3 }]

end KPCoin.HeadersSync
