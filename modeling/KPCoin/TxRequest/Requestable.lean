import KPCoin.TxRequest.Sanity

/-!
# Which transactions are requested from a peer

The answer of `GetRequestable` depends on the announcements and the time it is called with, not on
what the tracker has been asked before: of each transaction one candidate whose time has come, with
the highest priority, unless a request is still running.

* `mem_bestOf` : the loop of `GetRequestable` finds the best candidates of the peer;
* `Settled.best`, `Settled.exists_best` : what being the best candidate means for the announcements
  before the call;
* `getRequestable_spec` : the specification of `GetRequestable`.
-/

namespace KPCoin.TxRequest

open OrderedList List Announcement Tracker

variable {C : PriorityComputer} {t t' : Tracker C} {a b : Announcement} {h : Uint256} {p now : ℤ}

/-- What `GetRequestable` collects once the time is set. -/
def Tracker.bestOf (t : Tracker C) (peer : ℤ) : List Announcement :=
  (range byPeer (peerKey peer true 0) (fun a => a.peer == peer && a.state == .candidateBest)
    t.index.fst).mergeSort fun a b => decide (a.sequence ≤ b.sequence)

theorem getRequestable_eq {expired : List (ℤ × GenTxid)}
    (ht : t.setTimePoint now = some (t', expired)) (p : ℤ) :
    t.getRequestable p now = some (t', (t'.bestOf p).map toGenTxid, expired) := by
  simp [getRequestable, ht, bestOf]

theorem peerKey_le_iff {q : ℤ} {c d : Bool} {h' : Uint256} :
    peerKey p c h ≤ peerKey q d h' ↔ p < q ∨ p = q ∧ (c < d ∨ c = d ∧ h.toNat ≤ h'.toNat) := by
  simp [peerKey, Prod.Lex.toLex_le_toLex]

theorem mem_bestOf : a ∈ t.bestOf p ↔ a ∈ t.index ∧ a.peer = p ∧ a.state = .candidateBest := by
  rw [bestOf, (mergeSort_perm _ _).mem_iff, mem_range (MultiIndex.strict_iff.1 t.index.strict).1]
  · simp only [MultiIndex.mem_fst, Bool.and_eq_true, beq_iff_eq]
    refine and_congr_right fun _ => and_iff_right_of_imp fun h => ?_
    rw [byPeer, peerKey_le_iff, h.1, h.2]
    exact .inr ⟨rfl, .inr ⟨rfl, by simp⟩⟩
  · -- between the bound and a best candidate of the peer there are only such
    intro y hy z hz hlow hyz hc
    simp only [Bool.and_eq_true, beq_iff_eq] at hc ⊢
    rw [byPeer, peerKey_le_iff] at hlow
    rw [byPeer, byPeer, peerKey_le_iff] at hyz
    have hpeer : y.peer = p := by omega
    rw [hpeer] at hlow
    simp only [lt_irrefl, true_and, false_or] at hlow
    refine ⟨hpeer, ?_⟩
    by_contra hst
    rw [beq_eq_false_iff_ne.2 hst] at hlow
    rcases hlow with hlt | ⟨heq, -⟩
    · exact absurd hlt (by decide)
    · cases heq

theorem bestOf_sorted (hg : t.Good) : (t.bestOf p).Pairwise fun a b => a.sequence < b.sequence := by
  have hle : (t.bestOf p).Pairwise fun a b => a.sequence ≤ b.sequence := by
    refine (pairwise_mergeSort ?_ ?_ _).imp of_decide_eq_true
    · intro a b c
      simpa using le_trans
    · intro a b
      simpa using le_total a.sequence b.sequence
  have hnodup : (t.bestOf p).Nodup := by
    refine (mergeSort_perm _ _).nodup_iff.2 (List.Nodup.sublist ?_ t.index.nodup_fst)
    exact (takeWhile_sublist _).trans (dropWhile_sublist _)
  refine (pairwise_and_iff.2 ⟨hle, hnodup⟩).imp_of_mem fun {a b} ha hb h => ?_
  refine lt_of_le_of_ne h.1 fun hseq => h.2 ?_
  exact hg.sequence a (mem_bestOf.1 ha).1 b (mem_bestOf.1 hb).1 hseq

/-- A candidate whose time has come. -/
def Announcement.Eligible (now : ℤ) (a : Announcement) : Prop :=
  a.state ≠ .requested ∧ a.state ≠ .completed ∧ a.time ≤ now

/-- No announcement of the transaction is still requested. -/
def Tracker.Idle (t : Tracker C) (now : ℤ) (h : Uint256) : Prop :=
  ∀ b ∈ t.index, b.txhash = h → b.state = .requested → b.time ≤ now

/-- The announcement has been selected. -/
def Tracker.Selects (t : Tracker C) (a : Announcement) : Prop :=
  a.setState .candidateBest ∈ t.index

theorem stateAt_eq_ready : a.stateAt now = .candidateReady ↔ a.Eligible now := by
  unfold stateAt Announcement.Eligible
  cases a.state <;> by_cases htime : a.time ≤ now <;> simp [State.settle, htime]

theorem stateAt_eq_requested : a.stateAt now = .requested ↔
    a.state = .requested ∧ now < a.time := by
  unfold stateAt
  rw [← not_le]
  cases a.state <;> by_cases htime : a.time ≤ now <;> simp [State.settle, htime]

theorem core_eq_ready {s : State} :
    s.core = .candidateReady ↔ s = .candidateReady ∨ s = .candidateBest := by
  cases s <;> decide

section Settled

variable (hs : t'.Sane) (hr : Recast t t' (t.settled now))
include hs hr

/-- A best candidate could be requested before the call, and was as good as any other one. -/
theorem Settled.best (hb : b ∈ t'.index) (hst : b.state = .candidateBest) :
    ∃ a ∈ t.index, a.setState .candidateBest = b ∧ a.Eligible now ∧ t.Idle now a.txhash ∧
      ∀ x ∈ t.index, x.txhash = a.txhash → x.Eligible now → C.priority x ≤ C.priority a := by
  obtain ⟨a, ha, hsame, htime, hsettled⟩ := hr.bwd b hb
  obtain ⟨hspent, hat⟩ := settled_eq_some.1 hsettled
  -- what is not dropped shows in the tracker after the call
  have hfwd : ∀ x ∈ t.index, x.txhash = a.txhash →
      ∃ y ∈ t'.index, x.Same y ∧ b.txhash = y.txhash ∧ y.state.core = x.stateAt now := by
    intro x hx hxh
    obtain ⟨y, hy, hxy, -, hcore⟩ := hr.fwd x hx _ (settled_eq_some.2 ⟨by rwa [hxh], rfl⟩)
    exact ⟨y, hy, hxy, by rw [hsame.txhash, hxy.txhash, hxh], hcore⟩
  refine ⟨a, ha, hst ▸ hsame.setState_eq htime, ?_, ?_, fun x hx hxh hxe => ?_⟩
  · rw [← stateAt_eq_ready, hat, hst]
    rfl
  · intro x hx hxh hreq
    by_contra hlate
    obtain ⟨y, hy, -, hyh, hcore⟩ := hfwd x hx hxh
    rw [stateAt_eq_requested.2 ⟨hreq, not_le.1 hlate⟩, core_eq_requested] at hcore
    have heq := hs.one b hb y hy hyh (.inl hst) (.inr hcore)
    rw [← heq, hst] at hcore
    cases hcore
  · obtain ⟨y, hy, hxy, hyh, hcore⟩ := hfwd x hx hxh
    rw [stateAt_eq_ready.2 hxe, core_eq_ready] at hcore
    rw [← hxy.priority, ← hsame.priority]
    rcases hcore with hready | hbest
    · exact hs.best b hb y hy hyh hst hready
    · rw [hs.one b hb y hy hyh (.inl hst) (.inl hbest)]

/-- If a transaction can be requested, one of its announcements is the best candidate. -/
theorem Settled.exists_best (ha : a ∈ t.index) (hel : a.Eligible now)
    (hidle : t.Idle now a.txhash) :
    ∃ b ∈ t'.index, b.txhash = a.txhash ∧ b.state = .candidateBest := by
  have hready := stateAt_eq_ready.2 hel
  have hspent : ¬ t.Spent now a.txhash := fun h => by
    have := h a ha rfl
    rw [hready] at this
    cases this
  obtain ⟨y, hy, hay, -, hcore⟩ := hr.fwd a ha _ (settled_eq_some.2 ⟨hspent, hready⟩)
  rcases core_eq_ready.1 hcore with hst | hst
  · obtain ⟨b, hb, hbh, hsel | hreq⟩ := hs.ready y hy hst
    · exact ⟨b, hb, hbh.trans hay.txhash, hsel⟩
    · -- a request that is left would not have expired
      obtain ⟨x, hx, hsame, -, hx'⟩ := hr.bwd b hb
      have hx'' := (settled_eq_some.1 hx').2
      rw [hreq] at hx''
      obtain ⟨hxr, hlate⟩ := stateAt_eq_requested.1 hx''
      have := hidle x hx (by rw [← hsame.txhash, hbh, hay.txhash]) hxr
      omega
  · exact ⟨y, hy, hay.txhash, hst⟩

end Settled

/-- At the time point the tracker is at, there is nothing to do. -/
theorem setTimePoint_of_post (hpost : t.PostGetRequestableSanityCheck now) :
    t.setTimePoint now = some (t, []) := by
  have hpromote : t.promoteLoop now (t.index.trd.length + 1) [] = some (t, []) := by
    unfold promoteLoop
    cases hhead : t.index.trd.head? with
    | none => rfl
    | some a =>
      have ha := hpost a (t.index.mem_trd.1 (mem_of_head? hhead))
      have hlate : ¬ (a.state = .candidateDelayed ∧ a.time ≤ now) ∧
          ¬ (a.state = .requested ∧ a.time ≤ now) := by
        constructor <;> rintro ⟨hst, htime⟩ <;> simp [isWaiting, hst] at ha <;> omega
      simp [hlate]
  have hdemote : t.demoteLoop now (t.index.trd.length + 1) = some t := by
    unfold demoteLoop
    cases hlast : t.index.trd.getLast? with
    | none => rfl
    | some a =>
      have ha := hpost a (t.index.mem_trd.1 (mem_of_getLast? hlast))
      have hlate : ¬ (a.isSelectable ∧ a.time > now) := by
        rintro ⟨hsel, htime⟩
        have hwait : ¬ a.isWaiting = true := fun hw => by
          have h0 := waitState_eq_zero.2 hw
          rw [waitState_eq_two.2 hsel] at h0
          cases h0
        rw [if_neg hwait, if_pos hsel] at ha
        omega
      simp [hlate]
  simp [setTimePoint, hpromote, hdemote]

/-- The transactions are offered to one peer only. -/
theorem Tracker.Sane.bestOf_disjoint (hs : t.Sane) {q : ℤ} (hpq : q ≠ p) (ha : a ∈ t.bestOf p)
    (hb : b ∈ t.bestOf q) : b.txhash ≠ a.txhash := by
  obtain ⟨ha, hap, hast⟩ := mem_bestOf.1 ha
  obtain ⟨hb, hbq, hbst⟩ := mem_bestOf.1 hb
  intro hh
  have heq := hs.one b hb a ha hh (.inl hbst) (.inl hast)
  exact hpq (by rw [← hbq, heq, hap])

theorem Settled.exists_bestOf (hs : t'.Sane) (hr : Recast t t' (t.settled now)) (p : ℤ) :
    ∃ sel : List Announcement, (∀ a ∈ sel, a ∈ t.index) ∧
      sel.map (fun a => a.setState .candidateBest) = t'.bestOf p := by
  have hrange : t'.bestOf p ∈
      Set.range (map fun a : { a // a ∈ t.index } => a.1.setState .candidateBest) := by
    rw [Set.range_list_map]
    intro b hb
    obtain ⟨hb, -, hst⟩ := mem_bestOf.1 hb
    obtain ⟨a, ha, heq, -⟩ := Settled.best hs hr hb hst
    exact ⟨⟨a, ha⟩, heq⟩
  obtain ⟨l, hl⟩ := hrange
  refine ⟨l.map Subtype.val, fun a ha => ?_, by simpa using hl⟩
  obtain ⟨x, -, rfl⟩ := mem_map.1 ha
  exact x.2

/-- **`GetRequestable` meets its specification.** -/
theorem getRequestable_spec (h : (trackerLts C).Reachable t) (p now : ℤ) :
    ∃ (t' : Tracker C) (sel exp : List Announcement),
      t.getRequestable p now =
        some (t', sel.map Announcement.toGenTxid, exp.map fun a => (a.peer, a.toGenTxid)) ∧
      -- in the order in which they were announced
      sel.Pairwise (fun a b => a.sequence < b.sequence) ∧
      (∀ a, a ∈ sel ↔ a ∈ t.index ∧ a.peer = p ∧ a.Eligible now ∧ t.Idle now a.txhash ∧
        t'.Selects a ∧
        ∀ b ∈ t.index, b.txhash = a.txhash → b.Eligible now → C.priority b ≤ C.priority a) ∧
      -- one announcement is selected of each transaction that can be requested
      (∀ a ∈ t.index, a.Eligible now → t.Idle now a.txhash →
        ∃! b, b ∈ t.index ∧ b.txhash = a.txhash ∧ t'.Selects b) ∧
      exp.Nodup ∧ (∀ a, a ∈ exp ↔ a ∈ t.index ∧ a.state = .requested ∧ a.time ≤ now) ∧
      t'.PostGetRequestableSanityCheck now ∧
      -- no other peer is offered the same transaction, before or after this call
      ∀ q ≠ p, ∀ u ret expired, t.getRequestable q now = some (u, ret, expired) ∨
        t'.getRequestable q now = some (u, ret, expired) →
        ∀ g ∈ ret, ∀ a ∈ sel, g.hash ≠ a.txhash := by
  have hs₀ := sane_of_reachable h
  obtain ⟨t', exp, ht', hs, hr, hpost, hnodup, hexp⟩ := hs₀.setTimePoint now
  obtain ⟨sel, hsel, hmap⟩ := Settled.exists_bestOf hs hr p
  have hmem : ∀ a ∈ t.index, a ∈ sel ↔ a.peer = p ∧ t'.Selects a := by
    intro a ha
    constructor
    · intro hin
      have hbest : a.setState .candidateBest ∈ t'.bestOf p := hmap ▸ mem_map_of_mem hin
      obtain ⟨hb, hp, -⟩ := mem_bestOf.1 hbest
      exact ⟨hp, hb⟩
    · rintro ⟨hp, hin⟩
      have hbest : a.setState .candidateBest ∈ t'.bestOf p := mem_bestOf.2 ⟨hin, hp, rfl⟩
      rw [← hmap] at hbest
      obtain ⟨a', ha', heq⟩ := mem_map.1 hbest
      rwa [← hs₀.good.setState_inj (hsel a' ha') ha heq]
  refine ⟨t', sel, exp, ?_, ?_, fun a => ⟨fun ha => ?_, fun ⟨ha, hp, _, _, hin, _⟩ => ?_⟩,
    fun a ha hel hidle => ?_, hnodup, hexp, hpost, fun q hq u ret expired hcall g hg a ha => ?_⟩
  · rw [getRequestable_eq ht' p, ← hmap, map_map]
    rfl
  · have hsorted := bestOf_sorted (p := p) hs.good
    rw [← hmap, pairwise_map] at hsorted
    exact hsorted
  · obtain ⟨hp, hin⟩ := (hmem a (hsel a ha)).1 ha
    obtain ⟨a', ha', heq, hel, hidle, hprio⟩ := Settled.best hs hr hin rfl
    obtain rfl := hs₀.good.setState_inj ha' (hsel a ha) heq
    exact ⟨ha', hp, hel, hidle, hin, hprio⟩
  · exact (hmem a ha).2 ⟨hp, hin⟩
  · obtain ⟨b, hb, hbh, hst⟩ := Settled.exists_best hs hr ha hel hidle
    obtain ⟨x, hx, rfl, -⟩ := Settled.best hs hr hb hst
    refine ⟨x, ⟨hx, hbh, hb⟩, fun y ⟨hy, hyh, hyin⟩ => ?_⟩
    have heq := hs.one _ hyin _ hb (by simp [hyh, ← hbh]) (.inl rfl) (.inl rfl)
    exact hs₀.good.setState_inj hy hx heq
  · -- both calls leave the tracker at `t'`
    have hret : ret = (t'.bestOf q).map Announcement.toGenTxid := by
      rcases hcall with hcall | hcall
      · rw [getRequestable_eq ht' q] at hcall
        exact (congrArg (fun r => r.2.1) (Option.some.inj hcall)).symm
      · rw [getRequestable_eq (setTimePoint_of_post hpost) q] at hcall
        exact (congrArg (fun r => r.2.1) (Option.some.inj hcall)).symm
    rw [hret] at hg
    obtain ⟨b, hb, rfl⟩ := mem_map.1 hg
    have hbest : a.setState .candidateBest ∈ t'.bestOf p := hmap ▸ mem_map_of_mem ha
    have hne := hs.bestOf_disjoint hq hbest hb
    exact hne

/-- The request to the first peer has expired, and the transaction is offered to the second one. -/
theorem getRequestable_twoPeers : ∃ (t t' : Tracker zeroHash) (sel exp : List Announcement),
    twoPeers.foldlM Tracker.exec ({} : Tracker zeroHash) = some t ∧
      t.getRequestable 2 30 =
        some (t', sel.map Announcement.toGenTxid, exp.map fun a => (a.peer, a.toGenTxid)) ∧
      sel.map Announcement.toGenTxid = [⟨true, 7⟩] ∧
      exp.map (fun a => (a.peer, a.toGenTxid)) = [(1, ⟨true, 7⟩)] ∧
      t'.PostGetRequestableSanityCheck 30 := by
  obtain ⟨t, hrun, -⟩ := twoPeers_run
  obtain ⟨t', sel, exp, hcall, -, -, -, -, -, hpost, -⟩ :=
    getRequestable_spec ((LTS.Reachable.start rfl).foldlM (fun _ _ _ h => h) hrun) 2 30
  have hlists : ((twoPeers.foldlM Tracker.exec ({} : Tracker zeroHash)).bind
      fun t => t.getRequestable 2 30).map (·.2) = some ([⟨true, 7⟩], [(1, ⟨true, 7⟩)]) := by
    decide +kernel
  rw [hrun, Option.bind_some, hcall, Option.map_some, Option.some.injEq, Prod.mk.injEq] at hlists
  exact ⟨t, t', sel, exp, hrun, hcall, hlists.1, hlists.2, hpost⟩

end KPCoin.TxRequest
