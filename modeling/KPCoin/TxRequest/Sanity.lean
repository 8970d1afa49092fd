import KPCoin.LTS.Basic
import KPCoin.TxRequest.TimePoint

/-!
# The tracker stays sane

The calls that can be made on the tracker, with any arguments and in any order, form a transition
system.  From the empty tracker each call returns, and after each call all the assertions of
`SanityCheck` hold.  Times are arguments of the calls, so the clock may go backwards.

* `Sane.sanityCheck` : `SanityCheck` succeeds on a sane tracker;
* `Sane.exec` : every call keeps a tracker sane;
* `tracker_stays_sane` : the result for all sequences of calls.
-/

namespace KPCoin.TxRequest

open OrderedList Option List TxHashInfo Tracker Announcement

variable {C : PriorityComputer} {t t' : Tracker C} {a b : Announcement} {h : Uint256}
  (l : List Announcement)

open State

theorem foldl_peerInfo (info : PeerInfo) :
    l.foldl (fun info ann =>
      { total := info.total + 1
        completed := info.completed + ann.inState .completed
        requested := info.requested + ann.inState .requested : PeerInfo }) info =
      { total := info.total + l.length
        completed := info.completed + l.countP fun a => a.state == .completed
        requested := info.requested + l.countP fun a => a.state == .requested } := by
  induction l generalizing info with
  | nil => simp
  | cons a l ih =>
    have hcount : ∀ s : State, (((a :: l).countP fun a => a.state == s : ℕ) : ℤ) =
        a.inState s + (l.countP fun a => a.state == s : ℕ) := fun s => by
      by_cases hs : a.state = s
      · simp [inState, hs, add_comm]
      · simp [inState, hs]
    simp only [foldl_cons, ih, hcount, PeerInfo.mk.injEq, length_cons, Nat.cast_succ]
    exact ⟨by omega, by omega, by omega⟩

theorem lookup_recomputePeerInfo (p : ℤ) : (recomputePeerInfo l).lookup p = peerInfoOf l p := by
  have hzero : l.countP (fun a => a.peer == p) = 0 ↔ ¬ ∃ x ∈ l, x.peer = p := by
    simp
  rw [recomputePeerInfo, Map.lookup_tally, foldl_peerInfo, peerInfoOf]
  by_cases hex : ∃ x ∈ l, x.peer = p
  · rw [if_pos hex, if_neg fun h => hzero.1 h hex]
    simp only [some.injEq, PeerInfo.mk.injEq, countP_filter, ← countP_eq_length_filter,
      zero_add, Nat.cast_inj]
    refine ⟨countP_congr fun x _ => ?_, countP_congr fun x _ => ?_,
      countP_congr fun x _ => ?_⟩
    · simp
    · simp [and_comm]
    · simp [and_comm]
  · rw [if_neg hex, if_pos (hzero.2 hex)]

/-- What `ComputeTxHashInfo` has collected from the announcements `l` of a transaction. -/
structure TxHashInfo.Collects (C : PriorityComputer) (info : TxHashInfo) (l : List Announcement) :
    Prop where
  candidateDelayed : info.candidateDelayed = l.countP fun a => a.state == .candidateDelayed
  candidateReady : info.candidateReady = l.countP fun a => a.state == .candidateReady
  candidateBest : info.candidateBest = l.countP fun a => a.state == .candidateBest
  requested : info.requested = l.countP fun a => a.state == .requested
  priorityCandidateBest : info.priorityCandidateBest = 2 ^ 64 - 1 ∨
    ∃ a ∈ l, a.state = .candidateBest ∧ info.priorityCandidateBest = C.priority a
  priorityBestCandidateReady : info.priorityBestCandidateReady = 0 ∨
    ∃ a ∈ l, a.state = .candidateReady ∧ info.priorityBestCandidateReady = C.priority a
  peers : info.peers = l.map peer

theorem TxHashInfo.Collects.add {info : TxHashInfo} {l : List Announcement}
    (hi : info.Collects C l) (a : Announcement) : (info.add C a).Collects C (l ++ [a]) := by
  have hcount : ∀ s : State, (l ++ [a]).countP (fun a => a.state == s) =
      l.countP (fun a => a.state == s) + if a.state = s then 1 else 0 := fun s => by
    simp
  have hold : ∀ {P : Announcement → Prop}, (∃ x ∈ l, P x) → ∃ x ∈ l ++ [a], P x :=
    fun ⟨x, hx, hP⟩ => ⟨x, by simp [hx], hP⟩
  have hnew : a ∈ l ++ [a] := by simp
  refine ⟨?_, ?_, ?_, ?_, ?_, ?_, ?_⟩
  · rw [hcount, ← hi.candidateDelayed, TxHashInfo.add]
  · rw [hcount, ← hi.candidateReady, TxHashInfo.add]
  · rw [hcount, ← hi.candidateBest, TxHashInfo.add]
  · rw [hcount, ← hi.requested, TxHashInfo.add]
  · by_cases hst : a.state = .candidateBest
    · exact .inr ⟨a, hnew, hst, by simp [TxHashInfo.add, hst]⟩
    · simpa [TxHashInfo.add, hst] using hi.priorityCandidateBest.imp_right hold
  · by_cases hst : a.state = .candidateReady
    · rcases le_total info.priorityBestCandidateReady (C.priority a) with hle | hle
      · exact .inr ⟨a, hnew, hst, by simp [TxHashInfo.add, hst, hle]⟩
      · simpa [TxHashInfo.add, hle] using hi.priorityBestCandidateReady.imp_right hold
    · simpa [TxHashInfo.add, hst] using hi.priorityBestCandidateReady.imp_right hold
  · simp [TxHashInfo.add, hi.peers]

theorem TxHashInfo.collects_foldl : (l.foldl (add C) {}).Collects C l := by
  induction l using reverseRecOn with
  | nil => exact ⟨rfl, rfl, rfl, rfl, .inl rfl, .inl rfl, rfl⟩
  | append_singleton l a ih =>
    rw [foldl_append]
    exact ih.add a

/-- At most one element of a list without duplicates has a property that only equals share. -/
theorem countP_le_one {α : Type*} {l : List α} {p : α → Bool} (hl : l.Nodup)
    (hp : ∀ x ∈ l, ∀ y ∈ l, p x = true → p y = true → x = y) : l.countP p ≤ 1 := by
  induction l with
  | nil => simp
  | cons x l ih =>
    obtain ⟨hx, hl⟩ := nodup_cons.1 hl
    have hrest := ih hl fun y hy z hz => hp y (by simp [hy]) z (by simp [hz])
    by_cases hpx : p x = true
    · have hzero : l.countP p = 0 := countP_eq_zero.2 fun y hy hpy =>
        hx (hp x (by simp) y (by simp [hy]) hpx hpy ▸ hy)
      simp [hpx, hzero]
    · simpa [hpx] using hrest

theorem countP_selected :
    l.countP (fun a => a.state == .candidateBest) + l.countP (fun a => a.state == .requested) =
      l.countP fun a => decide a.state.Selected := by
  induction l with
  | nil => rfl
  | cons a l ih =>
    simp only [countP_cons, ← ih]
    cases a.state <;> simp [Selected] <;> omega

theorem PriorityComputer.priority_le (a : Announcement) : C.priority a ≤ 2 ^ 64 - 1 :=
  Nat.le_pred_of_lt (BitVec.isLt _)

theorem Tracker.Sane.sanityCheck (hs : t.Sane) : t.SanityCheck := by
  refine ⟨fun p => (hs.good.counted p).trans (lookup_recomputePeerInfo _ p).symm, ?_⟩
  intro h info hinfo
  rw [computeTxHashInfo, Map.lookup_tally] at hinfo
  obtain ⟨⟨x, hx, hxh⟩, hinfo⟩ := ite_none_right_eq_some.1 hinfo
  cases hinfo
  have hi := collects_foldl (C := C) (t.index.fst.filter fun a => decide (a.txhash = h))
  generalize hgroup : t.index.fst.filter (fun a => decide (a.txhash = h)) = l at hi
  have hmem : ∀ a, a ∈ l ↔ a ∈ t.index ∧ a.txhash = h := fun a => by
    rw [← hgroup, mem_filter, MultiIndex.mem_fst, decide_eq_true_iff]
  have hnodup : l.Nodup := hgroup ▸ t.index.nodup_fst.filter _
  have hone : l.countP (fun a => decide a.state.Selected) ≤ 1 :=
    countP_le_one hnodup fun a ha b hb hsa hsb => hs.one a ((hmem a).1 ha).1 b ((hmem b).1 hb).1
      (((hmem a).1 ha).2.trans ((hmem b).1 hb).2.symm) (of_decide_eq_true hsa)
      (of_decide_eq_true hsb)
  rw [hi.candidateBest, hi.requested, hi.candidateReady, hi.candidateDelayed, add_assoc,
    countP_selected]
  refine ⟨?_, hone, fun hready => ?_, fun _ => ?_, ?_⟩
  · obtain ⟨b, hb, hbh, hlive⟩ := hs.live x hx
    have hbl : b ∈ l := (hmem b).2 ⟨hb, hbh.trans hxh⟩
    have hpos : ∀ p : Announcement → Bool, p b = true → 0 < l.countP p := fun p hp =>
      countP_pos_iff.2 ⟨b, hbl, hp⟩
    cases hst : b.state with
    | candidateDelayed =>
      have := hpos (fun a => a.state == .candidateDelayed) (by simp [hst])
      omega
    | candidateReady =>
      have := hpos (fun a => a.state == .candidateReady) (by simp [hst])
      omega
    | candidateBest =>
      have := hpos (fun a => decide a.state.Selected) (by simp [hst, Selected])
      omega
    | requested =>
      have := hpos (fun a => decide a.state.Selected) (by simp [hst, Selected])
      omega
    | completed => exact absurd hst hlive
  · obtain ⟨a, ha, hst⟩ := countP_pos_iff.1 hready
    obtain ⟨ha, hah⟩ := (hmem a).1 ha
    obtain ⟨b, hb, hbh, hsel⟩ := hs.ready a ha (by simpa using hst)
    have hpos : 0 < l.countP fun a => decide a.state.Selected :=
      countP_pos_iff.2 ⟨b, (hmem b).2 ⟨hb, hbh.trans hah⟩, decide_eq_true hsel⟩
    omega
  · rcases hi.priorityBestCandidateReady with h0 | ⟨r, hr, hrst, hrp⟩
    · rw [h0]
      exact Nat.zero_le _
    · rw [hrp]
      rcases hi.priorityCandidateBest with h1 | ⟨b, hb, hbst, hbp⟩
      · rw [h1]
        exact PriorityComputer.priority_le r
      · rw [hbp]
        exact hs.best b ((hmem b).1 hb).1 r ((hmem r).1 hr).1
          (((hmem b).1 hb).2.trans ((hmem r).1 hr).2.symm) hbst hrst
  · have hpeers : (l.map peer).Nodup := by
      refine (nodup_map_iff_inj_on hnodup).2 fun a ha b hb hp => ?_
      exact hs.good.unique a ((hmem a).1 ha).1 b ((hmem b).1 hb).1 hp
        (((hmem a).1 ha).2.trans ((hmem b).1 hb).2.symm)
    rw [hi.peers]
    exact List.Pairwise.isChain ((mergeSort_perm _ _).nodup_iff.2 hpeers)

theorem Announcement.Same.request (a : Announcement) (expiry : ℤ) :
    a.Same { a with state := .requested, time := expiry } :=
  ⟨rfl, rfl, rfl, rfl, rfl⟩

namespace Tracker.Sane

theorem empty : Tracker.Sane ({} : Tracker C) := by
  have hno : ∀ a, ¬ a ∈ ({} : Tracker C).index := fun a ha => not_mem_nil ha
  refine ⟨⟨fun a ha => absurd ha (hno a), fun a ha => absurd ha (hno a),
    fun a ha => absurd ha (hno a), fun p => rfl⟩, fun a ha => absurd ha (hno a),
    fun a ha => absurd ha (hno a), fun a ha => absurd ha (hno a), fun a ha => absurd ha (hno a)⟩

theorem receivedInv (hs : t.Sane) (peer : ℤ) (gtxid : GenTxid) (preferred : Bool) (reqtime : ℤ) :
    (t.receivedInv peer gtxid preferred reqtime).Sane := by
  rcases hs.good.receivedInv peer gtxid preferred reqtime with heq | ⟨hg, new, hnew, -, hmem⟩
  · rwa [heq]
  · have hold : ∀ b ∈ (t.receivedInv peer gtxid preferred reqtime).index,
        b.state ≠ .candidateDelayed → b ∈ t.index := fun b hb hne =>
      ((hmem b).1 hb).resolve_left fun h => hne (h ▸ hnew)
    have hsel : ∀ s : State, s.Selected → s ≠ .candidateDelayed := fun s h => by
      rcases h with rfl | rfl <;> decide
    refine ⟨hg, fun a ha b hb hh hsa hsb => ?_, fun a ha hr => ?_, fun a ha b hb hh hba hrb => ?_,
      fun a ha => ?_⟩
    · exact hs.one a (hold a ha (hsel _ hsa)) b (hold b hb (hsel _ hsb)) hh hsa hsb
    · obtain ⟨b, hb, hbh, hsb⟩ := hs.ready a (hold a ha (by simp [hr])) hr
      exact ⟨b, (hmem b).2 (.inr hb), hbh, hsb⟩
    · exact hs.best a (hold a ha (by simp [hba])) b (hold b hb (by simp [hrb])) hh hba hrb
    · rcases (hmem a).1 ha with rfl | ha'
      · exact ⟨a, ha, rfl, by simp [hnew]⟩
      · obtain ⟨b, hb, hbh, hlive⟩ := hs.live a ha'
        exact ⟨b, (hmem b).2 (.inr hb), hbh, hlive⟩

theorem modify_requested (hs : t.Sane) (ha : a ∈ t.index) (expiry : ℤ)
    (hother : ∀ x ∈ t.index, x.txhash = a.txhash → x ≠ a → ¬ x.state.Selected) :
    ∃ t', t.modify a { a with state := .requested, time := expiry } = some t' ∧ t'.Sane := by
  obtain ⟨t1, ht1, hg1, hm1⟩ := hs.good.modify ha (.request a expiry)
  refine ⟨t1, ht1, hs.of_maps hg1 hm1 (σ := fun x => if x = a then .requested else x.state)
    (fun x hx => ?_) (.of_selected (fun x hx hne => ?_) ha rfl (by simp [Selected])
      (fun x hx hxh hsel => ?_) (by simp))⟩
  · refine ⟨_, rfl, ?_⟩
    split_ifs <;> rfl
  · have hxa : x ≠ a := fun h => hne (h ▸ rfl)
    simp [hxa]
  · by_contra hxa
    exact hother x hx hxh hxa (by simpa [hxa] using hsel)

theorem modify_swap (hs : t.Sane) (ha : a ∈ t.index) (hb : b ∈ t.index) (hba : b ≠ a)
    (hbh : b.txhash = a.txhash) (hsel : b.state.Selected) {s : State} (hs' : ¬ s.Selected)
    (expiry : ℤ) :
    ∃ t1 t', t.modify b (b.setState s) = some t1 ∧
      t1.modify a { a with state := .requested, time := expiry } = some t' ∧ t'.Sane := by
  obtain ⟨t1, ht1, hg1, hm1⟩ := hs.good.modify hb (.setState b s)
  have ha1 : a ∈ t1.index := (hm1.mem a).2 ⟨a, ha, by simp [put, Ne.symm hba]⟩
  obtain ⟨t2, ht2, hg2, hm2⟩ := hg1.modify ha1 (.request a expiry)
  have hne : b.setState s ≠ a := fun h => hba (hs.good.unique b hb a ha (by simp [← h]) hbh)
  refine ⟨t1, t2, ht1, ht2, hs.of_maps hg2 (hm1.trans hm2)
    (σ := fun x => if x = a then .requested else if x = b then s else x.state) (fun x hx => ?_)
    (.of_selected (fun x hx hne => ?_) ha rfl (by simp [Selected]) (fun x hx hxh hx' => ?_)
      (by simp))⟩
  · by_cases hxa : x = a
    · exact ⟨_, by simp [put, hxa, Ne.symm hba]; rfl, by simp [hxa]⟩
    · by_cases hxb : x = b
      · exact ⟨b.setState s, by simp [put, hxb, hne], by simp [hxb, hba]⟩
      · exact ⟨x, by simp [put, hxa, hxb], by simp [hxa, hxb]⟩
  · have hxa : x ≠ a := fun h => hne (h ▸ rfl)
    have hxb : x ≠ b := fun h => hne (h ▸ hbh)
    simp [hxa, hxb]
  · by_contra hxa
    by_cases hxb : x = b
    · exact hs' (by simpa [hxb, hba] using hx')
    · exact hxb (hs.one x hx b hb (hxh.trans hbh.symm) (by simpa [hxa, hxb] using hx') hsel)

/-- What `RequestedTx` finds at the lower bound is selected, if anything of the transaction is. -/
theorem lowerBound_selected {x : Announcement} (hx : x ∈ t.index) (hxh : x.txhash = h)
    (hsel : x.state.Selected) :
    ∃ b, lowerBound (byTxHash C) (txHashKey h .candidateBest 0) t.index.snd = some b ∧
      b.txhash = h ∧ b.state.Selected := by
  have hrank := selected_iff_rank.1 hsel
  have hbest : State.candidateBest.rank = 2 := rfl
  have hkey : txHashKey h .candidateBest 0 ≤ byTxHash C x := by
    rw [byTxHash, txHashKey_le_iff, hxh]
    rcases lt_or_ge 2 x.state.rank with hlt | hge
    · exact .inr ⟨rfl, .inl hlt⟩
    · exact .inr ⟨rfl, .inr ⟨by omega, Nat.zero_le _⟩⟩
  cases hb : lowerBound (byTxHash C) (txHashKey h .candidateBest 0) t.index.snd with
  | none => exact absurd (lowerBound_eq_none hb (t.index.mem_snd.2 hx)) (not_lt.2 hkey)
  | some b =>
    obtain ⟨-, hle, hmin⟩ := lowerBound_eq_some t.index.sorted_snd hb
    have hbx := hmin x (t.index.mem_snd.2 hx) hkey
    have hle' := txhash_le hbx
    rw [byTxHash, txHashKey_le_iff] at hle
    rw [hxh] at hle'
    have hbh : b.txhash = h := BitVec.eq_of_toNat_eq (by omega)
    have hup := rank_le hbx (hxh.trans hbh.symm)
    exact ⟨b, rfl, hbh, selected_iff_rank.2 ⟨by omega, by omega⟩⟩

theorem requestedTx (hs : t.Sane) (peer : ℤ) (txhash : Uint256) (expiry : ℤ) :
    ∃ t', t.requestedTx peer txhash expiry = some t' ∧ t'.Sane := by
  unfold Tracker.requestedTx
  cases hbest : t.find (peerKey peer true txhash) with
  | some a =>
    obtain ⟨ha, hkey⟩ := find_eq_some hbest
    obtain ⟨-, hst, -⟩ := byPeer_eq_iff.1 hkey
    have hsel : a.state.Selected := .inl (by simpa using hst)
    exact hs.modify_requested ha expiry fun x hx hxh hxa hsx => hxa (hs.one x hx a ha hxh hsx hsel)
  | none =>
    cases hother : t.find (peerKey peer false txhash) with
    | none => exact ⟨t, rfl, hs⟩
    | some a =>
      obtain ⟨ha, hkey⟩ := find_eq_some hother
      obtain ⟨-, -, hah⟩ := byPeer_eq_iff.1 hkey
      dsimp only
      split_ifs with hst
      · exact ⟨t, rfl, hs⟩
      have hasel : ¬ a.state.Selected := fun hsel => hst (by rcases hsel with h | h <;> simp [h])
      -- without a selected announcement nothing else has to change
      have hplain (hno : ∀ x ∈ t.index, x.txhash = txhash → ¬ x.state.Selected) :
          ∃ t', t.modify a { a with state := .requested, time := expiry } = some t' ∧ t'.Sane :=
        hs.modify_requested ha expiry fun x hx hxh _ => hno x hx (hxh.trans hah)
      cases hold : lowerBound (byTxHash C) (txHashKey txhash .candidateBest 0) t.index.snd with
      | none =>
        refine hplain fun x hx hxh hsel => ?_
        obtain ⟨b, hb, -⟩ := lowerBound_selected hx hxh hsel
        simp [hold] at hb
      | some old =>
        have hin := t.index.mem_snd.1 (lowerBound_eq_some t.index.sorted_snd hold).1
        have hswap (hoh : old.txhash = txhash) hsel {s : State}
            (hs' : ¬ s.Selected) :=
          hs.modify_swap ha hin (fun h => hasel (h ▸ hsel)) (hoh.trans hah.symm) hsel hs' expiry
        have hnone (hno : old.txhash ≠ txhash ∨ ¬ old.state.Selected) :
            ∀ x ∈ t.index, x.txhash = txhash → ¬ x.state.Selected := by
          intro x hx hxh hsel
          obtain ⟨b, hb, hbh, hbsel⟩ := lowerBound_selected hx hxh hsel
          obtain rfl : old = b := by simpa [hold] using hb
          exact hno.elim (fun h => h hbh) fun h => h hbsel
        dsimp only
        split_ifs with hoh hob hor
        · exact hplain (hnone (.inl hoh))
        · obtain ⟨t1, t', ht1, ht', hs'⟩ := hswap (not_not.1 hoh) (.inl hob) (s := .candidateReady)
            (by decide)
          exact ⟨t', by simp [ht1, ht'], hs'⟩
        · obtain ⟨t1, t', ht1, ht', hs'⟩ := hswap (not_not.1 hoh) (.inr hor) (s := .completed)
            (by decide)
          exact ⟨t', by simp [ht1, ht'], hs'⟩
        · exact hplain (hnone (.inr fun hsel => hsel.elim hob hor))

theorem receivedResponse (hs : t.Sane) (peer : ℤ) (txhash : Uint256) :
    ∃ t', t.receivedResponse peer txhash = some t' ∧ t'.Sane := by
  unfold Tracker.receivedResponse
  cases hfind : (t.find (peerKey peer false txhash)).or (t.find (peerKey peer true txhash)) with
  | none => exact ⟨t, rfl, hs⟩
  | some a =>
    have ha : a ∈ t.index := by
      rcases or_eq_some_iff.1 hfind with h | h
      · exact (find_eq_some h).1
      · exact (find_eq_some h.2).1
    obtain ⟨t', kept, ht', hs', -⟩ := hs.makeCompleted ha
    exact ⟨t', by simp [ht'], hs'⟩

theorem forgetTxHash (hs : t.Sane) (txhash : Uint256) :
    ∃ t', t.forgetTxHash txhash = some t' ∧ t'.Sane := by
  unfold Tracker.forgetTxHash
  cases hfind : lowerBound (byTxHash C) (txHashKey txhash .candidateDelayed 0) t.index.snd with
  | none => exact ⟨t, rfl, hs⟩
  | some a =>
    dsimp only
    split_ifs with hah
    · obtain ⟨-, pre, post, hsplit, hpre⟩ := find?_eq_some_iff_append.1 hfind
      have hlen : post.length < t.index.snd.length := by
        simp only [hsplit, length_append, length_cons]
        omega
      have hfirst : ∀ b ∈ pre, b.txhash ≠ txhash := by
        intro b hb hbh
        have hkey : txHashKey txhash .candidateDelayed 0 ≤ byTxHash C b := by
          rw [byTxHash, txHashKey_le_iff, hbh]
          rcases Nat.eq_zero_or_pos b.state.rank with h0 | h0
          · exact .inr ⟨rfl, .inr ⟨h0.symm, Nat.zero_le _⟩⟩
          · exact .inr ⟨rfl, .inl h0⟩
        simpa [hkey] using hpre b hb
      obtain ⟨t', ht', hg', hm'⟩ := hs.good.eraseHash hsplit hah hfirst hlen
      exact ⟨t', ht', hs.of_drop hg' hm'⟩
    · exact ⟨t, rfl, hs⟩

/-- One turn of the loop of `DisconnectedPeer`: the announcement is gone, and the others of the
peer are as before. -/
theorem disconnect_turn (hs : t.Sane) (ha : a ∈ t.index) :
    ∃ t1 kept t', t.makeCompleted a = some (t1, kept) ∧
      (if kept then t1.erase (a.setState .completed) else some t1) = some t' ∧ t'.Sane ∧
      (∀ x ∈ t.index, x.peer = a.peer → x ≠ a → x ∈ t'.index) ∧
      t'.index.fst.countP (fun x => x.peer == a.peer) <
        t.index.fst.countP fun x => x.peer == a.peer := by
  obtain ⟨t1, kept, ht1, hs1, hframe, hcases⟩ := hs.makeCompleted ha
  -- another announcement of the peer is about another transaction
  have hstays : ∀ x ∈ t.index, x.peer = a.peer → x ≠ a → x.txhash ≠ a.txhash :=
    fun x hx hp hxa hh => hxa (hs.good.unique x hx a ha hp hh)
  rcases hcases with ⟨rfl, hmem, hr⟩ | ⟨rfl, -, hr⟩
  · obtain ⟨t', ht', hs', hmem'⟩ := hs1.erase hmem rfl
    refine ⟨t1, true, t', ht1, ht', hs', fun x hx hp hxa => ?_, ?_⟩
    · have hh := hstays x hx hp hxa
      exact (hmem' x).2 ⟨hframe x hx hh, fun h => hh (by simp [h])⟩
    · refine hs'.good.countP_lt ha (by simp) fun y hy hpy => ?_
      obtain ⟨hy1, hya⟩ := (hmem' y).1 hy
      obtain ⟨x, hx, hsame, -, -⟩ := hr.bwd y hy1
      refine ⟨x, hx, hsame.sequence.symm, fun hxa => hya ?_, by simpa [hsame.peer] using hpy⟩
      rw [hxa] at hsame
      exact hs1.good.unique y hy1 _ hmem hsame.peer hsame.txhash
  · refine ⟨t1, false, t1, ht1, by simp, hs1,
      fun x hx hp hxa => hframe x hx (hstays x hx hp hxa), ?_⟩
    refine hs1.good.countP_lt ha (by simp) fun y hy hpy => ?_
    obtain ⟨x, hx, hsame, -, hτ⟩ := hr.bwd y hy
    refine ⟨x, hx, hsame.sequence.symm, fun hxa => ?_, by simpa [hsame.peer] using hpy⟩
    simp [hxa] at hτ

theorem disconnectLoop {peer : ℤ} {n : ℕ} (hs : t.Sane) (ha : a ∈ t.index) (hp : a.peer = peer)
    (hn : t.index.fst.countP (fun x => x.peer == peer) ≤ n) :
    ∃ t', disconnectLoop peer n t a = some t' ∧ t'.Sane := by
  -- the number of announcements of the peer bounds the number of turns
  induction n generalizing t a with
  | zero =>
    have hpos : 0 < t.index.fst.countP fun x => x.peer == peer :=
      countP_pos_iff.2 ⟨a, ha, by simp [hp]⟩
    omega
  | succ n ih =>
    obtain ⟨t1, kept, t2, ht1, ht2, hs2, hframe, hcount⟩ := hs.disconnect_turn ha
    simp only [disconnectLoop, ht1, bind_eq_bind, bind_some, ht2]
    cases hnext : (next a t.index.fst).filter fun b => b.peer = peer with
    | none => exact ⟨t2, rfl, hs2⟩
    | some b =>
      obtain ⟨hnext, hbp⟩ := filter_eq_some_iff.1 hnext
      have hbp : b.peer = peer := by simpa using hbp
      obtain ⟨hb, hba, -⟩ :=
        next_mem (MultiIndex.strict_iff.1 t.index.strict).1 t.index.nodup_fst ha hnext
      have hb2 := hframe b hb (hbp.trans hp.symm) hba
      -- the iterator still points to the next announcement
      have hfind : t2.index.fst.find? (fun c => c.sequence = b.sequence) = some b := by
        cases hc : t2.index.fst.find? fun c => c.sequence = b.sequence with
        | none => simpa using find?_eq_none.1 hc b hb2
        | some c =>
          have hseq : c.sequence = b.sequence := by simpa using find?_some hc
          rw [hs2.good.sequence c (mem_of_find?_eq_some hc) b hb2 hseq]
      rw [hp] at hcount
      simp only [hfind, bind_some]
      exact ih hs2 hb2 hbp (by omega)

theorem disconnectedPeer (hs : t.Sane) (peer : ℤ) :
    ∃ t', t.disconnectedPeer peer = some t' ∧ t'.Sane := by
  unfold Tracker.disconnectedPeer
  cases hfind : lowerBound byPeer (peerKey peer false 0) t.index.fst with
  | none => exact ⟨t, rfl, hs⟩
  | some a =>
    dsimp only
    split_ifs with hp
    · exact hs.disconnectLoop (mem_of_find?_eq_some hfind) hp countP_le_length
    · exact ⟨t, rfl, hs⟩

end Tracker.Sane

/-- The calls that change the tracker. -/
inductive Call
  | receivedInv (peer : ℤ) (gtxid : GenTxid) (preferred : Bool) (reqtime : ℤ)
  | requestedTx (peer : ℤ) (txhash : Uint256) (expiry : ℤ)
  | receivedResponse (peer : ℤ) (txhash : Uint256)
  | getRequestable (peer now : ℤ)
  | forgetTxHash (txhash : Uint256)
  | disconnectedPeer (peer : ℤ)
  deriving DecidableEq, Repr

/-- The tracker after a call, unless an assertion fails or an invalid iterator is used. -/
def Tracker.exec (t : Tracker C) : Call → Option (Tracker C)
  | .receivedInv peer gtxid preferred reqtime => some (t.receivedInv peer gtxid preferred reqtime)
  | .requestedTx peer txhash expiry => t.requestedTx peer txhash expiry
  | .receivedResponse peer txhash => t.receivedResponse peer txhash
  | .getRequestable peer now => (t.getRequestable peer now).map Prod.fst
  | .forgetTxHash txhash => t.forgetTxHash txhash
  | .disconnectedPeer peer => t.disconnectedPeer peer

/-- The tracker, from its construction on. -/
def trackerLts (C : PriorityComputer) : LTS (Tracker C) Call where
  init t := t = {}
  step t c t' := t.exec c = some t'

/-- **Every call returns, and keeps the tracker sane.** -/
theorem Tracker.Sane.exec (hs : t.Sane) (c : Call) : ∃ t', t.exec c = some t' ∧ t'.Sane := by
  cases c with
  | receivedInv peer gtxid preferred reqtime => exact ⟨_, rfl, hs.receivedInv ..⟩
  | requestedTx peer txhash expiry => exact hs.requestedTx ..
  | receivedResponse peer txhash => exact hs.receivedResponse ..
  | getRequestable peer now =>
    obtain ⟨t', l, ht', hs', -⟩ := hs.setTimePoint now
    exact ⟨t', by simp [Tracker.exec, Tracker.getRequestable, ht'], hs'⟩
  | forgetTxHash txhash => exact hs.forgetTxHash ..
  | disconnectedPeer peer => exact hs.disconnectedPeer ..

theorem sane_of_reachable (h : (trackerLts C).Reachable t) : t.Sane := by
  refine h.invariant (fun t ht => ht ▸ .empty) fun t c t' hs hstep => ?_
  obtain ⟨t'', ht'', hs''⟩ := hs.exec c
  obtain rfl : t'' = t' := mem_unique ht'' hstep
  exact hs''

/-- **The tracker keeps its invariants.**  Whatever calls have been made, `SanityCheck` succeeds,
and every further call returns. -/
theorem tracker_stays_sane (h : (trackerLts C).Reachable t) :
    t.SanityCheck ∧ ∀ c, ∃ t', t.exec c = some t' ∧ t'.SanityCheck := by
  have hs := sane_of_reachable h
  refine ⟨hs.sanityCheck, fun c => ?_⟩
  obtain ⟨t', ht', hs'⟩ := hs.exec c
  exact ⟨t', ht', hs'.sanityCheck⟩

/-- Two peers announce a transaction.  It is requested from the first one, and then the clock goes
back to before the announcement of the second one. -/
def twoPeers : List Call :=
  [.receivedInv 1 ⟨true, 7⟩ true 0, .receivedInv 2 ⟨true, 7⟩ false 5, .getRequestable 1 10,
    .requestedTx 1 7 20, .getRequestable 2 3]

/-- All hashes are zero, so that only the preference counts. -/
def zeroHash : PriorityComputer := ⟨fun _ _ => 0⟩

theorem twoPeers_run : ∃ t, twoPeers.foldlM exec ({} : Tracker zeroHash) = some t ∧
    t.index.fst.map state = [.requested, .candidateDelayed] := by
  have hrun : (twoPeers.foldlM exec ({} : Tracker zeroHash)).map
      (fun t => t.index.fst.map state) = some [.requested, .candidateDelayed] := by
    decide +kernel
  exact map_eq_some_iff.1 hrun

theorem tracker_stays_sane_twoPeers : ∃ t : Tracker zeroHash,
    t.index.fst.map Announcement.state = [.requested, .candidateDelayed] ∧
      t.SanityCheck ∧ ∀ c, ∃ t', t.exec c = some t' ∧ t'.SanityCheck := by
  obtain ⟨t, hrun, hstates⟩ := twoPeers_run
  exact ⟨t, hstates, tracker_stays_sane ((LTS.Reachable.start rfl).foldlM (fun _ _ _ h => h) hrun)⟩

end KPCoin.TxRequest
