import KPCoin.TxRequest.Selection

/-!
# Moving to a point in time

`SetTimePoint` runs two loops over an index that it changes as it goes: an expired request can make
another announcement the best one, or take the whole transaction with it.  Where the loops lead is
known from the start.  The time of an announcement alone decides its state (`stateAt`), and a
transaction is forgotten if this leaves only completed announcements (`settled`).  No step of
either loop changes where the tracker is led (`Leads`), and when both have ended it is there.

* `Sane.setTimePoint` : the effect of `SetTimePoint`, and the requests it reports as expired.
-/

namespace KPCoin.TxRequest

open OrderedList Tracker List Announcement

variable {C : PriorityComputer} {t t' t₁ : Tracker C} {a b : Announcement} {h : Uint256} {now : ℤ}
  {τ : Announcement → Option State}

/-- The state of an announcement whose time has come, or has not. -/
def State.settle (past : Bool) : State → State
  | .completed => .completed
  | .requested => if past then .completed else .requested
  | _ => if past then .candidateReady else .candidateDelayed

theorem State.core_core (s : State) : s.core.core = s.core := by
  cases s <;> rfl

theorem State.settle_core (past : Bool) (s : State) : s.core.settle past = s.settle past := by
  cases s <;> rfl

/-- The state of an announcement at a point in time. -/
def Announcement.stateAt (now : ℤ) (a : Announcement) : State :=
  a.state.settle (decide (a.time ≤ now))

namespace Tracker

/-- No announcement of the transaction is of use any more. -/
def Spent (t : Tracker C) (now : ℤ) (h : Uint256) : Prop :=
  ∀ x ∈ t.index, x.txhash = h → x.stateAt now = .completed

open Classical in
/-- The state of each announcement at a point in time, with those of spent transactions dropped. -/
noncomputable def settled (t : Tracker C) (now : ℤ) (x : Announcement) : Option State :=
  if t.Spent now x.txhash then none else some (x.stateAt now)

theorem settled_eq_some {s : State} :
    t.settled now a = some s ↔ ¬ t.Spent now a.txhash ∧ a.stateAt now = s := by
  simp [settled]

/-- Where `t₁` is led to, there `t` is led to. -/
def Leads (now : ℤ) (t t₁ : Tracker C) : Prop :=
  ∀ t', Recast t₁ t' (t₁.settled now) → Recast t t' (t.settled now)

end Tracker

theorem Tracker.Leads.trans {t2 : Tracker C} (h : Leads now t t₁) (h' : Leads now t₁ t2) :
    Leads now t t2 := fun t' ht' => h t' (h' t' ht')

/-- A tracker in which all announcements have the state they should have is where it is led to. -/
theorem Tracker.Sane.recast_settled (hs : t.Sane)
    (hat : ∀ x ∈ t.index, x.stateAt now = x.state.core) : Recast t t (t.settled now) := by
  refine (Restates.refl hs.good).recast.congr fun x hx => ?_
  refine (settled_eq_some.2 ⟨fun hspent => ?_, hat x hx⟩).symm
  obtain ⟨b, hb, hbh, hlive⟩ := hs.live x hx
  have hcore : b.state.core = .completed := (hat b hb).symm.trans (hspent b hb hbh)
  revert hlive hcore
  cases b.state <;> decide

/-- A change that leaves the state at `now` as it is, and drops spent transactions only. -/
theorem Recast.leads (hr : Recast t t₁ τ)
    (hkeep : ∀ x ∈ t.index, ∀ s, τ x = some s → s.settle (decide (x.time ≤ now)) = x.stateAt now)
    (hdrop : ∀ x ∈ t.index, τ x = none → t.Spent now x.txhash) : Leads now t t₁ := by
  have hat : ∀ x ∈ t.index, ∀ y : Announcement, y.time = x.time → τ x = some y.state.core →
      y.stateAt now = x.stateAt now := by
    intro x hx y htime hτ
    rw [← hkeep x hx _ hτ, State.settle_core, stateAt, htime]
  have hspent : ∀ h, t₁.Spent now h ↔ t.Spent now h := by
    intro h
    constructor
    · intro hsp x hx hxh
      cases hτ : τ x with
      | none => exact hdrop x hx hτ x hx rfl
      | some s =>
        obtain ⟨y, hy, hsame, htime, rfl⟩ := hr.fwd x hx s hτ
        exact hat x hx y htime hτ ▸ hsp y hy (hsame.txhash.trans hxh)
    · intro hsp y hy hyh
      obtain ⟨x, hx, hsame, htime, hτ⟩ := hr.bwd y hy
      exact (hat x hx y htime hτ).trans (hsp x hx (hsame.txhash ▸ hyh))
  intro t' hr'
  refine ⟨fun x hx s hs => ?_, fun z hz => ?_⟩
  · obtain ⟨hns, rfl⟩ := settled_eq_some.1 hs
    obtain ⟨s, hτ⟩ := Option.ne_none_iff_exists'.1 fun hτ => hns (hdrop x hx hτ)
    obtain ⟨y, hy, hsame, htime, rfl⟩ := hr.fwd x hx s hτ
    obtain ⟨z, hz, hsame', htime', hst⟩ := hr'.fwd y hy _ (settled_eq_some.2
      ⟨by rwa [hspent, hsame.txhash], hat x hx y htime hτ⟩)
    exact ⟨z, hz, hsame.trans hsame', htime'.trans htime, hst⟩
  · obtain ⟨y, hy, hsame', htime', hst⟩ := hr'.bwd z hz
    obtain ⟨x, hx, hsame, htime, hτ⟩ := hr.bwd y hy
    obtain ⟨hns, hst⟩ := settled_eq_some.1 hst
    refine ⟨x, hx, hsame.trans hsame', htime'.trans htime, settled_eq_some.2 ⟨?_, ?_⟩⟩
    · rwa [← hspent, ← hsame.txhash]
    · rw [← hst, hat x hx y htime hτ]

theorem core_eq_requested {s : State} : s.core = .requested ↔ s = .requested := by
  cases s <;> decide

theorem Recast.requested_iff (hr : Recast t t₁ τ)
    (hτ : ∀ x ∈ t.index, τ x = some .requested → x.state = .requested) :
    a ∈ t₁.index ∧ a.state = .requested ↔ a ∈ t.index ∧ τ a = some .requested := by
  constructor
  · rintro ⟨ha, hst⟩
    obtain ⟨x, hx, hsame, htime, hx'⟩ := hr.bwd a ha
    rw [hst] at hx'
    have heq := hsame.setState_eq htime
    rw [hst, ← hτ x hx hx'] at heq
    exact heq ▸ ⟨hx, hx'⟩
  · rintro ⟨ha, hst⟩
    obtain ⟨y, hy, hsame, htime, hy'⟩ := hr.fwd a ha _ hst
    have hreq := core_eq_requested.1 hy'
    have heq := hsame.setState_eq htime
    rw [hreq, ← hτ a ha hst, setState_self] at heq
    exact heq ▸ ⟨hy, hreq⟩

theorem byTime_le_iff : byTime a ≤ byTime b ↔
    waitState a < waitState b ∨ waitState a = waitState b ∧ a.time ≤ b.time := by
  simp [byTime, Prod.Lex.toLex_le_toLex]

theorem isWaiting_congr (h : a.state.core = b.state.core) : a.isWaiting = b.isWaiting := by
  unfold isWaiting
  revert h
  cases a.state <;> cases b.state <;> decide

theorem isSelectable_congr (h : a.state.core = b.state.core) : a.isSelectable = b.isSelectable := by
  unfold isSelectable
  revert h
  cases a.state <;> cases b.state <;> decide

theorem waitState_eq_zero : waitState a = 0 ↔ a.isWaiting = true := by
  cases hst : a.state <;> simp [waitState, isSelectable, hst]

theorem waitState_eq_two : waitState a = 2 ↔ a.isSelectable = true := by
  cases hst : a.state <;> simp [waitState, isWaiting, isSelectable, hst]

theorem head_of_waiting (hhead : t.index.trd.head? = some a) (hb : b ∈ t.index)
    (hw : b.isWaiting = true) : a.isWaiting = true ∧ a.time ≤ b.time := by
  have hle := byTime_le_iff.1 (head?_le t.index.sorted_trd hhead (t.index.mem_trd.2 hb))
  rw [waitState_eq_zero.2 hw] at hle
  exact ⟨waitState_eq_zero.1 (by omega), by omega⟩

theorem getLast_of_selectable (hlast : t.index.trd.getLast? = some a) (hb : b ∈ t.index)
    (hsel : b.isSelectable = true) : a.isSelectable = true ∧ b.time ≤ a.time := by
  have hle := byTime_le_iff.1 (le_getLast? t.index.sorted_trd hlast (t.index.mem_trd.2 hb))
  have hmax : waitState a ≤ 2 := by
    unfold waitState
    split_ifs <;> omega
  rw [waitState_eq_two.2 hsel] at hle
  exact ⟨waitState_eq_two.1 (by omega), by omega⟩

section OneState

variable {s : State} (hr : Recast t t₁ fun x => some (if x = a then s else x.state.core))
include hr

theorem Recast.leads_one (hsettle : s.settle (decide (a.time ≤ now)) = a.stateAt now) :
    Leads now t t₁ := by
  refine hr.leads (fun x hx s' hτ => ?_) (by simp)
  cases hτ
  by_cases hxa : x = a
  · rw [if_pos hxa, hxa, hsettle]
  · rw [if_neg hxa, State.settle_core, stateAt]

theorem Recast.countP_lt_one (hg1 : t₁.Good) {p : Announcement → Bool}
    (hcongr : ∀ x y : Announcement, x.state.core = y.state.core → p x = p y) (ha : a ∈ t.index)
    (hpa : p a = true) (hps : p (a.setState s) = false) :
    t₁.index.fst.countP p < t.index.fst.countP p := by
  refine hg1.countP_lt ha hpa fun y hy hpy => ?_
  obtain ⟨x, hx, hsame, -, hτ⟩ := hr.bwd y hy
  have hτ := Option.some.inj hτ
  by_cases hxa : x = a
  · rw [if_pos hxa] at hτ
    rw [hcongr y (a.setState s) (by simp [hτ, State.core_core]), hps] at hpy
    simp at hpy
  · rw [if_neg hxa] at hτ
    exact ⟨x, hx, hsame.sequence.symm, hxa, hcongr x y hτ ▸ hpy⟩

theorem Recast.requested_one (hne : s ≠ .requested) {x : Announcement} :
    x ∈ t₁.index ∧ x.state = .requested ↔ x ∈ t.index ∧ x.state = .requested ∧ x ≠ a := by
  rw [hr.requested_iff]
  · by_cases hxa : x = a
    · simp [hxa, hne]
    · simp [hxa, core_eq_requested]
  · intro x hx hτ
    by_cases hxa : x = a
    · simp [hxa, hne] at hτ
    · simpa [hxa, core_eq_requested] using hτ

end OneState

namespace Tracker.Sane

variable (hs : t.Sane)
include hs

theorem mature (ha : a ∈ t.index) (hst : a.state = .candidateDelayed) :
    ∃ t₁, t.promoteCandidateReady a = some t₁ ∧ t₁.Sane ∧ Leads now t t₁ ∧
      t₁.index.fst.countP isWaiting < t.index.fst.countP isWaiting ∧
      ∀ x, x ∈ t₁.index ∧ x.state = .requested ↔ x ∈ t.index ∧ x.state = .requested := by
  obtain ⟨t₁, ht1, hs1, hr⟩ := hs.promoteCandidateReady ha hst
  refine ⟨t₁, ht1, hs1, hr.leads_one ?_, hr.countP_lt_one hs1.good (fun _ _ => isWaiting_congr) ha
    ?_ rfl, fun x => (hr.requested_one (by decide)).trans ?_⟩
  · simp [stateAt, hst, State.settle]
  · simp [isWaiting, hst]
  · refine and_congr_right fun _ => and_iff_left_of_imp fun hreq hxa => ?_
    rw [hxa, hst] at hreq
    cases hreq

/-- A request whose time has come is completed, and forgotten if the transaction is spent. -/
theorem expire (ha : a ∈ t.index) (hst : a.state = .requested) (htime : a.time ≤ now) :
    ∃ t₁ kept, t.makeCompleted a = some (t₁, kept) ∧ t₁.Sane ∧ Leads now t t₁ ∧
      t₁.index.fst.countP isWaiting < t.index.fst.countP isWaiting ∧
      ∀ x, x ∈ t₁.index ∧ x.state = .requested ↔ x ∈ t.index ∧ x.state = .requested ∧ x ≠ a := by
  have hwaiting : a.isWaiting = true := by simp [isWaiting, hst]
  have hat : a.stateAt now = .completed := by simp [stateAt, hst, htime, State.settle]
  obtain ⟨t₁, kept, ht1, hs1, -, ⟨-, -, hr⟩ | ⟨-, honly, hr⟩⟩ := hs.makeCompleted ha
  · exact ⟨t₁, kept, ht1, hs1, hr.leads_one hat.symm, hr.countP_lt_one hs1.good
      (fun _ _ => isWaiting_congr) ha hwaiting rfl, fun x => hr.requested_one (by decide)⟩
  · have hspent : t.Spent now a.txhash := by
      intro x hx hxh
      by_cases hxa : x = a
      · rw [hxa, hat]
      · simp [stateAt, honly x hx hxh hxa, State.settle]
    have hsome : ∀ (x : Announcement) s, (if x.txhash = a.txhash then none else some x.state.core) =
        some s → x.txhash ≠ a.txhash ∧ x.state.core = s := by simp
    refine ⟨t₁, kept, ht1, hs1, hr.leads (fun x hx s hτ => ?_) (fun x hx hτ => ?_), ?_, fun x => ?_⟩
    · obtain ⟨-, rfl⟩ := hsome x s hτ
      rw [State.settle_core, stateAt]
    · have hxh : x.txhash = a.txhash := by simpa using hτ
      rwa [hxh]
    · refine hs1.good.countP_lt ha hwaiting fun y hy hwy => ?_
      obtain ⟨x, hx, hsame, -, hτ⟩ := hr.bwd y hy
      obtain ⟨hne, hτ⟩ := hsome x _ hτ
      exact ⟨x, hx, hsame.sequence.symm, fun h => hne (h ▸ rfl), isWaiting_congr hτ ▸ hwy⟩
    · rw [hr.requested_iff fun x hx hτ => core_eq_requested.1 (hsome x _ hτ).2]
      by_cases hxh : x.txhash = a.txhash
      · refine ⟨fun h => by simp [hxh] at h, fun ⟨hx, hxr, hxa⟩ => ?_⟩
        simp [honly x hx hxh hxa] at hxr
      · have hxa : x ≠ a := fun h => hxh (h ▸ rfl)
        simp [hxh, hxa, core_eq_requested]

/-- **The first loop.**  It ends with no announcement whose time has come, and has reported the
requests among them. -/
theorem promoteLoop (now : ℤ) {n : ℕ} (hn : t.index.fst.countP isWaiting < n)
    (expired : List (ℤ × GenTxid)) :
    ∃ (t' : Tracker C) (l : List Announcement), Tracker.promoteLoop now n t expired =
        some (t', expired ++ l.map fun x => (x.peer, x.toGenTxid)) ∧
      t'.Sane ∧ Leads now t t' ∧ (∀ x ∈ t'.index, x.isWaiting = true → now < x.time) ∧
      l.Nodup ∧ ∀ x, x ∈ l ↔ x ∈ t.index ∧ x.state = .requested ∧ x.time ≤ now := by
  -- the number of announcements that wait bounds the number of steps
  induction n generalizing t expired with
  | zero => omega
  | succ n ih =>
    unfold Tracker.promoteLoop
    cases hhead : t.index.trd.head? with
    | none =>
      have hempty : ∀ x, ¬ x ∈ t.index := fun x hx => by
        rw [← t.index.mem_trd, head?_eq_none_iff.1 hhead] at hx
        simp at hx
      exact ⟨t, [], by simp, hs, fun _ h => h, fun x hx => absurd hx (hempty x), nodup_nil,
        fun x => ⟨by simp, fun h => absurd h.1 (hempty x)⟩⟩
    | some a =>
      have ha := t.index.mem_trd.1 (mem_of_head? hhead)
      dsimp only
      split_ifs with hdelayed hrequested
      · obtain ⟨t₁, ht1, hs1, hl1, hcount, hreq⟩ := hs.mature ha hdelayed.1
        obtain ⟨t', l, ht', hs', hl', hw, hnodup, hmem⟩ := ih hs1 (by omega) expired
        refine ⟨t', l, by simp [ht1, ht'], hs', hl1.trans hl', hw, hnodup, fun x => ?_⟩
        rw [hmem, ← and_assoc, hreq, and_assoc]
      · obtain ⟨t₁, kept, ht1, hs1, hl1, hcount, hreq⟩ := hs.expire ha hrequested.1 hrequested.2
        obtain ⟨t', l, ht', hs', hl', hw, hnodup, hmem⟩ :=
          ih hs1 (by omega) (expired ++ [(a.peer, a.toGenTxid)])
        have hal : ∀ x, x ∈ l ↔ (x ∈ t.index ∧ x.state = .requested ∧ x ≠ a) ∧ x.time ≤ now :=
          fun x => by rw [hmem, ← and_assoc, hreq]
        refine ⟨t', a :: l, by simp [ht1, ht'], hs', hl1.trans hl', hw,
          nodup_cons.2 ⟨fun h => ((hal a).1 h).1.2.2 rfl, hnodup⟩, fun x => ?_⟩
        rw [mem_cons, hal]
        constructor
        · rintro (rfl | h)
          · exact ⟨ha, hrequested⟩
          · exact ⟨h.1.1, h.1.2.1, h.2⟩
        · rintro ⟨hx, hst, htime⟩
          exact or_iff_not_imp_left.2 fun hxa => ⟨⟨hx, hst, hxa⟩, htime⟩
      · -- the first one by time stays where it is, and the others wait for longer
        have hw : ∀ x ∈ t.index, x.isWaiting = true → now < x.time := by
          intro x hx hwx
          obtain ⟨hwa, hle⟩ := head_of_waiting hhead hx hwx
          have hwa : a.state = .requested ∨ a.state = .candidateDelayed := by
            simpa [isWaiting] using hwa
          by_contra hnot
          rcases hwa with h | h
          · exact hrequested ⟨h, by omega⟩
          · exact hdelayed ⟨h, by omega⟩
        refine ⟨t, [], by simp, hs, fun _ h => h, hw, nodup_nil, fun x => ?_⟩
        refine ⟨by simp, fun ⟨hx, hst, htime⟩ => ?_⟩
        have := hw x hx (by simp [isWaiting, hst])
        omega

theorem delay (ha : a ∈ t.index) (hsel : a.isSelectable = true) (htime : now < a.time) :
    ∃ t₁, t.changeAndReselect a .candidateDelayed = some t₁ ∧ t₁.Sane ∧ Leads now t t₁ ∧
      t₁.index.fst.countP isSelectable < t.index.fst.countP isSelectable ∧
      ((∀ x ∈ t.index, x.isWaiting = true → now < x.time) →
        ∀ x ∈ t₁.index, x.isWaiting = true → now < x.time) := by
  obtain ⟨t₁, ht1, hs1, -, -, hr⟩ := hs.changeAndReselect ha (.inr rfl) (by simp)
  refine ⟨t₁, ht1, hs1, hr.leads_one ?_, hr.countP_lt_one hs1.good
    (fun _ _ => isSelectable_congr) ha hsel rfl, fun hw y hy hwy => ?_⟩
  · have hst : a.state = .candidateReady ∨ a.state = .candidateBest := by
      simpa [isSelectable] using hsel
    rcases hst with h | h <;> simp [stateAt, h, State.settle]
  · obtain ⟨x, hx, -, htime', hτ⟩ := hr.bwd y hy
    have hτ := Option.some.inj hτ
    rw [htime']
    by_cases hxa : x = a
    · rwa [hxa]
    · rw [if_neg hxa] at hτ
      exact hw x hx (isWaiting_congr hτ ▸ hwy)

/-- **The second loop.**  It ends with no candidate whose time has not come. -/
theorem demoteLoop {n : ℕ} (hn : t.index.fst.countP isSelectable < n)
    (hw : ∀ x ∈ t.index, x.isWaiting = true → now < x.time) :
    ∃ t', Tracker.demoteLoop now n t = some t' ∧ t'.Sane ∧ Leads now t t' ∧
      (∀ x ∈ t'.index, x.isWaiting = true → now < x.time) ∧
      ∀ x ∈ t'.index, x.isSelectable = true → x.time ≤ now := by
  induction n generalizing t with
  | zero => omega
  | succ n ih =>
    unfold Tracker.demoteLoop
    cases hlast : t.index.trd.getLast? with
    | none =>
      refine ⟨t, rfl, hs, fun _ h => h, hw, fun x hx => ?_⟩
      rw [← t.index.mem_trd, getLast?_eq_none_iff.1 hlast] at hx
      simp at hx
    | some a =>
      have ha := t.index.mem_trd.1 (mem_of_getLast? hlast)
      dsimp only
      split_ifs with hlate
      · obtain ⟨t₁, ht1, hs1, hl1, hcount, hw1⟩ := hs.delay ha hlate.1 hlate.2
        obtain ⟨t', ht', hs', hl', hw', hsel⟩ := ih hs1 (by omega) (hw1 hw)
        exact ⟨t', by simp [ht1, ht'], hs', hl1.trans hl', hw', hsel⟩
      · refine ⟨t, rfl, hs, fun _ h => h, hw, fun x hx hxs => ?_⟩
        obtain ⟨hsa, hle⟩ := getLast_of_selectable hlast hx hxs
        have := not_lt.1 fun h => hlate ⟨hsa, h⟩
        omega

theorem setTimePoint (now : ℤ) :
    ∃ (t' : Tracker C) (l : List Announcement),
      t.setTimePoint now = some (t', l.map fun x => (x.peer, x.toGenTxid)) ∧ t'.Sane ∧
      Recast t t' (t.settled now) ∧ t'.PostGetRequestableSanityCheck now ∧ l.Nodup ∧
      ∀ x, x ∈ l ↔ x ∈ t.index ∧ x.state = .requested ∧ x.time ≤ now := by
  have hfuel (u : Tracker C) p :
      u.index.fst.countP p < u.index.trd.length + 1 := by
    rw [u.index.perm_trd.length_eq]
    exact Nat.lt_succ_of_le countP_le_length
  obtain ⟨t₁, l, ht1, hs1, hl1, hw1, hnodup, hmem⟩ := hs.promoteLoop now (hfuel t _) []
  obtain ⟨t', ht', hs', hl', hw, hsel⟩ := hs1.demoteLoop (hfuel t₁ _) hw1
  have hpost : ∀ x ∈ t'.index, x.stateAt now = x.state.core := by
    intro x hx
    have h1 := hw x hx
    have h2 := hsel x hx
    simp only [isWaiting, isSelectable] at h1 h2
    unfold stateAt
    cases hst : x.state <;> simp_all [State.settle, State.core]
  refine ⟨t', l, by simp [Tracker.setTimePoint, ht1, ht'], hs',
    hl1 t' (hl' t' (hs'.recast_settled hpost)), fun x hx => ?_, hnodup, hmem⟩
  split_ifs with h1 h2
  · exact hw x hx h1
  · exact hsel x hx h2

end Tracker.Sane

end KPCoin.TxRequest
