import KPCoin.TxRequest.Container

/-!
# One selected announcement for each transaction

`Sane` is the invariant behind `SanityCheck`.  The functions that move announcements between the
states look only at the neighbours in the order by transaction; the order makes these the right
ones to look at, and each function as a whole keeps a tracker sane.

Which of the candidates that may be requested is the best one is an invariant, not a choice of the
functions.  So their effect is described without it: `core` takes the best candidate as one of the
ready ones, and `Recast t t' τ` says that the announcements of `t'` are those of `t` with the
states that `τ` gives, those without a state being dropped.

* `Sane.promoteCandidateReady`, `Sane.changeAndReselect`, `Sane.makeCompleted` : the effect of the
  three functions on a sane tracker.
-/

namespace KPCoin.TxRequest

open OrderedList Function Announcement Option State

variable {C : PriorityComputer} {t t' t'' : Tracker C} {a a' b : Announcement} {h : Uint256}
  {σ : Announcement → State} {s : State} {x : Announcement}

namespace State

/-- The state of a selected announcement. -/
def Selected (s : State) : Prop := s = .candidateBest ∨ s = .requested

instance : DecidablePred Selected := fun s =>
  inferInstanceAs (Decidable (s = .candidateBest ∨ s = .requested))

/-- The best candidate is one of the ready ones. -/
def core : State → State
  | .candidateBest => .candidateReady
  | s => s

end State

theorem isSelected_iff : a.isSelected = true ↔ a.state.Selected := by
  simp [isSelected, Selected]

/-- The invariant of the tracker. -/
structure Tracker.Sane (t : Tracker C) : Prop where
  good : t.Good
  one : ∀ a ∈ t.index, ∀ b ∈ t.index, a.txhash = b.txhash → a.state.Selected → b.state.Selected →
    a = b
  ready : ∀ a ∈ t.index, a.state = .candidateReady →
    ∃ b ∈ t.index, b.txhash = a.txhash ∧ b.state.Selected
  best : ∀ a ∈ t.index, ∀ b ∈ t.index, a.txhash = b.txhash → a.state = .candidateBest →
    b.state = .candidateReady → C.priority b ≤ C.priority a
  live : ∀ a ∈ t.index, ∃ b ∈ t.index, b.txhash = a.txhash ∧ b.state ≠ .completed

/-- The announcements of `t'` are those of `t` with new states, up to which candidate is the
best. -/
structure Recast (t t' : Tracker C) (τ : Announcement → Option State) : Prop where
  fwd : ∀ x ∈ t.index, ∀ s, τ x = some s →
    ∃ y ∈ t'.index, x.Same y ∧ y.time = x.time ∧ y.state.core = s
  bwd : ∀ y ∈ t'.index, ∃ x ∈ t.index, x.Same y ∧ y.time = x.time ∧ τ x = some y.state.core

theorem Recast.congr {τ τ' : Announcement → Option State} (hr : Recast t t' τ)
    (h : ∀ x ∈ t.index, τ x = τ' x) : Recast t t' τ' where
  fwd x hx s hs := hr.fwd x hx s ((h x hx).trans hs)
  bwd y hy := by
    obtain ⟨x, hx, hsame, htime, hτ⟩ := hr.bwd y hy
    exact ⟨x, hx, hsame, htime, (h x hx).symm.trans hτ⟩

theorem Maps.recast_drop (hm : Maps t t' fun x => if x.txhash = h then none else some x) :
    Recast t t' fun x => if x.txhash = h then none else some x.state.core where
  fwd x hx s hs := by
    obtain ⟨hne, rfl⟩ : ¬ x.txhash = h ∧ x.state.core = s := by simpa using hs
    exact ⟨x, (hm.mem x).2 ⟨x, hx, by simp [hne]⟩, .refl x, rfl, rfl⟩
  bwd y hy := by
    obtain ⟨x, hx, hfx⟩ := (hm.mem y).1 hy
    obtain ⟨hne, rfl⟩ : ¬ x.txhash = h ∧ x = y := by simpa using hfx
    exact ⟨x, hx, .refl x, rfl, by simp [hne]⟩

/-- The announcements of `t'` are those of `t`, with the states `σ`. -/
structure Restates (t t' : Tracker C) (σ : Announcement → State) : Prop where
  good : t'.Good
  maps : Maps t t' fun x => some (x.setState (σ x))

namespace Restates

theorem refl (hg : t.Good) : Restates t t state :=
  ⟨hg, (Maps.refl t).congr fun _ _ => rfl⟩

section

variable (hr : Restates t t' σ)
include hr

theorem mem_iff : b ∈ t'.index ↔ ∃ x ∈ t.index, x.setState (σ x) = b := by
  rw [hr.maps.mem]
  simp

theorem mem (ha : a ∈ t.index) : a.setState (σ a) ∈ t'.index :=
  hr.mem_iff.2 ⟨a, ha, rfl⟩

theorem modify (hg : t.Good) (ha : a ∈ t.index) (s : State) :
    ∃ t'', t'.modify (a.setState (σ a)) (a.setState s) = some t'' ∧
      Restates t t'' (update σ a s) := by
  have hsame : (a.setState (σ a)).Same (a.setState s) := ⟨rfl, rfl, rfl, rfl, rfl⟩
  obtain ⟨t'', ht'', hg'', hm⟩ := hr.good.modify (hr.mem ha) hsame
  refine ⟨t'', ht'', hg'', (hr.maps.trans hm).congr fun x hx => ?_⟩
  by_cases hxa : x = a
  · simp [hxa, Tracker.put]
  · have hne : x.setState (σ x) ≠ a.setState (σ a) := fun heq => hxa (hg.setState_inj hx ha heq)
    simp [Tracker.put, hne, hxa]

theorem recast : Recast t t' fun x => some (σ x).core where
  fwd x hx s hs := ⟨_, hr.mem hx, .setState x _, rfl, some.inj hs⟩
  bwd y hy := by
    obtain ⟨x, hx, rfl⟩ := hr.mem_iff.1 hy
    exact ⟨x, hx, .setState x _, rfl, rfl⟩

end

end Restates

/-- With the states `σ` the announcements of one transaction are as they should be, and the others
are as they are. -/
structure Tracker.Fair (t : Tracker C) (h : Uint256) (σ : Announcement → State) : Prop where
  out : ∀ x ∈ t.index, x.txhash ≠ h → σ x = x.state
  one : ∀ x ∈ t.index, ∀ y ∈ t.index, x.txhash = h → y.txhash = h → (σ x).Selected →
    (σ y).Selected → x = y
  ready : ∀ x ∈ t.index, x.txhash = h → σ x = .candidateReady →
    ∃ y ∈ t.index, y.txhash = h ∧ (σ y).Selected
  best : ∀ x ∈ t.index, ∀ y ∈ t.index, x.txhash = h → y.txhash = h → σ x = .candidateBest →
    σ y = .candidateReady → C.priority y ≤ C.priority x
  live : ∀ x ∈ t.index, x.txhash = h → ∃ y ∈ t.index, y.txhash = h ∧ σ y ≠ .completed

theorem Tracker.Fair.of_selected (hout : ∀ x ∈ t.index, x.txhash ≠ h → σ x = x.state)
    (hb : b ∈ t.index) (hbh : b.txhash = h) (hsel : (σ b).Selected)
    (honly : ∀ x ∈ t.index, x.txhash = h → (σ x).Selected → x = b)
    (hbest : σ b = .candidateBest → ∀ y ∈ t.index, y.txhash = h → σ y = .candidateReady →
      C.priority y ≤ C.priority b) : t.Fair h σ where
  out := hout
  one x hx y hy hxh hyh hsx hsy := by rw [honly x hx hxh hsx, honly y hy hyh hsy]
  ready _ _ _ _ := ⟨b, hb, hbh, hsel⟩
  best x hx y hy hxh hyh hbx hry := by
    obtain rfl := honly x hx hxh (.inl hbx)
    exact hbest hbx y hy hyh hry
  live _ _ _ := ⟨b, hb, hbh, by rcases hsel with h | h <;> simp [h]⟩

namespace Tracker.Sane

/-- New states for the announcements of one transaction. -/
theorem of_maps (hs : t.Sane) (hg : t'.Good) {f : Announcement → Option Announcement}
    (hm : Maps t t' f)
    (hσ : ∀ x ∈ t.index, ∃ y, f x = some y ∧ y.state = σ x) (hf : t.Fair h σ) : t'.Sane := by
  -- an announcement of `t'` comes from one of `t`, whose new state it has
  have hback : ∀ y ∈ t'.index, ∃ x ∈ t.index, f x = some y ∧ x.Same y ∧ y.state = σ x := by
    intro y hy
    obtain ⟨x, hx, hfx⟩ := (hm.mem y).1 hy
    obtain ⟨y', hy', hst⟩ := hσ x hx
    obtain rfl : y = y' := mem_unique hfx hy'
    exact ⟨x, hx, hfx, hm.same x hx y hfx, hst⟩
  have hforth : ∀ x ∈ t.index, ∃ y ∈ t'.index, x.Same y ∧ y.state = σ x := by
    intro x hx
    obtain ⟨y, hy, hst⟩ := hσ x hx
    exact ⟨y, (hm.mem y).2 ⟨x, hx, hy⟩, hm.same x hx y hy, hst⟩
  refine ⟨hg, fun a ha b hb hh hsa hsb => ?_, fun a ha hra => ?_, fun a ha b hb hh hba hrb => ?_,
    fun a ha => ?_⟩
  · obtain ⟨x, hx, hfx, hsx, hax⟩ := hback a ha
    obtain ⟨y, hy, hfy, hsy, hby⟩ := hback b hb
    have hxy : x.txhash = y.txhash := by rw [← hsx.txhash, ← hsy.txhash, hh]
    rw [hax] at hsa
    rw [hby] at hsb
    obtain rfl : x = y := by
      by_cases hxh : x.txhash = h
      · exact hf.one x hx y hy hxh (hxy ▸ hxh) hsa hsb
      · rw [hf.out x hx hxh] at hsa
        rw [hf.out y hy (hxy ▸ hxh)] at hsb
        exact hs.one x hx y hy hxy hsa hsb
    exact mem_unique hfx hfy
  · obtain ⟨x, hx, -, hsx, hax⟩ := hback a ha
    rw [hax] at hra
    obtain ⟨y, hy, hyh, hsel⟩ : ∃ y ∈ t.index, y.txhash = x.txhash ∧ (σ y).Selected := by
      by_cases hxh : x.txhash = h
      · rw [hxh]
        exact hf.ready x hx hxh hra
      · rw [hf.out x hx hxh] at hra
        obtain ⟨y, hy, hyh, hsel⟩ := hs.ready x hx hra
        exact ⟨y, hy, hyh, by rwa [hf.out y hy (hyh ▸ hxh)]⟩
    obtain ⟨z, hz, hsz, hst⟩ := hforth y hy
    exact ⟨z, hz, by rw [hsz.txhash, hsx.txhash, hyh], hst ▸ hsel⟩
  · obtain ⟨x, hx, -, hsx, hax⟩ := hback a ha
    obtain ⟨y, hy, -, hsy, hby⟩ := hback b hb
    have hxy : x.txhash = y.txhash := by rw [← hsx.txhash, ← hsy.txhash, hh]
    rw [hax] at hba
    rw [hby] at hrb
    rw [hsx.priority, hsy.priority]
    by_cases hxh : x.txhash = h
    · exact hf.best x hx y hy hxh (hxy ▸ hxh) hba hrb
    · rw [hf.out x hx hxh] at hba
      rw [hf.out y hy (hxy ▸ hxh)] at hrb
      exact hs.best x hx y hy hxy hba hrb
  · obtain ⟨x, hx, -, hsx, hax⟩ := hback a ha
    obtain ⟨y, hy, hyh, hne⟩ : ∃ y ∈ t.index, y.txhash = x.txhash ∧ σ y ≠ .completed := by
      by_cases hxh : x.txhash = h
      · rw [hxh]
        exact hf.live x hx hxh
      · obtain ⟨y, hy, hyh, hne⟩ := hs.live x hx
        exact ⟨y, hy, hyh, by rwa [hf.out y hy (hyh ▸ hxh)]⟩
    obtain ⟨z, hz, hsz, hst⟩ := hforth y hy
    exact ⟨z, hz, by rw [hsz.txhash, hsx.txhash, hyh], hst ▸ hne⟩

theorem of_restates (hs : t.Sane) (hf : t.Fair h σ) (hr : Restates t t' σ) : t'.Sane :=
  hs.of_maps hr.good hr.maps (fun _ _ => ⟨_, rfl, rfl⟩) hf

theorem update_of_txhash_ne (hne : x.txhash ≠ a.txhash) : update σ a s x = σ x :=
  update_of_ne (ne_of_apply_ne txhash hne) ..

theorem fair_best (hs : t.Sane) (ha : a ∈ t.index)
    (hno : ∀ x ∈ t.index, x.txhash = a.txhash → ¬ x.state.Selected) :
    t.Fair a.txhash (update state a .candidateBest) := by
  refine .of_selected (fun x _ hne => update_of_txhash_ne hne) ha rfl (by simp [Selected])
    (fun z hz hzh hsel => ?_) fun _ y hy hyh hready => ?_
  · by_contra hza
    exact hno z hz hzh (by simpa [hza] using hsel)
  · have hya : y ≠ a := by
      rintro rfl
      simp at hready
    obtain ⟨z, hz, hzh, hsel⟩ := hs.ready y hy (by simpa [hya] using hready)
    exact absurd hsel (hno z hz (hzh.trans hyh))

theorem fair_ready (hs : t.Sane) (hst : ¬ a.state.Selected)
    (hsel : ∃ y ∈ t.index, y.txhash = a.txhash ∧ y.state.Selected)
    (hprio : ∀ x ∈ t.index, x.txhash = a.txhash → x.state = .candidateBest →
      C.priority a ≤ C.priority x) :
    t.Fair a.txhash (update state a .candidateReady) := by
  obtain ⟨b, hb, hbh, hsel⟩ := hsel
  have hba : b ≠ a := fun h => hst (h ▸ hsel)
  refine .of_selected (fun x _ hne => update_of_txhash_ne hne) hb hbh (by simpa [hba] using hsel)
    (fun z hz hzh hz' => ?_) fun hbest y hy hyh hready => ?_
  · have hza : z ≠ a := by
      rintro rfl
      simp [Selected] at hz'
    exact hs.one z hz b hb (hzh.trans hbh.symm) (by simpa [hza] using hz') hsel
  · have hbest : b.state = .candidateBest := by simpa [hba] using hbest
    by_cases hya : y = a
    · exact hya ▸ hprio b hb hbh hbest
    · exact hs.best b hb y hy (hbh.trans hyh.symm) hbest (by simpa [hya] using hready)

theorem fair_swap (hs : t.Sane) (ha : a ∈ t.index) (hb : b ∈ t.index) (hab : b ≠ a)
    (hbh : b.txhash = a.txhash) (hbest : b.state = .candidateBest)
    (hprio : C.priority b < C.priority a) :
    t.Fair a.txhash (update
      (update (update state a .candidateReady) b .candidateReady) a
      .candidateBest) := by
  refine .of_selected (fun x _ hne => ?_) ha rfl (by simp [Selected]) (fun z hz hzh hsel => ?_)
    fun _ y hy hyh hready => ?_
  · rw [update_of_txhash_ne hne, update_of_txhash_ne (hbh ▸ hne), update_of_txhash_ne hne]
  · by_contra hza
    by_cases hzb : z = b
    · simp [hzb, hab, Selected] at hsel
    · have hz' : z.state.Selected := by simpa [hza, hzb] using hsel
      exact hzb (hs.one z hz b hb (hzh.trans hbh.symm) hz' (.inl hbest))
  · have hya : y ≠ a := by
      rintro rfl
      simp at hready
    by_cases hyb : y = b
    · exact hyb ▸ hprio.le
    · exact (hs.best b hb y hy (hbh.trans hyh.symm) hbest (by simpa [hya, hyb] using hready)).trans
        hprio.le

theorem selected_iff_rank : s.Selected ↔ 1 < s.rank ∧ s.rank < 4 := by
  cases s <;> decide

section Promotion

variable (ha : a ∈ t.index) (hst : a.state = .candidateDelayed)
  (hr : Restates t t' (update state a .candidateReady))
include ha hst hr

/-- What is selected comes after an announcement that has just become ready, and not before the
next one. -/
theorem next_le_selected (hx : x ∈ t.index) (hxh : x.txhash = a.txhash)
    (hsel : x.state.Selected) : ∃ y, next (a.setState .candidateReady) t'.index.snd = some y ∧
      byTxHash C y ≤ byTxHash C x := by
  have hxa : x ≠ a := by
    rintro rfl
    simp [hst, Selected] at hsel
  have hin : a.setState .candidateReady ∈ t'.index := by simpa using hr.mem ha
  have hxin : x ∈ t'.index := by simpa [hxa] using hr.mem hx
  refine next_of_not_le t'.index.sorted_snd t'.index.nodup_snd (t'.index.mem_snd.2 hin)
    (t'.index.mem_snd.2 hxin) fun hle => ?_
  have h1 : x.state.rank ≤ 1 := rank_le hle hxh.symm
  have h2 := (selected_iff_rank.1 hsel).1
  omega

theorem next_mem_old (hnext : next (a.setState .candidateReady) t'.index.snd = some b) :
    b ∈ t.index ∧ b ≠ a ∧ byTxHash C (a.setState .candidateReady) ≤ byTxHash C b := by
  have hin : a.setState .candidateReady ∈ t'.index := by simpa using hr.mem ha
  obtain ⟨hb, hba, hle⟩ :=
    next_mem t'.index.sorted_snd t'.index.nodup_snd (t'.index.mem_snd.2 hin) hnext
  obtain ⟨b', hb', hbeq⟩ := hr.mem_iff.1 (t'.index.mem_snd.1 hb)
  have hne : b' ≠ a := by
    rintro rfl
    exact hba (by simpa using hbeq.symm)
  obtain rfl : b' = b := by simpa [hne] using hbeq
  exact ⟨hb', hne, hle⟩

end Promotion

/-- **Promotion.**  A delayed announcement becomes ready, or the best one. -/
theorem promoteCandidateReady (hs : t.Sane) (ha : a ∈ t.index) (hst : a.state = .candidateDelayed) :
    ∃ t', t.promoteCandidateReady a = some t' ∧ t'.Sane ∧
      Recast t t' fun x => some (if x = a then .candidateReady else x.state.core) := by
  have hdelayed : ¬ a.state.Selected := by simp [hst, Selected]
  obtain ⟨t1, ht1, hr1⟩ := (Restates.refl hs.good).modify hs.good ha .candidateReady
  rw [setState_self] at ht1
  have hbest (hno : ∀ x ∈ t.index, x.txhash = a.txhash → ¬ x.state.Selected) :
      ∃ t', t1.modify (a.setState .candidateReady) (a.setState .candidateBest) = some t' ∧
        t'.Sane ∧ Recast t t' fun x => some (if x = a then .candidateReady else x.state.core) := by
    obtain ⟨t2, ht2, hr2⟩ := hr1.modify hs.good ha .candidateBest
    rw [update_self] at ht2
    rw [update_idem] at hr2
    refine ⟨t2, ht2, hs.of_restates (hs.fair_best ha hno) hr2, hr2.recast.congr fun x hx => ?_⟩
    by_cases hxa : x = a
    · simp [hxa, core]
    · simp [hxa]
  have hready : Recast t t1 fun x => some (if x = a then .candidateReady else x.state.core) := by
    refine hr1.recast.congr fun x hx => ?_
    by_cases hxa : x = a
    · simp [hxa, core]
    · simp [hxa]
  simp only [Tracker.promoteCandidateReady, hst, ht1, pure_def, bind_eq_bind, bind_some]
  cases hnext : next (a.setState .candidateReady) t1.index.snd with
  | none =>
    refine hbest fun x hx hxh hsel => ?_
    obtain ⟨y, hy, -⟩ := next_le_selected ha hst hr1 hx hxh hsel
    simp [hnext] at hy
  | some b =>
    obtain ⟨hb, hba, hle⟩ := next_mem_old ha hst hr1 hnext
    dsimp only
    by_cases hother : b.txhash ≠ a.txhash ∨ b.state = .completed
    · rw [if_pos hother]
      refine hbest fun x hx hxh hsel => ?_
      obtain ⟨y, hy, hafter⟩ := next_le_selected ha hst hr1 hx hxh hsel
      obtain rfl : b = y := by simpa [hnext] using hy
      have hbh := txhash_between hle hafter hxh
      have hrank := rank_le hafter (hxh.trans hbh.symm)
      rw [hother.resolve_left fun h => h hbh] at hrank
      exact absurd (selected_iff_rank.1 hsel).2 (not_lt.2 hrank)
    rw [if_neg hother]
    obtain ⟨hbh, -⟩ : b.txhash = a.txhash ∧ b.state ≠ .completed := by simpa using hother
    split_ifs with hbb hprio
    · -- the next one is the best so far, and worse
      obtain ⟨t2, ht2, hr2⟩ := hr1.modify hs.good hb .candidateReady
      obtain ⟨t3, ht3, hr3⟩ := hr2.modify hs.good ha .candidateBest
      rw [update_of_ne hba, setState_self] at ht2
      rw [update_of_ne hba.symm, update_self] at ht3
      refine ⟨t3, by simp [ht2, ht3], hs.of_restates (hs.fair_swap ha hb hba hbh hbb hprio) hr3,
        hr3.recast.congr fun x hx => ?_⟩
      by_cases hxa : x = a
      · simp [hxa, core]
      · by_cases hxb : x = b
        · simp [hxb, hba, hbb, core]
        · simp [hxa, hxb]
    · refine ⟨t1, rfl, hs.of_restates (hs.fair_ready hdelayed ⟨b, hb, hbh, .inl hbb⟩
        fun x hx hxh hxb => ?_) hr1, hready⟩
      obtain rfl := hs.one x hx b hb (hxh.trans hbh.symm) (.inl hxb) (.inl hbb)
      exact not_lt.1 hprio
    · -- the next one is ready too, or requested
      have hrank : 1 ≤ b.state.rank := rank_le hle hbh
      have hcases : b.state = .candidateReady ∨ b.state = .requested := by
        cases hb' : b.state <;> simp_all [rank]
      refine ⟨t1, rfl, hs.of_restates (hs.fair_ready hdelayed ?_ fun x hx hxh hxb => ?_) hr1,
        hready⟩
      · rcases hcases with hbr | hbr
        · obtain ⟨y, hy, hyh, hsel⟩ := hs.ready b hb hbr
          exact ⟨y, hy, hyh.trans hbh, hsel⟩
        · exact ⟨b, hb, hbh, .inr hbr⟩
      · rcases hcases with hbr | hbr
        · have h1 := priority_le hle hbh rfl hbr
          exact h1.trans (hs.best x hx b hb (hxh.trans hbh.symm) hxb hbr)
        · obtain rfl := hs.one x hx b hb (hxh.trans hbh.symm) (.inl hxb) (.inr hbr)
          exact absurd hxb hbb

theorem not_selected_of_reset (h : s = .completed ∨ s = .candidateDelayed) :
    ¬ s.Selected ∧ s ≠ .candidateReady := by
  rcases h with rfl | rfl <;> decide

theorem fair_reset (hs : t.Sane) (ha : a ∈ t.index)
    (hreset : s = .completed ∨ s = .candidateDelayed)
    (hno : a.state.Selected → ∀ x ∈ t.index, x.txhash = a.txhash → x.state ≠ .candidateReady)
    (hlive : s = .completed → ∃ y ∈ t.index, y.txhash = a.txhash ∧ y ≠ a ∧ y.state ≠ .completed) :
    t.Fair a.txhash (update state a s) := by
  obtain ⟨hsel, hnotready⟩ := not_selected_of_reset hreset
  -- `a` is neither selected nor ready any more
  have hold : ∀ {z} {P : State → Prop}, ¬ P s → P (update state a s z) →
      z ≠ a ∧ P z.state := by
    intro z P hP hz
    by_cases hza : z = a
    · rw [hza, update_self] at hz
      exact absurd hz hP
    · rw [update_of_ne hza] at hz
      exact ⟨hza, hz⟩
  refine ⟨fun x _ hne => update_of_txhash_ne hne, fun x hx y hy hxh hyh hsx hsy => ?_,
    fun x hx hxh hrx => ?_, fun x hx y hy hxh hyh hbest hry => ?_, fun x hx hxh => ?_⟩
  · exact hs.one x hx y hy (hxh.trans hyh.symm) (hold hsel hsx).2 (hold hsel hsy).2
  · have hxr := (hold (P := (· = .candidateReady)) hnotready hrx).2
    obtain ⟨y, hy, hyh, hsy⟩ := hs.ready x hx hxr
    have hya : y ≠ a := fun h => hno (h ▸ hsy) x hx hxh hxr
    exact ⟨y, hy, hyh.trans hxh, by simpa [hya] using hsy⟩
  · have hxb := (hold (P := (· = .candidateBest)) (fun h => hsel (.inl h)) hbest).2
    exact hs.best x hx y hy (hxh.trans hyh.symm) hxb
      (hold (P := (· = .candidateReady)) hnotready hry).2
  · rcases hreset with rfl | rfl
    · obtain ⟨y, hy, hyh, hya, hne⟩ := hlive rfl
      exact ⟨y, hy, hyh, by simpa [hya] using hne⟩
    · exact ⟨a, ha, rfl, by simp⟩

theorem fair_reselect (hs : t.Sane) (ha : a ∈ t.index) (hb : b ∈ t.index) (hba : b ≠ a)
    (hbh : b.txhash = a.txhash) (hreset : s = .completed ∨ s = .candidateDelayed)
    (hasel : a.state.Selected)
    (htop : ∀ x ∈ t.index, x.txhash = a.txhash → x.state = .candidateReady →
      C.priority x ≤ C.priority b) :
    t.Fair a.txhash (update (update state b .candidateBest) a s) := by
  obtain ⟨hsel, hnotready⟩ := not_selected_of_reset hreset
  refine .of_selected (fun x _ hne => ?_) hb hbh (by simp [hba, Selected]) (fun z hz hzh hz' => ?_)
    fun _ y hy hyh hry => ?_
  · rw [update_of_txhash_ne hne, update_of_txhash_ne (hbh ▸ hne)]
  · by_contra hzb
    by_cases hza : z = a
    · simp [hza, hsel] at hz'
    · exact hza (hs.one z hz a ha hzh (by simpa [hza, hzb] using hz') hasel)
  · have hya : y ≠ a := by
      rintro rfl
      simp [hnotready] at hry
    have hyb : y ≠ b := by
      rintro rfl
      simp [hya] at hry
    exact htop y hy hyh (by simpa [hya, hyb] using hry)

theorem ready_below (hxh : x.txhash = a.txhash) (hready : x.state = .candidateReady)
    (hsel : a.state.Selected) : ¬ byTxHash C a ≤ byTxHash C x := by
  intro hle
  have h1 := rank_le hle hxh
  have h2 := (selected_iff_rank.1 hsel).1
  rw [hready] at h1
  have h3 : candidateReady.rank = 1 := rfl
  omega

theorem not_ready_of_prev (hs : t.Sane) (ha : a ∈ t.index) (hsel : a.state.Selected)
    (hprev : ∀ b, prev a t.index.snd = some b → b.txhash = a.txhash → b.state ≠ .candidateReady) :
    ∀ x ∈ t.index, x.txhash = a.txhash → x.state ≠ .candidateReady := by
  intro x hx hxh hready
  have hin := t.index.mem_snd.2 ha
  obtain ⟨b, hp, hxb⟩ := prev_of_not_le t.index.sorted_snd t.index.nodup_snd hin
    (t.index.mem_snd.2 hx) (ready_below hxh hready hsel)
  obtain ⟨hb, hba, hle⟩ := prev_mem t.index.sorted_snd t.index.nodup_snd hin hp
  -- then the one before has a state from ready to requested, and is not ready
  have hbh : b.txhash = a.txhash := (txhash_between hxb hle hxh.symm).trans hxh
  have h1 := rank_le hxb (hbh.trans hxh.symm)
  have h2 := (rank_le hle hbh.symm).trans_lt (selected_iff_rank.1 hsel).2
  have hbsel : b.state.Selected := by
    have hne := hprev b hp hbh
    rw [hready] at h1
    revert h1 h2 hne
    cases b.state <;> decide
  exact hba (hs.one b (t.index.mem_snd.1 hb) a ha hbh hbsel hsel)

/-- **Reselection.**  An announcement is reset; if it was selected, the best one left is. -/
theorem changeAndReselect (hs : t.Sane) (ha : a ∈ t.index)
    (hreset : s = .completed ∨ s = .candidateDelayed)
    (hlive : s = .completed → ∃ y ∈ t.index, y.txhash = a.txhash ∧ y ≠ a ∧ y.state ≠ .completed) :
    ∃ t', t.changeAndReselect a s = some t' ∧ t'.Sane ∧ a.setState s ∈ t'.index ∧
      (∀ x ∈ t.index, x.txhash ≠ a.txhash → x ∈ t'.index) ∧
      Recast t t' fun x => some (if x = a then s else x.state.core) := by
  have hcore : s.core = s := by rcases hreset with rfl | rfl <;> rfl
  have hkeep (hno : a.state.Selected →
      ∀ x ∈ t.index, x.txhash = a.txhash → x.state ≠ .candidateReady) :
      ∃ t', t.modify a (a.setState s) = some t' ∧ t'.Sane ∧ a.setState s ∈ t'.index ∧
        (∀ x ∈ t.index, x.txhash ≠ a.txhash → x ∈ t'.index) ∧
        Recast t t' fun x => some (if x = a then s else x.state.core) := by
    obtain ⟨t1, ht1, hr1⟩ := (Restates.refl hs.good).modify hs.good ha s
    refine ⟨t1, ht1,
      hs.of_restates (hs.fair_reset ha hreset hno hlive) hr1, by simpa using hr1.mem ha,
      fun x hx hne => ?_, hr1.recast.congr fun x hx => ?_⟩
    · have hxa : x ≠ a := fun h => hne (h ▸ rfl)
      simpa [hxa] using hr1.mem hx
    · by_cases hxa : x = a
      · simp [hxa, hcore]
      · simp [hxa]
  simp only [Tracker.changeAndReselect, hreset, bind_eq_bind]
  cases hp : prev a t.index.snd with
  | none => exact hkeep fun hsel => hs.not_ready_of_prev ha hsel (by simp [hp])
  | some b =>
    dsimp only
    split_ifs with hcond
    · obtain ⟨hsel, hbh, hready⟩ := hcond
      rw [isSelected_iff] at hsel
      have hin := t.index.mem_snd.2 ha
      obtain ⟨hb, hba, -⟩ := prev_mem t.index.sorted_snd t.index.nodup_snd hin hp
      have hb := t.index.mem_snd.1 hb
      obtain ⟨t1, ht1, hr1⟩ := (Restates.refl hs.good).modify hs.good hb .candidateBest
      obtain ⟨t2, ht2, hr2⟩ := hr1.modify hs.good ha s
      rw [setState_self] at ht1
      rw [update_of_ne hba.symm, setState_self] at ht2
      refine ⟨t2, by simp [ht1, ht2], hs.of_restates (hs.fair_reselect ha hb hba hbh hreset hsel
        fun x hx hxh hxr => ?_) hr2, by simpa using hr2.mem ha, fun x hx hne => ?_,
        hr2.recast.congr fun x hx => ?_⟩
      · obtain ⟨y, hy, hle⟩ := prev_of_not_le t.index.sorted_snd t.index.nodup_snd hin
          (t.index.mem_snd.2 hx) (ready_below hxh hxr hsel)
        obtain rfl : b = y := by simpa [hp] using hy
        exact priority_le hle (hbh.trans hxh.symm) hxr hready
      · have hxa : x ≠ a := fun h => hne (h ▸ rfl)
        have hxb : x ≠ b := fun h => hne (h ▸ hbh)
        simpa [hxa, hxb] using hr2.mem hx
      · by_cases hxa : x = a
        · simp [hxa, hcore]
        · by_cases hxb : x = b
          · simp [hxb, hba, hready, core]
          · simp [hxa, hxb]
    · refine hkeep fun hsel => hs.not_ready_of_prev ha hsel fun b' hb' hbh hready => hcond ?_
      obtain rfl : b = b' := by simpa [hp] using hb'
      exact ⟨isSelected_iff.2 hsel, hbh, hready⟩

/-- `IsOnlyNonCompleted` looks at the two neighbours only. -/
theorem isOnlyNonCompleted_iff (ha : a ∈ t.index) (hst : a.state ≠ .completed) :
    t.isOnlyNonCompleted a = true ↔
      ∀ x ∈ t.index, x.txhash = a.txhash → x ≠ a → x.state = .completed := by
  have hin := t.index.mem_snd.2 ha
  have hprev := fun b => prev_mem (y := b) t.index.sorted_snd t.index.nodup_snd hin
  have hnext := fun b => next_mem (y := b) t.index.sorted_snd t.index.nodup_snd hin
  have hrank : ∀ x : Announcement, x.state ≠ .completed ↔ x.state.rank < 4 := fun x => by
    cases x.state <;> decide
  simp only [Tracker.isOnlyNonCompleted, Bool.and_eq_true, Bool.not_eq_true', ← Bool.not_eq_true,
    any_eq_true, not_exists, not_and, beq_iff_eq, bne_iff_ne, Bool.and_eq_true, ne_eq,
    not_not]
  constructor
  · rintro ⟨hp, hn⟩ x hx hxh hxa
    rcases prev_or_next t.index.sorted_snd hin (t.index.mem_snd.2 hx) hxa with
      ⟨y, hy, hle⟩ | ⟨y, hy, hle⟩
    · exact absurd ((txhash_between hle (hprev y hy).2.2 hxh.symm).trans hxh) (hp y hy)
    · have hyh := txhash_between (hnext y hy).2.2 hle hxh
      by_contra hne
      have h1 := rank_le hle (hxh.trans hyh.symm)
      rw [hn y hy hyh] at h1
      exact absurd ((hrank x).1 hne) (not_lt.2 h1)
  · intro hall
    refine ⟨fun y hy hyh => ?_, fun y hy hyh => ?_⟩
    · obtain ⟨hmem, hne, hle⟩ := hprev y hy
      have h1 := rank_le hle hyh.symm
      rw [hall y (t.index.mem_snd.1 hmem) hyh hne] at h1
      exact absurd ((hrank a).1 hst) (not_lt.2 h1)
    · obtain ⟨hmem, hne, -⟩ := hnext y hy
      exact hall y (t.index.mem_snd.1 hmem) hyh hne

/-- Dropping announcements, when what is not completed of a transaction that is left stays. -/
theorem of_subset (hs : t.Sane) (hg : t'.Good) (hsub : ∀ x ∈ t'.index, x ∈ t.index)
    (hkeep : ∀ x ∈ t'.index, ∀ y ∈ t.index, y.txhash = x.txhash → y.state ≠ .completed →
      y ∈ t'.index) : t'.Sane where
  good := hg
  one a ha b hb := hs.one a (hsub a ha) b (hsub b hb)
  ready a ha hr := by
    obtain ⟨b, hb, hbh, hsel⟩ := hs.ready a (hsub a ha) hr
    exact ⟨b, hkeep a ha b hb hbh (by rcases hsel with h | h <;> simp [h]), hbh, hsel⟩
  best a ha b hb := hs.best a (hsub a ha) b (hsub b hb)
  live a ha := by
    obtain ⟨b, hb, hbh, hlive⟩ := hs.live a (hsub a ha)
    exact ⟨b, hkeep a ha b hb hbh hlive, hbh, hlive⟩

theorem of_drop (hs : t.Sane) (hg : t'.Good)
    (hm : Maps t t' fun x => if x.txhash = h then none else some x) : t'.Sane := by
  have hmem : ∀ x, x ∈ t'.index ↔ x ∈ t.index ∧ x.txhash ≠ h := by
    intro x
    rw [hm.mem]
    simp only [ite_none_left_eq_some, some.injEq]
    exact ⟨fun ⟨y, hy, hne, heq⟩ => heq ▸ ⟨hy, hne⟩, fun ⟨hx, hne⟩ => ⟨x, hx, hne, rfl⟩⟩
  exact hs.of_subset hg (fun x hx => ((hmem x).1 hx).1) fun x hx y hy hyh _ =>
    (hmem y).2 ⟨hy, hyh ▸ ((hmem x).1 hx).2⟩

/-- The announcement before the only one that is not completed is of another transaction, and so
are all before it. -/
theorem txhash_ne_of_before (ha : a ∈ t.index) (honly : t.isOnlyNonCompleted a = true) :
    ∀ b ∈ before a t.index.snd, b.txhash ≠ a.txhash := by
  intro b hb hbh
  have hin := t.index.mem_snd.2 ha
  obtain ⟨y, hy, hle⟩ := prev_of_mem_before t.index.sorted_snd hin hb
  obtain ⟨-, -, hle'⟩ := prev_mem t.index.sorted_snd t.index.nodup_snd hin hy
  have hyh : y.txhash = a.txhash := (txhash_between hle hle' hbh.symm).trans hbh
  simp [Tracker.isOnlyNonCompleted, hy, hyh] at honly

/-- **Completion.**  An announcement is completed, and kept unless it was the only one of its
transaction that was not completed. -/
theorem makeCompleted (hs : t.Sane) (ha : a ∈ t.index) :
    ∃ t' kept, t.makeCompleted a = some (t', kept) ∧ t'.Sane ∧
      (∀ x ∈ t.index, x.txhash ≠ a.txhash → x ∈ t'.index) ∧
      (kept = true ∧ a.setState .completed ∈ t'.index ∧
          Recast t t' (fun x => some (if x = a then .completed else x.state.core)) ∨
        kept = false ∧
          (∀ x ∈ t.index, x.txhash = a.txhash → x ≠ a → x.state = .completed) ∧
          Recast t t' fun x => if x.txhash = a.txhash then none else some x.state.core) := by
  unfold Tracker.makeCompleted
  split_ifs with hst honly
  · refine ⟨t, true, rfl, hs, fun x hx _ => hx, .inl ⟨rfl, by rwa [← hst], ?_⟩⟩
    refine (Restates.refl hs.good).recast.congr fun x hx => ?_
    by_cases hxa : x = a
    · simp [hxa, hst, core]
    · simp [hxa]
  · have hsplit := (split (t.index.mem_snd.2 ha)).symm
    have hlen : (after a t.index.snd).length < t.index.snd.length := by
      have := congrArg List.length hsplit
      simp only [List.length_append, List.length_cons] at this
      omega
    obtain ⟨t1, ht1, hg1, hm1⟩ := hs.good.eraseHash hsplit rfl (txhash_ne_of_before ha honly) hlen
    refine ⟨t1, false, by simp [ht1], hs.of_drop hg1 hm1, fun x hx hne => ?_,
      .inr ⟨rfl, (isOnlyNonCompleted_iff ha hst).1 honly, hm1.recast_drop⟩⟩
    exact (hm1.mem x).2 ⟨x, hx, by simp [hne]⟩
  · have hother : ∃ y ∈ t.index, y.txhash = a.txhash ∧ y ≠ a ∧ y.state ≠ .completed := by
      by_contra hno
      refine honly ((isOnlyNonCompleted_iff ha hst).2 fun x hx hxh hxa => ?_)
      by_contra hne
      exact hno ⟨x, hx, hxh, hxa, hne⟩
    obtain ⟨t1, ht1, hs1, hmem, hframe, hr1⟩ := hs.changeAndReselect ha (.inl rfl) fun _ => hother
    exact ⟨t1, true, by simp [ht1], hs1, hframe, .inl ⟨rfl, hmem, hr1⟩⟩

theorem erase (hs : t.Sane) (ha : a ∈ t.index) (hst : a.state = .completed) :
    ∃ t', t.erase a = some t' ∧ t'.Sane ∧ ∀ x, x ∈ t'.index ↔ x ∈ t.index ∧ x ≠ a := by
  obtain ⟨t1, ht1, hg1, -, hi⟩ := hs.good.erase ha
  have hmem : ∀ x, x ∈ t1.index ↔ x ∈ t.index ∧ x ≠ a := fun x => by
    rw [hi, MultiIndex.mem_erase, and_comm]
  refine ⟨t1, ht1, hs.of_subset hg1 (fun x hx => ((hmem x).1 hx).1) fun _ _ y hy _ hne => ?_, hmem⟩
  exact (hmem y).2 ⟨hy, fun h => hne (h ▸ hst)⟩

end Tracker.Sane

end KPCoin.TxRequest
