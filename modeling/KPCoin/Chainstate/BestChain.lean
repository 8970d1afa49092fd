import KPCoin.Chainstate.Activate

/-!
# `ActivateBestChain` reaches the best valid chain

The loops of `ActivateBestChain`, from a batch of blocks up to the outer loop.  Each pass keeps a
`Baseline`, and gets nearer to the target or flags a block; so the loops end (`measure`).

* `activateBestChain_spec` : the final tip is the greatest candidate;
* `activateBestChain_best` : no block that could be the tip sorts above it.
-/

namespace KPCoin.Chainstate

open List Option Forest

variable {B : Type} [DecidableEq B] {A : Blocks B} {s s' s'' : State B} {a b c m p t x M : B}

namespace State

variable {must : B → Prop} {K : Prop} (old : Option B)

/-! ### Connecting blocks -/

/-- How a pass over some blocks on the way to `M` ends, where `goal` is what is known of the tip
if no invalid block has been found. -/
inductive Progressed (A : Blocks B) (must : B → Prop) (K : Prop) (M : B) (goal : B → Prop)
    (s s' : State B) : Bool → Prop
  | towards {y : B} (progress : InProgress A must K s') (target : Target A K M s')
      (tip : s'.tip = some y)
    (mem : y ∈ A.path M) (reached : goal y) : Progressed A must K M goal s s' false
  | invalid {b : B} (progress : InProgress A must K s') (mem : b ∈ s.index)
    (before : (s.entry b).failed = false) (after : (s'.entry b).failed = true) :
    Progressed A must K M goal s s' true

section

omit [DecidableEq B]

theorem Progressed.of_activates {goal : B → Prop} {r : Bool} (h : Activates A s s')
    (hp : Progressed A must K M goal s' s'' r) : Progressed A must K M goal s s'' r := by
  cases hp with
  | towards progress target tip mem reached => exact .towards progress target tip mem reached
  | invalid progress mem before after =>
    exact .invalid progress (h.same.index ▸ mem) (h.failed_eq_false before) after

theorem Progressed.mono {goal goal' : B → Prop} {r : Bool} (hp : Progressed A must K M goal s s' r)
    (h : ∀ y, goal y → goal' y) : Progressed A must K M goal' s s' r := by
  cases hp with
  | towards progress target tip mem reached => exact .towards progress target tip mem (h _ reached)
  | invalid progress mem before after => exact .invalid progress mem before after

end

/-- The block has more work than the tip from before the step. -/
def Ahead (A : Blocks B) (old : Option B) (y : B) : Prop :=
  old.all (fun o => decide (A.nChainWork o < A.nChainWork y)) = true

/-- A batch is connected to its end, to a block with more work than the old tip, or to an invalid
block; unless no candidate is left. -/
theorem connectBatch_spec {l : List B} (h : InProgress A must K s) (hM : Target A K M s)
    (ht : s.tip = some x) (hx : x ∈ A.path M) (hl : A.Climbs x l) (hlM : ∀ b ∈ l, b ∈ A.path M)
    (front : B) :
    (¬ K ∧ connectBatch A old front l s = none) ∨
    ∃ r, connectBatch A old front l s = some r ∧ Activates A s r.state ∧
      Progressed A must K M (fun y => if r.fContinue then y = l.getLastD x else Ahead A old y) s
        r.state r.fInvalidFound ∧ (r.fContinue = true → r.fInvalidFound = false) := by
  induction l generalizing s x with
  | nil => exact .inr ⟨_, rfl, .refl s, .towards h hM ht hx rfl, fun _ => rfl⟩
  | cons b l ih =>
    obtain ⟨hp, hl⟩ := hl
    have hb := hlM b (mem_cons_self ..)
    have hbusable := hM.usable.mono hb
    have hcoins := (h.sound.at_tip ht).1
    unfold connectBatch
    by_cases hok : A.connectBlock b = true
    · obtain ⟨s1, hconnect, hprune⟩ := connectTip_ok hp ht hcoins hok
      have hact := activates_connected hbusable
      obtain ⟨hM', hprogress⟩ := h.connect hM ht hp hb hok
      rw [hconnect, bind_eq_bind, bind_some]
      dsimp only
      rw [if_pos rfl, hprune]
      by_cases hnil : (s.connected A b).setBlockIndexCandidates = []
      · rw [if_pos hnil]
        exact .inl ⟨fun hK => ne_nil_of_mem (hM'.mem hK) hnil, rfl⟩
      split_ifs with hwork
      · exact .inr ⟨_, rfl, hact, .towards hprogress hM' rfl hb hwork, Bool.noConfusion⟩
      · rcases ih hprogress hM' rfl hb hl fun c hc => hlM c (mem_cons_of_mem b hc) with
          hnone | ⟨r, hr, hact', hprog, hcont⟩
        · exact .inl hnone
        · refine .inr ⟨r, hr, hact.trans hact', (hprog.of_activates hact).mono
            fun y hy => ?_, hcont⟩
          rwa [getLastD_cons]
    · have hbad := Bool.eq_false_of_not_eq_true hok
      have hconnect : s.connectTip A b = some (s.invalidBlockFound A b, false) := by
        simp [connectTip, hp, ht, hcoins, hbad]
      obtain ⟨hprogress, hact, hfailed⟩ := h.refuse ht hp hbusable hbad front
      rw [hconnect]
      exact .inr ⟨_, rfl, hact, .invalid hprogress
        (h.sound.linked_mem (hbusable b self_mem_path).1)
        (hbusable b self_mem_path).2 hfailed, Bool.noConfusion⟩

/-- The blocks up to the target are connected, up to the first with more work than the old tip. -/
theorem connectBlocks_spec {fuel : ℕ} {l : List B} (h : InProgress A must K s) (hM : Target A K M s)
    (ht : s.tip = some x) (hx : x ∈ A.path M) (hl : A.Climbs x l) (hlM : ∀ b ∈ l, b ∈ A.path M)
    (hfuel : l.length ≤ fuel) :
    (¬ K ∧ connectBlocks A old fuel l s = none) ∨
    ∃ s' r, connectBlocks A old fuel l s = some (s', r) ∧ Activates A s s' ∧
      Progressed A must K M (fun y => y = l.getLastD x ∨ Ahead A old y) s s' r := by
  induction fuel generalizing s x l with
  | zero =>
    obtain rfl := length_eq_zero_iff.1 (Nat.le_zero.1 hfuel)
    exact .inr ⟨s, false, rfl, .refl s, .towards h hM ht hx (.inl rfl)⟩
  | succ fuel ih =>
    cases l with
    | nil => exact .inr ⟨s, false, rfl, .refl s, .towards h hM ht hx (.inl rfl)⟩
    | cons b l =>
      have hsplit := take_append_drop 32 (b :: l)
      rw [← hsplit, climbs_append] at hl
      unfold connectBlocks
      dsimp only
      rcases connectBatch_spec old h hM ht hx hl.1
        (fun c hc => hlM c (mem_of_mem_take hc)) (((b :: l).take 32).getLast?.getD b) with
        ⟨hK, hr⟩ | ⟨r, hr, hact, hprog, hcont⟩
      · rw [hr]
        exact .inl ⟨hK, rfl⟩
      rw [hr, bind_eq_bind, bind_some]
      by_cases hc : r.fContinue = true
      · rw [if_pos hc]
        rw [hcont hc] at hprog
        cases hprog with
        | @towards y progress target tip mem reached =>
          rw [if_pos hc] at reached
          subst reached
          have hlen : ((b :: l).drop 32).length ≤ fuel := by
            simp only [length_drop, length_cons] at hfuel ⊢
            omega
          rcases ih progress target tip mem hl.2 (fun c hc => hlM c (mem_of_mem_drop hc)) hlen with
            hnone | ⟨s', r', hrest, hact', hprog'⟩
          · exact .inl hnone
          · refine .inr ⟨s', r', hrest, hact.trans hact', (hprog'.of_activates hact).mono
              fun y hy => ?_⟩
            refine hy.imp (fun hy => hy.trans ?_) id
            rw [← getLastD_append, hsplit]
      · rw [if_neg hc]
        refine .inr ⟨_, _, rfl, hact, hprog.mono fun y hy => .inr ?_⟩
        rwa [if_neg hc] at hy

/-! ### One step -/

/-- **One step** of `ActivateBestChain` towards the target. -/
theorem activateBestChainStep_spec (h : InProgress A must K s) (hM : Target A K M s)
    (ht : s.tip = some t) :
    (¬ K ∧ s.activateBestChainStep A M = none) ∨
    ∃ s' r, s.activateBestChainStep A M = some (s', r) ∧ Activates A s s' ∧
      Progressed A must K M (fun y => y = M ∨ A.nChainWork t < A.nChainWork y) s s' r := by
  obtain ⟨f, hf⟩ : ∃ f, s.findFork A M = some f := by
    refine isSome_iff_exists.1 (find?_isSome.2 ⟨A.genesis, A.genesis_mem_path M, ?_⟩)
    rw [decide_eq_true_eq, chain_eq ht]
    exact A.genesis_mem_path t
  have hfM : f ∈ A.path M := mem_of_find?_eq_some hf
  have hft : f ∈ A.path t := by
    have := find?_some hf
    rwa [decide_eq_true_eq, chain_eq ht] at this
  have hcut : ∀ b : B, (A.path b).takeWhile (fun x => decide (some x ≠ some f)) =
      (A.path b).takeWhile (fun x => decide (x ≠ f)) := by
    intro b
    simp
  obtain ⟨s1, hfold, hs1, hprogress⟩ := h.disconnectTo ht hft
  obtain ⟨hclimbs, hlast⟩ := climbs_path hfM
  have hact1 : Activates A s s1 := by
    rw [hs1]
    exact .of_entry rfl rfl rfl rfl
  have hM1 : Target A K M s1 := by
    rw [hs1]
    exact ⟨hM.usable, hM.mem, hM.max⟩
  unfold activateBestChainStep
  simp only [hf, hcut, chain_eq ht, hfold, bind_eq_bind, bind_some]
  rcases connectBlocks_spec s.tip hprogress hM1 (by rw [hs1]) hfM hclimbs
    (fun b hb => (mem_of_mem_takeWhile_ne hfM (mem_reverse.1 hb)).1) le_rfl with
    hnone | ⟨s', r, hconnect, hact, hprog⟩
  · exact .inl hnone
  · refine .inr ⟨s', r, hconnect, hact1.trans hact, (hprog.of_activates hact1).mono fun y hy => ?_⟩
    refine hy.imp (fun hy => hy.trans hlast) fun hy => ?_
    rwa [Ahead, ht, all_some, decide_eq_true_eq] at hy

/-! ### The loops -/

/-- The number of blocks without failure flags. -/
def unflagged (s : State B) : ℕ := (s.index.filter fun b => !(s.entry b).failed).length

section

omit [DecidableEq B]

theorem unflagged_sublist (h : Activates A s s') :
    (s'.index.filter fun b => !(s'.entry b).failed).Sublist
      (s.index.filter fun b => !(s.entry b).failed) := by
  rw [h.same.index]
  refine monotone_filter_right _ fun b hb => ?_
  rw [Bool.not_eq_true'] at hb ⊢
  exact h.failed_eq_false hb

theorem unflagged_le (h : Activates A s s') : s'.unflagged ≤ s.unflagged :=
  (unflagged_sublist h).length_le

theorem unflagged_lt (h : Activates A s s') (hb : b ∈ s.index)
    (hbefore : (s.entry b).failed = false)
    (hafter : (s'.entry b).failed = true) : s'.unflagged < s.unflagged := by
  refine lt_of_le_of_ne (unflagged_le h) fun hlen => ?_
  have hmem : b ∈ s'.index.filter fun b => !(s'.entry b).failed := by
    rw [(unflagged_sublist h).eq_of_length hlen, mem_filter, hbefore]
    exact ⟨hb, rfl⟩
  rw [mem_filter, hafter] at hmem
  cases hmem.2

end

/-- How far the tip is from the target, for blocks of height up to `H`. -/
def distance (A : Blocks B) (H : ℕ) (s : State B) : Option B → ℕ
  | none => H + 2
  | some M => match s.tip with
    | none => H + 1
    | some y => if y ∈ A.path M then A.height M - A.height y else H + 1

/-- What decreases with each step. -/
def measure (A : Blocks B) (H : ℕ) (v : Activation B) : ℕ :=
  v.state.unflagged * (H + 3) + v.state.distance A H v.pindexMostWork

theorem measure_of_tip {H : ℕ} {v : Activation B} {y : B} (hM : v.pindexMostWork = some M)
    (hy : v.state.tip = some y) : measure A H v = v.state.unflagged * (H + 3) +
      if y ∈ A.path M then A.height M - A.height y else H + 1 := by
  rw [measure, hM, distance, hy]

/-- The variables of the loops after a step towards `M`. -/
def stepped (M : B) (r : State B × Bool) : Activation B where
  state := r.1
  pindexMostWork := if r.2 then none else some M
  pindexNewTip := r.1.tip
  blocksConnected := true

/-- What holds between the passes. -/
structure Underway (A : Blocks B) (must : B → Prop) (K : Prop) (s₀ : State B) (v : Activation B) :
    Prop where
  progress : InProgress A must K v.state
  activates : Activates A s₀ v.state
  target : ∀ M, v.pindexMostWork = some M → Target A K M v.state
  newTip : v.blocksConnected = true → v.pindexNewTip = v.state.tip

variable {s₀ : State B} {v : Activation B} {H : ℕ}

/-- The block that a pass of the inner loop goes to. -/
def seek (A : Blocks B) (v : Activation B) : Option (Option B × State B) :=
  match v.pindexMostWork with
  | none => v.state.findMostWorkChain A (v.state.setBlockIndexCandidates.length + 1)
  | some m => some (some m, v.state)

theorem activateInner_succ {start : Option B} {fuel : ℕ} {r : Option B}
    (h : seek A v = some (r, s')) : activateInner A start (fuel + 1) v = match r with
      | none => some { v with state := s', pindexMostWork := none }
      | some M =>
        if s'.tip = some M then some { v with state := s', pindexMostWork := some M }
        else (s'.activateBestChainStep A M).bind fun r =>
          if r.1.tip = none ∨ (start.any fun t => r.1.tip.any fun t' => r.1.less A t' t) then
            activateInner A start fuel (stepped M r)
          else some (stepped M r) := by
  unfold seek at h
  rw [activateInner]
  cases hM : v.pindexMostWork with
  | none =>
    rw [hM] at h
    dsimp only at h ⊢
    rw [h]
    cases r <;> rfl
  | some m =>
    rw [hM] at h
    obtain ⟨rfl, rfl⟩ := Prod.mk.inj (some.inj h)
    rfl

section

variable (h : Underway A must K s₀ v) (hH : ∀ b ∈ s₀.index, A.height b ≤ H)
include h hH

theorem Underway.seek : ∃ r s', State.seek A v = some (r, s') ∧ (K → r ≠ none) ∧
      Underway A must K s₀ { v with state := s', pindexMostWork := r } ∧
      measure A H { v with state := s', pindexMostWork := r } ≤ measure A H v := by
  unfold State.seek
  cases hM : v.pindexMostWork with
  | some M =>
    refine ⟨some M, v.state, rfl, fun _ => some_ne_none M,
      ⟨h.progress, h.activates, fun N hN => h.target N (hM.trans hN), h.newTip⟩, ?_⟩
    rw [measure, measure, hM]
  | none =>
    obtain ⟨r, s', hfind, hprogress, hact, htip, hr, htarget⟩ := findMostWorkChain_spec h.progress
      (Nat.lt_succ_self _)
    refine ⟨r, s', hfind, hr, ⟨hprogress, h.activates.trans hact, htarget, fun hc => ?_⟩, ?_⟩
    · rw [h.newTip hc]
      exact htip.symm
    · obtain ⟨y, hy, -⟩ := hprogress.sound.tip
      have hmul := Nat.mul_le_mul_right (H + 3) (unflagged_le hact)
      cases r with
      | none =>
        rw [measure, measure, hM]
        exact Nat.add_le_add_right hmul _
      | some M =>
        have hheight : A.height M ≤ H := by
          refine hH M ?_
          rw [← h.activates.same.index, ← hact.same.index]
          exact hprogress.sound.linked_mem ((htarget M rfl).usable M self_mem_path).1
        rw [measure_of_tip rfl hy, measure, hM, distance]
        dsimp only
        split_ifs <;> omega

theorem Underway.advance (hM : v.pindexMostWork = some M) (hne : v.state.tip ≠ some M) :
    (¬ K ∧ v.state.activateBestChainStep A M = none) ∨
    ∃ s' r, v.state.activateBestChainStep A M = some (s', r) ∧
      Underway A must K s₀ (stepped M (s', r)) ∧
        measure A H (stepped M (s', r)) < measure A H v := by
  obtain ⟨t, ht, -⟩ := h.progress.sound.tip
  have htarget := h.target M hM
  rcases activateBestChainStep_spec h.progress htarget ht with hnone | ⟨s', r, hstep, hact, hprog⟩
  · exact .inl hnone
  refine .inr ⟨s', r, hstep, ?_, ?_⟩
  · cases hprog with
    | towards progress target tip mem reached =>
      exact ⟨progress, h.activates.trans hact, fun N hN => some.inj hN ▸ target, fun _ => rfl⟩
    | invalid progress mem before after =>
      exact ⟨progress, h.activates.trans hact, (fun N hN => nomatch hN), fun _ => rfl⟩
  · cases hprog with
    | @towards y progress target tip mem reached =>
      have hMH : A.height M ≤ H := by
        refine hH M ?_
        rw [← h.activates.same.index]
        exact h.progress.sound.linked_mem (htarget.usable M self_mem_path).1
      have hmul := Nat.mul_le_mul_right (H + 3) (unflagged_le hact)
      rw [measure_of_tip hM ht, measure_of_tip rfl tip, if_pos mem]
      show s'.unflagged * (H + 3) + _ < _
      by_cases htM : t ∈ A.path M
      · -- the tip was on the way already, and the new one is higher
        have hlt : A.height t < A.height y := by
          have htM' := height_lt htM fun he => hne (he ▸ ht)
          rcases reached with rfl | hwork
          · exact htM'
          · rcases mem_path_or htM mem with hty | hyt
            · exact height_lt hty fun he => absurd (he ▸ hwork) (lt_irrefl _)
            · exact absurd (work_le_of_mem_path hyt) (not_le.2 hwork)
        have hyM := height_le mem
        rw [if_pos htM]
        omega
      · rw [if_neg htM]
        omega
    | invalid progress mem before after =>
      have hlt := unflagged_lt hact mem before after
      have hmul := Nat.mul_le_mul_right (H + 3) hlt
      rw [Nat.succ_mul] at hmul
      show s'.unflagged * (H + 3) + (H + 2) < measure A H v
      rw [measure]
      omega

end

/-- The inner loop ends at the target or after a step, or its bound is too low. -/
theorem activateInner_spec (start : Option B) (fuel : ℕ) (h : Underway A must K s₀ v)
    (hH : ∀ b ∈ s₀.index, A.height b ≤ H) :
    (∃ v', activateInner A start fuel v = some v' ∧ Underway A must K s₀ v' ∧
      measure A H v' ≤ measure A H v ∧
      (v'.blocksConnected = v.blocksConnected ∨ measure A H v' < measure A H v) ∧
      (v'.blocksConnected = false → K → v'.pindexMostWork = v'.state.tip)) ∨
    activateInner A start fuel v = none ∧ (K → fuel ≤ measure A H v) := by
  induction fuel generalizing v with
  | zero => exact .inr ⟨rfl, fun _ => Nat.zero_le _⟩
  | succ fuel ih =>
    obtain ⟨r, s', hseek, hr, hv, hle⟩ := h.seek hH
    rw [activateInner_succ hseek]
    cases r with
    | none => exact .inl ⟨_, rfl, hv, hle, .inl rfl, fun _ hK => absurd rfl (hr hK)⟩
    | some M =>
      dsimp only
      by_cases htip : s'.tip = some M
      · rw [if_pos htip]
        exact .inl ⟨_, rfl, hv, hle, .inl rfl, fun _ _ => htip.symm⟩
      · rw [if_neg htip]
        rcases hv.advance hH rfl htip with ⟨hK, hstep⟩ | ⟨s2, r, hstep, hv2, hlt⟩
        · rw [hstep]
          exact .inr ⟨rfl, fun hK' => absurd hK' hK⟩
        rw [hstep, bind_some]
        dsimp only
        by_cases hagain : s2.tip = none ∨
            (start.any fun t => s2.tip.any fun t' => s2.less A t' t) = true
        · rw [if_pos hagain]
          rcases ih hv2 with ⟨v', hrun, hv', hle', -, hdone⟩ | ⟨hrun, hfuel⟩
          · exact .inl ⟨v', hrun, hv', by omega, .inr (by omega), hdone⟩
          · exact .inr ⟨hrun, fun hK => by have := hfuel hK; omega⟩
        · rw [if_neg hagain]
          exact .inl ⟨_, rfl, hv2, by omega, .inr (by omega), fun h => nomatch h⟩

/-- How `ActivateBestChain` ends: the tip is the greatest candidate. -/
structure Settled (A : Blocks B) (must : B → Prop) (K : Prop) (s s' : State B) : Prop where
  activates : Activates A s s'
  sound : Sound A s'
  best : K → ∃ t, s'.tip = some t ∧ Baseline A must t s' ∧
    ∀ c ∈ s'.setBlockIndexCandidates, s'.less A t c = false

theorem Underway.settled (h : Underway A must K s₀ v)
    (hreached : K → v.pindexMostWork = v.state.tip) : Settled A must K s₀ v.state := by
  refine ⟨h.activates, h.progress.sound, fun hK => ?_⟩
  obtain ⟨M, htip, -⟩ := h.progress.sound.tip
  obtain ⟨m, hm⟩ := h.progress.baseline hK
  have htarget := h.target M ((hreached hK).trans htip)
  -- the tip does not sort above the block to compare with, which is a candidate
  obtain rfl : m = M := by
    by_contra hne
    rcases less_total hne with hless | hless
    · rw [hm.tip M htip] at hless
      cases hless
    · rw [htarget.max hK m hm.mem] at hless
      cases hless
  exact ⟨m, htip, hm, htarget.max hK⟩

/-- The outer loop ends, or its bound is too low. -/
theorem activateOuter_spec (fuel : ℕ) (h : Underway A must K s₀ v)
    (hH : ∀ b ∈ s₀.index, A.height b ≤ H) :
    (∃ s', activateOuter A fuel v = some s' ∧ Settled A must K s₀ s') ∨
      activateOuter A fuel v = none ∧ (K → fuel ≤ measure A H v) := by
  induction fuel generalizing v with
  | zero => exact .inr ⟨rfl, fun _ => Nat.zero_le _⟩
  | succ fuel ih =>
    have hv : Underway A must K s₀ { v with blocksConnected := false } :=
      ⟨h.progress, h.activates, h.target, fun h => nomatch h⟩
    unfold activateOuter
    rcases activateInner_spec v.state.tip (fuel + 1) hv hH with
      ⟨v', hrun, hv', -, hlt, hdone⟩ | ⟨hrun, hfuel⟩
    · rw [hrun, bind_eq_bind, bind_some]
      by_cases hc : v'.blocksConnected = true
      · rw [if_neg (by simp [hc])]
        by_cases hreached : v'.pindexNewTip = v'.pindexMostWork
        · rw [if_pos hreached]
          exact .inl ⟨_, rfl, hv'.settled fun _ => hreached.symm.trans (hv'.newTip hc)⟩
        · rw [if_neg hreached]
          have hlt : measure A H v' < measure A H v := by
            rcases hlt with heq | hlt
            · rw [hc] at heq
              cases heq
            · exact hlt
          rcases ih hv' with hdone | ⟨hrun', hfuel⟩
          · exact .inl hdone
          · exact .inr ⟨hrun', fun hK => by have := hfuel hK; omega⟩
      · have hc := Bool.eq_false_of_not_eq_true hc
        rw [if_pos (by simp [hc])]
        exact .inl ⟨_, rfl, hv'.settled (hdone hc)⟩
    · rw [hrun]
      exact .inr ⟨rfl, hfuel⟩

theorem activateBestChain_spec (h : InProgress A must K s) :
    (K → ∃ n, ∀ fuel, n < fuel → ∃ s', s.activateBestChain A fuel = some s') ∧
      ∀ fuel s', s.activateBestChain A fuel = some s' → Settled A must K s s' := by
  obtain ⟨H, hH⟩ : ∃ H, ∀ b ∈ s.index, A.height b ≤ H :=
    ⟨s.index.toFinset.sup A.height, fun b hb => Finset.le_sup (mem_toFinset.2 hb)⟩
  have hstart : Underway A must K s { state := s } :=
    ⟨h, .refl s, (fun M hM => nomatch hM), fun h => nomatch h⟩
  refine ⟨fun hK => ⟨measure A H { state := s }, fun fuel hfuel => ?_⟩, fun fuel s' hs' => ?_⟩
  · rcases activateOuter_spec fuel hstart hH with ⟨s', hrun, -⟩ | ⟨-, hle⟩
    · exact ⟨s', hrun⟩
    · have := hle hK
      omega
  · rcases activateOuter_spec fuel hstart hH with ⟨s1, hrun, hdone⟩ | ⟨hrun, -⟩
    · obtain rfl : s1 = s' := mem_unique hrun hs'
      exact hdone
    · have hs' : activateOuter A fuel { state := s } = some s' := hs'
      rw [hrun] at hs'
      cases hs'

end State

/-! ### The best chain -/

/-- The chain of the block has its data, and none of its blocks carries `BLOCK_FAILED_VALID`. -/
def Clean (A : Blocks B) (s : State B) (b : B) : Prop :=
  ∀ a ∈ A.path b, (s.entry a).haveData = true ∧ (s.entry a).failedValid = false

instance (s : State B) (b : B) : Decidable (Clean A s b) :=
  inferInstanceAs (Decidable (∀ a ∈ A.path b, _))

/-- `BLOCK_FAILED_CHILD` has a reason. -/
def ChildFlags (A : Blocks B) (s : State B) : Prop :=
  ∀ b, (s.entry b).failedChild = true → ∃ a ∈ A.path b, a ≠ b ∧ (s.entry a).failedValid = true

/-- **The candidate set is complete**: it has the tip, every block that may be the tip and does not
sort below it, and no block that sorts below it. -/
structure CandidatesComplete (A : Blocks B) (s : State B) : Prop where
  tip : ∀ t, s.tip = some t → t ∈ s.setBlockIndexCandidates
  complete : ∀ b, Clean A s b → s.belowTip A b = false → b ∈ s.setBlockIndexCandidates
  above : ∀ b ∈ s.setBlockIndexCandidates, s.belowTip A b = false
  child : ChildFlags A s

section

omit [DecidableEq B]

theorem State.Usable.clean (h : s.Sound A) (hb : s.Usable A b) : Clean A s b := fun a ha =>
  ⟨h.linked_data (hb a ha).1, (Entry.failed_eq_false.1 (hb a ha).2).1⟩

/-- With `ChildFlags` a chain without `BLOCK_FAILED_VALID` has no flags at all. -/
theorem Clean.not_failed (hb : Clean A s b) (h : ChildFlags A s) (ha : a ∈ A.path b) :
    (s.entry a).failed = false := by
  refine Entry.failed_eq_false.2 ⟨(hb a ha).2, ?_⟩
  by_contra hne
  obtain ⟨c, hc, -, hvalid⟩ := h a (Bool.eq_true_of_not_eq_false hne)
  rw [(hb c (mem_path_trans hc ha)).2] at hvalid
  cases hvalid

theorem State.Activates.clean (h : s.Activates A s') (hb : Clean A s' b) : Clean A s b := by
  intro a ha
  exact ⟨h.same.haveData a ▸ (hb a ha).1,
    Bool.eq_false_iff.2 (mt (h.failedValid a) (Bool.eq_false_iff.1 (hb a ha).2))⟩

/-- Flags of children are not set, and those of blocks to blame not cleared. -/
theorem ChildFlags.mono (h : ChildFlags A s)
    (hchild : ∀ c, (s'.entry c).failedChild = true → (s.entry c).failedChild = true)
    (hvalid : ∀ c, (s.entry c).failedValid = true → (s'.entry c).failedValid = true) :
    ChildFlags A s' := by
  intro c hc
  obtain ⟨a, ha, hne, hav⟩ := h c (hchild c hc)
  exact ⟨a, ha, hne, hvalid a hav⟩

theorem State.Activates.childFlags (h : s.Activates A s') (hs : ChildFlags A s) :
    ChildFlags A s' := by
  -- from the root, since an ancestor may have `BLOCK_FAILED_CHILD` only
  have hpath : ∀ b, ∀ x ∈ A.path b, (s'.entry x).failedChild = true →
      ∃ a ∈ A.path x, a ≠ x ∧ (s'.entry a).failedValid = true := by
    intro b
    induction b using A.induction with
    | step b ih =>
      intro x hx hchild
      rcases mem_path_iff.1 hx with rfl | ⟨p, hp, hx⟩
      · rcases h.child x hchild with hold | ⟨a, ha, hne, hfailed⟩
        · obtain ⟨a, ha, hne, hvalid⟩ := hs x hold
          exact ⟨a, ha, hne, h.failedValid a hvalid⟩
        · obtain ⟨p, hp, hap⟩ := (mem_path_iff.1 ha).resolve_left hne
          rw [Entry.failed, Bool.or_eq_true] at hfailed
          rcases hfailed with hvalid | hchild'
          · exact ⟨a, ha, hne, hvalid⟩
          · obtain ⟨c, hc, -, hvalid⟩ := ih p hp a hap hchild'
            have hcp := mem_path_trans hc hap
            refine ⟨c, mem_path_parent hp hcp, ?_, hvalid⟩
            rintro rfl
            exact not_mem_path_parent hp hcp
      · exact ih p hp x hx hchild
  exact fun b => hpath b b self_mem_path

theorem CandidatesComplete.baseline (h : s.Sound A) (hc : CandidatesComplete A s)
    (ht : s.tip = some t) : s.Baseline A (Clean A s) t := by
  obtain ⟨-, husable, hconnects⟩ := h.at_tip ht
  refine ⟨husable, hconnects, fun r hr => ?_, hc.tip t ht, fun c hcand => ?_,
    fun c husable => husable.clean h, fun c hclean _ hless => hc.complete c hclean ?_⟩
  · obtain rfl : t = r := mem_unique ht hr
    exact State.less_irrefl ..
  · rw [← State.belowTip_eq ht]
    exact hc.above c hcand
  · rwa [State.belowTip_eq ht]

end

/-- **`ActivateBestChain` reaches the best valid chain.**  From a sound state with a complete
candidate set it ends.  The final tip is the best block of the view, and no block with data on its
whole chain and no `BLOCK_FAILED_VALID` there sorts above it.  The blocks that newly carry
`BLOCK_FAILED_VALID` are blocks that `ConnectBlock` refuses on top of their parents. -/
theorem activateBestChain_best (A : Blocks B) (s : State B) (h : s.Sound A)
    (hc : CandidatesComplete A s) :
    (∃ n, ∀ fuel, n < fuel → ∃ s', s.activateBestChain A fuel = some s') ∧
      ∀ fuel s', s.activateBestChain A fuel = some s' →
        ∃ t, s'.tip = some t ∧ s'.coinsBestBlock = some t ∧
          (∀ b, Clean A s' b → s'.less A t b = false) ∧
          ∀ b, (s'.entry b).failedValid = true → (s.entry b).failedValid = true ∨
            State.Refused A b := by
  obtain ⟨t₀, ht₀, -⟩ := h.tip
  have hstart : s.InProgress A (Clean A s) True := ⟨h, fun _ => ⟨t₀, hc.baseline h ht₀⟩⟩
  obtain ⟨hends, hspec⟩ := State.activateBestChain_spec hstart
  refine ⟨hends trivial, fun fuel s' hs' => ?_⟩
  obtain ⟨hact, hsound, hbest⟩ := hspec fuel s' hs'
  obtain ⟨t, ht, hbase, hmax⟩ := hbest trivial
  have hcoins := (hsound.at_tip ht).1
  refine ⟨t, ht, hcoins, fun b hb => ?_, fun b hb => (hact.refused b hb).imp id And.right⟩
  by_contra hne
  have hless := Bool.eq_true_of_not_eq_false hne
  have hcand := hbase.complete b (hact.clean hb)
    (hb.not_failed (hact.childFlags hc.child) self_mem_path) (State.not_less_of_less hless)
  rw [hmax b hcand] at hless
  cases hless

/-- The children 1 and 2 of the genesis block have arrived, and 1 sorts first. -/
def twoChildren : State ℕ where
  index := [0, 1, 2]
  entry b := if b ≤ 2 then
      { nTx := 1, nChainTx := .ofNat 32 ((b + 1).log2 + 1), validity := .transactions,
        haveData := true,
        nSequenceId := b }
    else {}
  setBlockIndexCandidates := [0, 1, 2]
  tip := some 0
  coinsBestBlock := some 0

theorem twoChildren_forall {P : ℕ → Entry → Prop} (h : ∀ b ∈ [0, 1, 2], P b (twoChildren.entry b))
    (h0 : ∀ b, P b {}) (b : ℕ) : P b (twoChildren.entry b) := by
  by_cases hb : b ≤ 2
  · refine h b ?_
    simp only [mem_cons, not_mem_nil, or_false]
    omega
  · have hentry : twoChildren.entry b = {} := if_neg hb
    rw [hentry]
    exact h0 b

theorem twoChildren_sound : twoChildren.Sound (heapBlocks fun n => n ≠ 1) where
  closed := by decide +kernel
  tree := by decide +kernel
  data := twoChildren_forall (P := fun b e => e.haveData = true → b ∈ [0, 1, 2] ∧
    _ ≤ e.validity.level) (by decide +kernel) fun _ h => nomatch h
  flagged := twoChildren_forall (P := fun b e => e.failed = true → b ∈ [0, 1, 2])
    (by decide +kernel) fun _ h => nomatch h
  linking := by
    refine ⟨twoChildren_forall (P := fun b e => e.nChainTx ≠ 0 → e.haveData = true ∧
      e.nChainTx = twoChildren.chainTx (heapBlocks fun n => n ≠ 1) b ∧
      ∀ p, (heapBlocks fun n => n ≠ 1).parent b = some p → (twoChildren.entry p).nChainTx ≠ 0)
      (by decide +kernel) fun b h => absurd rfl h,
      twoChildren_forall (P := fun _ e => e.haveData = true → e.nTx ≠ 0) (by decide +kernel)
        (fun b h => nomatch h), ?_, nodup_nil, ?_, nodup_nil⟩
    · intro p b h
      cases h
    · intro b h
      cases h
  scripts := twoChildren_forall (P := fun b e => Validity.scripts.level ≤ e.validity.level →
    e.nChainTx ≠ 0 ∧ State.Connects (heapBlocks fun n => n ≠ 1) b) (by decide +kernel)
    fun _ h => nomatch h
  failed _ h := nomatch h
  candidates := by decide +kernel
  tip := ⟨0, rfl, rfl, by decide +kernel, by decide +kernel⟩

theorem twoChildren_complete : CandidatesComplete (heapBlocks fun n => n ≠ 1) twoChildren where
  tip _ h := some.inj h ▸ mem_cons_self ..
  complete b hb _ := by
    have hdata := (hb b self_mem_path).1
    exact (twoChildren_sound.data b hdata).1
  above := by decide +kernel
  child := twoChildren_forall (P := fun b e => e.failedChild = true → _) (by decide +kernel)
    fun _ h => nomatch h

/-- Block 1 sorts first and is refused, so that block 2 becomes the tip. -/
theorem activateBestChain_best_twoChildren : ∃ fuel s',
    twoChildren.activateBestChain (heapBlocks fun n => n ≠ 1) fuel = some s' ∧ s'.tip = some 2 ∧
      s'.coinsBestBlock = some 2 ∧ (s'.entry 1).failedValid = true ∧
      ∀ b, Clean (heapBlocks fun n => n ≠ 1) s' b →
        s'.less (heapBlocks fun n => n ≠ 1) 2 b = false := by
  have hrun : (twoChildren.activateBestChain (heapBlocks fun n => n ≠ 1) 5).map (fun s =>
      (s.tip, (s.entry 1).failedValid)) = some (some 2, true) := by decide +kernel
  obtain ⟨s', hs', h⟩ := map_eq_some_iff.1 hrun
  obtain ⟨htip, hvalid⟩ := Prod.mk.inj h
  obtain ⟨-, hbest⟩ := activateBestChain_best (heapBlocks fun n => n ≠ 1) twoChildren
    twoChildren_sound twoChildren_complete
  obtain ⟨t, ht, hcoins, hmax, -⟩ := hbest 5 s' hs'
  obtain rfl : 2 = t := mem_unique htip ht
  exact ⟨5, s', hs', ht, hcoins, hvalid, hmax⟩

end KPCoin.Chainstate
