import KPCoin.Chainstate.Calls

/-!
# Headers on top of invalid blocks

`AcceptBlockHeader` refuses a header whose parent carries a failure flag.  For an ancestor further
down it relies on `m_failed_blocks`, and does not look there at all if the parent is at
`BLOCK_VALID_SCRIPTS`.  That suffices if the state is `Guarded`: every block of the index without a
flag that descends from a block with `BLOCK_FAILED_VALID` descends from one in `m_failed_blocks`,
too, and is not at `BLOCK_VALID_SCRIPTS`.

Three calls break this.  `AcceptBlock` gives `BLOCK_FAILED_VALID` to a block with an invalid body
without putting it in `m_failed_blocks`, `InvalidateBlock` leaves descendants at
`BLOCK_VALID_SCRIPTS` that are not on the active chain, and `ResetBlockFailureFlags` takes an
ancestor out of `m_failed_blocks` on which the blocks of another branch rely.  `KeepsGuard` says
when they do not.

* `acceptBlockHeader_guarded` : in runs of such calls no header is added on top of a block with
  `BLOCK_FAILED_VALID`.
-/

namespace KPCoin.Chainstate

open Option State Forest

variable {B : Type} [DecidableEq B] {A : Blocks B} {s s' : State B} {a b c p t : B}

/-- The descendants of blocks with `BLOCK_FAILED_VALID` are recognised. -/
def Guarded (A : Blocks B) (s : State B) : Prop :=
  ∀ c ∈ s.index, (s.entry c).failed = false → (∃ a ∈ A.path c, (s.entry a).failedValid = true) →
    (s.entry c).validity.level < Validity.scripts.level ∧ ∃ f ∈ s.mFailedBlocks, f ∈ A.path c

/-- The call leaves no block unguarded. -/
def KeepsGuard (A : Blocks B) (s : State B) : Call B → Prop
  | .block b _ _ body _ => body = .invalid → (s.entry b).haveData = false →
    ∀ c ∈ s.index, b ∈ A.path c → c ≠ b →
      (s.entry c).failed = true ∨ ∃ f ∈ s.mFailedBlocks, f ∈ A.path c
  | .invalidate b => b ≠ A.genesis → ∀ c ∈ s.index, b ∈ A.path c → c ∉ s.chain A → c ≠ b →
    (s.entry c).failed = false → (s.entry c).validity.level < Validity.scripts.level
  | .reset b => ∀ c ∈ s.index, (s.entry c).failed = false →
    (∃ a ∈ A.path c, (s.entry a).failedValid = true ∧ ¬ State.InLine A b a) →
      ∃ f ∈ s.mFailedBlocks, f ∈ A.path c ∧ ¬ State.InLine A b f
  | _ => True

instance (s : State B) : (l : Call B) → Decidable (KeepsGuard A s l)
  | .block b _ _ body _ => inferInstanceAs
      (Decidable (body = .invalid → (s.entry b).haveData = false →
    ∀ c ∈ s.index, b ∈ A.path c → c ≠ b →
      (s.entry c).failed = true ∨ ∃ f ∈ s.mFailedBlocks, f ∈ A.path c))
  | .invalidate b => inferInstanceAs (Decidable (b ≠ A.genesis → ∀ c ∈ s.index, b ∈ A.path c →
    c ∉ s.chain A → c ≠ b → (s.entry c).failed = false →
      (s.entry c).validity.level < Validity.scripts.level))
  | .reset b => inferInstanceAs (Decidable (∀ c ∈ s.index, (s.entry c).failed = false →
    (∃ a ∈ A.path c, (s.entry a).failedValid = true ∧ ¬ State.InLine A b a) →
      ∃ f ∈ s.mFailedBlocks, f ∈ A.path c ∧ ¬ State.InLine A b f))
  | .header _ _ => .isTrue trivial
  | .activate => .isTrue trivial
  | .precious _ => .isTrue trivial

namespace Guarded

variable (h : Guarded A s)
include h

omit [DecidableEq B] in
theorem not_failedValid (hmem : p ∈ s.index) (hvalid : (s.entry p).failed = false)
    (hcheck : (s.entry p).isValid .scripts = true ∨ ∀ f ∈ s.mFailedBlocks, f ∉ A.path p)
    (ha : a ∈ A.path p) : (s.entry a).failedValid = false := by
  by_contra hne
  obtain ⟨hlevel, f, hf, hfp⟩ := h p hmem hvalid ⟨a, ha, Bool.eq_true_of_not_eq_false hne⟩
  rcases hcheck with hscripts | hnone
  · have := (Entry.isValid_iff.1 hscripts).2
    omega
  · exact hnone f hf hfp

theorem header {r : Bool} (ho : s.HeaderOutcome A b s' r) : Guarded A s' := by
  cases ho with
  | unchanged => exact h
  | @rejected p f hp hmem hf hfp =>
    have htouch :
        State.Touches _ s { s with entry := s.flagChildren ((A.path p).takeWhile (· ≠ f)) } :=
      touches_flagChildren rfl
    intro c hc hfailed hbad
    have hfailed' : (s.entry c).failed = false := Bool.eq_false_iff.2 (mt
      (htouch.keeps (Q := (·.failed = true)) (fun _ _ => Bool.or_true _) c)
      (Bool.eq_false_iff.1 hfailed))
    obtain ⟨a, ha, hvalid⟩ := hbad
    obtain ⟨h1, h2⟩ := h c hc hfailed'
      ⟨a, ha, (htouch.frame Entry.failedValid (fun _ => rfl) a).symm.trans hvalid⟩
    exact ⟨((htouch.level) c).trans_lt h1, h2⟩
  | @added p hp hnew hmem hvalid hcheck =>
    intro c hc hfailed hbad
    have hframe := addToBlockIndex_frame (A := A) hnew
    obtain ⟨a, ha, hav⟩ := hbad
    have hab : a ≠ b := by
      rintro rfl
      rw [addToBlockIndex_entry_self hnew, (Entry.failed_eq_false.1 A.newEntry_failed).1] at hav
      cases hav
    rw [addToBlockIndex_entry_of_ne hab] at hav
    by_cases hcb : c = b
    · -- the new block itself
      subst hcb
      obtain ⟨q, hq, haq⟩ := (mem_path_iff.1 ha).resolve_left hab
      obtain rfl : p = q := mem_unique hp hq
      rw [h.not_failedValid hmem hvalid hcheck haq] at hav
      cases hav
    · rw [addToBlockIndex_entry_of_ne hcb] at hfailed ⊢
      have hc : c ∈ s.index := by
        rw [hframe, List.mem_append, List.mem_singleton] at hc
        exact hc.resolve_right hcb
      rw [hframe]
      exact h c hc hfailed ⟨a, ha, hav⟩

theorem block {body : State.BodyCheck} {pos : FilePos} {checks : State.HeaderChecks}
    {fRequested : Bool} (hs : s.Sound A) (hfew : s'.FewTx A) (ho : s.BlockOutcome A b body pos s')
    (hk : KeepsGuard A s (.block b checks fRequested body pos)) : Guarded A s' := by
  cases ho with
  | header hout => exact h.header hout
  | @stored s1 hout hmem hfailed hdata =>
    obtain ⟨harr, -⟩ := (hout.sound hs).arrives ((fewTx_received hdata pos).1 hfew) hmem hfailed
      hdata pos
    intro c hc hcf hbad
    rw [harr.index] at hc
    rw [harr.failed_eq] at hcf
    obtain ⟨a, ha, hav⟩ := hbad
    rw [harr.failedValid] at hav
    obtain ⟨h1, h2⟩ := h.header hout c hc hcf ⟨a, ha, hav⟩
    rw [harr.failed]
    refine ⟨?_, h2⟩
    by_contra hle
    exact absurd (harr.scripts c (not_lt.1 hle)) (not_le.2 h1)
  | @invalid s1 hout hmem hfailed hdata hbody =>
    have hs1 := hout.sound hs
    have hother : ∀ c, c ≠ b → (s1.setFailedValid b).entry c = s1.entry c :=
      fun c hc => modify_entry_of_ne hc _
    have hself : ((s1.setFailedValid b).entry b).failed = true :=
      congrArg Entry.failed (modify_entry_self ..)
    intro c hc hcf hbad
    have hcb : c ≠ b := by
      rintro rfl
      rw [hself] at hcf
      cases hcf
    rw [hother c hcb] at hcf ⊢
    obtain ⟨a, ha, hav⟩ := hbad
    by_cases hab : a = b
    · subst hab
      -- the descendants of the invalid block
      have hlevel : (s1.entry c).validity.level < Validity.scripts.level := by
        by_contra hle
        have hlinked := hs1.linking.path (hs1.scripts c (not_lt.1 hle)).1 a ha
        rw [hs1.linked_data hlinked] at hdata
        cases hdata
      refine ⟨hlevel, ?_⟩
      cases hout with
      | unchanged =>
        refine (hk hbody hdata c hc ha hcb).resolve_left ?_
        rw [hcf]
        exact Bool.false_ne_true
      | added hp hnew =>
        rw [addToBlockIndex_frame hnew] at hc
        have hc : c ∈ s.index :=
          ((List.mem_append.1 hc).imp id List.mem_singleton.1).resolve_right hcb
        exact absurd (hs.path_mem hc ha) hnew
    · rw [hother a hab] at hav
      exact h.header hout c hc hcf ⟨a, ha, hav⟩

omit [DecidableEq B] in
theorem activates (hs' : s'.Sound A) (hact : s.Activates A s') : Guarded A s' := by
  intro c hc hcf hbad
  obtain ⟨a, ha, hav⟩ := hbad
  rw [hact.same.index] at hc
  rcases hact.refused a hav with hold | ⟨hmem, hrefused⟩
  · obtain ⟨h1, f, hf, hfc⟩ := h c hc (hact.failed_eq_false hcf) ⟨a, ha, hold⟩
    refine ⟨?_, f, hact.failed f hf, hfc⟩
    by_contra hle
    rcases hact.scripts c (not_lt.1 hle) with hlevel | hclean
    · omega
    · rw [hclean a ha] at hold
      cases hold
  · refine ⟨?_, a, hmem, ha⟩
    by_contra hle
    exact hrefused.not_mem (hs'.scripts c (not_lt.1 hle)).2 ha

theorem invalidate {q : B} (hq : A.parent b = some q) (hi : s.Invalidates A b q s')
    (hk : KeepsGuard A s (.invalidate b)) : Guarded A s' := by
  have hgenesis : b ≠ A.genesis := by
    rintro rfl
    exact Fresh.parent_genesis hq
  intro c hc hcf hbad
  obtain ⟨a, ha, hav⟩ := hbad
  rw [hi.index] at hc
  have hcold : ¬ (c = b ∨ c ∈ s.chain A ∧ b ∈ A.path c) := by
    intro hmarked
    rw [hi.entry c, if_pos hmarked] at hcf
    cases hcf
  rw [hi.entry c, if_neg hcold] at hcf ⊢
  by_cases hba : a = b ∨ a ∈ s.chain A ∧ b ∈ A.path a
  · have hbc : b ∈ A.path c := by
      rcases hba with rfl | ⟨-, hba⟩
      · exact ha
      · exact mem_path_trans hba ha
    exact ⟨hk hgenesis c hc hbc (fun hchain => hcold (.inr ⟨hchain, hbc⟩))
      (fun he => hcold (.inl he)) hcf, b, (hi.failed b).2 (.inl rfl), hbc⟩
  · rw [hi.entry a, if_neg hba] at hav
    obtain ⟨h1, f, hf, hfc⟩ := h c hc hcf ⟨a, ha, hav⟩
    exact ⟨h1, f, (hi.failed f).2 (.inr hf), hfc⟩

theorem reset (hr : s.Resets A b s') (hk : KeepsGuard A s (.reset b)) : Guarded A s' := by
  intro c hc hcf hbad
  obtain ⟨a, ha, hav⟩ := hbad
  rw [hr.index] at hc
  have hline : ¬ State.InLine A b a := by
    intro hline
    rw [hr.entry a, if_pos hline] at hav
    cases hav
  rw [hr.entry a, if_neg hline] at hav
  -- all ancestors of a block in line with the reset one are in line with it
  have hcline : ¬ State.InLine A b c := by
    rintro (hbc | hcb)
    · rcases mem_path_or ha hbc with hab | hba
      · exact hline (.inr hab)
      · exact hline (.inl hba)
    · exact hline (.inr (mem_path_trans ha hcb))
  rw [hr.entry c, if_neg hcline] at hcf ⊢
  obtain ⟨f, hf, hfc, hfline⟩ := hk c hc hcf ⟨a, ha, hav, hline⟩
  exact ⟨(h c hc hcf ⟨a, ha, hav⟩).1, f, (hr.failed f).2 ⟨hf, hfline⟩, hfc⟩

theorem precious (hp : s.Precious A b t s') : Guarded A s' := by
  intro c hc hcf hbad
  rw [hp.index] at hc
  rw [hp.touches.frame Entry.failed] at hcf
  rw [hp.touches.level, hp.failed]
  simp only [hp.touches.frame Entry.failedValid] at hbad
  exact h c hc hcf hbad

theorem step {l : Call B} (hs : s.Sound A) (hfew : s'.FewTx A) (hk : KeepsGuard A s l)
    (ho : Outcome A s l s') : Guarded A s' := by
  cases ho with
  | idle => exact h
  | header hout => exact h.header hout
  | block hout => exact h.block hs hfew hout hk
  | activate hrun =>
    obtain ⟨hact, hs'⟩ := activates_of_sound hs hrun
    exact h.activates hs' hact
  | invalidate hb hq hinv => exact h.invalidate hq hinv hk
  | reset hb hreset => exact h.reset hreset hk
  | precious hb ht hprecious hrun =>
    obtain ⟨hact, hs'⟩ := activates_of_sound (hprecious.sound hs) hrun
    exact (h.precious hprecious).activates hs' hact

end Guarded

omit [DecidableEq B] in
theorem Fresh.guarded (h : Fresh A s) : Guarded A s := by
  intro c hc _ hbad
  obtain ⟨a, ha, hav⟩ := hbad
  rw [h.index, List.mem_singleton] at hc
  rw [hc] at ha
  rw [Fresh.path_genesis ha, (Entry.failed_eq_false.1 h.notFailed).1] at hav
  cases hav

theorem reachable_guarded (h : ((system A).restrict (KeepsGuard A)).Reachable s) :
    s.Sound A ∧ Guarded A s := by
  refine LTS.Reachable.invariant (I := fun s => s.Sound A ∧ Guarded A s) h ?_ ?_
  · rintro s ⟨pos, rfl⟩
    exact ⟨(start_fresh A pos).sound, (start_fresh A pos).guarded⟩
  · rintro s l s' ⟨hs, hg⟩ ⟨⟨hfew, fuel, hrun⟩, hk⟩
    have hout := Call.outcome hs hrun
    exact ⟨hout.sound hs hfew, hg.step hs hfew hk hout⟩

end KPCoin.Chainstate
