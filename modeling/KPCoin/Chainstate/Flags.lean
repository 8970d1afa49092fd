import KPCoin.Chainstate.Sound

/-!
# Flags and sequence ids set by hand

What `InvalidateBlock`, `ResetBlockFailureFlags` and the first part of `PreciousBlock` do to a sound
state.

* `Sound.invalidates`, `Resets.sound`, `Precious.sound` : the state stays sound;
* `reset_spec`, `markPrecious_spec` : all that the operation changes.
-/

namespace KPCoin.Chainstate

open List Option Entry Forest

variable {B : Type} {A : Blocks B} {s s' : State B} {a b c p t : B}

namespace State

variable [DecidableEq B] {q : B}

theorem Invalidates.touches (hi : Invalidates A b q s s') :
    Touches (fun e => { e with failedValid := true }) s s' := .of_ite hi.entry

theorem Invalidates.failedValid (hi : Invalidates A b q s s') :
    ∀ c, (s.entry c).failedValid = true → (s'.entry c).failedValid = true :=
  hi.touches.keeps (Q := (·.failedValid = true)) fun _ _ => rfl

theorem Sound.invalidates (h : Sound A s) (hq : A.parent b = some q) (hb : b ∈ s.index)
    (hi : Invalidates A b q s s') : Sound A s' := by
  obtain ⟨t, ht, -, husable, hconnects⟩ := h.tip
  -- the blocks that stay connected do not descend from the block
  have htip : ∃ r, s'.tip = some r ∧ r ∈ A.path t ∧ b ∉ A.path r := by
    by_cases hbt : b ∈ s.chain A
    · rw [chain_eq ht] at hbt
      exact ⟨q, by rw [hi.tip, if_pos (chain_eq ht ▸ hbt)],
        mem_path_trans (parent_mem_path hq) hbt, not_mem_path_parent hq⟩
    · exact ⟨t, by rw [hi.tip, if_neg hbt, ht], self_mem_path, chain_eq ht ▸ hbt⟩
  obtain ⟨r, hr, hrt, hbr⟩ := htip
  refine hi.touches.sound h hi.index hi.unlinked (fun c hc => ?_)
    (fun c hc => ?_) (fun c hc => ?_)
    ⟨r, hr, hi.coins.trans hr, fun a ha => ?_, fun a ha => hconnects a (mem_path_trans ha hrt)⟩
  · rw [hi.entry c] at hc
    split_ifs at hc with hcb
    · rcases hcb with rfl | ⟨hchain, -⟩
      · exact hb
      · exact h.linked_mem (h.chain_usable hchain c self_mem_path).1
    · exact h.flagged c hc
  · rcases (hi.failed c).1 hc with rfl | hc
    · rw [hi.entry c, if_pos (.inl rfl)]
    · exact hi.failedValid c (h.failed c hc)
  · rcases hi.sound c hc with hc | hc | ⟨-, hc, -⟩
    · obtain rfl : r = c := mem_unique hr hc
      exact (husable r hrt).1
    · exact h.candidates c hc
    · exact (h.connectable_iff.1 hc).1
  · have hne : ¬ (a = b ∨ a ∈ s.chain A ∧ b ∈ A.path a) := by
      rintro (rfl | ⟨-, hba⟩)
      · exact hbr ha
      · exact hbr (mem_path_trans hba ha)
    rw [hi.entry a, if_neg hne]
    exact husable a (mem_path_trans ha hrt)

end State

namespace Entry

theorem clearFailed_of_not_failed {e : Entry} (h : e.failed = false) : e.clearFailed = e := by
  obtain ⟨h1, h2⟩ := failed_eq_false.1 h
  cases e
  subst h1 h2
  rfl

theorem not_isValid_of_failed {e : Entry} {v : Validity} (h : e.failed = true) :
    e.isValid v = false := by
  rw [isValid, h]
  rfl

theorem clearFailed_isValid {e : Entry} {v : Validity} :
    e.clearFailed.isValid v = true ↔ v.level ≤ e.validity.level := by
  rw [isValid_iff]
  exact and_iff_right rfl

end Entry

namespace State

/-- The block is an ancestor or a descendant. -/
def InLine (A : Blocks B) (b c : B) : Prop := b ∈ A.path c ∨ c ∈ A.path b

variable [DecidableEq B]

instance (b c : B) : Decidable (InLine A b c) := inferInstanceAs (Decidable (_ ∨ _))

/-- `ResetBlockFailureFlags` makes this descendant a candidate. -/
def Restored (A : Blocks B) (b : B) (s : State B) (c : B) : Prop :=
  b ∈ A.path c ∧ (s.entry c).isValid .transactions = false ∧
    Validity.transactions.level ≤ (s.entry c).validity.level ∧ (s.entry c).nChainTx ≠ 0 ∧
    s.aboveTip A c = true

/-- The flags of these descendants of the block are cleared. -/
structure Clears (A : Blocks B) (b : B) (l : List B) (s s' : State B) : Prop where
  frame : s' = { s with
    entry := s'.entry
    setBlockIndexCandidates := s'.setBlockIndexCandidates
    mBestInvalid := s'.mBestInvalid
    mFailedBlocks := s'.mFailedBlocks }
  entry : ∀ c, s'.entry c =
    if c ∈ l ∧ b ∈ A.path c then (s.entry c).clearFailed else s.entry c
  candidates : ∀ c, c ∈ s'.setBlockIndexCandidates ↔
    c ∈ s.setBlockIndexCandidates ∨ c ∈ l ∧ Restored A b s c
  failed : ∀ c, c ∈ s'.mFailedBlocks ↔ c ∈ s.mFailedBlocks ∧
    ¬ (c ∈ l ∧ b ∈ A.path c ∧ (s.entry c).isValid .transactions = false)

omit [DecidableEq B] in
theorem Touches.aboveTip (h : Touches Entry.clearFailed s s') (htip : s'.tip = s.tip) (c : B) :
    s'.aboveTip A c = s.aboveTip A c := by
  have hseq := h.frame Entry.nSequenceId
  unfold State.aboveTip
  rw [htip]
  congr 1
  funext t
  exact less_congr (hseq t) (hseq c)

theorem Clears.cons {s'' : State B} {x : B} {l : List B} (h1 : Clears A b [x] s s')
    (h2 : Clears A b l s' s'') : Clears A b (x :: l) s s'' := by
  have hentry : ∀ c, c ≠ x → s'.entry c = s.entry c := fun c hc => by
    rw [h1.entry, if_neg fun h => hc (mem_singleton.1 h.1)]
  have hself : b ∈ A.path x → s'.entry x = (s.entry x).clearFailed := fun hb => by
    rw [h1.entry, if_pos ⟨mem_singleton_self x, hb⟩]
  -- a cleared block is valid, or has not been checked enough
  have hrestored : ¬ Restored A b s' x := by
    rintro ⟨hb, hinvalid, hlevel, -⟩
    rw [hself hb] at hinvalid hlevel
    have hlevel : Validity.transactions.level ≤ (s.entry x).validity.level := hlevel
    rw [clearFailed_isValid.2 hlevel] at hinvalid
    cases hinvalid
  refine ⟨?_, fun c => ?_, fun c => ?_, fun c => ?_⟩
  · rw [h2.frame, h1.frame]
  · by_cases hc : c = x
    · subst hc
      rw [h2.entry]
      by_cases hb : b ∈ A.path c
      · simp only [hself hb, hb, and_true, mem_cons_self, if_true]
        split_ifs <;> rfl
      · rw [if_neg fun h => hb h.2, if_neg fun h => hb h.2, h1.entry, if_neg fun h => hb h.2]
    · rw [h2.entry, hentry c hc]
      simp [hc]
  · rw [h2.candidates, h1.candidates]
    by_cases hc : c = x
    · subst hc
      simp [hrestored]
    · unfold Restored
      rw [hentry c hc, Touches.aboveTip (.of_ite h1.entry) (by rw [h1.frame])]
      simp [hc]
  · rw [h2.failed, h1.failed]
    by_cases hc : c = x
    · subst hc
      by_cases hb : b ∈ A.path c
      · rw [hself hb]
        by_cases hinvalid : (s.entry c).isValid .transactions = false
        · simp [hb, hinvalid]
        · have hvalid := Bool.eq_true_of_not_eq_false hinvalid
          rw [clearFailed_of_not_failed (isValid_iff.1 hvalid).1]
          simp [hvalid]
      · simp [hb]
    · rw [hentry c hc]
      simp [hc]

theorem resetDescendant_spec (s : State B) (b x : B) :
    Clears A b [x] s (s.resetDescendant A b x) := by
  by_cases hcond : (s.entry x).isValid .transactions = false ∧ b ∈ A.path x
  · obtain ⟨hinvalid, hb⟩ := hcond
    set s1 := s.modify x Entry.clearFailed with hs1
    have hself : s1.entry x = (s.entry x).clearFailed := modify_entry_self ..
    have habove : s1.aboveTip A x = s.aboveTip A x := (Touches.modify x).aboveTip rfl x
    have hrestored : Restored A b s x ↔ (s1.connectable x && s1.aboveTip A x) = true := by
      rw [Bool.and_eq_true, habove, connectable, Bool.and_eq_true, hself,
        clearFailed_isValid, haveNumChainTxs_iff, and_assoc]
      exact ⟨fun h => ⟨h.2.2.1, h.2.2.2.1, h.2.2.2.2⟩, fun h => ⟨hb, hinvalid, h⟩⟩
    obtain ⟨i, hreset⟩ : ∃ i, s.resetDescendant A b x = { s1 with
        setBlockIndexCandidates := if s1.connectable x && s1.aboveTip A x then
          s.setBlockIndexCandidates.insert x else s.setBlockIndexCandidates
        mBestInvalid := i
        mFailedBlocks := s.mFailedBlocks.filter (· ≠ x) } := by
      rw [resetDescendant, if_pos (by simp [hinvalid, hb])]
      simp only [← hs1]
      split_ifs <;> exact ⟨_, rfl⟩
    rw [hreset]
    refine ⟨rfl, fun c => ?_, fun c => ?_, fun c => ?_⟩
    · show s1.entry c = _
      by_cases hc : c = x
      · rw [hc, hself, if_pos ⟨mem_singleton_self x, hb⟩]
      · rw [modify_entry_of_ne hc, if_neg fun h => hc (mem_singleton.1 h.1)]
    · dsimp only
      rw [mem_singleton]
      split_ifs with h
      · rw [mem_insert_iff, or_comm]
        refine or_congr_right ⟨?_, fun hc => hc.1⟩
        rintro rfl
        exact ⟨rfl, hrestored.2 h⟩
      · refine (or_iff_left ?_).symm
        rintro ⟨rfl, hc⟩
        exact h (hrestored.1 hc)
    · rw [mem_filter, decide_eq_true_eq, mem_singleton]
      refine and_congr_right fun _ => not_congr ⟨?_, fun h => h.1⟩
      rintro rfl
      exact ⟨rfl, hb, hinvalid⟩
  · have hreset : s.resetDescendant A b x = s := by
      rw [resetDescendant, if_neg]
      simp only [Bool.and_eq_true, Bool.not_eq_true', decide_eq_true_eq]
      exact hcond
    rw [hreset]
    refine ⟨rfl, fun c => ?_, fun c => ?_, fun c => ?_⟩
    · split_ifs with hc
      · obtain ⟨hc, hb⟩ := hc
        obtain rfl := mem_singleton.1 hc
        have hvalid := Bool.eq_true_of_not_eq_false fun h => hcond ⟨h, hb⟩
        exact (clearFailed_of_not_failed (isValid_iff.1 hvalid).1).symm
      · rfl
    · refine (or_iff_left ?_).symm
      rintro ⟨hc, hr⟩
      obtain rfl := mem_singleton.1 hc
      exact hcond ⟨hr.2.1, hr.1⟩
    · refine (and_iff_left ?_).symm
      rintro ⟨hc, hb, hinvalid⟩
      obtain rfl := mem_singleton.1 hc
      exact hcond ⟨hinvalid, hb⟩

theorem resetDescendants_spec (b : B) (l : List B) (s : State B) :
    Clears A b l s (l.foldl (fun s c => s.resetDescendant A b c) s) := by
  induction l generalizing s with
  | nil => exact ⟨rfl, by simp, by simp, by simp⟩
  | cons x l ih => exact (resetDescendant_spec s b x).cons (ih _)

theorem resetAncestor_entry (s : State B) (x c : B) : (s.resetAncestor x).entry c =
    if c = x then (s.entry c).clearFailed else s.entry c := by
  unfold resetAncestor
  by_cases hc : c = x
  · subst hc
    rw [if_pos rfl]
    split_ifs with h
    · exact modify_entry_self ..
    · exact (clearFailed_of_not_failed (Bool.eq_false_of_not_eq_true h)).symm
  · rw [if_neg hc]
    split_ifs
    · exact modify_entry_of_ne hc _
    · rfl

theorem resetAncestor_failed (s : State B) (x c : B) : c ∈ (s.resetAncestor x).mFailedBlocks ↔
    c ∈ s.mFailedBlocks ∧ ¬ (c = x ∧ (s.entry c).failed = true) := by
  unfold resetAncestor
  split_ifs with h
  · rw [mem_eraseFailed]
    refine and_congr_right fun _ => not_congr ⟨?_, fun h => h.1⟩
    rintro rfl
    exact ⟨rfl, h⟩
  · refine (and_iff_left ?_).symm
    rintro ⟨rfl, hc⟩
    exact h hc

theorem resetAncestor_frame (s : State B) (x : B) : s.resetAncestor x = { s with
    entry := (s.resetAncestor x).entry
    mFailedBlocks := (s.resetAncestor x).mFailedBlocks } := by
  unfold resetAncestor
  split_ifs <;> rfl

theorem resetAncestors_spec (l : List B) (s : State B) :
    l.foldl resetAncestor s = { s with
      entry := (l.foldl resetAncestor s).entry
      mFailedBlocks := (l.foldl resetAncestor s).mFailedBlocks } ∧
    (∀ c, (l.foldl resetAncestor s).entry c =
      if c ∈ l then (s.entry c).clearFailed else s.entry c) ∧
    ∀ c, c ∈ (l.foldl resetAncestor s).mFailedBlocks ↔
      c ∈ s.mFailedBlocks ∧ ¬ (c ∈ l ∧ (s.entry c).failed = true) := by
  induction l generalizing s with
  | nil => exact ⟨rfl, by simp, by simp⟩
  | cons x l ih =>
    obtain ⟨hframe, hentry, hfailed⟩ := ih (s.resetAncestor x)
    rw [foldl_cons]
    refine ⟨?_, fun c => ?_, fun c => ?_⟩
    · rw [hframe, resetAncestor_frame]
    · rw [hentry, resetAncestor_entry]
      by_cases hc : c = x
      · simp only [hc, if_true, mem_cons_self]
        split_ifs <;> rfl
      · simp [hc]
    · rw [hfailed, resetAncestor_failed, resetAncestor_entry]
      by_cases hc : c = x
      · have hclear : (s.entry x).clearFailed.failed = false := rfl
        simp [hc, hclear]
      · simp [hc]

/-- What `ResetBlockFailureFlags` does.  All ancestors and descendants lose their flags, and of
these only descendants become candidates. -/
structure Resets (A : Blocks B) (b : B) (s s' : State B) : Prop where
  index : s'.index = s.index
  unlinked : s'.mBlocksUnlinked = s.mBlocksUnlinked
  tip : s'.tip = s.tip
  coins : s'.coinsBestBlock = s.coinsBestBlock
  entry : ∀ c, s'.entry c = if InLine A b c then (s.entry c).clearFailed else s.entry c
  failed : ∀ c, c ∈ s'.mFailedBlocks ↔ c ∈ s.mFailedBlocks ∧ ¬ InLine A b c
  candidates : ∀ c, c ∈ s'.setBlockIndexCandidates ↔ c ∈ s.setBlockIndexCandidates ∨
    b ∈ A.path c ∧ (s.entry c).failed = true ∧ (s.entry c).nChainTx ≠ 0 ∧ s.aboveTip A c = true

theorem reset_spec (h : Sound A s) (b : B) : Resets A b s (s.resetBlockFailureFlags A b) := by
  have hdesc := resetDescendants_spec (A := A) b s.index s
  obtain ⟨hframe, hentry, hfailed⟩ := resetAncestors_spec (A.path b)
    (s.index.foldl (fun s c => s.resetDescendant A b c) s)
  unfold resetBlockFailureFlags
  set s1 := s.index.foldl (fun s c => s.resetDescendant A b c) s with hs1
  set s2 := (A.path b).foldl resetAncestor s1 with hs2
  -- a block that is not in the index has no flags
  have hout : ∀ c, c ∉ s.index → (s.entry c).clearFailed = s.entry c := fun c hc =>
    clearFailed_of_not_failed (Bool.eq_false_of_not_eq_true fun hf => hc (h.flagged c hf))
  have hfailedValid : ∀ c ∈ s.mFailedBlocks, (s.entry c).failed = true := by
    intro c hc
    rw [Entry.failed, h.failed c hc, Bool.true_or]
  refine ⟨?_, ?_, ?_, ?_, fun c => ?_, fun c => ?_, fun c => ?_⟩
  · rw [hframe, hdesc.frame]
  · rw [hframe, hdesc.frame]
  · rw [hframe, hdesc.frame]
  · rw [hframe, hdesc.frame]
  · rw [hentry, hdesc.entry]
    unfold InLine
    by_cases hb : b ∈ A.path c
    · by_cases hc : c ∈ s.index
      · simp only [hb, hc, and_self, if_true, true_or]
        split_ifs <;> rfl
      · simp [hout c hc]
    · simp [hb]
  · rw [hfailed, hdesc.failed, hdesc.entry]
    unfold InLine
    by_cases hmem : c ∈ s.mFailedBlocks
    · have hf := hfailedValid c hmem
      have hc := h.flagged c hf
      have hinvalid := not_isValid_of_failed (v := .transactions) hf
      by_cases hb : b ∈ A.path c
      · simp [hb, hc, hinvalid]
      · simp [hb, hf]
    · simp [hmem]
  · have hcands : s2.setBlockIndexCandidates = s1.setBlockIndexCandidates := by rw [hframe]
    rw [hcands, hdesc.candidates]
    refine or_congr_right ⟨?_, ?_⟩
    · rintro ⟨hc, hb, hinvalid, hlevel, hlinked, habove⟩
      refine ⟨hb, ?_, hlinked, habove⟩
      by_contra hf
      rw [isValid_iff.2 ⟨Bool.eq_false_of_not_eq_true hf, hlevel⟩] at hinvalid
      cases hinvalid
    · rintro ⟨hb, hf, hlinked, habove⟩
      exact ⟨h.flagged c hf, hb, not_isValid_of_failed hf, (h.data c (h.linked_data hlinked)).2,
        hlinked, habove⟩

theorem Resets.touches (hr : Resets A b s s') : Touches Entry.clearFailed s s' := .of_ite hr.entry

theorem Resets.sound (h : Sound A s) (hr : Resets A b s s') : Sound A s' := by
  have hunflagged : ∀ c, (s.entry c).failed = false → (s'.entry c).failed = false :=
    hr.touches.keeps (Q := (·.failed = false)) fun _ _ => rfl
  obtain ⟨t, ht, hcoins, husable, hconnects⟩ := h.tip
  refine hr.touches.sound h hr.index hr.unlinked (fun c hc => ?_)
    (fun c hc => ?_) (fun c hc => ?_)
    ⟨t, hr.tip.trans ht, hr.coins.trans hcoins, fun a ha => ⟨?_, ?_⟩, hconnects⟩
  · refine h.flagged c ?_
    by_contra hf
    rw [hunflagged c (Bool.eq_false_of_not_eq_true hf)] at hc
    cases hc
  · obtain ⟨hc, hline⟩ := (hr.failed c).1 hc
    rw [hr.entry c, if_neg hline]
    exact h.failed c hc
  · rcases (hr.candidates c).1 hc with hc | ⟨-, -, hc, -⟩
    · exact h.candidates c hc
    · exact hc
  · rw [hr.touches.frame Entry.nChainTx]
    exact (husable a ha).1
  · exact hunflagged a (husable a ha).2

/-- The sequence id that `PreciousBlock` gives. -/
def preciousId (A : Blocks B) (s : State B) (t : B) : ℤ :=
  if A.nChainWork t > s.nLastPreciousChainwork then -1 else s.nBlockReverseSequenceId

/-- What `PreciousBlock` does before it calls `ActivateBestChain`. -/
structure Precious (A : Blocks B) (b t : B) (s s' : State B) : Prop where
  index : s'.index = s.index
  unlinked : s'.mBlocksUnlinked = s.mBlocksUnlinked
  failed : s'.mFailedBlocks = s.mFailedBlocks
  tip : s'.tip = s.tip
  coins : s'.coinsBestBlock = s.coinsBestBlock
  entry : ∀ c, s'.entry c =
    if c = b then { s.entry c with nSequenceId := s.preciousId A t } else s.entry c
  candidates :
    (s.connectable b = true ∧ ∀ c, c ∈ s'.setBlockIndexCandidates ↔
      (c ∈ s.setBlockIndexCandidates ∨ c = b) ∧ s'.belowTip A c = false) ∨
    (s.connectable b = false ∧ ∀ c, c ∈ s'.setBlockIndexCandidates ↔
      c ∈ s.setBlockIndexCandidates ∧ c ≠ b)

/-- The state in which `PreciousBlock` looks whether the block may be a candidate. -/
def reordered (A : Blocks B) (s : State B) (b t : B) (i : ℤ) : State B :=
  { s.modify b (fun e => { e with nSequenceId := s.preciousId A t }) with
    setBlockIndexCandidates := s.setBlockIndexCandidates.filter (· ≠ b)
    nLastPreciousChainwork := A.nChainWork t
    nBlockReverseSequenceId := i }

theorem markPrecious_eq (ht : s.tip = some t) (hwork : ¬ A.nChainWork b < A.nChainWork t) :
    ∃ i, s.markPrecious A b = if (s.reordered A b t i).connectable b then
        (((s.reordered A b t i).insertCandidate b).pruneBlockIndexCandidates A).map (·, true)
      else some (s.reordered A b t i, true) := by
  refine ⟨if s.preciousId A t > -2 ^ 31 then s.preciousId A t - 1 else s.preciousId A t, ?_⟩
  have hbind : ∀ f : B → Option (State B × Bool), s.tip.bind f = f t := fun f => by
    rw [ht, bind_some]
  have hid : (if A.nChainWork t > s.nLastPreciousChainwork then
      { s with nBlockReverseSequenceId := -1 } else s) =
        { s with nBlockReverseSequenceId := s.preciousId A t } := by
    unfold preciousId
    split_ifs <;> rfl
  rw [markPrecious, bind_eq_bind, hbind, if_neg hwork, hid]
  by_cases h : s.preciousId A t > -2 ^ 31
  · simp only [eraseCandidate, modify, h, if_true]
    rfl
  · simp only [eraseCandidate, modify, h, if_false]
    rfl

theorem markPrecious_spec {r : Bool} (ht : s.tip = some t) (h : s.markPrecious A b = some (s', r)) :
    s' = s ∧ r = false ∨ r = true ∧ Precious A b t s s' := by
  by_cases hwork : A.nChainWork b < A.nChainWork t
  · rw [markPrecious, ht, bind_eq_bind, bind_some, if_pos hwork] at h
    obtain ⟨rfl, rfl⟩ := Prod.mk.inj (some.inj h)
    exact .inl ⟨rfl, rfl⟩
  · obtain ⟨i, heq⟩ := markPrecious_eq ht hwork
    set s1 := s.reordered A b t i with hs1
    have hentry : ∀ c, s1.entry c =
        if c = b then { s.entry c with nSequenceId := s.preciousId A t } else s.entry c := by
      intro c
      have hs : s1.entry = (s.modify b fun e => { e with nSequenceId := s.preciousId A t }).entry :=
        rfl
      rw [hs]
      by_cases hc : c = b
      · rw [hc, if_pos rfl, modify_entry_self]
      · rw [if_neg hc, modify_entry_of_ne hc]
    have hconn : s1.connectable b = s.connectable b := by
      unfold connectable
      rw [hentry b, if_pos rfl]
      rfl
    have hcands : ∀ c, c ∈ s1.setBlockIndexCandidates ↔ c ∈ s.setBlockIndexCandidates ∧ c ≠ b :=
      fun c => mem_eraseCandidate
    refine .inr ?_
    rw [heq, hconn] at h
    by_cases hb : s.connectable b = true
    · rw [if_pos hb] at h
      obtain ⟨s2, hprune, h⟩ := map_eq_some_iff.1 h
      obtain ⟨rfl, rfl⟩ := Prod.mk.inj h
      unfold pruneBlockIndexCandidates at hprune
      dsimp only at hprune
      split_ifs at hprune
      cases hprune
      refine ⟨rfl, rfl, rfl, rfl, rfl, rfl, hentry, .inl ⟨hb, fun c => ?_⟩⟩
      rw [mem_filter, mem_insertCandidate, hcands, Bool.not_eq_true']
      refine and_congr ?_ Iff.rfl
      tauto
    · rw [if_neg hb] at h
      obtain ⟨rfl, rfl⟩ := Prod.mk.inj (some.inj h)
      exact ⟨rfl, rfl, rfl, rfl, rfl, rfl, hentry, .inr ⟨Bool.eq_false_of_not_eq_true hb, hcands⟩⟩

theorem Precious.touches (hp : Precious A b t s s') :
    Touches (fun e => { e with nSequenceId := s.preciousId A t }) s s' := .of_ite hp.entry

theorem Precious.sound (h : Sound A s) (hp : Precious A b t s s') : Sound A s' := by
  obtain ⟨t', ht, hcoins, husable, hconnects⟩ := h.tip
  refine hp.touches.sound h hp.index hp.unlinked (fun c hc => ?_)
    (fun c hc => ?_) (fun c hc => ?_)
    ⟨t', hp.tip.trans ht, hp.coins.trans hcoins, fun a ha => ⟨?_, ?_⟩, hconnects⟩
  · rw [hp.touches.frame Entry.failed] at hc
    exact h.flagged c hc
  · rw [hp.failed] at hc
    rw [hp.touches.frame Entry.failedValid]
    exact h.failed c hc
  · rcases hp.candidates with ⟨hb, hcands⟩ | ⟨-, hcands⟩
    · rcases ((hcands c).1 hc).1 with hc | rfl
      · exact h.candidates c hc
      · exact (h.connectable_iff.1 hb).1
    · exact h.candidates c ((hcands c).1 hc).1
  · rw [hp.touches.frame Entry.nChainTx]
    exact (husable a ha).1
  · rw [hp.touches.frame Entry.failed]
    exact (husable a ha).2

end State

end KPCoin.Chainstate
