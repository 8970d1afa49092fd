import KPCoin.Chainstate.Basic

/-!
# Block data in any order

The data of a block may arrive before that of its ancestors.  `ReceivedBlockTransactions` keeps such
a block in `m_blocks_unlinked` under its parent, and once the parent is linked a worklist links the
block and what waits for it.

`Linking A queue s` says what is recorded while the worklist is `queue`, and `Waiting A queue s`
that no block with data is forgotten.  Both cover trees with failed blocks, for which
`m_blocks_unlinked` may lack the children of a failed block.  `Grows A s s'` says what the arrival
of data changes.

* `Linking.linkAll` : the loop ends with an empty worklist;
* `received_spec` : what a call of `ReceivedBlockTransactions` does.
-/

namespace KPCoin.Chainstate

open List Entry Function

variable {B : Type} [DecidableEq B] {A : Blocks B} {s s' s'' : State B} {b c p t : B}
  {l : List (B × B)} (pos : FilePos)

namespace State

omit [DecidableEq B] in
theorem belowTip_congr (htip : s'.tip = s.tip)
    (hseq : ∀ x, x = c ∨ s.tip = some x → (s'.entry x).nSequenceId = (s.entry x).nSequenceId) :
    s'.belowTip A c = s.belowTip A c := by
  cases ht : s.tip with
  | none => rw [belowTip, belowTip, htip, ht]; rfl
  | some t =>
    rw [belowTip_eq ht, belowTip_eq (htip.trans ht)]
    exact less_congr (hseq c (.inl rfl)) (hseq t (.inr ht))

/-- `nChainTx` of a block, from its parent. -/
def chainTx (A : Blocks B) (s : State B) (b : B) : BitVec 32 :=
  ((A.parent b).elim 0 fun p => (s.entry p).nChainTx) + (s.entry b).nTx

/-- The number of transactions of a block, if need be before its data has arrived. -/
def numTx (A : Blocks B) (s : State B) (b : B) : ℕ :=
  (if (s.entry b).haveData then (s.entry b).nTx else A.vtxSize b).toNat

/-- There are fewer than `2 ^ 32` transactions along every path. -/
def FewTx (A : Blocks B) (s : State B) : Prop :=
  ∀ b ∈ s.index, ((A.path b).map (s.numTx A)).sum < 2 ^ 32
  deriving Decidable

/-- The entry of a block when it is linked. -/
def linkedEntry (A : Blocks B) (s : State B) (b : B) : Entry :=
  { s.entry b with nChainTx := s.chainTx A b, nSequenceId := s.nBlockSequenceId }

theorem tryAdd_eq (s : State B) (b : B) : ∃ cs, s.tryAddBlockIndexCandidate A b =
    { s with setBlockIndexCandidates := cs } ∧
      ∀ c, c ∈ cs ↔ c ∈ s.setBlockIndexCandidates ∨ c = b ∧ s.belowTip A b = false := by
  unfold tryAddBlockIndexCandidate
  split_ifs with h
  · exact ⟨s.setBlockIndexCandidates, rfl, by simp [h]⟩
  · refine ⟨_, rfl, fun c => ?_⟩
    rw [mem_insert_iff, Bool.eq_false_of_not_eq_true h]
    tauto

theorem link_spec (s : State B) (b : B) : ∃ cs, s.link A b = { s with
      entry := update s.entry b (s.linkedEntry A b)
      mBlocksUnlinked := s.mBlocksUnlinked.filter (·.1 ≠ b)
      setBlockIndexCandidates := cs
      nBlockSequenceId := s.nBlockSequenceId + 1 } ∧
    ∀ c, c ∈ cs ↔ c ∈ s.setBlockIndexCandidates ∨ c = b ∧ (s.link A b).belowTip A b = false := by
  set s1 : State B := { s with
    entry := update s.entry b (s.linkedEntry A b)
    nBlockSequenceId := s.nBlockSequenceId + 1 } with hs1
  obtain ⟨cs, hcs, hmem⟩ := tryAdd_eq s1 b
  have hlink : s.link A b = { s1 with
      mBlocksUnlinked := s.mBlocksUnlinked.filter (·.1 ≠ b)
      setBlockIndexCandidates := cs } := by
    show { s1.tryAddBlockIndexCandidate A b with
      mBlocksUnlinked := (s1.tryAddBlockIndexCandidate A b).mBlocksUnlinked.filter (·.1 ≠ b) } = _
    rw [hcs]
  refine ⟨cs, hlink, fun c => ?_⟩
  rw [hmem, hlink]
  rfl

theorem link_entry (s : State B) (b : B) :
    (s.link A b).entry = update s.entry b (s.linkedEntry A b) := by
  obtain ⟨cs, h, -⟩ := link_spec s b
  rw [h]

theorem link_entry_self (s : State B) (b : B) : (s.link A b).entry b = s.linkedEntry A b := by
  rw [link_entry, update_self]

theorem link_entry_of_ne (h : c ≠ b) : (s.link A b).entry c = s.entry c := by
  rw [link_entry, update_of_ne h]

theorem link_entry_frame {α : Type*} (g : Entry → α) (h : g (s.linkedEntry A b) = g (s.entry b))
    (c : B) : g ((s.link A b).entry c) = g (s.entry c) := by
  by_cases hc : c = b
  · subst hc
    rw [link_entry_self, h]
  · rw [link_entry_of_ne hc]

theorem link_unlinked (s : State B) (b : B) :
    (s.link A b).mBlocksUnlinked = s.mBlocksUnlinked.filter (·.1 ≠ b) := by
  obtain ⟨cs, h, -⟩ := link_spec s b
  rw [h]

/-- The block is linked in `s'` and was not in `s`. -/
def NewlyLinked (s s' : State B) (c : B) : Prop :=
  (s.entry c).nChainTx = 0 ∧ (s'.entry c).nChainTx ≠ 0

/-- What the arrival of data changes.  Linked blocks stay as they are, and blocks that are linked
become candidates unless they sort below the tip. -/
structure Grows (A : Blocks B) (s s' : State B) : Prop where
  frame : s' = { s with
    entry := s'.entry
    mBlocksUnlinked := s'.mBlocksUnlinked
    setBlockIndexCandidates := s'.setBlockIndexCandidates
    nBlockSequenceId := s'.nBlockSequenceId }
  counter : s.nBlockSequenceId ≤ s'.nBlockSequenceId
  linked : ∀ {c}, (s.entry c).nChainTx ≠ 0 → s'.entry c = s.entry c
  sequence : ∀ {c}, NewlyLinked s s' c → s.nBlockSequenceId ≤ (s'.entry c).nSequenceId
  candidates : ∀ c, c ∈ s'.setBlockIndexCandidates ↔
    c ∈ s.setBlockIndexCandidates ∨ NewlyLinked s s' c ∧ s'.belowTip A c = false

/-- Linking changes nothing else in the entries. -/
def SameData (s s' : State B) : Prop :=
  ∀ c, s'.entry c = { s.entry c with
    nChainTx := (s'.entry c).nChainTx
    nSequenceId := (s'.entry c).nSequenceId }

omit [DecidableEq B] in
theorem SameData.trans (h1 : SameData s s') (h2 : SameData s' s'') : SameData s s'' := by
  intro c
  rw [h2 c, h1 c]

theorem SameData.link (s : State B) (b : B) : SameData s (s.link A b) := by
  intro c
  by_cases hc : c = b
  · subst hc
    rw [link_entry_self]
    rfl
  · rw [link_entry_of_ne hc]

theorem linkAll_frame (fuel : ℕ) (queue : List B) (s : State B) :
    (linkAll A fuel queue s).index = s.index ∧ SameData s (linkAll A fuel queue s) := by
  induction fuel generalizing queue s with
  | zero => exact ⟨rfl, fun _ => rfl⟩
  | succ fuel ih =>
    cases queue with
    | nil => exact ⟨rfl, fun _ => rfl⟩
    | cons b queue =>
      obtain ⟨cs, hlink, -⟩ := link_spec (A := A) s b
      obtain ⟨hindex, hsame⟩ := ih _ (s.link A b)
      exact ⟨hindex.trans (by rw [hlink]), (SameData.link s b).trans hsame⟩

theorem received_frame (s : State B) (b : B) (pos : FilePos) :
    (s.receivedBlockTransactions A b pos).index = s.index ∧
      SameData (s.storeData A b pos) (s.receivedBlockTransactions A b pos) := by
  unfold receivedBlockTransactions
  dsimp only
  split_ifs
  · exact linkAll_frame ..
  · cases A.parent b with
    | none => exact ⟨rfl, fun _ => rfl⟩
    | some p =>
      dsimp only
      split_ifs <;> exact ⟨rfl, fun _ => rfl⟩

namespace Grows

section

omit [DecidableEq B]

theorem tip (h : Grows A s s') : s'.tip = s.tip := by rw [h.frame]

theorem refl (s : State B) : Grows A s s :=
  ⟨rfl, le_rfl, fun _ => rfl, fun h => absurd h.1 h.2,
    fun _ => ⟨.inl, fun h => h.elim id fun h => absurd h.1.1 h.1.2⟩⟩

/-- The data of a block that is not linked may change. -/
theorem of_unlinked {entry : B → Entry}
    (hentry : ∀ c, (s.entry c).nChainTx ≠ 0 → entry c = s.entry c)
    (hzero : ∀ c, (s.entry c).nChainTx = 0 → (entry c).nChainTx = 0) :
    Grows A s { s with entry := entry, mBlocksUnlinked := l } :=
  ⟨rfl, le_rfl, hentry _, fun h => absurd (hzero _ h.1) h.2,
    fun c => ⟨.inl, fun h => h.elim id fun h => absurd (hzero c h.1.1) h.1.2⟩⟩

end

theorem link (hb : (s.entry b).nChainTx = 0) (hnew : s.chainTx A b ≠ 0) :
    Grows A s (s.link A b) := by
  obtain ⟨cs, hlink, hcs⟩ := link_spec s b
  have hself := link_entry_self (A := A) s b
  have hnewly : NewlyLinked s (s.link A b) b := ⟨hb, by rw [hself]; exact hnew⟩
  have honly : ∀ {c}, NewlyLinked s (s.link A b) c → c = b := by
    intro c hc
    by_contra hcb
    exact hc.2 ((congrArg Entry.nChainTx (link_entry_of_ne hcb)).trans hc.1)
  refine ⟨?_, ?_, fun hc => ?_, fun hc => ?_, fun c => ?_⟩
  · rw [hlink]
  · rw [hlink]
    exact Int.le_add_one le_rfl
  · refine link_entry_of_ne ?_
    rintro rfl
    exact hc hb
  · rw [honly hc, hself]
    exact le_rfl
  · have hmem : c ∈ (s.link A b).setBlockIndexCandidates ↔ c ∈ cs := by rw [hlink]
    rw [hmem, hcs]
    refine or_congr_right ⟨?_, fun h => ?_⟩
    · rintro ⟨rfl, h⟩
      exact ⟨hnewly, h⟩
    · obtain rfl := honly h.1
      exact ⟨rfl, h.2⟩

omit [DecidableEq B] in
theorem trans (htip : ∀ t, s.tip = some t → (s.entry t).nChainTx ≠ 0) (h1 : Grows A s s')
    (h2 : Grows A s' s'') : Grows A s s'' := by
  have hbelow : ∀ c, (s'.entry c).nChainTx ≠ 0 → s''.belowTip A c = s'.belowTip A c := by
    intro c hc
    refine belowTip_congr h2.tip fun x hx => ?_
    rcases hx with rfl | hx
    · rw [h2.linked hc]
    · have hlinked := htip x (h1.tip ▸ hx)
      rw [h2.linked (by rwa [h1.linked hlinked])]
  -- a block is linked by the first part or by the second
  have hcases : ∀ c, NewlyLinked s s'' c ↔ NewlyLinked s s' c ∨ NewlyLinked s' s'' c := by
    intro c
    constructor
    · rintro ⟨h, h'⟩
      by_cases hc : (s'.entry c).nChainTx = 0
      · exact .inr ⟨hc, h'⟩
      · exact .inl ⟨h, hc⟩
    · rintro (⟨h, h'⟩ | ⟨h, h'⟩)
      · exact ⟨h, by rwa [h2.linked h']⟩
      · refine ⟨?_, h'⟩
        by_contra hc
        rw [← h1.linked hc] at hc
        exact hc h
  refine ⟨?_, h1.counter.trans h2.counter, fun hc => ?_, fun {c} hc => ?_, fun c => ?_⟩
  · rw [h2.frame, h1.frame]
  · rw [h2.linked (by rwa [h1.linked hc]), h1.linked hc]
  · rcases (hcases c).1 hc with hn | hn
    · rw [h2.linked hn.2]
      exact h1.sequence hn
    · exact h1.counter.trans (h2.sequence hn)
  · rw [h2.candidates, h1.candidates, hcases]
    constructor
    · rintro ((h | ⟨hn, hb⟩) | ⟨hn, hb⟩)
      · exact .inl h
      · exact .inr ⟨.inl hn, by rwa [hbelow c hn.2]⟩
      · exact .inr ⟨.inr hn, hb⟩
    · rintro (h | ⟨hn | hn, hb⟩)
      · exact .inl (.inl h)
      · exact .inl (.inr ⟨hn, by rwa [← hbelow c hn.2]⟩)
      · exact .inr ⟨hn, hb⟩

end Grows

/-- What is recorded of the blocks with data while the worklist is `queue`: those that are linked,
that wait for their parents, and in the worklist. -/
structure Linking (A : Blocks B) (queue : List B) (s : State B) : Prop where
  linked : ∀ b, (s.entry b).nChainTx ≠ 0 → (s.entry b).haveData = true ∧
    (s.entry b).nChainTx = s.chainTx A b ∧ ∀ p, A.parent b = some p → (s.entry p).nChainTx ≠ 0
  nTx : ∀ b, (s.entry b).haveData = true → (s.entry b).nTx ≠ 0
  pair : ∀ p b, (p, b) ∈ s.mBlocksUnlinked → A.parent b = some p ∧
    (s.entry b).haveData = true ∧ (s.entry b).nChainTx = 0 ∧ (s.entry p).nChainTx = 0
  nodup : s.mBlocksUnlinked.Nodup
  ready : ∀ b ∈ queue, (s.entry b).haveData = true ∧ (s.entry b).nChainTx = 0 ∧
    ∀ p, A.parent b = some p → (s.entry p).nChainTx ≠ 0
  queue_nodup : queue.Nodup

/-- A block with data that is not linked is in the worklist or waits for its parent, unless the
parent has failed. -/
def Waiting (A : Blocks B) (queue : List B) (s : State B) : Prop :=
  ∀ b, (s.entry b).haveData = true → (s.entry b).nChainTx = 0 → b ∈ queue ∨
    ∃ p, A.parent b = some p ∧ ((p, b) ∈ s.mBlocksUnlinked ∨ (s.entry p).failed = true)

namespace Linking

variable {queue : List B}

/-- The blocks that wait for `b`. -/
def children (s : State B) (b : B) : List B := (s.mBlocksUnlinked.filter (·.1 = b)).map Prod.snd

theorem mem_children : c ∈ children s b ↔ (b, c) ∈ s.mBlocksUnlinked := by
  simp [children]

section

omit [DecidableEq B]

variable (h : Linking A queue s)
include h

/-- The number of transactions along the path, as it wraps. -/
theorem chainTx_eq (hb : (s.entry b).haveData = true)
    (hparent : ∀ p, A.parent b = some p → (s.entry p).nChainTx ≠ 0) :
    s.chainTx A b = BitVec.ofNat 32 ((A.path b).map (s.numTx A)).sum := by
  induction b using A.induction with
  | step b ih =>
  have hself : (s.entry b).nTx = BitVec.ofNat 32 (s.numTx A b) := by simp [numTx, hb]
  unfold chainTx
  cases hp : A.parent b with
  | none => simp [Forest.path_root hp, hself]
  | some p =>
    obtain ⟨hdata, heq, hlinked⟩ := h.linked p (hparent p hp)
    rw [Forest.path_of_parent hp, Option.elim_some, heq, ih p hp hdata hlinked, hself, map_cons,
      sum_cons, BitVec.ofNat_add, BitVec.add_comm]

theorem chainTx_ne_zero (hb : b ∈ queue) (hfew : ((A.path b).map (s.numTx A)).sum < 2 ^ 32) :
    s.chainTx A b ≠ 0 := by
  obtain ⟨hdata, -, hparent⟩ := h.ready b hb
  rw [h.chainTx_eq hdata hparent, ne_eq, ← BitVec.toNat_inj, BitVec.toNat_ofNat,
    Nat.mod_eq_of_lt hfew]
  intro hsum
  have hzero := List.sum_eq_zero_iff.1 hsum _ (mem_map_of_mem Forest.self_mem_path)
  rw [numTx, hdata] at hzero
  exact h.nTx b hdata (BitVec.eq_of_toNat_eq hzero)

end

theorem link (h : Linking A (b :: queue) s) (hnew : s.chainTx A b ≠ 0) :
    Linking A (queue ++ children s b) (s.link A b) := by
  obtain ⟨hdata, hzero, hparent⟩ := h.ready b (mem_cons_self ..)
  have hself : ((s.link A b).entry b).nChainTx = s.chainTx A b := by
    rw [link_entry_self]
    rfl
  have hother : ∀ c, c ≠ b → ((s.link A b).entry c).nChainTx = (s.entry c).nChainTx :=
    fun c hc => by
    rw [link_entry_of_ne hc]
  have hne : ∀ c, (s.entry c).nChainTx ≠ 0 → c ≠ b := by
    rintro c hc rfl
    exact hc hzero
  have hmono : ∀ c, (s.entry c).nChainTx ≠ 0 → ((s.link A b).entry c).nChainTx ≠ 0 := by
    intro c hc
    rwa [hother c (hne c hc)]
  have hdata' : ∀ c, ((s.link A b).entry c).haveData = (s.entry c).haveData :=
    link_entry_frame Entry.haveData rfl
  have hnTx : ∀ c, ((s.link A b).entry c).nTx = (s.entry c).nTx := link_entry_frame Entry.nTx rfl
  -- a block whose parent is linked has its number from there
  have hchainTx : ∀ c, (∀ p, A.parent c = some p → (s.entry p).nChainTx ≠ 0) →
      (s.link A b).chainTx A c = s.chainTx A c := by
    intro c hc
    unfold chainTx
    rw [hnTx]
    cases hp : A.parent c with
    | none => rfl
    | some p => rw [Option.elim_some, Option.elim_some, hother p (hne p (hc p hp))]
  have hpair : ∀ p c, (p, c) ∈ s.mBlocksUnlinked → c ≠ b := by
    rintro p c hpc rfl
    obtain ⟨hp, -, -, hzero⟩ := h.pair p c hpc
    exact hparent p hp hzero
  have hunlinked : ∀ p c, (p, c) ∈ (s.link A b).mBlocksUnlinked ↔
      (p, c) ∈ s.mBlocksUnlinked ∧ p ≠ b := by
    intro p c
    rw [link_unlinked, mem_filter, decide_eq_true_eq]
  refine ⟨fun c hc => ?_, fun c hc => ?_, fun p c hpc => ?_, ?_, fun c hc => ?_, ?_⟩
  · by_cases hcb : c = b
    · subst hcb
      exact ⟨by rw [hdata', hdata], by rw [hself, hchainTx c hparent],
        fun p hp => hmono p (hparent p hp)⟩
    · rw [hother c hcb] at hc
      obtain ⟨h1, h2, h3⟩ := h.linked c hc
      exact ⟨by rw [hdata', h1], by rw [hother c hcb, hchainTx c h3, h2],
        fun p hp => hmono p (h3 p hp)⟩
  · rw [hnTx]
    exact h.nTx c (by rwa [hdata'] at hc)
  · obtain ⟨hpc, hpb⟩ := (hunlinked p c).1 hpc
    obtain ⟨h1, h2, h3, h4⟩ := h.pair p c hpc
    exact ⟨h1, by rw [hdata', h2], by rw [hother c (hpair p c hpc), h3], by rw [hother p hpb, h4]⟩
  · rw [link_unlinked]
    exact h.nodup.filter _
  · rcases mem_append.1 hc with hq | hc
    · obtain ⟨h1, h2, h3⟩ := h.ready c (mem_cons_of_mem b hq)
      have hcb : c ≠ b := by
        rintro rfl
        exact (nodup_cons.1 h.queue_nodup).1 hq
      exact ⟨by rw [hdata', h1], by rw [hother c hcb, h2], fun p hp => hmono p (h3 p hp)⟩
    · have hbc := mem_children.1 hc
      obtain ⟨h1, h2, h3, -⟩ := h.pair b c hbc
      refine ⟨by rw [hdata', h2], by rw [hother c (hpair b c hbc), h3], fun p hp => ?_⟩
      obtain rfl : b = p := Option.mem_unique h1 hp
      rwa [hself]
  · refine (nodup_cons.1 h.queue_nodup).2.append ?_ ?_
    · refine List.Nodup.map_on ?_ (h.nodup.filter _)
      rintro ⟨p, c⟩ hx ⟨q, d⟩ hy hcd
      simp only [mem_filter, decide_eq_true_eq] at hx hy
      rw [Prod.mk.injEq]
      exact ⟨hx.2.trans hy.2.symm, hcd⟩
    · intro c hc hc'
      obtain ⟨hp, -⟩ := h.pair b c (mem_children.1 hc')
      exact (h.ready c (mem_cons_of_mem b hc)).2.2 b hp hzero

/-- The blocks that wait for a block go to the worklist with it. -/
theorem waiting_link (hnew : s.chainTx A b ≠ 0) (hw : Waiting A (b :: queue) s) :
    Waiting A (queue ++ children s b) (s.link A b) := by
  intro c hc h0
  have hcb : c ≠ b := by
    rintro rfl
    rw [link_entry_self] at h0
    exact hnew h0
  rw [link_entry_of_ne hcb] at hc h0
  rcases hw c hc h0 with hq | ⟨p, hp, hpair | hfailed⟩
  · exact .inl (mem_append_left _ ((mem_cons.1 hq).resolve_left hcb))
  · by_cases hpb : p = b
    · subst hpb
      exact .inl (mem_append_right _ (mem_children.2 hpair))
    · refine .inr ⟨p, hp, .inl ?_⟩
      rw [link_unlinked, mem_filter, decide_eq_true_eq]
      exact ⟨hpair, hpb⟩
  · refine .inr ⟨p, hp, .inr ?_⟩
    rw [link_entry_frame Entry.failed rfl]
    exact hfailed

/-- Each pass takes a block from the worklist, and puts in those that it takes out of
`m_blocks_unlinked`. -/
theorem length_children (s : State B) (b : B) : (children s b).length +
    (s.link A b).mBlocksUnlinked.length = s.mBlocksUnlinked.length := by
  have h := length_eq_length_filter_add (l := s.mBlocksUnlinked) fun x => decide (x.1 = b)
  rw [link_unlinked, children, h]
  simp

theorem linkAll {fuel : ℕ} (h : Linking A queue s)
    (htip : ∀ t, s.tip = some t → (s.entry t).nChainTx ≠ 0)
    (hfuel : queue.length + s.mBlocksUnlinked.length ≤ fuel)
    (hfew : ∀ b, (s.entry b).haveData = true → ((A.path b).map (s.numTx A)).sum < 2 ^ 32) :
    Linking A [] (State.linkAll A fuel queue s) ∧
      (Waiting A queue s → Waiting A [] (State.linkAll A fuel queue s)) ∧
      Grows A s (State.linkAll A fuel queue s) := by
  induction fuel generalizing queue s with
  | zero =>
    obtain rfl : queue = [] := length_eq_zero_iff.1 (by omega)
    exact ⟨h, id, .refl s⟩
  | succ fuel ih =>
    cases queue with
    | nil => exact ⟨h, id, .refl s⟩
    | cons b queue =>
      obtain ⟨hdata, hzero, -⟩ := h.ready b (mem_cons_self ..)
      have hnew := h.chainTx_ne_zero (mem_cons_self ..) (hfew b hdata)
      have hlink := Grows.link hzero hnew
      have hlen := length_children (A := A) s b
      have hnum : (s.link A b).numTx A = s.numTx A := by
        funext c
        simp only [numTx, link_entry_frame Entry.haveData rfl, link_entry_frame Entry.nTx rfl]
      obtain ⟨h1, hw, h2⟩ := ih (h.link hnew)
        (fun t ht => by
          rw [hlink.tip] at ht
          rw [hlink.linked (htip t ht)]
          exact htip t ht)
        (by
          simp only [length_cons, length_append] at hfuel ⊢
          omega)
        (fun c hc => by
          rw [hnum]
          exact hfew c ((link_entry_frame Entry.haveData rfl c).symm.trans hc))
      exact ⟨h1, fun hwait => hw (waiting_link hnew hwait), hlink.trans htip h2⟩

end Linking

/-- The entry of a block when its data arrives. -/
def storedEntry (A : Blocks B) (s : State B) (b : B) (pos : FilePos) : Entry :=
  Entry.raiseValidity { s.entry b with
    nTx := A.vtxSize b
    nChainTx := 0
    pos := { pos with nUndoPos := 0 }
    haveData := true
    optWitness := (s.entry b).optWitness || A.segwitActive b } .transactions

section

omit [DecidableEq B]

theorem storedEntry_nTx : (s.storedEntry A b pos).nTx = A.vtxSize b := by
  rw [storedEntry, raiseValidity_eq]

theorem storedEntry_nChainTx : (s.storedEntry A b pos).nChainTx = 0 := by
  rw [storedEntry, raiseValidity_eq]

theorem storedEntry_haveData : (s.storedEntry A b pos).haveData = true := by
  rw [storedEntry, raiseValidity_eq]

theorem storedEntry_failed : (s.storedEntry A b pos).failed = (s.entry b).failed := by
  rw [storedEntry, raiseValidity_eq]
  rfl

end

theorem storeData_entry_self :
    (s.storeData A b pos).entry b = s.storedEntry A b pos := modify_entry_self ..

theorem storeData_entry_of_ne (h : c ≠ b) (pos : FilePos) :
    (s.storeData A b pos).entry c = s.entry c := modify_entry_of_ne h _

omit [DecidableEq B] in
theorem Linking.nChainTx_eq_zero {queue : List B} (h : Linking A queue s)
    (hb : (s.entry b).haveData = false) : (s.entry b).nChainTx = 0 := by
  by_contra hne
  rw [(h.linked b hne).1] at hb
  cases hb

/-- The data of a block arrives: it goes to the worklist or waits for its parent. -/
theorem Linking.store {queue : List B} (h : Linking A [] s) (hb : (s.entry b).haveData = false)
    (pos : FilePos) (hqueue : queue.Sublist [b])
    (hready : b ∈ queue → ∀ p, A.parent b = some p → (s.entry p).nChainTx ≠ 0) (hl : l.Nodup)
    (hpairs : ∀ x ∈ l, x.2 = b ∧ A.parent b = some x.1 ∧ (s.entry x.1).nChainTx = 0)
    (hwaits : b ∈ queue ∨ ∃ p, A.parent b = some p ∧ ((p, b) ∈ l ∨ (s.entry p).failed = true)) :
    Linking A queue { s.storeData A b pos with mBlocksUnlinked := s.mBlocksUnlinked ++ l } ∧
      (Waiting A [] s →
        Waiting A queue
          { s.storeData A b pos with mBlocksUnlinked := s.mBlocksUnlinked ++ l }) := by
  have hzero := h.nChainTx_eq_zero hb
  have hself := storeData_entry_self (s := s) (A := A) (b := b) pos
  have hother : ∀ {c}, c ≠ b → (s.storeData A b pos).entry c = s.entry c :=
    fun hc => storeData_entry_of_ne hc pos
  have hchain : ∀ c, ((s.storeData A b pos).entry c).nChainTx = (s.entry c).nChainTx :=
    modify_entry_frame Entry.nChainTx ((storedEntry_nChainTx pos).trans hzero.symm)
  have hfailed : ∀ c, ((s.storeData A b pos).entry c).failed = (s.entry c).failed :=
    modify_entry_frame Entry.failed (storedEntry_failed pos)
  have hbdata : ((s.storeData A b pos).entry b).haveData = true := by
    rw [hself, storedEntry_haveData]
  have hdata : ∀ c, (s.entry c).haveData = true →
      ((s.storeData A b pos).entry c).haveData = true := by
    intro c hc
    by_cases hcb : c = b
    · rwa [hcb]
    · rwa [hother hcb]
  refine ⟨⟨fun c hc => ?_, fun c hc => ?_, fun p c hpc => ?_, ?_, fun c hc => ?_,
    hqueue.nodup (nodup_singleton b)⟩, fun hwait c hc h0 => ?_⟩
  · have hc : (s.entry c).nChainTx ≠ 0 := by rwa [← hchain c]
    have hcb : c ≠ b := fun h => hc (h ▸ hzero)
    obtain ⟨h1, h2, h3⟩ := h.linked c hc
    refine ⟨hdata c h1, ?_, fun p hp => by rw [hchain p]; exact h3 p hp⟩
    unfold chainTx at h2 ⊢
    rw [hchain c, h2, hother hcb]
    simp [hchain]
  · by_cases hcb : c = b
    · subst hcb
      rw [hself, storedEntry_nTx]
      exact A.vtxSize_ne_zero c
    · have hc : ((s.storeData A b pos).entry c).haveData = true := hc
      rw [hother hcb] at hc
      rw [hother hcb]
      exact h.nTx c hc
  · rcases mem_append.1 hpc with hpc | hpc
    · obtain ⟨h1, h2, h3, h4⟩ := h.pair p c hpc
      exact ⟨h1, hdata c h2, (hchain c).trans h3, (hchain p).trans h4⟩
    · obtain ⟨rfl, hp, hp0⟩ := hpairs _ hpc
      exact ⟨hp, hbdata, (hchain c).trans hzero, (hchain p).trans hp0⟩
  · refine h.nodup.append hl fun x hx hx' => ?_
    obtain ⟨rfl, -⟩ := hpairs x hx'
    rw [(h.pair x.1 x.2 hx).2.1] at hb
    cases hb
  · obtain rfl := mem_singleton.1 (hqueue.subset hc)
    exact ⟨hbdata, (hchain c).trans hzero, fun p hp => by rw [hchain p]; exact hready hc p hp⟩
  · by_cases hcb : c = b
    · subst hcb
      exact hwaits.imp_right fun ⟨p, hp, hw⟩ =>
        ⟨p, hp, hw.imp (mem_append_right _) fun hpf => (hfailed p).trans hpf⟩
    · have hc : ((s.storeData A b pos).entry c).haveData = true := hc
      rw [hother hcb] at hc
      rcases hwait c hc ((hchain c).symm.trans h0) with hq | ⟨p, hp, hw⟩
      · cases hq
      · exact .inr ⟨p, hp, hw.imp (mem_append_left _) fun hpf => (hfailed p).trans hpf⟩

theorem numTx_storeData (hb : (s.entry b).haveData = false) (pos : FilePos) :
    (s.storeData A b pos).numTx A = s.numTx A := by
  funext c
  by_cases hc : c = b
  · simp [numTx, hc, storeData_entry_self, storedEntry_haveData, storedEntry_nTx, hb]
  · simp [numTx, storeData_entry_of_ne hc]

theorem fewTx_received (hb : (s.entry b).haveData = false) (pos : FilePos) :
    (s.receivedBlockTransactions A b pos).FewTx A ↔ s.FewTx A := by
  obtain ⟨hindex, hsame⟩ := received_frame (A := A) s b pos
  have hnum : (s.receivedBlockTransactions A b pos).numTx A = s.numTx A := by
    rw [← numTx_storeData hb pos]
    funext c
    rw [numTx, hsame c]
    rfl
  rw [FewTx, FewTx, hindex, hnum]

theorem received_spec (h : Linking A [] s) (hb : (s.entry b).haveData = false) (pos : FilePos)
    (htree : ∀ p, A.parent b = some p → Validity.tree.level ≤ (s.entry p).validity.level)
    (htip : ∀ t, s.tip = some t → (s.entry t).nChainTx ≠ 0) (hfew : s.FewTx A)
    (hmem : ∀ c, (s.entry c).haveData = true ∨ c = b → c ∈ s.index) :
    Linking A [] (s.receivedBlockTransactions A b pos) ∧
      (Waiting A [] s → Waiting A [] (s.receivedBlockTransactions A b pos)) ∧
      Grows A s (s.receivedBlockTransactions A b pos) := by
  have hzero := h.nChainTx_eq_zero hb
  have hgrows : ∀ l, Grows A s { s.storeData A b pos with mBlocksUnlinked := l } := by
    intro l
    refine Grows.of_unlinked (fun c hc => modify_entry_of_ne ?_ _) fun c hc => ?_
    · rintro rfl
      exact hc hzero
    · exact (modify_entry_frame nChainTx ((storedEntry_nChainTx pos).trans hzero.symm) c).trans hc
  have hentry : ∀ p, A.parent b = some p → (s.storeData A b pos).entry p = s.entry p := by
    intro p hp
    refine storeData_entry_of_ne ?_ pos
    rintro rfl
    exact Forest.not_mem_path_parent hp Forest.self_mem_path
  have htip' : ∀ t, s.tip = some t → ((s.storeData A b pos).entry t).nChainTx ≠ 0 := by
    intro t ht
    have htb : t ≠ b := by
      rintro rfl
      exact htip t ht hzero
    rw [storeData_entry_of_ne htb]
    exact htip t ht
  unfold receivedBlockTransactions
  dsimp only
  split_ifs with hall
  · have hready : ∀ p, A.parent b = some p → (s.entry p).nChainTx ≠ 0 := by
      intro p hp
      rw [hp, Option.all_some, hentry p hp] at hall
      exact haveNumChainTxs_iff.1 hall
    have hstore := h.store hb pos (.refl [b]) (fun _ => hready) nodup_nil nofun
      (.inl (mem_singleton_self b))
    rw [append_nil] at hstore
    have hfew' : ∀ c, ((s.storeData A b pos).entry c).haveData = true →
        ((A.path c).map ((s.storeData A b pos).numTx A)).sum < 2 ^ 32 := by
      intro c hc
      rw [numTx_storeData hb]
      refine hfew c (hmem c ?_)
      by_cases hcb : c = b
      · exact .inr hcb
      · rw [storeData_entry_of_ne hcb] at hc
        exact .inl hc
    obtain ⟨h1, hw, h2⟩ := hstore.1.linkAll htip' (le_of_eq (Nat.add_comm 1 _)) hfew'
    exact ⟨h1, fun hwait => hw (hstore.2 hwait), (hgrows s.mBlocksUnlinked).trans htip h2⟩
  · cases hp : A.parent b with
    | none =>
      rw [hp] at hall
      exact absurd rfl hall
    | some p =>
      rw [hp, Option.all_some, hentry p hp] at hall
      have hpzero : (s.entry p).nChainTx = 0 := by
        by_contra hne
        exact hall (haveNumChainTxs_iff.2 hne)
      dsimp only
      rw [hentry p hp]
      split_ifs with hvalid
      · obtain ⟨h1, hw⟩ := h.store hb pos (nil_sublist _) nofun (nodup_singleton (p, b))
          (by simp [hp, hpzero]) (.inr ⟨p, hp, .inl (mem_singleton_self _)⟩)
        exact ⟨h1, hw, hgrows _⟩
      · have hfailed : (s.entry p).failed = true := by
          by_contra hne
          exact hvalid (isValid_iff.2 ⟨Bool.eq_false_of_not_eq_true hne, htree p hp⟩)
        obtain ⟨h1, hw⟩ := h.store hb pos (nil_sublist _) nofun nodup_nil nofun
          (.inr ⟨p, hp, .inr hfailed⟩)
        rw [append_nil] at h1 hw
        exact ⟨h1, hw, hgrows s.mBlocksUnlinked⟩

end State

end KPCoin.Chainstate
