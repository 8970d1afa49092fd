import KPCoin.Chainstate.Basic

/-!
# The flags that `InvalidateBlock` leaves

`InvalidateBlock` walks the active chain down to the block.  It gives each block that it
disconnects `BLOCK_FAILED_VALID`, and means to turn that of the block before into
`BLOCK_FAILED_CHILD` once its parent is disconnected.  But it compares the *parent* of the block at
hand with the block before, which is its child, so the correction is never made
(`invalidateTip_spec`): all disconnected blocks keep `BLOCK_FAILED_VALID`.

* `invalidateBlock_oneCulprit_iff` : there is one culprit only if the block is the tip.
-/

namespace KPCoin.Chainstate

open Option Forest

variable {B : Type} {A : Blocks B} {s s' : State B} {b p t : B}

namespace State

/-- The blocks of the chain with the tip `t` that are disconnected with `b`. -/
def Disconnected (A : Blocks B) (b t x : B) : Prop := x ∈ A.path t ∧ b ∈ A.path x

theorem disconnected_parent (hp : A.parent t = some p) (hb : b ∈ A.path p) {x : B} :
    Disconnected A b t x ↔ x = t ∨ Disconnected A b p x := by
  constructor
  · rintro ⟨hx, hbx⟩
    rcases mem_path_iff.1 hx with rfl | ⟨p', hp', hx⟩
    · exact .inl rfl
    · obtain rfl : p = p' := mem_unique hp hp'
      exact .inr ⟨hx, hbx⟩
  · rintro (rfl | ⟨hx, hbx⟩)
    · exact ⟨self_mem_path, mem_path_parent hp hb⟩
    · exact ⟨mem_path_parent hp hx, hbx⟩

theorem disconnected_self {x : B} : Disconnected A b b x ↔ x = b := by
  constructor
  · rintro ⟨h1, h2⟩
    exact eq_of_mem_path h1 h2
  · rintro rfl
    exact ⟨self_mem_path, self_mem_path⟩

variable [DecidableEq B]

instance (b t x : B) : Decidable (Disconnected A b t x) := inferInstanceAs (Decidable (_ ∧ _))

/-- The entries with `BLOCK_FAILED_VALID` set for all disconnected blocks. -/
def failDisconnected (A : Blocks B) (b t : B) (entry : B → Entry) (x : B) : Entry :=
  if Disconnected A b t x then { entry x with failedValid := true } else entry x

/-- The state with the tip `p` and these entries and candidates. -/
def rewound (s : State B) (p : B) (entry : B → Entry) (candidates : List B) : State B :=
  { s with
    entry := entry
    tip := some p
    coinsBestBlock := some p
    setBlockIndexCandidates := candidates }

omit [DecidableEq B] in
theorem rewound_self (ht : s.tip = some t) (hcoins : s.coinsBestBlock = some t) :
    s.rewound t s.entry s.setBlockIndexCandidates = s := by
  cases s
  subst ht hcoins
  rfl

variable {v : Invalidation B} {fuel : ℕ} {q : B}

/-- One pass marks the tip, and leaves the block before as it is. -/
theorem invalidateTip_spec (ht : v.state.tip = some t)
    (hp : A.parent t = some p) (hcoins : v.state.coinsBestBlock = some t)
    (hflags : ∀ x ∈ A.path t, (v.state.entry x).failedValid = false) :
    ∃ cs byWork, invalidateTip A v =
        some ⟨v.state.rewound p (v.state.setFailedValid t).entry cs, t, byWork⟩ ∧
          byWork ⊆ v.candidateBlocksByWork ∧
      ∀ c, c ∈ cs ↔ (c ∈ v.candidateBlocksByWork ∧ A.nChainWork p ≤ A.nChainWork c ∧
        v.state.less A c p = false) ∨ c = p ∨ c ∈ v.state.setBlockIndexCandidates ∧ c ≠ t := by
  have hpt : p ≠ t := fun h => not_mem_path_parent hp (h ▸ self_mem_path)
  set s0 : State B := { v.state with tip := some p, coinsBestBlock := some p } with hs0
  set s1 : State B := ((s0.setFailedValid t).eraseCandidate t).insertCandidate p with hs1
  -- the block before is the parent of this one only if it is not flagged
  have hentry : s1.entry = (v.state.setFailedValid t).entry := rfl
  have hcorrect : s1.correctFlags v.toMarkFailed p = s1 := by
    refine if_neg ?_
    rintro ⟨heq, h⟩
    rw [← heq, hentry, setFailedValid, modify_entry_of_ne hpt, hflags _ (parent_mem_path hp)] at h
    cases h
  have hseq : ∀ c, (s1.entry c).nSequenceId = (v.state.entry c).nSequenceId := by
    rw [hentry]
    exact modify_entry_frame Entry.nSequenceId rfl
  have hless : ∀ c, s1.less A c p = v.state.less A c p := fun c => less_congr (hseq c) (hseq p)
  set found := v.candidateBlocksByWork.filter fun c =>
    A.nChainWork p ≤ A.nChainWork c && !s1.less A c p with hfound
  obtain ⟨cs, hcs, hmem⟩ := foldl_insertCandidate found s1
  refine ⟨cs, v.candidateBlocksByWork.filter (· ∉ found), ?_, List.filter_subset_self ..,
    fun c => ?_⟩
  · have htip : s0.tip = some p := rfl
    simp only [invalidateTip, ht, disconnectTip_eq_some ht hp hcoins, bind_eq_bind,
      bind_some, ← hs0, htip, ← hs1, hcorrect, ← hfound, hcs]
    rfl
  · rw [hmem, List.mem_filter, mem_insertCandidate]
    simp [hless, setFailedValid, modify, hs0]

theorem invalidateLoop_of_mem (h : b ∈ v.state.chain A) :
    invalidateLoop A b (fuel + 1) v = (invalidateTip A v).bind (invalidateLoop A b fuel) := by
  rw [invalidateLoop, if_pos h]
  rfl

theorem invalidateLoop_of_not_mem (h : b ∉ v.state.chain A) :
    invalidateLoop A b (fuel + 1) v = some v := by
  rw [invalidateLoop, if_neg h]

/-- The loop disconnects down to the block, and marks all that it disconnects. -/
theorem invalidateLoop_spec (hq : A.parent b = some q)
    (ht : v.state.tip = some t) (hcoins : v.state.coinsBestBlock = some t)
    (hflags : ∀ x ∈ A.path t, (v.state.entry x).failedValid = false) (hb : b ∈ A.path t)
    (hfuel : A.height t + 2 ≤ fuel + A.height b) :
    ∃ cs byWork, invalidateLoop A b fuel v =
        some ⟨v.state.rewound q (failDisconnected A b t v.state.entry) cs, b, byWork⟩ ∧ q ∈ cs ∧
      ∀ c ∈ cs, c = q ∨ c ∈ v.state.setBlockIndexCandidates ∧ ¬ Disconnected A b t c ∨
        c ∈ v.candidateBlocksByWork ∧ v.state.less A c q = false := by
  induction t using A.induction generalizing fuel v with
  | step t ih =>
  have hheight := height_le hb
  obtain ⟨fuel, rfl⟩ : ∃ n, fuel = n + 1 := ⟨fuel - 1, by omega⟩
  have hin : b ∈ v.state.chain A := by rwa [chain_eq ht]
  rcases mem_path_iff.1 hb with rfl | ⟨p, hp, hbp⟩
  · -- the last pass
    obtain ⟨cs, byWork, hpass, -, hcs⟩ := invalidateTip_spec ht hq hcoins hflags
    refine ⟨cs, byWork, ?_, (hcs q).2 (.inr (.inl rfl)), fun c hc => ?_⟩
    · obtain ⟨fuel, rfl⟩ : ∃ n, fuel = n + 1 := ⟨fuel - 1, by omega⟩
      rw [invalidateLoop_of_mem hin, hpass, bind_some, invalidateLoop_of_not_mem]
      · have hentry : (v.state.setFailedValid b).entry = failDisconnected A b b v.state.entry := by
          funext x
          unfold failDisconnected setFailedValid
          by_cases hx : x = b
          · rw [if_pos (disconnected_self.2 hx), hx, modify_entry_self]
          · rw [if_neg (mt disconnected_self.1 hx), modify_entry_of_ne hx]
        rw [hentry]
      · exact not_mem_path_parent hq
    · rw [disconnected_self]
      rcases (hcs c).1 hc with ⟨h1, -, h2⟩ | h | h
      · exact .inr (.inr ⟨h1, h2⟩)
      · exact .inl h
      · exact .inr (.inl h)
  · have htp : t ∉ A.path p := not_mem_path_parent hp
    have hne : ∀ x ∈ A.path p, x ≠ t := fun x hx h => htp (h ▸ hx)
    have hqp : v.state.less A q p = true :=
      less_of_mem_path (mem_path_trans (parent_mem_path hq) hbp)
        fun h => not_mem_path_parent hq (h ▸ hbp)
    obtain ⟨cs, byWork, hpass, hsub, hcs⟩ := invalidateTip_spec ht hp hcoins hflags
    have hheight' := A.height_parent hp
    obtain ⟨cs', byWork', hloop, hqcs, hmem⟩ := ih p hp
      (v := ⟨v.state.rewound p (v.state.setFailedValid t).entry cs, t, byWork⟩) rfl rfl
      (fun x hx => by
        show ((v.state.setFailedValid t).entry x).failedValid = false
        rw [setFailedValid, modify_entry_of_ne (hne x hx)]
        exact hflags x (mem_path_parent hp hx)) hbp
      (by omega : A.height p + 2 ≤ fuel + A.height b)
    refine ⟨cs', byWork', ?_, hqcs, fun c hc => ?_⟩
    · rw [invalidateLoop_of_mem hin, hpass, bind_some, hloop]
      have hentry : failDisconnected A b p (v.state.setFailedValid t).entry =
          failDisconnected A b t v.state.entry := by
        funext x
        unfold failDisconnected setFailedValid
        by_cases hx : x = t
        · subst hx
          rw [if_neg fun h => htp h.1, if_pos ((disconnected_parent hp hbp).2 (.inl rfl)),
            modify_entry_self]
        · rw [modify_entry_of_ne hx]
          simp [disconnected_parent hp hbp, hx]
      rw [← hentry]
      rfl
    · have hseq : ∀ x, ((v.state.setFailedValid t).entry x).nSequenceId =
          (v.state.entry x).nSequenceId := modify_entry_frame Entry.nSequenceId rfl
      have hless : (v.state.rewound p (v.state.setFailedValid t).entry cs).less A c q =
          v.state.less A c q := less_congr (hseq c) (hseq q)
      rcases hmem c hc with h | ⟨h, hdis⟩ | ⟨h1, h2⟩
      · exact .inl h
      · rcases (hcs c).1 h with ⟨h1, -, h2⟩ | rfl | ⟨h1, h2⟩
        · exact .inr (.inr ⟨h1, not_less_trans (not_less_of_less hqp) h2⟩)
        · exact absurd ⟨self_mem_path, hbp⟩ hdis
        · exact .inr (.inl ⟨h1, fun hd => ((disconnected_parent hp hbp).1 hd).elim h2 hdis⟩)
      · exact .inr (.inr ⟨hsub h1, hless ▸ h2⟩)

/-- What `InvalidateBlock` does with a block whose parent is `q`. -/
structure Invalidates (A : Blocks B) (b q : B) (s s' : State B) : Prop where
  index : s'.index = s.index
  unlinked : s'.mBlocksUnlinked = s.mBlocksUnlinked
  failed : ∀ x, x ∈ s'.mFailedBlocks ↔ x = b ∨ x ∈ s.mFailedBlocks
  entry : ∀ x, s'.entry x = if x = b ∨ x ∈ s.chain A ∧ b ∈ A.path x then
    { s.entry x with failedValid := true } else s.entry x
  tip : s'.tip = if b ∈ s.chain A then some q else s.tip
  coins : s'.coinsBestBlock = s'.tip
  tip_mem : ∀ c, s'.tip = some c → (b ∉ s.chain A → c ∈ s.setBlockIndexCandidates) →
    c ∈ s'.setBlockIndexCandidates
  complete : ∀ c ∈ s.index, s'.connectable c = true → s'.belowTip A c = false →
    c ∈ s'.setBlockIndexCandidates
  sound : ∀ c ∈ s'.setBlockIndexCandidates, s'.tip = some c ∨ c ∈ s.setBlockIndexCandidates ∨
    c ∈ s.index ∧ s.connectable c = true ∧ s'.belowTip A c = false

theorem markInvalid_spec (s : State B) (b : B) :
    ∃ cs i, s.markInvalid A b = { (s.setFailedValid b).insertFailed b with
        setBlockIndexCandidates := cs
        mBestInvalid := i
        mBestHeader :=
          if s.mBestHeader.any fun h => b ∈ A.path h then s.tip else s.mBestHeader } ∧
      ∀ c, c ∈ cs ↔ (c ∈ s.index ∧ (s.markInvalid A b).connectable c = true ∧
        (s.markInvalid A b).belowTip A c = false) ∨ c ∈ s.setBlockIndexCandidates ∧ c ≠ b := by
  set s1 := ((s.setFailedValid b).eraseCandidate b).insertFailed b with hs1
  obtain ⟨cs, hcs, hmem⟩ := foldl_insertCandidate
    (s1.index.filter fun c => s1.connectable c && !s1.belowTip A c) s1
  obtain ⟨i, hi⟩ := invalidChainFound_eq (A := A) { s1 with setBlockIndexCandidates := cs } b
  have hmark : s.markInvalid A b = _ := (congrArg (invalidChainFound A · b) hcs).trans hi
  have herase : ∀ c, c ∈ s1.setBlockIndexCandidates ↔ c ∈ s.setBlockIndexCandidates ∧ c ≠ b :=
    fun c => mem_eraseCandidate
  refine ⟨cs, i, hmark, fun c => ?_⟩
  rw [hmem, List.mem_filter, Bool.and_eq_true, Bool.not_eq_true', herase, hmark]
  rfl

section

variable (hq : A.parent b = some q) (ht : s.tip = some t) (hcoins : s.coinsBestBlock = some t)
  (hflags : ∀ x ∈ A.path t, (s.entry x).failedValid = false)
include hq ht hcoins hflags

/-- The state after the loop, whether the block is on the active chain or not. -/
theorem invalidateLoop_cases (byWork : List B) :
    ∃ r entry cs w, invalidateLoop A b ((s.chain A).length + 1) ⟨s, b, byWork⟩ =
        some ⟨s.rewound r entry cs, b, w⟩ ∧
      (r = if b ∈ s.chain A then q else t) ∧
      (∀ x, entry x = if x ∈ s.chain A ∧ b ∈ A.path x then
        { s.entry x with failedValid := true } else s.entry x) ∧
      ((b ∉ s.chain A → r ∈ s.setBlockIndexCandidates) → r ∈ cs) ∧
      ∀ c ∈ cs, c = r ∨ c ∈ s.setBlockIndexCandidates ∨ c ∈ byWork ∧ s.less A c r = false := by
  rw [chain_eq ht]
  by_cases hb : b ∈ A.path t
  · have hheight : A.height t + 2 ≤ (A.path t).length + 1 + A.height b := by
      have := height_lt_length hb
      omega
    obtain ⟨cs, w, hloop, hqcs, hcs⟩ :=
      invalidateLoop_spec (v := ⟨s, b, byWork⟩) hq ht hcoins hflags hb hheight
    refine ⟨q, _, cs, w, hloop, (if_pos hb).symm, fun x => rfl, fun _ => hqcs, fun c hc => ?_⟩
    exact (hcs c hc).imp id (Or.imp And.left id)
  · refine ⟨t, s.entry, s.setBlockIndexCandidates, byWork, ?_, (if_neg hb).symm, fun x => ?_,
      fun h => h hb, fun c hc => .inr (.inl hc)⟩
    · rw [invalidateLoop_of_not_mem (by rwa [chain_eq ht]), rewound_self ht hcoins]
    · rw [if_neg fun h => hb (mem_path_trans h.2 h.1)]

theorem invalidateBlock_spec :
    ∃ s', s.invalidateBlock A b = some (s', true) ∧ Invalidates A b q s s' ∧ s'.mBestHeader =
      if s.mBestHeader.any fun h => b ∈ A.path h then s'.tip else s.mBestHeader := by
  obtain ⟨r, entry, cs, w, hloop, hr, hentry, hrcs, hcs⟩ := invalidateLoop_cases hq ht hcoins hflags
    (s.index.filter fun c => c ∉ s.chain A && !s.less A c q && s.connectable c)
  set s1 := s.rewound r entry cs with hs1
  have hb : b ∉ s1.chain A := by
    show b ∉ A.path r
    rw [hr]
    split_ifs with h
    · exact not_mem_path_parent hq
    · rwa [chain_eq ht] at h
  obtain ⟨cs', i, hmark, hcs'⟩ := markInvalid_spec (A := A) s1 b
  have hrun : s.invalidateBlock A b = some (s1.markInvalid A b, true) := by
    simp only [invalidateBlock, hq, hloop, bind_eq_bind, bind_some, if_neg hb]
    rfl
  set s2 := s1.markInvalid A b
  have htip : s2.tip = some r := by
    rw [hmark]
    rfl
  have hentry' : ∀ x, s2.entry x = if x = b ∨ x ∈ s.chain A ∧ b ∈ A.path x then
      { s.entry x with failedValid := true } else s.entry x := by
    intro x
    have hs2 : s2.entry = (s1.setFailedValid b).entry := by
      rw [hmark]
      rfl
    rw [hs2, setFailedValid]
    by_cases hx : x = b
    · subst hx
      rw [modify_entry_self, if_pos (.inl rfl)]
      show { entry x with failedValid := true } = _
      rw [hentry]
      split_ifs <;> rfl
    · rw [modify_entry_of_ne hx]
      show entry x = _
      rw [hentry]
      simp [hx]
  have hconn : ∀ c, s2.connectable c = true → s.connectable c = true := by
    intro c hc
    unfold connectable at hc ⊢
    rw [hentry' c] at hc
    split_ifs at hc
    · cases hc
    · exact hc
  have hless : ∀ c, s2.belowTip A c = s.less A c r := by
    intro c
    have hseq : ∀ x, (s2.entry x).nSequenceId = (s.entry x).nSequenceId := by
      intro x
      rw [hentry']
      split_ifs <;> rfl
    rw [belowTip_eq htip, less_congr (hseq c) (hseq r)]
  have hcands : ∀ c, c ∈ s2.setBlockIndexCandidates ↔ c ∈ cs' := by simp [hmark]
  refine ⟨s2, hrun, ⟨by rw [hmark]; rfl, by rw [hmark]; rfl, fun x => ?_, hentry',
    ?_, by rw [hmark]; rfl, fun c hc h => ?_, fun c hc h1 h2 => ?_,
    fun c hc => ?_⟩, by rw [hmark]; rfl⟩
  · rw [hmark]
    exact mem_insertFailed
  · rw [htip, hr, ht]
    split_ifs <;> rfl
  · obtain rfl : r = c := mem_unique htip hc
    rw [hcands, hcs']
    refine .inr ⟨hrcs h, ?_⟩
    rintro rfl
    exact hb self_mem_path
  · rw [hcands, hcs']
    exact .inl ⟨hc, h1, h2⟩
  · rw [hcands, hcs'] at hc
    rcases hc with ⟨h1, h2, h3⟩ | ⟨hc, -⟩
    · exact .inr (.inr ⟨h1, hconn c h2, h3⟩)
    · rcases hcs c hc with rfl | h | ⟨h1, h2⟩
      · exact .inl htip
      · exact .inr (.inl h)
      · obtain ⟨h1, h3⟩ := List.mem_filter.1 h1
        exact .inr (.inr ⟨h1, (Bool.and_eq_true_iff.1 h3).2, (hless c).trans h2⟩)

end

end State

/-- One block is to blame: the tip is its parent, and of the blocks that have been disconnected it
alone carries `BLOCK_FAILED_VALID`, the others `BLOCK_FAILED_CHILD`. -/
structure OneCulprit (A : Blocks B) (b : B) (s s' : State B) : Prop where
  tip : s'.tip = A.parent b
  culprit : (s'.entry b).failedValid = true
  children : ∀ x ∈ s.chain A, b ∈ A.path x → x ≠ b →
    (s'.entry x).failedChild = true ∧ (s'.entry x).failedValid = false

/-- **`InvalidateBlock` blames all blocks it disconnects.**  For a block of an active chain without
failure flags it returns true with the parent as the tip, and every block from there to the old tip
carries `BLOCK_FAILED_VALID` and not `BLOCK_FAILED_CHILD`; so there is one culprit if and only if
the block was the tip. -/
theorem invalidateBlock_oneCulprit_iff [DecidableEq B] (A : Blocks B) (s : State B) (b : B)
    (hb : b ∈ s.chain A) (hgenesis : b ≠ A.genesis) (hcoins : s.coinsBestBlock = s.tip)
    (hflags : ∀ x ∈ s.chain A, (s.entry x).failed = false) :
    ∃ s', s.invalidateBlock A b = some (s', true) ∧ s'.tip = A.parent b ∧
      (∀ x ∈ s.chain A, b ∈ A.path x →
        (s'.entry x).failedValid = true ∧ (s'.entry x).failedChild = false) ∧
      (OneCulprit A b s s' ↔ s.tip = some b) := by
  obtain ⟨t, ht, hbt⟩ := State.mem_chain.1 hb
  obtain ⟨q, hq⟩ : ∃ q, A.parent b = some q :=
    ne_none_iff_exists'.1 fun h => hgenesis (A.parent_eq_none.1 h)
  have hflags' : ∀ x ∈ A.path t, (s.entry x).failedValid = false := fun x hx =>
    (Entry.failed_eq_false.1 (hflags x (State.mem_chain.2 ⟨t, ht, hx⟩))).1
  obtain ⟨s', hinv, h, -⟩ := State.invalidateBlock_spec hq ht (hcoins.trans ht) hflags'
  have htip : s'.tip = A.parent b := by rw [h.tip, if_pos hb, hq]
  have hmarked : ∀ x ∈ s.chain A, b ∈ A.path x →
      (s'.entry x).failedValid = true ∧ (s'.entry x).failedChild = false := by
    intro x hx hbx
    rw [h.entry x, if_pos (.inr ⟨hx, hbx⟩)]
    exact ⟨rfl, (Entry.failed_eq_false.1 (hflags x hx)).2⟩
  refine ⟨s', hinv, htip, hmarked, fun hone => ?_, fun htb => ?_⟩
  · -- the tip is disconnected, so it is the culprit
    by_contra hne
    have hlast := hone.children t (State.mem_chain.2 ⟨t, ht, self_mem_path⟩) hbt
      fun h => hne (h ▸ ht)
    rw [(hmarked t (State.mem_chain.2 ⟨t, ht, self_mem_path⟩) hbt).1] at hlast
    cases hlast.2
  · refine ⟨htip, (hmarked b hb self_mem_path).1, fun x hx hbx hxb => ?_⟩
    obtain rfl : t = b := mem_unique ht htb
    rw [State.chain_eq ht] at hx
    exact absurd (eq_of_mem_path hx hbx) hxb

/-- An active chain with the blocks 0, 1 and 3. -/
def threeBlocks : State ℕ where
  index := [0, 1, 3]
  entry b :=
    { nTx := 1, nChainTx := .ofNat 32 ((b + 1).log2 + 1), validity := .scripts, haveData := true }
  setBlockIndexCandidates := [3]
  tip := some 3
  coinsBestBlock := some 3

theorem invalidateBlock_oneCulprit_tip : ∃ s',
    threeBlocks.invalidateBlock (heapBlocks fun _ => true) 3 = some (s', true) ∧
      OneCulprit (heapBlocks fun _ => true) 3 threeBlocks s' := by
  obtain ⟨s', hinv, -, -, hiff⟩ := invalidateBlock_oneCulprit_iff (heapBlocks fun _ => true)
    threeBlocks 3 (by decide +kernel) (by decide) rfl (fun _ _ => rfl)
  exact ⟨s', hinv, hiff.2 rfl⟩

/-- Invalidating the block 1 leaves `BLOCK_FAILED_VALID` on its child, too. -/
theorem invalidateBlock_two_culprits : ∃ s',
    threeBlocks.invalidateBlock (heapBlocks fun _ => true) 1 = some (s', true) ∧
      ¬ OneCulprit (heapBlocks fun _ => true) 1 threeBlocks s' := by
  have hrun : (threeBlocks.invalidateBlock (heapBlocks fun _ => true) 1).map (fun r =>
      (r.2, (r.1.entry 3).failedValid)) = some (true, true) := by decide +kernel
  obtain ⟨⟨s', ok⟩, hinv, h⟩ := map_eq_some_iff.1 hrun
  obtain ⟨rfl, hvalid⟩ := Prod.mk.inj h
  refine ⟨s', hinv, fun hone => ?_⟩
  have := (hone.children 3 (by decide +kernel) (by decide +kernel) (by decide)).2
  rw [hvalid] at this
  cases this

end KPCoin.Chainstate
