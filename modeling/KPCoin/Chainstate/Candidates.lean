import KPCoin.Chainstate.Calls

/-!
# The candidate set

`Maintained A s` is an invariant that gives `CandidatesComplete`, the invariant that
`CheckBlockIndex` asserts: a linked block without flags that does not sort below the tip is a
candidate, and a block with data that is not linked waits for its parent unless that has failed.

All calls keep it but two (`KeepsCandidates`).  `ResetBlockFailureFlags` clears the flags of
ancestors without making them candidates or clearing those of the branches above them, and blocks
that arrived while a parent had failed are not waiting for it.  `PreciousBlock` for the tip itself
gives it a new sequence id, which may be a lower rank.

* `candidates_complete` : in runs of such calls the candidate set is complete.
-/

namespace KPCoin.Chainstate

open Option State Forest Entry

variable {B : Type} [DecidableEq B] {A : Blocks B} {s s' : State B} {a b c p t : B}

/-- The invariant. -/
structure Maintained (A : Blocks B) (s : State B) : Prop where
  waiting : s.Waiting A []
  child : ChildFlags A s
  tip : ∀ t, s.tip = some t → t ∈ s.setBlockIndexCandidates
  above : ∀ c ∈ s.setBlockIndexCandidates, s.belowTip A c = false
  full : ∀ c, (s.entry c).nChainTx ≠ 0 → (s.entry c).failed = false → s.belowTip A c = false →
    c ∈ s.setBlockIndexCandidates

/-- The flagged ancestors of the block are no candidates only because they cannot be. -/
def AncestorsCovered (A : Blocks B) (s : State B) (b : B) : Prop :=
  ∀ a ∈ A.path b, a ≠ b → (s.entry a).failed = true → (s.entry a).nChainTx ≠ 0 →
    s.belowTip A a = true ∨ a ∈ s.setBlockIndexCandidates

/-- The flags on the other branches have a reason there. -/
def BranchesCovered (A : Blocks B) (s : State B) (b : B) : Prop :=
  ∀ c ∈ s.index, (s.entry c).failedChild = true → ¬ State.InLine A b c →
    ∃ a ∈ A.path c, a ≠ c ∧ (s.entry a).failedValid = true ∧ ¬ State.InLine A b a

/-- No block has arrived while its parent in this line had failed. -/
def ArrivalsCovered (A : Blocks B) (s : State B) (b : B) : Prop :=
  ∀ c ∈ s.index, (s.entry c).haveData = true → (s.entry c).nChainTx = 0 → ∀ p ∈ A.parent c,
    State.InLine A b p → (p, c) ∈ s.mBlocksUnlinked ∨ (s.entry p).failed = false

/-- With its new sequence id the tip has no block above it that is no candidate. -/
def TipCovered (A : Blocks B) (s : State B) (b : B) : Prop :=
  s.tip = some b → ∀ c ∈ s.index, s.connectable c = true →
    A.comparator.less (s.key A c) { s.key A b with nSequenceId := s.preciousId A b } = false →
      c ∈ s.setBlockIndexCandidates ∨ c = b

/-- The condition on a call: what it takes away from the flags or the rank of the tip is covered. -/
def KeepsCandidates (A : Blocks B) (s : State B) : Call B → Prop
  | .reset b => AncestorsCovered A s b ∧ BranchesCovered A s b ∧ ArrivalsCovered A s b
  | .precious b => TipCovered A s b
  | _ => True

namespace Maintained

section

omit [DecidableEq B]

section

variable (h : Maintained A s)
include h

/-- The blocks that wait are the same as long as no failure flag is cleared. -/
theorem waiting_mono (hsame : State.SameBlocks s s')
    (hmono : ∀ c, (s.entry c).failed = true → (s'.entry c).failed = true) : s'.Waiting A [] := by
  intro c hc hzero
  rw [hsame.haveData] at hc
  rw [hsame.nChainTx] at hzero
  rw [hsame.unlinked]
  exact (h.waiting c hc hzero).imp id fun ⟨p, hp, hw⟩ => ⟨p, hp, hw.imp id (hmono p)⟩

/-- A block with data whose ancestors are linked and have not failed is linked. -/
theorem linked (hs : s.Sound A) (hb : Clean A s b) : (s.entry b).nChainTx ≠ 0 := by
  induction b using A.induction with
  | step b ih =>
    intro hzero
    rcases h.waiting b (hb b self_mem_path).1 hzero with hq | ⟨p, hp, hpair | hfailed⟩
    · cases hq
    · exact ih p hp (fun a ha => hb a (mem_path_parent hp ha)) (hs.linking.pair p b hpair).2.2.2
    · rw [hb.not_failed h.child (parent_mem_path hp)] at hfailed
      cases hfailed

theorem complete (hs : s.Sound A) : CandidatesComplete A s where
  tip := h.tip
  complete b hb hbelow := h.full b (h.linked hs hb) (hb.not_failed h.child self_mem_path) hbelow
  above := h.above
  child := h.child

theorem of_flags (hsame : State.SameBlocks s s')
    (hseq : ∀ c, (s'.entry c).nSequenceId = (s.entry c).nSequenceId)
    (hvalid : ∀ c, (s.entry c).failedValid = true → (s'.entry c).failedValid = true)
    (hmono : ∀ c, (s.entry c).failed = true → (s'.entry c).failed = true)
    (hchild : ∀ c, (s'.entry c).failedChild = true → (s.entry c).failedChild = true ∨
      ∃ a ∈ A.path c, a ≠ c ∧ (s'.entry a).failedValid = true)
    (htip : s'.tip = s.tip) (hcands : s'.setBlockIndexCandidates = s.setBlockIndexCandidates) :
    Maintained A s' := by
  have hbelow : ∀ c, s'.belowTip A c = s.belowTip A c := fun c =>
    belowTip_congr htip fun x _ => hseq x
  refine ⟨h.waiting_mono hsame hmono, fun c hc => ?_, fun t ht => ?_, fun c hc => ?_,
    fun c h1 h2 h3 => ?_⟩
  · rcases hchild c hc with hold | hnew
    · obtain ⟨a, ha, hne, hav⟩ := h.child c hold
      exact ⟨a, ha, hne, hvalid a hav⟩
    · exact hnew
  · rw [hcands]
    exact h.tip t (htip ▸ ht)
  · rw [hbelow]
    exact h.above c (hcands ▸ hc)
  · rw [hsame.nChainTx] at h1
    rw [hbelow] at h3
    rw [hcands]
    exact h.full c h1 (Bool.eq_false_iff.2 (mt (hmono c) (Bool.eq_false_iff.1 h2))) h3

end

end

variable (h : Maintained A s) (hs : s.Sound A)
include h hs

theorem add (hnew : b ∉ s.index) : Maintained A (s.addToBlockIndex A b) := by
  have hself := addToBlockIndex_entry_self (A := A) hnew
  have hother : ∀ c, c ≠ b → (s.addToBlockIndex A b).entry c = s.entry c :=
    fun c hc => addToBlockIndex_entry_of_ne hc
  have hframe := addToBlockIndex_frame (A := A) hnew
  have hbelow : ∀ c, (s.entry c).nChainTx ≠ 0 →
      (s.addToBlockIndex A b).belowTip A c = s.belowTip A c := by
    intro c hc
    refine belowTip_congr (by rw [hframe]) fun x hx => ?_
    have hx : (s.entry x).nChainTx ≠ 0 := by
      rcases hx with rfl | hx
      · exact hc
      · exact (hs.chain_usable (mem_chain.2 ⟨x, hx, self_mem_path⟩) x self_mem_path).1
    rw [hs.entry_of_linked hnew hx]
  refine ⟨fun c hc hzero => ?_, fun c hc => ?_, fun t ht => ?_, fun c hc => ?_,
    fun c h1 h2 h3 => ?_⟩
  · have hcb : c ≠ b := by
      rintro rfl
      rw [hself, A.newEntry_haveData] at hc
      cases hc
    rw [hother c hcb] at hc hzero
    rcases h.waiting c hc hzero with hq | ⟨p, hp, hw⟩
    · cases hq
    · have hpb : p ≠ b := by
        rintro rfl
        exact hnew (hs.closed c (hs.data c hc).1 p hp)
      refine .inr ⟨p, hp, ?_⟩
      rw [hother p hpb, hframe]
      exact hw
  · have hcb : c ≠ b := by
      rintro rfl
      rw [hself, (failed_eq_false.1 A.newEntry_failed).2] at hc
      cases hc
    rw [hother c hcb] at hc
    obtain ⟨a, ha, hne, hav⟩ := h.child c hc
    have hab : a ≠ b := by
      rintro rfl
      refine hnew (hs.flagged a ?_)
      rw [failed, hav, Bool.true_or]
    exact ⟨a, ha, hne, by rwa [hother a hab]⟩
  · rw [hframe] at ht ⊢
    exact h.tip t ht
  · rw [hframe] at hc
    rw [hbelow c (hs.candidates c hc)]
    exact h.above c hc
  · have hcb : c ≠ b := by
      rintro rfl
      rw [hself] at h1
      exact h1 A.newEntry_nChainTx
    rw [hother c hcb] at h1 h2
    rw [hbelow c h1] at h3
    rw [hframe]
    exact h.full c h1 h2 h3

theorem header {r : Bool} (ho : s.HeaderOutcome A b s' r) : Maintained A s' := by
  cases ho with
  | unchanged => exact h
  | @rejected p f hp hmem hf hfp =>
    have htouch :
        State.Touches _ s { s with entry := s.flagChildren ((A.path p).takeWhile (· ≠ f)) } :=
      touches_flagChildren rfl
    have hvalid := htouch.frame failedValid
    refine h.of_flags (htouch.same rfl rfl)
      (htouch.frame _) (fun c hc => (hvalid c).trans hc)
      (htouch.keeps (Q := (·.failed = true)) fun _ _ => Bool.or_true _) (fun c hc => ?_) rfl rfl
    · by_cases hcl : c ∈ (A.path p).takeWhile (· ≠ f)
      · obtain ⟨-, -, hfc, hne⟩ := State.HeaderOutcome.flagged_spec hs hmem hf hfp hcl
        exact .inr ⟨f, hfc, hne, (hvalid f).trans (hs.failed f hf)⟩
      · have hc : (s.flagChildren ((A.path p).takeWhile (· ≠ f)) c).failedChild = true := hc
        rw [flagChildren_of_not_mem hcl] at hc
        exact .inl hc
  | added hp hnew => exact h.add hs hnew

theorem received (hfew : s.FewTx A) (hmem : b ∈ s.index) (hfailed : (s.entry b).failed = false)
    (hdata : (s.entry b).haveData = false) (pos : FilePos) :
    Maintained A (s.receivedBlockTransactions A b pos) := by
  obtain ⟨harr, -, hwaiting, hgrows⟩ := hs.arrives hfew hmem hfailed hdata pos
  obtain ⟨t, ht, -, husable, -⟩ := hs.tip
  set s' := s.receivedBlockTransactions A b pos with hs'
  have hbelow : ∀ c, (s.entry c).nChainTx ≠ 0 → s'.belowTip A c = s.belowTip A c := by
    intro c hc
    refine belowTip_congr harr.tip fun x hx => ?_
    rcases hx with rfl | hx
    · rw [hgrows.linked hc]
    · obtain rfl : t = x := mem_unique ht hx
      rw [hgrows.linked (husable t self_mem_path).1]
  refine ⟨hwaiting h.waiting, h.child.mono (fun c hc => by rwa [harr.failedChild] at hc)
    (fun c hc => by rwa [harr.failedValid]), fun t ht => ?_, fun c hc => ?_, fun c h1 h2 h3 => ?_⟩
  · rw [harr.tip] at ht
    exact (hgrows.candidates t).2 (.inl (h.tip t ht))
  · rcases (hgrows.candidates c).1 hc with hc | ⟨-, hc⟩
    · rw [hbelow c (hs.candidates c hc)]
      exact h.above c hc
    · exact hc
  · rw [harr.failed_eq] at h2
    by_cases hc : (s.entry c).nChainTx = 0
    · exact (hgrows.candidates c).2 (.inr ⟨⟨hc, h1⟩, h3⟩)
    · rw [hbelow c hc] at h3
      exact (hgrows.candidates c).2 (.inl (h.full c hc h2 h3))

theorem block {body : State.BodyCheck} {pos : FilePos} (hfew : s'.FewTx A)
    (ho : s.BlockOutcome A b body pos s') :
    Maintained A s' := by
  cases ho with
  | header hout => exact h.header hs hout
  | stored hout hmem hfailed hdata =>
    exact (h.header hs hout).received (hout.sound hs) ((fewTx_received hdata pos).1 hfew)
      hmem hfailed hdata pos
  | @invalid s1 hout hmem hfailed hdata hbody =>
    have htouch := touches_setFailedValid s1 b
    have hchild := htouch.frame failedChild
    exact (h.header hs hout).of_flags (htouch.same rfl rfl)
      (htouch.frame _) (htouch.keeps (Q := (·.failedValid = true)) fun _ _ => rfl)
      (htouch.keeps (Q := (·.failed = true)) fun _ _ => rfl)
      (fun c hc => .inl ((hchild c).symm.trans hc)) rfl rfl

theorem activate {fuel : ℕ} (hrun : s.activateBestChain A fuel = some s') : Maintained A s' := by
  obtain ⟨t, ht, -, husable, hconnects⟩ := hs.tip
  have hbase : s.Baseline A (fun c => (s.entry c).nChainTx ≠ 0) t := by
    refine ⟨husable, hconnects, fun r hr => ?_, h.tip t ht, fun c hc => ?_,
      fun c hc => (hc c self_mem_path).1, fun c h1 h2 h3 => h.full c h1 h2 ?_⟩
    · obtain rfl : t = r := mem_unique ht hr
      exact less_irrefl ..
    · rw [← belowTip_eq ht]
      exact h.above c hc
    · rwa [belowTip_eq ht]
  have hstart : s.InProgress A (fun c => (s.entry c).nChainTx ≠ 0) True := ⟨hs, fun _ => ⟨t, hbase⟩⟩
  obtain ⟨hact, -, hbest⟩ := (activateBestChain_spec hstart).2 fuel s' hrun
  obtain ⟨t', ht', hbase', -⟩ := hbest trivial
  refine ⟨h.waiting_mono hact.same fun c => hact.failed_mono, hact.childFlags h.child,
    fun r hr => ?_, fun c hc => ?_, fun c h1 h2 h3 => ?_⟩
  · obtain rfl : t' = r := mem_unique ht' hr
    exact hbase'.mem
  · rw [belowTip_eq ht']
    exact hbase'.above c hc
  · rw [belowTip_eq ht'] at h3
    rw [hact.same.nChainTx] at h1
    exact hbase'.complete c h1 h2 h3

theorem invalidate {q : B} (hs' : s'.Sound A) (hi : s.Invalidates A b q s')
    (hq : A.parent b = some q) : Maintained A s' := by
  obtain ⟨t, ht, -⟩ := hs.tip
  obtain ⟨r, hr, -⟩ := hs'.tip
  have hchild := hi.touches.frame failedChild
  have hseq := hi.touches.frame nSequenceId
  have hless : ∀ a c, s'.less A a c = s.less A a c := fun a c => less_congr (hseq a) (hseq c)
  -- the new tip does not sort above the old one
  have hrt : s.less A t r = false := by
    have hr' := hi.tip.symm.trans hr
    split_ifs at hr' with hb
    · obtain rfl : q = r := some.inj hr'
      rw [chain_eq ht] at hb
      refine not_less_of_less (less_of_mem_path (mem_path_trans (parent_mem_path hq) hb) ?_)
      rintro rfl
      exact not_mem_path_parent hq hb
    · obtain rfl : t = r := mem_unique ht hr'
      exact less_irrefl ..
  refine ⟨h.waiting_mono (hi.touches.same hi.index hi.unlinked)
    (hi.touches.keeps (Q := (·.failed = true)) fun _ _ => rfl),
    h.child.mono (fun c hc => (hchild c).symm.trans hc) hi.failedValid, fun x hx => ?_,
    fun c hc => ?_,
    fun c h1 h2 h3 => ?_⟩
  · refine hi.tip_mem x hx fun hb => h.tip x ?_
    rwa [hi.tip, if_neg hb] at hx
  · rcases hi.sound c hc with hc | hc | ⟨-, -, hc⟩
    · rw [belowTip_eq hc]
      exact less_irrefl ..
    · have hct := h.above c hc
      rw [belowTip_eq ht] at hct
      rw [belowTip_eq hr, hless]
      exact not_less_trans hrt hct
    · exact hc
  · refine hi.complete c ?_ (hs'.connectable_iff.2 ⟨h1, h2⟩) h3
    rw [hi.touches.frame nChainTx] at h1
    exact hs.linked_mem h1

theorem reset (hr : s.Resets A b s') (hk : KeepsCandidates A s (.reset b)) : Maintained A s' := by
  obtain ⟨hancestors, hchildren, hwaiting⟩ := hk
  have hbelow : ∀ c, s'.belowTip A c = s.belowTip A c := fun c =>
    belowTip_congr hr.tip fun x _ => hr.touches.frame nSequenceId (fun _ => rfl) x
  obtain ⟨t, ht, -⟩ := hs.tip
  refine ⟨fun c hc hzero => ?_, fun c hc => ?_, fun x hx => ?_, fun c hc => ?_,
    fun c h1 h2 h3 => ?_⟩
  · rw [hr.touches.frame haveData] at hc
    rw [hr.touches.frame nChainTx] at hzero
    rw [hr.unlinked]
    refine (h.waiting c hc hzero).imp id fun ⟨p, hp, hw⟩ => ⟨p, hp, ?_⟩
    rcases hw with hpair | hfailed
    · exact .inl hpair
    · by_cases hline : State.InLine A b p
      · refine .inl ((hwaiting c (hs.data c hc).1 hc hzero p hp hline).resolve_right ?_)
        rw [hfailed]
        decide
      · rw [hr.entry p, if_neg hline]
        exact .inr hfailed
  · have hline : ¬ State.InLine A b c := by
      intro hline
      rw [hr.entry c, if_pos hline] at hc
      cases hc
    rw [hr.entry c, if_neg hline] at hc
    have hmem : c ∈ s.index := hs.flagged c (by rw [failed, hc, Bool.or_true])
    obtain ⟨a, ha, hne, hav, haline⟩ := hchildren c hmem hc hline
    exact ⟨a, ha, hne, by rwa [hr.entry a, if_neg haline]⟩
  · rw [hr.tip] at hx
    exact (hr.candidates x).2 (.inl (h.tip x hx))
  · rw [hbelow]
    rcases (hr.candidates c).1 hc with hc | ⟨-, -, -, habove⟩
    · exact h.above c hc
    · rw [aboveTip_eq ht] at habove
      rw [belowTip_eq ht]
      exact not_less_of_less habove
  · rw [hbelow] at h3
    rw [hr.touches.frame nChainTx] at h1
    rw [hr.candidates]
    by_cases hcf : (s.entry c).failed = true
    · -- the flag has been cleared
      have hline : State.InLine A b c := by
        by_contra hline
        rw [hr.entry c, if_neg hline, hcf] at h2
        cases h2
      by_cases hbc : b ∈ A.path c
      · have hct : c ≠ t := by
          rintro rfl
          have := (hs.chain_usable (mem_chain.2 ⟨c, ht, self_mem_path⟩) c self_mem_path).2
          rw [hcf] at this
          cases this
        rw [belowTip_eq ht] at h3
        refine .inr ⟨hbc, hcf, h1, ?_⟩
        rw [aboveTip_eq ht]
        exact less_of_not_less h3 hct
      · have hcb := hline.resolve_left hbc
        refine .inl ((hancestors c hcb ?_ hcf h1).resolve_left ?_)
        · rintro rfl
          exact hbc self_mem_path
        · rw [h3]
          decide
    · exact .inl (h.full c h1 (Bool.eq_false_of_not_eq_true hcf) h3)

theorem precious (ht : s.tip = some t) (hp : s.Precious A b t s')
    (hk : KeepsCandidates A s (.precious b)) : Maintained A s' := by
  have hchainTx := hp.touches.frame nChainTx
  have hfailed := hp.touches.frame failed
  have ht' : s'.tip = some t := hp.tip.trans ht
  have hother : ∀ c, c ≠ b → s'.entry c = s.entry c := fun c hc => by rw [hp.entry c, if_neg hc]
  -- the order of the other blocks is the same
  have hbelow : t ≠ b → ∀ c, c ≠ b → s'.belowTip A c = s.belowTip A c := by
    intro htb c hcb
    rw [belowTip_eq ht, belowTip_eq ht']
    exact less_congr (by rw [hother c hcb]) (by rw [hother t htb])
  have hwaiting :=
    h.waiting_mono (hp.touches.same hp.index hp.unlinked) fun c hc => (hfailed c).trans hc
  have hchild : ChildFlags A s' := h.child.mono
    (fun c hc => by rwa [hp.touches.frame failedChild] at hc)
    (fun c hc => by rwa [hp.touches.frame failedValid])
  have htconn : s.connectable t = true := hs.connectable_iff.2
    (hs.chain_usable (mem_chain.2 ⟨t, ht, self_mem_path⟩) t self_mem_path)
  rcases hp.candidates with ⟨hconn, hcands⟩ | ⟨hconn, hcands⟩
  · refine ⟨hwaiting, hchild, fun x hx => ?_, fun c hc => ((hcands c).1 hc).2, fun c h1 h2 h3 => ?_⟩
    · obtain rfl : t = x := mem_unique ht' hx
      refine (hcands t).2 ⟨.inl (h.tip t ht), ?_⟩
      rw [belowTip_eq ht']
      exact less_irrefl ..
    · rw [hchainTx] at h1
      rw [hfailed] at h2
      refine (hcands c).2 ⟨?_, h3⟩
      by_cases hcb : c = b
      · exact .inr hcb
      · by_cases htb : t = b
        · subst htb
          refine hk ht c (hs.linked_mem h1) (hs.connectable_iff.2 ⟨h1, h2⟩) ?_
          rw [belowTip_eq ht'] at h3
          unfold State.less State.key at h3
          rw [hother c hcb, hp.entry t, if_pos rfl] at h3
          exact h3
        · rw [hbelow htb c hcb] at h3
          exact .inl (h.full c h1 h2 h3)
  · have htb : t ≠ b := by
      rintro rfl
      rw [htconn] at hconn
      cases hconn
    refine ⟨hwaiting, hchild, fun x hx => ?_, fun c hc => ?_, fun c h1 h2 h3 => ?_⟩
    · obtain rfl : t = x := mem_unique ht' hx
      exact (hcands t).2 ⟨h.tip t ht, htb⟩
    · obtain ⟨hc, hcb⟩ := (hcands c).1 hc
      rw [hbelow htb c hcb]
      exact h.above c hc
    · rw [hchainTx] at h1
      rw [hfailed] at h2
      have hcb : c ≠ b := by
        rintro rfl
        rw [hs.connectable_iff.2 ⟨h1, h2⟩] at hconn
        cases hconn
      rw [hbelow htb c hcb] at h3
      exact (hcands c).2 ⟨h.full c h1 h2 h3, hcb⟩

theorem step {l : Call B} (hfew : s'.FewTx A) (hk : KeepsCandidates A s l) (ho : Outcome A s l s') :
    Maintained A s' := by
  cases ho with
  | idle => exact h
  | header hout => exact h.header hs hout
  | block hout => exact h.block hs hfew hout
  | activate hrun => exact h.activate hs hrun
  | invalidate hb hq hinv => exact h.invalidate hs (hs.invalidates hq hb hinv) hinv hq
  | reset hb hreset => exact h.reset hs hreset hk
  | precious hb ht hprecious hrun =>
    exact (h.precious hs ht hprecious hk).activate (hprecious.sound hs) hrun

end Maintained

omit [DecidableEq B] in
theorem Fresh.maintained (h : Fresh A s) : Maintained A s := by
  refine ⟨fun b hb hzero => ?_, fun b hb => ?_, fun t ht => ?_, fun c hc => ?_, fun c hc _ _ => ?_⟩
  · obtain rfl := h.eq_genesis (P := fun e => e.haveData = true) (by decide) hb
    exact absurd hzero h.genesis_linked
  · obtain rfl := h.eq_genesis (P := fun e => e.failedChild = true) (by decide) hb
    rw [(failed_eq_false.1 h.notFailed).2] at hb
    cases hb
  · obtain rfl : A.genesis = t := mem_unique h.tip ht
    exact (h.candidates _).2 rfl
  · rw [(h.candidates c).1 hc, belowTip_eq h.tip]
    exact less_irrefl ..
  · exact (h.candidates c).2 (h.eq_genesis (P := fun e => e.nChainTx ≠ 0) (by decide) hc)

theorem reachable_maintained (h : ((system A).restrict (KeepsCandidates A)).Reachable s) :
    s.Sound A ∧ Maintained A s := by
  refine LTS.Reachable.invariant (I := fun s => s.Sound A ∧ Maintained A s) h ?_ ?_
  · rintro s ⟨pos, rfl⟩
    exact ⟨(start_fresh A pos).sound, (start_fresh A pos).maintained⟩
  · rintro s l s' ⟨hs, hm⟩ ⟨⟨hfew, fuel, hrun⟩, hk⟩
    have hout := Call.outcome hs hrun
    exact ⟨hout.sound hs hfew, hm.step hs hfew hk hout⟩

/-- **The candidate set is complete** in every state of a run whose calls satisfy
`KeepsCandidates`. -/
theorem candidates_complete (A : Blocks B) (s : State B)
    (h : ((system A).restrict (KeepsCandidates A)).Reachable s) : CandidatesComplete A s := by
  obtain ⟨hs, hm⟩ := reachable_maintained h
  exact hm.complete hs

instance (s : State B) (b : B) : Decidable (AncestorsCovered A s b) :=
  inferInstanceAs (Decidable (∀ a ∈ A.path b, _))

instance (s : State B) (b : B) : Decidable (BranchesCovered A s b) :=
  inferInstanceAs (Decidable (∀ c ∈ s.index, _))

instance (s : State B) (b : B) : Decidable (ArrivalsCovered A s b) :=
  inferInstanceAs (Decidable (∀ c ∈ s.index, _))

instance (s : State B) (b : B) : Decidable (TipCovered A s b) :=
  inferInstanceAs (Decidable (s.tip = some b → ∀ c ∈ s.index, _))

instance (s : State B) : (l : Call B) → Decidable (KeepsCandidates A s l)
  | .reset b => inferInstanceAs (Decidable
    (AncestorsCovered A s b ∧ BranchesCovered A s b ∧ ArrivalsCovered A s b))
  | .precious b => inferInstanceAs (Decidable (TipCovered A s b))
  | .header _ _ => .isTrue trivial
  | .block _ _ _ _ _ => .isTrue trivial
  | .activate => .isTrue trivial
  | .invalidate _ => .isTrue trivial

/-- A run in which block 3 is invalidated and reset, and its sibling made precious. -/
theorem candidates_complete_reset : ∃ s,
    ((system validHeap).restrict (KeepsCandidates validHeap)).Reachable s ∧ s.tip = some 4 ∧
      CandidatesComplete validHeap s := by
  have hrun : ([.header 1 passes, .header 3 passes, .header 4 passes,
      .block 3 passes true .valid {},
        .block 1 passes true .valid {}, .block 4 passes true .valid {}, .activate, .invalidate 3,
        .activate, .reset 3, .precious 4].foldlM
        (runWhen validHeap (KeepsCandidates validHeap) 9) (start validHeap {})).map State.tip =
      some (some 4) := by decide +kernel
  obtain ⟨s, hs, htip⟩ := map_eq_some_iff.1 hrun
  have hreach := reachable_runWhen hs
  exact ⟨s, hreach, htip, candidates_complete validHeap s hreach⟩

/-- The blocks 1 and 3 are connected, 1 is invalidated and 3 is reset.  Then 1 has its data, no
flag, and sorts above the tip, but is no candidate. -/
theorem candidates_incomplete :
    ∃ s, (system validHeap).Reachable s ∧ ¬ CandidatesComplete validHeap s := by
  have hrun : ([.header 1 passes, .header 3 passes, .block 1 passes true .valid {},
        .block 3 passes true .valid {}, .activate, .invalidate 1, .reset 3].foldlM
        (runWhen validHeap (fun _ _ => True) 9) (start validHeap {})).map (fun s =>
          (s.belowTip validHeap 1, decide (1 ∈ s.setBlockIndexCandidates),
            decide (Clean validHeap s 1))) =
      some (false, false, true) := by decide +kernel
  obtain ⟨s, hs, h⟩ := map_eq_some_iff.1 hrun
  obtain ⟨h₁, h⟩ := Prod.mk.inj h
  obtain ⟨h₂, h₃⟩ := Prod.mk.inj h
  exact ⟨s, (reachable_runWhen hs).of_restrict,
    fun hc => of_decide_eq_false h₂ (hc.complete 1 (of_decide_eq_true h₃) h₁)⟩

end KPCoin.Chainstate
