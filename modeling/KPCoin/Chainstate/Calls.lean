import KPCoin.Chainstate.BestChain
import KPCoin.Chainstate.Flags
import KPCoin.LTS.Basic

/-!
# The chainstate as a transition system

The calls that peers and users make on a node that starts from an index with the genesis block
only.  A call that fails an assertion, or that is made for a block that is not in the index, is no
step.

* `Call.outcome` : what a call does to a sound state;
* `reachable_sound` : every reachable state is sound.
-/

namespace KPCoin.Chainstate

open State

variable {B : Type} [DecidableEq B] {A : Blocks B} {s s' : State B} {a b c p t : B} {fuel : ℕ}

/-- The calls. -/
inductive Call (B : Type)
  /-- A header arrives: `AcceptBlockHeader`. -/
  | header (b : B) (checks : State.HeaderChecks)
  /-- A block arrives: `AcceptBlock`. -/
  | block (b : B) (checks : State.HeaderChecks) (fRequested : Bool) (body : State.BodyCheck)
      (pos : FilePos)
  | activate
  | invalidate (b : B)
  | reset (b : B)
  | precious (b : B)
  deriving DecidableEq

/-- What a call does. -/
def Call.run (A : Blocks B) (fuel : ℕ) (s : State B) : Call B → Option (State B)
  | header b checks => (s.acceptBlockHeader A b checks).map Prod.fst
  | block b checks fRequested body pos =>
    (s.acceptBlock A b checks fRequested body pos).map Prod.fst
  | activate => s.activateBestChain A fuel
  | invalidate b => if b ∈ s.index then (s.invalidateBlock A b).map Prod.fst else none
  | reset b => if b ∈ s.index then some (s.resetBlockFailureFlags A b) else none
  | precious b => if b ∈ s.index then s.preciousBlock A fuel b else none

/-- The index with the header of the genesis block. -/
def genesisHeader (A : Blocks B) : State B := addToBlockIndex A { entry := fun _ => {} } A.genesis

/-- `LoadGenesisBlock`. -/
def loadGenesis (A : Blocks B) (pos : FilePos) : State B :=
  (genesisHeader A).receivedBlockTransactions A A.genesis pos

/-- The state in which the genesis block has been connected. -/
def start (A : Blocks B) (pos : FilePos) : State B :=
  { loadGenesis A pos with tip := some A.genesis, coinsBestBlock := some A.genesis }

/-- The chainstate under its calls, while there are fewer than `2 ^ 32` transactions along every
path. -/
def system (A : Blocks B) : LTS (State B) (Call B) where
  init s := ∃ pos, s = start A pos
  step s l s' := s'.FewTx A ∧ ∃ fuel, l.run A fuel s = some s'

theorem loadGenesis_eq (A : Blocks B) (pos : FilePos) :
    loadGenesis A pos = ((genesisHeader A).storeData A A.genesis pos).link A A.genesis := by
  have hparent : A.parent A.genesis = none := A.parent_eq_none.2 rfl
  unfold loadGenesis receivedBlockTransactions
  simp only [hparent, Option.all_none, if_true]
  rfl

theorem genesisHeader_entry (A : Blocks B) : (genesisHeader A).entry A.genesis = A.newEntry :=
  addToBlockIndex_entry_self (List.not_mem_nil)

/-- What is known of the start. -/
structure Fresh (A : Blocks B) (s : State B) : Prop where
  index : s.index = [A.genesis]
  unlinked : s.mBlocksUnlinked = []
  failed : s.mFailedBlocks = []
  candidates : ∀ c, c ∈ s.setBlockIndexCandidates ↔ c = A.genesis
  tip : s.tip = some A.genesis
  coins : s.coinsBestBlock = some A.genesis
  entry : ∀ c, c ≠ A.genesis → s.entry c = {}
  linked : (s.entry A.genesis).nChainTx = (s.entry A.genesis).nTx
  nTx : (s.entry A.genesis).nTx = A.vtxSize A.genesis
  haveData : (s.entry A.genesis).haveData = true
  notFailed : (s.entry A.genesis).failed = false
  level : (s.entry A.genesis).validity.level = Validity.transactions.level

theorem start_fresh (A : Blocks B) (pos : FilePos) : Fresh A (start A pos) := by
  set s1 := (genesisHeader A).storeData A A.genesis pos with hs1
  obtain ⟨cs, hlink, hcs⟩ := link_spec s1 A.genesis
  have hstart : start A pos = { s1.link A A.genesis with
      tip := some A.genesis, coinsBestBlock := some A.genesis } := by
    rw [start, loadGenesis_eq]
  have hstored : s1.entry A.genesis = (genesisHeader A).storedEntry A A.genesis pos :=
    storeData_entry_self pos
  have hself : (start A pos).entry A.genesis = s1.linkedEntry A A.genesis := by
    rw [hstart]
    exact link_entry_self s1 A.genesis
  have hchainTx : s1.chainTx A A.genesis = (s1.entry A.genesis).nTx := by
    rw [chainTx, A.parent_eq_none.2 rfl, Option.elim_none, zero_add]
  have hcands : ∀ c, c ∈ (start A pos).setBlockIndexCandidates ↔ c = A.genesis := by
    intro c
    rw [hstart, hlink, hcs]
    have hnil : c ∉ s1.setBlockIndexCandidates := List.not_mem_nil
    have hbelow : ∀ s : State B, s.tip = none → s.belowTip A A.genesis = false := by
      intro s hs
      rw [belowTip, hs, Option.any_none]
    rw [hbelow _ rfl]
    simp [hnil]
  refine ⟨by rw [hstart]; rfl, by rw [hstart]; rfl, by rw [hstart]; rfl, hcands, by rw [hstart],
    by rw [hstart], fun c hc => ?_, ?_, ?_, ?_, ?_, ?_⟩
  · rw [hstart, link_entry_of_ne hc, storeData_entry_of_ne hc]
    exact addToBlockIndex_entry_of_ne hc
  · rw [hself]
    exact hchainTx
  · rw [hself]
    show (s1.entry A.genesis).nTx = _
    rw [hstored, storedEntry_nTx]
  · rw [hself]
    show (s1.entry A.genesis).haveData = true
    rw [hstored, storedEntry_haveData]
  · rw [hself]
    show (s1.entry A.genesis).failed = false
    rw [hstored, storedEntry_failed, genesisHeader_entry, A.newEntry_failed]
  · rw [hself]
    show (s1.entry A.genesis).validity.level = _
    rw [hstored, storedEntry_level (by rw [genesisHeader_entry, A.newEntry_failed]),
      genesisHeader_entry]
    exact max_eq_right A.newEntry_transactions.le

namespace Fresh

section

omit [DecidableEq B]

theorem eq_genesis {P : Entry → Prop} (h : Fresh A s) (hP : ¬ P {}) (hb : P (s.entry b)) :
    b = A.genesis := by
  by_contra hne
  rw [h.entry b hne] at hb
  exact hP hb

theorem parent_genesis (hp : A.parent A.genesis = some p) : False := by
  rw [A.parent_eq_none.2 rfl] at hp
  cases hp

theorem path_genesis (ha : a ∈ A.path A.genesis) : a = A.genesis := by
  rcases Forest.mem_path_iff.1 ha with h | ⟨p, hp, -⟩
  · exact h
  · exact (parent_genesis hp).elim

theorem genesis_linked (h : Fresh A s) : (s.entry A.genesis).nChainTx ≠ 0 := by
  rw [h.linked, h.nTx]
  exact A.vtxSize_ne_zero A.genesis

theorem sound (h : Fresh A s) : s.Sound A where
  closed b hb p hp := by
    rw [h.index, List.mem_singleton] at hb
    exact (parent_genesis (hb ▸ hp)).elim
  tree b hb := by
    rw [h.index, List.mem_singleton] at hb
    rw [hb, h.level]
    decide
  data b hb := by
    obtain rfl := h.eq_genesis (P := fun e => e.haveData = true) (by decide) hb
    rw [h.index, h.level]
    exact ⟨List.mem_singleton_self _, le_rfl⟩
  flagged b hb := by
    obtain rfl := h.eq_genesis (P := fun e => e.failed = true) (by decide) hb
    rw [h.notFailed] at hb
    cases hb
  linking := by
    refine ⟨fun b hb => ?_, fun b hb => ?_, fun p b hb => ?_, ?_, (fun b hb => nomatch hb),
      List.nodup_nil⟩
    · obtain rfl := h.eq_genesis (P := fun e => e.nChainTx ≠ 0) (by decide) hb
      refine ⟨h.haveData, ?_, fun p hp => (parent_genesis hp).elim⟩
      rw [chainTx, A.parent_eq_none.2 rfl, Option.elim_none, zero_add, h.linked]
    · obtain rfl := h.eq_genesis (P := fun e => e.haveData = true) (by decide) hb
      rw [h.nTx]
      exact A.vtxSize_ne_zero A.genesis
    · rw [h.unlinked] at hb
      cases hb
    · rw [h.unlinked]
      exact List.nodup_nil
  scripts b hb := by
    obtain rfl :=
      h.eq_genesis (P := fun e => Validity.scripts.level ≤ e.validity.level) (by decide) hb
    rw [h.level] at hb
    exact absurd hb (by decide)
  failed b hb := by
    rw [h.failed] at hb
    cases hb
  candidates c hc := by
    rw [(h.candidates c).1 hc]
    exact h.genesis_linked
  tip := by
    refine ⟨A.genesis, h.tip, h.coins, fun a ha => ?_, fun a ha hne => absurd (path_genesis ha) hne⟩
    rw [path_genesis ha]
    exact ⟨h.genesis_linked, h.notFailed⟩

end

end Fresh

/-- What a call can do to a sound state. -/
inductive Outcome (A : Blocks B) (s : State B) : Call B → State B → Prop
  | idle {l : Call B} : Outcome A s l s
  | header {b : B} {checks : State.HeaderChecks} {s' : State B} {r : Bool}
    (h : s.HeaderOutcome A b s' r) : Outcome A s (.header b checks) s'
  | block {b : B} {checks : State.HeaderChecks} {fRequested : Bool} {body : State.BodyCheck}
    {pos : FilePos} {s' : State B} (h : s.BlockOutcome A b body pos s') :
    Outcome A s (.block b checks fRequested body pos) s'
  | activate {fuel : ℕ} {s' : State B} (h : s.activateBestChain A fuel = some s') :
    Outcome A s .activate s'
  | invalidate {b q : B} {s' : State B} (hb : b ∈ s.index) (hq : A.parent b = some q)
    (h : s.Invalidates A b q s') : Outcome A s (.invalidate b) s'
  | reset {b : B} {s' : State B} (hb : b ∈ s.index) (h : s.Resets A b s') :
    Outcome A s (.reset b) s'
  | precious {b t : B} {fuel : ℕ} {s₁ s' : State B} (hb : b ∈ s.index) (ht : s.tip = some t)
    (h : s.Precious A b t s₁) (hrun : s₁.activateBestChain A fuel = some s') :
    Outcome A s (.precious b) s'

theorem Call.outcome {l : Call B} (h : s.Sound A) (hrun : l.run A fuel s = some s') :
    Outcome A s l s' := by
  cases l with
  | header b checks =>
    obtain ⟨s1, r, hstep, hout⟩ := acceptBlockHeader_spec h b checks
    rw [run, hstep] at hrun
    cases hrun
    exact .header hout
  | block b checks fRequested body pos =>
    obtain ⟨s1, r, hstep, hout⟩ := acceptBlock_spec h b checks fRequested body pos
    rw [run, hstep] at hrun
    cases hrun
    exact .block hout
  | activate => exact .activate hrun
  | invalidate b =>
    rw [run] at hrun
    split_ifs at hrun with hb
    cases hq : A.parent b with
    | none =>
      rw [invalidateBlock, hq] at hrun
      cases hrun
      exact .idle
    | some q =>
      obtain ⟨t, ht, hcoins, husable, -⟩ := h.tip
      obtain ⟨s1, hstep, hinv, -⟩ := invalidateBlock_spec hq ht hcoins
        fun x hx => (Entry.failed_eq_false.1 (husable x hx).2).1
      rw [hstep] at hrun
      cases hrun
      exact .invalidate hb hq hinv
  | reset b =>
    rw [run] at hrun
    split_ifs at hrun with hb
    cases hrun
    exact .reset hb (reset_spec h b)
  | precious b =>
    rw [run] at hrun
    split_ifs at hrun with hb
    obtain ⟨t, ht, -⟩ := h.tip
    obtain ⟨⟨s1, r⟩, hmark, hrun⟩ := Option.bind_eq_some_iff.1 hrun
    rcases markPrecious_spec ht hmark with ⟨rfl, rfl⟩ | ⟨rfl, hprecious⟩
    · cases hrun
      exact .idle
    · exact .precious hb ht hprecious hrun

/-- `ActivateBestChain` keeps soundness, whatever the candidates are. -/
theorem activates_of_sound (h : s.Sound A) (hrun : s.activateBestChain A fuel = some s') :
    s.Activates A s' ∧ s'.Sound A := by
  have hstart : s.InProgress A (fun _ => True) False := ⟨h, False.elim⟩
  have hsettled := (activateBestChain_spec hstart).2 fuel s' hrun
  exact ⟨hsettled.activates, hsettled.sound⟩

theorem Outcome.sound {l : Call B} (h : s.Sound A) (hfew : s'.FewTx A) (ho : Outcome A s l s') :
    s'.Sound A := by
  cases ho with
  | idle => exact h
  | header hout => exact hout.sound h
  | block hout => exact hout.sound h hfew
  | activate hrun => exact (activates_of_sound h hrun).2
  | invalidate hb hq hinv => exact h.invalidates hq hb hinv
  | reset hb hreset => exact hreset.sound h
  | precious hb ht hprecious hrun => exact (activates_of_sound (hprecious.sound h) hrun).2

theorem reachable_sound (h : (system A).Reachable s) : s.Sound A := by
  refine h.invariant ?_ ?_
  · rintro s ⟨pos, rfl⟩
    exact (start_fresh A pos).sound
  · rintro s l s' hs ⟨hfew, fuel, hrun⟩
    exact (Call.outcome hs hrun).sound hs hfew

/-- A tree of blocks that `ConnectBlock` all accepts. -/
def validHeap : Blocks ℕ := heapBlocks fun _ => true

/-- A header that passes its checks. -/
def passes : State.HeaderChecks := ⟨true, true, true⟩

/-- The calls that are made under a condition. -/
def runWhen (A : Blocks B) (C : State B → Call B → Prop) [∀ s l, Decidable (C s l)] (fuel : ℕ)
    (s : State B) (l : Call B) : Option (State B) :=
  if C s l then (l.run A fuel s).filter (·.FewTx A) else none

theorem reachable_runWhen {C : State B → Call B → Prop} [∀ s l, Decidable (C s l)]
    {ls : List (Call B)} (h : ls.foldlM (runWhen A C fuel) (start A {}) = some s) :
    ((system A).restrict C).Reachable s := by
  refine LTS.Reachable.foldlM (LTS.Reachable.start ⟨{}, rfl⟩) (fun s l s' hrun => ?_) h
  unfold runWhen at hrun
  split_ifs at hrun with hC
  obtain ⟨hrun, hfew⟩ := Option.filter_eq_some_iff.1 hrun
  exact ⟨⟨of_decide_eq_true hfew, fuel, hrun⟩, hC⟩

end KPCoin.Chainstate
