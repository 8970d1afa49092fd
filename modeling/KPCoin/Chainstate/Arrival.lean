import KPCoin.Chainstate.Linking

/-!
# The order in which block data arrives

In a tree of headers without failed blocks, what `ReceivedBlockTransactions` has recorded after any
number of calls is a function of the set of blocks that have data (`HeaderTree.linked_iff`,
`HeaderTree.unlinked_iff`), so it does not depend on the order of the calls.

* `arrival_order` : the state after a sequence of calls, and that it is the same for all orders.
-/

namespace KPCoin.Chainstate

open List State Prod

variable {B : Type} {A : Blocks B} {s s' s₀ : State B} {b c p t : B}

/-- A tree of headers, some of which may have data, without failed blocks. -/
structure HeaderTree (A : Blocks B) (s : State B) : Prop where
  closed : ∀ b ∈ s.index, ∀ p, A.parent b = some p → p ∈ s.index
  unfailed : ∀ b ∈ s.index, (s.entry b).failed = false
  tree : ∀ b ∈ s.index, Validity.tree.level ≤ (s.entry b).validity.level
  data_mem : ∀ b, (s.entry b).haveData = true → b ∈ s.index
  linking : s.Linking A []
  waiting : s.Waiting A []
  tip : ∀ t, s.tip = some t → (s.entry t).nChainTx ≠ 0
  sequence : ∀ t, s.tip = some t → (s.entry t).nSequenceId < s.nBlockSequenceId

namespace HeaderTree

section

variable (h : HeaderTree A s)
include h

theorem waits (hdata : (s.entry b).haveData = true) (hzero : (s.entry b).nChainTx = 0) :
    ∃ p, A.parent b = some p ∧ (p, b) ∈ s.mBlocksUnlinked := by
  rcases h.waiting b hdata hzero with hq | ⟨p, hp, hpair | hfailed⟩
  · cases hq
  · exact ⟨p, hp, hpair⟩
  · rw [h.unfailed p (h.closed b (h.data_mem b hdata) p hp)] at hfailed
    cases hfailed

/-- A block is linked when it and all its ancestors have data. -/
theorem linked_iff (b : B) :
    (s.entry b).nChainTx ≠ 0 ↔ ∀ a ∈ A.path b, (s.entry a).haveData = true := by
  induction b using A.induction with
  | step b ih =>
  constructor
  · intro hb a ha
    obtain ⟨hdata, -, hparent⟩ := h.linking.linked b hb
    rcases Forest.mem_path_iff.1 ha with rfl | ⟨p, hp, ha⟩
    · exact hdata
    · exact (ih p hp).1 (hparent p hp) a ha
  · intro hall hzero
    obtain ⟨p, hp, hpair⟩ := h.waits (hall b Forest.self_mem_path) hzero
    exact (ih p hp).2 (fun a ha => hall a (Forest.mem_path_parent hp ha))
      (h.linking.pair p b hpair).2.2.2

/-- `nChainTx` of a linked block is the number of transactions along its path. -/
theorem nChainTx_eq (hfew : s.FewTx A) (hb : (s.entry b).nChainTx ≠ 0) :
    (s.entry b).nChainTx.toNat = ((A.path b).map fun a => (s.entry a).nTx.toNat).sum := by
  obtain ⟨hdata, heq, hparent⟩ := h.linking.linked b hb
  have hnum : (A.path b).map (s.numTx A) = (A.path b).map fun a => (s.entry a).nTx.toNat :=
    map_congr_left fun a ha => by simp [numTx, (h.linked_iff b).1 hb a ha]
  rw [heq, h.linking.chainTx_eq hdata hparent, BitVec.toNat_ofNat,
    Nat.mod_eq_of_lt (hfew b (h.data_mem b hdata)), hnum]

theorem unlinked_iff (p b : B) : (p, b) ∈ s.mBlocksUnlinked ↔
    A.parent b = some p ∧ (s.entry b).haveData = true ∧
      ¬ ∀ a ∈ A.path b, (s.entry a).haveData = true := by
  rw [← h.linked_iff, not_not]
  constructor
  · intro hpb
    obtain ⟨hp, hdata, hzero, -⟩ := h.linking.pair p b hpb
    exact ⟨hp, hdata, hzero⟩
  · rintro ⟨hp, hdata, hzero⟩
    obtain ⟨q, hq, hpair⟩ := h.waits hdata hzero
    obtain rfl : p = q := Option.mem_unique hp hq
    exact hpair

end

end HeaderTree

/-- What linking and file positions do not change in an entry. -/
def Entry.body (e : Entry) : Entry := { e with nChainTx := 0, nSequenceId := 0, pos := {} }

theorem Entry.body_raiseValidity (e : Entry) (v : Validity) :
    (e.raiseValidity v).body = e.body.raiseValidity v := by
  unfold Entry.raiseValidity
  show _ = if e.failed then _ else if e.validity.level < v.level then _ else _
  split_ifs <;> rfl

/-- The body of an entry when its data arrives. -/
def Entry.stored (A : Blocks B) (b : B) (e : Entry) : Entry :=
  Entry.raiseValidity { e with
    nTx := A.vtxSize b
    haveData := true
    optWitness := e.optWitness || A.segwitActive b } .transactions

theorem body_storedEntry (s : State B) (b : B) (pos : FilePos) :
    (s.storedEntry A b pos).body = (s.entry b).body.stored A b := by
  rw [State.storedEntry, Entry.body_raiseValidity]
  rfl

theorem entry_eq_of_body {e e' : Entry} (h : e.body = e'.body) (hn : e.nChainTx = e'.nChainTx) :
    { e with nSequenceId := 0, pos := {} } = { e' with nSequenceId := 0, pos := {} } := by
  have h := congrArg (fun x : Entry => { x with nChainTx := e.nChainTx }) h
  simp only [Entry.body] at h
  rw [h, hn]

variable [DecidableEq B]

theorem body_of_sameData {pos : FilePos} (h : (s.storeData A b pos).SameData s') (c : B) :
    (s'.entry c).body = if c = b then (s.entry b).body.stored A b else (s.entry c).body := by
  rw [h c]
  show ((s.storeData A b pos).entry c).body = _
  split_ifs with hc
  · rw [hc, storeData_entry_self, body_storedEntry]
  · rw [storeData_entry_of_ne hc]

theorem haveData_received {pos : FilePos} :
    ((s.receivedBlockTransactions A b pos).entry c).haveData = true ↔
      c = b ∨ (s.entry c).haveData = true := by
  rw [(received_frame s b pos).2 c]
  by_cases hc : c = b
  · simp [hc, storeData_entry_self, storedEntry_haveData]
  · simp [hc, storeData_entry_of_ne hc]

/-- A call of `ReceivedBlockTransactions`. -/
theorem HeaderTree.received (h : HeaderTree A s) (hfew : s.FewTx A) (hb : b ∈ s.index)
    (hnew : (s.entry b).haveData = false) (pos : FilePos) :
    HeaderTree A (s.receivedBlockTransactions A b pos) ∧
      s.Grows A (s.receivedBlockTransactions A b pos) ∧
      ∀ c, ((s.receivedBlockTransactions A b pos).entry c).body =
        if c = b then (s.entry b).body.stored A b else (s.entry c).body := by
  obtain ⟨hlinking, hwaiting, hgrows⟩ := received_spec h.linking hnew pos
    (fun p hp => h.tree p (h.closed b hb p hp)) h.tip hfew
    (fun c hc => hc.elim (h.data_mem c) (· ▸ hb))
  obtain ⟨hindex, hsame⟩ := received_frame (A := A) s b pos
  have hbody := body_of_sameData hsame
  refine ⟨⟨?_, fun c hc => ?_, fun c hc => ?_, fun c hc => ?_, hlinking, hwaiting h.waiting,
    fun t ht => ?_, fun t ht => ?_⟩, hgrows, hbody⟩
  · rw [hindex]
    exact h.closed
  · rw [hindex] at hc
    show ((s.receivedBlockTransactions A b pos).entry c).body.failed = false
    rw [hbody c]
    split_ifs with hcb
    · subst hcb
      unfold Entry.stored
      rw [Entry.raiseValidity_eq]
      exact h.unfailed c hc
    · exact h.unfailed c hc
  · rw [hindex] at hc
    show _ ≤ ((s.receivedBlockTransactions A b pos).entry c).body.validity.level
    rw [hbody c]
    split_ifs with hcb
    · subst hcb
      exact (h.tree c hc).trans (Entry.level_le_raiseValidity { (s.entry c).body with
        nTx := A.vtxSize c, haveData := true, optWitness := _ } _)
    · exact h.tree c hc
  · rw [hindex]
    by_cases hcb : c = b
    · rwa [hcb]
    · have hc : ((s.receivedBlockTransactions A b pos).entry c).body.haveData = true := hc
      rw [hbody c, if_neg hcb] at hc
      exact h.data_mem c hc
  · rw [hgrows.tip] at ht
    rw [hgrows.linked (h.tip t ht)]
    exact h.tip t ht
  · rw [hgrows.tip] at ht
    rw [hgrows.linked (h.tip t ht)]
    exact (h.sequence t ht).trans_le hgrows.counter

/-- The calls of `ReceivedBlockTransactions` with these blocks. -/
def receiveAll (A : Blocks B) (s : State B) (calls : List (B × FilePos)) : State B :=
  calls.foldl (fun s c => s.receivedBlockTransactions A c.1 c.2) s

/-- The run lemma: what is known after the calls. -/
theorem HeaderTree.run {calls : List (B × FilePos)} (h : HeaderTree A s₀) (hfew : s₀.FewTx A)
    (hnodup : (calls.map fst).Nodup)
    (hnew : ∀ b ∈ calls.map fst, b ∈ s₀.index ∧ (s₀.entry b).haveData = false) :
    HeaderTree A (receiveAll A s₀ calls) ∧ (receiveAll A s₀ calls).FewTx A ∧
      s₀.Grows A (receiveAll A s₀ calls) ∧
      ∀ c, ((receiveAll A s₀ calls).entry c).body =
        if c ∈ calls.map fst then (s₀.entry c).body.stored A c else (s₀.entry c).body := by
  induction calls generalizing s₀ with
  | nil => exact ⟨h, hfew, .refl s₀, fun c => rfl⟩
  | cons x calls ih =>
    obtain ⟨b, pos⟩ := x
    obtain ⟨hb, hnodup⟩ := nodup_cons.1 hnodup
    obtain ⟨hbi, hbnew⟩ := hnew b (mem_cons_self ..)
    obtain ⟨h1, hgrows1, hbody1⟩ := h.received hfew hbi hbnew pos
    have hother : ∀ c ∈ calls.map fst, c ≠ b := by
      rintro c hc rfl
      exact hb hc
    obtain ⟨h2, hfew2, hgrows2, hbody2⟩ :=
      ih h1 ((fewTx_received hbnew pos).2 hfew) hnodup fun c hc => by
      obtain ⟨hci, hcnew⟩ := hnew c (mem_cons_of_mem b hc)
      refine ⟨by rw [hgrows1.frame]; exact hci, ?_⟩
      show ((s₀.receivedBlockTransactions A b pos).entry c).body.haveData = false
      rw [hbody1 c, if_neg (hother c hc)]
      exact hcnew
    refine ⟨h2, hfew2, hgrows1.trans h.tip hgrows2, fun c => ?_⟩
    rw [show receiveAll A s₀ ((b, pos) :: calls) =
      receiveAll A (s₀.receivedBlockTransactions A b pos) calls from rfl, hbody2 c, hbody1 c,
      map_cons]
    by_cases hc : c ∈ calls.map fst
    · rw [if_pos hc, if_neg (hother c hc), if_pos (mem_cons_of_mem b hc)]
    · rw [if_neg hc]
      by_cases hcb : c = b
      · subst hcb
        rw [if_pos rfl, if_pos (mem_cons_self ..)]
      · rw [if_neg hcb, if_neg]
        intro h
        exact hc ((mem_cons.1 h).resolve_left hcb)

omit [DecidableEq B] in
/-- Whether a block that is linked by the calls sorts below the tip, the work decides. -/
theorem HeaderTree.belowTip_iff (h : HeaderTree A s₀) (hgrows : s₀.Grows A s)
    (hc : s₀.NewlyLinked s c) :
    s.belowTip A c = false ↔ ∀ t, s₀.tip = some t → A.nChainWork t < A.nChainWork c := by
  cases ht : s₀.tip with
  | none =>
    rw [State.belowTip, hgrows.tip, ht]
    simp
  | some t =>
    have hlinked := h.tip t ht
    -- the tip has arrived before
    have hseq : (s.entry t).nSequenceId < (s.entry c).nSequenceId := by
      rw [hgrows.linked hlinked]
      exact (h.sequence t ht).trans_le (hgrows.sequence hc)
    rw [belowTip_eq (hgrows.tip.trans ht)]
    constructor
    · rintro hless t' ht'
      cases ht'
      refine lt_of_le_of_ne (work_le_of_not_less hless) fun hwork => ?_
      rw [State.less, A.comparator.sequence hwork.symm hseq] at hless
      cases hless
    · intro hwork
      exact not_less_of_less (less_of_work (hwork t rfl))

/-- The two states are the same apart from sequence ids and file positions. -/
structure SameArrival (s s' : State B) : Prop where
  entry : ∀ b, { s.entry b with nSequenceId := 0, pos := {} } =
    { s'.entry b with nSequenceId := 0, pos := {} }
  unlinked : s.mBlocksUnlinked.Perm s'.mBlocksUnlinked
  candidates : ∀ b, b ∈ s.setBlockIndexCandidates ↔ b ∈ s'.setBlockIndexCandidates
  rest : s' = { s with
    entry := s'.entry
    mBlocksUnlinked := s'.mBlocksUnlinked
    setBlockIndexCandidates := s'.setBlockIndexCandidates
    nBlockSequenceId := s'.nBlockSequenceId }

theorem HeaderTree.sameArrival {calls calls' : List (B × FilePos)} (h : HeaderTree A s₀)
    (hfew : s₀.FewTx A) (hnodup : (calls.map fst).Nodup)
    (hnew : ∀ b ∈ calls.map fst, b ∈ s₀.index ∧ (s₀.entry b).haveData = false)
    (hperm : (calls'.map fst).Perm (calls.map fst)) :
    SameArrival (receiveAll A s₀ calls) (receiveAll A s₀ calls') := by
  obtain ⟨h1, hfew1, hgrows1, hbody1⟩ := h.run hfew hnodup hnew
  obtain ⟨h2, hfew2, hgrows2, hbody2⟩ := h.run hfew (hperm.nodup_iff.2 hnodup)
    fun b hb => hnew b (hperm.mem_iff.1 hb)
  set s1 := receiveAll A s₀ calls
  set s2 := receiveAll A s₀ calls'
  have hbody : ∀ c, (s1.entry c).body = (s2.entry c).body := by
    intro c
    rw [hbody1, hbody2]
    simp only [hperm.mem_iff]
  have hdata : ∀ c, (s1.entry c).haveData = (s2.entry c).haveData :=
    fun c => (congrArg Entry.haveData (hbody c) :)
  have hnTx : ∀ c, (s1.entry c).nTx = (s2.entry c).nTx := fun c => (congrArg Entry.nTx (hbody c) :)
  have hlinked : ∀ c, (s1.entry c).nChainTx ≠ 0 ↔ (s2.entry c).nChainTx ≠ 0 := by
    intro c
    rw [h1.linked_iff, h2.linked_iff]
    simp [hdata]
  have hchain : ∀ c, (s1.entry c).nChainTx = (s2.entry c).nChainTx := by
    intro c
    by_cases hc : (s1.entry c).nChainTx = 0
    · rw [hc, eq_comm]
      exact not_not.1 (mt (hlinked c).2 (not_not.2 hc))
    · rw [← BitVec.toNat_inj, h1.nChainTx_eq hfew1 hc, h2.nChainTx_eq hfew2 ((hlinked c).1 hc)]
      simp [hnTx]
  refine ⟨fun c => entry_eq_of_body (hbody c) (hchain c), ?_, fun c => ?_, ?_⟩
  · refine (perm_ext_iff_of_nodup h1.linking.nodup h2.linking.nodup).2 ?_
    rintro ⟨-, c⟩
    rw [h1.unlinked_iff, h2.unlinked_iff]
    simp [hdata]
  · rw [hgrows1.candidates, hgrows2.candidates]
    refine or_congr_right ?_
    have hnewly : s₀.NewlyLinked s1 c ↔ s₀.NewlyLinked s2 c := and_congr_right' (hlinked c)
    rw [and_congr_right fun hn => h.belowTip_iff hgrows1 hn,
      and_congr_right fun hn => h.belowTip_iff hgrows2 hn, hnewly]
  · rw [hgrows2.frame, hgrows1.frame]

/-- A tree of five headers. -/
def fiveHeaders : State ℕ where
  index := [0, 1, 2, 3, 4]
  entry _ := { validity := .tree }

/-- A chain in which the blocks up to 4294 have `2 ^ 32` transactions. -/
def longChain : Blocks ℕ :=
  { heapBlocks fun _ => true with
    parent := fun n => if n = 0 then none else some (n - 1)
    height := id
    height_parent := fun {b p} h => by
      split_ifs at h with hb
      cases h
      exact (Nat.succ_pred hb).symm
    parent_eq_none := by simp [heapBlocks]
    height_genesis := rfl
    nChainWork := id
    work_parent := fun {b p} h => by
      split_ifs at h with hb
      cases h
      exact Nat.pred_lt hb
    vtxSize := fun n => if n = 4294 then 967296 else 1000000
    vtxSize_ne_zero := fun n => by split <;> decide }

/-- The entry of a block of `longChain` that is linked. -/
def longEntry (n : ℕ) : Entry where
  nTx := 1000000
  nChainTx := .ofNat 32 ((n + 1) * 1000000)
  validity := .transactions
  haveData := true

/-- All of `longChain` has arrived but the last block. -/
def lastMissing : State ℕ where
  index := range 4295
  entry n := if n < 4294 then longEntry n else { validity := .tree }

theorem lastMissing_cases (n : ℕ) : n < 4294 ∧ lastMissing.entry n = longEntry n ∧
    (longEntry n).nChainTx ≠ 0 ∨ ¬ n < 4294 ∧ lastMissing.entry n = { validity := .tree } := by
  by_cases hn : n < 4294
  · refine .inl ⟨hn, if_pos hn, fun h => ?_⟩
    have h : (n + 1) * 1000000 % 2 ^ 32 = 0 := by simpa [longEntry, ← BitVec.toNat_inj] using h
    rw [Nat.mod_eq_of_lt ((Nat.mul_le_mul_right _ hn).trans_lt (by decide))] at h
    exact absurd h (by simp)
  · exact .inr ⟨hn, if_neg hn⟩

end KPCoin.Chainstate
