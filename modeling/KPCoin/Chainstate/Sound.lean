import KPCoin.Chainstate.Culprit
import KPCoin.Chainstate.Linking

/-!
# What always holds of the block index

`Sound A s` collects what every operation keeps, whatever else goes wrong: the index is closed under
parents, the numbers of transactions and `m_blocks_unlinked` agree with the data, the active chain
is linked, without failure flags and accepted by `ConnectBlock`, and so is the chain of every block
at `BLOCK_VALID_SCRIPTS`.

* `acceptBlockHeader_spec`, `acceptBlock_spec` : all that headers and blocks from peers do to a
  sound state.  The assertion of `AcceptBlockHeader` does not fail;
* `HeaderOutcome.sound`, `BlockOutcome.sound` : the state stays sound.
-/

namespace KPCoin.Chainstate

open List Option Forest Validity

variable {B : Type} {A : Blocks B} {s s' : State B} {a b c p t : B} {queue : List B}

theorem Blocks.genesis_mem_path (A : Blocks B) (b : B) : A.genesis ∈ A.path b := by
  induction b using A.induction with
  | step b ih =>
    cases hp : A.parent b with
    | none =>
      rw [A.parent_eq_none.1 hp]
      exact self_mem_path
    | some p => exact mem_path_parent hp (ih p hp)

namespace State

/-- The chain of the block is linked and carries no failure flag. -/
def Usable (A : Blocks B) (s : State B) (b : B) : Prop :=
  ∀ a ∈ A.path b, (s.entry a).nChainTx ≠ 0 ∧ (s.entry a).failed = false

/-- `ConnectBlock` accepts all blocks of the chain of the block. -/
def Connects (A : Blocks B) (b : B) : Prop :=
  ∀ a ∈ A.path b, a ≠ A.genesis → A.connectBlock a = true

theorem Usable.mono (h : Usable A s b) (ha : a ∈ A.path b) : Usable A s a :=
  fun c hc => h c (mem_path_trans hc ha)

theorem Connects.cons (h : Connects A p) (hp : A.parent b = some p) (hb : A.connectBlock b = true) :
    Connects A b := by
  intro a ha hne
  rcases mem_path_iff.1 ha with rfl | ⟨p', hp', ha⟩
  · exact hb
  · obtain rfl : p = p' := mem_unique hp hp'
    exact h a ha hne

/-- The state of the block index is sound. -/
structure Sound (A : Blocks B) (s : State B) : Prop where
  closed : ∀ b ∈ s.index, ∀ p, A.parent b = some p → p ∈ s.index
  tree : ∀ b ∈ s.index, tree.level ≤ (s.entry b).validity.level
  data : ∀ b, (s.entry b).haveData = true →
    b ∈ s.index ∧ transactions.level ≤ (s.entry b).validity.level
  flagged : ∀ b, (s.entry b).failed = true → b ∈ s.index
  linking : s.Linking A []
  scripts : ∀ b, scripts.level ≤ (s.entry b).validity.level →
    (s.entry b).nChainTx ≠ 0 ∧ Connects A b
  failed : ∀ b ∈ s.mFailedBlocks, (s.entry b).failedValid = true
  candidates : ∀ c ∈ s.setBlockIndexCandidates, (s.entry c).nChainTx ≠ 0
  tip : ∃ t, s.tip = some t ∧ s.coinsBestBlock = some t ∧ Usable A s t ∧ Connects A t

theorem Linking.path (h : Linking A queue s) (hb : (s.entry b).nChainTx ≠ 0) :
    ∀ a ∈ A.path b, (s.entry a).nChainTx ≠ 0 := by
  induction b using A.induction with
  | step b ih =>
    intro a ha
    rcases mem_path_iff.1 ha with rfl | ⟨p, hp, ha⟩
    · exact hb
    · exact ih p hp ((h.linked b hb).2.2 p hp) a ha

namespace Sound

variable (h : Sound A s)
include h

theorem path_mem (hb : b ∈ s.index) (ha : a ∈ A.path b) : a ∈ s.index := by
  induction b using A.induction with
  | step b ih =>
    rcases mem_path_iff.1 ha with rfl | ⟨p, hp, ha⟩
    · exact hb
    · exact ih p hp (h.closed b hb p hp) ha

theorem linked_data (hb : (s.entry b).nChainTx ≠ 0) : (s.entry b).haveData = true :=
  (h.linking.linked b hb).1

theorem linked_mem (hb : (s.entry b).nChainTx ≠ 0) : b ∈ s.index := (h.data b (h.linked_data hb)).1

theorem connectable_iff :
    s.connectable b = true ↔ (s.entry b).nChainTx ≠ 0 ∧ (s.entry b).failed = false := by
  unfold connectable
  rw [Bool.and_eq_true, Entry.isValid_iff, Entry.haveNumChainTxs_iff]
  exact ⟨fun h => ⟨h.2, h.1.1⟩, fun hb => ⟨⟨hb.2, (h.data b (h.linked_data hb.1)).2⟩, hb.1⟩⟩

theorem at_tip (ht : s.tip = some t) : s.coinsBestBlock = some t ∧ Usable A s t ∧ Connects A t := by
  obtain ⟨t', ht', hat⟩ := h.tip
  exact mem_unique ht' ht ▸ hat

theorem chain_usable (ha : a ∈ s.chain A) : Usable A s a := by
  obtain ⟨t, ht, ha⟩ := mem_chain.1 ha
  exact (h.at_tip ht).2.1.mono ha

theorem genesis_linked : (s.entry A.genesis).nChainTx ≠ 0 := by
  obtain ⟨t, -, -, husable, -⟩ := h.tip
  exact (husable _ (A.genesis_mem_path t)).1

theorem genesis_failed : (s.entry A.genesis).failed = false := by
  obtain ⟨t, -, -, husable, -⟩ := h.tip
  exact (husable _ (A.genesis_mem_path t)).2

end Sound

/-! ### Changes of flags -/

/-- The blocks and their data are the same. -/
structure SameBlocks (s s' : State B) : Prop where
  index : s'.index = s.index
  unlinked : s'.mBlocksUnlinked = s.mBlocksUnlinked
  nTx : ∀ b, (s'.entry b).nTx = (s.entry b).nTx
  nChainTx : ∀ b, (s'.entry b).nChainTx = (s.entry b).nChainTx
  haveData : ∀ b, (s'.entry b).haveData = (s.entry b).haveData

theorem SameBlocks.trans {s'' : State B} (h1 : SameBlocks s s') (h2 : SameBlocks s' s'') :
    SameBlocks s s'' :=
  ⟨h2.index.trans h1.index, h2.unlinked.trans h1.unlinked, fun b => (h2.nTx b).trans (h1.nTx b),
    fun b => (h2.nChainTx b).trans (h1.nChainTx b), fun b => (h2.haveData b).trans (h1.haveData b)⟩

theorem Linking.congr (hs : Linking A queue s)
    (hunlinked : s'.mBlocksUnlinked = s.mBlocksUnlinked)
    (hchain : ∀ b, (s'.entry b).nChainTx = (s.entry b).nChainTx)
    (hdata : ∀ b, (s'.entry b).haveData = (s.entry b).haveData)
    (hnTx : ∀ b, (s.entry b).haveData = true → (s'.entry b).nTx = (s.entry b).nTx) :
    Linking A queue s' := by
  constructor
  · intro b hb
    rw [hchain] at hb
    obtain ⟨h1, h2, h3⟩ := hs.linked b hb
    refine ⟨(hdata b).trans h1, ?_, fun p hp => by rw [hchain]; exact h3 p hp⟩
    rw [hchain, h2, chainTx, chainTx, hnTx b h1]
    simp [hchain]
  · intro b hb
    rw [hdata] at hb
    rw [hnTx b hb]
    exact hs.nTx b hb
  · simp only [hunlinked, hdata, hchain]
    exact hs.pair
  · rw [hunlinked]
    exact hs.nodup
  · simp only [hdata, hchain]
    exact hs.ready
  · exact hs.queue_nodup

/-- What is left to show of a change of flags, candidates and the tip. -/
theorem Sound.of_same (h : Sound A s) (hsame : SameBlocks s s')
    (hlevel : ∀ b, (s.entry b).validity.level ≤ (s'.entry b).validity.level)
    (hflagged : ∀ b, (s'.entry b).failed = true → b ∈ s.index)
    (hscripts : ∀ b, Validity.scripts.level ≤ (s'.entry b).validity.level →
      Validity.scripts.level ≤ (s.entry b).validity.level ∨ (s.entry b).nChainTx ≠ 0 ∧ Connects A b)
    (hfailed : ∀ b ∈ s'.mFailedBlocks, (s'.entry b).failedValid = true)
    (hcandidates : ∀ c ∈ s'.setBlockIndexCandidates, (s.entry c).nChainTx ≠ 0)
    (htip : ∃ t, s'.tip = some t ∧ s'.coinsBestBlock = some t ∧ Usable A s' t ∧ Connects A t) :
    Sound A s' where
  closed := by
    rw [hsame.index]
    exact h.closed
  tree b hb := (h.tree b (hsame.index ▸ hb)).trans (hlevel b)
  data b hb := by
    rw [hsame.haveData] at hb
    exact ⟨hsame.index ▸ (h.data b hb).1, (h.data b hb).2.trans (hlevel b)⟩
  flagged b hb := hsame.index ▸ hflagged b hb
  linking := h.linking.congr hsame.unlinked hsame.nChainTx hsame.haveData fun b _ => hsame.nTx b
  scripts b hb := by
    rw [hsame.nChainTx]
    exact (hscripts b hb).elim (h.scripts b) id
  failed := hfailed
  candidates c hc := by
    rw [hsame.nChainTx]
    exact hcandidates c hc
  tip := htip

/-- Some entries are changed by `f`, and the others left alone. -/
def Touches (f : Entry → Entry) (s s' : State B) : Prop :=
  ∀ c, s'.entry c = f (s.entry c) ∨ s'.entry c = s.entry c

/-- The change of an entry does not concern data and validity. -/
def Light (f : Entry → Entry) : Prop :=
  ∀ e, (f e).nTx = e.nTx ∧ (f e).nChainTx = e.nChainTx ∧ (f e).haveData = e.haveData ∧
    (f e).validity = e.validity

namespace Touches

variable {f : Entry → Entry}

theorem of_ite {P : B → Prop} [DecidablePred P]
    (h : ∀ c, s'.entry c = if P c then f (s.entry c) else s.entry c) : Touches f s s' := by
  intro c
  rw [h c]
  split_ifs
  · exact .inl rfl
  · exact .inr rfl

section

variable (h : Touches f s s')
include h

theorem frame {α : Type*} (g : Entry → α)
    (hg : ∀ e, g (f e) = g e := by exact fun _ => rfl) (c : B) :
      g (s'.entry c) = g (s.entry c) := by
  rcases h c with hc | hc
  · rw [hc, hg]
  · rw [hc]

theorem keeps {Q : Entry → Prop} (hQ : ∀ e, Q e → Q (f e)) (c : B)
    (hc : Q (s.entry c)) : Q (s'.entry c) := by
  rcases h c with heq | heq
  · exact heq ▸ hQ _ hc
  · exact heq ▸ hc

theorem same (hindex : s'.index = s.index) (hunlinked : s'.mBlocksUnlinked = s.mBlocksUnlinked)
    (hf : Light f := by exact fun _ => ⟨rfl, rfl, rfl, rfl⟩) : SameBlocks s s' :=
  ⟨hindex, hunlinked, h.frame _ fun e => (hf e).1, h.frame _ fun e => (hf e).2.1,
    h.frame _ fun e => (hf e).2.2.1⟩

theorem level (hf : Light f := by exact fun _ => ⟨rfl, rfl, rfl, rfl⟩) (c : B) :
    (s'.entry c).validity.level = (s.entry c).validity.level :=
  congrArg Validity.level (h.frame Entry.validity (fun e => (hf e).2.2.2) c)

end

theorem sound (ht : Touches f s s') (h : Sound A s) (hindex : s'.index = s.index)
    (hunlinked : s'.mBlocksUnlinked = s.mBlocksUnlinked)
    (hflagged : ∀ b, (s'.entry b).failed = true → b ∈ s.index)
    (hfailed : ∀ b ∈ s'.mFailedBlocks, (s'.entry b).failedValid = true)
    (hcandidates : ∀ c ∈ s'.setBlockIndexCandidates, (s.entry c).nChainTx ≠ 0)
    (htip : ∃ t, s'.tip = some t ∧ s'.coinsBestBlock = some t ∧ Usable A s' t ∧ Connects A t)
    (hf : Light f := by exact fun _ => ⟨rfl, rfl, rfl, rfl⟩) : Sound A s' :=
  h.of_same (ht.same hindex hunlinked hf) (fun c => (ht.level hf c).ge) hflagged
    (fun c hc => .inl (hc.trans_eq (ht.level hf c))) hfailed hcandidates htip

end Touches

variable [DecidableEq B]

instance (b : B) : Decidable (Usable A s b) := inferInstanceAs (Decidable (∀ a ∈ A.path b, _))

instance (b : B) : Decidable (Connects A b) := inferInstanceAs (Decidable (∀ a ∈ A.path b, _))

theorem Touches.modify {f : Entry → Entry} (b : B) : Touches f s (s.modify b f) := fun c => by
  by_cases hc : c = b
  · exact .inl (hc ▸ modify_entry_self ..)
  · exact .inr (modify_entry_of_ne hc _)

theorem touches_setFailedValid (s : State B) (b : B) :
    Touches (fun e => { e with failedValid := true }) s (s.setFailedValid b) := Touches.modify b

/-- Setting `BLOCK_FAILED_CHILD` on several blocks. -/
def flagChildren (s : State B) (l : List B) (c : B) : Entry :=
  if c ∈ l then { s.entry c with failedChild := true } else s.entry c

theorem flagChildren_nil (s : State B) : s.flagChildren [] = s.entry := by
  funext c
  simp [flagChildren]

theorem flagChildren_cons (s : State B) (b : B) (l : List B) :
    (s.setFailedChild b).flagChildren l = s.flagChildren (b :: l) := by
  funext c
  unfold flagChildren setFailedChild
  by_cases hc : c = b
  · subst hc
    rw [modify_entry_self, if_pos (mem_cons_self ..)]
    split_ifs <;> rfl
  · rw [modify_entry_of_ne hc]
    simp [hc]

theorem foldl_setFailedChild (l : List B) (s : State B) :
    l.foldl setFailedChild s = { s with entry := s.flagChildren l } := by
  induction l generalizing s with
  | nil =>
    rfl
  | cons b l ih =>
    rw [foldl_cons, ih, flagChildren_cons]
    rfl

theorem touches_flagChildren {l : List B} (h : s'.entry = s.flagChildren l) :
    Touches (fun e => { e with failedChild := true }) s s' := Touches.of_ite fun c => by
  rw [h]
  rfl

theorem flagChildren_of_not_mem {l : List B} (h : c ∉ l) : s.flagChildren l c = s.entry c :=
  if_neg h

/-- Flagging blocks of the index outside the active chain, which stop being candidates. -/
theorem Sound.flagChildren (h : Sound A s) {l cs : List B}
    (hl : ∀ c ∈ l, c ∈ s.index ∧ c ∉ s.chain A)
    (hcs : cs ⊆ s.setBlockIndexCandidates) (i : Option B) :
    Sound A { s with
      entry := s.flagChildren l
      setBlockIndexCandidates := cs
      mBestInvalid := i } := by
  obtain ⟨t, ht, hcoins, husable, hconnects⟩ := h.tip
  refine (touches_flagChildren rfl).sound h rfl rfl (fun b hb => ?_)
    (fun b hb => ?_)
    (fun c hc => h.candidates c (hcs hc)) ⟨t, ht, hcoins, fun a ha => ?_, hconnects⟩
  · by_cases hbl : b ∈ l
    · exact (hl b hbl).1
    · have hb : (s.flagChildren l b).failed = true := hb
      rw [flagChildren_of_not_mem hbl] at hb
      exact h.flagged b hb
  · exact ((touches_flagChildren rfl).frame Entry.failedValid (fun _ => rfl) b).trans
      (h.failed b hb)
  · have ha' : a ∉ l := fun hal => (hl a hal).2 (mem_chain.2 ⟨t, ht, ha⟩)
    show (s.flagChildren l a).nChainTx ≠ 0 ∧ (s.flagChildren l a).failed = false
    rw [flagChildren_of_not_mem ha']
    exact husable a ha

/-! ### Headers -/

/-- What `AcceptBlockHeader` can do, and what it returns. -/
inductive HeaderOutcome (A : Blocks B) (s : State B) (b : B) : State B → Bool → Prop
  | unchanged {r : Bool} (h : r = true → b ∈ s.index ∧ (s.entry b).failed = false) :
    HeaderOutcome A s b s r
  | rejected {p f : B} (hp : A.parent b = some p) (hmem : p ∈ s.index) (hf : f ∈ s.mFailedBlocks)
    (hfp : f ∈ A.path p) : HeaderOutcome A s b
      { s with entry := s.flagChildren ((A.path p).takeWhile (· ≠ f)) } false
  | added {p : B} (hp : A.parent b = some p) (hnew : b ∉ s.index) (hmem : p ∈ s.index)
    (hvalid : (s.entry p).failed = false)
    (hcheck : (s.entry p).isValid .scripts = true ∨ ∀ f ∈ s.mFailedBlocks, f ∉ A.path p) :
    HeaderOutcome A s b (s.addToBlockIndex A b) true

theorem checkAncestors_spec (h : Sound A s) (p : B) :
    (s.checkAncestors A p = some (s, true) ∧
        ((s.entry p).isValid .scripts = true ∨ ∀ f ∈ s.mFailedBlocks, f ∉ A.path p)) ∨
      ∃ f ∈ s.mFailedBlocks, f ∈ A.path p ∧ s.checkAncestors A p =
        some ({ s with entry := s.flagChildren ((A.path p).takeWhile (· ≠ f)) }, false) := by
  unfold checkAncestors
  split_ifs with hscripts
  · exact .inl ⟨rfl, .inl hscripts⟩
  · have hperm := A.pointerOrder_perm s.mFailedBlocks
    cases hfind : (A.pointerOrder s.mFailedBlocks).find? (· ∈ A.path p) with
    | none =>
      refine .inl ⟨rfl, .inr fun f hf hfp => ?_⟩
      have := find?_eq_none.1 hfind f (hperm.mem_iff.2 hf)
      exact this (decide_eq_true hfp)
    | some f =>
      have hf := hperm.mem_iff.1 (mem_of_find?_eq_some hfind)
      have hfp := find?_some hfind
      refine .inr ⟨f, hf, of_decide_eq_true hfp, ?_⟩
      dsimp only
      rw [if_pos (h.failed f hf), foldl_setFailedChild]

theorem acceptBlockHeader_spec (h : Sound A s) (b : B) (checks : HeaderChecks) :
    ∃ s' r, s.acceptBlockHeader A b checks = some (s', r) ∧ HeaderOutcome A s b s' r := by
  unfold acceptBlockHeader
  cases hp : A.parent b with
  | none =>
    have hb : b = A.genesis := A.parent_eq_none.1 hp
    have hmem : b ∈ s.index := hb ▸ h.linked_mem h.genesis_linked
    split_ifs
    · refine ⟨_, _, rfl, ?_⟩
      rw [addToBlockIndex, if_pos hmem]
      exact .unchanged fun _ => ⟨hmem, hb ▸ h.genesis_failed⟩
    · exact ⟨_, _, rfl, .unchanged fun h => nomatch h⟩
  | some p =>
    have hreject : HeaderOutcome A s b s false := .unchanged fun h => nomatch h
    dsimp only
    by_cases hmem : b ∈ s.index
    · rw [if_pos hmem]
      refine ⟨_, _, rfl, .unchanged fun hr => ⟨hmem, ?_⟩⟩
      simpa using hr
    rw [if_neg hmem]
    by_cases h1 : (!checks.checkBlockHeader) = true
    · rw [if_pos h1]
      exact ⟨_, _, rfl, hreject⟩
    rw [if_neg h1]
    by_cases hpmem : p ∈ s.index
    · rw [if_neg (not_not.2 hpmem)]
      by_cases hfailed : (s.entry p).failed = true
      · rw [if_pos hfailed]
        exact ⟨_, _, rfl, hreject⟩
      rw [if_neg hfailed]
      by_cases h2 : (!checks.contextualCheckBlockHeader) = true
      · rw [if_pos h2]
        exact ⟨_, _, rfl, hreject⟩
      rw [if_neg h2]
      rcases checkAncestors_spec h p with ⟨hcheck, hok⟩ | ⟨f, hf, hfp, hcheck⟩
      · rw [hcheck]
        split_ifs
        · exact ⟨_, _, rfl, hreject⟩
        · exact ⟨_, _, rfl, .added hp hmem hpmem (Bool.eq_false_of_not_eq_true hfailed) hok⟩
      · rw [hcheck]
        exact ⟨_, _, rfl, .rejected hp hpmem hf hfp⟩
    · rw [if_pos hpmem]
      exact ⟨_, _, rfl, hreject⟩

theorem addToBlockIndex_entry_self (h : b ∉ s.index) :
    (s.addToBlockIndex A b).entry b = A.newEntry := by
  rw [addToBlockIndex, if_neg h]
  exact Function.update_self ..

theorem addToBlockIndex_entry_of_ne (h : c ≠ b) : (s.addToBlockIndex A b).entry c = s.entry c := by
  unfold addToBlockIndex
  split_ifs
  · rfl
  · exact Function.update_of_ne h ..

theorem addToBlockIndex_frame (h : b ∉ s.index) : s.addToBlockIndex A b = { s with
    index := s.index ++ [b]
    entry := (s.addToBlockIndex A b).entry
    mBestHeader := (s.addToBlockIndex A b).mBestHeader } := by
  rw [addToBlockIndex, if_neg h]

section

variable (h : Sound A s) (hb : b ∉ s.index)
include h hb

theorem Sound.entry_of_linked (hc : (s.entry c).nChainTx ≠ 0) :
    (s.addToBlockIndex A b).entry c = s.entry c := by
  refine addToBlockIndex_entry_of_ne ?_
  rintro rfl
  exact hb (h.linked_mem hc)

theorem Sound.linking_add : Linking A [] (s.addToBlockIndex A b) := by
  have hself := addToBlockIndex_entry_self (A := A) hb
  -- the new block has no data, before and after
  have hdata : (s.entry b).haveData = false := by
    by_contra hne
    exact hb (h.data b (Bool.eq_true_of_not_eq_false hne)).1
  refine h.linking.congr (by rw [addToBlockIndex_frame hb]) (fun c => ?_) (fun c => ?_)
    fun c hc => ?_
  · by_cases hcb : c = b
    · rw [hcb, hself, A.newEntry_nChainTx, h.linking.nChainTx_eq_zero hdata]
    · rw [addToBlockIndex_entry_of_ne hcb]
  · by_cases hcb : c = b
    · rw [hcb, hself, A.newEntry_haveData, hdata]
    · rw [addToBlockIndex_entry_of_ne hcb]
  · rw [addToBlockIndex_entry_of_ne]
    rintro rfl
    rw [hdata] at hc
    cases hc

theorem Sound.add (hp : ∀ p, A.parent b = some p → p ∈ s.index) :
    Sound A (s.addToBlockIndex A b) := by
  have hself := addToBlockIndex_entry_self (A := A) hb
  have hindex : ∀ c, c ∈ (s.addToBlockIndex A b).index ↔ c ∈ s.index ∨ c = b := by
    intro c
    rw [addToBlockIndex_frame hb, mem_append, mem_singleton]
  have hframe := addToBlockIndex_frame (A := A) hb
  refine ⟨fun c hc p hpc => ?_, fun c hc => ?_, fun c hc => ?_, fun c hc => ?_, h.linking_add hb,
    fun c hc => ?_, fun c hc => ?_, fun c hc => ?_, ?_⟩
  · rw [hindex] at hc ⊢
    rcases hc with hc | rfl
    · exact .inl (h.closed c hc p hpc)
    · exact .inl (hp p hpc)
  · by_cases hcb : c = b
    · rw [hcb, hself]
      exact A.newEntry_tree
    · rw [addToBlockIndex_entry_of_ne hcb]
      exact h.tree c (((hindex c).1 hc).resolve_right hcb)
  · by_cases hcb : c = b
    · rw [hcb, hself, A.newEntry_haveData] at hc
      cases hc
    · rw [addToBlockIndex_entry_of_ne hcb] at hc ⊢
      exact ⟨(hindex c).2 (.inl (h.data c hc).1), (h.data c hc).2⟩
  · by_cases hcb : c = b
    · exact (hindex c).2 (.inr hcb)
    · rw [addToBlockIndex_entry_of_ne hcb] at hc
      exact (hindex c).2 (.inl (h.flagged c hc))
  · by_cases hcb : c = b
    · rw [hcb, hself] at hc
      have := A.newEntry_transactions.trans_le (by decide : _ ≤ Validity.scripts.level)
      omega
    · rw [addToBlockIndex_entry_of_ne hcb] at hc ⊢
      exact h.scripts c hc
  · rw [hframe] at hc
    have hcb : c ≠ b := by
      rintro rfl
      refine hb (h.flagged c ?_)
      rw [Entry.failed, h.failed c hc, Bool.true_or]
    rw [addToBlockIndex_entry_of_ne hcb]
    exact h.failed c hc
  · rw [hframe] at hc
    have hlinked := h.candidates c hc
    rwa [h.entry_of_linked hb hlinked]
  · obtain ⟨t, ht, hcoins, husable, hconnects⟩ := h.tip
    refine ⟨t, by rw [hframe]; exact ht, by rw [hframe]; exact hcoins, fun a ha => ?_, hconnects⟩
    rw [h.entry_of_linked hb (husable a ha).1]
    exact husable a ha

end

namespace HeaderOutcome

variable {r : Bool}

theorem flagged_spec (h : Sound A s) {f : B} (hmem : p ∈ s.index) (hf : f ∈ s.mFailedBlocks)
    (hfp : f ∈ A.path p) (hc : c ∈ (A.path p).takeWhile (· ≠ f)) :
    c ∈ s.index ∧ c ∉ s.chain A ∧ f ∈ A.path c ∧ f ≠ c := by
  obtain ⟨hcp, hfc, hne⟩ := mem_of_mem_takeWhile_ne hfp hc
  refine ⟨h.path_mem hmem hcp, fun hchain => ?_, hfc, hne.symm⟩
  have hfailed := (h.chain_usable hchain f hfc).2
  rw [Entry.failed, h.failed f hf] at hfailed
  cases hfailed

theorem sound (h : Sound A s) (ho : HeaderOutcome A s b s' r) : Sound A s' := by
  cases ho with
  | unchanged => exact h
  | rejected hp hmem hf hfp =>
    refine h.flagChildren (fun c hc => ?_) (List.Subset.refl _) s.mBestInvalid
    obtain ⟨h1, h2, -⟩ := flagged_spec h hmem hf hfp hc
    exact ⟨h1, h2⟩
  | @added p hp hnew hmem hvalid hcheck =>
    exact h.add hnew fun q hq => mem_unique hp hq ▸ hmem

end HeaderOutcome

/-! ### Blocks -/

/-- What `AcceptBlock` can do. -/
inductive BlockOutcome (A : Blocks B) (s : State B) (b : B) (body : BodyCheck) (pos : FilePos) :
    State B → Prop
  | header {s' : State B} {r : Bool} (h : HeaderOutcome A s b s' r) : BlockOutcome A s b body pos s'
  | stored {s' : State B} (h : HeaderOutcome A s b s' true) (hmem : b ∈ s'.index)
    (hfailed : (s'.entry b).failed = false) (hdata : (s'.entry b).haveData = false) :
    BlockOutcome A s b body pos (s'.receivedBlockTransactions A b pos)
  | invalid {s' : State B} (h : HeaderOutcome A s b s' true) (hmem : b ∈ s'.index)
    (hfailed : (s'.entry b).failed = false) (hdata : (s'.entry b).haveData = false)
    (hbody : body = .invalid) : BlockOutcome A s b body pos (s'.setFailedValid b)

theorem HeaderOutcome.accepted (h : HeaderOutcome A s b s' true) :
    b ∈ s'.index ∧ (s'.entry b).failed = false := by
  cases h with
  | unchanged h => exact h rfl
  | added hp hnew =>
    rw [addToBlockIndex_entry_self hnew]
    refine ⟨?_, A.newEntry_failed⟩
    rw [addToBlockIndex_frame hnew]
    exact mem_append_right _ (mem_singleton_self b)

theorem acceptBlock_spec (h : Sound A s) (b : B) (checks : HeaderChecks) (fRequested : Bool)
    (body : BodyCheck) (pos : FilePos) :
    ∃ s' r, s.acceptBlock A b checks fRequested body pos = some (s', r) ∧
      BlockOutcome A s b body pos s' := by
  obtain ⟨s1, r, hheader, hout⟩ := acceptBlockHeader_spec h b checks
  unfold acceptBlock
  rw [hheader]
  simp only [bind_eq_bind, bind_some]
  cases r with
  | false => exact ⟨_, _, rfl, .header hout⟩
  | true =>
    obtain ⟨hmem, hfailed⟩ := hout.accepted
    simp only [Bool.not_true, Bool.false_eq_true, if_false]
    split_ifs with hdata hskip
    · exact ⟨_, _, rfl, .header hout⟩
    · exact ⟨_, _, rfl, .header hout⟩
    · have hdata := Bool.eq_false_of_not_eq_true hdata
      cases body with
      | valid => exact ⟨_, _, rfl, .stored hout hmem hfailed hdata⟩
      | invalid => exact ⟨_, _, rfl, .invalid hout hmem hfailed hdata rfl⟩
      | mutated => exact ⟨_, _, rfl, .header hout⟩

section

omit [DecidableEq B]

theorem storedEntry_flags (pos : FilePos) :
    (s.storedEntry A b pos).failedValid = (s.entry b).failedValid ∧
      (s.storedEntry A b pos).failedChild = (s.entry b).failedChild := by
  rw [storedEntry, Entry.raiseValidity_eq]
  exact ⟨rfl, rfl⟩

theorem storedEntry_level (hfailed : (s.entry b).failed = false) (pos : FilePos) :
    (s.storedEntry A b pos).validity.level =
      max (s.entry b).validity.level transactions.level := by
  unfold storedEntry
  rw [Entry.level_raiseValidity]
  exact hfailed

end

/-- What the arrival of a block changes in the index. -/
structure Arrives (b : B) (s s' : State B) : Prop where
  index : s'.index = s.index
  failed : s'.mFailedBlocks = s.mFailedBlocks
  tip : s'.tip = s.tip
  failedValid : ∀ c, (s'.entry c).failedValid = (s.entry c).failedValid
  failedChild : ∀ c, (s'.entry c).failedChild = (s.entry c).failedChild
  haveData : ∀ c, (s'.entry c).haveData = true ↔ (s.entry c).haveData = true ∨ c = b
  level : ∀ c, (s.entry c).validity.level ≤ (s'.entry c).validity.level
  level_self : transactions.level ≤ (s'.entry b).validity.level
  scripts : ∀ c, scripts.level ≤ (s'.entry c).validity.level →
    scripts.level ≤ (s.entry c).validity.level

theorem Sound.arrives (h : Sound A s) (hfew : s.FewTx A) (hmem : b ∈ s.index)
    (hfailed : (s.entry b).failed = false) (hdata : (s.entry b).haveData = false) (pos : FilePos) :
    Arrives b s (s.receivedBlockTransactions A b pos) ∧
      Linking A [] (s.receivedBlockTransactions A b pos) ∧
      (Waiting A [] s → Waiting A [] (s.receivedBlockTransactions A b pos)) ∧
      Grows A s (s.receivedBlockTransactions A b pos) := by
  obtain ⟨t, ht, -, husable, -⟩ := h.tip
  obtain ⟨hlinking, hwaiting, hgrows⟩ := received_spec h.linking hdata pos
    (fun p hp => h.tree p (h.closed b hmem p hp))
    (fun t' ht' => mem_unique ht ht' ▸ (husable t self_mem_path).1) hfew
    (fun c hc => hc.elim (fun hc => (h.data c hc).1) (· ▸ hmem))
  obtain ⟨-, hsame⟩ := received_frame (A := A) s b pos
  set s' := s.receivedBlockTransactions A b pos with hs'
  have hself : s'.entry b = { s.storedEntry A b pos with
      nChainTx := (s'.entry b).nChainTx
      nSequenceId := (s'.entry b).nSequenceId } := by
    rw [hsame b, storeData_entry_self]
  have hother : ∀ c, c ≠ b → s'.entry c = { s.entry c with
      nChainTx := (s'.entry c).nChainTx
      nSequenceId := (s'.entry c).nSequenceId } := by
    intro c hc
    rw [hsame c, storeData_entry_of_ne hc]
  have hlevel : (s'.entry b).validity.level =
      max (s.entry b).validity.level transactions.level := by
    rw [hself]
    exact storedEntry_level hfailed pos
  refine ⟨⟨?_, ?_, hgrows.tip, fun c => ?_, fun c => ?_, fun c => ?_, fun c => ?_, ?_,
    fun c hc => ?_⟩, hlinking, hwaiting, hgrows⟩
  · rw [hgrows.frame]
  · rw [hgrows.frame]
  · by_cases hc : c = b
    · rw [hc, hself]
      exact (storedEntry_flags pos).1
    · rw [hother c hc]
  · by_cases hc : c = b
    · rw [hc, hself]
      exact (storedEntry_flags pos).2
    · rw [hother c hc]
  · by_cases hc : c = b
    · rw [hc, hself]
      exact iff_of_true (storedEntry_haveData pos) (.inr rfl)
    · rw [hother c hc]
      exact (or_iff_left hc).symm
  · by_cases hc : c = b
    · rw [hc, hlevel]
      exact le_max_left ..
    · rw [hother c hc]
  · rw [hlevel]
    exact le_max_right ..
  · by_cases hcb : c = b
    · rw [hcb] at hc
      have : Validity.transactions.level < Validity.scripts.level := by decide
      rw [hcb]
      omega
    · rwa [hother c hcb] at hc

omit [DecidableEq B] in
theorem Arrives.failed_eq (h : Arrives b s s') (c : B) :
    (s'.entry c).failed = (s.entry c).failed := by
  rw [Entry.failed, Entry.failed, h.failedValid, h.failedChild]

theorem Sound.received (h : Sound A s) (hfew : s.FewTx A) (hmem : b ∈ s.index)
    (hfailed : (s.entry b).failed = false) (hdata : (s.entry b).haveData = false) (pos : FilePos) :
    Sound A (s.receivedBlockTransactions A b pos) := by
  obtain ⟨harr, hlinking, -, hgrows⟩ := h.arrives hfew hmem hfailed hdata pos
  set s' := s.receivedBlockTransactions A b pos with hs'
  have hlinked : ∀ c, (s.entry c).nChainTx ≠ 0 → (s'.entry c).nChainTx ≠ 0 := by
    intro c hc
    rwa [hgrows.linked hc]
  refine ⟨fun c hc p hp => ?_, fun c hc => ?_, fun c hc => ?_, fun c hc => ?_, hlinking,
    fun c hc => ?_, fun c hc => ?_, fun c hc => ?_, ?_⟩
  · rw [harr.index] at hc ⊢
    exact h.closed c hc p hp
  · rw [harr.index] at hc
    exact (h.tree c hc).trans (harr.level c)
  · rw [harr.index]
    rcases (harr.haveData c).1 hc with hc | rfl
    · exact ⟨(h.data c hc).1, (h.data c hc).2.trans (harr.level c)⟩
    · exact ⟨hmem, harr.level_self⟩
  · rw [harr.failed_eq] at hc
    rw [harr.index]
    exact h.flagged c hc
  · obtain ⟨h1, h2⟩ := h.scripts c (harr.scripts c hc)
    exact ⟨hlinked c h1, h2⟩
  · rw [harr.failed] at hc
    rw [harr.failedValid]
    exact h.failed c hc
  · rcases (hgrows.candidates c).1 hc with hc | hc
    · exact hlinked c (h.candidates c hc)
    · exact hc.1.2
  · obtain ⟨t, ht, hcoins, husable, hconnects⟩ := h.tip
    refine ⟨t, harr.tip.trans ht, by rw [hgrows.frame]; exact hcoins, fun a ha => ?_, hconnects⟩
    rw [hgrows.linked (husable a ha).1]
    exact husable a ha

theorem Sound.setFailedValid (h : Sound A s) (hmem : b ∈ s.index)
    (hdata : (s.entry b).haveData = false) : Sound A (s.setFailedValid b) := by
  have hvalid : ∀ c, c ≠ b → (s.setFailedValid b).entry c = s.entry c :=
    fun c hc => modify_entry_of_ne hc _
  obtain ⟨t, ht, hcoins, husable, hconnects⟩ := h.tip
  refine (touches_setFailedValid s b).sound h rfl rfl (fun c hc => ?_)
    (fun c hc => ?_) h.candidates ⟨t, ht, hcoins, fun a ha => ?_, hconnects⟩
  · by_cases hcb : c = b
    · exact hcb ▸ hmem
    · rw [hvalid c hcb] at hc
      exact h.flagged c hc
  · exact (touches_setFailedValid s b).keeps (Q := (·.failedValid = true)) (fun _ _ => rfl) c
      (h.failed c hc)
  · have hab : a ≠ b := by
      rintro rfl
      rw [h.linked_data (husable a ha).1] at hdata
      cases hdata
    rw [hvalid a hab]
    exact husable a ha

theorem BlockOutcome.sound {body : BodyCheck} {pos : FilePos} (h : Sound A s) (hfew : s'.FewTx A)
    (ho : BlockOutcome A s b body pos s') : Sound A s' := by
  cases ho with
  | header hout => exact hout.sound h
  | stored hout hmem hfailed hdata =>
    exact (hout.sound h).received ((fewTx_received hdata pos).1 hfew) hmem hfailed hdata pos
  | invalid hout hmem hfailed hdata => exact (hout.sound h).setFailedValid hmem hdata

end State

end KPCoin.Chainstate
