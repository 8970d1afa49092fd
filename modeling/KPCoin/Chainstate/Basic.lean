import KPCoin.Chainstate.State

/-!
# Small facts about the chainstate

What the primitive updates of `State` do to its fields, and the order in which the blocks sort.
-/

namespace KPCoin.Chainstate

section Lex

variable {B : Type} [LinearOrder B]

/-- More work sorts higher, then an earlier arrival, then a lower address. -/
def SortKey.rank (x : SortKey B) : ℕ ×ₗ ℤᵒᵈ ×ₗ Bᵒᵈ :=
  toLex (x.nChainWork, toLex (OrderDual.toDual x.nSequenceId, OrderDual.toDual x.block))

/-- A comparator, for blocks whose addresses are ordered. -/
def lexComparator : WorkComparator B where
  less x y := decide (x.rank < y.rank)
  irrefl x := by simp
  trans h₁ h₂ := by
    simp only [decide_eq_true_eq] at h₁ h₂ ⊢
    exact h₁.trans h₂
  total h := by
    simp only [decide_eq_true_eq]
    refine lt_or_gt_of_ne fun he => h ?_
    exact congrArg (fun k => OrderDual.ofDual (ofLex (ofLex k).2).2) he
  work h := by
    simp only [decide_eq_true_eq]
    exact Prod.Lex.toLex_lt_toLex.2 (.inl h)
  sequence h₁ h₂ := by
    simp only [decide_eq_true_eq]
    exact Prod.Lex.toLex_lt_toLex.2 (.inr ⟨h₁, Prod.Lex.toLex_lt_toLex.2 (.inl h₂)⟩)

end Lex

/-- The blocks of a binary tree, numbered like a heap, of which `ConnectBlock` accepts those with
`accepts`. -/
def heapBlocks (accepts : ℕ → Bool) : Blocks ℕ where
  parent n := if n = 0 then none else some ((n - 1) / 2)
  height n := (n + 1).log2
  height_parent {b p} h := by
    split_ifs at h with hb
    obtain rfl := Option.some.inj h
    rw [Nat.log2_def, if_pos (by omega)]
    congr 2
    omega
  genesis := 0
  parent_eq_none {b} := by simp
  height_genesis := rfl
  nChainWork n := (n + 1).log2
  work_parent {b p} h := by
    split_ifs at h with hb
    obtain rfl := Option.some.inj h
    have hhalf : (b - 1) / 2 + 1 = (b + 1) / 2 := by omega
    rw [hhalf, Nat.log2_def (b + 1), if_pos (by omega)]
    exact Nat.lt_succ_self _
  vtxSize _ := 1
  vtxSize_ne_zero _ := by decide
  segwitActive _ := true
  connectBlock := accepts
  comparator := lexComparator
  newEntry := { validity := .tree }
  newEntry_failed := rfl
  newEntry_haveData := rfl
  newEntry_nTx := rfl
  newEntry_nChainTx := rfl
  newEntry_tree := le_rfl
  newEntry_transactions := by decide
  newBestHeader _ b := some b
  nMinimumChainWork := 0
  pointerOrder := List.insertionSort (· ≤ ·)
  pointerOrder_perm := List.perm_insertionSort _

variable {B : Type} {A : Blocks B} {s s' : State B} {a b c p t : B}

namespace Entry

variable {e : Entry} {v : Validity}

theorem isValid_iff : e.isValid v = true ↔ e.failed = false ∧ v.level ≤ e.validity.level := by
  simp [isValid]

theorem failed_eq_false : e.failed = false ↔ e.failedValid = false ∧ e.failedChild = false := by
  simp [failed]

theorem haveNumChainTxs_iff : e.haveNumChainTxs = true ↔ e.nChainTx ≠ 0 := by
  simp [haveNumChainTxs]

theorem raiseValidity_eq (e : Entry) (v : Validity) :
    e.raiseValidity v = { e with validity := (e.raiseValidity v).validity } := by
  unfold raiseValidity
  split_ifs <;> rfl

theorem level_raiseValidity (h : e.failed = false) (v : Validity) :
    (e.raiseValidity v).validity.level = max e.validity.level v.level := by
  unfold raiseValidity
  rw [if_neg (by simp [h])]
  split_ifs with hlt
  · exact (max_eq_right hlt.le).symm
  · exact (max_eq_left (not_lt.1 hlt)).symm

theorem level_le_raiseValidity (e : Entry) (v : Validity) :
    e.validity.level ≤ (e.raiseValidity v).validity.level := by
  unfold raiseValidity
  split_ifs with h1 h2
  · exact le_rfl
  · exact h2.le
  · exact le_rfl

end Entry

namespace State

section Updates

variable [DecidableEq B]

@[simp] theorem modify_entry_self (s : State B) (b : B) (f : Entry → Entry) :
    (s.modify b f).entry b = f (s.entry b) := Function.update_self ..

theorem modify_entry_of_ne (h : c ≠ b) (f : Entry → Entry) :
    (s.modify b f).entry c = s.entry c := Function.update_of_ne h ..

theorem modify_entry_frame {α : Type*} (g : Entry → α) {f : Entry → Entry}
    (h : g (f (s.entry b)) = g (s.entry b)) (c : B) :
    g ((s.modify b f).entry c) = g (s.entry c) := by
  by_cases hc : c = b
  · subst hc
    rw [modify_entry_self, h]
  · rw [modify_entry_of_ne hc]

@[simp] theorem mem_insertCandidate :
    c ∈ (s.insertCandidate b).setBlockIndexCandidates ↔ c = b ∨ c ∈ s.setBlockIndexCandidates :=
  List.mem_insert_iff

@[simp] theorem mem_eraseCandidate :
    c ∈ (s.eraseCandidate b).setBlockIndexCandidates ↔ c ∈ s.setBlockIndexCandidates ∧ c ≠ b := by
  simp [eraseCandidate]

@[simp] theorem mem_insertFailed :
    c ∈ (s.insertFailed b).mFailedBlocks ↔ c = b ∨ c ∈ s.mFailedBlocks := List.mem_insert_iff

@[simp] theorem mem_eraseFailed :
    c ∈ (s.eraseFailed b).mFailedBlocks ↔ c ∈ s.mFailedBlocks ∧ c ≠ b := by
  simp [eraseFailed]

theorem foldl_insertCandidate (l : List B) (s : State B) :
    ∃ cs, l.foldl insertCandidate s = { s with setBlockIndexCandidates := cs } ∧
      ∀ c, c ∈ cs ↔ c ∈ l ∨ c ∈ s.setBlockIndexCandidates := by
  induction l generalizing s with
  | nil => exact ⟨_, rfl, by simp⟩
  | cons b l ih =>
    obtain ⟨cs, hcs, hmem⟩ := ih (s.insertCandidate b)
    refine ⟨cs, hcs, fun c => ?_⟩
    rw [hmem, mem_insertCandidate, List.mem_cons]
    tauto

theorem disconnectTip_eq_some (ht : s.tip = some t) (hp : A.parent t = some p)
    (hcoins : s.coinsBestBlock = some t) :
    s.disconnectTip A = some { s with tip := some p, coinsBestBlock := some p } := by
  simp [disconnectTip, ht, hp, hcoins]

variable (s b)

theorem invalidChainFound_eq : ∃ i, s.invalidChainFound A b = { s with
    mBestInvalid := i
    mBestHeader := if s.mBestHeader.any fun h => b ∈ A.path h then s.tip else s.mBestHeader } := by
  unfold invalidChainFound
  dsimp only
  split_ifs <;> exact ⟨_, rfl⟩

end Updates

theorem mem_chain : a ∈ s.chain A ↔ ∃ t, s.tip = some t ∧ a ∈ A.path t := by
  unfold chain
  cases s.tip <;> simp

theorem chain_eq (h : s.tip = some t) : s.chain A = A.path t := by
  rw [chain, h, Option.elim_some]

theorem chain_closed (h : a ∈ s.chain A) (hb : b ∈ A.path a) : b ∈ s.chain A := by
  obtain ⟨t, ht, ha⟩ := mem_chain.1 h
  exact mem_chain.2 ⟨t, ht, Forest.mem_path_trans hb ha⟩

theorem less_irrefl (s : State B) (b : B) : s.less A b b = false := A.comparator.irrefl _

theorem less_trans (h1 : s.less A a b = true) (h2 : s.less A b c = true) : s.less A a c = true :=
  A.comparator.trans h1 h2

theorem less_total (h : a ≠ b) : s.less A a b = true ∨ s.less A b a = true := A.comparator.total h

theorem less_of_work (h : A.nChainWork a < A.nChainWork b) : s.less A a b = true :=
  A.comparator.work h

theorem not_less_of_less (h : s.less A a b = true) : s.less A b a = false := by
  by_contra h'
  have := less_trans h (Bool.eq_true_of_not_eq_false h')
  rw [less_irrefl] at this
  cases this

theorem work_le_of_not_less (h : s.less A a b = false) : A.nChainWork b ≤ A.nChainWork a := by
  by_contra hlt
  rw [less_of_work (not_le.1 hlt)] at h
  cases h

theorem not_less_trans (h1 : s.less A b a = false) (h2 : s.less A c b = false) :
    s.less A c a = false := by
  by_contra h
  have hca := Bool.eq_true_of_not_eq_false h
  by_cases hab : a = b
  · subst hab
    rw [hca] at h2
    cases h2
  · rcases less_total hab with h' | h'
    · have := less_trans hca h'
      rw [h2] at this
      cases this
    · rw [h1] at h'
      cases h'

theorem less_of_not_less (h : s.less A a b = false) (hne : a ≠ b) : s.less A b a = true := by
  rcases less_total hne with h' | h'
  · rw [h] at h'
    cases h'
  · exact h'

theorem work_le_of_mem_path (h : a ∈ A.path b) : A.nChainWork a ≤ A.nChainWork b := by
  induction b using A.induction with
  | step b ih =>
    rcases Forest.mem_path_iff.1 h with rfl | ⟨p, hp, ha⟩
    · exact le_rfl
    · exact (ih p hp ha).trans (A.work_parent hp).le

theorem work_lt_of_mem_path (h : a ∈ A.path b) (hne : a ≠ b) : A.nChainWork a < A.nChainWork b := by
  rcases Forest.mem_path_iff.1 h with rfl | ⟨p, hp, ha⟩
  · exact absurd rfl hne
  · exact (work_le_of_mem_path ha).trans_lt (A.work_parent hp)

theorem less_of_mem_path (h : a ∈ A.path b) (hne : a ≠ b) : s.less A a b = true :=
  less_of_work (work_lt_of_mem_path h hne)

theorem less_congr (ha : (s'.entry a).nSequenceId = (s.entry a).nSequenceId)
    (hb : (s'.entry b).nSequenceId = (s.entry b).nSequenceId) : s'.less A a b = s.less A a b := by
  unfold less key
  rw [ha, hb]

theorem belowTip_eq (h : s.tip = some t) : s.belowTip A b = s.less A b t := by
  rw [belowTip, h, Option.any_some]

theorem aboveTip_eq (h : s.tip = some t) : s.aboveTip A b = s.less A t b := by
  rw [aboveTip, h, Option.any_some]

theorem rbegin_spec {l : List B} (h : s.rbegin A l = some b) :
    b ∈ l ∧ ∀ c ∈ l, s.less A b c = false := by
  induction l generalizing b with
  | nil => cases h
  | cons x l ih =>
    unfold rbegin at h
    cases hl : s.rbegin A l with
    | none =>
      rw [hl] at h
      cases h
      have hnil : l = [] := by
        cases l with
        | nil => rfl
        | cons y l =>
          unfold rbegin at hl
          cases hl' : s.rbegin A l with
          | none => simp [hl'] at hl
          | some z =>
            simp only [hl'] at hl
            split_ifs at hl
      subst hnil
      simp [less_irrefl]
    | some a =>
      rw [hl] at h
      obtain ⟨ha, hmax⟩ := ih hl
      simp only at h
      split_ifs at h with hless
      · cases h
        refine ⟨by simp, fun c hc => ?_⟩
        rcases List.mem_cons.1 hc with rfl | hc
        · exact less_irrefl ..
        · exact not_less_trans (hmax c hc) (not_less_of_less hless)
      · cases h
        refine ⟨by simp [ha], fun c hc => ?_⟩
        rcases List.mem_cons.1 hc with rfl | hc
        · exact Bool.eq_false_of_not_eq_true hless
        · exact hmax c hc

theorem rbegin_isSome {l : List B} (h : b ∈ l) : ∃ a, s.rbegin A l = some a := by
  cases l with
  | nil => cases h
  | cons x l =>
    unfold rbegin
    cases s.rbegin A l with
    | none => exact ⟨x, rfl⟩
    | some a =>
      dsimp only
      split_ifs
      · exact ⟨x, rfl⟩
      · exact ⟨a, rfl⟩

end State

end KPCoin.Chainstate
