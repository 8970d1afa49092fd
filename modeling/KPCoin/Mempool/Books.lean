import KPCoin.Mempool.Pool

/-!
# What an entry's links and totals stand for

The links and totals of an entry stand for four sets of transactions, its `Book`.  `Entry.Keeps w b`
says that the entry has just the links of the book `b`, and that its totals are the sums of the
weights `w` over the sets of `b`.

The functions that change single entries then act on the books: a link is entered or struck out, a
transaction is entered in the totals or struck out of them.  `Pool.KeepsOn V w B` says this for the
entries of a set `V`; its rule for going through a set of entries is `KeepsOn.modifyEach`.
-/

open Finset

namespace KPCoin.Mempool

open Option OrderedSet

/-- What a transaction, or a set of them, adds to a total. -/
@[ext] structure Package where
  count : ℤ
  size : ℤ
  fee : ℤ
  sigOps : ℤ

namespace Package

instance : Add Package :=
  ⟨fun a b => ⟨a.count + b.count, a.size + b.size, a.fee + b.fee, a.sigOps + b.sigOps⟩⟩

instance : Zero Package := ⟨⟨0, 0, 0, 0⟩⟩

instance : Neg Package := ⟨fun a => ⟨-a.count, -a.size, -a.fee, -a.sigOps⟩⟩

instance : AddCommGroup Package where
  nsmul := nsmulRec
  zsmul := zsmulRec
  add_assoc a b c := Package.ext (add_assoc _ _ _) (add_assoc _ _ _) (add_assoc _ _ _)
    (add_assoc _ _ _)
  zero_add a := Package.ext (zero_add _) (zero_add _) (zero_add _) (zero_add _)
  add_zero a := Package.ext (add_zero _) (add_zero _) (add_zero _) (add_zero _)
  add_comm a b := Package.ext (add_comm _ _) (add_comm _ _) (add_comm _ _) (add_comm _ _)
  neg_add_cancel a := Package.ext (neg_add_cancel _) (neg_add_cancel _) (neg_add_cancel _)
    (neg_add_cancel _)

variable (a b : Package)

@[simp] theorem add_count : (a + b).count = a.count + b.count := rfl
@[simp] theorem add_size : (a + b).size = a.size + b.size := rfl
@[simp] theorem add_fee : (a + b).fee = a.fee + b.fee := rfl
@[simp] theorem add_sigOps : (a + b).sigOps = a.sigOps + b.sigOps := rfl
@[simp] theorem neg_count : (-a).count = -a.count := rfl
@[simp] theorem neg_size : (-a).size = -a.size := rfl
@[simp] theorem neg_fee : (-a).fee = -a.fee := rfl
@[simp] theorem neg_sigOps : (-a).sigOps = -a.sigOps := rfl

/-- What transactions add: no count, size or cost is negative. -/
def Nonneg (v : Package) : Prop := 0 ≤ v.count ∧ 0 ≤ v.size ∧ 0 ≤ v.sigOps

/-- The count and the size are not zero either. -/
def Pos (v : Package) : Prop := 0 < v.count ∧ 0 < v.size

variable {α : Type*} (s : Finset α) (w : α → Package)

theorem sum_count : (∑ x ∈ s, w x).count = ∑ x ∈ s, (w x).count :=
  map_sum (⟨⟨Package.count, rfl⟩, fun _ _ => rfl⟩ : Package →+ ℤ) w s

theorem sum_size : (∑ x ∈ s, w x).size = ∑ x ∈ s, (w x).size :=
  map_sum (⟨⟨Package.size, rfl⟩, fun _ _ => rfl⟩ : Package →+ ℤ) w s

variable {w} {t : Finset α}

section

variable (h : ∀ x, (w x).Nonneg)
include h

theorem nonneg_sum : (∑ x ∈ s, w x).Nonneg :=
  sum_induction w Nonneg (fun _ _ h h' => ⟨add_nonneg h.1 h'.1, add_nonneg h.2.1 h'.2.1,
    add_nonneg h.2.2 h'.2.2⟩) ⟨le_rfl, le_rfl, le_rfl⟩ fun x _ => h x

variable {s}

theorem sum_mono (hst : s ⊆ t) : (∑ x ∈ s, w x).size ≤ (∑ x ∈ t, w x).size ∧
    (∑ x ∈ s, w x).sigOps ≤ (∑ x ∈ t, w x).sigOps := by
  classical
  rw [← sum_sdiff hst]
  have hnonneg := nonneg_sum (t \ s) h
  exact ⟨le_add_of_nonneg_left hnonneg.2.1, le_add_of_nonneg_left hnonneg.2.2⟩

theorem pos_sum {x : α} (hx : x ∈ s) (hpos : (w x).Pos) : (∑ x ∈ s, w x).Pos := by
  classical
  rw [← add_sum_erase s w hx]
  have hnonneg := nonneg_sum (s.erase x) h
  exact ⟨add_pos_of_pos_of_nonneg hpos.1 hnonneg.1, add_pos_of_pos_of_nonneg hpos.2 hnonneg.2.1⟩

end

end Package

/-- The fee `d` alone, as a weight. -/
def feeOnly (d : ℤ) : Package := ⟨0, 0, d, 0⟩

/-- The sets an entry's links and totals stand for.  A transaction is among its own descendants and
ancestors. -/
@[ext] structure Book (Txid : Type*) where
  parents : Finset Txid
  children : Finset Txid
  descendants : Finset Txid
  ancestors : Finset Txid

variable {Tx Txid : Type*} [LinearOrder Txid]

namespace Entry

/-- What the entry adds to the totals of others. -/
def weight (e : Entry Tx Txid) : Package := ⟨1, e.size, e.modifiedFee, e.sigOpCost⟩

/-- The totals with descendants are `v`. -/
structure DescendantsAre (e : Entry Tx Txid) (v : Package) : Prop where
  count : e.countWithDescendants = v.count
  size : e.sizeWithDescendants = v.size
  fees : e.modFeesWithDescendants.Is v.fee

/-- The totals with ancestors are `v`. -/
structure AncestorsAre (e : Entry Tx Txid) (v : Package) : Prop where
  count : e.countWithAncestors = v.count
  size : e.sizeWithAncestors = v.size
  fees : e.modFeesWithAncestors.Is v.fee
  sigOps : e.sigOpCostWithAncestors = v.sigOps

/-- No assertion about the entry has failed, and all of them hold. -/
def Sane (e : Entry Tx Txid) : Prop :=
  e.aborted = false ∧ (0 < e.sizeWithDescendants ∧ 0 < e.countWithDescendants) ∧
    (0 < e.sizeWithAncestors ∧ 0 < e.countWithAncestors) ∧
    0 ≤ e.sigOpCostWithAncestors ∧ e.sigOpCostWithAncestors < 2 ^ 31

variable {e : Entry Tx Txid} {v : Package} {e' : Entry Tx Txid}

theorem Sane.updateDescendantState {size count : ℤ} (h : e.Sane)
    (hpos : 0 < e.sizeWithDescendants + size ∧ 0 < e.countWithDescendants + count) (fee : ℤ) :
    (e.updateDescendantState size fee count).Sane :=
  ⟨by simp [Entry.updateDescendantState, h.1, hpos], hpos, h.2.2⟩

theorem Sane.updateAncestorState {size count sigOps : ℤ} (h : e.Sane)
    (hpos : 0 < e.sizeWithAncestors + size ∧ 0 < e.countWithAncestors + count)
    (hsig : 0 ≤ e.sigOpCostWithAncestors + sigOps ∧ e.sigOpCostWithAncestors + sigOps < 2 ^ 31)
    (fee : ℤ) : (e.updateAncestorState size fee count sigOps).Sane :=
  ⟨by simp [Entry.updateAncestorState, h.1, hpos, int32_eq (by omega) hsig.2, hsig.1],
    h.2.1, hpos, hsig⟩

theorem DescendantsAre.update (h : e.DescendantsAre v)
    (x : Package) : (e.updateDescendantState x.size x.fee x.count).DescendantsAre (v + x) where
  count := by simp [updateDescendantState, h.count]
  size := by simp [updateDescendantState, h.size]
  fees := h.fees.add x.fee

theorem AncestorsAre.update (h : e.AncestorsAre v)
    (x : Package) : (e.updateAncestorState x.size x.fee x.count x.sigOps).AncestorsAre (v + x) where
  count := by simp [updateAncestorState, h.count]
  size := by simp [updateAncestorState, h.size]
  fees := h.fees.add x.fee
  sigOps := by simp [updateAncestorState, h.sigOps]

theorem DescendantsAre.updateAncestorState (h : e.DescendantsAre v) (size fee count sigOps : ℤ) :
    (e.updateAncestorState size fee count sigOps).DescendantsAre v :=
  ⟨h.count, h.size, h.fees⟩

theorem AncestorsAre.updateDescendantState (h : e.AncestorsAre v) (size fee count : ℤ) :
    (e.updateDescendantState size fee count).AncestorsAre v :=
  ⟨h.count, h.size, h.fees, h.sigOps⟩

theorem DescendantsAre.updateModifiedFee (h : e.DescendantsAre v) (d : ℤ) :
    (e.updateModifiedFee d).DescendantsAre (v + feeOnly d) where
  count := by simp [Entry.updateModifiedFee, h.count, feeOnly]
  size := by simp [Entry.updateModifiedFee, h.size, feeOnly]
  fees := h.fees.add d

theorem AncestorsAre.updateModifiedFee (h : e.AncestorsAre v)
    (d : ℤ) : (e.updateModifiedFee d).AncestorsAre (v + feeOnly d) where
  count := by simp [Entry.updateModifiedFee, h.count, feeOnly]
  size := by simp [Entry.updateModifiedFee, h.size, feeOnly]
  fees := h.fees.add d
  sigOps := by simp [Entry.updateModifiedFee, h.sigOps, feeOnly]

/-- The entry has the links of the book `b`, and its totals are over the sets of `b`. -/
structure Keeps (w : Txid → Package) (b : Book Txid) (e : Entry Tx Txid) : Prop where
  parents : e.parents.toFinset = b.parents
  children : e.children.toFinset = b.children
  descendants : e.DescendantsAre (∑ d ∈ b.descendants, w d)
  ancestors : e.AncestorsAre (∑ a ∈ b.ancestors, w a)
  sane : e.Sane

namespace Keeps

variable {w : Txid → Package} {b : Book Txid} (h : e.Keeps w b) {x : Package} {D A : Finset Txid}
include h

theorem congr_weight {w' : Txid → Package} (hd : ∀ d ∈ b.descendants, w' d = w d)
    (ha : ∀ a ∈ b.ancestors, w' a = w a) : e.Keeps w' b where
  parents := h.parents
  children := h.children
  descendants := by rw [sum_congr rfl hd]; exact h.descendants
  ancestors := by rw [sum_congr rfl ha]; exact h.ancestors
  sane := h.sane

/-- Other links, and another place in `txns_randomized`, which is not in the book. -/
theorem relink {P C : Finset Txid} {ps cs : OrderedSet Txid} (hP : ps.toFinset = P)
    (hC : cs.toFinset = C) (i : ℕ) : Keeps w { b with parents := P, children := C }
      { e with parents := ps, children := cs, idxRandomized := i } where
  parents := hP
  children := hC
  descendants := ⟨h.descendants.count, h.descendants.size, h.descendants.fees⟩
  ancestors := ⟨h.ancestors.count, h.ancestors.size, h.ancestors.fees, h.ancestors.sigOps⟩
  sane := h.sane

theorem insertChild (c : Txid) : Keeps w { b with children := insert c b.children }
    { e with children := e.children.insert c } :=
  h.relink h.parents (by rw [toFinset_insert, h.children]) _

theorem eraseChild (c : Txid) : Keeps w { b with children := b.children.erase c }
    { e with children := e.children.erase c } :=
  h.relink h.parents (by rw [toFinset_erase, h.children]) _

theorem insertParent (a : Txid) : Keeps w { b with parents := insert a b.parents }
    { e with parents := e.parents.insert a } :=
  h.relink (by rw [toFinset_insert, h.parents]) h.children _

theorem eraseParent (a : Txid) : Keeps w { b with parents := b.parents.erase a }
    { e with parents := e.parents.erase a } :=
  h.relink (by rw [toFinset_erase, h.parents]) h.children _

theorem reindex (i : ℕ) : Keeps w b { e with idxRandomized := i } := h.relink h.parents h.children i

theorem addDescendants (hx : ∑ d ∈ D, w d = ∑ d ∈ b.descendants, w d + x)
    (hpos : (∑ d ∈ D, w d).Pos) :
    (e.updateDescendantState x.size x.fee x.count).Keeps w { b with descendants := D } where
  parents := h.parents
  children := h.children
  descendants := hx ▸ h.descendants.update x
  ancestors := h.ancestors.updateDescendantState _ _ _
  sane := by
    refine h.sane.updateDescendantState ?_ _
    rw [h.descendants.size, h.descendants.count]
    exact (hx ▸ hpos).symm

theorem addAncestors (hx : ∑ a ∈ A, w a = ∑ a ∈ b.ancestors, w a + x)
    (hpos : (∑ a ∈ A, w a).Pos)
    (hsig : 0 ≤ (∑ a ∈ A, w a).sigOps ∧ (∑ a ∈ A, w a).sigOps < 2 ^ 31) :
    (e.updateAncestorState x.size x.fee x.count x.sigOps).Keeps w { b with ancestors := A } where
  parents := h.parents
  children := h.children
  descendants := h.descendants.updateAncestorState _ _ _ _
  ancestors := hx ▸ h.ancestors.update x
  sane := by
    refine h.sane.updateAncestorState ?_ ?_ _
    · rw [h.ancestors.size, h.ancestors.count]
      exact (hx ▸ hpos).symm
    · rw [hx] at hsig
      rw [h.ancestors.sigOps]
      exact hsig

theorem enterDescendants (hD : Disjoint b.descendants D) (hx : x = ∑ d ∈ D, w d) (h0 : x.Nonneg) :
    (e.updateDescendantState x.size x.fee x.count).Keeps w
      { b with descendants := b.descendants ∪ D } := by
  have hsum : ∑ d ∈ b.descendants ∪ D, w d = ∑ d ∈ b.descendants, w d + x := by
    rw [sum_union hD, hx]
  obtain ⟨hsize, hcount⟩ := h.sane.2.1
  rw [h.descendants.size] at hsize
  rw [h.descendants.count] at hcount
  refine h.addDescendants hsum ?_
  rw [hsum]
  exact ⟨add_pos_of_pos_of_nonneg hcount h0.1, add_pos_of_pos_of_nonneg hsize h0.2.1⟩

theorem enterAncestors (hA : Disjoint b.ancestors A) (hx : x = ∑ a ∈ A, w a) (h0 : x.Nonneg)
    (hsig : (∑ a ∈ b.ancestors ∪ A, w a).sigOps < 2 ^ 31) :
    (e.updateAncestorState x.size x.fee x.count x.sigOps).Keeps w
      { b with ancestors := b.ancestors ∪ A } := by
  have hsum : ∑ a ∈ b.ancestors ∪ A, w a = ∑ a ∈ b.ancestors, w a + x := by rw [sum_union hA, hx]
  obtain ⟨⟨hsize, hcount⟩, hcost, -⟩ := h.sane.2.2
  rw [h.ancestors.size] at hsize
  rw [h.ancestors.count] at hcount
  rw [h.ancestors.sigOps] at hcost
  refine h.addAncestors hsum ?_ ⟨?_, hsig⟩
  · rw [hsum]
    exact ⟨add_pos_of_pos_of_nonneg hcount h0.1, add_pos_of_pos_of_nonneg hsize h0.2.1⟩
  · rw [hsum]
    exact add_nonneg hcost h0.2.2

section

variable {id t : Txid} (hw : ∀ a, (w a).Nonneg) (hpos : (w id).Pos) (hne : id ≠ t) (hx : x = -w t)
include hw hpos hne hx

theorem strikeDescendant (hid : id ∈ b.descendants) (ht : t ∈ b.descendants) :
    (e.updateDescendantState x.size x.fee x.count).Keeps w
      { b with descendants := b.descendants.erase t } :=
  h.addDescendants (by rw [sum_erase_eq_sub ht, sub_eq_add_neg, hx])
    (Package.pos_sum hw (mem_erase.2 ⟨hne, hid⟩) hpos)

theorem strikeAncestor (hid : id ∈ b.ancestors) (ht : t ∈ b.ancestors) :
    (e.updateAncestorState x.size x.fee x.count x.sigOps).Keeps w
      { b with ancestors := b.ancestors.erase t } := by
  refine h.addAncestors (by rw [sum_erase_eq_sub ht, sub_eq_add_neg, hx])
    (Package.pos_sum hw (mem_erase.2 ⟨hne, hid⟩) hpos) ⟨(Package.nonneg_sum _ hw).2.2, ?_⟩
  have hlt := h.sane.2.2.2.2
  rw [h.ancestors.sigOps] at hlt
  exact (Package.sum_mono hw (erase_subset _ _)).2.trans_lt hlt

end

end Keeps

/-- What an entry is apart from its links and totals. -/
def core (e : Entry Tx Txid) : TxInfo Tx × ℤ × ℕ := (e.toTxInfo, e.modifiedFee, e.idxRandomized)

theorem weight_eq_of_core (h : e'.core = e.core) : e'.weight = e.weight := by
  simp only [core, Prod.mk.injEq] at h
  simp [weight, h.1, h.2.1]

theorem tx_eq_of_core (h : e'.core = e.core) : e'.tx = e.tx := congrArg (fun c => c.1.tx) h

end Entry

namespace Pool

variable {p p' : Pool Tx Txid} {id : Txid} {f : Entry Tx Txid → Entry Tx Txid} {e : Entry Tx Txid}

/-- The transactions in the pool. -/
def ids (p : Pool Tx Txid) : Finset Txid := p.mapTx.keys.toFinset

theorem mem_ids : id ∈ p.ids ↔ ∃ e, p.find id = some e := by
  rw [ids, List.mem_toFinset, ← isSome_iff_exists, find, AList.lookup_isSome]
  rfl

theorem find_eq_none : p.find id = none ↔ id ∉ p.ids := by
  rw [mem_ids, ← isSome_iff_exists]
  simp

theorem mem_ids_of_find (h : p.find id = some e) : id ∈ p.ids := mem_ids.2 ⟨e, h⟩

theorem card_ids (p : Pool Tx Txid) : p.ids.card = p.mapTx.entries.length := by
  rw [ids, List.toFinset_card_of_nodup p.mapTx.keys_nodup]
  exact List.length_map _

theorem find_modify (id : Txid) (f : Entry Tx Txid → Entry Tx Txid) (p : Pool Tx Txid) (x : Txid) :
    (p.modify id f).find x = if x = id then (p.find id).map f else p.find x :=
  Map.lookup_modify id f p.mapTx x

theorem find_foldl_modify (l : List Txid) (hl : l.Nodup) (f : Entry Tx Txid → Entry Tx Txid)
    (p : Pool Tx Txid) (x : Txid) :
    (l.foldl (fun p id => p.modify id f) p).find x =
      if x ∈ l then (p.find x).map f else p.find x := by
  induction l generalizing p with
  | nil => simp
  | cons id l ih =>
    obtain ⟨hid, hl⟩ := List.nodup_cons.1 hl
    rw [List.foldl_cons, ih hl, find_modify]
    by_cases hx : x = id
    · subst hx
      simp [hid]
    · simp [hx]

theorem find_modifyEach (ids : OrderedSet Txid) (f : Entry Tx Txid → Entry Tx Txid)
    (p : Pool Tx Txid) (x : Txid) :
    (p.modifyEach ids f).find x = if x ∈ ids then (p.find x).map f else p.find x :=
  find_foldl_modify ids.elems ids.nodup f p x

theorem foldl_updateChild (ids : OrderedSet Txid) (child : Txid) (add : Bool) (p : Pool Tx Txid) :
    ids.elems.foldl (fun p parent => p.updateChild parent child add) p =
      p.modifyEach ids fun e =>
        { e with children := if add then e.children.insert child else e.children.erase child } :=
  rfl

/-- No assertion has failed. -/
def Alive (p : Pool Tx Txid) : Prop :=
  p.failed = false ∧ ∀ id e, p.find id = some e → e.aborted = false

theorem failed_modifyEach (ids : OrderedSet Txid) (f : Entry Tx Txid → Entry Tx Txid)
    (p : Pool Tx Txid) : (p.modifyEach ids f).failed = p.failed :=
  List.foldlRecOn (motive := fun q : Pool Tx Txid => q.failed = p.failed) _ _ rfl fun _ hq _ _ => hq

/-- What the transaction adds to the totals of others. -/
def weight (p : Pool Tx Txid) (id : Txid) : Package := (p.find id).elim 0 Entry.weight

theorem weight_of_find (h : p.find id = some e) : p.weight id = e.weight := by
  rw [weight, h]
  rfl

theorem weight_nonneg (p : Pool Tx Txid) (id : Txid) : (p.weight id).Nonneg := by
  cases he : p.find id with
  | none => rw [weight, he]; exact ⟨le_rfl, le_rfl, le_rfl⟩
  | some e => rw [weight_of_find he]; exact ⟨zero_le_one, e.size_pos.le, e.sigOpCost_nonneg⟩

theorem weight_pos (hid : id ∈ p.ids) : (p.weight id).Pos := by
  obtain ⟨e, he⟩ := mem_ids.1 hid
  rw [weight_of_find he]
  exact ⟨one_pos, e.size_pos⟩

theorem weight_size_eq (p : Pool Tx Txid) (id : Txid) :
    (p.weight id).size = (p.find id).elim 0 (·.size) := by
  cases he : p.find id with
  | none => rw [weight, he]; rfl
  | some e => rw [weight_of_find he]; rfl

/-- The pools differ only in the links and totals of their entries. -/
structure Retouched (p p' : Pool Tx Txid) : Prop where
  rest : p' = { p with mapTx := p'.mapTx }
  core : ∀ id, (p'.find id).map Entry.core = (p.find id).map Entry.core

namespace Retouched

theorem refl (p : Pool Tx Txid) : Retouched p p := ⟨rfl, fun _ => rfl⟩

theorem trans {q : Pool Tx Txid} (h : Retouched p q) (h' : Retouched q p') : Retouched p p' where
  rest := by rw [h'.rest, h.rest]
  core id := (h'.core id).trans (h.core id)

theorem modify (id : Txid) (hf : ∀ e, (f e).core = e.core) (p : Pool Tx Txid) :
    Retouched p (p.modify id f) where
  rest := rfl
  core x := by
    rw [find_modify]
    split_ifs with hx
    · rw [hx, Option.map_map]
      exact congrArg (fun g => (p.find id).map g) (funext hf)
    · rfl

theorem foldl {α : Type*} {g : Pool Tx Txid → α → Pool Tx Txid} (hg : ∀ p x, Retouched p (g p x))
    (l : List α) (p : Pool Tx Txid) : Retouched p (l.foldl g p) := by
  induction l generalizing p with
  | nil => exact refl p
  | cons x l ih => exact (hg p x).trans (ih (g p x))

theorem modifyEach (ids : OrderedSet Txid) (hf : ∀ e, (f e).core = e.core) (p : Pool Tx Txid) :
    Retouched p (p.modifyEach ids f) :=
  foldl (fun p id => modify id hf p) ids.elems p

end Retouched

theorem retouched_updateChild (entry child : Txid) (add : Bool) (p : Pool Tx Txid) :
    Retouched p (p.updateChild entry child add) := by
  refine Retouched.modify entry ?_ p
  exact fun _ => rfl

theorem retouched_updateParent (entry parent : Txid) (add : Bool) (p : Pool Tx Txid) :
    Retouched p (p.updateParent entry parent add) := by
  refine Retouched.modify entry ?_ p
  exact fun _ => rfl

theorem retouched_updateAncestorsOf (add : Bool) (it : Txid) (ancestors : OrderedSet Txid)
    (p : Pool Tx Txid) : Retouched p (p.updateAncestorsOf add it ancestors) := by
  unfold updateAncestorsOf
  cases p.find it with
  | none => exact Retouched.refl p
  | some e =>
    refine Retouched.trans (Retouched.foldl (fun p parent => ?_) _ p) (Retouched.modifyEach _ ?_ _)
    · exact retouched_updateChild _ _ _ p
    · exact fun _ => rfl

theorem retouched_updateEntryForAncestors (it : Txid) (ancestors : OrderedSet Txid)
    (p : Pool Tx Txid) : Retouched p (p.updateEntryForAncestors it ancestors) := by
  refine Retouched.modify it ?_ p
  exact fun _ => rfl

namespace Retouched

theorem ids_eq (h : Retouched p p') : p'.ids = p.ids := by
  ext id
  rw [mem_ids, mem_ids, ← isSome_iff_exists, ← isSome_iff_exists, ← isSome_map, h.core, isSome_map]

theorem find_some (h : Retouched p p') {e' : Entry Tx Txid} (he : p'.find id = some e') :
    ∃ e, p.find id = some e ∧ e'.core = e.core := by
  have hcore := h.core id
  rw [he] at hcore
  obtain ⟨e, hf, hc⟩ := map_eq_some_iff.1 hcore.symm
  exact ⟨e, hf, hc.symm⟩

theorem weight_eq (h : Retouched p p') : p'.weight = p.weight := by
  funext id
  cases he : p'.find id with
  | none =>
    have hnone : p.find id = none := by
      rw [find_eq_none, ← h.ids_eq, ← find_eq_none, he]
    rw [weight, weight, he, hnone]
  | some e' =>
    obtain ⟨e, hf, hc⟩ := h.find_some he
    rw [weight_of_find he, weight_of_find hf, Entry.weight_eq_of_core hc]

end Retouched

/-- The entries of `V` keep the books `B`. -/
def KeepsOn (V : Finset Txid) (w : Txid → Package) (B : Txid → Book Txid) (p : Pool Tx Txid) :
    Prop :=
  ∀ id ∈ V, ∀ e, p.find id = some e → e.Keeps w (B id)

variable {V : Finset Txid} {w : Txid → Package} {B B' : Txid → Book Txid}

section

theorem Alive.modifyEach (h : p.Alive) (ids : OrderedSet Txid)
    {f : Entry Tx Txid → Entry Tx Txid} (hf : ∀ e, (f e).aborted = e.aborted) :
    (p.modifyEach ids f).Alive := by
  refine ⟨(failed_modifyEach ..).trans h.1, fun id e he => ?_⟩
  rw [find_modifyEach] at he
  split_ifs at he
  · obtain ⟨e₀, he₀, rfl⟩ := Option.map_eq_some_iff.1 he
    exact (hf e₀).trans (h.2 id e₀ he₀)
  · exact h.2 id e he

theorem KeepsOn.alive (h : p.KeepsOn p.ids w B) (hf : p.failed = false) : p.Alive :=
  ⟨hf, fun id e he => (h id (mem_ids_of_find he) e he).sane.1⟩

variable (h : p.KeepsOn V w B)
include h

theorem KeepsOn.mono {W : Finset Txid} (hW : W ⊆ V) : p.KeepsOn W w B := fun id hid =>
  h id (hW hid)

theorem KeepsOn.congr (hB : ∀ id ∈ V, B' id = B id) : p.KeepsOn V w B' := by
  intro id hid e he
  rw [hB id hid]
  exact h id hid e he

/-- Each entry of a set is changed from its book to the new one, and the others' books stay as they
are. -/
theorem KeepsOn.of_find {S : Txid → Prop} [DecidablePred S]
    (hfind : ∀ x, p'.find x = if S x then (p.find x).map f else p.find x)
    (hf : ∀ id ∈ V, S id → ∀ e, p.find id = some e → e.Keeps w (B id) → (f e).Keeps w (B' id))
    (hB : ∀ id ∈ V, ¬ S id → B' id = B id) : p'.KeepsOn V w B' := by
  intro id hid e' he'
  rw [hfind] at he'
  split_ifs at he' with hS
  · obtain ⟨e, he, rfl⟩ := map_eq_some_iff.1 he'
    exact hf id hid hS e he (h id hid e he)
  · rw [hB id hid hS]
    exact h id hid e' he'

theorem KeepsOn.modify {t : Txid}
    (hf : t ∈ V → ∀ e, p.find t = some e → e.Keeps w (B t) → (f e).Keeps w (B' t))
    (hB : ∀ id ∈ V, id ≠ t → B' id = B id) : (p.modify t f).KeepsOn V w B' := by
  refine h.of_find (S := (· = t)) (fun x => ?_) (by rintro _ ht rfl; exact hf ht) hB
  rw [find_modify]
  split_ifs with hx
  · rw [hx]
  · rfl

theorem KeepsOn.modifyEach {ids : OrderedSet Txid}
    (hf : ∀ id ∈ V, id ∈ ids → ∀ e, p.find id = some e → e.Keeps w (B id) → (f e).Keeps w (B' id))
    (hB : ∀ id ∈ V, id ∉ ids → B' id = B id) : (p.modifyEach ids f).KeepsOn V w B' :=
  h.of_find (find_modifyEach ids f p) hf hB

end

end Pool

end KPCoin.Mempool
