import KPCoin.Mempool.Accounts

/-!
# Adding a transaction

`addUnchecked` on a pool whose accounts are exact for a relation `L` leaves them exact for `L` with
edges from the parents of the new transaction (`Accounts.addUnchecked`).  Nothing is assumed about
transactions in the pool that spend its outputs: they are not linked.

The sums over the ancestors are handed on in narrower types; they have to fit (`Fits`).
-/

open Relation Finset

namespace KPCoin.Mempool.Pool

open PoolTx Function

variable {Tx Txid : Type*} [LinearOrder Txid] {p : Pool Tx Txid}
  {L : Txid → Txid → Prop} {id x t : Txid} {info : TxInfo Tx} {V : Finset Txid}
  {w : Txid → Package} {B : Txid → Book Txid} {ancestors : OrderedSet Txid} {e : Entry Tx Txid}

theorem KeepsOn.foldl_updateParent (h : p.KeepsOn V w B) (t : Txid) (l : List Txid) :
    (l.foldl (fun p pit => p.updateParent t pit true) p).KeepsOn V w
      (update B t ⟨(B t).parents ∪ l.toFinset, (B t).children, (B t).descendants,
        (B t).ancestors⟩) := by
  induction l generalizing p B with
  | nil => exact h.congr fun id _ => by simp
  | cons a l ih =>
    have hstep : (p.updateParent t a true).KeepsOn V w
        (update B t ⟨insert a (B t).parents, (B t).children, (B t).descendants,
          (B t).ancestors⟩) := by
      refine h.modify (fun _ e _ hk => ?_) fun id _ hid => by simp [hid]
      rw [update_self]
      exact hk.insertParent a
    refine (ih hstep).congr fun id _ => ?_
    by_cases hid : id = t
    · subst hid
      simp only [update_self, List.toFinset_cons, Book.mk.injEq, and_self, and_true]
      ext y
      simp only [mem_union, mem_insert, List.mem_toFinset]
      tauto
    · simp

/-- The new transaction is linked to its parents and entered in the totals of its ancestors. -/
theorem KeepsOn.updateAncestorsOf_true (h : p.KeepsOn V w B) (ancestors : OrderedSet Txid)
    (he : p.find t = some e)
    (hw : w t = e.weight) (hnew : ∀ id ∈ V, id ∈ ancestors → t ∉ (B id).descendants) :
    (p.updateAncestorsOf true t ancestors).KeepsOn V w fun id =>
      ⟨(B id).parents, if id ∈ e.parents then insert t (B id).children else (B id).children,
        if id ∈ ancestors then insert t (B id).descendants else (B id).descendants,
        (B id).ancestors⟩ := by
  simp only [updateAncestorsOf, he, if_true]
  rw [foldl_updateChild]
  refine KeepsOn.modifyEach (B := fun id => ⟨(B id).parents,
    if id ∈ e.parents then insert t (B id).children else (B id).children, (B id).descendants,
    (B id).ancestors⟩) ?_ ?_ ?_
  · refine h.modifyEach (fun id _ hid e' _ hk => ?_) fun id _ hid => ?_
    · simp only [if_pos hid]
      exact hk.insertChild t
    · simp [if_neg hid]
  · intro id hV hid e' _ hk
    have hx : (⟨1, 1 * e.size, 1 * e.modifiedFee, e.sigOpCost⟩ : Package) = ∑ d ∈ {t}, w d := by
      rw [sum_singleton, hw, one_mul, one_mul]
      rfl
    have hk' := hk.enterDescendants (disjoint_singleton_right.2 (hnew id hV hid)) hx
      ⟨zero_le_one, by simpa using e.size_pos.le, e.sigOpCost_nonneg⟩
    rw [union_comm, ← insert_eq] at hk'
    simpa [if_pos hid] using hk'
  · intro id _ hid
    simp [if_neg hid]

/-- The sums over a set of ancestors fit the types in which they are handed on. -/
def Fits (p : Pool Tx Txid) (ancestors : OrderedSet Txid) : Prop :=
  (∑ a ∈ ancestors.toFinset, p.weight a).size < 2 ^ 31 ∧
    -2 ^ 63 ≤ (∑ a ∈ ancestors.toFinset, p.weight a).fee ∧
    (∑ a ∈ ancestors.toFinset, p.weight a).fee < 2 ^ 63

/-- The sums over the ancestors of a new transaction fit, and the cost with its own is an `int`. -/
def FitsNew (p : Pool Tx Txid) (info : TxInfo Tx) (ancestors : OrderedSet Txid) : Prop :=
  p.Fits ancestors ∧
    info.sigOpCost + (∑ a ∈ ancestors.toFinset, p.weight a).sigOps < 2 ^ 31

/-- A sum over the entries of a set, read off the weights. -/
theorem sum_filterMap_find (s : OrderedSet Txid) (g : Entry Tx Txid → ℤ) (π : Package →+ ℤ)
    (hg : ∀ e : Entry Tx Txid, π e.weight = g e) :
    ((s.elems.filterMap p.find).map g).sum = π (∑ a ∈ s.toFinset, p.weight a) := by
  have hlist : ∀ l : List Txid,
      ((l.filterMap p.find).map g).sum = (l.map fun a => π (p.weight a)).sum := by
    intro l
    induction l with
    | nil => simp
    | cons a l ih =>
      cases he : p.find a with
      | none =>
        have hzero : π (p.weight a) = 0 := by rw [weight, he, Option.elim_none, map_zero]
        simp [he, hzero, ih]
      | some e => simp [he, ih, weight_of_find he, hg]
  rw [hlist, map_sum]
  rfl

theorem Fits.sums {s : OrderedSet Txid} (hfits : p.Fits s) (hids : ∀ a ∈ s, a ∈ p.ids) :
    int32 ((s.elems.filterMap p.find).map (·.size)).sum = (∑ a ∈ s.toFinset, p.weight a).size ∧
      int64 ((s.elems.filterMap p.find).map (·.modifiedFee)).sum =
        (∑ a ∈ s.toFinset, p.weight a).fee ∧
      (s.size : ℤ) = (∑ a ∈ s.toFinset, p.weight a).count := by
  have hsize := sum_filterMap_find (p := p) s (·.size)
    ⟨⟨Package.size, rfl⟩, fun _ _ => rfl⟩ fun _ => rfl
  have hfee := sum_filterMap_find (p := p) s (·.modifiedFee)
    ⟨⟨Package.fee, rfl⟩, fun _ _ => rfl⟩ fun _ => rfl
  obtain ⟨hlt, hge, hlt'⟩ := hfits
  have hpos := (Package.nonneg_sum s.toFinset p.weight_nonneg).2.1
  have hge' : -2 ^ 31 ≤ (∑ a ∈ s.toFinset, p.weight a).size := by omega
  refine ⟨?_, ?_, ?_⟩
  · rw [hsize]
    exact int32_eq hge' hlt
  · rw [hfee]
    exact int64_eq hge hlt'
  · have hone : ∀ a ∈ s.toFinset, (p.weight a).count = 1 := by
      intro a ha
      obtain ⟨e, he⟩ := mem_ids.1 (hids a ha)
      rw [weight_of_find he]
      rfl
    rw [Package.sum_count, sum_congr rfl hone]
    simp

theorem KeepsOn.updateEntryForAncestors (h : p.KeepsOn V p.weight B) (t : Txid)
    (hids : ∀ a ∈ ancestors, a ∈ p.ids)
    (hfits : p.Fits ancestors) (hnew : Disjoint (B t).ancestors ancestors.toFinset)
    (hsig : (∑ a ∈ (B t).ancestors ∪ ancestors.toFinset, p.weight a).sigOps < 2 ^ 31) :
    (p.updateEntryForAncestors t ancestors).KeepsOn V p.weight
      (update B t ⟨(B t).parents, (B t).children, (B t).descendants,
        (B t).ancestors ∪ ancestors.toFinset⟩) := by
  obtain ⟨hsize, hfee, hcount⟩ := hfits.sums hids
  have hsigOps := sum_filterMap_find (p := p) ancestors (·.sigOpCost)
    ⟨⟨Package.sigOps, rfl⟩, fun _ _ => rfl⟩ fun _ => rfl
  refine h.modify (fun _ e _ hk => ?_) fun id _ hid => by simp [hid]
  rw [update_self, hsize, hfee, hsigOps, hcount]
  exact hk.enterAncestors hnew rfl (Package.nonneg_sum _ p.weight_nonneg) hsig

variable {q : Pool Tx Txid} (it : Txid)

section

variable (hq : ∀ x, q.find x = if x = t then some e else p.find x)
include hq

theorem ids_of_find_new : q.ids = insert t p.ids := by
  ext x
  rw [mem_ids, hq, mem_insert, mem_ids]
  split_ifs with hx
  · simp [hx]
  · simp [hx]

theorem weight_of_find_new (ht : t ∉ p.ids) {a : Txid} (ha : a ∈ p.ids) :
    q.weight a = p.weight a := by
  rw [weight, weight, hq, if_neg fun (hat : a = t) => ht (hat ▸ ha)]

end

theorem find_countNew (info : TxInfo Tx) (p : Pool Tx Txid) (x : Txid) :
    (p.countNew it info).find x = if x = it then
      (p.find it).map fun e => { e with idxRandomized := p.txnsRandomized.length } else p.find x :=
  find_modify it _ p x

theorem weight_countNew (info : TxInfo Tx) (p : Pool Tx Txid) :
    (p.countNew it info).weight = p.weight := by
  funext x
  rw [weight, weight, find_countNew]
  split_ifs with hx
  · rw [hx]
    cases p.find it with
    | none => rfl
    | some e => rfl
  · rfl

theorem KeepsOn.countNew (h : p.KeepsOn V w B) (it : Txid) (info : TxInfo Tx) :
    (p.countNew it info).KeepsOn V w B :=
  KeepsOn.modify h (fun _ _ _ hk => hk.reindex _) fun _ _ _ => rfl

variable [PoolTx Tx Txid] {P : Txid → Prop} {ids : Finset Txid} {S A : Finset Txid}

/-- The new entry before it is linked. -/
def newEntry (p : Pool Tx Txid) (info : TxInfo Tx) : Entry Tx Txid :=
  let delta := (p.mapDeltas.lookup (getHash info.tx)).getD 0
  if delta = 0 then Entry.new info else (Entry.new info).updateModifiedFee delta

theorem find_applyDelta_emplace (ht : getHash info.tx ∉ p.ids) (x : Txid) :
    ((p.emplace info).applyDelta (getHash info.tx)).find x =
      if x = getHash info.tx then some (p.newEntry info) else p.find x := by
  have hemplace : p.emplace info =
      { p with mapTx := p.mapTx.insert (getHash info.tx) (Entry.new info) } := by
    rw [emplace, find_eq_none.2 ht]
  have hfind : ∀ x, (p.emplace info).find x =
      if x = getHash info.tx then some (Entry.new info) else p.find x := by
    intro x
    rw [hemplace]
    exact Map.lookup_insert_eq_ite _ _ _ _
  have hdeltas : (p.emplace info).mapDeltas = p.mapDeltas := by rw [hemplace]
  rw [applyDelta, hdeltas, newEntry]
  by_cases hdelta : (p.mapDeltas.lookup (getHash info.tx)).getD 0 = 0
  · simp [hdelta, hfind]
  · simp only [hdelta, if_false, find_modify, hfind, if_true, Option.map_some]
    split_ifs
    · rfl
    · rfl

theorem newEntry_keeps (hw : w t = (p.newEntry info).weight) :
    (p.newEntry info).Keeps w ⟨∅, ∅, {t}, {t}⟩ := by
  have hsane : (Entry.new info : Entry Tx Txid).Sane := ⟨rfl, ⟨info.size_pos, one_pos⟩,
    ⟨info.size_pos, one_pos⟩, info.sigOpCost_nonneg, info.sigOpCost_lt⟩
  have hnew : ∀ w : Txid → Package, w t = (Entry.new info : Entry Tx Txid).weight →
      (Entry.new info).Keeps w ⟨∅, ∅, {t}, {t}⟩ := by
    intro w hw
    refine ⟨rfl, rfl, ?_, ?_, hsane⟩
    · rw [sum_singleton, hw]
      exact ⟨rfl, rfl, fun _ => rfl⟩
    · rw [sum_singleton, hw]
      exact ⟨rfl, rfl, fun _ => rfl, rfl⟩
  by_cases hdelta : (p.mapDeltas.lookup (getHash info.tx)).getD 0 = 0
  · simp only [newEntry, hdelta, if_true] at hw ⊢
    exact hnew w hw
  · simp only [newEntry, hdelta, if_false] at hw ⊢
    refine ⟨rfl, rfl, ?_, ?_, hsane⟩
    · rw [sum_singleton, hw]
      exact ⟨rfl, rfl, FeeTotal.Is.add (fun _ => rfl) _⟩
    · rw [sum_singleton, hw]
      exact ⟨rfl, rfl, FeeTotal.Is.add (fun _ => rfl) _, rfl⟩

theorem newEntry_toTxInfo (p : Pool Tx Txid) (info : TxInfo Tx) :
    (p.newEntry info).toTxInfo = info := by
  simp only [newEntry]
  split_ifs
  · rfl
  · rfl

theorem mem_linkParents_list {tx : Tx} (hself : ∀ o ∈ vin tx, o.hash ≠ t)
    (hq : ∀ x, q.find x = if x = t then some e else p.find x) :
    x ∈ ((OrderedSet.ofList ((vin tx).map (·.hash))).elems.filter fun h =>
      (q.find h).isSome).toFinset ↔ x ∈ p.ids ∧ ∃ o ∈ vin tx, o.hash = x := by
  rw [List.mem_toFinset, List.mem_filter, OrderedSet.mem_elems, OrderedSet.mem_ofList,
    List.mem_map, and_comm]
  refine and_congr_left fun ⟨o, ho, hox⟩ => ?_
  rw [hq, if_neg (hox ▸ hself o ho), mem_ids, Option.isSome_iff_exists]

/-- The transactions in the pool whose outputs `tx` spends. -/
def IsParent (p : Pool Tx Txid) (tx : Tx) (a : Txid) : Prop :=
  a ∈ p.ids ∧ ∃ o ∈ vin tx, o.hash = a

section

variable (hin : ∀ a b, L a b → a ∈ ids ∧ b ∈ ids) (ht : t ∉ ids) (hP : ∀ a, P a → a ∈ ids)
include hin ht hP

theorem bookOf_withSink_self (hS : ∀ a, a ∈ S ↔ P a)
    (hA : ∀ a, a ∈ A ↔ ∃ s, P s ∧ ReflTransGen L a s) :
    bookOf (insert t ids) (withSink L P t) t = ⟨S, ∅, {t}, insert t A⟩ := by
  have hfrom : ∀ x, ¬ L t x := fun x hx => ht (hin t x hx).1
  have hto : ∀ x, ¬ L x t := fun x hx => ht (hin x t hx).2
  have hPt : ¬ P t := fun h => ht (hP t h)
  refine Book.ext (ext fun a => ?_) (ext fun a => ?_) (ext fun a => ?_) (ext fun a => ?_)
  · rw [mem_bookOf_parents, withSink_to_sink hto, hS]
    exact and_iff_right_of_imp fun h => mem_insert_of_mem (hP a h)
  · simp [not_withSink_from_sink hfrom hPt]
  · rw [mem_bookOf_descendants, mem_singleton]
    refine ⟨fun ⟨_, h⟩ => ?_, fun h => ⟨h ▸ mem_insert_self t ids, h ▸ .refl⟩⟩
    by_contra hne
    obtain h | ⟨c, hc, -⟩ := h.cases_head
    · exact hne h.symm
    · exact not_withSink_from_sink hfrom hPt hc
  · rw [mem_bookOf_ancestors, reflTransGen_iff_eq_or_transGen,
      transGen_withSink_to_sink hfrom hto hPt, mem_insert, mem_insert, hA, eq_comm]
    refine ⟨fun h => h.2, fun h => ⟨h.imp_right ?_, h⟩⟩
    rintro ⟨s, hs, h⟩
    obtain h | ⟨c, hc, -⟩ := h.cases_head
    · exact h ▸ hP s hs
    · exact (hin a c hc).1

theorem bookOf_withSink_of_mem (hid : id ∈ ids)
    (hS : ∀ a, a ∈ S ↔ P a) (hA : ∀ a, a ∈ A ↔ ∃ s, P s ∧ ReflTransGen L a s) :
    bookOf (insert t ids) (withSink L P t) id =
      ⟨(bookOf ids L id).parents,
        if id ∈ S then insert t (bookOf ids L id).children else (bookOf ids L id).children,
        if id ∈ A then insert t (bookOf ids L id).descendants else (bookOf ids L id).descendants,
        (bookOf ids L id).ancestors⟩ := by
  have hfrom : ∀ x, ¬ L t x := fun x hx => ht (hin t x hx).1
  have hto : ∀ x, ¬ L x t := fun x hx => ht (hin x t hx).2
  have hPt : ¬ P t := fun h => ht (hP t h)
  have hne : id ≠ t := fun h => ht (h ▸ hid)
  refine Book.ext (ext fun a => ?_) (ext fun a => ?_) (ext fun a => ?_) (ext fun a => ?_)
  · simp only [mem_bookOf_parents, mem_insert, withSink_of_ne hne]
    refine and_congr_left fun h => or_iff_right ?_
    rintro rfl
    exact hfrom id h
  · simp only [apply_ite (a ∈ ·), mem_bookOf_children, mem_insert]
    by_cases ha : a = t
    · subst ha
      simp [withSink_to_sink hto, hS, ht]
    · simp [withSink_of_ne ha, ha]
  · simp only [apply_ite (a ∈ ·), mem_bookOf_descendants, mem_insert]
    by_cases ha : a = t
    · subst ha
      rw [reflTransGen_iff_eq_or_transGen, transGen_withSink_to_sink hfrom hto hPt, ← hA]
      simp [hne.symm, ht]
    · simp [reflTransGen_withSink_of_ne hfrom hPt ha, ha]
  · simp only [mem_bookOf_ancestors, mem_insert, reflTransGen_withSink_of_ne hfrom hPt hne]
    refine and_congr_left fun h => or_iff_right ?_
    rintro rfl
    obtain h | ⟨c, hc, -⟩ := h.cases_head
    · exact hne h.symm
    · exact hfrom c hc

end

/-- With the new entry, alone for now, all entries keep their books. -/
theorem Accounts.keepsOn_new (h : p.Accounts L) (ht : t ∉ p.ids)
    (hq : ∀ x, q.find x = if x = t then some e else p.find x)
    (he : e.Keeps q.weight ⟨∅, ∅, {t}, {t}⟩) :
    q.KeepsOn (insert t p.ids) q.weight (update (bookOf p.ids L) t ⟨∅, ∅, {t}, {t}⟩) := by
  intro id hid e' he'
  rw [hq] at he'
  split_ifs at he' with hx
  · cases he'
    rw [hx, update_self]
    exact he
  · -- the books of the others do not mention the new transaction
    rw [update_of_ne hx]
    exact (h.keeps id (mem_ids_of_find he') e' he').congr_weight
      (fun d hd => weight_of_find_new hq ht (mem_bookOf_descendants.1 hd).1)
      fun a ha => weight_of_find_new hq ht (mem_bookOf_ancestors.1 ha).1

theorem retouched_linkParents (tx : Tx) (p : Pool Tx Txid) : Retouched p (p.linkParents it tx) := by
  refine Retouched.foldl (fun p _ => ?_) _ p
  exact retouched_updateParent _ _ _ p

theorem keepsOn_linkParents {tx : Tx} (hself : ∀ o ∈ vin tx, o.hash ≠ t)
    (hq : ∀ x, q.find x = if x = t then some e else p.find x)
    (h : q.KeepsOn (insert t p.ids) w (update B t ⟨∅, ∅, {t}, {t}⟩)) :
    ∃ e', (q.linkParents t tx).find t = some e' ∧ (∀ a, a ∈ e'.parents ↔ p.IsParent tx a) ∧
      (q.linkParents t tx).KeepsOn (insert t p.ids) w
        (update B t ⟨e'.parents.toFinset, ∅, {t}, {t}⟩) := by
  have hmem := mem_insert_self t p.ids
  have hlink : (q.linkParents t tx).KeepsOn _ _ _ := h.foldl_updateParent t _
  rw [update_self, update_idem] at hlink
  obtain ⟨e', he'⟩ : ∃ e', (q.linkParents t tx).find t = some e' := by
    rw [← mem_ids, (retouched_linkParents t tx q).ids_eq, ids_of_find_new hq]
    exact hmem
  have hparents := (hlink t hmem e' he').parents
  rw [update_self] at hparents
  refine ⟨e', he', fun a => ?_, hparents ▸ hlink⟩
  rw [← OrderedSet.mem_toFinset, hparents]
  exact mem_linkParents_list hself hq

theorem Accounts.keepsOn_linkAncestors (h : p.Accounts L)
    (ht : t ∉ p.ids) (hP : ∀ a, P a → a ∈ p.ids)
    (hanc : ∀ a, a ∈ ancestors ↔ ∃ s, P s ∧ ReflTransGen L a s)
    (hfits : p.FitsNew e.toTxInfo ancestors) (hqids : q.ids = insert t p.ids)
    (hqw : ∀ a ∈ p.ids, q.weight a = p.weight a)
    (he : q.find t = some e) (hparents : ∀ a, a ∈ e.parents ↔ P a)
    (hk : q.KeepsOn (insert t p.ids) q.weight
      (update (bookOf p.ids L) t ⟨e.parents.toFinset, ∅, {t}, {t}⟩)) :
    ((q.updateAncestorsOf true t ancestors).updateEntryForAncestors t ancestors).KeepsOn
      (insert t p.ids) q.weight (bookOf (insert t p.ids) (withSink L P t)) := by
  have hancIds : ∀ a ∈ ancestors, a ∈ p.ids := by
    intro a ha
    obtain ⟨s, hs, has⟩ := (hanc a).1 ha
    obtain rfl | ⟨c, hc, -⟩ := has.cases_head
    · exact hP a hs
    · exact (h.inside a c hc).1
  have hne : ∀ a ∈ p.ids, a ≠ t := fun a ha hat => ht (hat ▸ ha)
  have hr := retouched_updateAncestorsOf true t ancestors q
  have hcount := hk.updateAncestorsOf_true ancestors he (weight_of_find he) (by
    intro a _ ha
    rw [update_of_ne (hne a (hancIds a ha))]
    exact fun hmem => ht (mem_bookOf_descendants.1 hmem).1)
  rw [← hr.weight_eq] at hcount ⊢
  have hw : ∀ a ∈ ancestors.toFinset,
      (q.updateAncestorsOf true t ancestors).weight a = p.weight a := by
    intro a ha
    rw [hr.weight_eq, hqw a (hancIds a ha)]
  have hnot : t ∉ ancestors.toFinset := fun hmem => ht (hancIds t hmem)
  refine (hcount.updateEntryForAncestors t (fun a ha => ?_) ?_ ?_ ?_).congr fun id hid => ?_
  · rw [hr.ids_eq, hqids]
    exact mem_insert_of_mem (hancIds a ha)
  · unfold Fits
    rw [sum_congr rfl hw]
    exact hfits.1
  · rw [update_self, disjoint_singleton_left]
    exact hnot
  · rw [update_self, ← insert_eq, sum_insert hnot, sum_congr rfl hw, hr.weight_eq,
      weight_of_find he]
    exact hfits.2
  · by_cases hidt : id = t
    · subst hidt
      have hnot : id ∉ e.parents := fun hmem => ht (hP id ((hparents id).1 hmem))
      have hnot' : id ∉ ancestors := fun hmem => ht (hancIds id hmem)
      rw [bookOf_withSink_self (S := e.parents.toFinset) (A := ancestors.toFinset) h.inside ht hP
        hparents hanc]
      simp only [update_self, if_neg hnot, if_neg hnot', insert_eq]
    · rw [bookOf_withSink_of_mem (S := e.parents.toFinset) (A := ancestors.toFinset) h.inside ht hP
        (mem_of_mem_insert_of_ne hid hidt) hparents hanc]
      simp [update_of_ne hidt]

/-- The pool in `addUnchecked` with the new entry, before it is linked. -/
def withNew (info : TxInfo Tx) (p : Pool Tx Txid) : Pool Tx Txid :=
  ((p.emplace info).applyDelta (getHash info.tx)).insertNextTx info.tx

/-- The pool in `addUnchecked` with the new entry linked, before it is counted. -/
def withLinked (info : TxInfo Tx) (ancestors : OrderedSet Txid) (p : Pool Tx Txid) : Pool Tx Txid :=
  (((p.withNew info).linkParents (getHash info.tx) info.tx).updateAncestorsOf true
    (getHash info.tx) ancestors).updateEntryForAncestors (getHash info.tx) ancestors

theorem addUnchecked_eq (info : TxInfo Tx) (ancestors : OrderedSet Txid) (p : Pool Tx Txid) :
    p.addUnchecked info ancestors = (p.withLinked info ancestors).countNew (getHash info.tx) info :=
  rfl

theorem find_withNew (ht : getHash info.tx ∉ p.ids) (x : Txid) :
    (p.withNew info).find x = if x = getHash info.tx then some (p.newEntry info) else p.find x :=
  find_applyDelta_emplace ht x

theorem retouched_withLinked (info : TxInfo Tx) (ancestors : OrderedSet Txid) (p : Pool Tx Txid) :
    Retouched (p.withNew info) (p.withLinked info ancestors) :=
  ((retouched_linkParents _ _ _).trans (retouched_updateAncestorsOf _ _ _ _)).trans
    (retouched_updateEntryForAncestors _ _ _)

/-- The entries after adding: the new one, with the information given and a place at the end of
`txns_randomized`, and the others as they were. -/
theorem find_addUnchecked (ht : getHash info.tx ∉ p.ids) {e : Entry Tx Txid}
    (he : (p.addUnchecked info ancestors).find x = some e) :
    (x = getHash info.tx ∧ e.toTxInfo = info ∧ e.modifiedFee = (p.newEntry info).modifiedFee ∧
      e.idxRandomized = (p.withLinked info ancestors).txnsRandomized.length) ∨
    (x ≠ getHash info.tx ∧ ∃ e0, p.find x = some e0 ∧ e.core = e0.core) := by
  rw [addUnchecked_eq, find_countNew] at he
  split_ifs at he with hx
  · obtain ⟨e1, he1, rfl⟩ := Option.map_eq_some_iff.1 he
    obtain ⟨e0, he0, hcore⟩ := (retouched_withLinked info ancestors p).find_some he1
    rw [find_withNew ht, if_pos rfl] at he0
    cases he0
    have hinfo : e1.toTxInfo = (p.newEntry info).toTxInfo := congrArg Prod.fst hcore
    have hfee : e1.modifiedFee = (p.newEntry info).modifiedFee := congrArg (·.2.1) hcore
    exact .inl ⟨hx, hinfo.trans (newEntry_toTxInfo p info), hfee, rfl⟩
  · obtain ⟨e0, he0, hcore⟩ := (retouched_withLinked info ancestors p).find_some he
    rw [find_withNew ht, if_neg hx] at he0
    exact .inr ⟨hx, e0, he0, hcore⟩

theorem ids_addUnchecked (ht : getHash info.tx ∉ p.ids) (ancestors : OrderedSet Txid) :
    (p.addUnchecked info ancestors).ids = insert (getHash info.tx) p.ids := by
  have hids : (p.withLinked info ancestors).ids = insert (getHash info.tx) p.ids := by
    rw [(retouched_withLinked info ancestors p).ids_eq, ids_of_find_new (find_withNew ht)]
  rw [← hids]
  ext x
  rw [mem_ids, mem_ids, addUnchecked_eq, find_countNew]
  split_ifs with hx
  · simp [hx]
  · rfl

theorem failed_addUnchecked (ht : getHash info.tx ∉ p.ids) (ancestors : OrderedSet Txid) :
    (p.addUnchecked info ancestors).failed = p.failed := by
  have hdelta : ∀ (q : Pool Tx Txid) t, (q.applyDelta t).failed = q.failed := by
    intro q t
    unfold applyDelta
    dsimp only
    split_ifs <;> rfl
  have hnew : (p.emplace info).failed = p.failed := by rw [emplace, find_eq_none.2 ht]
  rw [addUnchecked_eq, countNew, (retouched_withLinked info ancestors p).rest]
  exact (hdelta _ _).trans hnew

/-- The new transaction is linked to its parents, and everything is counted. -/
theorem Accounts.addUnchecked {limits : Limits} (h : p.Accounts L) (ht : getHash info.tx ∉ p.ids)
    (hself : ∀ o ∈ vin info.tx, o.hash ≠ getHash info.tx)
    (hanc : p.calculateMemPoolAncestors info limits true = .ok ancestors)
    (hfits : p.FitsNew info ancestors) :
    (p.addUnchecked info ancestors).Accounts
      (withSink L (p.IsParent info.tx) (getHash info.tx)) := by
  have hids := ids_addUnchecked ht ancestors
  have hfrom : ∀ x, ¬ L (getHash info.tx) x := fun x hx => ht (h.inside _ x hx).1
  have hP : ∀ a, p.IsParent info.tx a → a ∈ p.ids := fun a ha => ha.1
  refine ⟨?_, ?_, withSink_acyclic hfrom (fun hP => ht hP.1) h.acyclic, ?_,
    (failed_addUnchecked ht ancestors).trans h.running⟩
  · intro x e he
    obtain ⟨hx, hinfo, -⟩ | ⟨-, e0, he0, hcore⟩ := find_addUnchecked ht he
    · rw [hinfo, hx]
    · rw [Entry.tx_eq_of_core hcore, h.keyed x e0 he0]
  · rw [Inside, hids]
    rintro a b (hab | ⟨rfl, ha⟩)
    · exact ⟨mem_insert_of_mem (h.inside a b hab).1, mem_insert_of_mem (h.inside a b hab).2⟩
    · exact ⟨mem_insert_of_mem (hP a ha), mem_insert_self _ _⟩
  · -- the links and totals
    have hq := find_withNew ht
    have hnew := h.keepsOn_new ht hq (newEntry_keeps (weight_of_find (by rw [hq, if_pos rfl])))
    obtain ⟨e, he, hparents, hlink⟩ := keepsOn_linkParents hself hq hnew
    have hr := retouched_linkParents (getHash info.tx) info.tx (p.withNew info)
    rw [← hr.weight_eq] at hlink
    obtain ⟨e₀, he₀, hcore⟩ := hr.find_some he
    rw [hq, if_pos rfl] at he₀
    cases he₀
    have hinfo : e.toTxInfo = info :=
      (congrArg Prod.fst hcore).trans (newEntry_toTxInfo p info)
    have hk := h.keepsOn_linkAncestors ht hP (fun a => mem_calculateMemPoolAncestors h.parentLinks
      h.inside hanc) (hinfo ▸ hfits) (by rw [hr.ids_eq, ids_of_find_new hq])
      (fun a ha => by rw [hr.weight_eq, weight_of_find_new hq ht ha]) he hparents hlink
    rw [hids, addUnchecked_eq, weight_countNew, (retouched_withLinked info ancestors p).weight_eq]
    rw [hr.weight_eq] at hk
    exact hk.countNew _ info

end KPCoin.Mempool.Pool
