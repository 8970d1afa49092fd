import KPCoin.Mempool.Accounting

/-!
# Linking transactions of a disconnected block to their children

`UpdateForDescendants` and `UpdateTransactionsFromBlock` of `txmempool.cpp`.  A transaction that
comes back from a block is entered by `addUnchecked` as a new one, although transactions that spend
it may be in the pool already.  The links to these children are missing then, and so is everything
that should be counted along them.

The transactions that came back, `R`, are gone through from the last to the first.  When those of
`D` have been handled, the books have the pairs that `r` relates, and those that its paths relate,
except for the ones that lead out of `R` from outside `D` (`bookAt`).  `Relinked.step` is one round:
first the links are made, then the ancestors of the descendants and last the descendants of the
transaction are brought up to date.
-/

open Relation Finset

namespace KPCoin.Mempool

open PoolTx Option

variable {Tx Txid : Type*} [LinearOrder Txid]

/-- The ancestors of the entry are above the limits of the pool. -/
def overLimits (limits : Limits) (e : Entry Tx Txid) : Bool :=
  exceeds e.countWithAncestors (asCount limits.ancestorCount) ||
    exceeds e.sizeWithAncestors limits.ancestorSizeVbytes

/-- What `UpdateTransactionsFromBlock` carries from one transaction to the next: the pool,
`mapMemPoolDescendantsToUpdate` and `descendants_to_remove`. -/
structure Relinking (Tx Txid : Type*) [LinearOrder Txid] where
  pool : Pool Tx Txid
  cachedDescendants : Map Txid (OrderedSet Txid) := ∅
  descendantsToRemove : OrderedSet Txid := ∅

namespace Relinking

/-- A descendant of `updateIt` counts it as an ancestor, and is marked for removal if that is too
much. -/
def updateDescendant (limits : Limits) (updateIt : Txid) (e : Entry Tx Txid)
    (s : Relinking Tx Txid) (descendant : Txid) : Relinking Tx Txid :=
  let pool := s.pool.modify descendant
    (Entry.updateAncestorState e.size e.modifiedFee 1 e.sigOpCost)
  { pool
    cachedDescendants := s.cachedDescendants.insert updateIt
      (((s.cachedDescendants.lookup updateIt).getD ∅).insert descendant)
    descendantsToRemove :=
      if (pool.find descendant).any (overLimits limits) then s.descendantsToRemove.insert descendant
      else s.descendantsToRemove }

/-- `CTxMemPool::UpdateForDescendants`.  The sum of the sizes is an `int32_t`, that of the fees a
`CAmount`. -/
def updateForDescendants (limits : Limits) (setExclude : OrderedSet Txid) (updateIt : Txid)
    (s : Relinking Tx Txid) : Relinking Tx Txid :=
  match s.pool.find updateIt with
  | none => s
  | some e =>
    let descendants := OrderedSet.cachedClosure s.pool.childrenOf s.cachedDescendants.lookup
      s.pool.mapTx.entries.length (s.pool.childrenOf updateIt, ∅)
    let updated := descendants.filter (· ∉ setExclude)
    let entries := updated.elems.filterMap s.pool.find
    let modifySize := int32 (entries.map (·.size)).sum
    let modifyFee := int64 (entries.map (·.modifiedFee)).sum
    let s := updated.elems.foldl (updateDescendant limits updateIt e) s
    { s with
      pool := s.pool.modify updateIt
        (Entry.updateDescendantState modifySize modifyFee updated.size) }

end Relinking

namespace Pool

variable [PoolTx Tx Txid]

/-- The transactions that spend an output of `hash`, as `mapNextTx` lists them. -/
def spenders (p : Pool Tx Txid) (hash : Txid) : List Txid :=
  (OrderedSet.ofList (p.mapNextTx.entries.filterMap fun x =>
    if x.1.hash = hash then some x.1.n else none)).elems.filterMap fun n =>
      (p.mapNextTx.lookup ⟨hash, n⟩).map getHash

/-- Link a child, unless it has been visited or is one of those that came back. -/
def linkChild (setAlreadyIncluded : OrderedSet Txid) (it : Txid)
    (s : Pool Tx Txid × OrderedSet Txid) (child : Txid) : Pool Tx Txid × OrderedSet Txid :=
  if child ∉ s.2 ∧ child ∉ setAlreadyIncluded then
    ((s.1.updateChild it child true).updateParent child it true, s.2.insert child)
  else (s.1, s.2.insert child)

/-- The children are calculated from `mapNextTx`. -/
def linkChildren (setAlreadyIncluded : OrderedSet Txid) (it : Txid) (p : Pool Tx Txid) :
    Pool Tx Txid :=
  ((p.spenders it).foldl (linkChild setAlreadyIncluded it) (p, ∅)).1

end Pool

/-- One round of `UpdateTransactionsFromBlock`. -/
def Relinking.relink [PoolTx Tx Txid] (limits : Limits) (setAlreadyIncluded : OrderedSet Txid)
    (s : Relinking Tx Txid) (hash : Txid) : Relinking Tx Txid :=
  if (s.pool.find hash).isSome then
    Relinking.updateForDescendants limits setAlreadyIncluded hash
      { s with pool := s.pool.linkChildren setAlreadyIncluded hash }
  else s

namespace Pool

variable [PoolTx Tx Txid]

/-- Remove a transaction that was marked, unless it is gone already. -/
def removeMarked (p : Pool Tx Txid) (txid : Txid) : Pool Tx Txid :=
  match p.find txid with
  | some e => p.removeRecursive e.tx
  | none => p

/-- `CTxMemPool::UpdateTransactionsFromBlock`, with `m_limits`. -/
def updateTransactionsFromBlock (limits : Limits) (vHashesToUpdate : List Txid)
    (p : Pool Tx Txid) : Pool Tx Txid :=
  let setAlreadyIncluded := OrderedSet.ofList vHashesToUpdate
  let s := vHashesToUpdate.reverse.foldl (Relinking.relink limits setAlreadyIncluded) ⟨p, ∅, ∅⟩
  s.descendantsToRemove.elems.foldl removeMarked s.pool

end Pool

open Classical in
/-- The books when the links out of `R` have been made for `links`, and are counted in the totals
with descendants for `down` and in those with ancestors for `up`. -/
noncomputable def bookAt {Txid : Type*} (ids : Finset Txid) (r : Txid → Txid → Prop)
    (R links down up : Txid → Prop) (id : Txid) : Book Txid where
  parents := ids.filter fun a => leaving R links r a id
  children := ids.filter fun c => leaving R links r id c
  descendants := ids.filter fun d => leaving R down (ReflTransGen r) id d
  ancestors := ids.filter fun a => leaving R up (ReflTransGen r) a id

section BookAt

omit [LinearOrder Txid]

variable {ids : Finset Txid} {r : Txid → Txid → Prop} {R D links down up : Txid → Prop}
  {id t x : Txid}

@[simp] theorem mem_bookAt_parents :
    x ∈ (bookAt ids r R links down up id).parents ↔ x ∈ ids ∧ leaving R links r x id := by
  simp [bookAt]

@[simp] theorem mem_bookAt_children :
    x ∈ (bookAt ids r R links down up id).children ↔ x ∈ ids ∧ leaving R links r id x := by
  simp [bookAt]

@[simp] theorem mem_bookAt_descendants :
    x ∈ (bookAt ids r R links down up id).descendants ↔
      x ∈ ids ∧ leaving R down (ReflTransGen r) id x := by
  simp [bookAt]

@[simp] theorem mem_bookAt_ancestors :
    x ∈ (bookAt ids r R links down up id).ancestors ↔
      x ∈ ids ∧ leaving R up (ReflTransGen r) x id := by
  simp [bookAt]

theorem bookAt_none (hR : ∀ a b, r a b → R b → R a) :
    bookAt ids r R (fun _ => False) (fun _ => False) (fun _ => False) id =
      bookOf ids (leaving R (fun _ => False) r) id := by
  ext x <;> simp [reflTransGen_leaving_none hR]

theorem bookAt_all (hD : ∀ a, R a → D a) : bookAt ids r R D D D id = bookOf ids r id := by
  have hall : ∀ (r : Txid → Txid → Prop) a b, leaving R D r a b ↔ r a b := fun r a b =>
    and_iff_left fun ha => .inr (hD a ha)
  ext x <;> simp [hall]

end BookAt

namespace Pool

variable {p : Pool Tx Txid} {V : Finset Txid} {w : Txid → Package} {B : Txid → Book Txid}
  {R : OrderedSet Txid} {t x : Txid}

theorem retouched_linkChild (R : OrderedSet Txid) (it : Txid) (s : Pool Tx Txid × OrderedSet Txid)
    (child : Txid) : Retouched s.1 (linkChild R it s child).1 := by
  unfold linkChild
  split_ifs
  · exact (retouched_updateChild _ _ _ _).trans (retouched_updateParent _ _ _ _)
  · exact .refl _

theorem retouched_foldl_linkChild (R : OrderedSet Txid) (it : Txid) (l : List Txid)
    (s : Pool Tx Txid × OrderedSet Txid) : Retouched s.1 (l.foldl (linkChild R it) s).1 := by
  induction l generalizing s with
  | nil => exact .refl _
  | cons c l ih => exact (retouched_linkChild R it s c).trans (ih _)

theorem KeepsOn.linkChild (h : p.KeepsOn V w B) (c : Txid) :
    ((p.updateChild t c true).updateParent c t true).KeepsOn V w fun id =>
      ⟨if id = c then insert t (B id).parents else (B id).parents,
        if id = t then insert c (B id).children else (B id).children, (B id).descendants,
        (B id).ancestors⟩ := by
  have hchild : (p.updateChild t c true).KeepsOn V w fun id =>
      ⟨(B id).parents, if id = t then insert c (B id).children else (B id).children,
        (B id).descendants, (B id).ancestors⟩ := by
    refine h.modify (fun _ e _ hk => ?_) fun id _ hid => by simp [hid]
    simpa using hk.insertChild c
  refine hchild.modify (fun _ e _ hk => ?_) fun id _ hid => by simp [hid]
  simpa using hk.insertParent t

/-- A list of children is entered, except for those already visited or in `R`. -/
theorem KeepsOn.foldl_linkChild (h : p.KeepsOn V w B) (l : List Txid) (visited : OrderedSet Txid) :
    (l.foldl (Pool.linkChild R t) (p, visited)).1.KeepsOn V w fun id =>
      ⟨if id ∈ l ∧ id ∉ visited ∧ id ∉ R then insert t (B id).parents else (B id).parents,
        if id = t then (B id).children ∪ l.toFinset.filter (fun c => c ∉ visited ∧ c ∉ R)
          else (B id).children, (B id).descendants, (B id).ancestors⟩ := by
  induction l generalizing p visited B with
  | nil => exact h.congr fun id _ => by simp
  | cons c l ih =>
    rw [List.foldl_cons, Pool.linkChild]
    split_ifs
    on_goal 1 => refine (ih (h.linkChild c) (visited.insert c)).congr fun id _ => ?_
    on_goal 2 => refine (ih h (visited.insert c)).congr fun id _ => ?_
    all_goals
      ext a
      · simp only [OrderedSet.mem_insert]
        split_ifs <;> grind
      · simp only [OrderedSet.mem_insert, List.toFinset_cons]
        split_ifs <;> grind
      · rfl
      · rfl

variable {ids : Finset Txid} {r : Txid → Txid → Prop} {D : Txid → Prop}

theorem mem_spenders [PoolTx Tx Txid] (h : p.Indexed) :
    x ∈ p.spenders t ↔ ∃ e, p.find x = some e ∧ ∃ o ∈ vin e.tx, o.hash = t := by
  simp only [spenders, List.mem_filterMap, OrderedSet.mem_elems, OrderedSet.mem_ofList]
  constructor
  · rintro ⟨n, -, hn⟩
    obtain ⟨tx, hlook, rfl⟩ := map_eq_some_iff.1 hn
    obtain ⟨id, e, he, rfl, ho⟩ := (h.spender _ tx).1 hlook
    rw [h.keyed id e he]
    exact ⟨e, he, _, ho, rfl⟩
  · rintro ⟨e, he, o, ho, rfl⟩
    have hlook : p.mapNextTx.lookup o = some e.tx := (h.spender o e.tx).2 ⟨x, e, he, rfl, ho⟩
    refine ⟨o.n, ⟨⟨o, e.tx⟩, AList.mem_lookup_iff.1 hlook, if_pos rfl⟩, ?_⟩
    rw [hlook, map_some, h.keyed x e he]

theorem KeepsOn.linkChildren [PoolTx Tx Txid] (h : p.KeepsOn ids w (bookAt ids r (· ∈ R) D D D))
    (hin : ∀ a b, r a b → a ∈ ids ∧ b ∈ ids) (hspend : ∀ c, c ∈ p.spenders t ↔ r t c) (ht : t ∈ R) :
    (p.linkChildren R t).KeepsOn ids w (bookAt ids r (· ∈ R) (fun x => x = t ∨ D x) D D) := by
  refine (h.foldl_linkChild (p.spenders t) ∅).congr fun id _ => ?_
  ext a
  · simp only [mem_bookAt_parents, leaving]
    split_ifs with hid
    all_goals
      simp only [hspend, OrderedSet.not_mem_empty, not_false_iff, true_and] at hid
      simp only [mem_insert, mem_bookAt_parents, leaving]
      grind
  · simp only [mem_bookAt_children, leaving]
    split_ifs
    all_goals
      simp only [mem_union, mem_filter, List.mem_toFinset, hspend, OrderedSet.not_mem_empty,
        not_false_iff, true_and, mem_bookAt_children, leaving]
      grind
  · rfl
  · rfl

/-- The walk of `UpdateForDescendants`: outside `R` it finds all that descends from `t`, if
everything of `R` that does has been handled before. -/
theorem mem_cachedDescendants {cached : Txid → Option (OrderedSet Txid)}
    (hlinks : p.ChildLinks (leaving (· ∈ R) D r)) (hin : p.Inside r)
    (hR : ∀ a b, r a b → b ∈ R → a ∈ R) (hD : ∀ a b, r a b → D a → b ∈ R → D b) (ht : D t)
    (hcached : ∀ k known, cached k = some known → k ∈ R ∧ D k ∧
      ∀ z, z ∈ known ↔ z ∉ R ∧ TransGen r k z) (hx : x ∉ R) :
    x ∈ OrderedSet.cachedClosure p.childrenOf cached p.mapTx.entries.length (p.childrenOf t, ∅) ↔
      TransGen r t x := by
  have hnext : (fun a b => b ∈ p.childrenOf a) = leaving (· ∈ R) D r :=
    funext₂ fun a b => propext (hlinks a b)
  have hinside : ∀ a, ∀ b ∈ p.childrenOf a, b ∈ p.ids := fun a b hb =>
    (hin a b ((hlinks a b).1 hb).1).2
  rw [OrderedSet.mem_cachedClosure ?_ ?_ (fun a _ => hinside a) (hinside t)
    p.card_ids.le hx, hnext, ← transGen_leaving hR hD ht, TransGen.head'_iff]
  · exact exists_congr fun a => and_congr_left fun _ => hlinks t a
  · intro a b ha hb hbR
    exact ha (hR a b ((hlinks a b).1 hb).1 hbR)
  · intro k known hk
    obtain ⟨hkR, hkD, hmem⟩ := hcached k known hk
    refine ⟨hkR, fun z => ?_⟩
    rw [hmem, hnext, transGen_leaving hR hD hkD]

end Pool

namespace Relinking

variable {s : Relinking Tx Txid} {limits : Limits} {t x : Txid} {e : Entry Tx Txid} {l : List Txid}

theorem pool_foldl_updateDescendant (l : List Txid) (s : Relinking Tx Txid) :
    (l.foldl (updateDescendant limits t e) s).pool = l.foldl (fun p id => p.modify id
      (Entry.updateAncestorState e.size e.modifiedFee 1 e.sigOpCost)) s.pool := by
  induction l generalizing s with
  | nil => rfl
  | cons a l ih => exact ih _

theorem lookup_foldl_updateDescendant (l : List Txid) (s : Relinking Tx Txid) (x : Txid) :
    (l.foldl (updateDescendant limits t e) s).cachedDescendants.lookup x =
      if x = t ∧ l ≠ [] then some (((s.cachedDescendants.lookup t).getD ∅).insertAll l)
      else s.cachedDescendants.lookup x := by
  induction l generalizing s with
  | nil => simp
  | cons a l ih =>
    have hlook : ∀ y, (updateDescendant limits t e s a).cachedDescendants.lookup y =
        if y = t then some (((s.cachedDescendants.lookup t).getD ∅).insert a)
        else s.cachedDescendants.lookup y := fun y => Map.lookup_insert_eq_ite _ _ _ _
    rw [List.foldl_cons, ih, hlook, hlook]
    by_cases hx : x = t
    · cases l with
      | nil => simp [OrderedSet.insertAll]
      | cons b l => simp [hx, OrderedSet.insertAll]
    · simp [hx]

theorem mem_descendantsToRemove_foldl (hl : l.Nodup) (h : x ∈ s.descendantsToRemove ∨ x ∈ l ∧
      ((s.pool.find x).map (Entry.updateAncestorState e.size e.modifiedFee 1 e.sigOpCost)).any
        (overLimits limits)) :
    x ∈ (l.foldl (updateDescendant limits t e) s).descendantsToRemove := by
  induction l generalizing s with
  | nil => exact h.resolve_right fun h => List.not_mem_nil h.1
  | cons a l ih =>
    obtain ⟨ha, hl⟩ := List.nodup_cons.1 hl
    refine ih hl ?_
    simp only [updateDescendant, Pool.find_modify, if_true]
    obtain hx | ⟨hx, hover⟩ := h
    · refine .inl ?_
      split_ifs
      · exact OrderedSet.mem_insert.2 (.inr hx)
      · exact hx
    · rcases List.mem_cons.1 hx with rfl | hx
      · rw [if_pos hover]
        exact .inl (OrderedSet.mem_insert.2 (.inl rfl))
      · rw [if_neg fun (hxa : x = a) => ha (hxa ▸ hx)]
        exact .inr ⟨hx, hover⟩

theorem updateForDescendants_eq {R U : OrderedSet Txid} (he : s.pool.find t = some e)
    (hU : U = (OrderedSet.cachedClosure s.pool.childrenOf s.cachedDescendants.lookup
      s.pool.mapTx.entries.length (s.pool.childrenOf t, ∅)).filter (· ∉ R)) :
    s.updateForDescendants limits R t =
      { U.elems.foldl (updateDescendant limits t e) s with
        pool := (s.pool.modifyEach U
          (Entry.updateAncestorState e.size e.modifiedFee 1 e.sigOpCost)).modify t
          (Entry.updateDescendantState (int32 ((U.elems.filterMap s.pool.find).map (·.size)).sum)
            (int64 ((U.elems.filterMap s.pool.find).map (·.modifiedFee)).sum) U.size) } := by
  subst hU
  simp only [updateForDescendants, he, pool_foldl_updateDescendant]
  rfl

end Relinking

namespace Pool

variable {q : Pool Tx Txid} {ids : Finset Txid} {r : Txid → Txid → Prop} {D links up : Txid → Prop}
  {w : Txid → Package} {R U : OrderedSet Txid} {t : Txid} {e : Entry Tx Txid}

theorem KeepsOn.enterAncestor (hw : w t = e.weight) (ht : t ∈ ids) (htR : t ∈ R) (htD : ¬ D t)
    (hU : ∀ x, x ∈ U ↔ x ∉ R ∧ TransGen r t x) (hw0 : ∀ a, (w a).Nonneg)
    (hsig : ∀ x ∈ ids, x ∉ R → (∑ a ∈ (bookOf ids r x).ancestors, w a).sigOps < 2 ^ 31)
    (h : q.KeepsOn ids w (bookAt ids r (· ∈ R) links D D)) :
    (q.modifyEach U (Entry.updateAncestorState e.size e.modifiedFee 1 e.sigOpCost)).KeepsOn ids w
      (bookAt ids r (· ∈ R) links D fun x => x = t ∨ D x) := by
  refine h.modifyEach (fun id hids hid e' _ hk => ?_) fun id _ hid => ?_
  · obtain ⟨hidR, htid⟩ := (hU id).1 hid
    have hx : (⟨1, e.size, e.modifiedFee, e.sigOpCost⟩ : Package) = ∑ a ∈ {t}, w a := by
      rw [sum_singleton, hw]
      rfl
    have hnew : Disjoint (bookAt ids r (· ∈ R) links D D id).ancestors {t} := by
      rw [disjoint_singleton_right, mem_bookAt_ancestors]
      rintro ⟨-, -, hleave⟩
      exact (hleave htR).elim hidR htD
    have hset : (bookAt ids r (· ∈ R) links D (fun x => x = t ∨ D x) id).ancestors =
        (bookAt ids r (· ∈ R) links D D id).ancestors ∪ {t} := by
      ext a
      simp only [mem_union, mem_bookAt_ancestors, mem_singleton, leaving]
      grind
    have hsub : (bookAt ids r (· ∈ R) links D (fun x => x = t ∨ D x) id).ancestors ⊆
        (bookOf ids r id).ancestors := fun a ha =>
      mem_bookOf_ancestors.2 ((mem_bookAt_ancestors.1 ha).imp_right And.left)
    have hcost := (Package.sum_mono hw0 hsub).2.trans_lt (hsig id hids hidR)
    rw [hset] at hcost
    have hk' := hk.enterAncestors hnew hx (hx ▸ Package.nonneg_sum _ hw0) hcost
    rw [← hset] at hk'
    exact hk'
  · -- nothing changes for what is in `R` or does not descend from `t`
    have hset : (bookAt ids r (· ∈ R) links D (fun x => x = t ∨ D x) id).ancestors =
        (bookAt ids r (· ∈ R) links D D id).ancestors := by
      ext a
      have hpath : ReflTransGen r t id → id ∉ R → TransGen r t id := fun hti hidR =>
        (reflTransGen_iff_eq_or_transGen.1 hti).resolve_left fun heq => hidR (heq ▸ htR)
      simp only [mem_bookAt_ancestors, leaving]
      grind
    exact Book.ext rfl rfl rfl hset

theorem KeepsOn.enterDescendants (htR : t ∈ R) (htD : ¬ D t)
    (hU : ∀ x, x ∈ U ↔ x ∉ R ∧ TransGen r t x) (hids : ∀ x ∈ U, x ∈ ids)
    (hw0 : ∀ a, (w a).Nonneg) {v : Package} (hv : v = ∑ d ∈ U.toFinset, w d)
    (h : q.KeepsOn ids w (bookAt ids r (· ∈ R) links D up)) :
    (q.modify t (Entry.updateDescendantState v.size v.fee v.count)).KeepsOn ids w
      (bookAt ids r (· ∈ R) links (fun x => x = t ∨ D x) up) := by
  refine h.modify (fun _ e' _ hk => ?_) fun id _ hid => ?_
  · have hnew : Disjoint (bookAt ids r (· ∈ R) links D up t).descendants U.toFinset := by
      rw [disjoint_left]
      rintro x hx hxU
      rw [mem_bookAt_descendants] at hx
      exact (hx.2.2 htR).elim ((hU x).1 hxU).1 htD
    have hset : (bookAt ids r (· ∈ R) links (fun x => x = t ∨ D x) up t).descendants =
        (bookAt ids r (· ∈ R) links D up t).descendants ∪ U.toFinset := by
      ext x
      simp only [mem_union, mem_bookAt_descendants, OrderedSet.mem_toFinset, leaving]
      grind
    have hk' := hk.enterDescendants hnew hv (hv ▸ Package.nonneg_sum _ hw0)
    rw [← hset] at hk'
    exact hk'
  · ext x
    · rfl
    · rfl
    · simp [leaving, hid]
    · rfl

end Pool

theorem overLimits_eq {limits : Limits} {e e' : Entry Tx Txid} {v : Package}
    (h : e.AncestorsAre v) (h' : e'.AncestorsAre v) :
    overLimits limits e' = overLimits limits e := by
  rw [overLimits, overLimits, h.count, h.size, h'.count, h'.size]

/-- The state of `UpdateTransactionsFromBlock` on the pool `p` after the transactions of `D`. -/
structure Relinked [PoolTx Tx Txid] (limits : Limits) (p : Pool Tx Txid) (R : OrderedSet Txid)
    (D : Txid → Prop) (s : Relinking Tx Txid) : Prop where
  retouched : Pool.Retouched p s.pool
  keeps : s.pool.KeepsOn p.ids p.weight (bookAt p.ids p.Spends (· ∈ R) D D D)
  cached : ∀ k known, s.cachedDescendants.lookup k = some known → k ∈ R ∧ D k ∧
    ∀ z, z ∈ known ↔ z ∉ R ∧ TransGen p.Spends k z
  marked : ∀ x e, s.pool.find x = some e → x ∉ R → (∃ k, D k ∧ TransGen p.Spends k x) →
    overLimits limits e = true → x ∈ s.descendantsToRemove

namespace Relinked

variable [PoolTx Tx Txid] {limits : Limits} {p : Pool Tx Txid} {R : OrderedSet Txid}
  {D : Txid → Prop} {s : Relinking Tx Txid} {t : Txid}

open Pool

section

variable {q : Pool Tx Txid}

/-- A round makes the links of a transaction that is in the pool before the totals. -/
theorem relink_eq (h : Relinked limits p R D s) (ht : t ∈ p.ids) : s.relink limits R t =
    Relinking.updateForDescendants limits R t { s with pool := s.pool.linkChildren R t } := by
  have hsome : (s.pool.find t).isSome := by
    rw [isSome_iff_exists, ← mem_ids, h.retouched.ids_eq]
    exact ht
  exact if_pos hsome

theorem keeps_linkChildren (h : Relinked limits p R D s) (hp : p.Indexed) (ht : t ∈ p.ids)
    (htR : t ∈ R) : (s.pool.linkChildren R t).KeepsOn p.ids p.weight
      (bookAt p.ids p.Spends (· ∈ R) (fun x => x = t ∨ D x) D D) := by
  have hsame : SameIndexes p s.pool := .of_retouched h.retouched
  have hspend : ∀ c, c ∈ s.pool.spenders t ↔ p.Spends t c := by
    intro c
    rw [mem_spenders (hsame.indexed hp), ← hsame.spends_eq, Spends, hsame.ids_eq, and_iff_right ht]
  exact h.keeps.linkChildren p.inside_spends hspend htR

theorem childLinks_bookAt {down up : Txid → Prop} (hpq : Retouched p q)
    (hk : q.KeepsOn p.ids p.weight (bookAt p.ids p.Spends (· ∈ R) D down up)) :
    q.ChildLinks (leaving (· ∈ R) D p.Spends) := by
  rw [← hpq.ids_eq] at hk
  refine hk.childLinks (fun a b hab => ?_) fun id _ x => ?_
  · rw [hpq.ids_eq]
    exact p.inside_spends a b hab.1
  · rw [mem_bookAt_children, hpq.ids_eq]
    exact and_iff_right_of_imp fun hx => (p.inside_spends id x hx.1).2

/-- The transactions that a round updates are the descendants outside `R`. -/
theorem mem_updated (h : Relinked limits p R D s) (hpq : Retouched p q)
    (hlinks : q.ChildLinks (leaving (· ∈ R) (fun x => x = t ∨ D x) p.Spends))
    (hR : ∀ a b, p.Spends a b → b ∈ R → a ∈ R)
    (hD : ∀ a b, p.Spends a b → a = t ∨ D a → b ∈ R → b = t ∨ D b) (x : Txid) :
    x ∈ (OrderedSet.cachedClosure q.childrenOf s.cachedDescendants.lookup q.mapTx.entries.length
      (q.childrenOf t, ∅)).filter (· ∉ R) ↔ x ∉ R ∧ TransGen p.Spends t x := by
  have hin : q.Inside p.Spends := by
    rw [Inside, hpq.ids_eq]
    exact p.inside_spends
  rw [OrderedSet.mem_filter, and_comm]
  refine and_congr_right fun hx => mem_cachedDescendants hlinks hin hR hD (.inl rfl) ?_ hx
  intro k known hk
  obtain ⟨hkR, hkD, hz⟩ := h.cached k known hk
  exact ⟨hkR, .inr hkD, hz⟩

end

theorem step (h : Relinked limits p R D s) (hp : p.Indexed)
    (hR : ∀ a b, p.Spends a b → b ∈ R → a ∈ R)
    (hD : ∀ a b, p.Spends a b → a = t ∨ D a → b ∈ R → b = t ∨ D b) (ht : t ∈ p.ids) (htR : t ∈ R)
    (htD : ¬ D t)
    (hfits : ∀ U : OrderedSet Txid, (∀ x, x ∈ U ↔ x ∉ R ∧ TransGen p.Spends t x) → p.Fits U)
    (hsig : ∀ x ∈ p.ids, x ∉ R →
      (∑ a ∈ (bookOf p.ids p.Spends x).ancestors, p.weight a).sigOps < 2 ^ 31) :
    Relinked limits p R (fun x => x = t ∨ D x) (s.relink limits R t) := by
  have hq : Retouched s.pool (s.pool.linkChildren R t) :=
    retouched_foldl_linkChild R t _ (s.pool, ∅)
  have hk := h.keeps_linkChildren hp ht htR
  rw [h.relink_eq ht]
  generalize s.pool.linkChildren R t = q at hq hk ⊢
  have hpq : Retouched p q := h.retouched.trans hq
  obtain ⟨e, he⟩ : ∃ e, q.find t = some e := by
    rw [← mem_ids, hpq.ids_eq]
    exact ht
  have hw : p.weight t = e.weight := by rw [← hpq.weight_eq, weight_of_find he]
  have hmem := h.mem_updated hpq (childLinks_bookAt hpq hk) hR hD
  rw [Relinking.updateForDescendants_eq he rfl]
  generalize (OrderedSet.cachedClosure q.childrenOf s.cachedDescendants.lookup
    q.mapTx.entries.length (q.childrenOf t, ∅)).filter (· ∉ R) = U at hmem ⊢
  have hids : ∀ x ∈ U, x ∈ p.ids := by
    intro x hx
    obtain ⟨c, -, hc⟩ := TransGen.tail'_iff.1 ((hmem x).1 hx).2
    exact (p.inside_spends c x hc).2
  have hqfits : q.Fits U := by
    unfold Fits
    rw [hpq.weight_eq]
    exact hfits U hmem
  obtain ⟨hsize, hfee, hcount⟩ := hqfits.sums (by rw [hpq.ids_eq]; exact hids)
  rw [hpq.weight_eq] at hsize hfee hcount
  have hnone : s.cachedDescendants.lookup t = none := by
    by_contra hsome
    obtain ⟨known, hkn⟩ := ne_none_iff_exists'.1 hsome
    exact htD (h.cached t known hkn).2.1
  refine ⟨?_, ?_, fun k known hkn => ?_, fun x e' hx hxR hdesc hlimit => ?_⟩
  · refine (hpq.trans (Retouched.modifyEach _ ?_ _)).trans (Retouched.modify _ ?_ _)
    all_goals exact fun _ => rfl
  · dsimp only
    rw [hsize, hfee, hcount]
    exact (hk.enterAncestor hw ht htR htD hmem p.weight_nonneg hsig).enterDescendants htR htD hmem
      hids p.weight_nonneg rfl
  · dsimp only at hkn
    rw [Relinking.lookup_foldl_updateDescendant] at hkn
    split_ifs at hkn with hkt
    · cases hkn
      rw [hkt.1]
      refine ⟨htR, .inl rfl, fun z => ?_⟩
      simp [hnone, hmem z]
    · obtain ⟨hkR, hkD, hz⟩ := h.cached k known hkn
      exact ⟨hkR, .inr hkD, hz⟩
  · have hxt : x ≠ t := fun hxt => hxR (hxt ▸ htR)
    dsimp only at hx ⊢
    rw [find_modify, if_neg hxt, find_modifyEach] at hx
    refine Relinking.mem_descendantsToRemove_foldl U.nodup ?_
    split_ifs at hx with hxU
    · exact .inr ⟨hxU, by rw [hx]; exact hlimit⟩
    · -- it has not been touched in this round
      obtain ⟨k, hkD, hkx⟩ := hdesc
      have hkD' : D k := hkD.resolve_left fun hkt => hxU ((hmem x).2 ⟨hxR, hkt ▸ hkx⟩)
      obtain ⟨e0, he0, -⟩ := hq.find_some hx
      have hxids : x ∈ p.ids := hpq.ids_eq ▸ mem_ids_of_find hx
      rw [overLimits_eq (h.keeps x hxids e0 he0).ancestors (hk x hxids e' hx).ancestors] at hlimit
      exact .inl (h.marked x e0 he0 hxR ⟨k, hkD', hkx⟩ hlimit)

end Relinked

end KPCoin.Mempool
