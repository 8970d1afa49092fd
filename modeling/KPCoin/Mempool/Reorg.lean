import KPCoin.Mempool.Relink

/-!
# Transactions that come back from disconnected blocks

`MaybeUpdateMempoolForReorg` adds the transactions of the disconnected blocks to the pool again, in
the order of the blocks, and then calls `UpdateTransactionsFromBlock` with their hashes.  The pool
may hold transactions that spend them.

* `Readded` : while they come back, the accounts are exact except for the links to those that waited
  (`Readded.readd`);
* `Relinked.foldl_relink` : the rounds of `UpdateTransactionsFromBlock` make up for these;
* `Exact.foldl_removeMarked` : what is removed in the end leaves the totals with ancestors as they
  are.

Together: **the accounting is exact again**, and no descendant of a transaction that came back is
above the limits (`updateTransactionsFromBlock_restores`).  This needs that the transactions that
come back do not spend those that were in the pool before, as is the case when the pool followed the
chain (`relinking_needs_order`).
-/

open Relation Finset

namespace KPCoin.Mempool

open PoolTx Option

variable {Tx Txid : Type*} [LinearOrder Txid]

/-! ### Ancestors and limits -/

/-- The first limit is not above the second. -/
def notAbove : Option ℤ → Option ℤ → Bool
  | _, none => true
  | none, some _ => false
  | some a, some b => decide (a ≤ b)

theorem exceeds_of_notAbove {a b : Option ℤ} (hab : notAbove a b = true) {n : ℤ}
    (h : exceeds n a = false) : exceeds n b = false := by
  cases b with
  | none => rfl
  | some b =>
    cases a with
    | none => cases hab
    | some a =>
      simp only [exceeds, decide_eq_false_iff_not, not_lt] at h ⊢
      exact h.trans (of_decide_eq_true hab)

/-- The limits `lim` on ancestors are not above those of `limits`. -/
def Limits.Within (lim limits : Limits) : Prop :=
  notAbove (asCount lim.ancestorCount) (asCount limits.ancestorCount) ∧
    notAbove lim.ancestorSizeVbytes limits.ancestorSizeVbytes

instance (lim limits : Limits) : Decidable (lim.Within limits) :=
  inferInstanceAs (Decidable (_ ∧ _))

namespace Pool

variable [PoolTx Tx Txid] {p : Pool Tx Txid} {L : Txid → Txid → Prop} {info : TxInfo Tx}
  {ancestors : OrderedSet Txid} {limits lim : Limits} {x : Txid} {e e' : Entry Tx Txid}

theorem weight_addUnchecked (ht : getHash info.tx ∉ p.ids) (ancestors : OrderedSet Txid)
    (hx : x ∈ p.ids) : (p.addUnchecked info ancestors).weight x = p.weight x := by
  obtain ⟨e', he'⟩ : ∃ e', (p.addUnchecked info ancestors).find x = some e' := by
    rw [← mem_ids, ids_addUnchecked ht]
    exact mem_insert_of_mem hx
  obtain ⟨hxt, -⟩ | ⟨-, e, he, hcore⟩ := find_addUnchecked ht he'
  · exact absurd hx (hxt ▸ ht)
  · rw [weight_of_find he', weight_of_find he, Entry.weight_eq_of_core hcore]

theorem mem_filter_isParent {tx : Tx} [DecidablePred (p.IsParent tx)] (a : Txid) :
    a ∈ p.ids.filter (p.IsParent tx) ↔ p.IsParent tx a := by
  rw [mem_filter]
  exact and_iff_right_of_imp And.left

theorem Accounts.mem_ancestors (h : p.Accounts L)
    (hanc : p.calculateMemPoolAncestors info lim true = .ok ancestors) (a : Txid) :
    a ∈ ancestors.toFinset ↔ ∃ s, p.IsParent info.tx s ∧ ReflTransGen L a s :=
  mem_calculateMemPoolAncestors h.parentLinks h.inside hanc

variable (h : p.Accounts L) (ht : getHash info.tx ∉ p.ids)
  (hself : ∀ o ∈ vin info.tx, o.hash ≠ getHash info.tx)
  (hanc : p.calculateMemPoolAncestors info lim true = .ok ancestors)
  (hfits : p.FitsNew info ancestors)
include h ht hself hanc hfits

/-- A transaction that is added with ancestors is within the limits they were calculated for. -/
theorem Accounts.overLimits_new (hlim : lim.Within limits) (hx : x ∈ ancestors)
    (he : (p.addUnchecked info ancestors).find (getHash info.tx) = some e) :
    overLimits limits e = false := by
  have hmem := h.mem_ancestors hanc
  have hids : ∀ a ∈ ancestors, a ∈ p.ids := by
    intro a ha
    obtain ⟨s, hs, has⟩ := (hmem a).1 ha
    obtain rfl | ⟨c, hc, -⟩ := has.cases_head
    · exact hs.1
    · exact (h.inside a c hc).1
  obtain ⟨hcount, hsize, -⟩ := calculateMemPoolAncestors_within hanc hx
  have hk := ((h.addUnchecked ht hself hanc hfits).keeps _ (mem_ids_of_find he) e he).ancestors
  have hbook : (bookOf (insert (getHash info.tx) p.ids)
      (withSink L (p.IsParent info.tx) (getHash info.tx)) (getHash info.tx)).ancestors =
      insert (getHash info.tx) ancestors.toFinset := by
    classical
    rw [bookOf_withSink_self h.inside ht (fun a ha => ha.1) mem_filter_isParent hmem]
  rw [ids_addUnchecked ht, hbook, sum_insert fun hmem => ht (hids _ hmem), weight_of_find he,
    sum_congr rfl fun a ha => weight_addUnchecked ht ancestors (hids a ha)] at hk
  have hnew : e.size = info.size := by
    obtain ⟨-, hinfo, -⟩ | ⟨hne, -⟩ := find_addUnchecked ht he
    · rw [hinfo]
    · exact absurd rfl hne
  have hcount' : e.countWithAncestors = ancestors.size + 1 := by
    rw [hk.count, Package.add_count, ← (hfits.1.sums hids).2.2, add_comm]
    rfl
  have hsize' : e.sizeWithAncestors =
      info.size + ∑ a ∈ ancestors.toFinset, (p.weight a).size := by
    rw [hk.size, Package.add_size, Package.sum_size, ← hnew]
    rfl
  rw [overLimits, hcount', hsize', exceeds_of_notAbove hlim.1 hcount,
    exceeds_of_notAbove hlim.2 hsize]
  rfl

theorem Accounts.overLimits_old (he : p.find x = some e)
    (he' : (p.addUnchecked info ancestors).find x = some e') :
    overLimits limits e' = overLimits limits e := by
  have hx := mem_ids_of_find he
  have hk := (h.keeps x hx e he).ancestors
  have hk' := ((h.addUnchecked ht hself hanc hfits).keeps _ (mem_ids_of_find he') e' he').ancestors
  have hbook : (bookOf (insert (getHash info.tx) p.ids)
      (withSink L (p.IsParent info.tx) (getHash info.tx)) x).ancestors =
      (bookOf p.ids L x).ancestors := by
    classical
    rw [bookOf_withSink_of_mem h.inside ht (fun a ha => ha.1) hx mem_filter_isParent
      (h.mem_ancestors hanc)]
  rw [ids_addUnchecked ht, hbook, sum_congr rfl fun a ha =>
    weight_addUnchecked ht ancestors (mem_bookOf_ancestors.1 ha).1] at hk'
  exact overLimits_eq hk hk'

end Pool

/-! ### Coming back -/

/-- The pool while transactions come back, with `vHashUpdate`. -/
structure Readding (Tx Txid : Type*) [LinearOrder Txid] where
  vHashUpdate : List Txid
  pool : Pool Tx Txid

variable [PoolTx Tx Txid] {x : Pool Tx Txid × Readding Tx Txid} {back : List (TxInfo Tx × Limits)}
  {ops : List (Op Tx Txid)}

namespace Readding

/-- A transaction that can come back: it is not in the pool, none of its inputs is spent there, and
it comes after its parents. -/
def Comes (s : Readding Tx Txid) (info : TxInfo Tx) : Prop :=
  getHash info.tx ∉ s.pool.ids ∧
    (∀ o ∈ vin info.tx, s.pool.mapNextTx.lookup o = none ∧ o.hash ≠ getHash info.tx) ∧
    ∀ hash ∈ s.vHashUpdate, ∀ e ∈ s.pool.find hash, ∀ o ∈ vin e.tx, o.hash ≠ getHash info.tx

instance (s : Readding Tx Txid) (info : TxInfo Tx) : Decidable (s.Comes info) :=
  inferInstanceAs (Decidable (_ ∧ _ ∧ _))

/-- A transaction comes back: it is added with its ancestors in the pool. -/
def readd (s : Readding Tx Txid) (l : TxInfo Tx × Limits) : Option (Readding Tx Txid) :=
  if s.Comes l.1 then
    (s.pool.calculateMemPoolAncestors l.1 l.2 true).toOption.map fun ancestors =>
      ⟨s.vHashUpdate ++ [getHash l.1.tx], s.pool.addUnchecked l.1 ancestors⟩
  else none

theorem readd_eq_some {s s' : Readding Tx Txid} {l : TxInfo Tx × Limits} (h : s.readd l = some s') :
    s.Comes l.1 ∧ ∃ ancestors, s.pool.calculateMemPoolAncestors l.1 l.2 true = .ok ancestors ∧
      s' = ⟨s.vHashUpdate ++ [getHash l.1.tx], s.pool.addUnchecked l.1 ancestors⟩ := by
  unfold readd at h
  split_ifs at h with hcomes
  obtain ⟨ancestors, hanc, rfl⟩ := map_eq_some_iff.1 h
  refine ⟨hcomes, ancestors, ?_, rfl⟩
  cases hcalc : s.pool.calculateMemPoolAncestors l.1 l.2 true with
  | error err => rw [hcalc] at hanc; cases hanc
  | ok r => rw [hcalc] at hanc; rw [some.inj hanc]

/-- Transactions come back to the pool `p₀`. -/
def system (p₀ : Pool Tx Txid) : LTS (Readding Tx Txid) (TxInfo Tx × Limits) where
  init s := s = ⟨[], p₀⟩
  step s l s' := s.readd l = some s'

/-- What the accounting asks: no input is an output of what was in the pool before, the ancestors
are within the limits of the pool, and their sums fit. -/
def Orderly (limits : Limits) (p₀ : Pool Tx Txid) (s : Readding Tx Txid) (l : TxInfo Tx × Limits) :
    Prop :=
  (∀ o ∈ vin l.1.tx, o.hash ∉ p₀.ids) ∧ l.2.Within limits ∧
    ∀ ancestors ∈ (s.pool.calculateMemPoolAncestors l.1 l.2 true).toOption,
      s.pool.FitsNew l.1 ancestors

/-- The sums over the descendants, among those that were in the pool before, of a transaction that
came back fit, and so does the cost of the signature operations of the ancestors of these. -/
def FitsDescendants (p₀ : Pool Tx Txid) (s : Readding Tx Txid) : Prop :=
  (∀ t ∈ s.vHashUpdate, ∀ U : OrderedSet Txid,
    (∀ x, x ∈ U ↔ x ∈ p₀.ids ∧ TransGen s.pool.Spends t x) → s.pool.Fits U) ∧
  ∀ x ∈ p₀.ids, ∀ A : Finset Txid, (∀ a ∈ A, a ∈ s.pool.ids ∧ ReflTransGen s.pool.Spends a x) →
    (∑ a ∈ A, s.pool.weight a).sigOps < 2 ^ 31

open Pool

/-- The links that are there after one more transaction has come back. -/
theorem Comes.leaving_addUnchecked {s : Readding Tx Txid} {info : TxInfo Tx}
    (hcomes : s.Comes info) (ancestors : OrderedSet Txid) :
    leaving (· ∈ s.vHashUpdate ++ [getHash info.tx]) (fun _ => False)
        (s.pool.addUnchecked info ancestors).Spends =
      withSink (leaving (· ∈ s.vHashUpdate) (fun _ => False) s.pool.Spends)
        (s.pool.IsParent info.tx) (getHash info.tx) := by
  obtain ⟨ht, hvin, hlate⟩ := hcomes
  funext a b
  have hne : ∀ x ∈ s.pool.ids, x ≠ getHash info.tx := fun x hx hxt => ht (hxt ▸ hx)
  simp only [leaving, withSink, spends_addUnchecked_iff ht (fun o ho => (hvin o ho).2),
    List.mem_append, List.mem_singleton, or_false, eq_iff_iff]
  constructor
  · rintro ⟨(hab | hab) | ⟨rfl, e, he, o, ho, heq⟩, hleave⟩
    · refine .inl ⟨hab, fun ha => (hleave (.inl ha)).resolve_right ?_⟩
      obtain ⟨-, e, he, -⟩ := hab
      exact hne b (mem_ids_of_find he)
    · exact .inr hab
    · -- what waited for it is not linked
      have hb := (hleave (.inr rfl)).resolve_right (hne b (mem_ids_of_find he))
      exact absurd heq (hlate b hb e he o ho)
  · rintro (⟨hab, hleave⟩ | ⟨rfl, ha⟩)
    · refine ⟨.inl (.inl hab), ?_⟩
      rintro (ha | ha)
      · exact .inl (hleave ha)
      · exact absurd ha (hne a hab.1)
    · exact ⟨.inl (.inr ⟨rfl, ha⟩), fun _ => .inr rfl⟩

end Readding

open Pool

/-- The pool when some transactions have come back to `p₀`: what is missing are the links from these
to those that were there before, and what should be counted along them. -/
structure Readded (limits : Limits) (p₀ : Pool Tx Txid) (s : Readding Tx Txid) : Prop where
  indexed : s.pool.Indexed
  accounts : s.pool.Accounts (leaving (· ∈ s.vHashUpdate) (fun _ => False) s.pool.Spends)
  ids : ∀ x, x ∈ s.pool.ids ↔ x ∈ p₀.ids ∨ x ∈ s.vHashUpdate
  fresh : ∀ x ∈ s.vHashUpdate, x ∉ p₀.ids
  nodup : s.vHashUpdate.Nodup
  closed : ∀ a b, s.pool.Spends a b → b ∈ s.vHashUpdate → a ∈ s.vHashUpdate
  ordered : s.vHashUpdate.Pairwise fun a b => ¬ s.pool.Spends b a
  within : ∀ x ∈ s.vHashUpdate, ∀ e, s.pool.find x = some e → (∃ a, s.pool.Spends a x) →
    overLimits limits e = false

namespace Readded

variable {limits : Limits} {p₀ : Pool Tx Txid} {s s' : Readding Tx Txid} {l : TxInfo Tx × Limits}
  {r : Relinking Tx Txid}

theorem start (h : p₀.Exact) : Readded limits p₀ ⟨[], p₀⟩ where
  indexed := h.indexed
  accounts := by
    have hall : leaving (· ∈ ([] : List Txid)) (fun _ => False) p₀.Spends = p₀.Spends := by
      funext a b
      simp [leaving]
    rw [hall]
    exact h.accounts
  ids x := by simp
  fresh x hx := absurd hx List.not_mem_nil
  nodup := .nil
  closed a b _ hb := absurd hb List.not_mem_nil
  ordered := .nil
  within x hx := absurd hx List.not_mem_nil

theorem readd (h : Readded limits p₀ s) (hstep : s.readd l = some s')
    (horder : Readding.Orderly limits p₀ s l) : Readded limits p₀ s' := by
  obtain ⟨hcomes, ancestors, hanc, rfl⟩ := Readding.readd_eq_some hstep
  obtain ⟨hnew, hlim, hfits⟩ := horder
  have hfits : s.pool.FitsNew l.1 ancestors := hfits ancestors (by rw [hanc]; rfl)
  have hleaving := hcomes.leaving_addUnchecked ancestors
  obtain ⟨ht, hvin, hlate⟩ := hcomes
  have hself : ∀ o ∈ vin l.1.tx, o.hash ≠ getHash l.1.tx := fun o ho => (hvin o ho).2
  have hold : ∀ x ∈ s.vHashUpdate, x ≠ getHash l.1.tx := fun x hx hxt =>
    ht (hxt ▸ (h.ids x).2 (.inr hx))
  -- what came back before does not spend the new one
  have hspends : ∀ a, ∀ b ∈ s.vHashUpdate,
      (s.pool.addUnchecked l.1 ancestors).Spends a b → s.pool.Spends a b := by
    intro a b hb hab
    obtain (hab | ⟨hbt, -⟩) | ⟨rfl, e, he, o, ho, heq⟩ :=
      (spends_addUnchecked_iff ht hself ancestors).1 hab
    · exact hab
    · exact absurd hbt (hold b hb)
    · exact absurd heq (hlate b hb e he o ho)
  have hparent : ∀ a, (s.pool.addUnchecked l.1 ancestors).Spends a (getHash l.1.tx) →
      s.pool.IsParent l.1.tx a := by
    intro a hab
    obtain (⟨-, e, he, -⟩ | ⟨-, ha⟩) | ⟨-, e, he, -⟩ :=
      (spends_addUnchecked_iff ht hself ancestors).1 hab
    · exact absurd (mem_ids_of_find he) ht
    · exact ha
    · exact absurd (mem_ids_of_find he) ht
  refine ⟨h.indexed.addUnchecked ht (fun o ho => (hvin o ho).1) ancestors, ?_, ?_, ?_,
    ?_, ?_, ?_, ?_⟩
  · rw [hleaving]
    exact h.accounts.addUnchecked ht hself hanc hfits
  · intro x
    rw [ids_addUnchecked ht, mem_insert, h.ids, List.mem_append, List.mem_singleton]
    tauto
  · intro x hx
    rcases List.mem_append.1 hx with hx | hx
    · exact h.fresh x hx
    · rw [mem_singleton.1 hx]
      exact fun hmem => ht ((h.ids _).2 (.inl hmem))
  · rw [List.nodup_append]
    exact ⟨h.nodup, List.nodup_singleton _, fun a ha b hb => mem_singleton.1 hb ▸ hold a ha⟩
  · intro a b hab hb
    rw [List.mem_append, List.mem_singleton] at hb ⊢
    rcases hb with hb | rfl
    · exact .inl (h.closed a b (hspends a b hb hab) hb)
    · obtain ⟨ha, o, ho, rfl⟩ := hparent a hab
      exact .inl (((h.ids _).1 ha).resolve_left (hnew o ho))
  · rw [List.pairwise_append]
    refine ⟨h.ordered.imp_of_mem fun {a b} ha _ hba hba' => hba (hspends b a ha hba'),
      List.pairwise_singleton _ _, fun a ha b hb hba => ?_⟩
    rw [mem_singleton.1 hb] at hba
    exact ht (hspends _ a ha hba).1
  · rintro x hx e he ⟨a, ha⟩
    rcases List.mem_append.1 hx with hx | hx
    · obtain ⟨hxt, -⟩ | ⟨-, e₀, he0, -⟩ := find_addUnchecked ht he
      · exact absurd hxt (hold x hx)
      · rw [h.accounts.overLimits_old ht hself hanc hfits he0 he]
        exact h.within x hx e₀ he0 ⟨a, hspends a x hx ha⟩
    · rw [mem_singleton.1 hx] at he ha
      exact h.accounts.overLimits_new ht hself hanc hfits hlim
        ((h.accounts.mem_ancestors hanc a).2 ⟨a, hparent a ha, .refl⟩) he

theorem of_reachable (h0 : p₀.Exact)
    (h : ((Readding.system p₀).restrict (Readding.Orderly limits p₀)).Reachable s) :
    Readded limits p₀ s := by
  refine h.invariant ?_ ?_
  · rintro _ rfl
    exact start h0
  · rintro s l s' hs ⟨hstep, horder⟩
    exact hs.readd hstep horder

/-! ### Linking -/

section

variable (h : Readded limits p₀ s)
include h

theorem relinked :
    Relinked limits s.pool (OrderedSet.ofList s.vHashUpdate) (fun _ => False) ⟨s.pool, ∅, ∅⟩ where
  retouched := .refl s.pool
  keeps := by
    simp only [OrderedSet.mem_ofList]
    refine h.accounts.keeps.congr fun id _ => bookAt_none h.closed
  cached k known hk := by cases hk
  marked x e _ _ hk := by
    obtain ⟨k, hk, -⟩ := hk
    exact hk.elim

/-- The rounds, from the last of `l` to the first, when those of `done` came before. -/
theorem relink_of_append (hfits : s.FitsDescendants p₀)
    {l done : List Txid} (hl : s.vHashUpdate = l ++ done)
    (hr : Relinked limits s.pool (OrderedSet.ofList s.vHashUpdate) (· ∈ done) r) :
    Relinked limits s.pool (OrderedSet.ofList s.vHashUpdate) (· ∈ s.vHashUpdate)
      (l.reverse.foldl (Relinking.relink limits (OrderedSet.ofList s.vHashUpdate)) r) := by
  induction l using List.reverseRecOn generalizing done r with
  | nil =>
    obtain rfl : s.vHashUpdate = done := hl
    exact hr
  | append_singleton l t ih =>
    rw [List.append_assoc, List.singleton_append] at hl
    have hnodup := hl ▸ h.nodup
    have hordered := hl ▸ h.ordered
    have ht : t ∈ s.vHashUpdate := by simp [hl]
    rw [List.reverse_append]
    refine ih hl ?_
    have hcons : (fun x => x = t ∨ x ∈ done) = (· ∈ t :: done) := by
      funext x
      simp
    rw [← hcons]
    refine hr.step h.indexed ?_ ?_ ((h.ids t).2 (.inr ht)) (OrderedSet.mem_ofList.2 ht) ?_ ?_ ?_
    · simpa using h.closed
    · -- what comes before does not spend what comes after
      intro a b hab ha hb
      rw [OrderedSet.mem_ofList, hl, List.mem_append] at hb
      rcases hb with hb | hb
      · have hlater := (List.pairwise_append.1 hordered).2.2 b hb a (by simpa using ha)
        exact absurd hab hlater
      · simpa using hb
    · exact (List.nodup_cons.1 (List.nodup_append.1 hnodup).2.1).1
    · intro U hU
      refine hfits.1 t ht U fun x => ?_
      rw [hU, OrderedSet.mem_ofList]
      refine and_congr_left fun htx => ?_
      obtain ⟨-, -, -, e, he, -⟩ := TransGen.tail'_iff.1 htx
      have hx := (h.ids x).1 (mem_ids_of_find he)
      exact ⟨hx.resolve_right, fun hx hmem => h.fresh x hmem hx⟩
    · intro x hx hxR
      rw [OrderedSet.mem_ofList] at hxR
      exact hfits.2 x (((h.ids x).1 hx).resolve_right hxR) _ fun a ha => mem_bookOf_ancestors.1 ha

section

variable (hr : Relinked limits s.pool (OrderedSet.ofList s.vHashUpdate) (· ∈ s.vHashUpdate) r)
include hr

/-- **The accounts are exact when every transaction that came back has been linked.** -/
theorem exact_of_relinked : r.pool.Exact := by
  have hsame := SameIndexes.of_retouched hr.retouched
  refine ⟨⟨hr.retouched.keyed h.indexed.keyed, r.pool.inside_spends, ?_, ?_, ?_⟩,
    hsame.indexed h.indexed⟩
  · rw [hsame.spends_eq]
    exact acyclic_of_leaving h.closed h.accounts.acyclic
  · rw [hsame.spends_eq, hr.retouched.ids_eq, hr.retouched.weight_eq]
    refine hr.keeps.congr fun id _ => (bookAt_all ?_).symm
    simp
  · rw [hr.retouched.rest]
    exact h.accounts.running

/-- What is above the limits and descends from a transaction that came back is marked. -/
theorem marked_of_relinked {x t : Txid} {e : Entry Tx Txid} (he : r.pool.find x = some e)
    (ht : t ∈ s.vHashUpdate) (htx : TransGen s.pool.Spends t x)
    (hover : overLimits limits e = true) :
    x ∈ r.descendantsToRemove := by
  refine hr.marked x e he (fun hx => ?_) ⟨t, ht, htx⟩ hover
  -- those that came back are within the limits, and nothing was entered in their totals since
  rw [OrderedSet.mem_ofList] at hx
  obtain ⟨e₀, he0, -⟩ := hr.retouched.find_some he
  obtain ⟨c, -, hc⟩ := TransGen.tail'_iff.1 htx
  have hxids := mem_ids_of_find he0
  have hk0 := (h.accounts.keeps x hxids e₀ he0).ancestors
  have hk := (hr.keeps x hxids e he).ancestors
  have hbook : (bookAt s.pool.ids s.pool.Spends (· ∈ OrderedSet.ofList s.vHashUpdate)
      (· ∈ s.vHashUpdate) (· ∈ s.vHashUpdate) (· ∈ s.vHashUpdate) x).ancestors =
      (bookOf s.pool.ids (leaving (· ∈ s.vHashUpdate) (fun _ => False) s.pool.Spends)
        x).ancestors := by
    ext a
    rw [mem_bookOf_ancestors, reflTransGen_leaving_none h.closed]
    simp [leaving, hx]
  rw [hbook] at hk
  rw [overLimits_eq hk0 hk, h.within x hx e₀ he0 ⟨c, hc⟩] at hover
  exact Bool.false_ne_true hover

end

end

end Readded

/-! ### Removing what is above the limits -/

namespace Pool

variable {limits : Limits} {p q : Pool Tx Txid}

/-- What is left of `p` in `q`: some of the entries, with the links between them and the same
ancestors. -/
structure Pruned (limits : Limits) (p q : Pool Tx Txid) : Prop where
  find : ∀ x e, q.find x = some e → ∃ e₀, p.find x = some e₀ ∧
    overLimits limits e = overLimits limits e₀
  spends : ∀ a b, q.Spends a b → p.Spends a b

theorem Pruned.refl (limits : Limits) (p : Pool Tx Txid) : Pruned limits p p :=
  ⟨fun _ e he => ⟨e, he, rfl⟩, fun _ _ h => h⟩

theorem Pruned.trans {r : Pool Tx Txid} (h : Pruned limits p q) (h' : Pruned limits q r) :
    Pruned limits p r where
  find x e he := by
    obtain ⟨e1, he1, hover1⟩ := h'.find x e he
    obtain ⟨e₀, he0, hover0⟩ := h.find x e1 he1
    exact ⟨e₀, he0, hover1.trans hover0⟩
  spends a b hab := h.spends a b (h'.spends a b hab)

/-- Descendants are removed together, so that no ancestor of what is left goes. -/
theorem Exact.pruned {S : OrderedSet Txid} (h : p.Exact) (hS : ∀ s ∈ S, s ∈ p.ids)
    (hclosed : ∀ x y, p.Spends x y → x ∈ S → y ∈ S) : Pruned limits p (p.removeStaged S false) where
  find x e he := by
    obtain ⟨hx, e₀, he0, -⟩ := find_removeStaged he
    have hxids := mem_ids_of_find he
    have hk0 := (h.accounts.keeps x (mem_ids_of_find he0) e₀ he0).ancestors
    have hremoved : (p.removeStaged S false).Accounts _ := h.accounts.removeStaged hS (.inl hclosed)
    have hk := (hremoved.keeps x hxids e he).ancestors
    have hnone : Disjoint (bookOf p.ids p.Spends x).ancestors S.toFinset := by
      rw [disjoint_left]
      intro a ha haS
      exact hx ((mem_bookOf_ancestors.1 ha).2.stays_in hclosed haS)
    rw [ids_removeStaged] at hxids hk
    rw [sum_congr rfl fun a ha => weight_removeStaged false (mem_bookOf_ancestors.1 ha).1,
      bookOf_off (.inl hclosed) hxids, strikeOut, sdiff_eq_self_of_disjoint hnone] at hk
    exact ⟨e₀, he0, overLimits_eq hk0 hk⟩
  spends a b hab := by
    rw [spends_removeStaged] at hab
    exact hab.1

theorem Exact.removeMarked (h : p.Exact) (limits : Limits) (t : Txid) :
    (p.removeMarked t).Exact ∧ Pruned limits p (p.removeMarked t) ∧ t ∉ (p.removeMarked t).ids := by
  cases he : p.find t with
  | none =>
    simp only [Pool.removeMarked, he]
    exact ⟨h, .refl limits p, find_eq_none.1 he⟩
  | some e =>
    simp only [Pool.removeMarked, he]
    have hmem : ∀ y, y ∈ p.withDescendants (p.recursiveRoots e.tx) ↔
        ∃ s ∈ p.recursiveRoots e.tx, ReflTransGen p.Spends s y := fun y =>
      mem_withDescendants h.accounts.childLinks h.accounts.inside (h.recursiveRoots_subset e.tx)
    have hroot : t ∈ p.recursiveRoots e.tx := by
      have hkey := h.indexed.keyed t e he
      rw [recursiveRoots, hkey, he, isSome_some, if_pos rfl, OrderedSet.mem_ofList,
        List.mem_singleton]
    obtain ⟨hS, hclosed⟩ := h.reached (h.recursiveRoots_subset e.tx) hmem
    refine ⟨h.removeRecursive e.tx, h.pruned hS hclosed, ?_⟩
    rw [Pool.removeRecursive, ids_removeStaged, mem_sdiff, not_and_not_right]
    exact fun _ => (hmem t).2 ⟨t, hroot, .refl⟩

theorem Pruned.ids_subset (h : Pruned limits p q) : q.ids ⊆ p.ids := by
  intro x hx
  obtain ⟨e, he⟩ := mem_ids.1 hx
  obtain ⟨e₀, he0, -⟩ := h.find x e he
  exact mem_ids_of_find he0

theorem Exact.foldl_removeMarked (h : p.Exact) (limits : Limits) (l : List Txid) :
    (l.foldl Pool.removeMarked p).Exact ∧ Pruned limits p (l.foldl Pool.removeMarked p) ∧
      ∀ t ∈ l, t ∉ (l.foldl Pool.removeMarked p).ids := by
  induction l generalizing p with
  | nil => exact ⟨h, .refl limits p, fun t ht => absurd ht List.not_mem_nil⟩
  | cons t l ih =>
    obtain ⟨hexact, hpruned, hgone⟩ := h.removeMarked limits t
    obtain ⟨hexact', hpruned', hgone'⟩ := ih hexact
    refine ⟨hexact', hpruned.trans hpruned', fun u hu => ?_⟩
    rcases List.mem_cons.1 hu with rfl | hu
    · exact fun hmem => hgone (hpruned'.ids_subset hmem)
    · exact hgone' u hu

/-- The accounts are exact after `UpdateTransactionsFromBlock`, and no descendant of what came back
is above the limits. -/
theorem relinked_of_readded {p₀ : Pool Tx Txid} {s : Readding Tx Txid} (hs : Readded limits p₀ s)
    (hfits : s.FitsDescendants p₀) :
    (s.pool.updateTransactionsFromBlock limits s.vHashUpdate).Exact ∧
      ∀ x e, (s.pool.updateTransactionsFromBlock limits s.vHashUpdate).find x = some e →
        (∃ t ∈ s.vHashUpdate, TransGen
          (s.pool.updateTransactionsFromBlock limits s.vHashUpdate).Spends t x) →
        overLimits limits e = false := by
  have hnone : (fun _ : Txid => False) = (· ∈ []) := funext fun _ => by simp
  have hr := hs.relink_of_append hfits (List.append_nil _).symm (hnone ▸ hs.relinked)
  have hspends := (SameIndexes.of_retouched hr.retouched).spends_eq
  unfold updateTransactionsFromBlock
  dsimp only
  generalize s.vHashUpdate.reverse.foldl _ _ = r at hr hspends ⊢
  obtain ⟨hexact, hpruned, hgone⟩ := (hs.exact_of_relinked hr).foldl_removeMarked limits
    r.descendantsToRemove.elems
  refine ⟨hexact, ?_⟩
  rintro x e he ⟨t, ht, htx⟩
  obtain ⟨e₀, he₀, hover⟩ := hpruned.find x e he
  rw [hover, Bool.eq_false_iff]
  intro hover₀
  refine hgone x ?_ (mem_ids_of_find he)
  refine hs.marked_of_relinked hr he₀ ht ?_ hover₀
  rw [← hspends]
  exact TransGen.mono hpruned.spends t x htx

/-- **The accounting is exact again.**  Transactions came back to a pool whose accounting was exact;
`UpdateTransactionsFromBlock` makes it exact for all that is in the pool then, and leaves no
descendant of theirs that is above the limits. -/
theorem updateTransactionsFromBlock_restores (limits : Limits) (p₀ : Pool Tx Txid) (h₀ : p₀.Exact)
    (s : Readding Tx Txid)
    (h : ((Readding.system p₀).restrict (Readding.Orderly limits p₀)).Reachable s)
    (hfits : s.FitsDescendants p₀) :
    (s.pool.updateTransactionsFromBlock limits s.vHashUpdate).Accurate ∧
      ∀ x e, (s.pool.updateTransactionsFromBlock limits s.vHashUpdate).find x = some e →
        (∃ t ∈ s.vHashUpdate, TransGen
          (s.pool.updateTransactionsFromBlock limits s.vHashUpdate).Spends t x) →
        overLimits limits e = false :=
  (relinked_of_readded (.of_reachable h₀ h) hfits).imp_left Exact.accurate

/-! ### Runs -/

instance (p : Pool Tx Txid) (a b : Txid) : Decidable (p.Spends a b) :=
  decidable_of_iff (a ∈ p.ids ∧ (p.find b).any fun e => decide (∃ o ∈ vin e.tx, o.hash = a)) <| by
    rw [Spends, any_eq_true]
    simp

end Pool

instance (limits : Limits) (p₀ : Pool Tx Txid) (s : Readding Tx Txid) (l : TxInfo Tx × Limits) :
    Decidable (Readding.Orderly limits p₀ s l) :=
  inferInstanceAs (Decidable (_ ∧ _ ∧ _))

/-- A pool built by calls the accounting allows, and transactions that come back to it where `C`
holds. -/
def reorgIf (C : Pool Tx Txid → Readding Tx Txid → TxInfo Tx × Limits → Prop)
    [∀ p₀ s l, Decidable (C p₀ s l)] (ops : List (Op Tx Txid)) (back : List (TxInfo Tx × Limits)) :
    Option (Pool Tx Txid × Readding Tx Txid) := do
  let p₀ ← ops.foldlM execAllowed Pool.empty
  let s ← back.foldlM (fun s l => if C p₀ s l then s.readd l else none) ⟨[], p₀⟩
  return (p₀, s)

theorem reorgIf_eq_some {C : Pool Tx Txid → Readding Tx Txid → TxInfo Tx × Limits → Prop}
    [∀ p₀ s l, Decidable (C p₀ s l)] (h : reorgIf C ops back = some x) :
    x.1.Exact ∧ ((Readding.system x.1).restrict (C x.1)).Reachable x.2 := by
  obtain ⟨p₀, hp0, h⟩ := bind_eq_some_iff.1 h
  obtain ⟨s, hs, h⟩ := bind_eq_some_iff.1 h
  cases h
  refine ⟨exact_of_reachable (reachable_of_execAllowed hp0),
    LTS.Reachable.foldlM (.start rfl) (fun s l s' hs => ?_) hs⟩
  split_ifs at hs with hC
  exact ⟨hs, hC⟩

/-- Transactions come back to a pool. -/
def reorg (ops : List (Op Tx Txid)) (back : List (TxInfo Tx × Limits)) :
    Option (Pool Tx Txid × Readding Tx Txid) :=
  reorgIf (fun _ _ _ => True) ops back

theorem exists_of_reorg {f : Pool Tx Txid × Readding Tx Txid → Bool}
    (h : (reorg ops back).map f = some true) : ∃ p₀ s, f (p₀, s) = true ∧
      reorg ops back = some (p₀, s) ∧ p₀.Exact ∧ (Readding.system p₀).Reachable s := by
  obtain ⟨⟨p₀, s⟩, hs, hf⟩ := map_eq_some_iff.1 h
  obtain ⟨hexact, hreach⟩ := reorgIf_eq_some hs
  exact ⟨p₀, s, hf, hs, hexact, hreach.of_restrict⟩

/-- Whatever is summed, it fits. -/
def Readding.SumsFit (p₀ : Pool Tx Txid) (s : Readding Tx Txid) : Prop :=
  p₀.ids ⊆ s.pool.ids ∧ ∀ S ∈ s.pool.ids.powerset, ((∑ a ∈ S, s.pool.weight a).size < 2 ^ 31 ∧
    -2 ^ 63 ≤ (∑ a ∈ S, s.pool.weight a).fee ∧ (∑ a ∈ S, s.pool.weight a).fee < 2 ^ 63) ∧
    (∑ a ∈ S, s.pool.weight a).sigOps < 2 ^ 31

instance (p₀ : Pool Tx Txid) (s : Readding Tx Txid) : Decidable (s.SumsFit p₀) :=
  inferInstanceAs (Decidable (_ ∧ _))

theorem Readding.SumsFit.fitsDescendants {p₀ : Pool Tx Txid} {s : Readding Tx Txid}
    (h : s.SumsFit p₀) : s.FitsDescendants p₀ :=
  ⟨fun _ _ U hU => (h.2 U.toFinset (mem_powerset.2 fun x hx => h.1 ((hU x).1 hx).1)).1,
    fun _ _ A hA => (h.2 A (mem_powerset.2 fun a ha => (hA a ha).1)).2⟩

/-- A `PlainTx` of size 100 that comes back under the given limits. -/
def comingBack (limits : Limits) (hash : ℕ) (spends : List ℕ) : TxInfo PlainTx × Limits :=
  (plainInfo hash spends 100 plainSize, limits)

/-- Three ancestors at most, with the transaction itself. -/
def threeAncestors : Limits := ⟨some 3, none, none, none⟩

namespace Pool

/-- Two transactions come back to a pool with a child and a grandchild of the second, which then has
too many ancestors and goes. -/
theorem updateTransactionsFromBlock_restores_chain :
    ∃ (p₀ : Pool PlainTx ℕ) (s : Readding PlainTx ℕ),
    (p₀.Exact ∧ ((Readding.system p₀).restrict (Readding.Orderly threeAncestors p₀)).Reachable s ∧
      s.FitsDescendants p₀) ∧
    (s.pool.updateTransactionsFromBlock threeAncestors s.vHashUpdate).ids = {1, 2, 3} ∧
    (s.pool.updateTransactionsFromBlock threeAncestors s.vHashUpdate).Accurate := by
  have hrun : ((reorgIf (Readding.Orderly threeAncestors) [addPlain 3 [2], addPlain 4 [3]]
      [comingBack threeAncestors 1 [0], comingBack threeAncestors 2 [1]]).map fun x =>
      let q := x.2.pool.updateTransactionsFromBlock threeAncestors x.2.vHashUpdate
      decide (q.ids = {1, 2, 3} ∧ x.2.SumsFit x.1)) = some true := by
    decide +kernel
  obtain ⟨⟨p₀, s⟩, hs, hfacts⟩ := map_eq_some_iff.1 hrun
  obtain ⟨hids, hsums⟩ := of_decide_eq_true hfacts
  obtain ⟨hexact, hreach⟩ := reorgIf_eq_some hs
  have hfits := hsums.fitsDescendants
  exact ⟨p₀, s, ⟨hexact, hreach, hfits⟩, hids,
    (updateTransactionsFromBlock_restores threeAncestors p₀ hexact s hreach hfits).1⟩

/-- **Without what the accounting asks for it can stay wrong**, or an entry above the limits can
stay: a transaction comes back to a pool that holds its parent; the sum of the sizes of its
descendants is above an `int32_t`; it is added under other limits than those of the pool. -/
theorem relinking_needs_order :
    (∃ (p₀ : Pool PlainTx ℕ) (s : Readding PlainTx ℕ),
      reorg [addPlain 1 [0], addPlain 3 [2]] [comingBack .noLimits 2 [1]] = some (p₀, s) ∧
      p₀.Exact ∧ (Readding.system p₀).Reachable s ∧
      ¬ (s.pool.updateTransactionsFromBlock Limits.noLimits s.vHashUpdate).Accurate) ∧
    (∃ (p₀ : Pool PlainTx ℕ) (s : Readding PlainTx ℕ),
      reorg [addLarge 1 [5], addLarge 2 [5], addLarge 3 [5], addLarge 4 [5]]
        [comingBack .noLimits 5 [0]] = some (p₀, s) ∧
      p₀.Exact ∧ (Readding.system p₀).Reachable s ∧
      ¬ (s.pool.updateTransactionsFromBlock Limits.noLimits s.vHashUpdate).Accurate) ∧
    ∃ (p₀ : Pool PlainTx ℕ) (s : Readding PlainTx ℕ) (e : Entry PlainTx ℕ),
      reorg [] [comingBack .noLimits 1 [0], comingBack .noLimits 2 [1]] = some (p₀, s) ∧
      p₀.Exact ∧ (Readding.system p₀).Reachable s ∧
      (s.pool.updateTransactionsFromBlock ⟨some 1, none, none, none⟩ s.vHashUpdate).find 2 =
        some e ∧
      (∃ t ∈ s.vHashUpdate, TransGen (s.pool.updateTransactionsFromBlock
        ⟨some 1, none, none, none⟩ s.vHashUpdate).Spends t 2) ∧
      overLimits ⟨some 1, none, none, none⟩ e = true := by
  refine ⟨?_, ?_, ?_⟩
  · have hrun : ((reorg [addPlain 1 [0], addPlain 3 [2]] [comingBack .noLimits 2 [1]]).map fun x =>
        let q := x.2.pool.updateTransactionsFromBlock Limits.noLimits x.2.vHashUpdate
        decide (q.Spends 1 2 ∧ q.Spends 2 3 ∧ (∑ a ∈ {1, 2, 3}, q.weight a).size = 300 ∧
          (q.find 3).any fun e => decide (e.sizeWithAncestors = 200))) = some true := by
      decide +kernel
    obtain ⟨p₀, s, hfacts, hs, hexact, hreach⟩ := exists_of_reorg hrun
    refine ⟨p₀, s, hs, hexact, hreach, fun haccurate => ?_⟩
    obtain ⟨h12, h23, hsum, hsize⟩ := of_decide_eq_true hfacts
    obtain ⟨e, he, hsize⟩ := (any_eq_true _ _).1 hsize
    have hle := haccurate.sum_size_le he fun a ha => by
      rw [mem_insert, mem_insert, mem_singleton] at ha
      rcases ha with rfl | rfl | rfl
      · exact ⟨h12.1, .tail (.single h12) h23⟩
      · exact ⟨h23.1, .single h23⟩
      · exact ⟨mem_ids_of_find he, .refl⟩
    rw [hsum, of_decide_eq_true hsize] at hle
    exact absurd hle (by decide)
  · have hrun : ((reorg [addLarge 1 [5], addLarge 2 [5], addLarge 3 [5], addLarge 4 [5]]
        [comingBack .noLimits 5 [0]]).map fun x =>
        let q := x.2.pool.updateTransactionsFromBlock Limits.noLimits x.2.vHashUpdate
        decide (q.Spends 5 1 ∧ 1 ∈ q.ids ∧ (q.weight 1).size = 2 ^ 30 ∧
          (q.find 5).any fun e => decide (e.sizeWithDescendants = 100))) = some true := by
      decide +kernel
    obtain ⟨p₀, s, hfacts, hs, hexact, hreach⟩ := exists_of_reorg hrun
    refine ⟨p₀, s, hs, hexact, hreach, fun haccurate => ?_⟩
    obtain ⟨h51, h1, hweight, hsize⟩ := of_decide_eq_true hfacts
    obtain ⟨e, he, hsize⟩ := (any_eq_true _ _).1 hsize
    have hle := haccurate.sum_size_le_descendants he fun d hd => by
      obtain rfl := mem_singleton.1 hd
      exact ⟨h1, .single h51⟩
    rw [sum_singleton, hweight, of_decide_eq_true hsize] at hle
    exact absurd hle (by decide)
  · have hrun : ((reorg [] [comingBack .noLimits 1 [0], comingBack .noLimits 2 [1]]).map fun x =>
        let q := x.2.pool.updateTransactionsFromBlock ⟨some 1, none, none, none⟩ x.2.vHashUpdate
        decide (1 ∈ x.2.vHashUpdate ∧ q.Spends 1 2 ∧
          (q.find 2).any (overLimits ⟨some 1, none, none, none⟩))) = some true := by
      decide +kernel
    obtain ⟨p₀, s, hfacts, hs, hexact, hreach⟩ := exists_of_reorg hrun
    obtain ⟨h1, h12, hover⟩ := of_decide_eq_true hfacts
    obtain ⟨e, he, hover⟩ := (any_eq_true _ _).1 hover
    exact ⟨p₀, s, e, hs, hexact, hreach, he, ⟨1, h1, .single h12⟩, hover⟩

/-- The pool over calls and reorganisations in any order: after a reorganisation transactions have
come back and `UpdateTransactionsFromBlock` has run, with the limits of the pool. -/
def lifetime (Tx Txid : Type*) [LinearOrder Txid] [PoolTx Tx Txid] :
    LTS (Pool Tx Txid) (Op Tx Txid ⊕ Limits) where
  init p := p = empty
  step p l p' := match l with
    | .inl op => p.Allowed op ∧ p' = p.exec op
    | .inr limits => ∃ s, ((Readding.system p).restrict (Readding.Orderly limits p)).Reachable s ∧
        s.FitsDescendants p ∧ p' = s.pool.updateTransactionsFromBlock limits s.vHashUpdate

end Pool

end KPCoin.Mempool
