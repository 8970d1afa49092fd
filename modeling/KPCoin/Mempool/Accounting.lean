import KPCoin.LTS.Basic
import KPCoin.Mempool.Indexes

/-!
# The accounting of the pool is exact

The pool as a transition system over its public operations.  `Pool.Accurate` compares what the
entries store with what the transactions present give: the links, the totals with ancestors and with
descendants, `mapNextTx`, the two sums and `txns_randomized`.  It also says that none of the
assertions about the totals has failed.

`accurate_of_reachable` : every pool that the operations build from the empty one is accurate, in
every fee total that has never been cut off by `SaturatingAdd`, provided that

* a transaction is added only while no transaction of the pool spends its outputs;
* a block that is connected has every transaction of the pool after its parents in the pool;
* the sums over the ancestors of an added transaction fit the types they are passed in, and so does
  the cost of their signature operations with its own.

Without one of these the totals can be wrong (`accounting_needs_order`).  The first two hold
whenever the operations are driven by a chain: what is added is not confirmed, and the parents of a
confirmed transaction are confirmed before it.
-/

open Relation Finset

namespace KPCoin.Mempool

open PoolTx Option Pool

variable {Tx Txid : Type*} [LinearOrder Txid] [PoolTx Tx Txid]

namespace Pool

variable {p : Pool Tx Txid} {id x t : Txid} {info : TxInfo Tx}

/-! ### The relation between the transactions present -/

/-- `b` spends an output of `a`, and both are in the pool. -/
def Spends (p : Pool Tx Txid) (a b : Txid) : Prop :=
  a ∈ p.ids ∧ ∃ e, p.find b = some e ∧ ∃ o ∈ vin e.tx, o.hash = a

theorem inside_spends (p : Pool Tx Txid) : p.Inside p.Spends := by
  rintro a b ⟨ha, e, he, -⟩
  exact ⟨ha, mem_ids_of_find he⟩

/-- The links and totals are exact for the transactions present, and so are the indexes. -/
structure Exact (p : Pool Tx Txid) : Prop where
  accounts : p.Accounts p.Spends
  indexed : p.Indexed

theorem exact_empty : (empty : Pool Tx Txid).Exact := by
  have hnone : ∀ x, (empty : Pool Tx Txid).find x = none := fun _ => rfl
  have hids : ∀ x, x ∉ empty.ids := fun x => find_eq_none.1 (hnone x)
  have hspends : ∀ a b, ¬ empty.Spends a b := fun a b h => hids a h.1
  refine ⟨⟨indexed_empty.keyed, inside_spends _, fun a h => ?_, ?_, rfl⟩, indexed_empty⟩
  · obtain ⟨c, hc, -⟩ := TransGen.head'_iff.1 h
    exact hspends a c hc
  · exact fun x hx => absurd hx (hids x)

theorem Exact.setDeltas (h : p.Exact) (m : Map Txid ℤ) : ({ p with mapDeltas := m }).Exact :=
  ⟨⟨h.accounts.keyed, h.accounts.inside, h.accounts.acyclic, h.accounts.keeps, h.accounts.running⟩,
    ⟨h.indexed.keyed, h.indexed.spender, h.indexed.size, h.indexed.fee, h.indexed.nodup,
      h.indexed.listed, h.indexed.position⟩⟩

/-! ### Adding -/

section

variable (ht : getHash info.tx ∉ p.ids) (hself : ∀ o ∈ vin info.tx, o.hash ≠ getHash info.tx)
include ht hself

/-- The new transaction spends its parents, and is spent by those that waited for it. -/
theorem spends_addUnchecked_iff (ancestors : OrderedSet Txid) {a b : Txid} :
    (p.addUnchecked info ancestors).Spends a b ↔
      withSink p.Spends (p.IsParent info.tx) (getHash info.tx) a b ∨
        a = getHash info.tx ∧ ∃ e, p.find b = some e ∧ ∃ o ∈ vin e.tx, o.hash = a := by
  obtain ⟨⟨e0, he0, hinfo0, -⟩, hold⟩ := addUnchecked_entries ht ancestors
  constructor
  · rintro ⟨ha, e, he, o, ho, rfl⟩
    rw [ids_addUnchecked ht, mem_insert] at ha
    by_cases hb : b = getHash info.tx
    · subst hb
      obtain rfl := mem_unique he he0
      rw [hinfo0] at ho
      exact .inl (.inr ⟨rfl, ha.resolve_left (hself o ho), o, ho, rfl⟩)
    · have hb' := hold b hb
      rw [he] at hb'
      obtain ⟨e1, he1, heq⟩ := map_eq_some_iff.1 hb'.symm
      have htx : e1.tx = e.tx := congrArg (fun c => c.1.tx) heq
      rw [← htx] at ho
      rcases ha with ha | ha
      · exact .inr ⟨ha, e1, he1, o, ho, rfl⟩
      · exact .inl (.inl ⟨ha, e1, he1, o, ho, rfl⟩)
  · have hback : ∀ {c d e}, p.find d = some e → (∃ o ∈ vin e.tx, o.hash = c) →
        c = getHash info.tx ∨ c ∈ p.ids → (p.addUnchecked info ancestors).Spends c d := by
      rintro c d e he ⟨o, ho, rfl⟩ hc
      have hd : d ≠ getHash info.tx := fun hd => ht (hd ▸ mem_ids_of_find he)
      have hd' := hold d hd
      rw [he] at hd'
      obtain ⟨e1, he1, heq⟩ := map_eq_some_iff.1 hd'
      have htx : e1.tx = e.tx := congrArg (fun c => c.1.tx) heq
      refine ⟨?_, e1, he1, o, by rwa [htx], rfl⟩
      rw [ids_addUnchecked ht, mem_insert]
      exact hc
    rintro ((⟨ha, e, he, ho⟩ | ⟨rfl, ha, o, ho, rfl⟩) | ⟨ha, e, he, ho⟩)
    · exact hback he ho (.inr ha)
    · rw [Spends, ids_addUnchecked ht, mem_insert]
      exact ⟨.inr ha, e0, he0, o, by rwa [hinfo0], rfl⟩
    · exact hback he ho (.inl ha)

theorem spends_addUnchecked
    (hchild : ∀ id e, p.find id = some e → ∀ o ∈ vin e.tx, o.hash ≠ getHash info.tx)
    (ancestors : OrderedSet Txid) :
    (p.addUnchecked info ancestors).Spends =
      withSink p.Spends (p.IsParent info.tx) (getHash info.tx) := by
  funext a b
  rw [spends_addUnchecked_iff ht hself]
  refine propext (or_iff_left ?_)
  rintro ⟨rfl, e, he, o, ho, heq⟩
  exact hchild b e he o ho heq

end

theorem Exact.addUnchecked {limits : Limits} {ancestors : OrderedSet Txid} (h : p.Exact)
    (ht : getHash info.tx ∉ p.ids)
    (hvin : ∀ o ∈ vin info.tx, p.mapNextTx.lookup o = none ∧ o.hash ≠ getHash info.tx)
    (hchild : ∀ id e, p.find id = some e → ∀ o ∈ vin e.tx, o.hash ≠ getHash info.tx)
    (hanc : p.calculateMemPoolAncestors info limits true = .ok ancestors)
    (hfits : p.FitsNew info ancestors) : (p.addUnchecked info ancestors).Exact := by
  have hself : ∀ o ∈ vin info.tx, o.hash ≠ getHash info.tx := fun o ho => (hvin o ho).2
  refine ⟨?_, h.indexed.addUnchecked ht (fun o ho => (hvin o ho).1) ancestors⟩
  rw [spends_addUnchecked ht hself hchild]
  exact h.accounts.addUnchecked ht hself hanc hfits

/-! ### Removing -/

variable {S : OrderedSet Txid} {P : Txid → Prop} {q : Pool Tx Txid} (env : Env Tx Txid)

theorem find_of_not_mem_staged {e : Entry Tx Txid} (upd : Bool) (he : p.find x = some e)
    (hx : x ∉ S) : ∃ e', (p.removeStaged S upd).find x = some e' ∧ e'.toTxInfo = e.toTxInfo := by
  obtain ⟨e', he'⟩ : ∃ e', (p.removeStaged S upd).find x = some e' := by
    rw [← mem_ids, ids_removeStaged, mem_sdiff]
    exact ⟨mem_ids_of_find he, hx⟩
  obtain ⟨-, e0, he0, hinfo, -⟩ := find_removeStaged he'
  exact ⟨e', he', by rw [hinfo, mem_unique he0 he]⟩

theorem spends_removeStaged (S : OrderedSet Txid) (upd : Bool) (p : Pool Tx Txid) :
    (p.removeStaged S upd).Spends = off (· ∈ S) p.Spends := by
  funext a b
  refine propext ⟨?_, ?_⟩
  · rintro ⟨ha, e', he', o, ho, rfl⟩
    rw [ids_removeStaged, mem_sdiff] at ha
    obtain ⟨hb, e, he, hinfo, -⟩ := find_removeStaged he'
    exact ⟨⟨ha.1, e, he, o, by rwa [← hinfo], rfl⟩, ha.2, hb⟩
  · rintro ⟨⟨ha, e, he, o, ho, rfl⟩, haS, hbS⟩
    obtain ⟨e', he', hinfo⟩ := find_of_not_mem_staged upd he hbS
    refine ⟨?_, e', he', o, by rwa [hinfo], rfl⟩
    rw [ids_removeStaged, mem_sdiff]
    exact ⟨ha, haS⟩

theorem Exact.removeStaged {upd : Bool} (h : p.Exact)
    (hS : ∀ s ∈ S, s ∈ p.ids)
    (hclosed : (∀ x y, p.Spends x y → x ∈ S → y ∈ S) ∨
      upd = true ∧ ∀ x y, p.Spends x y → y ∈ S → x ∈ S) : (p.removeStaged S upd).Exact := by
  refine ⟨?_, h.indexed.removeStaged S upd⟩
  rw [spends_removeStaged]
  exact h.accounts.removeStaged hS hclosed

section

variable (h : p.Exact) (hP : ∀ s, P s → s ∈ p.ids)
  (hmem : ∀ y, y ∈ S ↔ ∃ s, P s ∧ ReflTransGen p.Spends s y)
include h hP hmem

theorem Exact.reached : (∀ s ∈ S, s ∈ p.ids) ∧ ∀ x y, p.Spends x y → x ∈ S → y ∈ S := by
  refine ⟨fun y hy => ?_, fun y z hyz hy => ?_⟩
  · obtain ⟨s, hs, hsy⟩ := (hmem y).1 hy
    obtain rfl | ⟨c, -, hc⟩ := hsy.cases_tail
    · exact hP _ hs
    · exact (h.accounts.inside c y hc).2
  · obtain ⟨s, hs, hsy⟩ := (hmem y).1 hy
    exact (hmem z).2 ⟨s, hs, hsy.tail hyz⟩

/-- Entries are removed together with all their descendants. -/
theorem Exact.removeReached : (p.removeStaged S false).Exact :=
  h.removeStaged (h.reached hP hmem).1 (.inl (h.reached hP hmem).2)

end

section

variable (h : p.Exact)
include h

theorem Exact.removeWithDescendants (hS : ∀ s ∈ S, s ∈ p.ids) :
    (p.removeStaged (p.withDescendants S) false).Exact :=
  h.removeReached hS fun _ => mem_withDescendants h.accounts.childLinks h.accounts.inside hS

theorem Exact.recursiveRoots_subset (tx : Tx) : ∀ s ∈ p.recursiveRoots tx, s ∈ p.ids := by
  intro s hs
  unfold recursiveRoots at hs
  split_ifs at hs with hsome
  · rw [OrderedSet.mem_ofList, List.mem_singleton] at hs
    rw [hs, mem_ids]
    exact isSome_iff_exists.1 hsome
  · rw [OrderedSet.mem_ofList, List.mem_filterMap] at hs
    obtain ⟨i, -, hi⟩ := hs
    obtain ⟨tx', hlook, rfl⟩ := map_eq_some_iff.1 hi
    obtain ⟨id, e, he, rfl, -⟩ := (h.indexed.spender _ tx').1 hlook
    rw [h.indexed.keyed id e he]
    exact mem_ids_of_find he

theorem Exact.removeRecursive (tx : Tx) : (p.removeRecursive tx).Exact :=
  h.removeWithDescendants (h.recursiveRoots_subset tx)

theorem Exact.removeConflicts (tx : Tx) : (p.removeConflicts tx).Exact := by
  refine List.foldlRecOn (motive := Exact) (vin tx) _ h fun q hq o _ => ?_
  cases q.mapNextTx.lookup o with
  | none => exact hq
  | some txConflict =>
    dsimp only
    split_ifs
    · exact hq
    · exact (hq.setDeltas _).removeRecursive txConflict

theorem Exact.removeBlockTx (tx : Tx) (hroot : ∀ a, ¬ p.Spends a (getHash tx)) :
    (p.removeBlockTx tx).Exact := by
  have hstaged : (if (p.find (getHash tx)).isSome then
      p.removeStaged (OrderedSet.ofList [getHash tx]) true else p).Exact := by
    split_ifs with hsome
    · refine h.removeStaged (fun s hs => ?_) (.inr ⟨rfl, fun x y hxy hy => ?_⟩)
      · rw [OrderedSet.mem_ofList, List.mem_singleton] at hs
        rw [hs, mem_ids]
        exact isSome_iff_exists.1 hsome
      · rw [OrderedSet.mem_ofList, List.mem_singleton] at hy
        exact absurd (hy ▸ hxy) (hroot x)
    · exact h
  exact (hstaged.removeConflicts tx).setDeltas _

end

/-! ### Blocks -/

/-- What is left after `q` followed from `p`: some of the entries, with their transactions. -/
def Shrunk (p q : Pool Tx Txid) : Prop :=
  ∀ x e, q.find x = some e → ∃ e₀, p.find x = some e₀ ∧ e.tx = e₀.tx

omit [PoolTx Tx Txid] in
theorem Shrunk.trans {q r : Pool Tx Txid} (h : Shrunk p q) (h' : Shrunk q r) : Shrunk p r := by
  intro x e he
  obtain ⟨e1, he1, htx1⟩ := h' x e he
  obtain ⟨e0, he0, htx0⟩ := h x e1 he1
  exact ⟨e0, he0, htx1.trans htx0⟩

theorem shrunk_removeStaged (S : OrderedSet Txid) (upd : Bool) (p : Pool Tx Txid) :
    Shrunk p (p.removeStaged S upd) := by
  intro x e he
  obtain ⟨-, e0, he0, hinfo, -⟩ := find_removeStaged he
  exact ⟨e0, he0, by rw [hinfo]⟩

omit [PoolTx Tx Txid] in
theorem Shrunk.ids_subset (h : Shrunk p q) : q.ids ⊆ p.ids := by
  intro x hx
  obtain ⟨e, he⟩ := mem_ids.1 hx
  obtain ⟨e0, he0, -⟩ := h x e he
  exact mem_ids_of_find he0

theorem shrunk_removeConflicts (tx : Tx) (p : Pool Tx Txid) : Shrunk p (p.removeConflicts tx) := by
  refine List.foldlRecOn (motive := Shrunk p) (vin tx) _ (fun _ e he => ⟨e, he, rfl⟩)
    fun q hq o _ => ?_
  cases q.mapNextTx.lookup o with
  | none => exact hq
  | some txConflict =>
    dsimp only
    split_ifs
    · exact hq
    · exact hq.trans (shrunk_removeStaged _ _ (q.clearPrioritisation (getHash txConflict)))

theorem shrunk_removeBlockTx (tx : Tx) (p : Pool Tx Txid) :
    Shrunk p (p.removeBlockTx tx) ∧ getHash tx ∉ (p.removeBlockTx tx).ids := by
  by_cases hsome : (p.find (getHash tx)).isSome
  · have hq := shrunk_removeConflicts tx (p.removeStaged (OrderedSet.ofList [getHash tx]) true)
    have heq : p.removeBlockTx tx = ((p.removeStaged (OrderedSet.ofList [getHash tx])
        true).removeConflicts tx).clearPrioritisation (getHash tx) := by
      rw [removeBlockTx, if_pos hsome]
    rw [heq]
    refine ⟨(shrunk_removeStaged _ _ p).trans hq, fun hmem => ?_⟩
    have hmem' := hq.ids_subset hmem
    rw [ids_removeStaged, mem_sdiff] at hmem'
    exact hmem'.2 (OrderedSet.mem_ofList.2 (mem_singleton.2 rfl))
  · have hq := shrunk_removeConflicts tx p
    have heq : p.removeBlockTx tx = (p.removeConflicts tx).clearPrioritisation (getHash tx) := by
      rw [removeBlockTx, if_neg hsome]
    rw [heq]
    exact ⟨hq, fun hmem => hsome (isSome_iff_exists.2 (mem_ids.1 (hq.ids_subset hmem)))⟩

/-- Every transaction of the list that is in the pool comes after its parents in the pool; those
of `seen` came before the list. -/
def BlockOrdered (p : Pool Tx Txid) : List Txid → List Tx → Prop
  | _, [] => True
  | seen, tx :: vtx =>
    (∀ e ∈ p.find (getHash tx), ∀ o ∈ vin e.tx, o.hash ∈ p.ids → o.hash ∈ seen) ∧
      p.BlockOrdered (getHash tx :: seen) vtx

theorem Exact.foldl_removeBlockTx (vtx : List Tx) (seen : List Txid)
    (hp : p.BlockOrdered seen vtx) (h : q.Exact) (hq : Shrunk p q) (hseen : ∀ x ∈ seen, x ∉ q.ids) :
    (vtx.foldl (fun p tx => p.removeBlockTx tx) q).Exact := by
  induction vtx generalizing q seen with
  | nil => exact h
  | cons tx vtx ih =>
    obtain ⟨hparents, hrest⟩ := hp
    obtain ⟨hshrunk, hgone⟩ := shrunk_removeBlockTx tx q
    have hroot : ∀ a, ¬ q.Spends a (getHash tx) := by
      rintro a ⟨ha, e, he, o, ho, rfl⟩
      obtain ⟨e0, he0, htx⟩ := hq _ e he
      rw [htx] at ho
      exact hseen _ (hparents e0 he0 o ho (hq.ids_subset ha)) ha
    refine ih (getHash tx :: seen) hrest (h.removeBlockTx tx hroot) (hq.trans hshrunk) ?_
    intro x hx hmem
    rcases List.mem_cons.1 hx with rfl | hx
    · exact hgone hmem
    · exact hseen x hx (hshrunk.ids_subset hmem)

theorem Exact.removeForBlock (h : p.Exact) {vtx : List Tx} (hp : p.BlockOrdered [] vtx) :
    (p.removeForBlock vtx).Exact :=
  Exact.foldl_removeBlockTx vtx [] hp h (fun _ e he => ⟨e, he, rfl⟩) (by simp)

/-! ### Fees, age and size -/

theorem sameIndexes_changeFee (t : Txid) (d : ℤ) (p : Pool Tx Txid) :
    SameIndexes p (p.changeFee t d) := by
  unfold changeFee
  cases p.find t with
  | none => exact .of_retouched (.refl p)
  | some e =>
    have hfee : SameIndexes p (p.modify t (Entry.updateModifiedFee d)) := by
      refine ⟨fun x => ?_, rfl, rfl, rfl, rfl⟩
      rw [find_modify]
      split_ifs with hx
      · rw [hx, Option.map_map]
        rfl
      · rfl
    refine hfee.trans (.of_retouched (.trans (Retouched.modifyEach _ ?_ _)
      (Retouched.modifyEach _ ?_ _)))
    all_goals exact fun _ => rfl

theorem SameIndexes.spends_eq {p' : Pool Tx Txid} (h : SameIndexes p p') :
    p'.Spends = p.Spends := by
  have hone : ∀ {q q' : Pool Tx Txid} {a b}, SameIndexes q q' → q.Spends a b → q'.Spends a b := by
    rintro q q' a b hq ⟨ha, e, he, o, ho, rfl⟩
    obtain ⟨e', he', hinfo, -⟩ := hq.find_some he
    exact ⟨hq.ids_eq ▸ ha, e', he', o, by rwa [hinfo], rfl⟩
  funext a b
  exact propext ⟨hone h.symm, hone h⟩

theorem Exact.changeFee (h : p.Exact) (t : Txid) (d : ℤ) : (p.changeFee t d).Exact := by
  have hsame := sameIndexes_changeFee t d p
  refine ⟨?_, hsame.indexed h.indexed⟩
  rw [hsame.spends_eq]
  exact h.accounts.changeFee t d

theorem Exact.prioritiseTransaction (h : p.Exact) (hash : Txid) (d : ℤ) :
    (p.prioritiseTransaction hash d).Exact := by
  unfold Pool.prioritiseTransaction
  dsimp only
  split_ifs
  · exact ((h.setDeltas _).changeFee hash d).setDeltas _
  · exact (h.setDeltas _).changeFee hash d

theorem Exact.expire (h : p.Exact) (time : ℤ) : (p.expire time).1.Exact := by
  refine h.removeWithDescendants fun s hs => ?_
  rw [OrderedSet.mem_ofList] at hs
  obtain ⟨x, hx, rfl⟩ := List.mem_map.1 hs
  exact List.mem_toFinset.2 (List.mem_map_of_mem (List.mem_of_mem_filter hx))

theorem Exact.trimLoop (sizelimit n : ℕ) (h : p.Exact)
    (noSpends : List (Prevout Txid)) : (trimLoop env sizelimit n p noSpends).1.Exact := by
  induction n generalizing p noSpends with
  | zero => exact h
  | succ n ih =>
    unfold trimLoop
    split_ifs
    · exact h
    cases env.descendantScoreBegin p with
    | none => exact h
    | some it =>
      refine ih (h.removeReached (P := (· = it.1)) ?_ fun y => ?_) _
      · rintro s rfl
        exact List.mem_toFinset.2 it.2
      · rw [mem_calculateDescendants h.accounts.childLinks h.accounts.inside
          (List.mem_toFinset.2 it.2) (by simp)]
        simp

theorem Exact.trimToSize (sizelimit : ℕ) (h : p.Exact) : (p.trimToSize env sizelimit).1.Exact :=
  h.trimLoop env sizelimit _ []

end Pool

/-! ### The pool as a system -/

/-- The calls of the pool.  `TrimToSize` comes with what it asks for. -/
inductive Op (Tx Txid : Type*) [LinearOrder Txid]
  | add (info : TxInfo Tx) (limits : Limits)
  | removeRecursive (tx : Tx)
  | removeForBlock (vtx : List Tx)
  | removeConflicts (tx : Tx)
  | prioritiseTransaction (hash : Txid) (nFeeDelta : ℤ)
  | expire (time : ℤ)
  | trimToSize (env : Env Tx Txid) (sizelimit : ℕ)

namespace Pool

variable {p : Pool Tx Txid} {id x : Txid}

/-- Make a call.  A transaction is added with the ancestors `CalculateMemPoolAncestors` returns, and
not at all if that fails. -/
def exec (p : Pool Tx Txid) : Op Tx Txid → Pool Tx Txid
  | .add info limits =>
    match p.calculateMemPoolAncestors info limits true with
    | .ok ancestors => p.addUnchecked info ancestors
    | .error _ => p
  | .removeRecursive tx => p.removeRecursive tx
  | .removeForBlock vtx => p.removeForBlock vtx
  | .removeConflicts tx => p.removeConflicts tx
  | .prioritiseTransaction hash nFeeDelta => p.prioritiseTransaction hash nFeeDelta
  | .expire time => (p.expire time).1
  | .trimToSize env sizelimit => (p.trimToSize env sizelimit).1

/-- The pool, from the empty one, under any calls. -/
def system (Tx Txid : Type*) [LinearOrder Txid] [PoolTx Tx Txid] :
    LTS (Pool Tx Txid) (Op Tx Txid) where
  init p := p = empty
  step p op p' := p' = p.exec op

/-- What the accounting asks of a call. -/
def Allowed (p : Pool Tx Txid) : Op Tx Txid → Prop
  | .add info limits =>
    getHash info.tx ∉ p.ids ∧
      (∀ o ∈ vin info.tx, p.mapNextTx.lookup o = none ∧ o.hash ≠ getHash info.tx) ∧
      (∀ x ∈ p.mapTx.entries, ∀ o ∈ vin x.2.tx, o.hash ≠ getHash info.tx) ∧
      ∀ ancestors ∈ (p.calculateMemPoolAncestors info limits true).toOption,
        p.FitsNew info ancestors
  | .removeForBlock vtx => p.BlockOrdered [] vtx
  | _ => True

theorem Exact.exec {op : Op Tx Txid} (h : p.Exact) (hop : p.Allowed op) : (p.exec op).Exact := by
  cases op with
  | add info limits =>
    obtain ⟨ht, hvin, hchild, hfits⟩ := hop
    cases hanc : p.calculateMemPoolAncestors info limits true with
    | error _ =>
      simp only [Pool.exec, hanc]
      exact h
    | ok ancestors =>
      rw [hanc] at hfits
      simp only [Pool.exec, hanc]
      refine h.addUnchecked ht hvin (fun id e he => ?_) hanc (hfits ancestors rfl)
      exact hchild ⟨id, e⟩ (AList.mem_lookup_iff.1 he)
  | removeRecursive tx => exact h.removeRecursive tx
  | removeForBlock vtx => exact h.removeForBlock hop
  | removeConflicts tx => exact h.removeConflicts tx
  | prioritiseTransaction hash d => exact h.prioritiseTransaction hash d
  | expire time => exact h.expire time
  | trimToSize env sizelimit => exact h.trimToSize env sizelimit

theorem exact_of_reachable (h : ((system Tx Txid).restrict Allowed).Reachable p) : p.Exact := by
  refine h.invariant ?_ ?_
  · rintro _ rfl
    exact exact_empty
  · rintro q op _ hq ⟨rfl, hop⟩
    exact hq.exec hop

/-! ### Exactness, stated of the entries -/

open Classical in
/-- What the pool stores is what the transactions present give, and no assertion has failed.  A fee
total is compared unless it has been cut off. -/
structure Accurate (p : Pool Tx Txid) : Prop where
  alive : p.Alive
  keyed : ∀ id e, p.find id = some e → getHash e.tx = id
  parents : ∀ id e, p.find id = some e → ∀ x, x ∈ e.parents ↔ p.Spends x id
  children : ∀ id e, p.find id = some e → ∀ x, x ∈ e.children ↔ p.Spends id x
  descendants : ∀ id e, p.find id = some e →
    e.DescendantsAre (∑ d ∈ p.ids with ReflTransGen p.Spends id d, p.weight d)
  ancestors : ∀ id e, p.find id = some e →
    e.AncestorsAre (∑ a ∈ p.ids with ReflTransGen p.Spends a id, p.weight a)
  mapNextTx : ∀ o tx, p.mapNextTx.lookup o = some tx ↔
    ∃ id e, p.find id = some e ∧ e.tx = tx ∧ o ∈ vin tx
  totalTxSize : p.totalTxSize = ∑ id ∈ p.ids, (p.find id).elim 0 (·.size)
  totalFee : p.totalFee = ∑ id ∈ p.ids, (p.find id).elim 0 (·.fee)
  txnsRandomized : (p.txnsRandomized.map getHash).Perm p.mapTx.keys
  idxRandomized : ∀ id e, p.find id = some e → p.txnsRandomized[e.idxRandomized]? = some e.tx

theorem Exact.accurate (h : p.Exact) : p.Accurate where
  alive := h.accounts.keeps.alive h.accounts.running
  keyed := h.indexed.keyed
  parents id e he x := by
    have hlink := h.accounts.parentLinks id x
    rwa [parentsOf, he] at hlink
  children id e he x := by
    have hlink := h.accounts.childLinks id x
    rwa [childrenOf, he] at hlink
  descendants id e he := (h.accounts.keeps id (mem_ids_of_find he) e he).descendants
  ancestors id e he := (h.accounts.keeps id (mem_ids_of_find he) e he).ancestors
  mapNextTx := h.indexed.spender
  totalTxSize := h.indexed.size
  totalFee := h.indexed.fee
  txnsRandomized := h.indexed.perm
  idxRandomized := h.indexed.position

instance (ancestors : OrderedSet Txid) : Decidable (p.Fits ancestors) :=
  inferInstanceAs (Decidable (_ ∧ _ ∧ _))

instance (info : TxInfo Tx) (ancestors : OrderedSet Txid) : Decidable (p.FitsNew info ancestors) :=
  inferInstanceAs (Decidable (_ ∧ _))

instance decidableBlockOrdered (p : Pool Tx Txid) :
    (seen : List Txid) → (vtx : List Tx) → Decidable (p.BlockOrdered seen vtx)
  | _, [] => isTrue trivial
  | seen, tx :: vtx =>
    have := decidableBlockOrdered p (getHash tx :: seen) vtx
    inferInstanceAs (Decidable (_ ∧ _))

instance : (op : Op Tx Txid) → Decidable (p.Allowed op)
  | .add _ _ => inferInstanceAs (Decidable (_ ∧ _ ∧ _ ∧ _))
  | .removeForBlock vtx => decidableBlockOrdered p [] vtx
  | .removeRecursive _ | .removeConflicts _ | .prioritiseTransaction _ _ | .expire _
  | .trimToSize _ _ => isTrue trivial

/-- Make a call if the accounting allows it. -/
def execAllowed (p : Pool Tx Txid) (op : Op Tx Txid) : Option (Pool Tx Txid) :=
  if p.Allowed op then some (p.exec op) else none

theorem reachable_of_execAllowed {ops : List (Op Tx Txid)}
    (h : ops.foldlM execAllowed empty = some p) :
    ((system Tx Txid).restrict Allowed).Reachable p := by
  refine LTS.Reachable.foldlM (.start rfl) (fun q op q' hq => ?_) h
  unfold execAllowed at hq
  split_ifs at hq with hop
  exact ⟨(some.inj hq).symm, hop⟩

theorem reachable_foldl_exec (ops : List (Op Tx Txid)) :
    (system Tx Txid).Reachable (ops.foldl exec empty) := by
  have hrun : ∀ p : Pool Tx Txid, ops.foldlM (fun p op => some (p.exec op)) p =
      some (ops.foldl exec p) := fun p => List.foldlM_pure
  exact LTS.Reachable.foldlM (.start rfl) (fun q op q' hq => (some.inj hq).symm) (hrun _)

variable {e : Entry Tx Txid} {S : Finset Txid}

/-- Of an entry with no child in the pool the totals with descendants are its own. -/
theorem Accurate.countWithDescendants_eq_one (h : p.Accurate)
    (he : p.find id = some e) (hleaf : ∀ x, ¬ p.Spends id x) : e.countWithDescendants = 1 := by
  classical
  have hset : (p.ids.filter fun d => ReflTransGen p.Spends id d) = {id} := by
    ext d
    rw [mem_filter, mem_singleton]
    refine ⟨fun ⟨_, hd⟩ => ?_, ?_⟩
    · obtain rfl | ⟨c, hc, -⟩ := hd.cases_head
      · rfl
      · exact absurd hc (hleaf c)
    · rintro rfl
      exact ⟨mem_ids_of_find he, .refl⟩
  have hcount := (h.descendants id e he).count
  rw [hset, sum_singleton, weight_of_find he] at hcount
  exact hcount

/-- The size with ancestors has the sizes of any of them in it. -/
theorem Accurate.sum_size_le (h : p.Accurate) (he : p.find id = some e)
    (hS : ∀ a ∈ S, a ∈ p.ids ∧ ReflTransGen p.Spends a id) :
    (∑ a ∈ S, p.weight a).size ≤ e.sizeWithAncestors := by
  classical
  rw [(h.ancestors id e he).size]
  exact (Package.sum_mono p.weight_nonneg fun a ha => mem_filter.2 (hS a ha)).1

theorem Accurate.sum_size_le_descendants (h : p.Accurate) (he : p.find id = some e)
    (hS : ∀ d ∈ S, d ∈ p.ids ∧ ReflTransGen p.Spends id d) :
    (∑ d ∈ S, p.weight d).size ≤ e.sizeWithDescendants := by
  classical
  rw [(h.descendants id e he).size]
  exact (Package.sum_mono p.weight_nonneg fun a ha => mem_filter.2 (hS a ha)).1

theorem Accurate.size_add_le {e' : Entry Tx Txid} (h : p.Accurate) (he : p.find id = some e)
    (he' : p.find x = some e') (hx : p.Spends x id) (hne : x ≠ id) :
    e'.size + e.size ≤ e.sizeWithAncestors := by
  have hpair : (∑ a ∈ {x, id}, p.weight a).size = e'.size + e.size := by
    rw [sum_pair hne, weight_of_find he, weight_of_find he']
    rfl
  rw [← hpair]
  refine h.sum_size_le he fun a ha => ?_
  rw [mem_insert, mem_singleton] at ha
  rcases ha with rfl | rfl
  · exact ⟨hx.1, .single hx⟩
  · exact ⟨mem_ids_of_find he, .refl⟩

end Pool

/-- A transaction by its number, with one input for each transaction it spends. -/
structure PlainTx where
  hash : ℕ
  spends : List ℕ

instance : PoolTx PlainTx ℕ where
  getHash tx := tx.hash
  vin tx := tx.spends.map fun h => ⟨h, tx.hash⟩
  voutSize _ := 10

/-- The entry of a `PlainTx` of a given size. -/
def plainInfo (hash : ℕ) (spends : List ℕ) (size : ℤ) (h : 0 < size ∧ size < 2 ^ 31) :
    TxInfo PlainTx :=
  ⟨⟨hash, spends⟩, 10 * hash, size, 4, hash, h.1, h.2, by decide, by decide⟩

theorem plainSize : (0 : ℤ) < 100 ∧ (100 : ℤ) < 2 ^ 31 := by decide

/-- Add a `PlainTx` of size 100, without limits. -/
def addPlain (hash : ℕ) (spends : List ℕ) : Op PlainTx ℕ :=
  .add (plainInfo hash spends 100 plainSize) Limits.noLimits

/-- Add a `PlainTx` of size 2³⁰, without limits. -/
def addLarge (hash : ℕ) (spends : List ℕ) : Op PlainTx ℕ :=
  .add (plainInfo hash spends (2 ^ 30) (by decide)) Limits.noLimits

/-- Add a `PlainTx` whose signature operations cost 2³⁰, without limits. -/
def addCostly (hash : ℕ) (spends : List ℕ) : Op PlainTx ℕ :=
  .add { plainInfo hash spends 100 plainSize with
    sigOpCost := 2 ^ 30
    sigOpCost_nonneg := by decide
    sigOpCost_lt := by decide } Limits.noLimits

namespace Pool

/-- A chain of three, a branch, a new fee, a block with the first, and an expiry. -/
def mixedRun : List (Op PlainTx ℕ) :=
  [addPlain 1 [0], addPlain 2 [1], addPlain 3 [1, 2], addPlain 4 [2], .prioritiseTransaction 2 7,
    .removeForBlock [⟨1, [0]⟩], .removeRecursive ⟨4, [2]⟩, addPlain 5 [3], .expire 2]

/-- A block confirms the middle of a chain of three while its parent stays in the pool. -/
def middleFirst : Pool PlainTx ℕ :=
  [addPlain 1 [0], addPlain 2 [1], addPlain 3 [2], .removeForBlock [⟨2, [1]⟩]].foldl exec empty

/-- A transaction enters again after its child. -/
def parentAfterChild : Pool PlainTx ℕ :=
  [addPlain 1 [0], addPlain 2 [1], .removeForBlock [⟨1, [0]⟩], addPlain 1 [0]].foldl exec empty

/-- The sizes of the four parents of a transaction add up to 2³². -/
def largeParents : Pool PlainTx ℕ :=
  [addLarge 1 [0], addLarge 2 [0], addLarge 3 [0], addLarge 4 [0],
    addLarge 5 [1, 2, 3, 4]].foldl exec empty

theorem not_accurate_middleFirst : ¬ middleFirst.Accurate := by
  intro h
  have hstored : (middleFirst.find 1).map (·.countWithDescendants) = some 2 := by decide +kernel
  obtain ⟨e, he, hcount⟩ := map_eq_some_iff.1 hstored
  have hleaf : ∀ x ∈ middleFirst.mapTx.entries, ∀ o ∈ vin x.2.tx, o.hash ≠ 1 := by decide +kernel
  rw [h.countWithDescendants_eq_one he fun x hx => ?_] at hcount
  · exact absurd hcount (by decide)
  · obtain ⟨-, e', he', o, ho, heq⟩ := hx
    exact hleaf ⟨x, e'⟩ (AList.mem_lookup_iff.1 he') o ho heq

theorem not_accurate_parentAfterChild : ¬ parentAfterChild.Accurate := by
  intro h
  have hstored : ∃ e, parentAfterChild.find 2 = some e ∧ 1 ∉ e.parents.elems ∧
      (parentAfterChild.find 1).isSome ∧ ∃ o ∈ vin e.tx, o.hash = 1 := by
    have hdec : ((parentAfterChild.find 2).map fun e => decide (1 ∉ e.parents.elems ∧
        (parentAfterChild.find 1).isSome ∧ ∃ o ∈ vin e.tx, o.hash = 1)) = some true := by
      decide +kernel
    obtain ⟨e, he, hfacts⟩ := map_eq_some_iff.1 hdec
    exact ⟨e, he, of_decide_eq_true hfacts⟩
  obtain ⟨e, he, hnot, hsome, hspent⟩ := hstored
  exact hnot ((h.parents 2 e he 1).2 ⟨mem_ids.2 (isSome_iff_exists.1 hsome), e, he, hspent⟩)

theorem not_accurate_largeParents : ¬ largeParents.Accurate := by
  intro h
  have hstored : (largeParents.find 5).map (fun e => (e.size, e.sizeWithAncestors)) =
      some (2 ^ 30, 2 ^ 30) := by decide +kernel
  obtain ⟨e, he, hsizes⟩ := map_eq_some_iff.1 hstored
  obtain ⟨e', he'⟩ : ∃ e', largeParents.find 1 = some e' := isSome_iff_exists.1 (by decide +kernel)
  have hspent : ((largeParents.find 5).map fun e => decide (∃ o ∈ vin e.tx, o.hash = 1)) =
      some true := by decide +kernel
  rw [he, map_some, some_inj, decide_eq_true_iff] at hspent
  have hle := h.size_add_le he he' ⟨mem_ids_of_find he', e, he, hspent⟩ (by decide)
  have hpos := e'.size_pos
  rw [Prod.mk.injEq] at hsizes
  omega

/-- The costs of a transaction and its parent add up to 2³¹, which is negative as an `int`. -/
def costlyChain : Pool PlainTx ℕ :=
  [addCostly 1 [0], addCostly 2 [1]].foldl exec empty

theorem not_accurate_costlyChain : ¬ costlyChain.Accurate := by
  intro h
  have hstored : (costlyChain.find 2).map (·.aborted) = some true := by decide +kernel
  obtain ⟨e, he, haborted⟩ := map_eq_some_iff.1 hstored
  rw [h.alive.2 2 e he] at haborted
  exact Bool.false_ne_true haborted

end Pool

end KPCoin.Mempool
