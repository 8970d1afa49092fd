import KPCoin.Mempool.Ancestry

/-!
# Accounts of a relation

`Accounts L p` says that the links and totals of the pool `p` are exact for a relation `L` between
its transactions: each entry has the links of `L`, and its totals are the sums over all that can be
reached by `L` in either direction.  The relation need not be the one that the inputs of the
transactions give; while a block is being undone, links to transactions that came before are
missing.
-/

open Relation Finset

namespace KPCoin.Mempool

variable {Tx Txid : Type*}

open Classical in
/-- The book of a transaction when its links are those of `L`. -/
noncomputable def bookOf (ids : Finset Txid) (L : Txid → Txid → Prop) (id : Txid) : Book Txid where
  parents := ids.filter fun a => L a id
  children := ids.filter fun c => L id c
  descendants := ids.filter fun d => ReflTransGen L id d
  ancestors := ids.filter fun a => ReflTransGen L a id

section BookOf

variable {ids : Finset Txid} {L : Txid → Txid → Prop} {id x : Txid}

@[simp] theorem mem_bookOf_parents : x ∈ (bookOf ids L id).parents ↔ x ∈ ids ∧ L x id := by
  simp [bookOf]

@[simp] theorem mem_bookOf_children : x ∈ (bookOf ids L id).children ↔ x ∈ ids ∧ L id x := by
  simp [bookOf]

@[simp] theorem mem_bookOf_descendants :
    x ∈ (bookOf ids L id).descendants ↔ x ∈ ids ∧ ReflTransGen L id x := by
  simp [bookOf]

@[simp] theorem mem_bookOf_ancestors :
    x ∈ (bookOf ids L id).ancestors ↔ x ∈ ids ∧ ReflTransGen L x id := by
  simp [bookOf]

end BookOf

section Fee

variable [LinearOrder Txid] {L : Txid → Txid → Prop} {id t : Txid} {w w' : Txid → Package}

theorem sum_update_weight {d : ℤ} (S : Finset Txid)
    (ht : w' t = w t + feeOnly d) (hw : ∀ a, a ≠ t → w' a = w a) :
    ∑ a ∈ S, w' a = ∑ a ∈ S, w a + if t ∈ S then feeOnly d else 0 := by
  have hupdate : ∀ a, w' a = w a + if a = t then feeOnly d else 0 := by
    intro a
    split_ifs with hat
    · rw [hat, ht]
    · rw [hw a hat, add_zero]
  rw [sum_congr rfl fun a _ => hupdate a, sum_add_distrib, sum_ite_eq']

open Classical in
/-- What becomes of an entry when the fee of `t` changes by `d`. -/
noncomputable def withFee (L : Txid → Txid → Prop) (t : Txid) (d : ℤ) (id : Txid)
    (e : Entry Tx Txid) : Entry Tx Txid :=
  if id = t then e.updateModifiedFee d
  else
    let e := if TransGen L id t then e.updateDescendantState 0 d 0 else e
    if TransGen L t id then e.updateAncestorState 0 d 0 0 else e

theorem withFee_toTxInfo (L : Txid → Txid → Prop) (t : Txid) (d : ℤ) (id : Txid)
    (e : Entry Tx Txid) :
    (withFee L t d id e).toTxInfo = e.toTxInfo ∧
      (withFee L t d id e).idxRandomized = e.idxRandomized := by
  simp only [withFee]
  split_ifs <;> exact ⟨rfl, rfl⟩

theorem withFee_weight (L : Txid → Txid → Prop) (t : Txid) (d : ℤ) (id : Txid) (e : Entry Tx Txid) :
    (withFee L t d id e).weight = e.weight + if id = t then feeOnly d else 0 := by
  simp only [withFee]
  split_ifs
  · exact Package.ext (add_zero _).symm (add_zero _).symm rfl (add_zero _).symm
  all_goals exact (add_zero _).symm

theorem withFee_keeps {b : Book Txid} {d : ℤ} {e : Entry Tx Txid}
    (hk : e.Keeps w b) (hwt : w' t = w t + feeOnly d)
    (hw : ∀ a, a ≠ t → w' a = w a) (hdesc : t ∈ b.descendants ↔ ReflTransGen L id t)
    (hanc : t ∈ b.ancestors ↔ ReflTransGen L t id) : (withFee L t d id e).Keeps w' b := by
  have hd := sum_update_weight b.descendants hwt hw
  have ha := sum_update_weight b.ancestors hwt hw
  by_cases hid : id = t
  · rw [if_pos (hdesc.2 (hid ▸ .refl))] at hd
    rw [if_pos (hanc.2 (hid ▸ .refl))] at ha
    simp only [withFee, if_pos hid]
    exact ⟨hk.parents, hk.children, hd ▸ hk.descendants.updateModifiedFee d,
      ha ▸ hk.ancestors.updateModifiedFee d, hk.sane⟩
  · have hdesc' : TransGen L id t ↔ t ∈ b.descendants := by
      rw [hdesc, reflTransGen_iff_eq_or_transGen, or_iff_right (Ne.symm hid)]
    have hanc' : TransGen L t id ↔ t ∈ b.ancestors := by
      rw [hanc, reflTransGen_iff_eq_or_transGen, or_iff_right hid]
    simp only [withFee, if_neg hid, hdesc', hanc']
    have hdown : (e.updateDescendantState 0 d 0).Sane :=
      hk.sane.updateDescendantState (by simpa using hk.sane.2.1) d
    have hup : ∀ {e' : Entry Tx Txid}, e'.Sane → (e'.updateAncestorState 0 d 0 0).Sane := fun h =>
      h.updateAncestorState (by simpa using h.2.2.1) (by simpa using h.2.2.2) d
    refine ⟨?_, ?_, ?_, ?_, ?_⟩
    · split_ifs <;> exact hk.parents
    · split_ifs <;> exact hk.children
    · rw [hd]
      split_ifs
      · exact (hk.descendants.update (feeOnly d)).updateAncestorState _ _ _ _
      · rw [add_zero]
        exact hk.descendants.updateAncestorState _ _ _ _
      · exact hk.descendants.update (feeOnly d)
      · rw [add_zero]
        exact hk.descendants
    · rw [ha]
      split_ifs
      · exact (hk.ancestors.updateDescendantState _ _ _).update (feeOnly d)
      · exact hk.ancestors.update (feeOnly d)
      · rw [add_zero]
        exact hk.ancestors.updateDescendantState _ _ _
      · rw [add_zero]
        exact hk.ancestors
    · split_ifs
      exacts [hup hdown, hup hk.sane, hdown, hk.sane]

end Fee

namespace Pool

open PoolTx

variable [LinearOrder Txid] [PoolTx Tx Txid] {p p' : Pool Tx Txid} {L : Txid → Txid → Prop}
  {id x t : Txid}

/-- Every entry is found under the hash of its transaction. -/
def Keyed (p : Pool Tx Txid) : Prop := ∀ id e, p.find id = some e → getHash e.tx = id

theorem Retouched.keyed (h : Retouched p p') (hkey : p.Keyed) : p'.Keyed := by
  intro id e' he'
  obtain ⟨e, he, hcore⟩ := h.find_some he'
  rw [Entry.tx_eq_of_core hcore, hkey id e he]

/-- The links and totals of the entries are exact for the relation `L`. -/
structure Accounts (L : Txid → Txid → Prop) (p : Pool Tx Txid) : Prop where
  keyed : p.Keyed
  inside : p.Inside L
  acyclic : ∀ a, ¬ TransGen L a a
  keeps : p.KeepsOn p.ids p.weight (bookOf p.ids L)
  running : p.failed = false

namespace Accounts

variable (h : p.Accounts L)
include h

theorem childLinks : p.ChildLinks L := by
  refine h.keeps.childLinks h.inside fun id _ x => ?_
  rw [mem_bookOf_children]
  exact and_iff_right_of_imp fun hL => (h.inside id x hL).2

theorem parentLinks : p.ParentLinks L := by
  refine h.keeps.parentLinks h.inside fun id _ x => ?_
  rw [mem_bookOf_parents]
  exact and_iff_right_of_imp fun hL => (h.inside x id hL).1

end Accounts

open Classical in
theorem Accounts.find_changeFee (h : p.Accounts L) (ht : t ∈ p.ids) (d : ℤ) (id : Txid) :
    (p.changeFee t d).find id = (p.find id).map (withFee L t d id) := by
  obtain ⟨e, he⟩ := mem_ids.1 ht
  have hhash : getHash e.tx = t := h.keyed t e he
  simp only [changeFee, he]
  set q := p.modify t (Entry.updateModifiedFee d) with hq
  have hqids : q.ids = p.ids := by
    ext x
    rw [mem_ids, mem_ids, find_modify]
    split_ifs with hx
    · simp [hx]
    · rfl
  have hqP : q.ParentLinks L := by
    rw [ParentLinks, parentsOf_modify]
    · exact h.parentLinks
    · exact fun _ => rfl
  have hqin : q.Inside L := by rw [Inside, hqids]; exact h.inside
  set r := q.modifyEach (q.assumeCalculateMemPoolAncestors e.toTxInfo Limits.noLimits false)
    (Entry.updateDescendantState 0 d 0) with hr
  have hrr : Retouched q r := by
    refine Retouched.modifyEach _ ?_ q
    exact fun _ => rfl
  have hrC : r.ChildLinks L := by
    rw [ChildLinks, childrenOf_modifyEach, childrenOf_modify]
    · exact h.childLinks
    · exact fun _ => rfl
    · exact fun _ => rfl
  have hdesc : id ∈ (r.calculateDescendants t ∅).erase t ↔ TransGen L t id := by
    rw [OrderedSet.mem_erase, mem_calculateDescendants hrC
      (by rw [Inside, hrr.ids_eq]; exact hqin) (by rw [hrr.ids_eq, hqids]; exact ht) (by simp),
      transGen_iff_ne_and h.acyclic]
    simp [ne_comm]
  have hanc : id ∈ q.assumeCalculateMemPoolAncestors e.toTxInfo Limits.noLimits false ↔
      TransGen L id t := by
    rw [mem_assumeCalculateMemPoolAncestors hqP hqin, hhash]
  have hfind : r.find id = if TransGen L id t then
      (q.find id).map (Entry.updateDescendantState 0 d 0) else q.find id := by
    rw [find_modifyEach]
    simp [hanc]
  have hfindq : q.find id = if id = t then (p.find t).map (Entry.updateModifiedFee d)
      else p.find id := find_modify t _ p id
  rw [find_modifyEach]
  simp only [hdesc, hfind, hfindq]
  by_cases hid : id = t
  · subst hid
    have hirr := h.acyclic id
    simp only [hirr, if_true, if_false]
    exact congrArg (fun g => (p.find id).map g) (funext fun _ => (if_pos rfl).symm)
  · simp only [hid, if_false]
    cases p.find id with
    | none => split_ifs <;> rfl
    | some e' =>
      simp only [Option.map_some, withFee, hid, if_false]
      split_ifs <;> rfl

theorem Accounts.changeFee (h : p.Accounts L) (t : Txid) (d : ℤ) :
    (p.changeFee t d).Accounts L := by
  by_cases ht : t ∈ p.ids
  case neg =>
    rw [Pool.changeFee, find_eq_none.2 ht]
    exact h
  have hfind := h.find_changeFee ht d
  have hids : (p.changeFee t d).ids = p.ids := by
    ext x
    rw [mem_ids, mem_ids, hfind]
    simp
  -- only `t` weighs differently
  have hweight : ∀ a e, p.find a = some e → (p.changeFee t d).weight a =
      p.weight a + if a = t then feeOnly d else 0 := by
    intro a e he
    rw [weight, hfind, he, weight_of_find he]
    exact withFee_weight L t d a e
  have hwt : (p.changeFee t d).weight t = p.weight t + feeOnly d := by
    obtain ⟨e, he⟩ := mem_ids.1 ht
    rw [hweight t e he, if_pos rfl]
  have hw : ∀ a, a ≠ t → (p.changeFee t d).weight a = p.weight a := by
    intro a ha
    cases he : p.find a with
    | none => rw [weight, weight, hfind, he, Option.map_none]
    | some e => rw [hweight a e he, if_neg ha, add_zero]
  refine ⟨fun x e' he' => ?_, ?_, h.acyclic, fun x hx e' he' => ?_, ?_⟩
  · rw [hfind] at he'
    obtain ⟨e, he, rfl⟩ := Option.map_eq_some_iff.1 he'
    rw [(withFee_toTxInfo L t d x e).1, h.keyed x e he]
  · rw [Inside, hids]
    exact h.inside
  · rw [hfind] at he'
    obtain ⟨e, he, rfl⟩ := Option.map_eq_some_iff.1 he'
    rw [hids]
    exact withFee_keeps (h.keeps x (mem_ids_of_find he) e he) hwt hw (by simp [ht]) (by simp [ht])
  · obtain ⟨e, he⟩ := mem_ids.1 ht
    simp only [Pool.changeFee, he, failed_modifyEach]
    exact h.running

end Pool

end KPCoin.Mempool
