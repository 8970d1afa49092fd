import KPCoin.Mempool.Adding
import KPCoin.Mempool.Removing

/-!
# The other indexes of the pool

Beside the links and totals of its entries the pool keeps `mapNextTx`, two sums and the list
`txns_randomized` with a position in each entry.  `Indexed p` says that they are exact.  They change
only when a transaction enters (`Indexed.addUnchecked`) or leaves (`Indexed.removeStaged`).
-/

open Finset

namespace KPCoin.Mempool

open List Option

section MoveLast

variable {α : Type*} {l : List α} {x back : α} {i j : ℕ}

/-- The element at `i` is replaced by the last one, which is taken from the end. -/
def moveLast (i : ℕ) (back : α) (l : List α) : List α := (l.set i back).dropLast

theorem moveLast_perm (hi : l[i]? = some x) (hback : l.getLast? = some back) :
    (x :: moveLast i back l).Perm l := by
  obtain ⟨l, rfl⟩ := getLast?_eq_some_iff.1 hback
  obtain ⟨hlt, hx⟩ := List.getElem?_eq_some_iff.1 hi
  rw [length_append, length_singleton] at hlt
  by_cases hlast : i = l.length
  · subst hlast
    have hxb : back = x := by simpa using hx
    subst hxb
    rw [moveLast]
    simpa using (perm_append_singleton back l).symm
  · have hlt : i < l.length := by omega
    have hxi : l[i] = x := by rwa [getElem_append_left hlt] at hx
    rw [moveLast, set_append_left _ _ hlt, dropLast_concat]
    have hset : (x :: l.set i back).Perm (x :: back :: l.eraseIdx i) :=
      (set_perm_cons_eraseIdx hlt back).cons x
    have hget : (x :: l.eraseIdx i).Perm l := hxi ▸ getElem_cons_eraseIdx_perm hlt
    exact ((hset.trans (.swap _ _ _)).trans (hget.cons back)).trans
      (perm_append_singleton back l).symm

/-- Where the others are: the last one at `i`, the rest in their places. -/
theorem getElem?_moveLast {y : α} (hi : i < l.length) (hback : l.getLast? = some back)
    (hj : l[j]? = some y) (hji : j ≠ i) :
    (moveLast i back l)[if j + 1 = l.length then i else j]? = some y := by
  obtain ⟨l, rfl⟩ := getLast?_eq_some_iff.1 hback
  obtain ⟨hlt, hy⟩ := List.getElem?_eq_some_iff.1 hj
  rw [length_append, length_singleton] at hi hlt
  rw [moveLast, getElem?_dropLast, getElem?_set]
  simp only [length_set, length_append, length_singleton]
  by_cases hlast : j + 1 = l.length + 1
  · have hyb : back = y := by
      have hjl : j = l.length := by omega
      subst hjl
      simpa using hy
    rw [if_pos hlast, if_pos (by omega), if_pos rfl, if_pos hi, hyb]
  · rw [if_neg hlast, if_pos (by omega), if_neg (Ne.symm hji), hj]

end MoveLast

namespace Pool

open PoolTx

variable {Tx Txid : Type*} [LinearOrder Txid] {p p' : Pool Tx Txid}
  {id x t : Txid} {info : TxInfo Tx} {ancestors : OrderedSet Txid} {e : Entry Tx Txid}

theorem find_of_map_eq (h : (p'.find id).map (fun e => (e.toTxInfo, e.idxRandomized)) =
    (p.find id).map fun e => (e.toTxInfo, e.idxRandomized)) (he : p.find id = some e) :
    ∃ e', p'.find id = some e' ∧ e'.toTxInfo = e.toTxInfo ∧ e'.idxRandomized = e.idxRandomized := by
  rw [he] at h
  obtain ⟨e', he', heq⟩ := map_eq_some_iff.1 h
  exact ⟨e', he', congrArg Prod.fst heq, congrArg Prod.snd heq⟩

/-- The pools differ in nothing that the indexes speak of. -/
structure SameIndexes (p p' : Pool Tx Txid) : Prop where
  entries : ∀ id, (p'.find id).map (fun e => (e.toTxInfo, e.idxRandomized)) =
    (p.find id).map fun e => (e.toTxInfo, e.idxRandomized)
  mapNextTx : p'.mapNextTx = p.mapNextTx
  txnsRandomized : p'.txnsRandomized = p.txnsRandomized
  totalTxSize : p'.totalTxSize = p.totalTxSize
  totalFee : p'.totalFee = p.totalFee

namespace SameIndexes

theorem symm (h : SameIndexes p p') : SameIndexes p' p :=
  ⟨fun id => (h.entries id).symm, h.mapNextTx.symm, h.txnsRandomized.symm, h.totalTxSize.symm,
    h.totalFee.symm⟩

theorem trans {q : Pool Tx Txid} (h : SameIndexes p q) (h' : SameIndexes q p') : SameIndexes p p' :=
  ⟨fun id => (h'.entries id).trans (h.entries id), h'.mapNextTx.trans h.mapNextTx,
    h'.txnsRandomized.trans h.txnsRandomized, h'.totalTxSize.trans h.totalTxSize,
    h'.totalFee.trans h.totalFee⟩

theorem of_retouched (h : Retouched p p') : SameIndexes p p' where
  entries id := by
    have hcore := congrArg (Option.map fun c : TxInfo Tx × ℤ × ℕ => (c.1, c.2.2)) (h.core id)
    rw [Option.map_map, Option.map_map] at hcore
    exact hcore
  mapNextTx := by rw [h.rest]
  txnsRandomized := by rw [h.rest]
  totalTxSize := by rw [h.rest]
  totalFee := by rw [h.rest]

theorem find_some (h : SameIndexes p p') (he : p.find id = some e) :
    ∃ e', p'.find id = some e' ∧ e'.toTxInfo = e.toTxInfo ∧ e'.idxRandomized = e.idxRandomized :=
  find_of_map_eq (h.entries id) he

theorem ids_eq (h : SameIndexes p p') : p'.ids = p.ids := by
  ext x
  rw [mem_ids, mem_ids]
  refine ⟨fun ⟨e', he'⟩ => ?_, fun ⟨e, he⟩ => ?_⟩
  · obtain ⟨e, he, -⟩ := h.symm.find_some he'
    exact ⟨e, he⟩
  · obtain ⟨e', he', -⟩ := h.find_some he
    exact ⟨e', he'⟩

/-- A sum over the entries that reads only what was given for them. -/
theorem sum_eq (h : SameIndexes p p') (g : TxInfo Tx → ℤ) :
    ∑ id ∈ p'.ids, (p'.find id).elim 0 (fun e => g e.toTxInfo) =
      ∑ id ∈ p.ids, (p.find id).elim 0 fun e => g e.toTxInfo := by
  rw [h.ids_eq]
  refine sum_congr rfl fun id hid => ?_
  obtain ⟨e, he⟩ := mem_ids.1 hid
  obtain ⟨e', he', hinfo, -⟩ := h.find_some he
  rw [he, he', elim_some, elim_some, hinfo]

end SameIndexes

variable [PoolTx Tx Txid] {α β : Type*}

/-- The indexes are exact: `mapNextTx` has the spender of each output that is spent, the sums are
those over the entries, and each entry says where in `txns_randomized` its transaction is. -/
structure Indexed (p : Pool Tx Txid) : Prop where
  keyed : p.Keyed
  spender : ∀ o tx, p.mapNextTx.lookup o = some tx ↔
    ∃ id e, p.find id = some e ∧ e.tx = tx ∧ o ∈ vin tx
  size : p.totalTxSize = ∑ id ∈ p.ids, (p.find id).elim 0 (·.size)
  fee : p.totalFee = ∑ id ∈ p.ids, (p.find id).elim 0 (·.fee)
  nodup : (p.txnsRandomized.map getHash).Nodup
  listed : ∀ id, id ∈ p.txnsRandomized.map getHash ↔ id ∈ p.ids
  position : ∀ id e, p.find id = some e → p.txnsRandomized[e.idxRandomized]? = some e.tx

theorem indexed_empty : (Pool.empty : Pool Tx Txid).Indexed where
  keyed _ _ h := by cases h
  spender _ _ := ⟨fun h => (by cases h), fun ⟨_, _, h, _⟩ => (by cases h)⟩
  size := rfl
  fee := rfl
  nodup := .nil
  listed id := by
    rw [mem_ids]
    exact ⟨fun h => absurd h not_mem_nil, fun ⟨_, h⟩ => (by cases h)⟩
  position _ _ h := by cases h

theorem Indexed.perm (h : p.Indexed) : (p.txnsRandomized.map getHash).Perm p.mapTx.keys := by
  refine (perm_ext_iff_of_nodup h.nodup p.mapTx.keys_nodup).2 fun id => ?_
  rw [h.listed, ids, List.mem_toFinset]

namespace SameIndexes

theorem indexed (h : SameIndexes p p') (hp : p.Indexed) : p'.Indexed where
  keyed id e' he' := by
    obtain ⟨e, he, hinfo, -⟩ := h.symm.find_some he'
    rw [← hinfo, hp.keyed id e he]
  spender o tx := by
    rw [h.mapNextTx, hp.spender]
    constructor
    · rintro ⟨id, e, he, rfl, ho⟩
      obtain ⟨e', he', hinfo, -⟩ := h.find_some he
      exact ⟨id, e', he', by rw [hinfo], ho⟩
    · rintro ⟨id, e', he', rfl, ho⟩
      obtain ⟨e, he, hinfo, -⟩ := h.symm.find_some he'
      exact ⟨id, e, he, by rw [hinfo], ho⟩
  size := by rw [h.totalTxSize, hp.size]; exact (h.sum_eq (·.size)).symm
  fee := by rw [h.totalFee, hp.fee]; exact (h.sum_eq (·.fee)).symm
  nodup := by rw [h.txnsRandomized]; exact hp.nodup
  listed id := by rw [h.txnsRandomized, h.ids_eq]; exact hp.listed id
  position id e' he' := by
    obtain ⟨e, he, hinfo, hidx⟩ := h.symm.find_some he'
    rw [h.txnsRandomized, ← hidx, ← hinfo, hp.position id e he]

end SameIndexes

theorem lookup_foldl_insertNew [DecidableEq α] (v : β) (l : List α) (m : Map α β) (k : α) :
    (l.foldl (fun m o => if (m.lookup o).isSome then m else m.insert o v) m).lookup k =
      (m.lookup k).or (if k ∈ l then some v else none) := by
  induction l generalizing m with
  | nil => simp
  | cons o l ih =>
    rw [foldl_cons, ih]
    by_cases ho : (m.lookup o).isSome
    · rw [if_pos ho]
      by_cases hk : k = o
      · subst hk
        obtain ⟨u, hu⟩ := isSome_iff_exists.1 ho
        simp [hu]
      · simp [hk]
    · rw [if_neg ho]
      by_cases hk : k = o
      · subst hk
        have hnone : m.lookup k = none := by simpa using ho
        simp [hnone]
      · simp [hk]

theorem withNew_rest (info : TxInfo Tx) (p : Pool Tx Txid) :
    (p.withNew info).txnsRandomized = p.txnsRandomized ∧
      (p.withNew info).totalTxSize = p.totalTxSize ∧ (p.withNew info).totalFee = p.totalFee ∧
      ∀ o, (p.withNew info).mapNextTx.lookup o =
        (p.mapNextTx.lookup o).or (if o ∈ vin info.tx then some info.tx else none) := by
  have hemplace : ∃ m, p.emplace info = { p with mapTx := m } := by
    unfold emplace
    cases p.find (getHash info.tx) with
    | none => exact ⟨_, rfl⟩
    | some e => exact ⟨p.mapTx, rfl⟩
  have hdelta : ∀ (q : Pool Tx Txid) t, ∃ m, q.applyDelta t = { q with mapTx := m } := by
    intro q t
    simp only [applyDelta]
    split_ifs
    · exact ⟨q.mapTx, rfl⟩
    · exact ⟨_, rfl⟩
  obtain ⟨m, hm⟩ := hemplace
  obtain ⟨m', hm'⟩ := hdelta (p.emplace info) (getHash info.tx)
  rw [withNew, hm', hm]
  exact ⟨rfl, rfl, rfl, lookup_foldl_insertNew info.tx (vin info.tx) p.mapNextTx⟩

theorem addUnchecked_entries (ht : getHash info.tx ∉ p.ids) (ancestors : OrderedSet Txid) :
    (∃ e, (p.addUnchecked info ancestors).find (getHash info.tx) = some e ∧ e.toTxInfo = info ∧
      e.idxRandomized = p.txnsRandomized.length) ∧
    ∀ x, x ≠ getHash info.tx → ((p.addUnchecked info ancestors).find x).map
      (fun e => (e.toTxInfo, e.idxRandomized)) =
        (p.find x).map fun e => (e.toTxInfo, e.idxRandomized) := by
  have hr := retouched_withLinked info ancestors p
  have hlen : (p.withLinked info ancestors).txnsRandomized = p.txnsRandomized := by
    rw [hr.rest]
    exact (withNew_rest info p).1
  constructor
  · obtain ⟨e, he⟩ : ∃ e, (p.addUnchecked info ancestors).find (getHash info.tx) = some e := by
      rw [← mem_ids, ids_addUnchecked ht]
      exact mem_insert_self _ _
    obtain ⟨-, hinfo, -, hidx⟩ | ⟨hne, -⟩ := find_addUnchecked ht he
    · exact ⟨e, he, hinfo, hidx.trans (congrArg length hlen)⟩
    · exact absurd rfl hne
  · intro x hx
    rw [addUnchecked_eq, find_countNew, if_neg hx, (SameIndexes.of_retouched hr).entries,
      find_withNew ht, if_neg hx]

theorem Indexed.addUnchecked (h : p.Indexed) (ht : getHash info.tx ∉ p.ids)
    (hfree : ∀ o ∈ vin info.tx, p.mapNextTx.lookup o = none) (ancestors : OrderedSet Txid) :
    (p.addUnchecked info ancestors).Indexed := by
  have hr := retouched_withLinked info ancestors p
  obtain ⟨htxns, hsize, hfee, hnext⟩ := withNew_rest info p
  obtain ⟨⟨e0, he0, hinfo0, hidx0⟩, hold⟩ := addUnchecked_entries ht ancestors
  have hids := ids_addUnchecked ht ancestors
  have hne : ∀ x ∈ p.ids, x ≠ getHash info.tx := fun x hx hxt => ht (hxt ▸ hx)
  have htxns' : (p.addUnchecked info ancestors).txnsRandomized = p.txnsRandomized ++ [info.tx] := by
    rw [addUnchecked_eq, countNew, hr.rest, htxns]
  have hsum : ∀ g : TxInfo Tx → ℤ, ∑ id ∈ (p.addUnchecked info ancestors).ids,
      ((p.addUnchecked info ancestors).find id).elim 0 (fun e => g e.toTxInfo) =
        (∑ id ∈ p.ids, (p.find id).elim 0 fun e => g e.toTxInfo) + g info := by
    intro g
    rw [hids, sum_insert ht, he0, elim_some, hinfo0, add_comm]
    refine congrArg (· + g info) (sum_congr rfl fun x hx => ?_)
    obtain ⟨e, he⟩ := mem_ids.1 hx
    obtain ⟨e1, he1, hinfo, -⟩ := find_of_map_eq (hold x (hne x (mem_ids_of_find he))) he
    rw [he, he1, elim_some, elim_some, hinfo]
  refine ⟨fun x e he => ?_, fun o tx => ?_, ?_, ?_, ?_, fun x => ?_, fun x e he => ?_⟩
  · by_cases hx : x = getHash info.tx
    · subst hx
      rw [mem_unique he he0, hinfo0]
    · obtain ⟨e1, he1, hinfo, -⟩ := find_of_map_eq (hold x hx).symm he
      rw [← hinfo, h.keyed x e1 he1]
  · have hlookup : (p.addUnchecked info ancestors).mapNextTx.lookup o =
        (p.mapNextTx.lookup o).or (if o ∈ vin info.tx then some info.tx else none) := by
      rw [← hnext, addUnchecked_eq, hr.rest]
      rfl
    rw [hlookup]
    constructor
    · intro hlook
      rcases or_eq_some_iff.1 hlook with hlook | ⟨-, hlook⟩
      · obtain ⟨x, e, he, rfl, ho⟩ := (h.spender o tx).1 hlook
        obtain ⟨e1, he1, hinfo, -⟩ := find_of_map_eq (hold x (hne x (mem_ids_of_find he))) he
        exact ⟨x, e1, he1, by rw [hinfo], ho⟩
      · split_ifs at hlook with ho
        cases hlook
        exact ⟨_, e0, he0, by rw [hinfo0], ho⟩
    · rintro ⟨x, e, he, rfl, ho⟩
      by_cases hx : x = getHash info.tx
      · subst hx
        obtain rfl := mem_unique he he0
        rw [hinfo0] at ho ⊢
        rw [hfree o ho, if_pos ho]
        rfl
      · obtain ⟨e1, he1, hinfo, -⟩ := find_of_map_eq (hold x hx).symm he
        rw [(h.spender o e.tx).2 ⟨x, e1, he1, by rw [hinfo], ho⟩]
        rfl
  · have htotal : (p.addUnchecked info ancestors).totalTxSize = p.totalTxSize + info.size := by
      rw [addUnchecked_eq, countNew, hr.rest, hsize]
    rw [htotal, h.size]
    exact (hsum (·.size)).symm
  · have htotal : (p.addUnchecked info ancestors).totalFee = p.totalFee + info.fee := by
      rw [addUnchecked_eq, countNew, hr.rest, hfee]
    rw [htotal, h.fee]
    exact (hsum (·.fee)).symm
  · rw [htxns', map_append, nodup_append]
    refine ⟨h.nodup, by simp, fun a ha b hb => ?_⟩
    rw [List.map_singleton, List.mem_singleton] at hb
    exact hb ▸ hne a ((h.listed a).1 ha)
  · rw [htxns', map_append, mem_append, h.listed, hids, or_comm]
    simp
  · rw [htxns']
    by_cases hx : x = getHash info.tx
    · subst hx
      obtain rfl := mem_unique he he0
      rw [hidx0, hinfo0]
      simp
    · obtain ⟨e1, he1, hinfo, hidx⟩ := find_of_map_eq (hold x hx).symm he
      have hpos := h.position x e1 he1
      rw [← hidx, ← hinfo, getElem?_append_left (List.getElem?_eq_some_iff.1 hpos).1, hpos]

theorem Indexed.position_inj (h : p.Indexed) {i j : ℕ} {tx tx' : Tx}
    (hi : p.txnsRandomized[i]? = some tx) (hj : p.txnsRandomized[j]? = some tx')
    (heq : getHash tx = getHash tx') : i = j := by
  have hlt := (List.getElem?_eq_some_iff.1 hi).1
  refine (getElem?_inj (by rwa [length_map]) h.nodup).1 ?_
  rw [getElem?_map, getElem?_map, hi, hj, map_some, map_some, heq]

theorem dropRandomized_rest (i : ℕ) (p : Pool Tx Txid) :
    (p.dropRandomized i).mapNextTx = p.mapNextTx ∧
      (p.dropRandomized i).totalTxSize = p.totalTxSize ∧
      (p.dropRandomized i).totalFee = p.totalFee := by
  unfold dropRandomized
  split_ifs
  · cases p.txnsRandomized.getLast? with
    | none => exact ⟨rfl, rfl, rfl⟩
    | some back => exact ⟨rfl, rfl, rfl⟩
  · exact ⟨rfl, rfl, rfl⟩

/-- The transaction leaves `txns_randomized`, and the others are still where their entries say. -/
theorem Indexed.dropRandomized (h : p.Indexed) (he : p.find t = some e) :
    (e.tx :: (p.dropRandomized e.idxRandomized).txnsRandomized).Perm p.txnsRandomized ∧
    ∀ x e1, x ≠ t → p.find x = some e1 → ∃ e2,
      (p.dropRandomized e.idxRandomized).find x = some e2 ∧ e2.toTxInfo = e1.toTxInfo ∧
      (p.dropRandomized e.idxRandomized).txnsRandomized[e2.idxRandomized]? = some e2.tx := by
  have hpos := h.position t e he
  have hlt := (List.getElem?_eq_some_iff.1 hpos).1
  by_cases hlen : 1 < p.txnsRandomized.length
  · obtain ⟨back, hback⟩ : ∃ back, p.txnsRandomized.getLast? = some back :=
      ⟨_, getLast?_eq_some_getLast (length_pos_iff.1 (by omega))⟩
    have hdrop : p.dropRandomized e.idxRandomized =
        { p.modify (getHash back) (fun e1 => { e1 with idxRandomized := e.idxRandomized }) with
          txnsRandomized := moveLast e.idxRandomized back p.txnsRandomized } := by
      rw [Pool.dropRandomized, if_pos hlen, hback]
      rfl
    rw [hdrop]
    refine ⟨moveLast_perm hpos hback, fun x e1 hx he1 => ?_⟩
    have hpos1 := h.position x e1 he1
    have hhash1 := h.keyed x e1 he1
    have hne : e1.idxRandomized ≠ e.idxRandomized := by
      intro hidx
      rw [hidx, hpos] at hpos1
      exact hx (by rw [← hhash1, ← some.inj hpos1, h.keyed t e he])
    have hmoved := getElem?_moveLast hlt hback hpos1 hne
    have hlast : p.txnsRandomized[p.txnsRandomized.length - 1]? = some back := by
      rw [← getLast?_eq_getElem?, hback]
    change ∃ e2, (p.modify (getHash back) _).find x = some e2 ∧ _
    rw [find_modify]
    by_cases hxb : x = getHash back
    · -- the entry of the transaction that moves
      have hidx := h.position_inj hpos1 hlast (hhash1.trans hxb)
      rw [if_pos (by omega)] at hmoved
      rw [if_pos hxb, ← hxb, he1]
      exact ⟨_, rfl, rfl, hmoved⟩
    · have hidx : e1.idxRandomized + 1 ≠ p.txnsRandomized.length := by
        intro hidx
        rw [← hidx, Nat.add_sub_cancel, hpos1] at hlast
        exact hxb (by rw [← some.inj hlast, hhash1])
      rw [if_neg hidx] at hmoved
      rw [if_neg hxb]
      exact ⟨e1, he1, rfl, hmoved⟩
  · -- the transaction is the only one
    have hsingle : p.txnsRandomized = [e.tx] := by
      have hone : p.txnsRandomized.length = 1 := by omega
      obtain ⟨tx, htx⟩ := length_eq_one_iff.1 hone
      have hzero : e.idxRandomized = 0 := by omega
      rw [htx, hzero] at hpos
      rw [htx, some.inj hpos]
    have hdrop : p.dropRandomized e.idxRandomized = { p with txnsRandomized := [] } := by
      rw [Pool.dropRandomized, if_neg hlen]
    rw [hdrop]
    refine ⟨hsingle ▸ .refl _, fun x e1 hx he1 => absurd ?_ hx⟩
    have hmem := (h.listed x).2 (mem_ids_of_find he1)
    rw [hsingle, List.map_singleton, List.mem_singleton] at hmem
    rw [hmem, h.keyed t e he]

theorem lookup_foldl_erase [DecidableEq α] (l : List α) (m : Map α β) (k : α) :
    (l.foldl (fun m o => m.erase o) m).lookup k = if k ∈ l then none else m.lookup k := by
  induction l generalizing m with
  | nil => simp
  | cons o l ih =>
    rw [foldl_cons, ih, Map.lookup_erase_eq_ite]
    by_cases hk : k = o
    · simp [hk]
    · simp [hk]

theorem Indexed.removeUnchecked (h : p.Indexed) (t : Txid) : (p.removeUnchecked t).Indexed := by
  cases he : p.find t with
  | none =>
    rw [Pool.removeUnchecked, he]
    exact h
  | some e =>
    obtain ⟨hperm, hmoved⟩ := h.dropRandomized he
    obtain ⟨hnext, hsize, hfee⟩ := dropRandomized_rest e.idxRandomized p
    obtain ⟨hback, hids⟩ := find_removeUnchecked t p
    have hfind : ∀ x, x ≠ t → (p.removeUnchecked t).find x =
        (p.dropRandomized e.idxRandomized).find x := by
      intro x hx
      simp only [Pool.removeUnchecked, he]
      exact (Map.lookup_erase_eq_ite _ _ _).trans (if_neg hx)
    -- an entry that is left has the information it had
    have hold : ∀ {x e'}, (p.removeUnchecked t).find x = some e' →
        x ≠ t ∧ ∃ e1, p.find x = some e1 ∧ e1.toTxInfo = e'.toTxInfo := by
      intro x e' he'
      obtain ⟨hx, e1, -, he1, rfl⟩ := hback x e' he'
      exact ⟨hx, e1, he1, rfl⟩
    have hforth : ∀ {x e1}, x ≠ t → p.find x = some e1 →
        ∃ e2, (p.removeUnchecked t).find x = some e2 ∧ e2.toTxInfo = e1.toTxInfo ∧
          (p.dropRandomized e.idxRandomized).txnsRandomized[e2.idxRandomized]? = some e2.tx := by
      intro x e1 hx he1
      rw [hfind x hx]
      exact hmoved x e1 hx he1
    have htxns : (p.removeUnchecked t).txnsRandomized =
        (p.dropRandomized e.idxRandomized).txnsRandomized := by
      simp [Pool.removeUnchecked, he]
    have hsum : ∀ g : TxInfo Tx → ℤ, ∑ id ∈ (p.removeUnchecked t).ids,
        ((p.removeUnchecked t).find id).elim 0 (fun e => g e.toTxInfo) =
          (∑ id ∈ p.ids, (p.find id).elim 0 fun e => g e.toTxInfo) - g e.toTxInfo := by
      intro g
      rw [hids, ← add_sum_erase _ _ (mem_ids_of_find he), he, elim_some, add_sub_cancel_left]
      refine sum_congr rfl fun x hx => ?_
      obtain ⟨hxt, hx⟩ := mem_erase.1 hx
      obtain ⟨e1, he1⟩ := mem_ids.1 hx
      obtain ⟨e2, he2, hinfo, -⟩ := hforth hxt he1
      rw [he1, he2, elim_some, elim_some, hinfo]
    have hperm' := hperm.map getHash
    rw [List.map_cons, h.keyed t e he] at hperm'
    have hnodup := hperm'.nodup_iff.2 h.nodup
    refine ⟨fun x e' he' => ?_, fun o tx => ?_, ?_, ?_, ?_, fun x => ?_, fun x e' he' => ?_⟩
    · obtain ⟨-, e1, he1, hinfo⟩ := hold he'
      rw [← hinfo, h.keyed x e1 he1]
    · have hlookup : (p.removeUnchecked t).mapNextTx.lookup o =
          if o ∈ vin e.tx then none else p.mapNextTx.lookup o := by
        simp only [Pool.removeUnchecked, he]
        rw [lookup_foldl_erase, hnext]
      rw [hlookup]
      constructor
      · intro hlook
        split_ifs at hlook with ho
        obtain ⟨x, e1, he1, rfl, ho1⟩ := (h.spender o tx).1 hlook
        have hx : x ≠ t := by
          rintro rfl
          rw [mem_unique he1 he] at ho1
          exact ho ho1
        obtain ⟨e2, he2, hinfo, -⟩ := hforth hx he1
        exact ⟨x, e2, he2, by rw [hinfo], ho1⟩
      · rintro ⟨x, e', he', rfl, ho'⟩
        obtain ⟨hx, e1, he1, hinfo⟩ := hold he'
        have hlook := (h.spender o e'.tx).2 ⟨x, e1, he1, by rw [hinfo], ho'⟩
        rw [if_neg, hlook]
        -- an output has only one spender
        intro ho
        have htx : e'.tx = e.tx :=
          some.inj (hlook.symm.trans ((h.spender o e.tx).2 ⟨t, e, he, rfl, ho⟩))
        exact hx (by rw [← h.keyed x e1 he1, hinfo, htx, h.keyed t e he])
    · have htotal : (p.removeUnchecked t).totalTxSize = p.totalTxSize - e.size := by
        simp [Pool.removeUnchecked, he, hsize]
      rw [htotal, h.size]
      exact (hsum (·.size)).symm
    · have htotal : (p.removeUnchecked t).totalFee = p.totalFee - e.fee := by
        simp [Pool.removeUnchecked, he, hfee]
      rw [htotal, h.fee]
      exact (hsum (·.fee)).symm
    · rw [htxns]
      exact (nodup_cons.1 hnodup).2
    · rw [htxns, hids, mem_erase, ← h.listed, ← hperm'.mem_iff, List.mem_cons]
      refine ⟨fun hx => ⟨?_, .inr hx⟩, fun ⟨hx, hx'⟩ => hx'.resolve_left hx⟩
      rintro rfl
      exact (nodup_cons.1 hnodup).1 hx
    · obtain ⟨hx, e1, he1, -⟩ := hold he'
      obtain ⟨e2, he2, -, hpos⟩ := hforth hx he1
      obtain rfl := mem_unique he' he2
      rw [htxns]
      exact hpos

theorem Indexed.removeStaged (h : p.Indexed) (S : OrderedSet Txid) (upd : Bool) :
    (p.removeStaged S upd).Indexed := by
  have hstart := (SameIndexes.of_retouched (retouched_updateForRemoveFromMempool S upd p)).indexed h
  exact foldlRecOn (motive := Indexed) S.elems _ hstart fun q hq s _ => hq.removeUnchecked s

end Pool

end KPCoin.Mempool
