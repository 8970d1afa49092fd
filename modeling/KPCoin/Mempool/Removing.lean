import KPCoin.Mempool.Accounts

/-!
# Removing transactions

`UpdateForRemoveFromMempool` takes a set `S` of entries out of the links and totals of the others:
out of the ancestor totals of their descendants if asked to, then out of the descendant totals of
their ancestors and the links to children, last out of the links to parents.  The books of the
entries that stay lose just `S` (`KeepsOn.updateForRemoveFromMempool`).

That is what the accounts of the smaller pool ask for if `S` has with each entry all its
descendants, and also if `S` has with each entry all its ancestors and the ancestor totals are
updated (`Accounts.removeStaged`).  A transaction that is removed alone from between others is
neither, and then paths that led through it still count.

An entry of `S` takes part in the updates until it is removed, and stays in its own totals; that is
why no assertion fails about it.
-/

open Relation Finset

namespace KPCoin.Mempool.Pool

open PoolTx List

variable {Tx Txid : Type*} [LinearOrder Txid] {p : Pool Tx Txid}
  {L : Txid → Txid → Prop} {id x s : Txid} {V : Finset Txid} {w : Txid → Package}
  {B : Txid → Book Txid} {e : Entry Tx Txid} (l : List Txid)

section Sets

variable {T : Finset Txid}

theorem sdiff_erase_of_ne (h : id ≠ s) : T \ ({s} : Finset Txid).erase id = T.erase s := by
  rw [erase_eq_of_notMem (by simpa using h), sdiff_singleton_eq_erase]

theorem sdiff_erase_of_not (h : id ≠ s → s ∉ T) : T \ ({s} : Finset Txid).erase id = T := by
  refine sdiff_eq_self_of_disjoint (disjoint_right.2 fun a ha => ?_)
  obtain ⟨hne, ha⟩ := mem_erase.1 ha
  obtain rfl := Finset.mem_singleton.1 ha
  exact h hne.symm

theorem sdiff_cons (T : Finset Txid) (s : Txid) (l : List Txid) :
    T.erase s \ l.toFinset = T \ (s :: l).toFinset := by
  ext y
  simp only [mem_sdiff, mem_erase, mem_toFinset, List.mem_cons]
  tauto

theorem sdiff_erase_cons (T : Finset Txid) (s : Txid) (l : List Txid) :
    (T \ ({s} : Finset Txid).erase id) \ l.toFinset.erase id = T \ (s :: l).toFinset.erase id := by
  ext y
  simp only [mem_sdiff, mem_erase, Finset.mem_singleton, mem_toFinset, List.mem_cons]
  tauto

end Sets

theorem KeepsOn.leaveDescendants (h : p.KeepsOn p.ids p.weight B) (he : p.find s = some e)
    (hself : ∀ id ∈ p.ids, id ∈ (B id).ancestors)
    (hdesc : ∀ id ∈ p.ids, id ∈ p.calculateDescendants s ∅ ↔ s ∈ (B id).ancestors) :
    (p.leaveDescendants s).KeepsOn p.ids p.weight fun id => ⟨(B id).parents, (B id).children,
      (B id).descendants, (B id).ancestors \ ({s} : Finset Txid).erase id⟩ := by
  simp only [Pool.leaveDescendants, he]
  refine h.modifyEach (fun id hid hmem e' _ hk => ?_) fun id hid hmem => ?_
  · obtain ⟨hne, hmem⟩ := OrderedSet.mem_erase.1 hmem
    have hx : (⟨-1, -e.size, -e.modifiedFee, int32 (-e.sigOpCost)⟩ : Package) = -p.weight s := by
      have hnonneg := e.sigOpCost_nonneg
      have hlt := e.sigOpCost_lt
      rw [weight_of_find he, int32_eq (by omega) (by omega)]
      rfl
    rw [sdiff_erase_of_ne hne]
    exact hk.strikeAncestor p.weight_nonneg (weight_pos hid) hne hx (hself id hid)
      ((hdesc id hid).1 hmem)
  · rw [sdiff_erase_of_not fun hne ha => hmem (OrderedSet.mem_erase.2 ⟨hne, (hdesc id hid).2 ha⟩)]

theorem retouched_leaveDescendants (s : Txid) (p : Pool Tx Txid) :
    Retouched p (p.leaveDescendants s) ∧ (p.leaveDescendants s).childrenOf = p.childrenOf ∧
      (p.leaveDescendants s).parentsOf = p.parentsOf := by
  unfold Pool.leaveDescendants
  cases p.find s with
  | none => exact ⟨Retouched.refl p, rfl, rfl⟩
  | some e =>
    refine ⟨Retouched.modifyEach _ ?_ p, childrenOf_modifyEach _ ?_ p, parentsOf_modifyEach _ ?_ p⟩
    · exact fun _ => rfl
    · exact fun _ => rfl
    · exact fun _ => rfl

/-- The first loop of `UpdateForRemoveFromMempool`. -/
theorem KeepsOn.foldl_leaveDescendants (h : p.KeepsOn p.ids p.weight B) (hC : p.ChildLinks L)
    (hin : p.Inside L) (l : List Txid) (hl : l.Nodup) (hids : ∀ s ∈ l, s ∈ p.ids)
    (hself : ∀ id ∈ p.ids, id ∈ (B id).ancestors)
    (hB : ∀ s ∈ l, ∀ id ∈ p.ids, ReflTransGen L s id ↔ s ∈ (B id).ancestors) :
    (l.foldl (fun p s => p.leaveDescendants s) p).KeepsOn p.ids p.weight fun id =>
      ⟨(B id).parents, (B id).children, (B id).descendants,
        (B id).ancestors \ l.toFinset.erase id⟩ := by
  induction l generalizing p B with
  | nil => exact h.congr fun id _ => by simp
  | cons s l ih =>
    obtain ⟨hs, hl⟩ := nodup_cons.1 hl
    have hsids := hids s (by simp)
    obtain ⟨e, he⟩ := mem_ids.1 hsids
    obtain ⟨hr, hchildren, -⟩ := retouched_leaveDescendants s p
    have hstep := h.leaveDescendants he hself fun id hid => by
      rw [mem_calculateDescendants hC hin hsids (by simp), ← hB s (by simp) id hid]
      simp
    rw [← hr.weight_eq, ← hr.ids_eq] at hstep ⊢
    refine (ih hstep ?_ ?_ hl ?_ ?_ ?_).congr fun id _ => ?_
    · rw [ChildLinks, hchildren]
      exact hC
    · rw [Inside, hr.ids_eq]
      exact hin
    · rw [hr.ids_eq]
      exact fun t ht => hids t (by simp [ht])
    · rw [hr.ids_eq]
      exact fun id hid => by simp [hself id hid]
    · rw [hr.ids_eq]
      intro t ht id hid
      have hts : t ≠ s := fun hts => hs (hts ▸ ht)
      simp [hB t (by simp [ht]) id hid, hts]
    · rw [sdiff_erase_cons]

theorem retouched_foldl_leaveDescendants (p : Pool Tx Txid) :
    Retouched p (l.foldl (fun p s => p.leaveDescendants s) p) ∧
      (l.foldl (fun p s => p.leaveDescendants s) p).childrenOf = p.childrenOf ∧
      (l.foldl (fun p s => p.leaveDescendants s) p).parentsOf = p.parentsOf := by
  induction l generalizing p with
  | nil => exact ⟨Retouched.refl p, rfl, rfl⟩
  | cons s l ih =>
    obtain ⟨hr, hc, hp⟩ := retouched_leaveDescendants s p
    obtain ⟨hr', hc', hp'⟩ := ih (p.leaveDescendants s)
    exact ⟨hr.trans hr', hc'.trans hc, hp'.trans hp⟩

theorem KeepsOn.updateAncestorsOf_false (h : p.KeepsOn p.ids p.weight B)
    (ancestors : OrderedSet Txid) (he : p.find s = some e)
    (hself : ∀ id ∈ p.ids, id ∈ (B id).descendants)
    (hpar : ∀ id ∈ p.ids, id ∈ e.parents ↔ s ∈ (B id).children)
    (hanc : ∀ id ∈ p.ids, id ∈ ancestors ↔ id ≠ s ∧ s ∈ (B id).descendants) :
    (p.updateAncestorsOf false s ancestors).KeepsOn p.ids p.weight fun id =>
      ⟨(B id).parents, (B id).children.erase s,
        (B id).descendants \ ({s} : Finset Txid).erase id, (B id).ancestors⟩ := by
  simp only [updateAncestorsOf, he, Bool.false_eq_true, if_false]
  rw [foldl_updateChild]
  refine KeepsOn.modifyEach (B := fun id => ⟨(B id).parents, (B id).children.erase s,
    (B id).descendants, (B id).ancestors⟩) ?_ ?_ ?_
  · refine h.modifyEach (fun id _ _ e' _ hk => hk.eraseChild s) fun id hid hmem => ?_
    rw [erase_eq_of_notMem fun hc => hmem ((hpar id hid).2 hc)]
  · intro id hid hmem e' _ hk
    obtain ⟨hne, hmem⟩ := (hanc id hid).1 hmem
    have hx : (⟨-1, -1 * e.size, -1 * e.modifiedFee, -e.sigOpCost⟩ : Package) = -p.weight s := by
      rw [weight_of_find he, neg_one_mul, neg_one_mul]
      rfl
    rw [sdiff_erase_of_ne hne]
    exact hk.strikeDescendant p.weight_nonneg (weight_pos hid) hne hx (hself id hid) hmem
  · intro id hid hmem
    rw [sdiff_erase_of_not fun hne hd => hmem ((hanc id hid).2 ⟨hne, hd⟩)]

theorem mem_childrenOf_updateAncestorsOf_false (ancestors : OrderedSet Txid)
    (he : p.find s = some e) : x ∈ (p.updateAncestorsOf false s ancestors).childrenOf id ↔
      x ∈ p.childrenOf id ∧ ¬ (x = s ∧ id ∈ e.parents) := by
  simp only [updateAncestorsOf, he]
  rw [foldl_updateChild, childrenOf_modifyEach, childrenOf, childrenOf, find_modifyEach]
  · simp only [Bool.false_eq_true, if_false]
    split_ifs with hid
    · cases p.find id with
      | none => simp
      | some e' => simp [hid, and_comm]
    · simp [hid]
  · exact fun _ => rfl

theorem parentsOf_updateAncestorsOf (add : Bool) (s : Txid) (ancestors : OrderedSet Txid)
    (p : Pool Tx Txid) : (p.updateAncestorsOf add s ancestors).parentsOf = p.parentsOf := by
  unfold updateAncestorsOf
  cases p.find s with
  | none => rfl
  | some e =>
    dsimp only
    rw [foldl_updateChild, parentsOf_modifyEach, parentsOf_modifyEach]
    · exact fun _ => rfl
    · exact fun _ => rfl

theorem KeepsOn.updateChildrenForRemoval (h : p.KeepsOn V w B)
    (hpar : ∀ id ∈ V, id ∈ p.childrenOf s ↔ s ∈ (B id).parents) :
    (p.updateChildrenForRemoval s).KeepsOn V w fun id =>
      ⟨(B id).parents.erase s, (B id).children, (B id).descendants, (B id).ancestors⟩ := by
  refine h.modifyEach (fun id _ _ e' _ hk => hk.eraseParent s) fun id hid hmem => ?_
  rw [erase_eq_of_notMem fun hc => hmem ((hpar id hid).2 hc)]

theorem retouched_updateChildrenForRemoval (s : Txid) (p : Pool Tx Txid) :
    Retouched p (p.updateChildrenForRemoval s) ∧
      (p.updateChildrenForRemoval s).childrenOf = p.childrenOf := by
  refine ⟨Retouched.modifyEach _ ?_ p, childrenOf_modifyEach _ ?_ p⟩
  · exact fun _ => rfl
  · exact fun _ => rfl

/-- The third loop of `UpdateForRemoveFromMempool`. -/
theorem KeepsOn.foldl_updateChildrenForRemoval (h : p.KeepsOn V w B) (l : List Txid)
    (hl : l.Nodup) (hB : ∀ s ∈ l, ∀ id ∈ V, id ∈ p.childrenOf s ↔ s ∈ (B id).parents) :
    (l.foldl (fun p s => p.updateChildrenForRemoval s) p).KeepsOn V w fun id =>
      ⟨(B id).parents \ l.toFinset, (B id).children, (B id).descendants, (B id).ancestors⟩ := by
  induction l generalizing p B with
  | nil => exact h.congr fun id _ => by simp
  | cons s l ih =>
    obtain ⟨hs, hl⟩ := nodup_cons.1 hl
    obtain ⟨-, hchildren⟩ := retouched_updateChildrenForRemoval s p
    have hstep := h.updateChildrenForRemoval fun id hid => hB s (by simp) id hid
    refine (ih hstep hl ?_).congr fun id _ => ?_
    · intro t ht id hid
      have hts : t ≠ s := fun hts => hs (hts ▸ ht)
      rw [hchildren, hB t (by simp [ht]) id hid, mem_erase, and_iff_right hts]
    · rw [sdiff_cons]

variable [PoolTx Tx Txid]

theorem retouched_leaveAncestors (s : Txid) (p : Pool Tx Txid) :
    Retouched p (p.leaveAncestors s) ∧ (p.leaveAncestors s).parentsOf = p.parentsOf := by
  unfold Pool.leaveAncestors
  cases p.find s with
  | none => exact ⟨Retouched.refl p, rfl⟩
  | some e => exact ⟨retouched_updateAncestorsOf _ _ _ p, parentsOf_updateAncestorsOf _ _ _ p⟩

/-- The second loop of `UpdateForRemoveFromMempool`. -/
theorem KeepsOn.foldl_leaveAncestors (h : p.KeepsOn p.ids p.weight B) (hkey : p.Keyed)
    (hP : p.ParentLinks L) (hin : p.Inside L) (hirr : ∀ a, ¬ TransGen L a a) (l : List Txid)
    (hl : l.Nodup) (hids : ∀ s ∈ l, s ∈ p.ids) (hself : ∀ id ∈ p.ids, id ∈ (B id).descendants)
    (hB : ∀ s ∈ l, ∀ id ∈ p.ids, (L id s ↔ s ∈ (B id).children) ∧
      (ReflTransGen L id s ↔ s ∈ (B id).descendants)) :
    (l.foldl (fun p s => p.leaveAncestors s) p).KeepsOn p.ids p.weight fun id =>
      ⟨(B id).parents, (B id).children \ l.toFinset, (B id).descendants \ l.toFinset.erase id,
        (B id).ancestors⟩ := by
  induction l generalizing p B with
  | nil => exact h.congr fun id _ => by simp
  | cons s l ih =>
    obtain ⟨hs, hl⟩ := nodup_cons.1 hl
    obtain ⟨e, he⟩ := mem_ids.1 (hids s (by simp))
    obtain ⟨hr, hparents⟩ := retouched_leaveAncestors s p
    have hstep : (p.leaveAncestors s).KeepsOn p.ids p.weight fun id =>
        ⟨(B id).parents, (B id).children.erase s,
          (B id).descendants \ ({s} : Finset Txid).erase id, (B id).ancestors⟩ := by
      simp only [Pool.leaveAncestors, he]
      refine h.updateAncestorsOf_false _ he hself (fun id hid => ?_) fun id hid => ?_
      · have hmem := hP s id
        rw [parentsOf, he, Option.elim_some] at hmem
        rw [hmem, (hB s (by simp) id hid).1]
      · rw [mem_assumeCalculateMemPoolAncestors hP hin, hkey s e he, transGen_iff_ne_and hirr,
          (hB s (by simp) id hid).2]
    rw [← hr.weight_eq, ← hr.ids_eq] at hstep ⊢
    refine (ih hstep (hr.keyed hkey) ?_ ?_ hl ?_ ?_ ?_).congr fun id _ => ?_
    · rw [ParentLinks, hparents]
      exact hP
    · rw [Inside, hr.ids_eq]
      exact hin
    · rw [hr.ids_eq]
      exact fun t ht => hids t (by simp [ht])
    · rw [hr.ids_eq]
      exact fun id hid => by simp [hself id hid]
    · rw [hr.ids_eq]
      intro t ht id hid
      have hts : t ≠ s := fun hts => hs (hts ▸ ht)
      obtain ⟨hc, hd⟩ := hB t (by simp [ht]) id hid
      simp [hc, hd, hts]
    · rw [sdiff_cons, sdiff_erase_cons]

theorem mem_childrenOf_foldl_leaveAncestors (hP : p.ParentLinks L) (l : List Txid)
    (hids : ∀ s ∈ l, s ∈ p.ids) :
    x ∈ (l.foldl (fun p s => p.leaveAncestors s) p).childrenOf id ↔
      x ∈ p.childrenOf id ∧ ¬ (x ∈ l ∧ L id x) := by
  induction l generalizing p with
  | nil => simp
  | cons s l ih =>
    obtain ⟨hr, hparents⟩ := retouched_leaveAncestors s p
    obtain ⟨e, he⟩ := mem_ids.1 (hids s (by simp))
    have hmem : id ∈ e.parents ↔ L id s := by
      have := hP s id
      rwa [parentsOf, he, Option.elim_some] at this
    rw [foldl_cons, ih (by rw [ParentLinks, hparents]; exact hP) (by
      rw [hr.ids_eq]; exact fun t ht => hids t (by simp [ht]))]
    simp only [Pool.leaveAncestors, he]
    rw [mem_childrenOf_updateAncestorsOf_false _ he, hmem, List.mem_cons]
    constructor
    · rintro ⟨⟨hx, hnot⟩, hnot'⟩
      refine ⟨hx, ?_⟩
      rintro ⟨rfl | hxl, hL⟩
      · exact hnot ⟨rfl, hL⟩
      · exact hnot' ⟨hxl, hL⟩
    · rintro ⟨hx, hnot⟩
      refine ⟨⟨hx, ?_⟩, fun h => hnot ⟨.inr h.1, h.2⟩⟩
      rintro ⟨rfl, hL⟩
      exact hnot ⟨.inl rfl, hL⟩

theorem retouched_updateForRemoveFromMempool (S : OrderedSet Txid) (upd : Bool)
    (p : Pool Tx Txid) : Retouched p (p.updateForRemoveFromMempool S upd) := by
  have hrest : ∀ q : Pool Tx Txid, Retouched q
      (S.elems.foldl (fun p s => p.updateChildrenForRemoval s)
        (S.elems.foldl (fun p s => p.leaveAncestors s) q)) := fun q =>
    (Retouched.foldl (fun p s => (retouched_leaveAncestors s p).1) _ q).trans
      (Retouched.foldl (fun p s => (retouched_updateChildrenForRemoval s p).1) _ _)
  cases upd with
  | false => exact hrest p
  | true => exact (retouched_foldl_leaveDescendants S.elems p).1.trans (hrest _)

/-- The book without the transactions of `S`. -/
def strikeOut (S : OrderedSet Txid) (b : Book Txid) : Book Txid :=
  ⟨b.parents \ S.toFinset, b.children \ S.toFinset, b.descendants \ S.toFinset,
    b.ancestors \ S.toFinset⟩

variable {S : OrderedSet Txid} {upd : Bool}

/-- The second and the third loop, when the ancestor totals are over the sets `A`. -/
theorem KeepsOn.leaveLinks {A : Txid → Finset Txid} (hkey : p.Keyed)
    (hC : p.ChildLinks L) (hP : p.ParentLinks L) (hin : p.Inside L)
    (hirr : ∀ a, ¬ TransGen L a a) (hf : p.failed = false) (hS : ∀ s ∈ S, s ∈ p.ids)
    (h : p.KeepsOn p.ids p.weight fun id => ⟨(bookOf p.ids L id).parents,
      (bookOf p.ids L id).children, (bookOf p.ids L id).descendants, A id⟩) :
    (S.elems.foldl (fun p s => p.updateChildrenForRemoval s)
      (S.elems.foldl (fun p s => p.leaveAncestors s) p)).KeepsOn (p.ids \ S.toFinset) p.weight
      (fun id => ⟨(bookOf p.ids L id).parents \ S.toFinset,
        (bookOf p.ids L id).children \ S.toFinset,
        (bookOf p.ids L id).descendants \ S.toFinset, A id⟩) ∧
    (S.elems.foldl (fun p s => p.updateChildrenForRemoval s)
      (S.elems.foldl (fun p s => p.leaveAncestors s) p)).Alive := by
  have hanc := h.foldl_leaveAncestors hkey hP hin hirr S.elems S.nodup hS
    (fun id hid => mem_bookOf_descendants.2 ⟨hid, .refl⟩)
    fun s hs id hid => by simp [hS s hs]
  have hr : Retouched p (S.elems.foldl (fun p s => p.leaveAncestors s) p) :=
    .foldl (fun p s => (retouched_leaveAncestors s p).1) _ p
  have hstay : ∀ id ∈ p.ids \ S.toFinset, id ∉ S.elems := fun id hid hmem =>
    (mem_sdiff.1 hid).2 hmem
  have hkeep := hanc.mono (sdiff_subset (t := S.toFinset))
  have hchildren : ∀ {x id}, x ∈ (S.elems.foldl (fun p s => p.leaveAncestors s) p).childrenOf id ↔
      x ∈ p.childrenOf id ∧ ¬ (x ∈ S.elems ∧ L id x) :=
    mem_childrenOf_foldl_leaveAncestors hP S.elems hS
  constructor
  · refine (hkeep.foldl_updateChildrenForRemoval S.elems S.nodup fun s hs id hid => ?_).congr
      fun id hid => ?_
    · -- children that stay are still linked from the entries that go
      rw [hchildren, hC s id]
      simp [hstay id hid, hS s hs]
    · simp [erase_eq_of_notMem fun hmem => (mem_sdiff.1 hid).2 hmem]
  · rw [← hr.ids_eq] at hanc
    exact foldlRecOn (motive := Alive) _ _ (hanc.alive (by rw [hr.rest]; exact hf))
      fun q hq s _ => hq.modifyEach (q.childrenOf s) fun _ => rfl

/-- The entries that stay lose the others from their books, and no assertion fails. -/
theorem Accounts.keepsOn_updateForRemove (h : p.Accounts L) (hS : ∀ s ∈ S, s ∈ p.ids)
    (hupd : upd = false → ∀ x y, L x y → x ∈ S → y ∈ S) :
    (p.updateForRemoveFromMempool S upd).KeepsOn (p.ids \ S.toFinset) p.weight
      (fun id => strikeOut S (bookOf p.ids L id)) ∧
    (p.updateForRemoveFromMempool S upd).Alive := by
  cases upd with
  | false =>
    obtain ⟨hk, halive⟩ := KeepsOn.leaveLinks h.keyed h.childLinks h.parentLinks h.inside h.acyclic
      h.running hS h.keeps
    refine ⟨hk.congr fun id hid => ?_, halive⟩
    -- none of those that go is an ancestor of one that stays
    have hnone : Disjoint (bookOf p.ids L id).ancestors S.toFinset := by
      rw [Finset.disjoint_left]
      intro a ha haS
      exact (mem_sdiff.1 hid).2 ((mem_bookOf_ancestors.1 ha).2.stays_in (hupd rfl) haS)
    rw [strikeOut, sdiff_eq_self_of_disjoint hnone]
    rfl
  | true =>
    obtain ⟨hr, hchildren, hparents⟩ := retouched_foldl_leaveDescendants S.elems p
    have hdesc := h.keeps.foldl_leaveDescendants h.childLinks h.inside S.elems S.nodup hS
      (fun id hid => mem_bookOf_ancestors.2 ⟨hid, .refl⟩) fun s hs id hid => by simp [hS s hs]
    rw [← hr.ids_eq, ← hr.weight_eq] at hdesc
    obtain ⟨hk, halive⟩ := KeepsOn.leaveLinks (hr.keyed h.keyed)
      (by rw [ChildLinks, hchildren]; exact h.childLinks)
      (by rw [ParentLinks, hparents]; exact h.parentLinks)
      (by rw [Inside, hr.ids_eq]; exact h.inside) h.acyclic (by rw [hr.rest]; exact h.running)
      (by rw [hr.ids_eq]; exact hS) hdesc
    rw [hr.ids_eq, hr.weight_eq] at hk
    refine ⟨hk.congr fun id hid => ?_, halive⟩
    rw [strikeOut, OrderedSet.toFinset_elems, erase_eq_of_notMem (mem_sdiff.1 hid).2]

/-- The books of the pool without `S`, when no path between the entries that stay leads through
`S`. -/
theorem bookOf_off {ids : Finset Txid}
    (hS : (∀ x y, L x y → x ∈ S → y ∈ S) ∨ ∀ x y, L x y → y ∈ S → x ∈ S)
    (hid : id ∈ ids \ S.toFinset) :
    bookOf (ids \ S.toFinset) (off (· ∈ S) L) id = strikeOut S (bookOf ids L id) := by
  have hidS : id ∉ S := fun hmem => (mem_sdiff.1 hid).2 hmem
  refine Book.ext (ext fun a => ?_) (ext fun a => ?_) (ext fun a => ?_) (ext fun a => ?_)
  · simp [strikeOut, off]
    tauto
  · simp [strikeOut, off]
    tauto
  · by_cases ha : a ∈ S
    · simp [strikeOut, ha]
    · simp [strikeOut, ha, reflTransGen_off hS hidS ha]
  · by_cases ha : a ∈ S
    · simp [strikeOut, ha]
    · simp [strikeOut, ha, reflTransGen_off hS ha hidS]

theorem find_dropRandomized (i : ℕ) {e' : Entry Tx Txid}
    (he : (p.dropRandomized i).find x = some e') :
    ∃ e j, p.find x = some e ∧ e' = { e with idxRandomized := j } := by
  have hsame : p.find x = some e' → ∃ e j, p.find x = some e ∧ e' = { e with idxRandomized := j } :=
    fun h => ⟨e', e'.idxRandomized, h, rfl⟩
  unfold dropRandomized at he
  split_ifs at he
  · cases hback : p.txnsRandomized.getLast? with
    | none =>
      rw [hback] at he
      exact hsame he
    | some back =>
      rw [hback] at he
      change (p.modify (getHash back) _).find x = some e' at he
      rw [find_modify] at he
      split_ifs at he with hx
      · obtain ⟨e, hfind, rfl⟩ := Option.map_eq_some_iff.1 he
        exact ⟨e, i, hx ▸ hfind, rfl⟩
      · exact hsame he
  · exact hsame he

theorem ids_dropRandomized (i : ℕ) (p : Pool Tx Txid) : (p.dropRandomized i).ids = p.ids := by
  unfold dropRandomized
  split_ifs
  · cases p.txnsRandomized.getLast? with
    | none => rfl
    | some back =>
      ext x
      rw [mem_ids, mem_ids]
      change (∃ e, (p.modify (getHash back) _).find x = some e) ↔ _
      rw [find_modify]
      split_ifs with hx
      · simp [hx]
      · rfl
  · rfl

theorem find_removeUnchecked (s : Txid) (p : Pool Tx Txid) :
    (∀ x e, (p.removeUnchecked s).find x = some e → x ≠ s ∧
      ∃ e0 j, p.find x = some e0 ∧ e = { e0 with idxRandomized := j }) ∧
    (p.removeUnchecked s).ids = p.ids.erase s := by
  unfold removeUnchecked
  cases hs : p.find s with
  | none =>
    refine ⟨fun x e he => ⟨?_, e, e.idxRandomized, he, rfl⟩, ?_⟩
    · rintro rfl
      rw [hs] at he
      cases he
    · exact (erase_eq_of_notMem (find_eq_none.1 hs)).symm
  | some e1 =>
    have hfind : ∀ (q : Pool Tx Txid) x, (q.mapTx.erase s).lookup x =
        if x = s then none else q.find x := fun q x => Map.lookup_erase_eq_ite q.mapTx s x
    refine ⟨fun x e he => ?_, ?_⟩
    · change ((p.dropRandomized e1.idxRandomized).mapTx.erase s).lookup x = some e at he
      rw [hfind] at he
      split_ifs at he with hx
      exact ⟨hx, find_dropRandomized _ he⟩
    · ext x
      rw [mem_erase, ← ids_dropRandomized e1.idxRandomized p, mem_ids, mem_ids]
      change (∃ e, ((p.dropRandomized e1.idxRandomized).mapTx.erase s).lookup x = some e) ↔ _
      rw [hfind]
      split_ifs with hx
      · simp [hx]
      · simp [hx]

theorem Alive.removeUnchecked (h : p.Alive) (s : Txid) : (p.removeUnchecked s).Alive := by
  refine ⟨?_, fun x e he => ?_⟩
  · unfold Pool.removeUnchecked dropRandomized
    cases hs : p.find s with
    | none => exact h.1
    | some e =>
      dsimp only
      rw [h.2 s e hs, Bool.or_false]
      split_ifs
      · split <;> exact h.1
      · exact h.1
  · obtain ⟨-, e₀, j, he₀, rfl⟩ := (find_removeUnchecked s p).1 x e he
    exact h.2 x e₀ he₀

theorem find_foldl_removeUnchecked (p : Pool Tx Txid) :
    (∀ x e, (l.foldl (fun p s => p.removeUnchecked s) p).find x = some e → x ∉ l ∧
      ∃ e0 j, p.find x = some e0 ∧ e = { e0 with idxRandomized := j }) ∧
    (l.foldl (fun p s => p.removeUnchecked s) p).ids = p.ids \ l.toFinset := by
  induction l generalizing p with
  | nil => exact ⟨fun x e he => ⟨by simp, e, e.idxRandomized, he, rfl⟩, by simp⟩
  | cons s l ih =>
    obtain ⟨hfind, hids⟩ := ih (p.removeUnchecked s)
    rw [foldl_cons]
    refine ⟨fun x e he => ?_, ?_⟩
    · obtain ⟨hx, e1, j, he1, rfl⟩ := hfind x e he
      obtain ⟨hxs, e0, -, he0, rfl⟩ := (find_removeUnchecked s p).1 x e1 he1
      exact ⟨by simp [hx, hxs], e0, j, he0, rfl⟩
    · rw [hids, (find_removeUnchecked s p).2, sdiff_cons]

theorem ids_removeStaged (S : OrderedSet Txid) (upd : Bool) (p : Pool Tx Txid) :
    (p.removeStaged S upd).ids = p.ids \ S.toFinset := by
  rw [removeStaged, (find_foldl_removeUnchecked S.elems _).2,
    (retouched_updateForRemoveFromMempool S upd p).ids_eq, OrderedSet.toFinset_elems]

theorem find_removeStaged (he : (p.removeStaged S upd).find x = some e) :
    x ∉ S ∧ ∃ e0, p.find x = some e0 ∧ e.toTxInfo = e0.toTxInfo ∧
      e.modifiedFee = e0.modifiedFee := by
  obtain ⟨hx, e1, -, he1, rfl⟩ := (find_foldl_removeUnchecked S.elems _).1 x e he
  obtain ⟨e0, he0, hcore⟩ := (retouched_updateForRemoveFromMempool S upd p).find_some he1
  exact ⟨hx, e0, he0, congrArg (·.1) hcore, congrArg (·.2.1) hcore⟩

theorem weight_removeStaged (upd : Bool) {a : Txid}
    (ha : a ∈ p.ids \ S.toFinset) : (p.removeStaged S upd).weight a = p.weight a := by
  rw [← ids_removeStaged S upd] at ha
  obtain ⟨e', he'⟩ := mem_ids.1 ha
  obtain ⟨-, e0, he0, hinfo, hfee⟩ := find_removeStaged he'
  rw [weight_of_find he', weight_of_find he0, Entry.weight, Entry.weight, hinfo, hfee]

/-- **Removing keeps the accounts exact.**  Either the set has all descendants of its entries, or it
has all their ancestors and the ancestor totals of what stays are updated too. -/
theorem Accounts.removeStaged (h : p.Accounts L) (hS : ∀ s ∈ S, s ∈ p.ids)
    (hclosed : (∀ x y, L x y → x ∈ S → y ∈ S) ∨ upd = true ∧ ∀ x y, L x y → y ∈ S → x ∈ S) :
    (p.removeStaged S upd).Accounts (off (· ∈ S) L) := by
  have hids := ids_removeStaged S upd p
  have hpath : (∀ x y, L x y → x ∈ S → y ∈ S) ∨ ∀ x y, L x y → y ∈ S → x ∈ S :=
    hclosed.imp_right And.right
  have hupd : upd = false → ∀ x y, L x y → x ∈ S → y ∈ S := by
    rintro rfl
    exact hclosed.resolve_right fun hc => Bool.false_ne_true hc.1
  obtain ⟨hk, halive⟩ := h.keepsOn_updateForRemove hS hupd
  refine ⟨fun x e he => ?_, fun a b hab => ?_, fun a ha => ?_, fun x hx e he => ?_,
    (foldlRecOn (motive := Alive) S.elems _ halive fun q hq s _ => hq.removeUnchecked s).1⟩
  · obtain ⟨-, e0, he0, hinfo, -⟩ := find_removeStaged he
    rw [hinfo, h.keyed x e0 he0]
  · obtain ⟨ha, hb⟩ := h.inside a b hab.1
    rw [hids, mem_sdiff, mem_sdiff]
    exact ⟨⟨ha, hab.2.1⟩, hb, hab.2.2⟩
  · exact h.acyclic a (TransGen.mono (fun _ _ => And.left) a a ha)
  · rw [hids] at hx ⊢
    obtain ⟨-, e1, j, he1, rfl⟩ := (find_foldl_removeUnchecked S.elems _).1 x e he
    have hk := hk.congr fun id hid => bookOf_off hpath hid
    -- weights are as before for all that stays
    exact ((hk x hx e1 he1).reindex j).congr_weight
      (fun d hd => weight_removeStaged upd (mem_bookOf_descendants.1 hd).1)
      fun a ha => weight_removeStaged upd (mem_bookOf_ancestors.1 ha).1

end KPCoin.Mempool.Pool
