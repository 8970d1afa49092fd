import KPCoin.Data.CachedWalk
import KPCoin.Data.Relation
import KPCoin.Mempool.Books

/-!
# The walks over the links

`CalculateDescendants` and `CalculateMemPoolAncestors` follow the links of the entries.  When the
links are those of a relation `L` between the transactions in the pool, they find what can be
reached by `L` (`mem_calculateDescendants`, `mem_calculateMemPoolAncestors`,
`mem_assumeCalculateMemPoolAncestors`).  The limits decide only whether there is an answer.
-/

open Relation

namespace KPCoin.Mempool.Pool

open PoolTx OrderedSet

variable {Tx Txid : Type*} [LinearOrder Txid] {p p' : Pool Tx Txid} {L : Txid → Txid → Prop}
  {id x : Txid} {f : Entry Tx Txid → Entry Tx Txid} {B : Txid → Book Txid} {w : Txid → Package}
  {α σ ε : Type*} (ids : OrderedSet Txid)

/-- `L` relates transactions in the pool. -/
def Inside (L : Txid → Txid → Prop) (p : Pool Tx Txid) : Prop :=
  ∀ a b, L a b → a ∈ p.ids ∧ b ∈ p.ids

/-- The links to the children are those of `L`. -/
def ChildLinks (L : Txid → Txid → Prop) (p : Pool Tx Txid) : Prop :=
  ∀ id x, x ∈ p.childrenOf id ↔ L id x

/-- The links to the parents are those of `L`. -/
def ParentLinks (L : Txid → Txid → Prop) (p : Pool Tx Txid) : Prop :=
  ∀ id x, x ∈ p.parentsOf id ↔ L x id

theorem KeepsOn.childLinks (h : p.KeepsOn p.ids w B)
    (hin : p.Inside L) (hB : ∀ id ∈ p.ids, ∀ x, x ∈ (B id).children ↔ L id x) : p.ChildLinks L := by
  intro id x
  cases he : p.find id with
  | none =>
    have hid : id ∉ p.ids := find_eq_none.1 he
    simp only [childrenOf, he, Option.elim_none, not_mem_empty, false_iff]
    exact fun hL => hid (hin id x hL).1
  | some e =>
    have hk := (h id (mem_ids_of_find he) e he).children
    simp only [childrenOf, he, Option.elim_some]
    rw [← mem_toFinset, hk, hB id (mem_ids_of_find he)]

theorem KeepsOn.parentLinks (h : p.KeepsOn p.ids w B)
    (hin : p.Inside L) (hB : ∀ id ∈ p.ids, ∀ x, x ∈ (B id).parents ↔ L x id) : p.ParentLinks L := by
  intro id x
  cases he : p.find id with
  | none =>
    have hid : id ∉ p.ids := find_eq_none.1 he
    simp only [parentsOf, he, Option.elim_none, not_mem_empty, false_iff]
    exact fun hL => hid (hin x id hL).2
  | some e =>
    have hk := (h id (mem_ids_of_find he) e he).parents
    simp only [parentsOf, he, Option.elim_some]
    rw [← mem_toFinset, hk, hB id (mem_ids_of_find he)]

theorem childrenOf_modify (id : Txid) (hf : ∀ e, (f e).children = e.children) (p : Pool Tx Txid) :
    (p.modify id f).childrenOf = p.childrenOf := by
  funext x
  rw [childrenOf, childrenOf, find_modify]
  split_ifs with hx
  · rw [hx]
    cases p.find id with
    | none => rfl
    | some e => exact hf e
  · rfl

theorem parentsOf_modify (id : Txid) (hf : ∀ e, (f e).parents = e.parents) (p : Pool Tx Txid) :
    (p.modify id f).parentsOf = p.parentsOf := by
  funext x
  rw [parentsOf, parentsOf, find_modify]
  split_ifs with hx
  · rw [hx]
    cases p.find id with
    | none => rfl
    | some e => exact hf e
  · rfl

theorem childrenOf_modifyEach (hf : ∀ e, (f e).children = e.children)
    (p : Pool Tx Txid) : (p.modifyEach ids f).childrenOf = p.childrenOf :=
  List.foldlRecOn (motive := fun q => q.childrenOf = p.childrenOf) ids.elems _ rfl
    fun q hq id _ => (childrenOf_modify id hf q).trans hq

theorem parentsOf_modifyEach (hf : ∀ e, (f e).parents = e.parents)
    (p : Pool Tx Txid) : (p.modifyEach ids f).parentsOf = p.parentsOf :=
  List.foldlRecOn (motive := fun q => q.parentsOf = p.parentsOf) ids.elems _ rfl
    fun q hq id _ => (parentsOf_modify id hf q).trans hq

theorem mem_calculateDescendants {done : OrderedSet Txid} (hL : p.ChildLinks L) (hin : p.Inside L)
    (hid : id ∈ p.ids) (hdone : ∀ a ∈ done, ∀ b, L a b → b ∈ done) :
    x ∈ p.calculateDescendants id done ↔ x ∈ done ∨ ReflTransGen L id x := by
  have hnext : (fun a b => b ∈ p.childrenOf a) = L := funext₂ fun a b => propext (hL a b)
  have hU : ∀ a ∈ p.ids, ∀ b ∈ p.childrenOf a, b ∈ p.ids := fun a _ b hb =>
    (hin a b ((hL a b).1 hb)).2
  have hcard : (p.ids \ done.toFinset).card ≤ p.mapTx.entries.length :=
    p.card_ids ▸ Finset.card_le_card Finset.sdiff_subset
  have hleads : ∀ a ∈ done, ∀ b ∈ p.childrenOf a, b ∈ done := fun a ha b hb =>
    hdone a ha b ((hL a b).1 hb)
  unfold calculateDescendants
  split_ifs with hmem
  · rw [mem_closure hU (by simp) hleads hcard]
    refine ⟨fun h => h.imp_right (by simp), ?_⟩
    rintro (h | h)
    · exact .inl h
    · exact .inl (h.stays_in (fun a b hab ha => hdone a ha b hab) hmem)
  · rw [mem_closure hU (by simpa using ⟨hid, hmem⟩) hleads hcard, hnext]
    simp

theorem mem_foldl_calculateDescendants (hL : p.ChildLinks L) (hin : p.Inside L) (l : List Txid)
    (hl : ∀ s ∈ l, s ∈ p.ids) (done : OrderedSet Txid) (hdone : ∀ a ∈ done, ∀ b, L a b → b ∈ done) :
    x ∈ l.foldl (fun s it => p.calculateDescendants it s) done ↔
      x ∈ done ∨ ∃ s ∈ l, ReflTransGen L s x := by
  induction l generalizing done with
  | nil => simp
  | cons s l ih =>
    have hmem : ∀ {y}, y ∈ p.calculateDescendants s done ↔ y ∈ done ∨ ReflTransGen L s y :=
      mem_calculateDescendants hL hin (hl s (by simp)) hdone
    rw [List.foldl_cons, ih fun t ht => hl t (by simp [ht])]
    · simp [hmem, or_assoc]
    · intro a ha b hab
      rcases hmem.1 ha with ha | ha
      · exact hmem.2 (.inl (hdone a ha b hab))
      · exact hmem.2 (.inr (ha.tail hab))

theorem mem_withDescendants {S : OrderedSet Txid} (hL : p.ChildLinks L) (hin : p.Inside L)
    (hS : ∀ s ∈ S, s ∈ p.ids) : x ∈ p.withDescendants S ↔ ∃ s ∈ S, ReflTransGen L s x := by
  rw [withDescendants, mem_foldl_calculateDescendants hL hin S.elems hS ∅ (by simp)]
  simp

/-- A loop that can fail, if it does not, is the loop over what its steps return. -/
theorem foldlM_eq_ok {f : σ → α → Except ε σ} {g : σ → α → σ}
    (hf : ∀ s x s', f s x = .ok s' → s' = g s x) {l : List α} {s r : σ}
    (h : l.foldlM f s = .ok r) : r = l.foldl g s := by
  induction l generalizing s with
  | nil => exact (Except.ok.inj h).symm
  | cons x l ih =>
    rw [List.foldlM_cons] at h
    cases hs : f s x with
    | error err => rw [hs] at h; cases h
    | ok s' =>
      rw [hs] at h
      rw [List.foldl_cons, ← hf s x s' hs]
      exact ih h

variable {limits : Limits} {ancestors staged : OrderedSet Txid} {r : OrderedSet Txid}
  {l : List (Prevout Txid)}

/-- Passing the limits, the parents are staged as in any walk. -/
theorem stageParents_eq_ok {n : ℤ}
    {l : List Txid} (h : stageParents limits n ancestors l staged = .ok r) :
    r = stageNew ancestors l staged := by
  refine foldlM_eq_ok (fun s x s' hs => ?_) h
  by_cases hx : exceeds ((if x ∈ ancestors then s else s.insert x).size + ancestors.size + n)
      (asCount limits.ancestorCount)
  · simp only [hx, if_true] at hs
    cases hs
  · simp only [hx] at hs
    exact (Except.ok.inj hs).symm

theorem stageParents_noLimits (n : ℤ) (ancestors staged : OrderedSet Txid) (l : List Txid) :
    ∃ r, stageParents Limits.noLimits n ancestors l staged = .ok r := by
  induction l generalizing staged with
  | nil => exact ⟨staged, rfl⟩
  | cons x l ih =>
    exact ih _

/-- The checks of the walk for one ancestor: its descendants and the new transaction. -/
def descendantsOk (p : Pool Tx Txid) (entrySize entryCount : ℤ) (limits : Limits)
    (a : Txid) : Prop :=
  exceeds ((p.find a).elim 0 (·.sizeWithDescendants) + entrySize)
      limits.descendantSizeVbytes = false ∧
    exceeds ((p.find a).elim 0 (·.countWithDescendants) + entryCount)
      (asCount limits.descendantCount) = false

section Walk

variable {size count total : ℤ} {n : ℕ}

theorem calculateAncestorsAndCheckLimits_succ
    (h : p.calculateAncestorsAndCheckLimits size count limits
      (n + 1) total staged ancestors = .ok r) :
    (staged.begin? = none ∧ r = ancestors) ∨ ∃ s staged', staged.begin? = some s ∧
      p.descendantsOk size count limits s ∧
      exceeds (total + (p.weight s).size) limits.ancestorSizeVbytes = false ∧
      stageParents limits count (ancestors.insert s) (p.parentsOf s).elems (staged.erase s) =
        .ok staged' ∧
      p.calculateAncestorsAndCheckLimits size count limits n (total + (p.weight s).size) staged'
        (ancestors.insert s) = .ok r := by
  rw [calculateAncestorsAndCheckLimits] at h
  cases hb : staged.begin? with
  | none =>
    simp only [hb] at h
    exact .inl ⟨rfl, (Except.ok.inj h).symm⟩
  | some s =>
    simp only [hb, ← weight_size_eq] at h
    split_ifs at h with hsize hcount htotal
    cases hst : stageParents limits count (ancestors.insert s) (p.parentsOf s).elems
        (staged.erase s) with
    | error err => rw [hst] at h; cases h
    | ok staged' =>
      rw [hst] at h
      exact .inr ⟨s, staged', rfl, ⟨Bool.eq_false_iff.2 hsize, Bool.eq_false_iff.2 hcount⟩,
        Bool.eq_false_iff.2 htotal, hst, h⟩

theorem calculateAncestorsAndCheckLimits_keeps {I : ℤ → OrderedSet Txid → OrderedSet Txid → Prop}
    (hround : ∀ {total staged ancestors s staged'}, I total staged ancestors → s ∈ staged →
      p.descendantsOk size count limits s →
      exceeds (total + (p.weight s).size) limits.ancestorSizeVbytes = false →
      stageParents limits count (ancestors.insert s) (p.parentsOf s).elems (staged.erase s) =
        .ok staged' → I (total + (p.weight s).size) staged' (ancestors.insert s))
    (h : p.calculateAncestorsAndCheckLimits size count limits n total staged ancestors = .ok r)
    (h0 : I total staged ancestors) : ∃ total staged, I total staged r := by
  induction n generalizing total staged ancestors with
  | zero => exact ⟨total, staged, Except.ok.inj h ▸ h0⟩
  | succ n ih =>
    obtain ⟨-, rfl⟩ | ⟨s, staged', hb, hok, htotal, hst, h⟩ :=
      calculateAncestorsAndCheckLimits_succ h
    · exact ⟨total, staged, h0⟩
    · exact ih h (hround h0 (mem_of_begin? hb) hok htotal hst)

theorem calculateAncestorsAndCheckLimits_eq_ok
    (h : p.calculateAncestorsAndCheckLimits size count limits n total staged ancestors = .ok r) :
    r = closure p.parentsOf n staged ancestors := by
  induction n generalizing total staged ancestors with
  | zero => exact (Except.ok.inj h).symm
  | succ n ih =>
    obtain ⟨hb, rfl⟩ | ⟨s, staged', hb, -, -, hst, h⟩ := calculateAncestorsAndCheckLimits_succ h
    · exact (closure_of_nothing _ hb _ _).symm
    · simp only [OrderedSet.closure, hb]
      rw [← stageParents_eq_ok hst]
      exact ih h

end Walk

theorem calculateAncestorsAndCheckLimits_noLimits (size count : ℤ) (n : ℕ) (total : ℤ)
    (staged ancestors : OrderedSet Txid) :
    ∃ r, p.calculateAncestorsAndCheckLimits size count Limits.noLimits n total staged ancestors =
      .ok r := by
  induction n generalizing total staged ancestors with
  | zero => exact ⟨ancestors, rfl⟩
  | succ n ih =>
    rw [calculateAncestorsAndCheckLimits]
    cases staged.begin? with
    | none => exact ⟨ancestors, rfl⟩
    | some s =>
      obtain ⟨staged', hst⟩ := stageParents_noLimits count (ancestors.insert s)
        (staged.erase s) (p.parentsOf s).elems
      obtain ⟨r, hr⟩ := ih (total + (p.find s).elim 0 (·.size)) staged' (ancestors.insert s)
      refine ⟨r, ?_⟩
      rw [← hr]
      simp only [hst]
      rfl

theorem mem_closure_parentsOf (hL : p.ParentLinks L) (hin : p.Inside L)
    (hstaged : ∀ s ∈ staged, s ∈ p.ids) :
    x ∈ closure p.parentsOf p.mapTx.entries.length staged ∅ ↔
      ∃ s ∈ staged, ReflTransGen L x s := by
  have hnext : (fun a b => b ∈ p.parentsOf a) = Function.swap L :=
    funext₂ fun a b => propext (hL a b)
  have hU : ∀ a ∈ p.ids, ∀ b ∈ p.parentsOf a, b ∈ p.ids := fun a _ b hb =>
    (hin b a ((hL a b).1 hb)).1
  rw [mem_closure hU (by simpa using hstaged) (by simp)
    (p.card_ids ▸ Finset.card_le_card Finset.sdiff_subset), hnext]
  simp [reflTransGen_swap]

theorem mem_searchParents (h : p.searchParents limits l = .ok r) :
    x ∈ r ↔ x ∈ p.ids ∧ ∃ o ∈ l, o.hash = x := by
  have hr : r = l.foldl (fun s o => if (p.find o.hash).isSome then s.insert o.hash else s) ∅ := by
    refine foldlM_eq_ok (fun s o s' hs => ?_) h
    by_cases ho : (p.find o.hash).isSome
    · rw [if_pos ho] at hs ⊢
      split_ifs at hs
      exact (Except.ok.inj hs).symm
    · rw [if_neg ho] at hs ⊢
      exact (Except.ok.inj hs).symm
  have hmem : ∀ (l : List (Prevout Txid)) (s : OrderedSet Txid),
      x ∈ l.foldl (fun s o => if (p.find o.hash).isSome then s.insert o.hash else s) s ↔
        x ∈ s ∨ x ∈ p.ids ∧ ∃ o ∈ l, o.hash = x := by
    intro l
    induction l with
    | nil => simp
    | cons o l ih =>
      intro s
      have ho : (p.find o.hash).isSome = true ↔ o.hash ∈ p.ids := by
        rw [mem_ids, Option.isSome_iff_exists]
      rw [List.foldl_cons]
      split_ifs
      · grind [mem_insert]
      · grind
  rw [hr, hmem]
  simp

variable [PoolTx Tx Txid] {entry : TxInfo Tx}

/-- The ancestors of a transaction that is not yet in the pool. -/
theorem mem_calculateMemPoolAncestors (hL : p.ParentLinks L) (hin : p.Inside L)
    (h : p.calculateMemPoolAncestors entry limits true = .ok ancestors) :
    x ∈ ancestors ↔ ∃ s, (s ∈ p.ids ∧ ∃ o ∈ vin entry.tx, o.hash = s) ∧ ReflTransGen L x s := by
  cases hs : p.searchParents limits (vin entry.tx) with
  | error err =>
    simp only [calculateMemPoolAncestors, if_true, hs] at h
    cases h
  | ok staged =>
    simp only [calculateMemPoolAncestors, if_true, hs] at h
    rw [calculateAncestorsAndCheckLimits_eq_ok h, mem_closure_parentsOf hL hin fun s hst =>
      ((mem_searchParents hs).1 hst).1]
    simp [mem_searchParents hs]

/-- The ancestors of a transaction in the pool, by its links. -/
theorem mem_assumeCalculateMemPoolAncestors (hL : p.ParentLinks L) (hin : p.Inside L) :
    x ∈ p.assumeCalculateMemPoolAncestors entry Limits.noLimits false ↔
      TransGen L x (getHash entry.tx) := by
  obtain ⟨r, hr⟩ := p.calculateAncestorsAndCheckLimits_noLimits entry.size 1
    p.mapTx.entries.length entry.size (p.parentsOf (getHash entry.tx)) ∅
  have hcalc : p.calculateMemPoolAncestors entry Limits.noLimits false = .ok r := by
    exact hr
  have hr' : p.assumeCalculateMemPoolAncestors entry Limits.noLimits false = r := by
    rw [assumeCalculateMemPoolAncestors, hcalc]
    rfl
  rw [hr', calculateAncestorsAndCheckLimits_eq_ok hr, mem_closure_parentsOf hL hin fun s hs =>
    (hin s _ ((hL _ s).1 hs)).1, TransGen.tail'_iff]
  simp [hL _ _, and_comm]

section

omit [LinearOrder Txid] [PoolTx Tx Txid]

theorem foldlM_keeps {f : σ → α → Except ε σ} {I : σ → Prop}
    (hf : ∀ s x s', f s x = .ok s' → I s → I s') {l : List α} {s r : σ}
    (h : l.foldlM f s = .ok r) (hs : I s) : I r := by
  induction l generalizing s with
  | nil => exact Except.ok.inj h ▸ hs
  | cons x l ih =>
    rw [List.foldlM_cons] at h
    cases hx : f s x with
    | error err => rw [hx] at h; cases h
    | ok s' =>
      rw [hx] at h
      exact ih h (hf s x s' hx hs)

theorem exceeds_mono {a b : ℤ} {limit : Option ℤ} (hab : a ≤ b) (h : exceeds b limit = false) :
    exceeds a limit = false := by
  cases limit with
  | none => rfl
  | some limit =>
    simp only [exceeds, decide_eq_false_iff_not, not_lt] at h ⊢
    exact hab.trans h

end

section

omit [PoolTx Tx Txid]

theorem searchParents_within (h : p.searchParents limits l = .ok r) (hr : x ∈ r) :
    exceeds (r.size + 1) (asCount limits.ancestorCount) = false := by
  have hloop : (∃ y, y ∈ r) → exceeds (r.size + 1) (asCount limits.ancestorCount) = false := by
    refine foldlM_keeps (I := fun s => (∃ y, y ∈ s) →
      exceeds (s.size + 1) (asCount limits.ancestorCount) =
      false) (fun s o s' hs hI => ?_) h (by simp)
    split_ifs at hs with ho hover
    · cases hs
      exact fun _ => Bool.eq_false_iff.2 hover
    · cases hs
      exact hI
  exact hloop ⟨x, hr⟩

theorem stageParents_within {n : ℤ}
    {l : List Txid} (h : stageParents limits n ancestors l staged = .ok r)
    (hstaged : exceeds (staged.size + ancestors.size + n) (asCount limits.ancestorCount) = false) :
    exceeds (r.size + ancestors.size + n) (asCount limits.ancestorCount) = false := by
  refine foldlM_keeps (I := fun s => exceeds (s.size + ancestors.size + n)
    (asCount limits.ancestorCount) = false) (fun s y s' hs _ => ?_) h hstaged
  dsimp only at hs
  generalize (if y ∈ ancestors then s else s.insert y) = s'' at hs
  split_ifs at hs with hover
  cases hs
  exact Bool.eq_false_iff.2 hover

/-- The walk counts each ancestor once, and what it has counted is within the limits. -/
theorem calculateAncestorsAndCheckLimits_within {size count : ℤ} {n : ℕ} {base : ℤ}
    (h : p.calculateAncestorsAndCheckLimits size count limits n base staged ∅ = .ok r)
    (hcount : exceeds (staged.size + count) (asCount limits.ancestorCount) = false) :
    exceeds (r.size + count) (asCount limits.ancestorCount) = false ∧ ∀ a ∈ r,
      exceeds (base + ∑ a ∈ r.toFinset, (p.weight a).size) limits.ancestorSizeVbytes = false ∧
        p.descendantsOk size count limits a := by
  obtain ⟨total, staged', -, hcount', htotal, hr⟩ := calculateAncestorsAndCheckLimits_keeps
    (I := fun total staged ancestors => (∀ a ∈ staged, a ∉ ancestors) ∧
      exceeds (staged.size + ancestors.size + count) (asCount limits.ancestorCount) = false ∧
      total = base + ∑ a ∈ ancestors.toFinset, (p.weight a).size ∧ ∀ a ∈ ancestors,
        exceeds total limits.ancestorSizeVbytes = false ∧ p.descendantsOk size count limits a)
    (by
      rintro total staged ancestors s staged' ⟨hfresh, hcount, htotal, hanc⟩ hs hok hover hst
      have hmoved : (staged.erase s).size + (ancestors.insert s).size =
          staged.size + ancestors.size := by
        rw [size_insert (hfresh s hs), ← size_erase hs]
        omega
      refine ⟨fun a ha => ?_, stageParents_within hst (exceeds_mono (by omega) hcount), ?_,
        fun a ha => ⟨hover, ?_⟩⟩
      · rw [stageParents_eq_ok hst, mem_stageNew, mem_erase] at ha
        rw [mem_insert, not_or]
        rcases ha with ⟨hne, ha⟩ | ⟨-, ha⟩
        · exact ⟨hne, hfresh a ha⟩
        · rwa [mem_insert, not_or] at ha
      · rw [toFinset_insert, Finset.sum_insert (hfresh s hs)]
        omega
      · rcases mem_insert.1 ha with rfl | ha
        · exact hok
        · exact (hanc a ha).2) h ⟨by simp, hcount, by simp, by simp⟩
  exact ⟨exceeds_mono (by omega) hcount', htotal ▸ hr⟩

end

/-- A transaction that has ancestors in the pool is within the limits together with them. -/
theorem calculateMemPoolAncestors_within
    (h : p.calculateMemPoolAncestors entry limits true = .ok ancestors) (hx : x ∈ ancestors) :
    exceeds (ancestors.size + 1) (asCount limits.ancestorCount) = false ∧
      exceeds (entry.size + ∑ a ∈ ancestors.toFinset, (p.weight a).size)
        limits.ancestorSizeVbytes = false ∧ p.descendantsOk entry.size 1 limits x := by
  cases hs : p.searchParents limits (vin entry.tx) with
  | error err =>
    simp only [calculateMemPoolAncestors, if_true, hs] at h
    cases h
  | ok staged =>
    simp only [calculateMemPoolAncestors, if_true, hs] at h
    cases hb : staged.begin? with
    | none =>
      rw [calculateAncestorsAndCheckLimits_eq_ok h, closure_of_nothing _ hb] at hx
      exact absurd hx not_mem_empty
    | some s =>
      obtain ⟨hcount, hanc⟩ := calculateAncestorsAndCheckLimits_within h
        (searchParents_within hs (mem_of_begin? hb))
      exact ⟨hcount, hanc x hx⟩

end KPCoin.Mempool.Pool
