import KPCoin.AddrMan.Operations

/-!
# The consistency check

`checkAddrman` is `CheckAddrman`, with all its error codes.  `Inv.checkAddrman` : it finds nothing
wrong with a state that has the invariant.
-/

namespace KPCoin.AddrMan

open Program List Option AList Prod

variable {Service NetAddr Network : Type} [DecidableEq Service] [DecidableEq Network]
  (P : Params Service NetAddr Network) (s : State Service NetAddr Network)

/-- The entries of `mapInfo`. -/
abbrev Entry (Service NetAddr : Type) := Sigma fun _ : ℤ => AddrInfo Service NetAddr

/-- The slots of the tried table, in the order of the loops.  Irreducible, as the list is long. -/
@[irreducible] def triedSlots : List TriedSlot :=
  (List.finRange triedBucketCount).product (List.finRange bucketSize)

/-- The slots of the new table, in the order of the loops.  Irreducible, as the list is long. -/
@[irreducible] def newSlots : List NewSlot :=
  (List.finRange newBucketCount).product (List.finRange bucketSize)

/-- What the check collects: `setTried`, `mapNew` and `local_counts`. -/
structure Tally (Network : Type) where
  setTried : Finset ℤ := ∅
  mapNew : Map ℤ ℤ := ∅
  localCounts : Map Network (ℤ × ℤ) := ∅

namespace Tally

variable (t : Tally Network)

/-- Add to the counters of a network. -/
def count (net : Network) (x : ℤ × ℤ) : Map Network (ℤ × ℤ) :=
  t.localCounts.insert net ((t.localCounts.lookup net).getD 0 + x)

/-- Add an entry of the tried table. -/
def addTried (n : ℤ) (net : Network) : Tally Network :=
  { t with setTried := insert n t.setTried, localCounts := t.count net (0, 1) }

/-- Add an entry of the new table. -/
def addNew (n : ℤ) (net : Network) (nRefCount : ℤ) : Tally Network :=
  { t with mapNew := t.mapNew.insert n nRefCount, localCounts := t.count net (1, 0) }

end Tally

/-- The checks that depend on the table an entry is in. -/
def checkKind (t : Tally Network) (x : Entry Service NetAddr) : Except ℤ (Tally Network) :=
  if x.2.fInTried then do
    failIf (x.2.lastSuccess == 0) (-1)
    failIf (x.2.nRefCount != 0) (-2)
    pure (t.addTried x.1 (P.getNetwork x.2.addr))
  else do
    failIf (x.2.nRefCount < 0 || x.2.nRefCount > newBucketsPerAddress) (-3)
    failIf (x.2.nRefCount == 0) (-4)
    pure (t.addNew x.1 (P.getNetwork x.2.addr) x.2.nRefCount)

/-- The checks of an entry. -/
def checkEntry (t : Tally Network) (x : Entry Service NetAddr) : Except ℤ (Tally Network) := do
  let t ← checkKind P t x
  failIf (s.mapAddr.lookup x.2.addr != some x.1) (-5)
  failIf (x.2.nRandomPos < 0 || s.vRandom[x.2.nRandomPos.toNat]? != some x.1) (-14)
  failIf (x.2.lastTry < 0) (-6)
  failIf (x.2.lastSuccess < 0) (-8)
  pure t

/-- The checks of a slot of the tried table. -/
def checkTriedSlot (setTried : Finset ℤ) (slot : TriedSlot) : Except ℤ (Finset ℤ) :=
  let nId := s.vvTried slot
  if nId = -1 then pure setTried
  else do
    failIf (nId ∉ setTried) (-11)
    failIf ((s.mapInfo.lookup nId).all fun info => P.getTriedBucket info.addr != slot.1) (-17)
    failIf ((s.mapInfo.lookup nId).all fun info =>
      P.getBucketPosition info.addr false slot.1 != slot.2) (-18)
    pure (setTried.erase nId)

/-- The checks of a slot of the new table. -/
def checkNewSlot (mapNew : Map ℤ ℤ) (slot : NewSlot) : Except ℤ (Map ℤ ℤ) :=
  let nId := s.vvNew slot
  if nId = -1 then pure mapNew
  else do
    failIf (nId ∉ mapNew) (-12)
    failIf ((s.mapInfo.lookup nId).all fun info =>
      P.getBucketPosition info.addr true slot.1 != slot.2) (-19)
    let left := (mapNew.lookup nId).getD 0 - 1
    pure (if left = 0 then mapNew.erase nId else mapNew.insert nId left)

/-- `CheckAddrman`, stopping with an error code. -/
def checkTables : Except ℤ Unit := do
  failIf ((s.vRandom.length : ℤ) != s.nTried + s.nNew) (-7)
  let t ← s.mapInfo.entries.foldlM (checkEntry P s) {}
  failIf ((t.setTried.card : ℤ) != s.nTried) (-9)
  failIf ((t.mapNew.keys.length : ℤ) != s.nNew) (-10)
  let setTried ← triedSlots.foldlM (checkTriedSlot P s) t.setTried
  let mapNew ← newSlots.foldlM (checkNewSlot P s) t.mapNew
  failIf (setTried.card != 0) (-13)
  failIf (mapNew.keys.length != 0) (-15)
  failIf (P.nKey == 0) (-16)
  failIf (s.networkCounts.keys.length < t.localCounts.keys.length) (-20)
  failIf (s.networkCounts.entries.any fun x => (t.localCounts.lookup x.1).getD 0 != x.2) (-21)

/-- `CheckAddrman`: an error code, or 0. -/
def checkAddrman : ℤ :=
  match checkTables P s with
  | .ok _ => 0
  | .error code => code

theorem mem_triedSlots (slot : TriedSlot) : slot ∈ triedSlots := by
  unfold triedSlots
  exact mem_product.2 ⟨mem_finRange _, mem_finRange _⟩

theorem nodup_triedSlots : triedSlots.Nodup := by
  unfold triedSlots
  exact (nodup_finRange _).product (nodup_finRange _)

theorem mem_newSlots (slot : NewSlot) : slot ∈ newSlots := by
  unfold newSlots
  exact mem_product.2 ⟨mem_finRange _, mem_finRange _⟩

theorem nodup_newSlots : newSlots.Nodup := by
  unfold newSlots
  exact (nodup_finRange _).product (nodup_finRange _)

/-- The numbers of entries collected, as the counters of the state have them. -/
def Tally.counters (t : Tally Network) : Option Network → ℤ × ℤ
  | none => (t.mapNew.keys.length, t.setTried.card)
  | some net => (t.localCounts.lookup net).getD 0

/-- `t` is what is collected from the entries `done`. -/
structure Tally.Of (done : List (Entry Service NetAddr)) (t : Tally Network) : Prop where
  tried : ∀ n, n ∈ t.setTried ↔ ∃ info, ⟨n, info⟩ ∈ done ∧ info.fInTried = true
  new : ∀ n c, t.mapNew.lookup n = some c ↔
    ∃ info, ⟨n, info⟩ ∈ done ∧ info.fInTried = false ∧ info.nRefCount = c
  counters : t.counters = (done.map fun x => P.weight [] x.2).sum
  nets : ∀ net ∈ t.localCounts, ∃ x ∈ done, P.getNetwork x.2.addr = net

variable {P s}

variable {t : Tally Network} (net : Network)

section

omit [DecidableEq Service]

theorem Tally.lookup_count (m : Network) (c : ℤ × ℤ) :
    ((t.count net c).lookup m).getD 0 = (t.localCounts.lookup m).getD 0 + mark net c (some m) := by
  simp only [Tally.count, Map.lookup_insert_eq_ite, mark, reduceCtorEq, false_or, some.injEq]
  split_ifs with h
  · rw [h, getD_some]
  · simp

theorem Tally.counters_addTried {n : ℤ} (hn : n ∉ t.setTried) :
    (t.addTried n net).counters = t.counters + mark net (0, 1) := by
  funext o
  cases o with
  | none => simp [Tally.counters, Tally.addTried, mark, Finset.card_insert_of_notMem hn]
  | some m => exact t.lookup_count net m _

theorem Tally.counters_addNew {n : ℤ} (c : ℤ) (hn : n ∉ t.mapNew) :
    (t.addNew n net c).counters = t.counters + mark net (1, 0) := by
  have hkeys : t.mapNew.keys.erase n = t.mapNew.keys := erase_of_not_mem hn
  funext o
  cases o with
  | none => simp [Tally.counters, Tally.addNew, mark, hkeys]
  | some m => exact t.lookup_count net m _

end

namespace Tally.Of

variable {done : List (Entry Service NetAddr)} {x : Entry Service NetAddr}

omit [DecidableEq Service] [DecidableEq Network] in
theorem exists_snoc {n : ℤ} {p : AddrInfo Service NetAddr → Prop} :
    (∃ info, ⟨n, info⟩ ∈ done ++ [x] ∧ p info) ↔
    (∃ info, ⟨n, info⟩ ∈ done ∧ p info) ∨ n = x.1 ∧ p x.2 := by
  simp only [mem_append, mem_singleton, or_and_right, exists_or]
  refine or_congr_right ⟨?_, ?_⟩
  · rintro ⟨info, rfl, hp⟩
    exact ⟨rfl, hp⟩
  · rintro ⟨rfl, hp⟩
    exact ⟨x.2, rfl, hp⟩

theorem nets_count (h : Tally.Of P done t) (x : Entry Service NetAddr) (c : ℤ × ℤ) :
    ∀ net ∈ t.count (P.getNetwork x.2.addr) c, ∃ y ∈ done ++ [x], P.getNetwork y.2.addr = net := by
  intro net hnet
  rcases (AList.mem_insert _).1 hnet with rfl | hnet
  · exact ⟨x, by simp, rfl⟩
  · obtain ⟨y, hy, hny⟩ := h.nets net hnet
    exact ⟨y, by simp [hy], hny⟩

section

variable (h : Tally.Of P done t) (hfresh : ∀ info, (⟨x.1, info⟩ : Entry Service NetAddr) ∉ done)
include h hfresh

theorem addTried (htried : x.2.fInTried = true) :
    Tally.Of P (done ++ [x]) (t.addTried x.1 (P.getNetwork x.2.addr)) where
  tried n := by
    rw [exists_snoc, ← h.tried, Tally.addTried, Finset.mem_insert, or_comm]
    simp only [htried, and_true]
  new n c := by
    rw [exists_snoc, ← h.new]
    simp [Tally.addTried, htried]
  counters := by
    have hn : x.1 ∉ t.setTried := fun hn => by
      obtain ⟨info, hi, -⟩ := (h.tried x.1).1 hn
      exact hfresh info hi
    rw [Tally.counters_addTried _ hn, h.counters]
    simp [Params.weight, AddrInfo.kind, htried]
  nets := h.nets_count x _

theorem not_mem_mapNew : x.1 ∉ t.mapNew := by
  intro hn
  obtain ⟨c, hc⟩ := isSome_iff_exists.1 (lookup_isSome.2 hn)
  obtain ⟨info, hi, -⟩ := (h.new x.1 c).1 hc
  exact hfresh info hi

theorem addNew (htried : x.2.fInTried = false) :
    Tally.Of P (done ++ [x]) (t.addNew x.1 (P.getNetwork x.2.addr) x.2.nRefCount) where
  tried n := by
    rw [exists_snoc, ← h.tried]
    simp [Tally.addNew, htried]
  new n c := by
    rw [exists_snoc, ← h.new, Tally.addNew, Map.lookup_insert_eq_ite]
    split_ifs with hn
    · rw [hn, lookup_eq_none.2 (h.not_mem_mapNew hfresh)]
      simp [htried]
    · simp [hn]
  counters := by
    rw [Tally.counters_addNew _ _ (h.not_mem_mapNew hfresh), h.counters]
    simp [Params.weight, AddrInfo.kind, htried]
  nets := h.nets_count x _

end

end Tally.Of

theorem Inv.checkEntry (h : Inv P {} s) {done rest : List (Entry Service NetAddr)}
    {x : Entry Service NetAddr} (hsplit : s.mapInfo.entries = done ++ x :: rest)
    (ht : Tally.Of P done t) :
    ensures (checkEntry P s t x) (Tally.Of P (done ++ [x])) fun _ => False := by
  have hl : s.mapInfo.lookup x.1 = some x.2 := Map.lookup_eq_some_iff.2 (by rw [hsplit]; simp)
  have hfresh : ∀ info, (⟨x.1, info⟩ : Entry Service NetAddr) ∉ done := by
    intro info hi
    have hnodup := nodupKeys_iff_pairwise.1 s.mapInfo.nodupKeys
    rw [hsplit, pairwise_append] at hnodup
    exact hnodup.2.2 _ hi x mem_cons_self rfl
  have he := h.tables.entry hl
  obtain ⟨n, hn, hat⟩ := h.indexed.pos hl
  have hkind : ensures (checkKind P t x) (Tally.Of P (done ++ [x])) fun _ => False := by
    unfold checkKind
    split_ifs with htried
    · have hsuccess := (he.tried htried).2
      have hrefs := h.tables.refs_of_tried hl htried (h.indexed.ne_neg_one hl)
      have hne : x.2.lastSuccess ≠ 0 := by omega
      simpa [hne, hrefs, pure, Except.pure] using ht.addTried hfresh htried
    · have htried' : x.2.fInTried = false := by simpa using htried
      have hpos := he.new htried' not_mem_nil
      have hle := he.refs_le
      have h1 : ¬ x.2.nRefCount < 0 := by omega
      have h2 : ¬ newBucketsPerAddress < x.2.nRefCount := by omega
      have h3 : x.2.nRefCount ≠ 0 := by omega
      simpa [h1, h2, h3, pure, Except.pure] using ht.addNew hfresh htried'
  rw [AddrMan.checkEntry, ensures_bind]
  refine hkind.mono (fun t' ht' => ?_) fun _ => id
  have h1 := h.indexed.addr hl
  have h2 : ¬ x.2.lastTry < 0 := not_lt.2 he.lastTry
  have h3 : ¬ x.2.lastSuccess < 0 := not_lt.2 he.lastSuccess
  simpa [h1, hn, hat, h2, h3, pure, Except.pure] using ht'

/-- `setTried` has the entries of the tried table that are left after a part of the slots. -/
def TriedLeft (s : State Service NetAddr Network) (done : List TriedSlot)
    (setTried : Finset ℤ) : Prop :=
  ∀ n, n ∈ setTried ↔ (∃ info, s.mapInfo.lookup n = some info ∧ info.fInTried = true) ∧
    ∀ slot ∈ done, s.vvTried slot ≠ n

theorem Inv.checkTriedSlot (h : Inv P {} s) {done rest : List TriedSlot} {slot : TriedSlot}
    {setTried : Finset ℤ} (hsplit : triedSlots = done ++ slot :: rest)
    (hleft : TriedLeft s done setTried) :
    ensures (checkTriedSlot P s setTried slot) (TriedLeft s (done ++ [slot])) fun _ => False := by
  have hsnoc : ∀ n, (∀ slot' ∈ done ++ [slot], s.vvTried slot' ≠ n) ↔
      (∀ slot' ∈ done, s.vvTried slot' ≠ n) ∧ s.vvTried slot ≠ n := by
    intro n
    simp [or_imp, forall_and]
  unfold AddrMan.checkTriedSlot
  by_cases hempty : s.vvTried slot = -1
  · rw [if_pos hempty]
    intro n
    rw [hleft, hsnoc]
    refine and_congr_right fun he => (and_iff_left ?_).symm
    obtain ⟨info, hl, -⟩ := he
    rw [hempty]
    exact (h.indexed.ne_neg_one hl).symm
  · obtain ⟨info, hl, htried, hat⟩ := h.tables.triedSlot slot hempty
    have hmem : s.vvTried slot ∈ setTried := by
      refine (hleft _).2 ⟨⟨info, hl, htried⟩, fun slot' hslot' he => ?_⟩
      -- the entry has only one slot
      obtain ⟨info', hl', -, hat'⟩ := h.tables.triedSlot slot' (he ▸ hempty)
      rw [he, hl, some.injEq] at hl'
      have hsame : slot' = slot := by rw [← hat', ← hat, hl']
      have hnodup := nodup_triedSlots
      rw [hsplit] at hnodup
      exact (nodup_append.1 hnodup).2.2 slot' hslot' slot mem_cons_self hsame
    have hbucket : P.getTriedBucket info.addr = slot.1 := congrArg fst hat
    have hpos : P.getBucketPosition info.addr false slot.1 = slot.2 := by
      rw [← hbucket]
      exact congrArg snd hat
    rw [if_neg hempty]
    simp only [ensures_bind, ensures_failIf, hmem, hl, hbucket, hpos, not_true_eq_false,
      decide_false, all_some, bne_self_eq_false, Bool.false_eq_true, false_imp_iff, true_and,
      forall_const]
    intro n
    rw [Finset.mem_erase, hleft, hsnoc, and_comm, and_assoc, ne_comm]

/-- The references of an identifier that are left after a part of the slots. -/
def refsLeft (s : State Service NetAddr Network) (done : List NewSlot) (n : ℤ) : ℤ :=
  fiberCard s.vvNew n - done.countP fun slot => s.vvNew slot = n

/-- `mapNew` has the references that are left. -/
def Leaves (s : State Service NetAddr Network) (done : List NewSlot) (mapNew : Map ℤ ℤ) : Prop :=
  ∀ n, mapNew.lookup n = if n = -1 ∨ refsLeft s done n = 0 then none else some (refsLeft s done n)

theorem Inv.checkNewSlot (h : Inv P {} s) {done rest : List NewSlot} {slot : NewSlot}
    {mapNew : Map ℤ ℤ} (hsplit : newSlots = done ++ slot :: rest) (hleft : Leaves s done mapNew) :
    ensures (checkNewSlot P s mapNew slot) (Leaves s (done ++ [slot])) fun _ => False := by
  have hsnoc : ∀ n, refsLeft s (done ++ [slot]) n =
      refsLeft s done n - if s.vvNew slot = n then 1 else 0 := by
    intro n
    simp only [refsLeft, countP_append, countP_singleton, decide_eq_true_eq]
    split_ifs <;> omega
  unfold AddrMan.checkNewSlot
  by_cases hempty : s.vvNew slot = -1
  · rw [if_pos hempty]
    intro n
    rw [hleft, hsnoc, hempty]
    by_cases hn : n = -1
    · simp [hn]
    · simp [Ne.symm hn]
  · obtain ⟨info, hl, -, hat⟩ := h.tables.newSlot slot hempty
    -- this slot has not been counted yet
    have hpos : 0 < refsLeft s done (s.vvNew slot) := by
      have hall := countP_eq_fiberCard nodup_newSlots mem_newSlots s.vvNew (s.vvNew slot)
      rw [hsplit, countP_append, countP_cons] at hall
      simp only [decide_true, if_true] at hall
      unfold refsLeft
      omega
    have hlookup : mapNew.lookup (s.vvNew slot) = some (refsLeft s done (s.vvNew slot)) := by
      rw [hleft, if_neg (not_or.2 ⟨hempty, hpos.ne'⟩)]
    have hmem : s.vvNew slot ∈ mapNew := lookup_isSome.1 (by simp [hlookup])
    have hpos' : P.getBucketPosition info.addr true slot.1 = slot.2 := congrArg snd hat
    rw [if_neg hempty]
    simp only [ensures_bind, ensures_failIf, hmem, hl, hlookup, hpos', not_true_eq_false,
      decide_false, all_some, bne_self_eq_false, Bool.false_eq_true, false_imp_iff, true_and,
      forall_const,
      getD_some]
    intro n
    rw [hsnoc]
    by_cases hn : n = s.vvNew slot
    · subst hn
      rw [if_pos rfl]
      split_ifs with hzero h' h'
      · exact lookup_erase _ _
      · exact absurd (.inr hzero) h'
      · exact absurd h' (not_or.2 ⟨hempty, hzero⟩)
      · exact lookup_insert _
    · have hsame : AList.lookup n (if refsLeft s done (s.vvNew slot) - 1 = 0 then
          mapNew.erase (s.vvNew slot)
          else mapNew.insert (s.vvNew slot) (refsLeft s done (s.vvNew slot) - 1)) =
          mapNew.lookup n := by
        split_ifs
        · exact lookup_erase_ne hn
        · exact lookup_insert_ne hn
      rw [if_neg (Ne.symm hn), sub_zero, hsame, hleft]

theorem Inv.checkEntries (h : Inv P {} s) :
    ensures (s.mapInfo.entries.foldlM (AddrMan.checkEntry P s) {})
      (Tally.Of P s.mapInfo.entries) fun _ => False := by
  refine ensures_foldlM_done _ ?_ fun done x rest t hsplit ht => h.checkEntry hsplit ht
  refine ⟨fun n => by simp, fun n c => by simp, ?_, nofun⟩
  funext o
  cases o <;> rfl

section

variable (h : Inv P {} s) (ht : Tally.Of P s.mapInfo.entries t)
include h ht

theorem Inv.checkTriedSlots :
    ensures (triedSlots.foldlM (AddrMan.checkTriedSlot P s) t.setTried)
      (fun setTried => setTried = ∅) fun _ => False := by
  refine (ensures_foldlM_done (TriedLeft s) (fun n => ?_)
    fun done slot rest setTried hsplit hleft => h.checkTriedSlot hsplit hleft).mono ?_ fun _ => id
  · simp only [ht.tried, ← Map.lookup_eq_some_iff]
    simp
  · intro setTried hleft
    refine Finset.eq_empty_of_forall_notMem fun n hn => ?_
    obtain ⟨⟨info, hl, ht⟩, hnone⟩ := (hleft n).1 hn
    exact hnone _ (mem_triedSlots _) ((h.tables.entry hl).tried ht).1

theorem Inv.leaves_nil : Leaves s [] t.mapNew := by
  intro n
  have hall : refsLeft s [] n = fiberCard s.vvNew n := by
    rw [refsLeft, countP_nil, Nat.cast_zero, sub_zero]
  rw [hall]
  cases hc : t.mapNew.lookup n with
  | some c =>
    obtain ⟨info, hi, htried, rfl⟩ := (ht.new n c).1 hc
    have hl := Map.lookup_eq_some_iff.2 hi
    have he := h.tables.entry hl
    have hpos := he.new htried not_mem_nil
    rw [he.refs] at hpos ⊢
    rw [if_neg (not_or.2 ⟨h.indexed.ne_neg_one hl, hpos.ne'⟩)]
  | none =>
    rw [eq_comm, ite_eq_left_iff]
    intro hn
    obtain ⟨hne, hzero⟩ := not_or.1 hn
    -- a slot that holds the identifier shows that it was collected
    obtain ⟨slot, rfl⟩ := fiberCard_pos.1 (pos_of_ne_zero fun h0 => hzero (by rw [h0]; rfl))
    obtain ⟨info, hl, htried, -⟩ := h.tables.newSlot slot hne
    have := (ht.new (s.vvNew slot) info.nRefCount).2
      ⟨info, Map.lookup_eq_some_iff.1 hl, htried, rfl⟩
    rw [hc] at this
    cases this

theorem Inv.checkNewSlots :
    ensures (newSlots.foldlM (AddrMan.checkNewSlot P s) t.mapNew)
      (fun mapNew => mapNew.keys = []) fun _ => False := by
  refine (ensures_foldlM_done (Leaves s) (h.leaves_nil ht)
    fun done slot rest mapNew hsplit hleft => h.checkNewSlot hsplit hleft).mono ?_ fun _ => id
  intro mapNew hleft
  refine eq_nil_iff_forall_not_mem.2 fun n hn => ?_
  have hsome := lookup_isSome.2 (AList.mem_keys.2 hn)
  have hzero : refsLeft s newSlots n = 0 := by
    rw [refsLeft, countP_eq_fiberCard nodup_newSlots mem_newSlots, sub_self]
  rw [hleft, if_pos (.inr hzero)] at hsome
  cases hsome

theorem Inv.localCounts_le : t.localCounts.keys.length ≤ s.networkCounts.keys.length := by
  refine (List.Nodup.subperm (keys_nodup _) fun net hnet => ?_).length_le
  obtain ⟨x, hx, rfl⟩ := ht.nets net hnet
  exact h.counted.nets (Map.lookup_eq_some_iff.2 hx)

end

/-- The random order has all the entries, as the counters have them. -/
theorem Inv.size_eq (h : Inv P {} s) : (s.vRandom.length : ℤ) = s.nTried + s.nNew := by
  have hsum : ∀ l : List (Entry Service NetAddr),
      ((l.map fun x => P.weight [] x.2).sum none).2 +
      ((l.map fun x => P.weight [] x.2).sum none).1 = (l.map fun _ => 1).sum := by
    intro l
    induction l with
    | nil => rfl
    | cons x l ih =>
      have hone : (P.weight [] x.2 none).2 + (P.weight [] x.2 none).1 = 1 := by
        cases ht : x.2.fInTried <;> simp [Params.weight, mark, AddrInfo.kind, ht]
      simp only [map_cons, sum_cons, Pi.add_apply, fst_add, snd_add, ← ih]
      omega
  have htotal : (s.nNew, s.nTried) = Map.total (P.weight []) s.mapInfo none :=
    congrFun h.counted.total none
  rw [h.indexed.size, Map.total, ← hsum s.mapInfo.entries]
  exact congrArg₂ (· + ·) (congrArg snd htotal).symm (congrArg fst htotal).symm

/-- **The check finds nothing wrong** with a state that has the invariant. -/
theorem Inv.checkAddrman (h : Inv P {} s) (hkey : P.nKey ≠ 0) : checkAddrman P s = 0 := by
  obtain ⟨t, hrun, ht⟩ := h.checkEntries.exists_ok
  obtain ⟨setTried, hrunTried, rfl⟩ := (h.checkTriedSlots ht).exists_ok
  obtain ⟨mapNew, hrunNew, hkeys⟩ := (h.checkNewSlots ht).exists_ok
  have hcounters : t.counters = s.counters := ht.counters.trans h.counted.total.symm
  have hnone := congrFun hcounters none
  have hnet : ∀ net, (t.localCounts.lookup net).getD 0 = (s.networkCounts.lookup net).getD 0 :=
    fun net => congrFun hcounters (some net)
  have hany : (s.networkCounts.entries.any fun x => (t.localCounts.lookup x.1).getD 0 != x.2) =
      false := by
    simp only [List.any_eq_false, bne_iff_ne, ne_eq, not_not]
    intro x hx
    rw [hnet, Map.lookup_eq_some_iff.2 hx, getD_some]
  have hnew : t.mapNew.keys.length = s.nNew := congrArg fst hnone
  have htried : t.setTried.card = s.nTried := congrArg snd hnone
  have hle := h.localCounts_le ht
  have hok : ensures (checkTables P s) (fun _ => True) fun _ => False := by
    simp only [checkTables, ensures_bind, ensures_failIf, hrun, hrunTried, hrunNew,
      ensures_ok, h.size_eq, hnew, htried, hkeys, hany, bne_self_eq_false, Finset.card_empty,
      length_nil, beq_iff_eq, hkey,
      decide_eq_true_eq, not_lt.2 hle]
    simp
  obtain ⟨_, hok, -⟩ := hok.exists_ok
  rw [AddrMan.checkAddrman, hok]

end KPCoin.AddrMan
