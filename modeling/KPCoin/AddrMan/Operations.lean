import KPCoin.AddrMan.Invariant

/-!
# The private functions keep the invariant

One rule for each function: from a state with the invariant it meets no failed assertion, and ends
in a state with the invariant.  A caller that goes on with an entry also needs to know which entries
the function has left alone; `State.entry` is what counts there, an entry without its place in the
random order.
-/

namespace KPCoin.AddrMan

open Program List State Function AList Option List.Subset

variable {Service NetAddr Network : Type}

/-- An entry, apart from its place in the random order. -/
def AddrInfo.core (info : AddrInfo Service NetAddr) : AddrInfo Service NetAddr :=
  { info with nRandomPos := 0 }

/-- The entry of an identifier, apart from its place in the random order. -/
def State.entry (s : State Service NetAddr Network) (nId : ℤ) : Option (AddrInfo Service NetAddr) :=
  (s.mapInfo.lookup nId).map AddrInfo.core

/-- An entry changes neither its address nor its place. -/
structure Mild (f : AddrInfo Service NetAddr → AddrInfo Service NetAddr) : Prop where
  addr : ∀ info, (f info).addr = info.addr
  tried : ∀ info, (f info).fInTried = info.fInTried
  refs : ∀ info, (f info).nRefCount = info.nRefCount
  pos : ∀ info, (f info).nRandomPos = info.nRandomPos

variable {P : Params Service NetAddr Network} {s s' : State Service NetAddr Network}
  {H K : Hand Service} {nId : ℤ} {info : AddrInfo Service NetAddr}
  {f : AddrInfo Service NetAddr → AddrInfo Service NetAddr} {slot : NewSlot} {E : Unit → Prop}

theorem State.entry_of_lookup (h : s.mapInfo.lookup nId = some info) :
    s.entry nId = some info.core := by
  rw [State.entry, h, map_some]

theorem State.lookup_of_entry (he : s'.entry nId = s.entry nId)
    (h : s.mapInfo.lookup nId = some info) :
    ∃ p, s'.mapInfo.lookup nId = some { info with nRandomPos := p } := by
  rw [entry_of_lookup h] at he
  obtain ⟨info', hl, hcore⟩ := map_eq_some_iff.1 he
  refine ⟨info'.nRandomPos, ?_⟩
  rw [hl]
  obtain ⟨⟨_, _, _⟩, _, _, _, _, _, _, _, _⟩ := info
  obtain ⟨⟨_, _, _⟩, _, _, _, _, _, _, _, _⟩ := info'
  simp only [AddrInfo.core, AddrInfo.mk.injEq, Address.mk.injEq] at hcore ⊢
  simp [hcore]

theorem State.entry_modInfo (nId : ℤ) (hf : ∀ info, (f info).core = info.core) {k : ℤ} :
    (s.modInfo nId f).entry k = s.entry k := by
  rw [State.entry, lookup_modInfo]
  split_ifs with hk
  · rw [hk, Option.map_map]
    exact congrArg (Option.map · _) (funext hf)
  · rfl

theorem Tables.release (h : Tables P H s) (hbare : ∀ {k i}, s.mapInfo.lookup k = some i →
    i.fInTried = false → i.addr ∈ H.bare → i.addr ∈ K.bare ∨ 0 < i.nRefCount)
    (hgap : H.gap ⊆ K.gap) : Tables P K s where
  entry := by
    intro k i hk
    obtain ⟨h1, h2, h3, h4, h5, h6⟩ := h.entry hk
    refine ⟨h1, h2, fun ht hnot => ?_, h4, h5, h6⟩
    by_cases hb : i.addr ∈ H.bare
    · exact (hbare hk ht hb).resolve_left hnot
    · exact h3 ht hb
  newSlot := h.newSlot
  triedSlot := h.triedSlot
  collisions := fun k hk => ⟨(h.collisions k hk).1, fun i hi hnot =>
    (h.collisions k hk).2 i hi fun hg => hnot (hgap hg)⟩

theorem Tables.mono (h : Tables P H s) (hbare : H.bare ⊆ K.bare) (hgap : H.gap ⊆ K.gap) :
    Tables P K s :=
  h.release (fun _ _ hb => .inl (hbare hb)) hgap

theorem Tables.refs_of_tried (h : Tables P H s) (hl : s.mapInfo.lookup nId = some info)
    (htried : info.fInTried = true) (hne : nId ≠ -1) : info.nRefCount = 0 := by
  have hnone : fiberCard s.vvNew nId = 0 := by
    refine fiberCard_eq_zero.2 fun slot he => ?_
    rw [(h.vvNew_spec hl hne he).1] at htried
    cases htried
  rw [(h.entry hl).refs, hnone]
  rfl

@[simp] theorem wp_assert {c : Bool} {Q : Unit → State Service NetAddr Network → Prop} :
    wp (assert c) Q E s ↔ (c = false → E ()) ∧ (c = true → Q () s) := by
  cases c <;> simp [assert]

theorem wp_getInfo {Q : AddrInfo Service NetAddr → State Service NetAddr Network → Prop}
    (h : s.mapInfo.lookup nId = some info) : wp (getInfo P nId) Q E s ↔ Q info s := by
  simp [getInfo, h]

theorem wp_overwrites (h : Tables P H s) {nRefCount now : ℤ} :
    wp (overwrites P (s.vvNew slot) nRefCount now) (fun _ s' => s' = s) (fun _ => False) s := by
  rw [overwrites, wp_ite]
  refine ⟨fun _ => rfl, fun hne => ?_⟩
  obtain ⟨i, hi, -⟩ := h.newSlot slot hne
  rw [wp_bind, wp_getInfo hi, wp_pure]

variable [DecidableEq Service]

theorem Indexed.find_eq (h : Indexed s) (addr : Service) : s.find addr = s.mapAddr.lookup addr := by
  rw [State.find]
  cases hl : s.mapAddr.lookup addr with
  | none => rfl
  | some nId =>
    obtain ⟨info, hi, -⟩ := h.info hl
    have hmem : nId ∈ s.mapInfo := lookup_isSome.1 (by simp [hi])
    simp [hmem]

theorem Indexed.of_find (h : Indexed s) {addr : Service} (hf : s.find addr = some nId) :
    ∃ info, s.mapInfo.lookup nId = some info ∧ info.addr = addr :=
  h.info (h.find_eq addr ▸ hf)

variable [DecidableEq Network] {addr : Address Service}

namespace Inv

variable (h : Inv P H s)
include h

theorem of_eq (hs : s' = { s with lastGood := s'.lastGood }) : Inv P H s' := by
  rw [hs]
  exact ⟨h.indexed.of_eq, h.counted.of_eq, h.tables.of_eq⟩

theorem modInfo (hf : Mild f)
    (htimes : ∀ info, s.mapInfo.lookup nId = some info → 0 ≤ (f info).lastTry ∧
      0 ≤ (f info).lastSuccess ∧ (info.fInTried = true → 0 < (f info).lastSuccess)) :
    Inv P H (s.modInfo nId f) where
  indexed := h.indexed.modInfo nId fun i => ⟨hf.addr i, hf.pos i⟩
  counted := h.counted.modInfo nId fun i => ⟨hf.addr i, hf.tried i⟩
  tables := h.tables.modInfo h.indexed.ne_neg_one (fun i => ⟨hf.addr i, hf.tried i⟩) hf.refs htimes

theorem modInfo_of_times (hf : Mild f)
    (htimes : ∀ info, (f info).lastTry = info.lastTry ∧ (f info).lastSuccess = info.lastSuccess) :
    Inv P H (s.modInfo nId f) := by
  refine h.modInfo hf fun info hl => ?_
  have he := h.tables.entry hl
  rw [(htimes info).1, (htimes info).2]
  exact ⟨he.lastTry, he.lastSuccess, fun ht => (he.tried ht).2⟩

theorem dropRef (hslot : s.vvNew slot = nId) (hl : s.mapInfo.lookup nId = some info)
    (hbare : info.addr ∈ H.bare ∨ 1 < info.nRefCount) : Inv P H (s.dropRef slot nId) where
  indexed := (h.indexed.modInfo nId
    (f := fun info => { info with nRefCount := info.nRefCount - 1 }) fun _ => ⟨rfl, rfl⟩).of_eq
  counted := (h.counted.modInfo nId
    (f := fun info => { info with nRefCount := info.nRefCount - 1 }) fun _ => ⟨rfl, rfl⟩).of_eq
  tables := h.tables.dropRef h.indexed hl hslot hbare

theorem addRef (hslot : s.vvNew slot = -1) (hl : s.mapInfo.lookup nId = some info)
    (htried : info.fInTried = false) (hroom : info.nRefCount < newBucketsPerAddress)
    (hpos : P.slotIn info.addr slot.1 = slot) (hbare : ∀ a ∈ H.bare, a = info.addr ∨ a ∈ K.bare)
    (hidle : H.idle = K.idle) (hgap : H.gap = K.gap) : Inv P K (s.addRef slot nId) where
  indexed := (h.indexed.modInfo nId
    (f := fun info => { info with nRefCount := info.nRefCount + 1 }) fun _ => ⟨rfl, rfl⟩).of_eq
  counted := (hidle ▸ h.counted.modInfo nId
    (f := fun info => { info with nRefCount := info.nRefCount + 1 }) fun _ => ⟨rfl, rfl⟩).of_eq
  tables := h.tables.addRef h.indexed hl hslot htried hroom hpos hbare hgap

theorem swapRandom {m n : ℕ} {id1 id2 : ℤ} (hne : m ≠ n) (h1 : s.vRandom[m]? = some id1)
    (h2 : s.vRandom[n]? = some id2) : Inv P H (s.swapRandom m n id1 id2) where
  indexed := h.indexed.swapRandom hne h1 h2
  counted := h.counted.swapRandom m n id1 id2
  tables := h.tables.swapRandom h.indexed.ne_neg_one m n id1 id2

theorem remove (hl : s.mapInfo.lookup nId = some info)
    (hlast : s.vRandom[s.vRandom.length - 1]? = some nId) (htried : info.fInTried = false)
    (hrefs : info.nRefCount = 0) (hidle : info.addr ∉ H.idle) :
    Inv P H (s.remove P nId info.addr) where
  indexed := h.indexed.remove P hl hlast
  counted := h.counted.remove hl htried hidle
  tables := h.tables.remove h.indexed hl htried hrefs

end Inv

section

variable (h : Inv P H s)
include h

/-- `SwapRandom`.  The second place now has what the first one had. -/
theorem wp_swapRandom {m n : ℕ} (hm : m < s.vRandom.length) (hn : n < s.vRandom.length) :
    wp (swapRandom m n) (fun _ s' => Inv P H s' ∧ s'.vRandom.length = s.vRandom.length ∧
      s'.vRandom[n]? = s.vRandom[m]? ∧ s'.vvNew = s.vvNew ∧ s'.vvTried = s.vvTried ∧
      ∀ k, s'.entry k = s.entry k) (fun _ => False) s := by
  rw [swapRandom, wp_ite]
  refine ⟨?_, fun hne => ?_⟩
  · rintro rfl
    exact ⟨h, rfl, rfl, rfl, rfl, fun _ => rfl⟩
  · rw [wp_bind, wp_get]
    have h1 : s.vRandom[m]? = some s.vRandom[m] := getElem?_eq_getElem hm
    have h2 : s.vRandom[n]? = some s.vRandom[n] := getElem?_eq_getElem hn
    obtain ⟨i1, hi1, -⟩ := h.indexed.entry h1
    obtain ⟨i2, hi2, -⟩ := h.indexed.entry h2
    have hmem1 : s.vRandom[m] ∈ s.mapInfo := lookup_isSome.1 (by simp [hi1])
    have hmem2 : s.vRandom[n] ∈ s.mapInfo := lookup_isSome.1 (by simp [hi2])
    simp only [h1, h2, wp_bind, wp_assert, wp_set, hmem1, hmem2, decide_true, Bool.true_eq_false,
      false_imp_iff, true_and, forall_const]
    refine ⟨h.swapRandom hne h1 h2, by simp [State.swapRandom], ?_, rfl, rfl, fun k => ?_⟩
    · simp [State.swapRandom, hn]
    · exact (entry_modInfo s.vRandom[n] (f := fun info => { info with nRandomPos := m })
        fun _ => rfl).trans (entry_modInfo s.vRandom[m]
          (f := fun info => { info with nRandomPos := n }) fun _ => rfl)

theorem wp_delete (hl : s.mapInfo.lookup nId = some info) (htried : info.fInTried = false)
    (hrefs : info.nRefCount = 0) (hidle : info.addr ∉ H.idle) :
    wp (delete P nId) (fun _ s' => Inv P H s' ∧ s'.vvNew = s.vvNew ∧ s'.vvTried = s.vvTried ∧
      s'.mapInfo.lookup nId = none ∧ ∀ k ≠ nId, s'.entry k = s.entry k) (fun _ => False) s := by
  have hmem : nId ∈ s.mapInfo := lookup_isSome.1 (by simp [hl])
  obtain ⟨n, hn, hat⟩ := h.indexed.pos hl
  have hlt : n < s.vRandom.length := (List.getElem?_eq_some_iff.1 hat).1
  have hpos : info.nRandomPos.toNat = n := by omega
  simp only [delete, wp_bind, wp_get, wp_assert, wp_getInfo hl, hmem, htried, hrefs, hpos,
    decide_true, Bool.not_false, BEq.rfl, Bool.true_eq_false, false_imp_iff, true_and, forall_const]
  refine (wp_swapRandom h hlt (by omega)).mono ?_ fun _ => id
  rintro - t ⟨ht, hlen, hlast, hnew, hold, hentry⟩
  obtain ⟨p, hl'⟩ := lookup_of_entry (hentry nId) hl
  rw [hat, ← hlen] at hlast
  have hremoved := ht.remove hl' hlast htried hrefs hidle
  refine ⟨hremoved, hnew, hold, lookup_erase _ _, fun k hk => ?_⟩
  rw [← hentry k]
  exact congrArg (Option.map _) ((Map.lookup_erase_eq_ite _ _ _).trans (if_neg hk))

/-- An entry that has left all its slots is gone, so it is no longer in hand. -/
theorem Inv.deleted (ht : Inv P K s') (hl : s.mapInfo.lookup nId = some info)
    (hgone : s'.mapInfo.lookup nId = none) (hentry : ∀ k ≠ nId, s'.entry k = s.entry k)
    {L : Hand Service} (hbare : ∀ a ∈ K.bare, a = info.addr ∨ a ∈ L.bare)
    (hidle : K.idle = L.idle) (hgap : K.gap = L.gap) : Inv P L s' where
  indexed := ht.indexed
  counted := hidle ▸ ht.counted
  tables := by
    refine ht.tables.release (fun {k i} hk _ hb => ?_) (hgap ▸ refl _)
    refine .inl ((hbare _ hb).resolve_left fun ha => ?_)
    have hne : k ≠ nId := by
      rintro rfl
      rw [hgone] at hk
      cases hk
    -- the entry was there before, with the address of the deleted one
    obtain ⟨p, hk'⟩ := lookup_of_entry (hentry k hne).symm hk
    exact h.indexed.addr_ne hl hk' hne ha

/-- `ClearNew`, when what is in hand has no references. -/
theorem wp_clearNew
    (hhand : ∀ {k i}, s.mapInfo.lookup k = some i → i.addr ∈ H.bare ∨ i.addr ∈ H.idle →
      i.nRefCount = 0) :
    wp (clearNew P slot) (fun _ s' => Inv P H s' ∧ s'.vvNew = Function.update s.vvNew slot (-1) ∧
      s'.vvTried = s.vvTried ∧ ∀ k ≠ s.vvNew slot, s'.entry k = s.entry k) (fun _ => False) s := by
  rw [clearNew, wp_bind, wp_get, wp_ite]
  refine ⟨fun hne => ?_, fun he => ?_⟩
  · obtain ⟨info, hl, htried, -⟩ := h.tables.newSlot slot hne
    have hnot : ¬ (info.addr ∈ H.bare ∨ info.addr ∈ H.idle) :=
      fun hb => h.tables.vvNew_ne hl (hhand hl hb) slot rfl
    obtain ⟨hbare, hidle⟩ := not_or.1 hnot
    have hpos := (h.tables.entry hl).new htried hbare
    -- the entry may lose its last reference
    have h1 : Inv P { H with bare := info.addr :: H.bare } s :=
      ⟨h.indexed, h.counted, h.tables.mono (subset_cons_self _ _) (refl _)⟩
    have h2 := h1.dropRef rfl hl (.inl mem_cons_self)
    have hl2 := lookup_dropRef_self hl slot
    have hentry : ∀ k ≠ s.vvNew slot, (s.dropRef slot (s.vvNew slot)).entry k = s.entry k :=
      fun k hk => congrArg (Option.map _) (lookup_modInfo_of_ne hk)
    simp only [wp_bind, wp_getInfo hl, wp_assert, wp_modify, decide_eq_false_iff_not,
      decide_eq_true_eq]
    refine ⟨fun hn => hn hpos, fun _ => ?_⟩
    rw [wp_ite]
    refine ⟨fun hzero => ?_, fun hnz => ?_⟩
    · refine (wp_delete h2 hl2 htried hzero hidle).mono ?_ fun _ => id
      rintro - t ⟨ht, hnew, hold, hgone, hkeep⟩
      refine ⟨h2.deleted ht hl2 hgone hkeep ?_ rfl rfl, hnew, hold, ?_⟩
      · exact fun a ha => mem_cons.1 ha
      · exact fun k hk => (hkeep k hk).trans (hentry k hk)
    · rw [wp_pure]
      refine ⟨⟨h2.indexed, h2.counted, h2.tables.release ?_ (refl _)⟩, rfl, rfl, hentry⟩
      intro k i hk _ hb
      rcases mem_cons.1 hb with ha | hb
      · refine .inr ?_
        obtain rfl := h2.indexed.eq_of_addr hl2 hk ha
        change 0 < info.nRefCount - 1
        omega
      · exact .inl hb
  · rw [wp_pure]
    have he' : s.vvNew slot = -1 := by simpa using he
    refine ⟨h, ?_, rfl, fun _ _ => rfl⟩
    rw [← he', update_eq_self]

/-- The loop of `MakeTried` takes an entry out of all its slots, if it visits their buckets. -/
theorem wp_dropRefs {l : List (Fin newBucketCount)} (hl : s.mapInfo.lookup nId = some info)
    (hbare : info.addr ∈ H.bare) (hvisit : ∀ slot, s.vvNew slot = nId → slot.1 ∈ l) :
    wp (dropRefs P nId info.addr l) (fun _ s' => Inv P H s' ∧
      s'.mapInfo.lookup nId = some { info with nRefCount := 0 }) (fun _ => False) s := by
  have hslotIn : ∀ {slot}, s.vvNew slot = nId → P.slotIn info.addr slot.1 = slot :=
    fun he => (h.tables.vvNew_spec hl (h.indexed.ne_neg_one hl) he).2
  induction l generalizing s info with
  | nil =>
    -- no slot is left
    have hzero : info.nRefCount = 0 := by
      rw [(h.tables.entry hl).refs, fiberCard_eq_zero.2 fun slot he => nomatch hvisit slot he]
      rfl
    refine ⟨h, ?_⟩
    rw [hl, ← hzero]
  | cons bucket rest ih =>
    rw [dropRefs, wp_bind, wp_get, wp_ite]
    refine ⟨fun hin => ?_, fun hout => ?_⟩
    · have h1 := h.dropRef hin hl (.inl hbare)
      have hl1 := lookup_dropRef_self hl (P.slotIn info.addr bucket)
      have hother : ∀ {slot}, (s.dropRef (P.slotIn info.addr bucket) nId).vvNew slot = nId →
          slot ≠ P.slotIn info.addr bucket ∧ s.vvNew slot = nId := by
        intro slot he
        have hne : slot ≠ P.slotIn info.addr bucket := by
          rintro rfl
          exact h.indexed.ne_neg_one hl (he.symm.trans (update_self _ _ _))
        exact ⟨hne, (update_of_ne hne _ _).symm.trans he⟩
      rw [wp_bind, wp_modify, wp_bind, wp_getInfo hl1, wp_ite]
      refine ⟨fun hzero => ?_, fun _ => ?_⟩
      · rw [wp_pure]
        refine ⟨h1, hl1.trans ?_⟩
        rw [← hzero]
      · have hrec := ih h1 hl1 hbare
        refine hrec (fun slot he => ?_) fun he => hslotIn (hother he).2
        obtain ⟨hne, he'⟩ := hother he
        refine (mem_cons.1 (hvisit slot he')).resolve_left fun hb => hne ?_
        rw [← hb, hslotIn he']
    · refine ih h hl hbare (fun slot he => ?_) hslotIn
      refine (mem_cons.1 (hvisit slot he)).resolve_left fun hb => hout ?_
      rw [← hb, hslotIn he, he]

/-- `MakeTried` moves a tried entry back to the new table. -/
theorem wp_evict {slot : TriedSlot} (hslot : s.vvTried slot ≠ -1)
    (hhand : ∀ {k i}, s.mapInfo.lookup k = some i → i.addr ∈ H.bare ∨ i.addr ∈ H.idle →
      i.fInTried = false ∧ i.nRefCount = 0) :
    wp (evict P slot) (fun _ s' => Inv P { H with gap := slot :: H.gap } s' ∧ s'.vvTried slot = -1 ∧
      ∀ k i, s.mapInfo.lookup k = some i → i.addr ∈ H.bare → s'.entry k = s.entry k)
      (fun _ => False) s := by
  obtain ⟨old, hl, htried, -⟩ := h.tables.triedSlot slot hslot
  have hmem : s.vvTried slot ∈ s.mapInfo := lookup_isSome.1 (by simp [hl])
  have hold : old.addr ∉ H.bare ∧ old.addr ∉ H.idle := by
    refine ⟨fun hb => ?_, fun hb => ?_⟩
    · rw [(hhand hl (.inl hb)).1] at htried
      cases htried
    · rw [(hhand hl (.inr hb)).1] at htried
      cases htried
  have hrefs := h.tables.refs_of_tried hl htried (h.indexed.ne_neg_one hl)
  -- the entry leaves the tried table
  let H1 : Hand Service :=
    { bare := old.addr :: H.bare, idle := old.addr :: H.idle, gap := slot :: H.gap }
  have h1 : Inv P H1
      (((s.modInfo (s.vvTried slot) fun info => { info with fInTried := false }).setTried
      slot (-1)).countTried (P.getNetwork old.addr) (-1)) :=
    ⟨(h.indexed.modInfo (s.vvTried slot) (f := fun info => { info with fInTried := false })
        fun _ => ⟨rfl, rfl⟩).of_eq,
      (h.counted.leaveTried h.indexed hl htried).of_eq,
      (h.tables.leaveTried h.indexed hl rfl mem_cons_self (subset_cons_self _ _)
        mem_cons_self (subset_cons_self _ _)).of_eq⟩
  have hl1 := lookup_modInfo_self (f := fun info => { info with fInTried := false }) hl
  have hhand1 : ∀ {k i}, (s.modInfo (s.vvTried slot) fun info =>
      { info with fInTried := false }).mapInfo.lookup k = some i →
        i.addr ∈ H1.bare ∨ i.addr ∈ H1.idle → i.nRefCount = 0 := by
    intro k i hk hb
    rcases lookup_modInfo_cases hk with ⟨-, j, hj, rfl⟩ | ⟨hne, hi⟩
    · obtain rfl : old = j := mem_unique hl hj
      exact hrefs
    · have ha := h.indexed.addr_ne hl hi hne
      simp only [H1, mem_cons, ha, false_or] at hb
      exact (hhand hi hb).2
  have hself := h1.tables.vvNew_ne hl1 hrefs
  have hnewSlot : P.slotIn old.addr (P.newSlot old.addr old.source).1 =
      P.newSlot old.addr old.source := rfl
  simp only [evict, wp_bind, wp_get, wp_assert, wp_getInfo hl, wp_modify, hmem, decide_true,
    Bool.true_eq_false, false_imp_iff, true_and, forall_const]
  refine (wp_clearNew h1 hhand1).mono ?_ fun _ => id
  rintro - t ⟨ht, hnew, hvvTried, hentry⟩
  obtain ⟨p, hl2⟩ := lookup_of_entry (hentry _ (hself _).symm) hl1
  have hfree : t.vvNew (P.newSlot old.addr old.source) = -1 := by
    rw [hnew]
    exact update_self _ _ _
  simp only [hfree, BEq.rfl, Bool.true_eq_false, false_imp_iff, true_and, forall_const]
  -- as it has no reference, giving it one is the same as adding one
  rw [addRef_of_refs hl2 hrefs]
  have h2 : Inv P { bare := H.bare, idle := old.addr :: H.idle, gap := slot :: H.gap }
      (t.addRef (P.newSlot old.addr old.source) (s.vvTried slot)) := by
    refine ht.addRef hfree hl2 rfl ?_ hnewSlot (fun a ha => mem_cons.1 ha) rfl rfl
    rw [hrefs]
    decide
  have hcounted := h2.counted.enterNew h2.indexed (lookup_modInfo_self hl2) rfl rfl hold.2
  have htables : Tables P { H with gap := slot :: H.gap }
      (t.addRef (P.newSlot old.addr old.source) (s.vvTried slot)) :=
    h2.tables.mono (refl _) (refl _)
  refine ⟨⟨h2.indexed.of_eq, hcounted, htables.of_eq⟩, ?_, ?_⟩
  · change t.vvTried slot = -1
    rw [hvvTried]
    exact update_self _ _ _
  · intro k i hk hb
    have hne : k ≠ s.vvTried slot := by
      rintro rfl
      rw [hl, some.injEq] at hk
      exact hold.1 (hk ▸ hb)
    have hkeep : t.entry k = s.entry k := by
      refine (hentry k (h.tables.vvNew_ne hk (hhand hk (.inl hb)).2 _).symm).trans ?_
      exact congrArg (Option.map _) (lookup_modInfo_of_ne hne)
    rw [← hkeep]
    exact congrArg (Option.map _) (lookup_modInfo_of_ne hne)

theorem wp_makeSpace {slot : TriedSlot}
    (hhand : ∀ {k i}, s.mapInfo.lookup k = some i → i.addr ∈ H.bare ∨ i.addr ∈ H.idle →
      i.fInTried = false ∧ i.nRefCount = 0) :
    wp (makeSpace P slot) (fun _ s' => Inv P { H with gap := slot :: H.gap } s' ∧
      s'.vvTried slot = -1 ∧
      ∀ k i, s.mapInfo.lookup k = some i → i.addr ∈ H.bare → s'.entry k = s.entry k)
      (fun _ => False) s := by
  rw [makeSpace, wp_bind, wp_get, wp_ite]
  refine ⟨fun hslot => wp_evict h hslot hhand, fun hslot => ?_⟩
  exact ⟨⟨h.indexed, h.counted, h.tables.mono (refl _) (subset_cons_self _ _)⟩,
    not_not.1 hslot, fun _ _ _ _ => rfl⟩

end

/-- `MakeTried`, for an entry of the new table that has had a success. -/
theorem wp_makeTried (h : Inv P {} s) (hl : s.mapInfo.lookup nId = some info)
    (htried : info.fInTried = false) (hsuccess : 0 < info.lastSuccess) :
    wp (makeTried P nId) (fun _ s' => Inv P {} s') (fun _ => False) s := by
  have h1 : Inv P { bare := [info.addr] } s :=
    ⟨h.indexed, h.counted, h.tables.mono (nil_subset _) (refl _)⟩
  rw [makeTried, wp_bind, wp_getInfo hl, wp_bind]
  -- the entry leaves the new table
  refine (wp_dropRefs h1 hl mem_cons_self fun slot _ => mem_newBucketsFrom _ slot.1).mono ?_
    fun _ => id
  rintro - t ⟨ht, hl1⟩
  have h2 : Inv P { bare := [info.addr], idle := [info.addr] }
      (t.countNew (P.getNetwork info.addr) (-1)) := by
    have hcounted := ht.counted.leaveNew ht.indexed hl1 htried not_mem_nil
    have htables : Tables P { bare := [info.addr], idle := [info.addr] } t :=
      ht.tables.mono (refl _) (refl _)
    exact ⟨ht.indexed.of_eq, hcounted, htables.of_eq⟩
  have hl2 : (t.countNew (P.getNetwork info.addr) (-1)).mapInfo.lookup nId =
      some { info with nRefCount := 0 } := hl1
  rw [wp_bind, wp_modify]
  generalize t.countNew (P.getNetwork info.addr) (-1) = u at h2 hl2
  simp only [wp_bind, wp_getInfo hl2, wp_assert, BEq.rfl, Bool.true_eq_false,
    false_imp_iff, true_and, forall_const]
  -- only this entry is in hand
  have hhand : ∀ {k i}, u.mapInfo.lookup k = some i → i.addr ∈ [info.addr] ∨ i.addr ∈ [info.addr] →
      i.fInTried = false ∧ i.nRefCount = 0 := by
    intro k i hk hb
    have hka : i.addr = info.addr := by simpa using hb
    rw [h2.indexed.eq_of_addr hl2 hk hka]
    exact ⟨htried, rfl⟩
  refine (wp_makeSpace h2 hhand).mono ?_ fun _ => id
  rintro - v ⟨hv, hfree, hentry⟩
  obtain ⟨p, hl3⟩ := lookup_of_entry (hentry nId _ hl2 mem_cons_self) hl2
  rw [wp_get, hfree]
  simp only [wp_modify, BEq.rfl, Bool.true_eq_false, false_imp_iff, true_and, forall_const]
  -- it enters the tried table
  have htables := hv.tables.enterTried hv.indexed hl3 hfree htried rfl hsuccess (K := {})
    (fun a ha => .inl (mem_singleton.1 ha)) fun g hg => .inl (mem_singleton.1 hg)
  exact ⟨(hv.indexed.modInfo nId (f := fun info => { info with fInTried := true })
      fun _ => ⟨rfl, rfl⟩).of_eq,
    (hv.counted.enterTried hv.indexed hl3 rfl htried).of_eq,
    htables.of_eq⟩

/-- If an entry of the new table is in a slot, nothing is in hand. -/
theorem Inv.settle {B : List Service} (h : Inv P { bare := B } s)
    (hl : s.mapInfo.lookup nId = some info) (hB : B ⊆ [info.addr]) (hrefs : 0 < info.nRefCount) :
    Inv P {} s := by
  refine ⟨h.indexed, h.counted, h.tables.release (fun {k i} hk _ hb => .inr ?_) (refl _)⟩
  rw [h.indexed.eq_of_addr hl hk (mem_singleton.1 (hB hb))]
  exact hrefs

section

variable {B : List Service} {source : NetAddr} (h : Inv P { bare := B } s)
  (hl : s.mapInfo.lookup nId = some info) (hB : B ⊆ [info.addr])
  (htried : info.fInTried = false) (hroom : info.nRefCount < newBucketsPerAddress)
  (hhand : B ≠ [] → info.nRefCount = 0)
include h hl hB htried hroom hhand

theorem wp_insertOrDelete {fInsert : Bool} (hslot : s.vvNew (P.newSlot info.addr source) ≠ nId) :
    wp (insertOrDelete P (P.newSlot info.addr source) nId info.nRefCount fInsert)
      (fun _ s' => Inv P {} s') (fun _ => False) s := by
  have hhand' : ∀ {k i}, s.mapInfo.lookup k = some i → i.addr ∈ B ∨ i.addr ∈ [] →
      i.nRefCount = 0 := by
    intro k i hk hb
    have hb' : i.addr ∈ B := by simpa using hb
    rw [h.indexed.eq_of_addr hl hk (mem_singleton.1 (hB hb'))]
    exact hhand (ne_nil_of_mem hb')
  rw [insertOrDelete, wp_ite]
  refine ⟨fun _ => ?_, fun _ => ?_⟩
  · rw [wp_bind]
    refine (wp_clearNew h hhand').mono ?_ fun _ => id
    rintro - t ⟨ht, hnew, -, hentry⟩
    obtain ⟨p, hl'⟩ := lookup_of_entry (hentry nId hslot.symm) hl
    have hfree : t.vvNew (P.newSlot info.addr source) = -1 := by
      rw [hnew]
      exact update_self _ _ _
    exact ht.addRef hfree hl' htried hroom rfl (fun a ha => .inl (mem_singleton.1 (hB ha))) rfl rfl
  · rw [wp_ite]
    refine ⟨fun hzero => ?_, fun hnz => ?_⟩
    · refine (wp_delete h hl htried hzero not_mem_nil).mono ?_ fun _ => id
      rintro - t ⟨ht, -, -, hgone, hentry⟩
      exact h.deleted ht hl hgone hentry (fun a ha => .inl (mem_singleton.1 (hB ha))) rfl rfl
    · rw [wp_pure]
      refine h.settle hl hB ?_
      have := (h.tables.entry hl).refs
      omega

/-- The end of `AddSingle`, for an entry of the new table that may take one more reference. -/
theorem wp_addToNew {now : ℤ} :
    wp (addToNew P nId source now) (fun _ s' => Inv P {} s') (fun _ => False) s := by
  rw [addToNew, wp_bind, wp_getInfo hl, wp_bind, wp_get, wp_ite]
  refine ⟨fun hslot => ?_, fun hslot => ?_⟩
  · rw [wp_bind]
    refine (wp_overwrites h.tables).mono ?_ fun _ => id
    rintro fInsert _ rfl
    rw [wp_bind]
    refine (wp_insertOrDelete h hl hB htried hroom hhand hslot).mono ?_ fun _ => id
    exact fun _ t ht => ht
  · rw [wp_pure]
    refine h.settle hl hB ?_
    rw [(h.tables.entry hl).refs]
    exact_mod_cast fiberCard_pos.2 ⟨_, not_not.1 hslot⟩

end

/-- If the address gets a new entry, there is an identifier left for it: incrementing the counter
does not overflow. -/
def IdLeft (P : Params Service NetAddr Network) (s : State Service NetAddr Network)
    (addr : Address Service) : Prop :=
  P.isRoutable addr.addr = true → s.find addr.addr = none → s.nIdCount < 2 ^ 31 - 1

theorem Inv.create (h : Inv P {} s) (source : NetAddr) (hnew : s.mapAddr.lookup addr.addr = none)
    (hid : s.nIdCount < 2 ^ 31 - 1) : Inv P { bare := [addr.addr] } (s.create P addr source) := by
  obtain ⟨hcount, hindexed⟩ := h.indexed.create source P hnew hid
  exact ⟨hindexed, h.counted.create h.indexed source not_mem_nil,
    h.tables.create h.indexed hcount mem_cons_self (nil_subset _) rfl⟩

variable [DecidableEq NetAddr]

theorem wp_addSingle (h : Inv P {} s) (source : NetAddr) (timePenalty : ℤ)
    (draw : Draw) (hid : IdLeft P s addr) :
    wp (addSingle P addr source timePenalty draw) (fun _ s' => Inv P {} s') (fun _ => False) s := by
  rw [addSingle, wp_ite]
  refine ⟨fun _ => h, fun hroutable => ?_⟩
  have hroutable' : P.isRoutable addr.addr = true := by simpa using hroutable
  rw [wp_bind, wp_get]
  generalize (if P.netAddr addr.addr = source then 0 else timePenalty) = penalty
  cases hfind : s.find addr.addr with
  | some nId =>
    obtain ⟨info, hl, -⟩ := h.indexed.of_find hfind
    have h1 : Inv P {} (s.modInfo nId (AddrInfo.refresh addr penalty draw.now)) :=
      h.modInfo_of_times ⟨fun _ => rfl, fun _ => rfl, fun _ => rfl, fun _ => rfl⟩
        fun _ => ⟨rfl, rfl⟩
    have hl1 := lookup_modInfo_self (f := AddrInfo.refresh addr penalty draw.now) hl
    have hle := (h1.tables.entry hl1).refs_le
    simp only [wp_bind, wp_modify, wp_getInfo hl1, wp_ite, wp_pure]
    refine ⟨fun _ => h1, fun _ => ⟨fun _ => h1, fun htried => ⟨fun _ => h1, fun hmax =>
      ⟨fun _ => h1, fun _ => ?_⟩⟩⟩⟩
    exact wp_addToNew h1 hl1 (nil_subset _) (by simpa using htried)
      (lt_of_le_of_ne hle hmax) fun hne => absurd rfl hne
  | none =>
    have h1 := h.create source (h.indexed.find_eq addr.addr ▸ hfind) (hid hroutable' hfind)
    have hl1 : (s.create P addr source).mapInfo.lookup s.nIdCount =
        some { toAddress := addr, source, nRandomPos := s.vRandom.length } := lookup_insert _
    have h2 : Inv P { bare := [addr.addr] } ((s.create P addr source).modInfo s.nIdCount fun info =>
        { info with nTime := max 0 (info.nTime - penalty) }) :=
      h1.modInfo_of_times ⟨fun _ => rfl, fun _ => rfl, fun _ => rfl, fun _ => rfl⟩
        fun _ => ⟨rfl, rfl⟩
    have hl2 := lookup_modInfo_self
      (f := fun info => { info with nTime := max 0 (info.nTime - penalty) }) hl1
    have hroom : 0 < newBucketsPerAddress := by decide
    exact wp_addToNew h2 hl2 (refl _) rfl hroom fun _ => rfl

end KPCoin.AddrMan
