import KPCoin.AddrMan.State
import KPCoin.Data.Fiber

/-!
# What the parts of the address manager agree on

An address is represented in several places.  The invariant `Inv` has one part for each group of
them:

* `Indexed` : `mapInfo`, `mapAddr` and `vRandom` hold the same entries;
* `Counted` : the counters are those of the entries, in all and for each network;
* `Tables` : an entry that is new stands in as many slots of `vvNew` as it has references, one that
  was tried in its slot of `vvTried`.

While a call is moving an entry, the entry is in no slot, or is not counted, or leaves a slot of
`vvTried` free that somebody waits for.  `Hand` lists what is missing.  The lemmas of this module
say what the writes of `State` do to each part.
-/

namespace KPCoin.AddrMan

open Option State Function Map AddrInfo

variable {Service NetAddr Network : Type} [DecidableEq Service] [DecidableEq NetAddr]
  [DecidableEq Network] (P : Params Service NetAddr Network)

/-- What a call has in hand: addresses that need not stand in a slot, addresses that are not
counted, and slots of the tried table that have been cleared. -/
structure Hand (Service : Type) where
  bare : List Service := []
  idle : List Service := []
  gap : List TriedSlot := []

/-- The entries of `mapInfo` are those of `mapAddr` and of `vRandom`. -/
structure Indexed (s : State Service NetAddr Network) : Prop where
  addr : ∀ {nId info}, s.mapInfo.lookup nId = some info → s.mapAddr.lookup info.addr = some nId
  info : ∀ {addr nId}, s.mapAddr.lookup addr = some nId →
    ∃ info, s.mapInfo.lookup nId = some info ∧ info.addr = addr
  pos : ∀ {nId info}, s.mapInfo.lookup nId = some info →
    ∃ n : ℕ, info.nRandomPos = n ∧ s.vRandom[n]? = some nId
  entry : ∀ {n : ℕ} {nId}, s.vRandom[n]? = some nId →
    ∃ info, s.mapInfo.lookup nId = some info ∧ info.nRandomPos = n
  size : (s.vRandom.length : ℤ) = Map.total (fun _ => 1) s.mapInfo
  ids : ∀ {nId info}, s.mapInfo.lookup nId = some info → 0 ≤ nId ∧ nId < s.nIdCount
  idCount : 0 ≤ s.nIdCount ∧ s.nIdCount < 2 ^ 31

/-- The counters, in all (`none`) and for each network. -/
def State.counters (s : State Service NetAddr Network) : Option Network → ℤ × ℤ
  | none => (s.nNew, s.nTried)
  | some net => (s.networkCounts.lookup net).getD 0

/-- Count `x` in all and for one network. -/
def mark (net : Network) (x : ℤ × ℤ) : Option Network → ℤ × ℤ := fun o =>
  if o = none ∨ o = some net then x else 0

/-- What an entry counts. -/
def AddrInfo.kind (idle : List Service) (info : AddrInfo Service NetAddr) : ℤ × ℤ :=
  if info.fInTried then (0, 1) else if info.addr ∈ idle then 0 else (1, 0)

/-- What an entry counts, and where. -/
def Params.weight (idle : List Service) (info : AddrInfo Service NetAddr) :
    Option Network → ℤ × ℤ :=
  mark (P.getNetwork info.addr) (info.kind idle)

/-- The counters are those of the entries that are not idle. -/
structure Counted (idle : List Service) (s : State Service NetAddr Network) : Prop where
  total : s.counters = Map.total (P.weight idle) s.mapInfo
  nets : ∀ {nId info}, s.mapInfo.lookup nId = some info → P.getNetwork info.addr ∈ s.networkCounts

/-- What an entry says of itself. -/
structure EntryOk (H : Hand Service) (s : State Service NetAddr Network) (nId : ℤ)
    (info : AddrInfo Service NetAddr) : Prop where
  refs : info.nRefCount = fiberCard s.vvNew nId
  refs_le : info.nRefCount ≤ newBucketsPerAddress
  new : info.fInTried = false → info.addr ∉ H.bare → 0 < info.nRefCount
  tried : info.fInTried = true → s.vvTried (P.triedSlot info.addr) = nId ∧ 0 < info.lastSuccess
  lastTry : 0 ≤ info.lastTry
  lastSuccess : 0 ≤ info.lastSuccess

/-- The entries are in the slots that belong to them, and the slots hold such entries.  An entry
that waits to replace a tried one still finds the slot taken. -/
structure Tables (H : Hand Service) (s : State Service NetAddr Network) : Prop where
  entry : ∀ {nId info}, s.mapInfo.lookup nId = some info → EntryOk P H s nId info
  newSlot : ∀ slot, s.vvNew slot ≠ -1 → ∃ info, s.mapInfo.lookup (s.vvNew slot) = some info ∧
    info.fInTried = false ∧ P.slotIn info.addr slot.1 = slot
  triedSlot : ∀ slot, s.vvTried slot ≠ -1 → ∃ info, s.mapInfo.lookup (s.vvTried slot) = some info ∧
    info.fInTried = true ∧ P.triedSlot info.addr = slot
  collisions : ∀ nId ∈ s.triedCollisions, nId < s.nIdCount ∧ ∀ info,
    s.mapInfo.lookup nId = some info → P.triedSlot info.addr ∉ H.gap →
      s.vvTried (P.triedSlot info.addr) ≠ -1

/-- The invariant, while `H` is in hand. -/
structure Inv (H : Hand Service) (s : State Service NetAddr Network) : Prop where
  indexed : Indexed s
  counted : Counted P H.idle s
  tables : Tables P H s

variable {P} {s s' : State Service NetAddr Network} {H : Hand Service} {nId : ℤ}
  {info : AddrInfo Service NetAddr} {f : AddrInfo Service NetAddr → AddrInfo Service NetAddr}
  {i : AddrInfo Service NetAddr} {k : ℤ}

/-! ### Reading a written entry -/

omit [DecidableEq Service] [DecidableEq NetAddr] [DecidableEq Network]

namespace State

@[simp] theorem lookup_modInfo (s : State Service NetAddr Network) (nId k : ℤ) :
    (s.modInfo nId f).mapInfo.lookup k =
      if k = nId then (s.mapInfo.lookup nId).map f else s.mapInfo.lookup k :=
  lookup_modify nId f s.mapInfo k

theorem lookup_modInfo_cases (h : (s.modInfo nId f).mapInfo.lookup k = some i) :
    (k = nId ∧ ∃ info, s.mapInfo.lookup nId = some info ∧ f info = i) ∨
      (k ≠ nId ∧ s.mapInfo.lookup k = some i) := by
  rw [lookup_modInfo] at h
  split_ifs at h with hk
  · exact .inl ⟨hk, map_eq_some_iff.1 h⟩
  · exact .inr ⟨hk, h⟩

theorem lookup_modInfo_self (h : s.mapInfo.lookup nId = some info) :
    (s.modInfo nId f).mapInfo.lookup nId = some (f info) := by
  rw [lookup_modInfo, if_pos rfl, h, map_some]

theorem lookup_modInfo_of_ne (h : k ≠ nId) :
    (s.modInfo nId f).mapInfo.lookup k = s.mapInfo.lookup k := by
  rw [lookup_modInfo, if_neg h]

theorem lookup_create [DecidableEq Service] [DecidableEq Network]
    (P : Params Service NetAddr Network) (addr : Address Service) (source : NetAddr) (k : ℤ) :
    (s.create P addr source).mapInfo.lookup k = if k = s.nIdCount then
      some { toAddress := addr, source, nRandomPos := s.vRandom.length } else s.mapInfo.lookup k :=
  lookup_insert_eq_ite _ _ _ _

theorem lookup_remove [DecidableEq Service] [DecidableEq Network]
    (P : Params Service NetAddr Network) (addr : Service) (k : ℤ) :
    (s.remove P nId addr).mapInfo.lookup k = if k = nId then none else s.mapInfo.lookup k :=
  lookup_erase_eq_ite _ _ _

theorem lookup_dropRef_self (h : s.mapInfo.lookup nId = some info) (slot : NewSlot) :
    (s.dropRef slot nId).mapInfo.lookup nId =
      some { info with nRefCount := info.nRefCount - 1 } := lookup_modInfo_self h

/-- For an entry without references, having one reference is having one more. -/
theorem addRef_of_refs (h : s.mapInfo.lookup nId = some info) (hrefs : info.nRefCount = 0)
    (slot : NewSlot) :
    (s.modInfo nId fun info => { info with nRefCount := 1 }).setNew slot nId =
      s.addRef slot nId := by
  have hone : { info with nRefCount := 1 } = { info with nRefCount := info.nRefCount + 1 } := by
    rw [hrefs]
    rfl
  have hmodify : s.mapInfo.modify nId (fun info => { info with nRefCount := 1 }) =
      s.mapInfo.modify nId fun info => { info with nRefCount := info.nRefCount + 1 } :=
    modify_congr h hone
  simp [addRef, modInfo, hmodify]

end State

/-! ### The maps and the random order -/

namespace Indexed

variable [DecidableEq Service]

variable (h : Indexed s)
include h

/-- The parts that `Indexed` does not speak of may change. -/
theorem of_eq (hinfo : s'.mapInfo = s.mapInfo := by rfl) (haddr : s'.mapAddr = s.mapAddr := by rfl)
    (hrandom : s'.vRandom = s.vRandom := by rfl) (hcount : s'.nIdCount = s.nIdCount := by rfl) :
    Indexed s' := by
  obtain ⟨h1, h2, h3, h4, h5, h6, h7⟩ := h
  constructor <;> simpa [hinfo, haddr, hrandom, hcount]

/-- The entries may change, except for their addresses, and be put in another order. -/
theorem permute (σ : Equiv.Perm ℕ) {g : ℤ → AddrInfo Service NetAddr → AddrInfo Service NetAddr}
    (hinfo : ∀ k, s'.mapInfo.lookup k = (s.mapInfo.lookup k).map (g k))
    (hg : ∀ k i, (g k i).addr = i.addr)
    (hpos : ∀ {n : ℕ} {k i}, s.vRandom[n]? = some k → nRandomPos i = n →
      (g k i).nRandomPos = σ n)
    (hrandom : ∀ n, s'.vRandom[σ n]? = s.vRandom[n]?) (haddr : s'.mapAddr = s.mapAddr)
    (hcount : s'.nIdCount = s.nIdCount)
    (hsize : (s'.vRandom.length : ℤ) = Map.total (fun _ => 1) s'.mapInfo) : Indexed s' := by
  have hof : ∀ {k i}, s'.mapInfo.lookup k = some i → ∃ j, s.mapInfo.lookup k = some j ∧ g k j = i :=
    fun {k _} hk => map_eq_some_iff.1 ((hinfo k).symm.trans hk)
  have hto : ∀ {k i}, s.mapInfo.lookup k = some i → s'.mapInfo.lookup k = some (g k i) :=
    fun {k _} hk => (hinfo k).trans (congrArg _ hk)
  refine ⟨fun hk => ?_, fun hk => ?_, fun hk => ?_, fun {n} _ hn => ?_, hsize, fun hk => ?_,
    hcount ▸ h.idCount⟩
  · obtain ⟨j, hj, rfl⟩ := hof hk
    rw [haddr, hg, h.addr hj]
  · obtain ⟨i, hi, rfl⟩ := h.info (haddr ▸ hk)
    exact ⟨_, hto hi, hg _ i⟩
  · obtain ⟨j, hj, rfl⟩ := hof hk
    obtain ⟨n, hn, hnk⟩ := h.pos hj
    exact ⟨σ n, hpos hnk hn, (hrandom n).trans hnk⟩
  · obtain ⟨m, rfl⟩ := σ.surjective n
    rw [hrandom] at hn
    obtain ⟨i, hi, hm⟩ := h.entry hn
    exact ⟨_, hto hi, hpos hn hm⟩
  · obtain ⟨j, hj, -⟩ := hof hk
    exact hcount ▸ h.ids hj

/-- An entry may change, except for its address and its place in the random order. -/
theorem modInfo (nId : ℤ)
    (hf : ∀ info, (f info).addr = info.addr ∧ (f info).nRandomPos = info.nRandomPos) :
    Indexed (s.modInfo nId f) := by
  refine h.permute 1 (g := fun k i => if k = nId then f i else i) (fun k => ?_) (fun k i => ?_)
    (fun {n k i} _ hn => ?_) (fun _ => rfl) rfl rfl
    (h.size.trans (total_modify_of_eq (fun _ => 1) (f := f) (fun _ => rfl) s.mapInfo).symm)
  · rw [lookup_modInfo]
    split_ifs with hk
    · rw [hk]
    · exact map_id'.symm
  · split_ifs
    · exact (hf i).1
    · rfl
  · split_ifs
    · exact (hf i).2.trans hn
    · exact hn

theorem inj {m n : ℕ} (hm : s.vRandom[m]? = some nId) (hn : s.vRandom[n]? = some nId) : m = n := by
  obtain ⟨i, hi, hpos⟩ := h.entry hm
  obtain ⟨j, hj, hpos'⟩ := h.entry hn
  rw [hi, some.injEq] at hj
  subst hj
  omega

theorem fresh : s.mapInfo.lookup s.nIdCount = none := by
  cases hl : s.mapInfo.lookup s.nIdCount with
  | none => rfl
  | some info => exact absurd (h.ids hl).2 (lt_irrefl _)

theorem ne_neg_one (hl : s.mapInfo.lookup nId = some info) : nId ≠ -1 := by
  have := (h.ids hl).1
  omega

theorem swapRandom {m n : ℕ} {id1 id2 : ℤ} (hne : m ≠ n) (h1 : s.vRandom[m]? = some id1)
    (h2 : s.vRandom[n]? = some id2) : Indexed (s.swapRandom m n id1 id2) := by
  have hid : id1 ≠ id2 := fun he => hne (h.inj h1 (he ▸ h2))
  have hm : m < s.vRandom.length := (getElem?_eq_some_iff.1 h1).1
  have hn : n < s.vRandom.length := (getElem?_eq_some_iff.1 h2).1
  refine h.permute (Equiv.swap m n) (g := fun k i => if k = id2 then { i with nRandomPos := m }
    else if k = id1 then { i with nRandomPos := n } else i) (fun k => ?_) (fun k i => ?_)
    (fun {p k i} hpk hp => ?_) (fun p => ?_) rfl rfl ?_
  · simp only [State.swapRandom, lookup_modify, Ne.symm hid, if_false]
    split_ifs with hk2 hk1
    · rw [hk2]
    · rw [hk1]
    · exact map_id'.symm
  · split_ifs <;> rfl
  · split_ifs with hk2 hk1
    · rw [h.inj hpk (hk2 ▸ h2), Equiv.swap_apply_right]
    · rw [h.inj hpk (hk1 ▸ h1), Equiv.swap_apply_left]
    · rw [hp, Equiv.swap_apply_of_ne_of_ne]
      · rintro rfl
        exact hk1 (mem_unique hpk h1)
      · rintro rfl
        exact hk2 (mem_unique hpk h2)
  · rw [Equiv.swap_apply_def]
    split_ifs with hpm hpn
    · simp [State.swapRandom, hn, hpm, h1]
    · simp [State.swapRandom, hm, hpn, h2, Ne.symm hne]
    · simp [State.swapRandom, Ne.symm hpm, Ne.symm hpn]
  · have htotal : total (fun _ => (1 : ℤ)) (s.swapRandom m n id1 id2).mapInfo =
        total (fun _ => 1) s.mapInfo := by
      simp only [State.swapRandom]
      rw [total_modify_of_eq, total_modify_of_eq] <;> exact fun _ => rfl
    rw [htotal, ← h.size]
    simp [State.swapRandom]

/-- A new entry gets the next identifier, as long as there is one. -/
theorem create {addr : Address Service} (source : NetAddr) [DecidableEq Network]
    (P : Params Service NetAddr Network) (hnew : s.mapAddr.lookup addr.addr = none)
    (hcount : s.nIdCount < 2 ^ 31 - 1) :
    (s.create P addr source).nIdCount = s.nIdCount + 1 ∧ Indexed (s.create P addr source) := by
  have hcount' : (s.create P addr source).nIdCount = s.nIdCount + 1 := by
    have h0 := h.idCount.1
    change Int.bmod (s.nIdCount + 1) (2 ^ 32) = _
    rw [Int.bmod_eq_of_le] <;> omega
  have hmapAddr : ∀ a, (s.create P addr source).mapAddr.lookup a =
      if a = addr.addr then some s.nIdCount else s.mapAddr.lookup a :=
    fun a => lookup_insert_eq_ite _ _ _ _
  have hrandom : (s.create P addr source).vRandom = s.vRandom ++ [s.nIdCount] := rfl
  have hold : ∀ {k i}, s.mapInfo.lookup k = some i → k ≠ s.nIdCount := by
    rintro k i hk rfl
    rw [h.fresh] at hk
    cases hk
  refine ⟨hcount', ?_⟩
  constructor
  case addr =>
    intro k i hk
    rw [lookup_create] at hk
    rw [hmapAddr]
    split_ifs at hk with hk'
    · cases hk
      rw [hk', if_pos rfl]
    · have ha := h.addr hk
      rw [if_neg, ha]
      intro he
      rw [he, hnew] at ha
      cases ha
  case info =>
    intro a k hk
    rw [hmapAddr] at hk
    split_ifs at hk with ha
    · cases hk
      exact ⟨_, by rw [lookup_create, if_pos rfl], ha.symm⟩
    · obtain ⟨i, hi, hia⟩ := h.info hk
      exact ⟨i, by rw [lookup_create, if_neg (hold hi), hi], hia⟩
  case pos =>
    intro k i hk
    rw [lookup_create] at hk
    split_ifs at hk with hk'
    · cases hk
      exact ⟨s.vRandom.length, rfl, by simp [hrandom, hk']⟩
    · obtain ⟨n, hn, hnk⟩ := h.pos hk
      exact ⟨n, hn, by rw [hrandom, List.getElem?_append_left (getElem?_eq_some_iff.1 hnk).1, hnk]⟩
  case entry =>
    intro n k hn
    rw [hrandom, List.getElem?_append] at hn
    split_ifs at hn
    · obtain ⟨i, hi, hpos⟩ := h.entry hn
      exact ⟨i, by rw [lookup_create, if_neg (hold hi), hi], hpos⟩
    · obtain ⟨hle, hk⟩ := getElem?_eq_some_iff.1 hn
      obtain rfl : n = s.vRandom.length := by
        simp only [List.length_singleton] at hle
        omega
      obtain rfl : s.nIdCount = k := by simpa using hk
      exact ⟨_, by rw [lookup_create, if_pos rfl], rfl⟩
  case size =>
    have htotal : total (fun _ => (1 : ℤ)) (s.create P addr source).mapInfo =
        total (fun _ => 1) s.mapInfo + 1 := by
      rw [State.create, State.countNew, total_insert, h.fresh, elim_none, sub_zero]
    rw [htotal, ← h.size, hrandom]
    simp
  case ids =>
    intro k i hk
    rw [lookup_create] at hk
    split_ifs at hk
    · have h0 := h.idCount.1
      omega
    · have := h.ids hk
      omega
  case idCount =>
    have := h.idCount
    omega

theorem addr_ne (hl : s.mapInfo.lookup nId = some info) (hk : s.mapInfo.lookup k = some i)
    (hne : k ≠ nId) : i.addr ≠ info.addr := by
  intro ha
  have hk' := h.addr hk
  rw [ha, h.addr hl] at hk'
  exact hne (some.inj hk').symm

/-- The last entry in the random order is dropped. -/
theorem remove [DecidableEq Network] (P : Params Service NetAddr Network)
    (hl : s.mapInfo.lookup nId = some info) (hlast : s.vRandom[s.vRandom.length - 1]? = some nId) :
    Indexed (s.remove P nId info.addr) := by
  have hmapAddr : ∀ a, (s.remove P nId info.addr).mapAddr.lookup a =
      if a = info.addr then none else s.mapAddr.lookup a := fun a => lookup_erase_eq_ite _ _ _
  have hlen := (getElem?_eq_some_iff.1 hlast).1
  have hrandom : ∀ n : ℕ, (s.remove P nId info.addr).vRandom[n]? =
      if n < s.vRandom.length - 1 then s.vRandom[n]? else none := by
    intro n
    change s.vRandom.dropLast[n]? = _
    rw [List.getElem?_dropLast]
  constructor
  case addr =>
    intro k i hk
    rw [lookup_remove] at hk
    split_ifs at hk with hk'
    rw [hmapAddr, if_neg (h.addr_ne hl hk hk'), h.addr hk]
  case info =>
    intro a k hk
    rw [hmapAddr] at hk
    split_ifs at hk with ha
    obtain ⟨i, hi, rfl⟩ := h.info hk
    refine ⟨i, ?_, rfl⟩
    rw [lookup_remove, if_neg, hi]
    rintro rfl
    rw [hl] at hi
    exact ha (congrArg (·.addr) (some.inj hi).symm)
  case pos =>
    intro k i hk
    rw [lookup_remove] at hk
    split_ifs at hk with hk'
    obtain ⟨n, hn, hnk⟩ := h.pos hk
    refine ⟨n, hn, ?_⟩
    rw [hrandom, if_pos, hnk]
    have hlt := (getElem?_eq_some_iff.1 hnk).1
    have hne : n ≠ s.vRandom.length - 1 := by
      rintro rfl
      exact hk' (mem_unique hnk hlast)
    omega
  case entry =>
    intro n k hn
    rw [hrandom] at hn
    split_ifs at hn
    obtain ⟨i, hi, hpos⟩ := h.entry hn
    refine ⟨i, ?_, hpos⟩
    rw [lookup_remove, if_neg, hi]
    rintro rfl
    have := h.inj hn hlast
    omega
  case size =>
    have htotal : total (fun _ => (1 : ℤ)) (s.remove P nId info.addr).mapInfo =
        total (fun _ => 1) s.mapInfo - 1 := by
      rw [State.remove, State.countNew, total_erase, hl, elim_some]
    rw [htotal, ← h.size]
    change (s.vRandom.dropLast.length : ℤ) = _
    rw [List.length_dropLast]
    omega
  case ids =>
    intro k i hk
    rw [lookup_remove] at hk
    split_ifs at hk
    exact h.ids hk
  case idCount => exact h.idCount

theorem eq_of_addr (hl : s.mapInfo.lookup nId = some info)
    (hk : s.mapInfo.lookup k = some i) (ha : i.addr = info.addr) : i = info := by
  obtain rfl : k = nId := by
    by_contra hne
    exact h.addr_ne hl hk hne ha
  exact mem_unique hk hl

end Indexed

/-! ### The counters -/

section Counted

variable [DecidableEq Network] {net : Network} {idle : List Service}

@[simp] theorem mark_zero : mark net (0 : ℤ × ℤ) = 0 := by
  funext o
  simp [mark]

theorem mark_neg (x : ℤ × ℤ) : mark net (-x) = -mark net x := by
  funext o
  simp only [mark, Pi.neg_apply]
  split_ifs <;> simp

/-- What is added in all and for a network is added to the counters. -/
theorem counters_add {x : ℤ × ℤ} (hall : (s'.nNew, s'.nTried) = (s.nNew, s.nTried) + x)
    (hnets : s'.networkCounts =
      s.networkCounts.insert net ((s.networkCounts.lookup net).getD 0 + x)) :
    s'.counters = s.counters + mark net x := by
  funext o
  cases o with
  | none => simpa [State.counters, mark] using hall
  | some n =>
    simp only [State.counters, hnets, lookup_insert_eq_ite, mark, Pi.add_apply, reduceCtorEq,
      false_or, some.injEq]
    split_ifs with h
    · rw [h, getD_some]
    · simp

theorem counters_countNew (s : State Service NetAddr Network) (net : Network) (k : ℤ) :
    (s.countNew net k).counters = s.counters + mark net (k, 0) :=
  counters_add (by simp [State.countNew]) rfl

theorem counters_countTried (s : State Service NetAddr Network) (net : Network) (k : ℤ) :
    (s.countTried net k).counters = s.counters + mark net (0, k) :=
  counters_add (by simp [State.countTried]) rfl

end Counted

namespace Counted

variable [DecidableEq Service] [DecidableEq Network] {idle : List Service} {a : Service}

section

variable (h : Counted P idle s)
include h

theorem of_eq (hinfo : s'.mapInfo = s.mapInfo := by rfl)
    (hcounters : s'.counters = s.counters := by rfl)
    (hnets : s'.networkCounts = s.networkCounts := by rfl) : Counted P idle s' := by
  obtain ⟨h1, h2⟩ := h
  constructor <;> simpa [hinfo, hcounters, hnets]

theorem nets_modInfo (hk : (s.mapInfo.modify nId f).lookup k = some i)
    (hf : ∀ info, (f info).addr = info.addr) : P.getNetwork i.addr ∈ s.networkCounts := by
  rcases lookup_modInfo_cases hk with ⟨rfl, info, hi, rfl⟩ | ⟨-, hi⟩
  · rw [hf info]
    exact h.nets hi
  · exact h.nets hi

/-- An entry may change, except for what it counts. -/
theorem modInfo (nId : ℤ)
    (hf : ∀ info, (f info).addr = info.addr ∧ (f info).fInTried = info.fInTried) :
    Counted P idle (s.modInfo nId f) where
  total := by
    have hweight : ∀ i, P.weight idle (f i) = P.weight idle i := by
      intro i
      simp [Params.weight, kind, (hf i).1, (hf i).2]
    exact h.total.trans (total_modify_of_eq _ hweight _).symm
  nets := fun hk => h.nets_modInfo hk fun i => (hf i).1

theorem swapRandom (m n : ℕ) (id1 id2 : ℤ) : Counted P idle (s.swapRandom m n id1 id2) :=
  ((h.modInfo id1 (f := fun info => { info with nRandomPos := n }) fun _ => ⟨rfl, rfl⟩).modInfo id2
    (f := fun info => { info with nRandomPos := m }) fun _ => ⟨rfl, rfl⟩).of_eq

theorem create (hs : Indexed s) {addr : Address Service} (source : NetAddr)
    (hidle : addr.addr ∉ idle) : Counted P idle (s.create P addr source) where
  total := by
    rw [State.create, counters_countNew]
    change s.counters + _ = _
    rw [h.total]
    simp only [State.countNew, total_insert, hs.fresh, elim_none, sub_zero]
    simp [Params.weight, kind, hidle]
  nets := by
    intro k i hk
    simp only [State.create, State.countNew, lookup_insert_eq_ite] at hk
    simp only [State.create, State.countNew, AList.mem_insert]
    split_ifs at hk
    · cases hk
      exact .inl rfl
    · exact .inr (h.nets hk)

theorem remove (hl : s.mapInfo.lookup nId = some info) (htried : info.fInTried = false)
    (hidle : info.addr ∉ idle) : Counted P idle (s.remove P nId info.addr) where
  total := by
    rw [State.remove, counters_countNew]
    change s.counters + _ = _
    rw [h.total]
    simp only [State.countNew, total_erase, hl, elim_some, sub_eq_add_neg, Params.weight,
      ← mark_neg]
    simp [kind, htried, hidle]
  nets := by
    intro k i hk
    simp only [State.remove, State.countNew, lookup_erase_eq_ite] at hk
    simp only [State.remove, State.countNew, AList.mem_insert]
    split_ifs at hk
    exact .inr (h.nets hk)

end

/-- The total when one address becomes idle. -/
theorem total_idle (hs : Indexed s) (hl : s.mapInfo.lookup nId = some info) :
    Map.total (P.weight (info.addr :: idle)) s.mapInfo = Map.total (P.weight idle) s.mapInfo -
      P.weight idle info + P.weight (info.addr :: idle) info := by
  refine total_congr_off _ hl fun k i hne hk => ?_
  have ha := hs.addr_ne hl hk hne
  simp [Params.weight, kind, ha]

theorem of_countNew (h : Counted P idle s) {net : Network} {idle' : List Service}
    (htotal : s.counters + mark net (k, 0) = Map.total (P.weight idle') s.mapInfo) :
    Counted P idle' (s.countNew net k) where
  total := (counters_countNew s net k).trans htotal
  nets := fun hl => AList.mem_insert _ |>.2 (.inr (h.nets hl))

theorem leaveNew (h : Counted P idle s) (hs : Indexed s) (hl : s.mapInfo.lookup nId = some info)
    (htried : info.fInTried = false) (hidle : info.addr ∉ idle) :
    Counted P (info.addr :: idle) (s.countNew (P.getNetwork info.addr) (-1)) := by
  refine h.of_countNew ?_
  rw [total_idle hs hl, h.total]
  simp [Params.weight, kind, htried, hidle, sub_eq_add_neg, ← mark_neg]

theorem enterNew (h : Counted P (a :: idle) s) (hs : Indexed s)
    (hl : s.mapInfo.lookup nId = some info) (ha : info.addr = a) (htried : info.fInTried = false)
    (hidle : a ∉ idle) : Counted P idle (s.countNew (P.getNetwork a) 1) := by
  subst ha
  refine h.of_countNew ?_
  rw [h.total, total_idle hs hl]
  simp [Params.weight, kind, htried, hidle]

theorem leaveTried (h : Counted P idle s) (hs : Indexed s) (hl : s.mapInfo.lookup nId = some info)
    (htried : info.fInTried = true) :
    Counted P (info.addr :: idle)
      ((s.modInfo nId fun info => { info with fInTried := false }).countTried
      (P.getNetwork info.addr) (-1)) where
  total := by
    rw [counters_countTried]
    change s.counters + _ = Map.total _ (s.mapInfo.modify nId _)
    have hneg : mark (P.getNetwork info.addr) (0, -1) = -mark _ (0, 1) := mark_neg (0, 1)
    rw [total_modify _ hl, total_idle hs hl, h.total, hneg]
    simp [Params.weight, kind, htried, sub_eq_add_neg]
  nets := fun hk => AList.mem_insert _ |>.2 (.inr (h.nets_modInfo hk fun _ => rfl))

theorem enterTried (h : Counted P (a :: idle) s) (hs : Indexed s)
    (hl : s.mapInfo.lookup nId = some info) (ha : info.addr = a) (htried : info.fInTried = false) :
    Counted P idle ((s.countTried (P.getNetwork a) 1).modInfo nId
      fun info => { info with fInTried := true }) where
  total := by
    subst ha
    change (s.countTried (P.getNetwork info.addr) 1).counters = Map.total _ (s.mapInfo.modify nId _)
    rw [counters_countTried, total_modify _ hl, h.total, total_idle hs hl]
    simp [Params.weight, kind, htried]
  nets := fun hk => AList.mem_insert _ |>.2 (.inr (h.nets_modInfo hk fun _ => rfl))

end Counted

/-! ### The tables -/

namespace Tables

theorem of_eq (h : Tables P H s) (hinfo : s'.mapInfo = s.mapInfo := by rfl)
    (hnew : s'.vvNew = s.vvNew := by rfl) (htried : s'.vvTried = s.vvTried := by rfl)
    (hcollisions : s'.triedCollisions = s.triedCollisions := by rfl)
    (hcount : s'.nIdCount = s.nIdCount := by rfl) : Tables P H s' where
  entry := by
    intro k i hk
    obtain ⟨h1, h2, h3, h4, h5, h6⟩ := h.entry (hinfo ▸ hk)
    constructor <;> simpa only [hnew, htried]
  newSlot := by
    intro slot
    rw [hnew, hinfo]
    exact h.newSlot slot
  triedSlot := by
    intro slot
    rw [htried, hinfo]
    exact h.triedSlot slot
  collisions := by
    rw [hcollisions, hcount, hinfo, htried]
    exact h.collisions

section Entry

variable (h : Tables P H s) (hl : s.mapInfo.lookup nId = some info)
include h hl

theorem vvNew_ne (hrefs : info.nRefCount = 0) (slot : NewSlot) : s.vvNew slot ≠ nId := by
  have h0 := (h.entry hl).refs
  exact fiberCard_eq_zero.1 (by omega) slot

theorem vvNew_spec (hne : nId ≠ -1) {slot : NewSlot} (hslot : s.vvNew slot = nId) :
    info.fInTried = false ∧ P.slotIn info.addr slot.1 = slot := by
  obtain ⟨i, hi, hi'⟩ := h.newSlot slot (hslot ▸ hne)
  rw [hslot, hl, some.injEq] at hi
  exact hi ▸ hi'

theorem vvTried_spec (hne : nId ≠ -1) {slot : TriedSlot} (hslot : s.vvTried slot = nId) :
    info.fInTried = true ∧ P.triedSlot info.addr = slot := by
  obtain ⟨i, hi, hi'⟩ := h.triedSlot slot (hslot ▸ hne)
  rw [hslot, hl, some.injEq] at hi
  exact hi ▸ hi'

end Entry

variable {K : Hand Service}

section

variable (h : Tables P H s) (hids : ∀ {k i}, s.mapInfo.lookup k = some i → k ≠ -1)
include h hids

/-- An entry is written to, and so are slots that hold it or are empty.  The other entries are still
where they were; what is to be shown is about the one. -/
theorem write (hl : s.mapInfo.lookup nId = some info)
    (hinfo : s'.mapInfo = (s.modInfo nId f).mapInfo)
    (haddr : (f info).addr = info.addr) (hcollisions : s'.triedCollisions = s.triedCollisions)
    (hcount : s'.nIdCount = s.nIdCount)
    (hnew : ∀ slot k, k ≠ nId → k ≠ -1 → (s'.vvNew slot = k ↔ s.vvNew slot = k))
    (htried : ∀ slot k, k ≠ nId → k ≠ -1 → (s'.vvTried slot = k ↔ s.vvTried slot = k))
    (hbare : ∀ k i, s.mapInfo.lookup k = some i → k ≠ nId → i.addr ∈ H.bare → i.addr ∈ K.bare)
    (hgap : ∀ slot, slot ∉ K.gap → (slot ∉ H.gap → s.vvTried slot ≠ -1) → s'.vvTried slot ≠ -1)
    (hentry : EntryOk P K s' nId (f info))
    (hnewSlot : ∀ slot, s'.vvNew slot = nId →
      (f info).fInTried = false ∧ P.slotIn info.addr slot.1 = slot)
    (htriedSlot : ∀ slot, s'.vvTried slot = nId →
      (f info).fInTried = true ∧ P.triedSlot info.addr = slot) : Tables P K s' where
  entry := by
    intro k i hk
    rw [hinfo] at hk
    rcases lookup_modInfo_cases hk with ⟨rfl, j, hj, rfl⟩ | ⟨hkn, hk⟩
    · obtain rfl := mem_unique hl hj
      exact hentry
    · have hk1 := hids hk
      obtain ⟨h1, h2, h3, h4, h5, h6⟩ := h.entry hk
      refine ⟨?_, h2, fun ht hnot => h3 ht fun hb => hnot (hbare k i hk hkn hb),
        fun ht => ⟨(htried _ k hkn hk1).2 (h4 ht).1, (h4 ht).2⟩, h5, h6⟩
      rw [h1, fiberCard_congr fun slot => hnew slot k hkn hk1]
  newSlot := by
    intro slot hslot
    by_cases hn : s'.vvNew slot = nId
    · refine ⟨f info, ?_, haddr ▸ hnewSlot slot hn⟩
      rw [hinfo, hn, lookup_modInfo_self hl]
    · have hold := (hnew slot _ hn hslot).1 rfl
      rw [hinfo, lookup_modInfo_of_ne hn, ← hold]
      exact h.newSlot slot (hold ▸ hslot)
  triedSlot := by
    intro slot hslot
    by_cases hn : s'.vvTried slot = nId
    · refine ⟨f info, ?_, haddr ▸ htriedSlot slot hn⟩
      rw [hinfo, hn, lookup_modInfo_self hl]
    · have hold := (htried slot _ hn hslot).1 rfl
      rw [hinfo, lookup_modInfo_of_ne hn, ← hold]
      exact h.triedSlot slot (hold ▸ hslot)
  collisions := by
    intro k hk
    rw [hcollisions] at hk
    obtain ⟨hlt, hwait⟩ := h.collisions k hk
    refine ⟨hcount ▸ hlt, fun i hi hnot => hgap _ hnot ?_⟩
    rw [hinfo] at hi
    rcases lookup_modInfo_cases hi with ⟨rfl, j, hj, rfl⟩ | ⟨-, hi⟩
    · obtain rfl := mem_unique hl hj
      rw [haddr]
      exact hwait info hl
    · exact hwait i hi

/-- An entry may change, as long as it keeps its place and its times are not negative. -/
theorem modInfo
    (hf : ∀ info, (f info).addr = info.addr ∧ (f info).fInTried = info.fInTried)
    (hrefs : ∀ info, (f info).nRefCount = info.nRefCount)
    (htimes : ∀ info, s.mapInfo.lookup nId = some info → 0 ≤ (f info).lastTry ∧
      0 ≤ (f info).lastSuccess ∧ (info.fInTried = true → 0 < (f info).lastSuccess)) :
    Tables P H (s.modInfo nId f) := by
  cases hl : s.mapInfo.lookup nId with
  | none => exact h.of_eq (by simp [State.modInfo, Map.modify, hl])
  | some info =>
    obtain ⟨h1, h2, h3, h4, -, -⟩ := h.entry hl
    obtain ⟨htry, hsuccess, hpos⟩ := htimes info hl
    have hne := hids hl
    obtain ⟨haddr, htried⟩ := hf info
    refine h.write hids hl rfl haddr rfl rfl (fun _ _ _ _ => .rfl) (fun _ _ _ _ => .rfl)
      (fun _ _ _ _ hb => hb) (fun _ hk hold => hold hk) ?_
      (fun _ hslot => htried ▸ h.vvNew_spec hl hne hslot)
      fun _ hslot => htried ▸ h.vvTried_spec hl hne hslot
    refine ⟨(hrefs info).trans h1, (hrefs info).trans_le h2, ?_, ?_, htry, hsuccess⟩
    · rwa [haddr, htried, hrefs info]
    · rw [haddr, htried]
      exact fun ht => ⟨(h4 ht).1, hpos ht⟩

theorem swapRandom (m n : ℕ) (id1 id2 : ℤ) : Tables P H (s.swapRandom m n id1 id2) := by
  have hmove : ∀ {s : State Service NetAddr Network} k p, Tables P H s →
      (∀ {k i}, s.mapInfo.lookup k = some i → k ≠ -1) →
      Tables P H (s.modInfo k fun info => { info with nRandomPos := p }) := by
    intro s k p h hids
    refine h.modInfo hids (fun _ => ⟨rfl, rfl⟩) (fun _ => rfl) fun info hl => ?_
    have he := h.entry hl
    exact ⟨he.lastTry, he.lastSuccess, fun ht => (he.tried ht).2⟩
  refine (hmove id2 m (hmove id1 n h hids) fun hk => ?_).of_eq
  rcases lookup_modInfo_cases hk with ⟨rfl, _, hi, -⟩ | ⟨-, hi⟩ <;> exact hids hi

end

variable [DecidableEq Service]

section Moves

variable (h : Tables P H s) (hs : Indexed s) (hl : s.mapInfo.lookup nId = some info)
include h hs hl

theorem vvTried_ne (htried : info.fInTried = false) (slot : TriedSlot) : s.vvTried slot ≠ nId := by
  intro hslot
  rw [(h.vvTried_spec hl (hs.ne_neg_one hl) hslot).1] at htried
  cases htried

theorem dropRef {slot : NewSlot} (hslot : s.vvNew slot = nId)
    (hbare : info.addr ∈ H.bare ∨ 1 < info.nRefCount) : Tables P H (s.dropRef slot nId) := by
  have hne := hs.ne_neg_one hl
  obtain ⟨h1, h2, -, h4, h5, h6⟩ := h.entry hl
  refine h.write hs.ne_neg_one hl rfl rfl rfl rfl
    (fun _ _ hk hk1 => update_eq_iff (hslot ▸ hk) hk1) (fun _ _ _ _ => .rfl) (fun _ _ _ _ hb => hb)
    (fun _ hk hold => hold hk) ?_ (fun slot' hslot' => ?_)
      fun _ hslot' => h.vvTried_spec hl hne hslot'
  · refine ⟨?_, (sub_le_self _ zero_le_one).trans h2, fun ht hnot => ?_, h4, h5, h6⟩
    · have hcard := fiberCard_update s.vvNew slot (-1) nId
      rw [hslot, if_pos rfl, if_neg (Ne.symm hne), add_zero] at hcard
      exact (congrArg (· - 1) h1).trans hcard.symm
    · have := hbare.resolve_left hnot
      exact sub_pos_of_lt this
  · rcases update_cases hslot' with ⟨-, he⟩ | ⟨-, hslot'⟩
    · exact absurd he.symm hne
    · exact h.vvNew_spec hl hne hslot'

theorem addRef {slot : NewSlot} (hslot : s.vvNew slot = -1) (htried : info.fInTried = false)
    (hroom : info.nRefCount < newBucketsPerAddress) (hpos : P.slotIn info.addr slot.1 = slot)
    (hbare : ∀ a ∈ H.bare, a = info.addr ∨ a ∈ K.bare) (hgap : H.gap = K.gap) :
    Tables P K (s.addRef slot nId) := by
  have hne := hs.ne_neg_one hl
  obtain ⟨h1, -, -, h4, h5, h6⟩ := h.entry hl
  refine h.write hs.ne_neg_one hl rfl rfl rfl rfl
    (fun _ _ hk hk1 => update_eq_iff (hslot ▸ hk1) hk) (fun _ _ _ _ => .rfl)
    (fun k i hi hk hb => (hbare _ hb).resolve_left (hs.addr_ne hl hi hk))
    (fun _ hk hold => hold (hgap ▸ hk)) ?_ (fun slot' hslot' => ⟨htried, ?_⟩)
    fun _ hslot' => h.vvTried_spec hl hne hslot'
  · refine ⟨?_, Int.add_one_le_iff.2 hroom, fun _ _ => ?_, h4, h5, h6⟩
    · have hcard := fiberCard_update s.vvNew slot nId nId
      rw [hslot, if_pos rfl, if_neg (Ne.symm hne), sub_zero] at hcard
      exact (congrArg (· + 1) h1).trans hcard.symm
    · change 0 < info.nRefCount + 1
      omega
  · rcases update_cases hslot' with ⟨he, -⟩ | ⟨-, hslot'⟩
    · exact he ▸ hpos
    · exact (h.vvNew_spec hl hne hslot').2

theorem leaveTried {slot : TriedSlot} (hslot : s.vvTried slot = nId) (hbare : info.addr ∈ K.bare)
    (hbare' : H.bare ⊆ K.bare) (hgap : slot ∈ K.gap) (hgap' : H.gap ⊆ K.gap) :
    Tables P K ((s.modInfo nId fun info => { info with fInTried := false }).setTried
      slot (-1)) := by
  have hne := hs.ne_neg_one hl
  obtain ⟨h1, h2, -, -, h5, h6⟩ := h.entry hl
  obtain ⟨htried, hat⟩ := h.vvTried_spec hl hne hslot
  refine h.write hs.ne_neg_one hl rfl rfl rfl rfl (fun _ _ _ _ => .rfl)
    (fun _ _ hk hk1 => update_eq_iff (hslot ▸ hk) hk1) (fun _ _ _ _ hb => hbare' hb)
    (fun slot' hk hold => ?_) ⟨h1, h2, fun _ hnot => absurd hbare hnot, nofun, h5, h6⟩
    (fun slot' hslot' => ?_) fun slot' hslot' => ?_
  · intro hslot'
    rcases update_cases hslot' with ⟨rfl, -⟩ | ⟨-, hslot'⟩
    · exact hk hgap
    · exact hold (fun hg => hk (hgap' hg)) hslot'
  · rw [(h.vvNew_spec hl hne hslot').1] at htried
    cases htried
  · rcases update_cases hslot' with ⟨-, he⟩ | ⟨he, hslot'⟩
    · exact absurd he.symm hne
    · exact absurd ((h.vvTried_spec hl hne hslot').2.symm.trans hat) he

theorem enterTried (hslot : s.vvTried (P.triedSlot info.addr) = -1) (htried : info.fInTried = false)
    (hrefs : info.nRefCount = 0) (hsuccess : 0 < info.lastSuccess)
    (hbare : ∀ a ∈ H.bare, a = info.addr ∨ a ∈ K.bare)
    (hgap : ∀ g ∈ H.gap, g = P.triedSlot info.addr ∨ g ∈ K.gap) :
    Tables P K ((s.setTried (P.triedSlot info.addr) nId).modInfo nId
      fun info => { info with fInTried := true }) := by
  have hne := hs.ne_neg_one hl
  obtain ⟨h1, h2, -, -, h5, h6⟩ := h.entry hl
  refine h.write hs.ne_neg_one hl rfl rfl rfl rfl (fun _ _ _ _ => .rfl)
    (fun _ _ hk hk1 => update_eq_iff (hslot ▸ hk1) hk)
    (fun k i hi hk hb => (hbare _ hb).resolve_left (hs.addr_ne hl hi hk)) (fun slot hk hold => ?_)
    ⟨h1, h2, nofun, fun _ => ⟨update_self _ _ _, hsuccess⟩, h5, h6⟩
    (fun slot hslot' => absurd hslot' (h.vvNew_ne hl hrefs slot)) fun slot hslot' => ⟨rfl, ?_⟩
  · intro hslot'
    rcases update_cases hslot' with ⟨-, he⟩ | ⟨he, hslot'⟩
    · exact hne he
    · exact hold (fun hg => (hgap slot hg).elim he hk) hslot'
  · rcases update_cases hslot' with ⟨he, -⟩ | ⟨-, hslot'⟩
    · exact he.symm
    · exact absurd hslot' (h.vvTried_ne hs hl htried slot)

theorem remove [DecidableEq Network] (htried : info.fInTried = false) (hrefs : info.nRefCount = 0) :
    Tables P H (s.remove P nId info.addr) := by
  have hof : ∀ {k i}, (s.remove P nId info.addr).mapInfo.lookup k = some i →
      s.mapInfo.lookup k = some i := by
    intro k i hk
    rw [lookup_remove] at hk
    split_ifs at hk
    exact hk
  have hold : ∀ {k i}, k ≠ nId → s.mapInfo.lookup k = some i →
      (s.remove P nId info.addr).mapInfo.lookup k = some i := by
    intro k i hk hi
    rw [lookup_remove, if_neg hk, hi]
  constructor
  case entry =>
    intro k i hk
    obtain ⟨h1, h2, h3, h4, h5, h6⟩ := h.entry (hof hk)
    exact ⟨h1, h2, h3, h4, h5, h6⟩
  case newSlot =>
    intro slot hslot
    obtain ⟨i, hi, hrest⟩ := h.newSlot slot hslot
    exact ⟨i, hold (h.vvNew_ne hl hrefs slot) hi, hrest⟩
  case triedSlot =>
    intro slot hslot
    obtain ⟨i, hi, hrest⟩ := h.triedSlot slot hslot
    exact ⟨i, hold (h.vvTried_ne hs hl htried slot) hi, hrest⟩
  case collisions =>
    intro k hk
    exact ⟨(h.collisions k hk).1, fun i hi => (h.collisions k hk).2 i (hof hi)⟩

end Moves

theorem create [DecidableEq Network] (h : Tables P H s) (hs : Indexed s) {addr : Address Service}
    {source : NetAddr}
    (hcount : (s.create P addr source).nIdCount = s.nIdCount + 1) (hbare : addr.addr ∈ K.bare)
    (hbare' : H.bare ⊆ K.bare) (hgap : H.gap = K.gap) : Tables P K (s.create P addr source) := by
  have hold : ∀ {k i}, s.mapInfo.lookup k = some i →
      (s.create P addr source).mapInfo.lookup k = some i := by
    intro k i hk
    rw [lookup_create, if_neg, hk]
    exact ne_of_lt (hs.ids hk).2
  constructor
  case entry =>
    intro k i hk
    rw [lookup_create] at hk
    split_ifs at hk with hk'
    · cases hk
      refine ⟨?_, by simp [newBucketsPerAddress], fun _ hnot => absurd hbare hnot, nofun,
        le_rfl, le_rfl⟩
      -- no slot holds the new identifier
      have hnone : fiberCard s.vvNew s.nIdCount = 0 := by
        refine fiberCard_eq_zero.2 fun slot he => ?_
        have hne : s.vvNew slot ≠ -1 := by
          have := hs.idCount.1
          omega
        obtain ⟨i, hi, -⟩ := h.newSlot slot hne
        rw [he, hs.fresh] at hi
        cases hi
      rw [hk']
      change 0 = (fiberCard s.vvNew s.nIdCount : ℤ)
      rw [hnone]
      rfl
    · obtain ⟨h1, h2, h3, h4, h5, h6⟩ := h.entry hk
      exact ⟨h1, h2, fun ht hnot => h3 ht fun hb => hnot (hbare' hb), h4, h5, h6⟩
  case newSlot =>
    intro slot hslot
    obtain ⟨i, hi, hrest⟩ := h.newSlot slot hslot
    exact ⟨i, hold hi, hrest⟩
  case triedSlot =>
    intro slot hslot
    obtain ⟨i, hi, hrest⟩ := h.triedSlot slot hslot
    exact ⟨i, hold hi, hrest⟩
  case collisions =>
    intro k hk
    have hlt := (h.collisions k hk).1
    refine ⟨by omega, fun i hi hnot => ?_⟩
    rw [lookup_create, if_neg (ne_of_lt hlt)] at hi
    exact (h.collisions k hk).2 i hi (hgap ▸ hnot)

end Tables

end KPCoin.AddrMan
