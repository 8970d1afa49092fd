import KPCoin.RandomX.Wrapper

/-!
# Which key the RandomX wrapper hashes under

The key, the cache, the dataset and the machine are four separately updated fields, and `hash`
decides from the machine and the stored key alone whether to rebuild.  This is sound as long as
`Keyed` holds: an existing machine was created on a live cache initialised with the stored key.

`rebuild` replaces the cache before it destroys the machine.  If the library then fails to
allocate the cache or the dataset, the machine survives on a cache that is gone, and the next
hash under the stored key uses it (`hash_after_failed_key_change`).  When no such failure happens
while a machine exists, every hash is computed under the requested key
(`hash_under_requested_key`); failures of `randomx_create_vm`, and any failure while there is no
machine, are harmless.
-/

namespace KPCoin.RandomX

open Wrapper

variable {H : Type} {rx : Bytes → Bytes → H}

/-- The machine of `w` exists, and its cache is live and was initialised with `key`. -/
def VmOn (w : Wrapper) (key : Bytes) : Prop :=
  ∃ v vm, w.vm = some v ∧ w.heap.vms v = some vm ∧ w.heap.caches vm.cache = some ⟨some key⟩

/-- The invariant: a machine was created on the current cache, which is live, and possibly on a
live dataset, both with the stored key. -/
def Keyed (w : Wrapper) : Prop :=
  ∀ v, w.vm = some v → ∃ vm, w.heap.vms v = some vm ∧ w.cache = some vm.cache ∧
    w.heap.caches vm.cache = some ⟨some w.currentKey⟩ ∧
      ∀ d, vm.dataset = some d → w.heap.datasets d = some ⟨some w.currentKey⟩

/-- The current cache exists and was initialised with the stored key `key`. -/
def CacheReady (w : Wrapper) (key : Bytes) : Prop :=
  w.currentKey = key ∧ ∃ c, w.cache = some c ∧ w.heap.caches c = some ⟨some key⟩

/-- The handle of the current cache has been handed out. -/
def Fresh (w : Wrapper) : Prop := ∀ c, w.cache = some c → c < w.heap.next

/-- A machine is keyed, and the next cache will be another one than its own. -/
def Wrapper.Sound (w : Wrapper) : Prop := Keyed w ∧ (w.vm ≠ none → Fresh w)

variable {w : Wrapper} {key : Bytes} {f : Faults}

theorem Wrapper.sound_of_vm_none (h : w.vm = none) : w.Sound := by
  refine ⟨fun v hv => ?_, absurd h⟩
  rw [h] at hv
  cases hv

variable (rx) in
theorem Keyed.hashNow (h : Keyed w) (hv : w.vm ≠ none) (input : Bytes) :
    w.hashNow rx input = .digest (rx w.currentKey input) ∧ VmOn w w.currentKey := by
  obtain ⟨v, hv⟩ := Option.ne_none_iff_exists'.1 hv
  obtain ⟨vm, hvm, -, hc, hd⟩ := h v hv
  refine ⟨?_, v, vm, hv, hvm, hc⟩
  simp only [Wrapper.hashNow, hv, Heap.calculateHash, hvm, Option.bind_some]
  cases hds : vm.dataset with
  | none => simp [hc]
  | some d => simp [hd d hds]

@[simp] theorem releaseCache_vm (w : Wrapper) : w.releaseCache.vm = w.vm := by
  unfold releaseCache; split <;> rfl

@[simp] theorem releaseDataset_vm (w : Wrapper) : w.releaseDataset.vm = w.vm := by
  unfold releaseDataset; split <;> rfl

@[simp] theorem destroyVM_vm (w : Wrapper) : w.destroyVM.vm = none := by
  unfold destroyVM; split
  · assumption
  · rfl

@[simp] theorem destroyVM_dataset (w : Wrapper) : w.destroyVM.dataset = w.dataset := by
  unfold destroyVM; split <;> rfl

@[simp] theorem destroyVM_datasets (w : Wrapper) : w.destroyVM.heap.datasets = w.heap.datasets := by
  unfold destroyVM; split <;> rfl

theorem CacheReady.releaseDataset (h : CacheReady w key) : CacheReady w.releaseDataset key := by
  unfold Wrapper.releaseDataset; split
  · exact h
  · exact h

theorem CacheReady.destroyVM (h : CacheReady w key) : CacheReady w.destroyVM key := by
  unfold Wrapper.destroyVM; split
  · exact h
  · exact h

theorem Fresh.releaseDataset (h : Fresh w) : Fresh w.releaseDataset := by
  unfold Wrapper.releaseDataset; split <;> exact h

theorem Fresh.destroyVM (h : Fresh w) : Fresh w.destroyVM := by
  unfold Wrapper.destroyVM; split <;> exact h

theorem initCache_cases (f : Faults) (key : Bytes) (w : Wrapper) :
    (∃ w', initCache f key w = .ok () w' ∧ CacheReady w' key ∧ Fresh w') ∨
      f.allocCache = false ∧ ∃ e w', initCache f key w = .error e w' ∧ w'.vm = w.vm := by
  unfold initCache
  split_ifs with hf
  · refine .inl ⟨_, rfl, ⟨rfl, _, rfl, by simp⟩, fun c hc => ?_⟩
    cases hc
    exact Nat.lt_succ_self _
  · exact .inr ⟨by simpa using hf, _, _, rfl, by simp⟩

theorem initCache_vm {w' : Wrapper} (h : initCache f key w = .ok () w') : w'.vm = w.vm := by
  unfold initCache at h
  split_ifs at h
  cases h
  simp

theorem initDataset_cases (f : Faults) (h : CacheReady w key) (hfresh : Fresh w) :
    (∃ w' d, initDataset f w = .ok () w' ∧ CacheReady w' key ∧ Fresh w' ∧ w'.dataset = some d ∧
        w'.heap.datasets d = some ⟨some key⟩) ∨
      f.allocDataset = false ∧ ∃ e w', initDataset f w = .error e w' ∧ w'.vm = w.vm := by
  unfold initDataset
  split_ifs with hf
  · obtain ⟨hk, c, hc, hcache⟩ := h.releaseDataset
    refine .inl ⟨_, _, rfl, ⟨hk, c, hc, hcache⟩,
      fun c hc => Nat.lt_succ_of_lt (hfresh.releaseDataset c hc), rfl, ?_⟩
    simp [cacheKey, hc, hcache]
  · exact .inr ⟨by simpa using hf, _, _, rfl, by simp⟩

theorem CacheReady.createVm (h : CacheReady w key) (hfresh : Fresh w) (flags : Flags)
    {dataset : Option ℕ} (hd : ∀ d, dataset = some d → w.heap.datasets d = some ⟨some key⟩) :
    Keyed (w.createVm flags dataset) ∧ Fresh (w.createVm flags dataset) ∧
      (w.createVm flags dataset).currentKey = key ∧ (w.createVm flags dataset).vm ≠ none := by
  obtain ⟨hk, c, hc, hcache⟩ := h
  simp only [Wrapper.createVm, hc]
  refine ⟨fun v hv => ?_, fun c hc => Nat.lt_succ_of_lt (hfresh c (by simp_all)), hk, by simp⟩
  obtain rfl : w.heap.next = v := by simpa using hv
  refine ⟨⟨flags, c, dataset⟩, by simp, rfl, by simp [hcache, hk], fun d hds => ?_⟩
  simpa [hk] using hd d hds

/-- `InitVM` gives a keyed machine, or none at all: the old one is gone first. -/
theorem initVM_cases (f : Faults) (fullMem : Bool) (h : CacheReady w key) (hfresh : Fresh w)
    (hd : fullMem = true → ∀ d, w.dataset = some d → w.heap.datasets d = some ⟨some key⟩) :
    (∃ w', initVM f fullMem w = .ok () w' ∧ Keyed w' ∧ Fresh w' ∧ w'.currentKey = key ∧
        w'.vm ≠ none) ∨
      ∃ e w', initVM f fullMem w = .error e w' ∧ w'.vm = none := by
  have hready := h.destroyVM
  have hds : ∀ d, (if fullMem then w.destroyVM.dataset else none) = some d →
      w.destroyVM.heap.datasets d = some ⟨some key⟩ := by
    intro d hdd
    cases fullMem with
    | false => simp at hdd
    | true => simpa using hd rfl d (by simpa using hdd)
  unfold initVM
  cases f.createVm with
  | true => exact .inl ⟨_, if_pos rfl, hready.createVm hfresh.destroyVM _ hds⟩
  | false =>
    cases f.createVmRetry with
    | true => exact .inl ⟨_, rfl, hready.createVm hfresh.destroyVM _ hds⟩
    | false => exact .inr ⟨_, _, rfl, by simp⟩

/-- A rebuild leaves a keyed machine, no machine, or (after a failed allocation) the old one. -/
theorem rebuild_cases (f : Faults) (key : Bytes) (fullMem : Bool) (w : Wrapper) :
    (∃ w', rebuild f key fullMem w = .ok () w' ∧ Keyed w' ∧ Fresh w' ∧ w'.currentKey = key ∧
        w'.vm ≠ none) ∨
      ∃ e w', rebuild f key fullMem w = .error e w' ∧ (w'.vm = none ∨ w'.vm = w.vm ∧
        (f.allocCache = false ∨ fullMem = true ∧ f.allocDataset = false)) := by
  simp only [rebuild, bind, EStateM.bind]
  obtain ⟨w1, h1, hready, hfresh⟩ | ⟨hf, e, w1, h1, hvm⟩ := initCache_cases f key w
  · have hvm1 := initCache_vm h1
    simp only [h1]
    cases fullMem with
    | false =>
      obtain ⟨w2, h2, hres⟩ | ⟨e, w2, h2, hnone⟩ := initVM_cases f false hready hfresh (by simp)
      · exact .inl ⟨w2, h2, hres⟩
      · exact .inr ⟨e, w2, h2, .inl hnone⟩
    | true =>
      simp only [if_true]
      obtain ⟨w2, d, h2, hready2, hfresh2, hd, hdk⟩ | ⟨hf, e, w2, h2, hvm2⟩ :=
        initDataset_cases f hready hfresh
      · simp only [EStateM.bind, h2]
        obtain ⟨w3, h3, hres⟩ | ⟨e, w3, h3, hnone⟩ := initVM_cases f true hready2 hfresh2
          (by intro _ d' hd'; rw [hd] at hd'; cases hd'; exact hdk)
        · exact .inl ⟨w3, h3, hres⟩
        · exact .inr ⟨e, w3, h3, .inl hnone⟩
      · exact .inr ⟨e, w2, by simp [EStateM.bind, h2], .inr ⟨hvm2.trans hvm1, .inr ⟨trivial, hf⟩⟩⟩
  · exact .inr ⟨e, w1, by simp [h1], .inr ⟨hvm, .inl hf⟩⟩

/-- The call `c` replaces the cache of `w`. -/
def Wrapper.rebuilds (w : Wrapper) : Call → Bool
  | .hash _ key => w.vm.isNone || w.needsKeyChange key
  | .lightHash _ key => w.vm.isNone || w.needsKeyChange key
  | .initMiningMode _ => true
  | .initVerifyMode _ => true
  | .cleanup => false

/-- The call `c` also allocates a dataset when it rebuilds. -/
def Wrapper.fullMem (w : Wrapper) : Call → Bool
  | .hash _ _ => w.isMiningMode
  | .initMiningMode _ => true
  | _ => false

/-- If the call rebuilds while a machine exists, its cache allocation and (in full-memory mode)
its dataset allocation succeed. -/
def AllocOk (w : Wrapper) (l : Call × Faults) : Prop :=
  w.vm ≠ none → w.rebuilds l.1 = true →
    l.2.allocCache = true ∧ (w.fullMem l.1 = true → l.2.allocDataset = true)

/-- Every `Hash` or `LightHash` call on `w` that returns a value returns the hash under the
requested key, computed by a machine whose cache is live and was initialised with it. -/
def HashesUnderKey (rx : Bytes → Bytes → H) (w : Wrapper) : Prop :=
  ∀ (f : Faults) (c : Call) (input key : Bytes) (r : Ret H) (w' : Wrapper),
    c = .hash input key ∨ c = .lightHash input key → exec rx f c w = .ok r w' →
      r = .digest (rx key input) ∧ VmOn w' key

theorem hashWith_cases (f : Faults) (input key : Bytes) (fullMem : Wrapper → Bool) (w : Wrapper) :
    hashWith rx f input key fullMem w =
      if w.vm.isNone || w.needsKeyChange key then
        match rebuild f key (fullMem w) w with
        | .ok _ w' => .ok (w'.hashNow rx input) w'
        | .error e w' => .error e w'
      else .ok (w.hashNow rx input) w := by
  simp only [hashWith, bind, EStateM.bind, get, getThe, MonadStateOf.get, EStateM.get, pure]
  split_ifs
  · cases h : rebuild f key (fullMem w) w <;> simp [EStateM.bind, h, EStateM.get, EStateM.pure]
  · rfl

variable (rx) in
/-- `hashWith` on a keyed wrapper: the value is right if there is one, and the invariant stays
unless an allocation failed under a machine. -/
theorem hashWith_spec (hw : w.Sound) (f : Faults) (input key : Bytes) (fullMem : Wrapper → Bool) :
    (∃ w', hashWith rx f input key fullMem w = .ok (.digest (rx key input)) w' ∧ VmOn w' key ∧
        w'.Sound) ∨
      ∃ e w', hashWith rx f input key fullMem w = .error e w' ∧ (w'.vm = none ∨
        w'.vm = w.vm ∧ (f.allocCache = false ∨ fullMem w = true ∧ f.allocDataset = false)) := by
  rw [hashWith_cases]
  split_ifs with hc
  · obtain ⟨w', h, hk, hfresh, hkey, hvm⟩ | ⟨e, w', h, hvm⟩ := rebuild_cases f key (fullMem w) w
    · obtain ⟨hd, hon⟩ := hk.hashNow rx hvm input
      rw [hkey] at hd hon
      exact .inl ⟨w', by simp [h, hd], hon, hk, fun _ => hfresh⟩
    · exact .inr ⟨e, w', by simp [h], hvm⟩
  · simp only [needsKeyChange, Bool.or_eq_true, Bool.not_eq_true', decide_eq_false_iff_not,
      not_or, not_not] at hc
    obtain ⟨hvm, rfl⟩ := hc
    obtain ⟨hd, hon⟩ := hw.1.hashNow rx (by simpa using hvm) input
    exact .inl ⟨w, by rw [hd], hon, hw⟩

theorem initMode_spec (f : Faults) (key : Bytes) (mining : Bool) (w : Wrapper) :
    (∃ w', initMode f key mining w = .ok () w' ∧ w'.Sound) ∨
      ∃ e w', initMode f key mining w = .error e w' ∧ (w'.vm = none ∨ w'.vm = w.vm ∧
        (f.allocCache = false ∨ mining = true ∧ f.allocDataset = false)) := by
  simp only [initMode, bind, EStateM.bind]
  obtain ⟨w', h, hk, hfresh, -⟩ | ⟨e, w', h, hvm⟩ := rebuild_cases f key mining w
  · exact .inl ⟨{ w' with isMiningMode := mining }, by simp only [h]; rfl, hk, fun _ => hfresh⟩
  · exact .inr ⟨e, w', by simp [h], hvm⟩

/-- A call that threw left no machine, or the old one after a failed allocation; under `AllocOk`
the second happens only if there was none. -/
theorem Wrapper.sound_of_failed {u : Wrapper} {full : Bool}
    (hok : w.vm ≠ none → f.allocCache = true ∧ (full = true → f.allocDataset = true))
    (hu : u.vm = none ∨ u.vm = w.vm ∧
      (f.allocCache = false ∨ full = true ∧ f.allocDataset = false)) : u.Sound := by
  refine sound_of_vm_none ?_
  rcases hu with hu | ⟨hu, hf⟩
  · exact hu
  · by_contra hne
    obtain ⟨h1, h2⟩ := hok (hu ▸ hne)
    rcases hf with hf | ⟨hfull, hf⟩
    · simp [h1] at hf
    · simp [h2 hfull] at hf

theorem Wrapper.Sound.hashWith {input : Bytes} {fullMem : Wrapper → Bool}
    (hw : w.Sound)
    (hok : w.vm ≠ none → (w.vm.isNone || w.needsKeyChange key) = true →
      f.allocCache = true ∧ (fullMem w = true → f.allocDataset = true)) :
    (after (RandomX.hashWith rx f input key fullMem w)).Sound := by
  by_cases hc : (w.vm.isNone || w.needsKeyChange key) = true
  · obtain ⟨w', h, -, hk⟩ | ⟨e, w', h, hu⟩ := hashWith_spec rx hw f input key fullMem
    · rw [h]; exact hk
    · rw [h]; exact sound_of_failed (fun hvm => hok hvm hc) hu
  · rw [hashWith_cases, if_neg hc]
    exact hw

theorem Wrapper.sound_initMode {mining : Bool}
    (hok : w.vm ≠ none → f.allocCache = true ∧ (mining = true → f.allocDataset = true)) :
    (after ((do RandomX.initMode f key mining; return .unit : M (Ret H)) w)).Sound := by
  simp only [bind, EStateM.bind, pure]
  obtain ⟨w', h, hk⟩ | ⟨e, w', h, hu⟩ := initMode_spec f key mining w
  · simp only [h]; exact hk
  · simp only [h]; exact sound_of_failed hok hu

/-- **One call keeps the invariant**, if no allocation fails under a machine. -/
theorem Wrapper.Sound.step {w' : Wrapper} {l : Call × Faults} (hw : w.Sound) (hl : AllocOk w l)
    (h : (lts rx).step w l w') : w'.Sound := by
  obtain ⟨c, f⟩ := l
  subst h
  cases c with
  | hash input key => exact hw.hashWith hl
  | lightHash input key => exact hw.hashWith hl
  | initMiningMode key => exact sound_initMode fun hvm => hl hvm rfl
  | initVerifyMode key => exact sound_initMode fun hvm => hl hvm rfl
  | cleanup => exact sound_of_vm_none (by simp [after, exec, cleanup, bind, EStateM.bind, modify,
      modifyGet, MonadStateOf.modifyGet, EStateM.modifyGet, pure, EStateM.pure])

/-- The machine exists but its cache has been released. -/
def Stale (w : Wrapper) : Prop :=
  ∃ v vm, w.vm = some v ∧ w.heap.vms v = some vm ∧ w.heap.caches vm.cache = none

theorem Keyed.stale {u : Wrapper} {v : ℕ} (hw : Keyed w) (hv : w.vm = some v)
    (hvm : u.vm = w.vm) (hvms : u.heap.vms = w.heap.vms)
    (hc : ∀ c, w.cache = some c → u.heap.caches c = none) : Stale u := by
  obtain ⟨vm, h, hcache, -⟩ := hw v hv
  exact ⟨v, vm, hvm.trans hv, hvms ▸ h, hc _ hcache⟩

theorem releaseCache_caches {c : ℕ} (h : w.cache = some c) :
    w.releaseCache.heap.caches c = none := by
  simp [releaseCache, h]

/-- A rebuild under a machine whose cache or dataset allocation fails leaves a stale machine. -/
theorem rebuild_stale {full : Bool} (hw : w.Sound) (hvm : w.vm ≠ none)
    (hf : f.allocCache = false ∨ full = true ∧ f.allocDataset = false) :
    ∃ e u, rebuild f key full w = .error e u ∧ Stale u := by
  obtain ⟨v, hv⟩ := Option.ne_none_iff_exists'.1 hvm
  have hvms : w.releaseCache.heap.vms = w.heap.vms := by
    unfold releaseCache; split <;> rfl
  have hnext : w.releaseCache.heap.next = w.heap.next := by
    unfold releaseCache; split <;> rfl
  cases hca : f.allocCache with
  | false =>
    refine ⟨"RandomX: Failed to allocate cache", w.releaseCache, ?_, ?_⟩
    · simp [rebuild, Bind.bind, EStateM.bind, initCache, hca]
    · exact hw.1.stale hv (by simp) hvms fun c hc => releaseCache_caches hc
  | true =>
    obtain ⟨rfl, hda⟩ : full = true ∧ f.allocDataset = false := by simpa [hca] using hf
    -- the new cache has another handle than the released one
    set u := ({ w.releaseCache with
      heap := { w.releaseCache.heap with
        next := w.releaseCache.heap.next + 1
        caches := Function.update w.releaseCache.heap.caches w.releaseCache.heap.next
          (some ⟨some key⟩) }
      cache := some w.releaseCache.heap.next
      currentKey := key } : Wrapper) with hu
    have huvms : u.releaseDataset.heap.vms = w.heap.vms := by
      rw [← hvms]; unfold releaseDataset; split <;> rfl
    have hucaches : u.releaseDataset.heap.caches = u.heap.caches := by
      unfold releaseDataset; split <;> rfl
    refine ⟨"RandomX: Failed to allocate dataset", u.releaseDataset, ?_, ?_⟩
    · simp [rebuild, Bind.bind, EStateM.bind, initCache, initDataset, hca, hda, hu]
    · refine hw.1.stale hv (by simp [hu]) huvms fun c hc => ?_
      have hlt := hw.2 hvm c hc
      rw [hucaches, hu]
      simp only [Function.update_apply, hnext]
      rw [if_neg (by omega)]
      exact releaseCache_caches hc

/-- A stale machine answers the next hash under the stored key. -/
theorem Stale.not_hashesUnderKey (h : Stale w) : ¬ HashesUnderKey rx w := by
  intro hh
  obtain ⟨v, vm, hv, hvm, hc⟩ := h
  have hret : exec rx {} (.hash [] w.currentKey) w = .ok (w.hashNow rx []) w := by
    change hashWith rx {} [] w.currentKey isMiningMode w = _
    rw [hashWith_cases, if_neg (by simp [hv, needsKeyChange])]
  obtain ⟨-, v', vm', hv', hvm', hc'⟩ := hh {} _ [] w.currentKey _ _ (.inl rfl) hret
  obtain rfl : v = v' := by simpa [hv] using hv'
  obtain rfl : vm = vm' := by simpa [hvm] using hvm'
  simp [hc] at hc'

theorem after_hashWith_of_error {u : Wrapper} {input k : Bytes}
    (fullMem : Wrapper → Bool) {e : String} (hc : (w.vm.isNone || w.needsKeyChange k) = true)
    (h : rebuild f k (fullMem w) w = .error e u) : after (hashWith rx f input k fullMem w) = u := by
  rw [hashWith_cases, if_pos hc, h]
  rfl

theorem after_initMode_of_error {u : Wrapper} {k : Bytes} {mining : Bool}
    {e : String} (h : rebuild f k mining w = .error e u) :
    after ((do initMode f k mining; return .unit : M (Ret H)) w) = u := by
  simp only [initMode, Bind.bind, EStateM.bind, h]
  rfl

theorem stale_of_not_allocOk {l : Call × Faults} (hw : w.Sound) (hl : ¬ AllocOk w l) :
    Stale (after (exec rx l.2 l.1 w)) := by
  obtain ⟨c, f⟩ := l
  simp only [AllocOk, Classical.not_imp, not_and_or, Bool.not_eq_true] at hl
  obtain ⟨hvm, hre, hf⟩ := hl
  have hfail : ∀ k full, w.fullMem c = full →
      ∃ e u, rebuild f k full w = .error e u ∧ Stale u := by
    rintro k full rfl
    exact rebuild_stale hw hvm hf
  cases c with
  | hash input k =>
    obtain ⟨e, u, hu, hst⟩ := hfail k w.isMiningMode rfl
    exact (after_hashWith_of_error isMiningMode hre hu).symm ▸ hst
  | lightHash input k =>
    obtain ⟨e, u, hu, hst⟩ := hfail k false rfl
    exact (after_hashWith_of_error (fun _ => false) hre hu).symm ▸ hst
  | initMiningMode k =>
    obtain ⟨e, u, hu, hst⟩ := hfail k true rfl
    exact (after_initMode_of_error hu).symm ▸ hst
  | initVerifyMode k =>
    obtain ⟨e, u, hu, hst⟩ := hfail k false rfl
    exact (after_initMode_of_error hu).symm ▸ hst
  | cleanup => simp [rebuilds] at hre

theorem sound_of_reachable (h : ((lts rx).restrict AllocOk).Reachable w) : w.Sound := by
  refine h.invariant ?_ ?_
  · rintro w rfl
    exact sound_of_vm_none rfl
  · rintro w l w' hw ⟨hst, hok⟩
    exact hw.step hok hst

/-- **The wrapper hashes under the requested key** in every run in which no cache or dataset
allocation fails while a machine exists.  A single such failure is enough to break it. -/
theorem hash_under_requested_key :
    (∀ w, ((lts rx).restrict AllocOk).Reachable w → HashesUnderKey rx w) ∧
      ∀ w l, ((lts rx).restrict AllocOk).Reachable w → ¬ AllocOk w l →
        ¬ HashesUnderKey rx (after (exec rx l.2 l.1 w)) := by
  constructor
  · intro w hw f c input key r w' hc h
    have hspec : ∀ full, hashWith rx f input key full w = .ok r w' →
        r = .digest (rx key input) ∧ VmOn w' key := by
      intro full h
      obtain ⟨u, hu, hon, -⟩ | ⟨e, u, hu, -⟩ :=
        hashWith_spec rx (sound_of_reachable hw) f input key full
      · rw [hu] at h; cases h; exact ⟨rfl, hon⟩
      · rw [hu] at h; cases h
    rcases hc with rfl | rfl
    · exact hspec _ h
    · exact hspec _ h
  · intro w l hw hl
    exact (stale_of_not_allocOk (sound_of_reachable hw) hl).not_hashesUnderKey

/-- A cache allocation fails during a key change, the caller goes on, and the next hash under the
old key reads the released cache. -/
theorem hash_after_failed_key_change :
    let s₁ := after (exec (fun k i => k ++ i) {} (.initVerifyMode [1]) .fresh)
    let s₂ := after (exec (fun k i => k ++ i) { allocCache := false } (.lightHash [7] [2]) s₁)
    (lts fun k i : Bytes => k ++ i).Reachable s₂ ∧
      exec (fun k i => k ++ i) {} (.hash [7] [1]) s₂ = .ok .undefined s₂ ∧
        ¬ HashesUnderKey (fun k i => k ++ i) s₂ := by
  intro s₁ s₂
  have h₁ : (lts fun k i : Bytes => k ++ i).Reachable s₁ :=
    (LTS.Reachable.start rfl).tail (l := (.initVerifyMode [1], {})) rfl
  have hret : exec (fun k i => k ++ i) {} (.hash [7] [1]) s₂ = .ok .undefined s₂ := rfl
  refine ⟨h₁.tail (l := (.lightHash [7] [2], { allocCache := false })) rfl, hret, fun h => ?_⟩
  have := (h {} _ [7] [1] _ _ (.inl rfl) hret).1
  cases this

end KPCoin.RandomX
