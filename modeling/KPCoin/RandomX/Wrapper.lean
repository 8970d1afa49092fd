import KPCoin.LTS.Basic

/-!
# The RandomX wrapper

`RandomXWrapper` (`crypto/randomx_wrapper.cpp`) owns one RandomX cache, one dataset and one
virtual machine, and rebuilds them when a hash is asked for under a new key.  The RandomX
library itself is not part of the tree; `Heap` records the objects it has handed out and not
yet taken back, and `Faults` which of its allocations succeed during one call.

A virtual machine hashes with the cache it was created on or with the dataset initialised from
it.  Hashing with a released object is undefined; the model then answers `Ret.undefined`.

* `Wrapper` is the object with its heap, `exec` one public call;
* `lts` is the wrapper driven by an arbitrary sequence of calls, the caller going on after an
  exception.
-/

namespace KPCoin.RandomX

open Function

/-- Keys and inputs are byte strings. -/
abbrev Bytes := List UInt8

/-- A RandomX cache: the key it was initialised with, if it was. -/
structure CacheObj where
  key : Option Bytes
  deriving DecidableEq, Repr

/-- A RandomX dataset: the key of the cache it was initialised from. -/
structure DatasetObj where
  key : Option Bytes
  deriving DecidableEq, Repr

/-- The flags passed to `randomx_create_vm`. -/
structure Flags where
  hardAes : Bool := false
  largePages : Bool := false
  deriving DecidableEq, Repr

/-- A virtual machine: its flags, the cache it was created on and the dataset, if any. -/
structure VmObj where
  flags : Flags
  cache : ℕ
  dataset : Option ℕ
  deriving DecidableEq, Repr

/-- The objects the library has handed out.  A released object is `none` again, and its handle
is not used a second time. -/
structure Heap where
  /-- The next handle. -/
  next : ℕ
  caches : ℕ → Option CacheObj
  datasets : ℕ → Option DatasetObj
  vms : ℕ → Option VmObj

/-- Which allocations of the library succeed during one call.  `InitVM` tries to create the
machine twice. -/
structure Faults where
  allocCache : Bool := true
  allocDataset : Bool := true
  createVm : Bool := true
  createVmRetry : Bool := true
  deriving DecidableEq, Repr

/-- The fields of `RandomXWrapper`, over the heap of the library. -/
structure Wrapper where
  heap : Heap
  cache : Option ℕ
  dataset : Option ℕ
  vm : Option ℕ
  currentKey : Bytes
  isMiningMode : Bool

/-- The wrapper after construction: nothing is allocated. -/
def Wrapper.fresh : Wrapper where
  heap := ⟨0, fun _ => none, fun _ => none, fun _ => none⟩
  cache := none
  dataset := none
  vm := none
  currentKey := []
  isMiningMode := false

/-- The wrapper as mutable state; an exception keeps the changes made before it. -/
abbrev M := EStateM String Wrapper

/-- Release the cache, if there is one. -/
def Wrapper.releaseCache (w : Wrapper) : Wrapper :=
  match w.cache with
  | none => w
  | some c => { w with
      heap := { w.heap with caches := update w.heap.caches c none }, cache := none }

/-- Release the dataset, if there is one. -/
def Wrapper.releaseDataset (w : Wrapper) : Wrapper :=
  match w.dataset with
  | none => w
  | some d => { w with
      heap := { w.heap with datasets := update w.heap.datasets d none }, dataset := none }

/-- `DestroyVM`. -/
def Wrapper.destroyVM (w : Wrapper) : Wrapper :=
  match w.vm with
  | none => w
  | some v => { w with
      heap := { w.heap with vms := update w.heap.vms v none }, vm := none }

/-- `InitCache`: the old cache goes first, and the key is stored only once the new one exists. -/
def initCache (f : Faults) (key : Bytes) : M Unit := fun w =>
  let w := w.releaseCache
  if f.allocCache then
    let c := w.heap.next
    .ok () { w with
      heap := { w.heap with
        next := c + 1, caches := update w.heap.caches c (some ⟨some key⟩) }
      cache := some c
      currentKey := key }
  else .error "RandomX: Failed to allocate cache" w

/-- The key of the current cache, which `randomx_init_dataset` reads. -/
def Wrapper.cacheKey (w : Wrapper) : Option Bytes :=
  w.cache.bind fun c => (w.heap.caches c).bind CacheObj.key

/-- `InitDataset`. -/
def initDataset (f : Faults) : M Unit := fun w =>
  let w := w.releaseDataset
  if f.allocDataset then
    let d := w.heap.next
    .ok () { w with
      heap := { w.heap with
        next := d + 1, datasets := update w.heap.datasets d (some ⟨w.cacheKey⟩) }
      dataset := some d }
  else .error "RandomX: Failed to allocate dataset" w

/-- `randomx_create_vm` on the current cache. -/
def Wrapper.createVm (w : Wrapper) (flags : Flags) (dataset : Option ℕ) : Wrapper :=
  match w.cache with
  | none => w
  | some c =>
    let v := w.heap.next
    { w with
      heap := { w.heap with
        next := v + 1, vms := update w.heap.vms v (some ⟨flags, c, dataset⟩) }
      vm := some v }

/-- `InitVM`: with the dataset in full-memory mode, else on the cache alone.  A first failure is
retried with fewer flags. -/
def initVM (f : Faults) (fullMem : Bool) : M Unit := fun w =>
  let w := w.destroyVM
  let flags : Flags := { hardAes := true, largePages := true }
  let dataset := if fullMem then w.dataset else none
  let retry : Flags := if dataset.isSome then { flags with largePages := false } else {}
  if f.createVm then .ok () (w.createVm flags dataset)
  else if f.createVmRetry then .ok () (w.createVm retry dataset)
  else .error "RandomX: Failed to create VM" w

/-- `NeedsKeyChange`. -/
def Wrapper.needsKeyChange (w : Wrapper) (key : Bytes) : Bool := !decide (w.currentKey = key)

/-- The sequence `InitCache`, `InitDataset` (in full-memory mode only), `InitVM` by which every
public call moves to a new key. -/
def rebuild (f : Faults) (key : Bytes) (fullMem : Bool) : M Unit := do
  initCache f key
  if fullMem then
    initDataset f
    initVM f true
  else initVM f false

/-- Move to `key` and remember the mode. -/
def initMode (f : Faults) (key : Bytes) (mining : Bool) : M Unit := do
  rebuild f key mining
  modify fun w => { w with isMiningMode := mining }

/-- `InitMiningMode`. -/
def initMiningMode (f : Faults) (key : Bytes) : M Unit := initMode f key true

/-- `InitVerifyMode`. -/
def initVerifyMode (f : Faults) (key : Bytes) : M Unit := initMode f key false

/-- `Cleanup`. -/
def cleanup : M Unit :=
  modify fun w =>
    { w.destroyVM.releaseDataset.releaseCache with currentKey := [], isMiningMode := false }

/-- What a call returns: nothing, a hash, or whatever a machine computes from memory that has
been released. -/
inductive Ret (H : Type) where
  | unit
  | digest (h : H)
  | undefined
  deriving DecidableEq, Repr

variable {H : Type} (rx : Bytes → Bytes → H)

/-- `randomx_calculate_hash`: the machine reads its dataset, or its cache if it has none. -/
def Heap.calculateHash (h : Heap) (v : ℕ) (input : Bytes) : Ret H :=
  let key := (h.vms v).bind fun vm =>
    match vm.dataset with
    | some d => (h.datasets d).bind DatasetObj.key
    | none => (h.caches vm.cache).bind CacheObj.key
  match key with
  | some k => .digest (rx k input)
  | none => .undefined

/-- Hash with the current machine. -/
def Wrapper.hashNow (w : Wrapper) (input : Bytes) : Ret H :=
  match w.vm with
  | some v => w.heap.calculateHash rx v input
  | none => .undefined

/-- The body shared by `Hash` and `LightHash`: rebuild if there is no machine or the key is a new
one, then hash.  `fullMem` says whether a rebuild allocates a dataset. -/
def hashWith (f : Faults) (input key : Bytes) (fullMem : Wrapper → Bool) : M (Ret H) := do
  let w ← get
  if w.vm.isNone || w.needsKeyChange key then
    rebuild f key (fullMem w)
  return (← get).hashNow rx input

/-- `Hash`. -/
def hash (f : Faults) (input key : Bytes) : M (Ret H) :=
  hashWith rx f input key Wrapper.isMiningMode

/-- `LightHash`. -/
def lightHash (f : Faults) (input key : Bytes) : M (Ret H) :=
  hashWith rx f input key fun _ => false

/-- A call on the wrapper. -/
inductive Call where
  | hash (input key : Bytes)
  | lightHash (input key : Bytes)
  | initMiningMode (key : Bytes)
  | initVerifyMode (key : Bytes)
  | cleanup
  deriving DecidableEq, Repr

/-- One public call. -/
def exec (f : Faults) : Call → M (Ret H)
  | .hash input key => hash rx f input key
  | .lightHash input key => lightHash rx f input key
  | .initMiningMode key => do initMiningMode f key; return .unit
  | .initVerifyMode key => do initVerifyMode f key; return .unit
  | .cleanup => do cleanup; return .unit

/-- The wrapper a call leaves behind, whether it returned or threw. -/
def after {α : Type} (r : EStateM.Result String Wrapper α) : Wrapper :=
  match r with
  | .ok _ w => w
  | .error _ w => w

/-- The wrapper under arbitrary calls and allocation failures. -/
def lts : LTS Wrapper (Call × Faults) where
  init w := w = .fresh
  step w l w' := w' = after (exec rx l.2 l.1 w)

end KPCoin.RandomX
