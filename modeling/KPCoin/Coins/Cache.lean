import KPCoin.Data.Map
import KPCoin.Primitives.Transaction

/-!
# One layer of the coins cache

`CCoinsViewCache` (`coins.cpp`) keeps a map from outpoints to entries, each a coin with the flags
DIRTY (differs from the parent) and FRESH (the parent has no unspent coin here), and a running
total of the memory its coins use.  This module has the operations of a single layer.  An
operation that may have to ask the view below takes the answer of that view as an argument; the
stack of layers is in `KPCoin.Coins.View`.

* `Cache.fetchCoin`, `Cache.spendCoin`, `Cache.addCoin`, `Cache.batchWrite`, `Cache.uncache`,
  `Cache.clearFlags` (the loop of `Sync`) and `Cache.emplaceCoinInternalDANGER` follow the source;
* `Cache.set` and `Cache.drop` are the two changes all of them are made of, and the lemmas
  `fetchCoin_eq`, `addCoin_eq`, `spendCoin_eq`, `batchWriteEntry_eq` say so.
-/

namespace KPCoin.Coins

/-- `Coin`: an unspent output with the height and kind of its transaction. -/
structure Coin where
  out : TxOut := .null
  fCoinBase : Bool := false
  nHeight : ℕ := 0
  deriving DecidableEq, Repr

namespace Coin

/-- `IsSpent`. -/
def isSpent (c : Coin) : Bool := c.out.isNull

/-- `Clear`. -/
def clear (_ : Coin) : Coin := {}

/-- The capacity of the script of a copy.  Scripts are `prevector<28, uint8_t>`: up to 28 bytes are
stored in place. -/
def copyCapacity (c : Coin) : ℕ := max 28 c.out.scriptPubKey.length

/-- The coin an entry shows: a spent one shows nothing. -/
def unspent (c : Coin) : Option Coin := if c.isSpent then none else some c

@[simp] theorem isSpent_clear (c : Coin) : c.clear.isSpent = true := rfl

@[simp] theorem isSpent_empty : ({} : Coin).isSpent = true := rfl

theorem unspent_of_isSpent {c : Coin} (h : c.isSpent = true) : c.unspent = none := if_pos h

theorem unspent_of_not_isSpent {c : Coin} (h : c.isSpent = false) : c.unspent = some c := by
  simp [unspent, h]

end Coin

/-- `CCoinsCacheEntry`. -/
structure CacheEntry where
  coin : Coin := {}
  /-- `capacity()` of the coin's script, which may be more than its bytes need. -/
  capacity : ℕ := 28
  dirty : Bool := false
  fresh : Bool := false
  deriving DecidableEq, Repr

/-- `DynamicMemoryUsage` of a coin whose script has this capacity. -/
def dynamicMemoryUsage (F : ScriptFns) (capacity : ℕ) : BitVec 64 :=
  F.mallocUsage (if capacity ≤ 28 then 0 else capacity)

@[simp] theorem dynamicMemoryUsage_direct (F : ScriptFns) : dynamicMemoryUsage F 28 = 0 :=
  F.mallocUsage_zero

/-- `DynamicMemoryUsage` of the coin of an entry. -/
def CacheEntry.usage (F : ScriptFns) (e : CacheEntry) : BitVec 64 := dynamicMemoryUsage F e.capacity

/-- `CCoinsMap`. -/
abbrev CoinsMap := Map OutPoint CacheEntry

/-- The fields of `CCoinsViewCache`, apart from the view below. -/
@[ext] structure Cache where
  cacheCoins : CoinsMap := ∅
  cachedCoinsUsage : BitVec 64 := 0
  hashBlock : Uint256 := 0

/-- How an operation ends other than by returning: an `assert` fails and the process is gone, or
a `logic_error` is thrown, which the caller may catch. -/
inductive Fault
  | abort
  | logicError (what : String)
  deriving DecidableEq, Repr

/-- A layer as mutable state; an exception keeps the changes made before it. -/
abbrev M := EStateM Fault Cache

/-- The message thrown by `AddCoin`. -/
def overwriteError : Fault :=
  .logicError "Attempted to overwrite an unspent coin (when possible_overwrite is false)"

/-- The message thrown by `BatchWrite`. -/
def freshMisapplied : Fault :=
  .logicError "FRESH flag misapplied to coin that exists in parent cache"

namespace Cache

variable (F : ScriptFns)

/-- `FetchCoin`, where `base` is the answer of `base->GetCoin`. -/
def fetchCoin (c : Cache) (o : OutPoint) (base : Option Coin) : Option CacheEntry × Cache :=
  match c.cacheCoins.lookup o with
  | some e => (some e, c)
  | none =>
    match base with
    | none => (none, c)
    | some tmp =>
      let e : CacheEntry := { coin := tmp, capacity := tmp.copyCapacity, fresh := tmp.isSpent }
      (some e, { c with
        cacheCoins := c.cacheCoins.insert o e
        cachedCoinsUsage := c.cachedCoinsUsage + e.usage F })

/-- `AddCoin`, of a coin whose script has this capacity. -/
def addCoin (o : OutPoint) (coin : Coin) (capacity : ℕ) (possibleOverwrite : Bool) : M Unit :=
  fun c =>
  if coin.isSpent then .error .abort c
  else if F.isUnspendable coin.out.scriptPubKey then .ok () c
  else
    let inserted := (c.cacheCoins.lookup o).isNone
    let e := (c.cacheCoins.lookup o).getD {}
    let c := if inserted then { c with cacheCoins := c.cacheCoins.insert o e } else
      { c with cachedCoinsUsage := c.cachedCoinsUsage - e.usage F }
    if !possibleOverwrite && !e.coin.isSpent then .error overwriteError c
    else
      let fresh := !possibleOverwrite && !e.dirty
      let e : CacheEntry := { coin, capacity, dirty := true, fresh := e.fresh || fresh }
      .ok () { c with
        cacheCoins := c.cacheCoins.insert o e
        cachedCoinsUsage := c.cachedCoinsUsage + e.usage F }

/-- `EmplaceCoinInternalDANGER`: nothing is stored when the key exists. -/
def emplaceCoinInternalDANGER (c : Cache) (o : OutPoint) (coin : Coin) (capacity : ℕ) : Cache :=
  let c := { c with cachedCoinsUsage := c.cachedCoinsUsage + dynamicMemoryUsage F capacity }
  match c.cacheCoins.lookup o with
  | some _ => c
  | none => { c with cacheCoins := c.cacheCoins.insert o { coin, capacity, dirty := true } }

/-- `SpendCoin`: the coin moved out, if there was an entry. -/
def spendCoin (c : Cache) (o : OutPoint) (base : Option Coin) : Option Coin × Cache :=
  match c.fetchCoin F o base with
  | (none, c) => (none, c)
  | (some e, c) =>
    let c := { c with cachedCoinsUsage := c.cachedCoinsUsage - e.usage F }
    if e.fresh then (some e.coin, { c with cacheCoins := c.cacheCoins.erase o })
    else (some e.coin, { c with
      cacheCoins := c.cacheCoins.insert o
        { e with dirty := true, coin := e.coin.clear, capacity := 28 } })

/-- The capacity of a script of the capacity `old` after the coin of `e` is assigned to it: a move
takes the memory over, a copy (`prevector::assign`) keeps it unless more is needed. -/
def assignedCapacity (erase : Bool) (old : ℕ) (e : CacheEntry) : ℕ :=
  if erase then e.capacity else max old e.coin.out.scriptPubKey.length

/-- The body of the loop of `BatchWrite`, for the entry `e` of the child. -/
def batchWriteEntry (erase : Bool) (o : OutPoint) (e : CacheEntry) : M Unit := fun c =>
  if !e.dirty then .ok () c
  else match c.cacheCoins.lookup o with
  | none =>
    if !(e.fresh && e.coin.isSpent) then
      let entry : CacheEntry :=
        { coin := e.coin, capacity := assignedCapacity erase 28 e, dirty := true, fresh := e.fresh }
      .ok () { c with
        cacheCoins := c.cacheCoins.insert o entry
        cachedCoinsUsage := c.cachedCoinsUsage + entry.usage F }
    else .ok () c
  | some itUs =>
    if e.fresh && !itUs.coin.isSpent then .error freshMisapplied c
    else if itUs.fresh && e.coin.isSpent then
      .ok () { c with
        cacheCoins := c.cacheCoins.erase o
        cachedCoinsUsage := c.cachedCoinsUsage - itUs.usage F }
    else
      let entry : CacheEntry :=
        { itUs with
          coin := e.coin, capacity := assignedCapacity erase itUs.capacity e, dirty := true }
      .ok () { c with
        cacheCoins := c.cacheCoins.insert o entry
        cachedCoinsUsage := c.cachedCoinsUsage - itUs.usage F + entry.usage F }

/-- The loop of `BatchWrite` over the entries of the child. -/
def batchWriteEntries (erase : Bool) : List (Sigma fun _ : OutPoint => CacheEntry) → M Unit
  | [] => pure ()
  | x :: rest => do
    batchWriteEntry F erase x.1 x.2
    batchWriteEntries erase rest

/-- `BatchWrite`.  What is left of the child's map is up to the caller: `Flush`, which has the
entries erased, empties it, `Sync` does not. -/
def batchWrite (mapCoins : CoinsMap) (hashBlockIn : Uint256) (erase : Bool) : M Unit := do
  batchWriteEntries F erase mapCoins.entries
  modify fun c => { c with hashBlock := hashBlockIn }

/-- What `Sync` makes of an entry once the child's changes are written. -/
def syncEntry (e : CacheEntry) : Option CacheEntry :=
  if e.coin.isSpent then none else some { e with dirty := false, fresh := false }

/-- The loop of `Sync`: spent coins are erased, the others lose their flags. -/
def clearFlags (c : Cache) : Cache :=
  { c with
    cacheCoins := c.cacheCoins.filterMapVals syncEntry
    cachedCoinsUsage := c.cachedCoinsUsage -
      Map.total (fun e => if e.coin.isSpent then e.usage F else 0) c.cacheCoins }

/-- What a successful `Flush` leaves of the layer. -/
def emptied (c : Cache) : Cache := { c with cacheCoins := ∅, cachedCoinsUsage := 0 }

/-- `Uncache`. -/
def uncache (c : Cache) (o : OutPoint) : Cache :=
  match c.cacheCoins.lookup o with
  | none => c
  | some e =>
    if !e.dirty && !e.fresh then
      { c with
        cachedCoinsUsage := c.cachedCoinsUsage - e.usage F
        cacheCoins := c.cacheCoins.erase o }
    else c

/-- Store an entry and account for it. -/
def set (c : Cache) (o : OutPoint) (e : CacheEntry) : Cache :=
  { c with
    cacheCoins := c.cacheCoins.insert o e
    cachedCoinsUsage := c.cachedCoinsUsage -
      (c.cacheCoins.lookup o).elim 0 (fun e => e.usage F) +
        e.usage F }

/-- Erase an entry and account for it. -/
def drop (c : Cache) (o : OutPoint) : Cache :=
  { c with
    cacheCoins := c.cacheCoins.erase o
    cachedCoinsUsage := c.cachedCoinsUsage -
      (c.cacheCoins.lookup o).elim 0 (fun e => e.usage F) }

variable {F} {c : Cache} {o o' : OutPoint} {e : CacheEntry}

theorem lookup_set :
    (c.set F o e).cacheCoins.lookup o' = if o' = o then some e else c.cacheCoins.lookup o' :=
  Map.lookup_insert_eq_ite _ _ _ _

theorem lookup_drop :
    (c.drop F o).cacheCoins.lookup o' = if o' = o then none else c.cacheCoins.lookup o' :=
  Map.lookup_erase_eq_ite _ _ _

/-- The entry `FetchCoin` makes of a coin of the base. -/
def fetchedEntry (coin : Coin) : CacheEntry :=
  { coin, capacity := coin.copyCapacity, fresh := coin.isSpent }

variable {base : Option Coin}

theorem fetchCoin_of_some (h : c.cacheCoins.lookup o = some e) :
    c.fetchCoin F o base = (some e, c) := by
  simp [fetchCoin, h]

theorem fetchCoin_of_none (h : c.cacheCoins.lookup o = none) :
    c.fetchCoin F o base =
      (base.map fetchedEntry, base.elim c fun coin => c.set F o (fetchedEntry coin)) := by
  cases base with
  | none => simp [fetchCoin, h]
  | some coin => simp [fetchCoin, h, set, fetchedEntry]

theorem lookup_fetchCoin :
    (c.fetchCoin F o base).2.cacheCoins.lookup o = (c.fetchCoin F o base).1 := by
  cases h : c.cacheCoins.lookup o with
  | some e => rw [fetchCoin_of_some h, h]
  | none =>
    rw [fetchCoin_of_none h]
    cases base with
    | none => exact h
    | some coin => simp [lookup_set]

/-- The layer after `SpendCoin` found `e`. -/
def spend (F : ScriptFns) (c : Cache) (o : OutPoint) (e : CacheEntry) : Cache :=
  if e.fresh then c.drop F o
  else c.set F o { e with dirty := true, coin := e.coin.clear, capacity := 28 }

theorem spendCoin_eq :
    c.spendCoin F o base = ((c.fetchCoin F o base).1.map CacheEntry.coin,
      (c.fetchCoin F o base).1.elim (c.fetchCoin F o base).2
        fun e => (c.fetchCoin F o base).2.spend F o e) := by
  have hl : (c.fetchCoin F o base).2.cacheCoins.lookup o = (c.fetchCoin F o base).1 :=
    lookup_fetchCoin
  rcases hf : c.fetchCoin F o base with ⟨_ | e, c'⟩
  · simp [spendCoin, hf]
  · rw [hf] at hl
    cases hfresh : e.fresh <;> simp_all [spendCoin, spend, set, drop, CacheEntry.usage]

theorem addCoin_eq {coin : Coin} {k : ℕ} {po : Bool} (hc : coin.isSpent = false)
    (hs : F.isUnspendable coin.out.scriptPubKey = false)
    (he : e = (c.cacheCoins.lookup o).getD {}) :
    addCoin F o coin k po c =
      if po = false ∧ e.coin.isSpent = false then
        .error overwriteError
          { c with cachedCoinsUsage := c.cachedCoinsUsage - e.usage F }
      else .ok () (c.set F o
        { coin, capacity := k, dirty := true, fresh := e.fresh || (!po && !e.dirty) }) := by
  subst he
  cases h : c.cacheCoins.lookup o with
  | none => simp [addCoin, hc, hs, h, set, CacheEntry.usage]
  | some e => cases po <;> cases e.coin.isSpent <;> simp [addCoin, hc, hs, h, set]

/-- What the loop body of `BatchWrite` does with a dirty entry of the child. -/
theorem batchWriteEntry_cases (erase : Bool) (e : CacheEntry) :
    (e.dirty = false ∧ batchWriteEntry F erase o e c = .ok () c) ∨
    (e.dirty = true ∧ c.cacheCoins.lookup o = none ∧ e.fresh = true ∧ e.coin.isSpent = true ∧
      batchWriteEntry F erase o e c = .ok () c) ∨
    (e.dirty = true ∧ c.cacheCoins.lookup o = none ∧ ¬ (e.fresh = true ∧ e.coin.isSpent = true) ∧
      batchWriteEntry F erase o e c =
        .ok () (c.set F o
          { coin := e.coin, capacity := assignedCapacity erase 28 e, dirty := true,
            fresh := e.fresh })) ∨
    (∃ u, e.dirty = true ∧ c.cacheCoins.lookup o = some u ∧ e.fresh = true ∧
      u.coin.isSpent = false ∧ batchWriteEntry F erase o e c = .error freshMisapplied c) ∨
    (∃ u, e.dirty = true ∧ c.cacheCoins.lookup o = some u ∧ u.fresh = true ∧
      e.coin.isSpent = true ∧ batchWriteEntry F erase o e c = .ok () (c.drop F o)) ∨
    (∃ u, e.dirty = true ∧ c.cacheCoins.lookup o = some u ∧
      ¬ (u.fresh = true ∧ e.coin.isSpent = true) ∧
      batchWriteEntry F erase o e c = .ok () (c.set F o { u with
        coin := e.coin, capacity := assignedCapacity erase u.capacity e, dirty := true })) := by
  cases hd : e.dirty with
  | false => exact .inl ⟨rfl, by simp [batchWriteEntry, hd]⟩
  | true =>
    refine .inr ?_
    cases hu : c.cacheCoins.lookup o with
    | none =>
      by_cases hfs : e.fresh = true ∧ e.coin.isSpent = true
      · exact .inl ⟨rfl, rfl, hfs.1, hfs.2, by simp [batchWriteEntry, hu, hfs]⟩
      · exact .inr (.inl ⟨rfl, rfl, hfs, by simp_all [batchWriteEntry, set]⟩)
    | some u =>
      refine .inr (.inr ?_)
      by_cases hm : e.fresh = true ∧ u.coin.isSpent = false
      · exact .inl ⟨u, rfl, rfl, hm.1, hm.2, by simp [batchWriteEntry, hd, hu, hm]⟩
      · by_cases hfs : u.fresh = true ∧ e.coin.isSpent = true
        · exact .inr (.inl ⟨u, rfl, rfl, hfs.1, hfs.2, by
            simp_all [batchWriteEntry, drop]⟩)
        · refine .inr (.inr ⟨u, rfl, rfl, hfs, ?_⟩)
          simp only [batchWriteEntry, hd, hu, set]
          rw [if_neg (by simp), if_neg (by simpa using hm), if_neg (by simpa using hfs)]
          simp

theorem lookup_clearFlags (h : (c.clearFlags F).cacheCoins.lookup o = some e) :
    ∃ e0, c.cacheCoins.lookup o = some e0 ∧ e0.coin.isSpent = false ∧
      e = { e0 with dirty := false, fresh := false } := by
  rw [clearFlags, Map.lookup_filterMapVals, Option.bind_eq_some_iff] at h
  obtain ⟨e0, hl, he⟩ := h
  simp only [syncEntry, Option.ite_none_left_eq_some, Option.some.injEq, Bool.not_eq_true] at he
  exact ⟨e0, hl, he.1, he.2.symm⟩

theorem uncache_cases (o : OutPoint) : c.uncache F o = c ∨
    (∃ e, c.cacheCoins.lookup o = some e ∧ e.dirty = false ∧ e.fresh = false ∧
      c.uncache F o = c.drop F o) := by
  cases h : c.cacheCoins.lookup o with
  | none => exact .inl (by simp [uncache, h])
  | some e =>
    by_cases hf : e.dirty = false ∧ e.fresh = false
    · exact .inr ⟨e, rfl, hf.1, hf.2, by simp [uncache, h, hf, drop]⟩
    · exact .inl (by simp_all [uncache])

end Cache

end KPCoin.Coins
