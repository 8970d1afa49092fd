import KPCoin.Coins.Cache

/-!
# Stacks of coins views

A `CCoinsViewCache` is a layer over a base view, which is another cache or the coins database
(`CCoinsViewDB`, `txdb.cpp`).  Reading through a cache may fill every cache below it, and `Flush`
and `Sync` write the dirty entries of the top layer into the view below.

* `CoinsDB` is the database, whose coins are all unspent;
* `View` is a base view, `CacheView` a cache with its base;
* the methods of `CCoinsViewCache` are `ViewM` programs.
-/

namespace KPCoin.Coins

/-- `CCoinsViewDB`. -/
structure CoinsDB where
  coins : Map OutPoint Coin := ∅
  /-- `DB_BEST_BLOCK`, null while a flush is being written. -/
  bestBlock : Uint256 := 0
  /-- `DB_HEAD_BLOCKS`, the new and the old tip of an unfinished flush. -/
  headBlocks : List Uint256 := []
  /-- Spent coins are erased, never written. -/
  unspent : ∀ o c, coins.lookup o = some c → c.isSpent = false := by simp

namespace CoinsDB

/-- The body of the loop of `BatchWrite`. -/
def writeEntry (d : CoinsDB) (o : OutPoint) (e : CacheEntry) : CoinsDB :=
  if !e.dirty then d
  else if h : e.coin.isSpent = true then
    { d with
      coins := d.coins.erase o
      unspent := fun o' c hc => by
        rw [Map.lookup_erase_eq_ite] at hc
        split_ifs at hc
        exact d.unspent o' c hc }
  else
    { d with
      coins := d.coins.insert o e.coin
      unspent := fun o' c hc => by
        rw [Map.lookup_insert_eq_ite] at hc
        split_ifs at hc
        · cases hc; simpa using h
        · exact d.unspent o' c hc }

/-- `BatchWrite`, all of its batches being written. -/
def batchWrite (d : CoinsDB) (mapCoins : CoinsMap) (hashBlock : Uint256) : Except Fault CoinsDB :=
  if hashBlock = 0 then .error .abort
  -- the database is in the middle of another flush
  else if d.bestBlock = 0 ∧ d.headBlocks.length = 2 ∧ d.headBlocks.head? ≠ some hashBlock then
    .error .abort
  else
    let d := mapCoins.entries.foldl (fun d x => d.writeEntry x.1 x.2) d
    .ok { d with bestBlock := hashBlock, headBlocks := [] }

end CoinsDB

/-- A view: the database, or a cache over another view. -/
inductive View
  | db (d : CoinsDB)
  | cache (c : Cache) (base : View)

variable (F : ScriptFns)

namespace View

/-- `GetCoin`.  A cache asks its base only when it has no entry, and keeps the answer. -/
def getCoin (o : OutPoint) : View → Option Coin × View
  | .db d => (d.coins.lookup o, .db d)
  | .cache c base =>
    let (answer, base) := if (c.cacheCoins.lookup o).isSome then (none, base) else base.getCoin o
    let (e, c) := c.fetchCoin F o answer
    (e.bind fun e => e.coin.unspent, .cache c base)

/-- `GetBestBlock`. -/
def getBestBlock : View → Uint256 × View
  | .db d => (d.bestBlock, .db d)
  | .cache c base =>
    if c.hashBlock = 0 then
      let (h, base) := base.getBestBlock
      (h, .cache { c with hashBlock := h } base)
    else (c.hashBlock, .cache c base)

/-- `BatchWrite`. -/
def batchWrite (mapCoins : CoinsMap) (hashBlock : Uint256) (erase : Bool) : View → Except Fault View
  | .db d => (d.batchWrite mapCoins hashBlock).map .db
  | .cache c base =>
    match c.batchWrite F mapCoins hashBlock erase with
    | .ok _ c => .ok (.cache c base)
    | .error f _ => .error f

end View

/-- A `CCoinsViewCache` with the view below it. -/
structure CacheView where
  top : Cache := {}
  base : View

/-- Programs on a cache; an exception keeps the changes made before it. -/
abbrev ViewM := EStateM Fault CacheView

namespace CacheView

/-- The cache as a base of another one. -/
def toView (v : CacheView) : View := .cache v.top v.base

/-- What `FetchCoin` learns from the base, which is asked only when there is no entry. -/
def askBase (o : OutPoint) (v : CacheView) : Option Coin × View :=
  if (v.top.cacheCoins.lookup o).isSome then (none, v.base) else v.base.getCoin F o

/-- `FetchCoin`. -/
def fetchCoin (o : OutPoint) : ViewM (Option CacheEntry) := fun v =>
  let (answer, base) := v.askBase F o
  let (e, top) := v.top.fetchCoin F o answer
  .ok e { top := top, base := base }

variable {F} in
theorem fetchCoin_eq {o : OutPoint} {v : CacheView} :
    fetchCoin F o v = .ok (v.top.fetchCoin F o (v.askBase F o).1).1
      ⟨(v.top.fetchCoin F o (v.askBase F o).1).2, (v.askBase F o).2⟩ := rfl

/-- `GetCoin`. -/
def getCoin (o : OutPoint) : ViewM (Option Coin) := do
  return (← fetchCoin F o).bind fun e => e.coin.unspent

/-- `HaveCoin`. -/
def haveCoin (o : OutPoint) : ViewM Bool := do
  return (← fetchCoin F o).any fun e => !e.coin.isSpent

/-- `AccessCoin`: the empty coin when there is no entry. -/
def accessCoin (o : OutPoint) : ViewM Coin := do
  return (← fetchCoin F o).elim {} fun e => e.coin

/-- Run an operation of the layer. -/
def onTop (m : M Unit) : ViewM Unit := fun v =>
  match m v.top with
  | .ok _ top => .ok () { v with top := top }
  | .error f top => .error f { v with top := top }

/-- `AddCoin`, of a coin just copied or read. -/
def addCoin (o : OutPoint) (coin : Coin) (possibleOverwrite : Bool) : ViewM Unit :=
  onTop (Cache.addCoin F o coin coin.copyCapacity possibleOverwrite)

/-- `SpendCoin`: the coin moved out, if there was an entry. -/
def spendCoin (o : OutPoint) : ViewM (Option Coin) := fun v =>
  let (answer, base) := v.askBase F o
  let (coin, top) := v.top.spendCoin F o answer
  .ok coin { top := top, base := base }

variable {F} in
theorem spendCoin_eq {o : OutPoint} {v : CacheView} :
    spendCoin F o v = .ok (v.top.spendCoin F o (v.askBase F o).1).1
      ⟨(v.top.spendCoin F o (v.askBase F o).1).2, (v.askBase F o).2⟩ := rfl

/-- `Uncache`. -/
def uncache (o : OutPoint) : ViewM Unit := onTop (modify fun c => c.uncache F o)

/-- `GetBestBlock`. -/
def getBestBlock : ViewM Uint256 := fun v =>
  if v.top.hashBlock = 0 then
    let (h, base) := v.base.getBestBlock
    .ok h { top := { v.top with hashBlock := h }, base := base }
  else .ok v.top.hashBlock v

/-- `SetBestBlock`. -/
def setBestBlock (hashBlockIn : Uint256) : ViewM Unit :=
  modify fun v => { v with top := { v.top with hashBlock := hashBlockIn } }

/-- Write the entries of the top layer into the base, which then leaves the layer as `rest`. -/
def writeBack (erase : Bool) (rest : Cache → Cache) : ViewM Unit := fun v =>
  match v.base.batchWrite F v.top.cacheCoins v.top.hashBlock erase with
  | .ok base => .ok () { top := rest v.top, base := base }
  | .error f => .error f v

/-- `Flush`. -/
def flush : ViewM Unit := writeBack F true Cache.emptied

/-- `Sync`. -/
def sync : ViewM Unit := writeBack F false (Cache.clearFlags F)

/-- `ReallocateCache`: only an empty cache may be rebuilt. -/
def reallocateCache : ViewM Unit := fun v =>
  if v.top.cacheCoins.entries.length = 0 then
    .ok () { v with top := { v.top with cacheCoins := ∅ } }
  else .error .abort v

/-- `HaveInputs`, over the outpoints a transaction spends. -/
def haveInputs : List OutPoint → ViewM Bool
  | [] => return true
  | o :: rest => do
    if !(← haveCoin F o) then return false
    haveInputs rest

end CacheView

end KPCoin.Coins
