import KPCoin.Coins.View
import KPCoin.Program.Wp

/-!
# What a stack of caches shows

Every layer of a stack shows a map from outpoints to unspent coins: its own entries over the map
shown below (`Cache.over`).

Reading only fills caches: an entry may appear that repeats a coin of the view below, with no flag
set, and the hash of the best block may be copied up.  `View.Fill` and `CacheView.Fill` say this
once for all reads, whether or not the flags in the stack are truthful; `Fill.maps` is what follows
for the maps, and the `wp` lemmas are the rules for the reads in a program.
-/

namespace KPCoin.Coins

open Program Cache

/-- The unspent coins of a view. -/
abbrev CoinMap := OutPoint → Option Coin

/-- The map shown by a layer over the map `m`. -/
def Cache.over (c : Cache) (m : CoinMap) : CoinMap := fun o =>
  (c.cacheCoins.lookup o).elim (m o) fun e => e.coin.unspent

/-- The map shown by the database. -/
def CoinsDB.visible (d : CoinsDB) : CoinMap := fun o => d.coins.lookup o

/-- The map shown by a view. -/
def View.visible : View → CoinMap
  | .db d => d.visible
  | .cache c base => c.over base.visible

/-- The maps shown by the layers of a view, topmost first. -/
def View.maps : View → List CoinMap
  | .db d => [d.visible]
  | .cache c base => c.over base.visible :: base.maps

/-- The map shown by a cache. -/
def CacheView.visible (v : CacheView) : CoinMap := v.top.over v.base.visible

/-- The maps shown by the cache and the layers below, topmost first. -/
def CacheView.maps (v : CacheView) : List CoinMap := v.visible :: v.base.maps

variable {F : ScriptFns}

namespace Cache

variable {c c' c'' : Cache} {m : CoinMap} {o : OutPoint} {e : CacheEntry}

theorem over_of_some (h : c.cacheCoins.lookup o = some e) : c.over m o = e.coin.unspent := by
  simp [Cache.over, h]

theorem over_of_none (h : c.cacheCoins.lookup o = none) : c.over m o = m o := by
  simp [Cache.over, h]

theorem over_set : (c.set F o e).over m = Function.update (c.over m) o e.coin.unspent := by
  funext o'
  by_cases ho : o' = o
  · subst ho; simp [Cache.over, lookup_set]
  · simp [Cache.over, lookup_set, ho]

theorem over_drop : (c.drop F o).over m = Function.update (c.over m) o (m o) := by
  funext o'
  by_cases ho : o' = o
  · subst ho; simp [Cache.over, lookup_drop]
  · simp [Cache.over, lookup_drop, ho]

/-- `c'` has the entries of `c` and perhaps some that repeat coins of the map `m` below. -/
structure Fill (m : CoinMap) (c c' : Cache) : Prop where
  lookup : ∀ o, c'.cacheCoins.lookup o = c.cacheCoins.lookup o ∨
    c.cacheCoins.lookup o = none ∧
      ∃ coin, m o = some coin ∧
        c'.cacheCoins.lookup o = some { coin, capacity := coin.copyCapacity }

theorem Fill.refl : Fill m c c := ⟨fun _ => .inl rfl⟩

theorem Fill.trans (h1 : Fill m c c') (h2 : Fill m c' c'') : Fill m c c'' := by
  refine ⟨fun o => ?_⟩
  obtain h | ⟨hn, coin, hm, hl⟩ := h1.lookup o
  · rw [← h]; exact h2.lookup o
  · obtain h | ⟨hn', -⟩ := h2.lookup o
    · exact .inr ⟨hn, coin, hm, h.trans hl⟩
    · rw [hn'] at hl; cases hl

/-- Filling does not change what is shown, as long as the map below has no spent coin. -/
theorem Fill.over (h : Fill m c c') (hm : ∀ o coin, m o = some coin → coin.isSpent = false) :
    c'.over m = c.over m := by
  funext o
  obtain hl | ⟨hn, coin, hmo, hl⟩ := h.lookup o
  · simp [Cache.over, hl]
  · rw [over_of_none hn, over_of_some hl, hmo]
    exact Coin.unspent_of_not_isSpent (hm o coin hmo)

theorem fetchCoin_fill {a : Option Coin} (ha : c.cacheCoins.lookup o = none → a = m o)
    (hm : ∀ coin, m o = some coin → coin.isSpent = false) :
    Fill m c (c.fetchCoin F o a).2 ∧
      ((c.fetchCoin F o a).1.bind fun e => e.coin.unspent) = c.over m o := by
  cases hl : c.cacheCoins.lookup o with
  | some e => simp [fetchCoin_of_some hl, Fill.refl, over_of_some hl]
  | none =>
    obtain rfl := ha hl
    rw [fetchCoin_of_none hl, over_of_none hl]
    cases hmo : m o with
    | none => exact ⟨Fill.refl, rfl⟩
    | some coin =>
      have hs := hm coin hmo
      refine ⟨⟨fun o' => ?_⟩, by simp [fetchedEntry, Coin.unspent_of_not_isSpent hs]⟩
      rw [Option.elim, lookup_set]
      split_ifs with ho
      · subst ho
        exact .inr ⟨hl, coin, hmo, by simp [fetchedEntry, hs]⟩
      · exact .inl rfl

end Cache

namespace View

variable {v v' v'' : View}

theorem maps_eq_cons (v : View) : v.maps = v.visible :: v.maps.tail := by
  cases v <;> rfl

theorem visible_eq_of_maps_eq (h : v'.maps = v.maps) : v'.visible = v.visible := by
  rw [maps_eq_cons v, maps_eq_cons v'] at h
  exact (List.cons.inj h).1

theorem isSpent_of_visible {o : OutPoint} {coin : Coin} (h : v.visible o = some coin) :
    coin.isSpent = false := by
  induction v with
  | db d => exact d.unspent o coin h
  | cache c base ih =>
    cases hl : c.cacheCoins.lookup o with
    | none => exact ih ((over_of_none hl).symm.trans h)
    | some e =>
      have := (over_of_some hl).symm.trans h
      simp only [Coin.unspent, Option.ite_none_left_eq_some, Option.some.injEq] at this
      obtain ⟨hs, rfl⟩ := this
      simpa using hs

/-- Every layer of `v'` is a filled layer of `v`. -/
def Fill : View → View → Prop
  | .db d, .db d' => d = d'
  | .cache c base, .cache c' base' => c.Fill base.visible c' ∧ Fill base base'
  | _, _ => False

theorem Fill.refl (v : View) : v.Fill v := by
  induction v with
  | db d => exact rfl
  | cache c base ih => exact ⟨Cache.Fill.refl, ih⟩

theorem Fill.layers {motive : (v v' : View) → v.Fill v' → Prop}
    (db : ∀ d, motive (.db d) (.db d) rfl)
    (cache : ∀ {c c' base base'} (h : c.Fill base.visible c') (hb : base.Fill base'),
      motive base base' hb → motive (.cache c base) (.cache c' base') ⟨h, hb⟩) :
    ∀ {v v'} (h : v.Fill v'), motive v v' h
  | .db d, .db _, rfl => db d
  | .cache .., .cache .., h => cache h.1 h.2 (Fill.layers db cache h.2)

theorem Fill.maps (h : v.Fill v') : v'.maps = v.maps := by
  induction h using Fill.layers with
  | db d => rfl
  | cache h hb ih =>
    rw [View.maps, View.maps, ih, visible_eq_of_maps_eq ih, h.over fun _ _ => isSpent_of_visible]

theorem Fill.visible (h : v.Fill v') : v'.visible = v.visible := visible_eq_of_maps_eq h.maps

theorem Fill.trans (h1 : v.Fill v') (h2 : v'.Fill v'') : v.Fill v'' := by
  induction h1 using Fill.layers generalizing v'' with
  | db d => exact h2
  | cache h hb ih => cases v'' with
    | db d'' => exact h2.elim
    | cache c'' base'' => exact ⟨h.trans (hb.visible ▸ h2.1), ih h2.2⟩

theorem getCoin_fill (v : View) (o : OutPoint) :
    v.Fill (v.getCoin F o).2 ∧ (v.getCoin F o).1 = v.visible o := by
  induction v with
  | db d => exact ⟨rfl, rfl⟩
  | cache c base ih =>
    obtain ⟨hfill, hans⟩ := ih
    cases hl : c.cacheCoins.lookup o with
    | some e =>
      simp only [getCoin, hl, Option.isSome_some, ↓reduceIte, fetchCoin_of_some hl]
      exact ⟨⟨Cache.Fill.refl, Fill.refl base⟩, (over_of_some hl).symm⟩
    | none =>
      simp only [getCoin, hl, Option.isSome_none, Bool.false_eq_true, ↓reduceIte, hans]
      obtain ⟨h1, h2⟩ := fetchCoin_fill (fun _ => rfl) fun _ => isSpent_of_visible
      exact ⟨⟨h1, hfill⟩, h2⟩

theorem getBestBlock_fill (v : View) : v.Fill v.getBestBlock.2 := by
  induction v with
  | db d => exact rfl
  | cache c base ih =>
    unfold getBestBlock
    split_ifs
    · exact ⟨⟨fun _ => .inl rfl⟩, ih⟩
    · exact Fill.refl _

end View

namespace CacheView

variable {v v' v'' : CacheView} {o : OutPoint} {E : Fault → Prop}
  {Q : Option Coin → CacheView → Prop}

theorem isSpent_of_visible {coin : Coin} (h : v.visible o = some coin) : coin.isSpent = false :=
  View.isSpent_of_visible (v := v.toView) h

/-- Every layer of `v'` is a filled layer of `v`. -/
def Fill (v v' : CacheView) : Prop := v.top.Fill v.base.visible v'.top ∧ v.base.Fill v'.base

theorem Fill.toView (h : v.Fill v') : v.toView.Fill v'.toView := h

theorem Fill.refl (v : CacheView) : v.Fill v := View.Fill.refl v.toView

theorem Fill.trans (h1 : v.Fill v') (h2 : v'.Fill v'') : v.Fill v'' :=
  View.Fill.trans h1.toView h2.toView

theorem Fill.maps (h : v.Fill v') : v'.maps = v.maps := View.Fill.maps h.toView

theorem Fill.visible (h : v.Fill v') : v'.visible = v.visible := (List.cons.inj h.maps).1

theorem askBase_fill (v : CacheView) (o : OutPoint) : v.base.Fill (v.askBase F o).2 ∧
    (v.top.cacheCoins.lookup o = none → (v.askBase F o).1 = v.base.visible o) := by
  obtain ⟨hfill, hans⟩ := View.getCoin_fill v.base o
  unfold askBase
  split_ifs with hl
  · exact ⟨View.Fill.refl _, fun hn => by simp [hn] at hl⟩
  · exact ⟨hfill, fun _ => hans⟩

theorem wp_fetchCoin {Q : Option CacheEntry → CacheView → Prop}
    (h : ∀ e v', v.Fill v' → (e.bind fun e => e.coin.unspent) = v.visible o →
      v'.top.cacheCoins.lookup o = e → Q e v') : wp (fetchCoin F o) Q E v := by
  obtain ⟨hfill, hans⟩ := askBase_fill v o
  obtain ⟨h1, h2⟩ := fetchCoin_fill hans fun _ => View.isSpent_of_visible
  exact wp_of_ok fetchCoin_eq (h _ _ ⟨h1, hfill⟩ h2 lookup_fetchCoin)

theorem wp_getCoin (h : ∀ v', v.Fill v' → Q (v.visible o) v') : wp (getCoin F o) Q E v := by
  simp only [getCoin, wp_bind]
  refine wp_fetchCoin fun e v' hf he _ => ?_
  rw [he]
  exact h v' hf

theorem wp_haveCoin {Q : Bool → CacheView → Prop}
    (h : ∀ v', v.Fill v' → Q (v.visible o).isSome v') : wp (haveCoin F o) Q E v := by
  simp only [haveCoin, wp_bind]
  refine wp_fetchCoin fun e v' hf he _ => ?_
  have hany : e.any (fun e => !e.coin.isSpent) = (v.visible o).isSome := by
    rw [← he]
    cases e with
    | none => rfl
    | some e => cases hs : e.coin.isSpent <;> simp [Coin.unspent, hs]
  rw [hany]
  exact h v' hf

theorem wp_accessCoin {Q : Coin → CacheView → Prop}
    (h : ∀ coin v', v.Fill v' → coin.unspent = v.visible o → Q coin v') :
    wp (accessCoin F o) Q E v := by
  simp only [accessCoin, wp_bind]
  refine wp_fetchCoin fun e v' hf he _ => h _ v' hf ?_
  rw [← he]
  cases e <;> rfl

theorem wp_getBestBlock {Q : Uint256 → CacheView → Prop} (h : ∀ b v', v.Fill v' → Q b v') :
    wp getBestBlock Q E v := by
  unfold wp getBestBlock
  split_ifs
  · exact h _ _ ⟨⟨fun _ => .inl rfl⟩, v.base.getBestBlock_fill⟩
  · exact h _ _ (.refl v)

theorem setBestBlock_fill (b : Uint256) : v.Fill { v with top := { v.top with hashBlock := b } } :=
  ⟨⟨fun _ => .inl rfl⟩, View.Fill.refl _⟩

theorem wp_spendCoin_entry
    (h : ∀ e v', v.Fill v' → (e.bind fun e => e.coin.unspent) = v.visible o →
      v'.top.cacheCoins.lookup o = e →
      Q (e.map CacheEntry.coin) (e.elim v' fun e => { v' with top := v'.top.spend F o e })) :
    wp (spendCoin F o) Q E v := by
  obtain ⟨hfill, hans⟩ := askBase_fill v o
  obtain ⟨h1, h2⟩ := fetchCoin_fill (F := F) hans fun _ => View.isSpent_of_visible
  have hQ := h _ ⟨_, (v.askBase F o).2⟩ ⟨h1, hfill⟩ h2 lookup_fetchCoin
  refine wp_of_ok spendCoin_eq ?_
  rw [Cache.spendCoin_eq]
  cases he : (v.top.fetchCoin F o (v.askBase F o).1).1 with
  | none => rw [he] at hQ; exact hQ
  | some e => rw [he] at hQ; exact hQ

/-- `AddCoin` of an unspent coin: nothing is done with an unspendable one, else the entry is set or
the call throws. -/
theorem wp_addCoin_entry {coin : Coin} {po : Bool} {e : CacheEntry} {Q : Unit → CacheView → Prop}
    (he : e = (v.top.cacheCoins.lookup o).getD {}) (hc : coin.isSpent = false)
    (hskip : F.isUnspendable coin.out.scriptPubKey = true → Q () v)
    (hthrow : po = false → e.coin.isSpent = false → E overwriteError)
    (hset : F.isUnspendable coin.out.scriptPubKey = false →
      (po = false → e.coin.isSpent = true) → Q () { v with
        top := v.top.set F o
          { coin, capacity := coin.copyCapacity, dirty := true,
            fresh := e.fresh || (!po && !e.dirty) } }) :
    wp (addCoin F o coin po) Q E v := by
  cases hs : F.isUnspendable coin.out.scriptPubKey with
  | true =>
    have hrun : addCoin F o coin po v = .ok () v := by
      simp [addCoin, onTop, Cache.addCoin, hc, hs]
    exact wp_of_ok hrun (hskip hs)
  | false =>
    simp only [wp, addCoin, onTop, addCoin_eq hc hs he]
    split_ifs with ht
    · exact hthrow ht.1 ht.2
    · exact hset hs fun hpo => by simpa [hpo] using ht

end CacheView

end KPCoin.Coins
