import KPCoin.Coins.Refinement
import KPCoin.Consensus.TxVerify

/-!
# What a stack of caches is worth

A FRESH entry that is spent is dropped, and whatever is below it is shown again.  If the flag was
set wrongly, as `AddCoin` does when it cannot see a coin in the layers below, spending can so bring
back a coin.  The total of the coins shown is therefore not enough to bound the supply: `worth` also
counts the coins buried under FRESH entries.

Counted like this, a spend takes away exactly the value of the coin spent, an add brings at most the
value of the coin added, and writing a layer back brings nothing, whether or not the FRESH flags
are truthful.  Only `Sound` is needed: values are in range, and clean entries repeat what is below.
-/

namespace KPCoin.Coins

open Option Cache Coin View

open Program (wp)
open Consensus

/-- The value an entry shows where the layer below shows `val`. -/
def slotValue (u : Option CacheEntry) (val : ℤ) : ℤ := u.elim val fun e => coinValue e.coin.unspent

/-- The value buried: what was buried below, and the value below if a FRESH entry covers it. -/
def slotBuried (u : Option CacheEntry) (val buried : ℤ) : ℤ :=
  (if u.any CacheEntry.fresh then val else 0) + buried

/-- The value shown and the value buried. -/
def slotWorth (u : Option CacheEntry) (val buried : ℤ) : ℤ :=
  slotValue u val + slotBuried u val buried

@[simp] theorem slotWorth_none {val buried : ℤ} : slotWorth none val buried = val + buried := by
  simp [slotWorth, slotValue, slotBuried]

variable {e : CacheEntry} {u : Option CacheEntry}

@[simp] theorem slotWorth_some {val buried : ℤ} :
    slotWorth (some e) val buried =
      coinValue e.coin.unspent + ((if e.fresh then val else 0) + buried) := by
  simp [slotWorth, slotValue, slotBuried]

/-- The entry after an entry `e` of a child has been written over it. -/
def mergeEntry (erase : Bool) (e : CacheEntry) : Option CacheEntry → Option CacheEntry
  | none =>
    if !e.dirty then none
    else if e.fresh && e.coin.isSpent then none
    else some
      { coin := e.coin, capacity := assignedCapacity erase 28 e, dirty := true, fresh := e.fresh }
  | some u =>
    if !e.dirty then some u
    else if u.fresh && e.coin.isSpent then none
    else some { u with
      coin := e.coin, capacity := assignedCapacity erase u.capacity e, dirty := true }

theorem mergeEntry_of_clean (hd : e.dirty = false) : mergeEntry erase e u = u := by
  cases u <;> simp [mergeEntry, hd]

theorem mergeEntry_of_unspent (hd : e.dirty = true)
    (hs : e.coin.isSpent = false) : ∃ w, mergeEntry erase e u = some w ∧ w.coin = e.coin := by
  cases u <;> simp [mergeEntry, hd, hs]

/-- An entry after the write is an old one, or a dirty one with the coin of the child. -/
theorem mergeEntry_eq_some {e' : CacheEntry} (h : mergeEntry erase e u = some e') :
    u = some e' ∨ e'.dirty = true ∧ e'.coin = e.coin := by
  cases u with
  | none =>
    simp only [mergeEntry, ite_none_left_eq_some, some.injEq] at h
    obtain ⟨-, -, rfl⟩ := h
    exact .inr ⟨rfl, rfl⟩
  | some u =>
    simp only [mergeEntry] at h
    split_ifs at h
    · exact .inl h
    · cases h; exact .inr ⟨rfl, rfl⟩

@[simp] theorem coinValue_none : coinValue none = 0 := rfl

/-- Writing an entry of a child brings nothing: the child was worth as much over the parent. -/
theorem slotWorth_mergeEntry {val buried : ℤ}
    (hclean : e.dirty = false → slotValue u val = coinValue e.coin.unspent)
    (hu : 0 ≤ slotValue u val) :
    slotWorth (mergeEntry erase e u) val buried ≤
      slotWorth (some e) (slotValue u val) (slotBuried u val buried) := by
  cases hd : e.dirty with
  | false =>
    rw [mergeEntry_of_clean hd, slotWorth_some, ← hclean hd, slotWorth]
    omega
  | true =>
    cases u with
    | none =>
      simp only [mergeEntry, hd, Bool.not_true, Bool.false_eq_true, ↓reduceIte]
      split_ifs with hfs
      · -- a FRESH spent entry is not written, and covered what is there
        obtain ⟨hf, hs⟩ : e.fresh = true ∧ e.coin.isSpent = true := by simpa using hfs
        simp [hf, unspent_of_isSpent hs, slotValue, slotBuried]
      · simp [slotValue, slotBuried]
    | some w =>
      simp only [mergeEntry, hd, Bool.not_true, Bool.false_eq_true, ↓reduceIte]
      split_ifs with hfs
      · obtain ⟨hf, hs⟩ : w.fresh = true ∧ e.coin.isSpent = true := by simpa using hfs
        simp only [slotWorth_none, slotWorth_some, unspent_of_isSpent hs, coinValue_none,
          slotBuried, any_some, hf, ↓reduceIte]
        omega
      · simp only [slotWorth_some, slotBuried, any_some]
        omega

/-- The value buried in a view. -/
def View.buried : View → OutPoint → ℤ
  | .db _, _ => 0
  | .cache c base, o =>
    slotBuried (c.cacheCoins.lookup o) (coinValue (base.visible o)) (base.buried o)

/-- The value shown by a view or buried in it. -/
def View.worth (v : View) (o : OutPoint) : ℤ := coinValue (v.visible o) + v.buried o

/-- What the bound on the supply needs of a layer. -/
structure Cache.Sound (c : Cache) (m : CoinMap) : Prop where
  clean : ∀ o e, c.cacheCoins.lookup o = some e → e.dirty = false → m o = e.coin.unspent
  range : ∀ o e coin, c.cacheCoins.lookup o = some e → e.coin.unspent = some coin →
    moneyRange coin.out.nValue = true

/-- What the bound on the supply needs of a view. -/
def View.Sound : View → Prop
  | .db d => ValuesInRange d.visible
  | .cache c base => c.Sound base.visible ∧ base.Sound

variable {F : ScriptFns} {c : Cache} {d d' : CoinsDB}

theorem coinValue_over {m : CoinMap} {o : OutPoint} :
    coinValue (c.over m o) = slotValue (c.cacheCoins.lookup o) (coinValue (m o)) := by
  cases hl : c.cacheCoins.lookup o with
  | none => rw [over_of_none hl]; rfl
  | some e => rw [over_of_some hl]; rfl

namespace View

variable {v v' : View} {o : OutPoint}

theorem worth_cache {base : View} :
    (cache c base).worth o =
      slotWorth (c.cacheCoins.lookup o) (coinValue (base.visible o)) (base.buried o) := by
  rw [worth, visible, coinValue_over]
  rfl

theorem Sound.range (h : v.Sound) : ValuesInRange v.visible := by
  induction v with
  | db d => exact h
  | cache c base ih =>
    intro o coin ho
    cases hl : c.cacheCoins.lookup o with
    | none => exact ih h.2 o coin ((over_of_none hl).symm.trans ho)
    | some e => exact h.1.range o e coin hl ((over_of_some hl).symm.trans ho)

theorem Sound.value_nonneg (h : v.Sound) : 0 ≤ coinValue (v.visible o) := by
  cases hv : v.visible o with
  | none => simp
  | some coin => exact (moneyRange_iff.1 (h.range o coin hv)).1

theorem Sound.buried_nonneg (h : v.Sound) : 0 ≤ v.buried o := by
  induction v with
  | db d => exact le_rfl
  | cache c base ih =>
    have hb := ih h.2
    have hval := h.2.value_nonneg (o := o)
    simp only [buried, slotBuried]
    split_ifs <;> omega

theorem Sound.worth_nonneg (h : v.Sound) : 0 ≤ v.worth o :=
  add_nonneg h.value_nonneg h.buried_nonneg

/-- Filled entries are not FRESH. -/
theorem Fill.buried (h : v.Fill v') : v'.buried = v.buried := by
  induction h using Fill.layers with
  | db d => rfl
  | cache h hb ih =>
    funext o
    rw [View.buried, View.buried, ih, hb.visible]
    obtain hl | ⟨hn, coin, -, hl⟩ := h.lookup o
    · rw [hl]
    · simp [hn, hl, slotBuried]

theorem Fill.worth (h : v.Fill v') : v'.worth = v.worth := by
  funext o
  rw [View.worth, View.worth, h.visible, h.buried]

theorem Sound.fill (hs : v.Sound) (h : v.Fill v') : v'.Sound := by
  induction h using Fill.layers with
  | db d => exact hs
  | cache h hb ih =>
    refine ⟨?_, ih hs.2⟩
    rw [hb.visible]
    constructor
    · intro o e hl hd
      obtain heq | ⟨-, coin, hm, heq⟩ := h.lookup o <;> rw [heq] at hl
      · exact hs.1.clean o e hl hd
      · cases hl
        rw [hm, unspent_of_not_isSpent (isSpent_of_visible hm)]
    · intro o e coin hl hu
      obtain heq | ⟨-, coin', hm, heq⟩ := h.lookup o <;> rw [heq] at hl
      · exact hs.1.range o e coin hl hu
      · cases hl
        rw [unspent_of_not_isSpent (isSpent_of_visible hm)] at hu
        cases hu
        exact hs.2.range o _ hm

end View

namespace Cache

variable {m : CoinMap} {o : OutPoint}

theorem Sound.set (h : c.Sound m) (hd : e.dirty = true)
    (hr : ∀ coin, e.coin.unspent = some coin → moneyRange coin.out.nValue = true) :
    (c.set F o e).Sound m := by
  constructor
  · intro o' e' hl hd'
    rw [lookup_set] at hl
    split_ifs at hl
    · cases hl; simp [hd] at hd'
    · exact h.clean o' e' hl hd'
  · intro o' e' coin hl hu
    rw [lookup_set] at hl
    split_ifs at hl
    · cases hl; exact hr coin hu
    · exact h.range o' e' coin hl hu

theorem Sound.drop (h : c.Sound m) : (c.drop F o).Sound m := by
  constructor
  · intro o' e' hl
    rw [lookup_drop] at hl
    split_ifs at hl
    exact h.clean o' e' hl
  · intro o' e' coin hl
    rw [lookup_drop] at hl
    split_ifs at hl
    exact h.range o' e' coin hl

theorem Sound.spend (h : c.Sound m) : (c.spend F o e).Sound m := by
  unfold Cache.spend
  split_ifs
  · exact h.drop
  · refine h.set rfl fun coin hu => ?_
    cases hu

end Cache

namespace CacheView

variable {v v' : CacheView} {o : OutPoint} {E : Fault → Prop}

/-- What the bound on the supply needs of a cache. -/
def Sound (v : CacheView) : Prop := v.toView.Sound

/-- The value shown by a cache or buried in it. -/
def worth (v : CacheView) (o : OutPoint) : ℤ := v.toView.worth o

theorem worth_of_lookup {u : Option CacheEntry} (h : v.top.cacheCoins.lookup o = u) :
    v.worth o = slotWorth u (coinValue (v.base.visible o)) (v.base.buried o) := by
  rw [← h]
  exact worth_cache

theorem worth_congr (h : c.cacheCoins.lookup o = v.top.cacheCoins.lookup o) :
    worth { v with top := c } o = v.worth o := by
  rw [worth_of_lookup rfl, worth_of_lookup rfl, h]

theorem Fill.worth (h : v.Fill v') : v'.worth = v.worth := View.Fill.worth h.toView

theorem Sound.fill (hs : v.Sound) (h : v.Fill v') : v'.Sound := View.Sound.fill hs h.toView

theorem wp_spendCoin_worth (h : v.Sound) :
    wp (spendCoin F o)
      (fun _ v' => v'.Sound ∧ (∀ o' ≠ o, v'.visible o' = v.visible o') ∧
        (∀ o' ≠ o, v'.worth o' = v.worth o') ∧
        v'.worth o = v.worth o - coinValue (v.visible o)) E v := by
  refine wp_spendCoin_entry fun e v' hf he hl => ?_
  have hs := h.fill hf
  rw [← hf.worth, ← hf.visible] at *
  cases e with
  | none => exact ⟨hs, fun _ _ => rfl, fun _ _ => rfl, by rw [← he]; simp⟩
  | some e =>
    have hval : coinValue (v'.visible o) = coinValue e.coin.unspent := by rw [← he]; rfl
    refine ⟨⟨hs.1.spend, hs.2⟩, fun o' ho' => ?_, fun o' ho' => ?_, ?_⟩
    · simp only [elim_some, visible, Cache.spend]
      split_ifs
      · rw [over_drop, Function.update_of_ne ho']
      · rw [over_set, Function.update_of_ne ho']
    · refine worth_congr ?_
      unfold Cache.spend
      split_ifs
      · rw [lookup_drop, if_neg ho']
      · rw [lookup_set, if_neg ho']
    · rw [worth_of_lookup hl, hval, elim_some, slotWorth_some]
      cases hfr : e.fresh with
      | true =>
        rw [worth_of_lookup (u := none) (by simp [Cache.spend, hfr, lookup_drop]),
          slotWorth_none, if_pos rfl]
        dsimp only
        omega
      | false =>
        rw [worth_of_lookup (by simp [Cache.spend, hfr, lookup_set]; rfl)]
        simp [unspent_of_isSpent (isSpent_clear _)]

theorem wp_addCoin_worth {coin : Coin} {po : Bool} (h : v.Sound)
    (hr : moneyRange coin.out.nValue = true) :
    wp (addCoin F o coin po)
      (fun _ v' => v'.Sound ∧ (∀ o' ≠ o, v'.worth o' = v.worth o') ∧
        v'.worth o ≤ v.worth o + coin.out.nValue) (fun _ => True) v := by
  have hcoin : coin.isSpent = false := by
    have := moneyRange_iff.1 hr
    simp only [Coin.isSpent, TxOut.isNull, beq_eq_false_iff_ne, ne_eq]
    omega
  have hpos : 0 ≤ coin.out.nValue := (moneyRange_iff.1 hr).1
  have hbelow : 0 ≤ coinValue (v.base.visible o) := View.Sound.value_nonneg h.2
  refine wp_addCoin_entry rfl hcoin (fun _ => ⟨h, fun _ _ => rfl, by omega⟩) (fun _ _ => trivial)
    fun hs hsp => ⟨⟨h.1.set rfl fun c hc => ?_, h.2⟩, fun o' ho' => ?_, ?_⟩
  · rw [unspent_of_not_isSpent hcoin] at hc
    cases hc
    exact hr
  · exact worth_congr (by rw [lookup_set, if_neg ho'])
  · rw [worth_of_lookup (by rw [lookup_set, if_pos rfl]), slotWorth_some,
      unspent_of_not_isSpent hcoin]
    change coin.out.nValue + _ ≤ _
    cases hl : v.top.cacheCoins.lookup o with
    | none =>
      rw [worth_of_lookup hl, slotWorth_none]
      dsimp only
      split_ifs <;> omega
    | some e =>
      have hshown : 0 ≤ coinValue e.coin.unspent := by
        have := View.Sound.value_nonneg (o := o) h
        rwa [toView, View.visible, over_of_some hl] at this
      rw [worth_of_lookup hl]
      -- a clean spent entry is over nothing, so that setting FRESH buries nothing
      have hclean : e.dirty = false → e.coin.isSpent = true → coinValue (v.base.visible o) = 0 := by
        intro hd hes
        rw [h.1.clean o e hl hd, unspent_of_isSpent hes]
        rfl
      cases e.fresh <;> cases po <;> cases hd : e.dirty <;> simp_all
      all_goals omega

end CacheView

namespace Cache

variable {c' : Cache} {m : CoinMap} {o : OutPoint}

theorem lookup_batchWriteEntry (h : batchWriteEntry F erase o e c = .ok () c') (o' : OutPoint) :
    c'.cacheCoins.lookup o' =
      if o' = o then mergeEntry erase e (c.cacheCoins.lookup o) else c.cacheCoins.lookup o' := by
  obtain ⟨hd, hr⟩ | ⟨hd, hl, hfr, hs, hr⟩ | ⟨hd, hl, hfs, hr⟩ | ⟨u, hd, hl, hfr, hu, hr⟩ |
    ⟨u, hd, hl, hu, hs, hr⟩ | ⟨u, hd, hl, hus, hr⟩ := batchWriteEntry_cases erase e
  all_goals rw [hr] at h; cases h
  · split_ifs with ho
    · rw [ho, mergeEntry_of_clean hd]
    · rfl
  · split_ifs with ho
    · rw [ho, hl]
      simp [mergeEntry, hfr, hs]
    · rfl
  · rw [lookup_set, hl]
    simp [mergeEntry, hd, if_neg hfs]
  · rw [lookup_drop, hl]
    simp [mergeEntry, hd, hu, hs]
  · rw [lookup_set, hl]
    simp [mergeEntry, hd, if_neg hus]

theorem lookup_batchWriteEntries {l : List (Sigma fun _ : OutPoint => CacheEntry)}
    (h : batchWriteEntries F erase l c = .ok () c') (hn : l.NodupKeys) (o : OutPoint) :
    c'.cacheCoins.lookup o = (l.dlookup o).elim (c.cacheCoins.lookup o)
      fun e => mergeEntry erase e (c.cacheCoins.lookup o) := by
  induction l generalizing c with
  | nil => cases h; rfl
  | cons x l ih =>
    obtain ⟨hx, hn'⟩ := List.nodupKeys_cons.1 hn
    cases hr : batchWriteEntry F erase x.1 x.2 c with
    | error f c1 => simp [batchWriteEntries, bind, EStateM.bind, hr] at h
    | ok u c1 =>
      simp only [batchWriteEntries, bind, EStateM.bind, hr] at h
      rw [ih h hn', lookup_batchWriteEntry hr]
      by_cases ho : o = x.1
      · -- the key does not occur again
        obtain ⟨o', e⟩ := x
        obtain rfl : o = o' := ho
        simp [List.dlookup_eq_none.2 hx]
      · rw [if_neg ho, List.dlookup_cons_ne l x ho]

theorem lookup_batchWrite {child : CoinsMap} {b : Uint256}
    (h : batchWrite F child b erase c = .ok () c') (o : OutPoint) :
    c'.cacheCoins.lookup o = (child.lookup o).elim (c.cacheCoins.lookup o)
      fun e => mergeEntry erase e (c.cacheCoins.lookup o) := by
  cases hr : batchWriteEntries F erase child.entries c with
  | error f c1 => simp [batchWrite, bind, EStateM.bind, hr] at h
  | ok u c1 =>
    simp only [batchWrite, bind, EStateM.bind, hr] at h
    cases h
    exact lookup_batchWriteEntries hr child.nodupKeys o

end Cache

theorem CoinsDB.visible_batchWrite {child : Cache} {b : Uint256}
    (h : d.batchWrite child.cacheCoins b = .ok d') (o : OutPoint) :
    d'.visible o = (child.cacheCoins.lookup o).elim (d.visible o)
      fun e => if e.dirty then e.coin.unspent else d.visible o := by
  simp only [CoinsDB.batchWrite] at h
  split_ifs at h
  cases h
  exact congrFun (CoinsDB.visible_foldl_writeEntry _ d child.cacheCoins.nodupKeys) o

/-- What writing the layer `child` into the view `v` makes of it: nothing is brought, and the
unspent coins of the layer are now shown below. -/
structure WrittenBack (child : Cache) (v v' : View) : Prop where
  sound : v'.Sound
  worth : ∀ o, v'.worth o ≤ (cache child v).worth o
  shown : ∀ o e, child.cacheCoins.lookup o = some e → e.coin.isSpent = false →
    v'.visible o = some e.coin

namespace WrittenBack

variable {child : Cache} {b : Uint256}

theorem db (h : (cache child (.db d)).Sound)
    (hw : d.batchWrite child.cacheCoins b = .ok d') : WrittenBack child (.db d) (.db d') := by
  have hvis := CoinsDB.visible_batchWrite hw
  refine ⟨fun o coin ho => ?_, fun o => ?_, fun o e hl hs => ?_⟩
  · rw [hvis] at ho
    cases hl : child.cacheCoins.lookup o with
    | none => rw [hl] at ho; exact h.2 o coin ho
    | some e =>
      rw [hl, elim_some] at ho
      split_ifs at ho
      · exact h.1.range o e coin hl ho
      · exact h.2 o coin ho
  · have hbelow : 0 ≤ coinValue (d.visible o) := View.Sound.value_nonneg h.2
    rw [View.worth_cache, View.worth, View.visible, View.visible, hvis, View.buried, View.buried]
    cases hl : child.cacheCoins.lookup o with
    | none => simp
    | some e =>
      have hclean : e.dirty = false → coinValue (d.visible o) = coinValue e.coin.unspent :=
        fun hd => congrArg coinValue (h.1.clean o e hl hd)
      rw [slotWorth_some, elim_some]
      split_ifs <;> simp_all
  · rw [visible, hvis, hl, elim_some]
    have hu := unspent_of_not_isSpent hs
    split_ifs with hd
    · exact hu
    · exact (h.1.clean o e hl (by simpa using hd)).trans hu

theorem cache {c c' : Cache} {base : View} (h : (cache child (.cache c base)).Sound)
    (hw : c.batchWrite F child.cacheCoins b erase = .ok () c') :
    WrittenBack child (.cache c base) (.cache c' base) := by
  have hlook := lookup_batchWrite hw
  have hshown : ∀ o, coinValue ((View.cache c base).visible o) =
      slotValue (c.cacheCoins.lookup o) (coinValue (base.visible o)) := fun o => coinValue_over
  -- an entry of the parent is an old one, or dirty and with a coin of the child
  have hcases : ∀ o e', c'.cacheCoins.lookup o = some e' → c.cacheCoins.lookup o = some e' ∨
      ∃ e, child.cacheCoins.lookup o = some e ∧ e'.dirty = true ∧ e'.coin = e.coin := by
    intro o e' hl'
    rw [hlook] at hl'
    cases hl : child.cacheCoins.lookup o with
    | none => rw [hl] at hl'; exact .inl hl'
    | some e =>
      rw [hl] at hl'
      exact (mergeEntry_eq_some hl').imp_right fun h => ⟨e, rfl, h⟩
  refine ⟨⟨⟨fun o e' hl' hd' => ?_, fun o e' coin hl' hu => ?_⟩, h.2.2⟩, fun o => ?_,
    fun o e hl hs => ?_⟩
  · obtain hold | ⟨e, -, hd, -⟩ := hcases o e' hl'
    · exact h.2.1.clean o e' hold hd'
    · simp [hd] at hd'
  · obtain hold | ⟨e, hl, -, heq⟩ := hcases o e' hl'
    · exact h.2.1.range o e' coin hold hu
    · exact h.1.range o e coin hl (heq ▸ hu)
  · rw [worth_cache, worth_cache, hlook, hshown]
    cases hl : child.cacheCoins.lookup o with
    | none => rw [slotWorth_none]; exact le_rfl
    | some e =>
      refine slotWorth_mergeEntry (fun hd => ?_) ?_
      · rw [← hshown, h.1.clean o e hl hd]
      · rw [← hshown]; exact h.2.value_nonneg
  · have hl' := hlook o
    rw [hl, elim_some] at hl'
    have hu := unspent_of_not_isSpent hs
    cases hd : e.dirty with
    | false =>
      rw [mergeEntry_of_clean hd] at hl'
      rw [visible, Cache.over, hl', ← hu, ← h.1.clean o e hl hd]
      rfl
    | true =>
      obtain ⟨w, hm, hcoin⟩ := mergeEntry_of_unspent hd hs
      rw [visible, over_of_some (hl'.trans hm), hcoin, hu]

variable {v v' : View}

theorem of_batchWrite (h : (View.cache child v).Sound)
    (hr : v.batchWrite F child.cacheCoins b erase = .ok v') : WrittenBack child v v' := by
  cases v with
  | db d =>
    cases hw : d.batchWrite child.cacheCoins b with
    | error f => simp [View.batchWrite, hw, Except.map] at hr
    | ok d' =>
      simp only [View.batchWrite, hw, Except.map] at hr
      cases hr
      exact db h hw
  | cache c base =>
    cases hw : c.batchWrite F child.cacheCoins b erase with
    | error f c1 => simp [View.batchWrite, hw] at hr
    | ok u c' =>
      simp only [View.batchWrite, hw] at hr
      cases hr
      exact cache h hw

theorem emptied (h : WrittenBack child v v') : (View.cache child.emptied v').Sound ∧
    ∀ o, (View.cache child.emptied v').worth o ≤ (View.cache child v).worth o := by
  have hnone : ∀ o, child.emptied.cacheCoins.lookup o = none := fun o => by simp [Cache.emptied]
  refine ⟨⟨⟨fun o e hl => ?_, fun o e coin hl => ?_⟩, h.sound⟩, fun o => ?_⟩
  · rw [hnone] at hl; cases hl
  · rw [hnone] at hl; cases hl
  · rw [worth_cache, hnone, slotWorth_none]
    exact h.worth o

/-- What `Sync` leaves of the layer: its entries repeat what is below. -/
theorem clearFlags (h : WrittenBack child v v') : (View.cache (child.clearFlags F) v').Sound ∧
    ∀ o, (View.cache (child.clearFlags F) v').worth o ≤ (View.cache child v).worth o := by
  refine ⟨⟨⟨fun o e hl _ => ?_, fun o e coin hl hu => ?_⟩, h.sound⟩, fun o => ?_⟩
  · obtain ⟨e0, hl0, hs, rfl⟩ := lookup_clearFlags hl
    rw [h.shown o e0 hl0 hs, unspent_of_not_isSpent hs]
  · obtain ⟨e0, hl0, hs, rfl⟩ := lookup_clearFlags hl
    rw [unspent_of_not_isSpent hs] at hu
    cases hu
    exact h.sound.range o _ (h.shown o e0 hl0 hs)
  · refine le_trans (le_of_eq ?_) (h.worth o)
    rw [View.worth_cache, View.worth]
    cases hl : (child.clearFlags F).cacheCoins.lookup o with
    | none => rw [slotWorth_none]
    | some e =>
      obtain ⟨e0, hl0, hs, rfl⟩ := lookup_clearFlags hl
      rw [slotWorth_some, h.shown o e0 hl0 hs, unspent_of_not_isSpent hs]
      simp

end WrittenBack

end KPCoin.Coins
