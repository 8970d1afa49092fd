import KPCoin.Coins.Cache
import KPCoin.LTS.Basic

/-!
# The sanity check of the coins cache

`SanityCheck` (`coins.cpp`) asserts that every entry has one of five combinations of DIRTY, FRESH
and spent, and that `cachedCoinsUsage` is the memory used by the cached coins.

* `lts` drives one layer by arbitrary calls, with arbitrary answers of the base view and arbitrary
  maps written by a child; a caller goes on after an exception;
* `UsageSafe` excludes the two calls that lose count: `AddCoin` throwing after it has already
  subtracted the coin it refuses to overwrite, and `EmplaceCoinInternalDANGER` on an occupied key;
* `sanityCheck_reachable` : the check passes in every run without such a call, and fails right
  after the first one.
-/

namespace KPCoin.Coins

open CacheEntry

/-- The combination `SanityCheck` looks at. -/
def CacheEntry.attr (e : CacheEntry) : ℕ :=
  (if e.dirty then 1 else 0) ||| (if e.fresh then 2 else 0) ||| (if e.coin.isSpent then 4 else 0)

/-- One of the five documented combinations. -/
def CacheEntry.FlagsOk (e : CacheEntry) : Prop := e.attr ≠ 2 ∧ e.attr ≠ 4 ∧ e.attr ≠ 7

variable {e : CacheEntry}

/-- The documented combinations, as conditions on the three bits. -/
theorem CacheEntry.flagsOk_iff :
    e.FlagsOk ↔ (e.fresh = true → e.dirty = !e.coin.isSpent) ∧
      (e.coin.isSpent = true → e.dirty = true ∨ e.fresh = true) := by
  simp only [CacheEntry.FlagsOk, attr]
  cases e.dirty <;> cases e.fresh <;> cases e.coin.isSpent <;> decide

namespace Cache

/-- Every entry has a documented combination of flags. -/
def FlagsOk (c : Cache) : Prop := ∀ x ∈ c.cacheCoins.entries, x.2.FlagsOk

variable (F : ScriptFns)

/-- The usage `SanityCheck` recomputes. -/
def recomputedUsage (c : Cache) : BitVec 64 :=
  Map.total (CacheEntry.usage F) c.cacheCoins

/-- `SanityCheck` passes. -/
def SanityCheck (c : Cache) : Prop := c.FlagsOk ∧ c.recomputedUsage F = c.cachedCoinsUsage

/-- The calls made on one layer. -/
inductive Op
  /-- `GetCoin`, `HaveCoin`, `AccessCoin`, with the answer of the base view. -/
  | fetch (o : OutPoint) (base : Option Coin)
  | addCoin (o : OutPoint) (coin : Coin) (capacity : ℕ) (possibleOverwrite : Bool)
  | spendCoin (o : OutPoint) (base : Option Coin)
  /-- A child flushes or syncs into this layer. -/
  | batchWrite (mapCoins : CoinsMap) (hashBlock : Uint256) (erase : Bool)
  | uncache (o : OutPoint)
  | sync
  /-- A `Flush` that returns true. -/
  | flush
  | emplace (o : OutPoint) (coin : Coin) (capacity : ℕ)

/-- One call. -/
def exec : Op → M Unit
  | .fetch o base => modify fun c => (c.fetchCoin F o base).2
  | .addCoin o coin k po => addCoin F o coin k po
  | .spendCoin o base => modify fun c => (c.spendCoin F o base).2
  | .batchWrite m h erase => batchWrite F m h erase
  | .uncache o => modify fun c => c.uncache F o
  | .sync => modify fun c => c.clearFlags F
  | .flush => modify emptied
  | .emplace o coin k => modify fun c => c.emplaceCoinInternalDANGER F o coin k

/-- The layer from its construction on.  A failed assertion ends the run, an exception does not. -/
def lts : LTS Cache Op where
  init c := c = {}
  step c op c' := match exec F op c with
    | .ok _ u => c' = u
    | .error f u => f ≠ .abort ∧ c' = u

/-- The call does not lose count of the usage: `AddCoin` does not throw over a coin that holds
memory, which a short script does as well that was copied over a long one, and
`EmplaceCoinInternalDANGER` does not meet an occupied key with a coin that holds memory. -/
def UsageSafe (c : Cache) : Op → Prop
  | .addCoin o coin _ po => ∀ e, c.cacheCoins.lookup o = some e → e.coin.isSpent = false →
      po = false → F.isUnspendable coin.out.scriptPubKey = false → e.usage F = 0
  | .emplace o _ k => c.cacheCoins.lookup o = none ∨ dynamicMemoryUsage F k = 0
  | _ => True

variable {F} {c c' : Cache}

theorem flagsOk_iff_lookup : c.FlagsOk ↔ ∀ o e, c.cacheCoins.lookup o = some e → e.FlagsOk := by
  simp only [FlagsOk, Map.lookup_eq_some_iff]
  exact ⟨fun h o e he => h ⟨o, e⟩ he, fun h x hx => h x.1 x.2 hx⟩

variable {o : OutPoint} {op : Op}

theorem FlagsOk.set (h : c.FlagsOk) (he : e.FlagsOk) : (c.set F o e).FlagsOk := by
  rw [flagsOk_iff_lookup] at h ⊢
  intro o' e' hl
  rw [lookup_set] at hl
  split_ifs at hl
  · cases hl; exact he
  · exact h o' e' hl

theorem FlagsOk.drop (h : c.FlagsOk) : (c.drop F o).FlagsOk := by
  rw [flagsOk_iff_lookup] at h ⊢
  intro o' e' hl
  rw [lookup_drop] at hl
  split_ifs at hl
  exact h o' e' hl

theorem recomputedUsage_set (h : c.recomputedUsage F = c.cachedCoinsUsage) :
    (c.set F o e).recomputedUsage F = (c.set F o e).cachedCoinsUsage := by
  simp only [recomputedUsage, set, Map.total_insert] at h ⊢
  rw [h]

theorem recomputedUsage_drop (h : c.recomputedUsage F = c.cachedCoinsUsage) :
    (c.drop F o).recomputedUsage F = (c.drop F o).cachedCoinsUsage := by
  simp only [recomputedUsage, drop, Map.total_erase] at h ⊢
  rw [h]

/-- `c'` is made from `c` by storing entries with documented flags, erasing entries and setting
the best block, each accounted for in the usage. -/
inductive Edits (F : ScriptFns) (c : Cache) : Cache → Prop
  | refl : Edits F c c
  | set {c' : Cache} {e : CacheEntry} (o : OutPoint) :
      Edits F c c' → e.FlagsOk → Edits F c (c'.set F o e)
  | drop {c' : Cache} (o : OutPoint) : Edits F c c' → Edits F c (c'.drop F o)
  | best {c' : Cache} (h : Uint256) : Edits F c c' → Edits F c { c' with hashBlock := h }

theorem Edits.flagsOk (he : Edits F c c') (h : c.FlagsOk) : c'.FlagsOk := by
  induction he with
  | refl => exact h
  | set o _ hf ih => exact ih.set hf
  | drop o _ ih => exact ih.drop
  | best b _ ih => exact ih

theorem Edits.recomputedUsage (he : Edits F c c') (h : c.recomputedUsage F = c.cachedCoinsUsage) :
    c'.recomputedUsage F = c'.cachedCoinsUsage := by
  induction he with
  | refl => exact h
  | set o _ _ ih => exact recomputedUsage_set ih
  | drop o _ ih => exact recomputedUsage_drop ih
  | best b _ ih => exact ih

theorem fetchCoin_edits (o : OutPoint) (base : Option Coin) :
    Edits F c (c.fetchCoin F o base).2 := by
  cases h : c.cacheCoins.lookup o with
  | some e => rw [fetchCoin_of_some h]; exact .refl
  | none =>
    rw [fetchCoin_of_none h]
    cases base with
    | none => exact .refl
    | some coin =>
      refine .set o .refl (flagsOk_iff.2 ?_)
      simp [fetchedEntry]

theorem spendCoin_edits (o : OutPoint) (base : Option Coin) :
    Edits F c (c.spendCoin F o base).2 := by
  have hf := fetchCoin_edits (F := F) (c := c) o base
  rw [spendCoin_eq]
  cases (c.fetchCoin F o base).1 with
  | none => exact hf
  | some e =>
    simp only [Option.elim, spend]
    split_ifs with hfresh
    · exact .drop o hf
    · refine .set o hf (flagsOk_iff.2 ?_)
      simp [hfresh]

/-- The loop body of `BatchWrite` accounts for what it does, also when it throws. -/
theorem batchWriteEntry_edits {c0 : Cache} (erase : Bool) (o : OutPoint) (e : CacheEntry)
    (h : Edits F c0 c) : (∃ c', batchWriteEntry F erase o e c = .ok () c' ∧ Edits F c0 c') ∨
      batchWriteEntry F erase o e c = .error freshMisapplied c := by
  obtain ⟨-, hr⟩ | ⟨-, -, -, -, hr⟩ | ⟨-, -, hfs, hr⟩ | ⟨u, -, -, -, -, hr⟩ |
    ⟨u, -, -, -, -, hr⟩ | ⟨u, -, -, hfs, hr⟩ := batchWriteEntry_cases erase e
  · exact .inl ⟨c, hr, h⟩
  · exact .inl ⟨c, hr, h⟩
  · refine .inl ⟨_, hr, .set o h (flagsOk_iff.2 ?_)⟩
    simp_all
  · exact .inr hr
  · exact .inl ⟨_, hr, .drop o h⟩
  · refine .inl ⟨_, hr, .set o h (flagsOk_iff.2 ?_)⟩
    simp_all

theorem batchWriteEntries_edits {c0 : Cache} (erase : Bool)
    (l : List (Sigma fun _ : OutPoint => CacheEntry)) (h : Edits F c0 c) :
    (∃ c', batchWriteEntries F erase l c = .ok () c' ∧ Edits F c0 c') ∨
      ∃ c', batchWriteEntries F erase l c = .error freshMisapplied c' ∧ Edits F c0 c' := by
  induction l generalizing c with
  | nil => exact .inl ⟨c, rfl, h⟩
  | cons x l ih =>
    obtain ⟨c', hr, hc'⟩ | hr := batchWriteEntry_edits erase x.1 x.2 h
    · obtain ⟨u, hu⟩ | ⟨u, hu⟩ := ih hc'
      · exact .inl ⟨u, by simp [batchWriteEntries, bind, EStateM.bind, hr, hu.1], hu.2⟩
      · exact .inr ⟨u, by simp [batchWriteEntries, bind, EStateM.bind, hr, hu.1], hu.2⟩
    · exact .inr ⟨c, by simp [batchWriteEntries, bind, EStateM.bind, hr], h⟩

/-- A call that lost count: the entries are as before and the usage is off by `d`. -/
def Miscounted (c : Cache) (d : BitVec 64) (c' : Cache) : Prop :=
  c'.cacheCoins = c.cacheCoins ∧ c'.cachedCoinsUsage = c.cachedCoinsUsage + d

/-- A call that is off by nothing did nothing. -/
theorem Miscounted.eq {d : BitVec 64} (h : Miscounted c d c') (hb : c'.hashBlock = c.hashBlock)
    (hd : d = 0) : c' = c :=
  Cache.ext h.1 (by rw [h.2, hd, add_zero]) hb

theorem addCoin_step_cases {coin : Coin} {k : ℕ} {po : Bool}
    (h : (lts F).step c (.addCoin o coin k po) c') :
    (Edits F c c' ∧ UsageSafe F c (.addCoin o coin k po)) ∨
      ∃ d, d ≠ 0 ∧ Miscounted c d c' ∧ ¬ UsageSafe F c (.addCoin o coin k po) := by
  cases hc : coin.isSpent with
  | true => simp [lts, exec, addCoin, hc] at h
  | false =>
    cases hs : F.isUnspendable coin.out.scriptPubKey with
    | true =>
      obtain rfl : c' = c := by simpa [lts, exec, addCoin, hc, hs] using h
      exact .inl ⟨.refl, by simp [UsageSafe, hs]⟩
    | false =>
      simp only [lts, exec, addCoin_eq hc hs rfl] at h
      split_ifs at h with hthrow
      · -- the coin in the way has been subtracted and stays
        obtain ⟨rfl, hus⟩ := hthrow
        obtain ⟨-, rfl⟩ := h
        obtain ⟨e, he⟩ : ∃ e, c.cacheCoins.lookup o = some e := by
          cases hl : c.cacheCoins.lookup o with
          | none => simp [hl] at hus
          | some e => exact ⟨e, rfl⟩
        simp only [he, Option.getD_some] at hus ⊢
        by_cases hd : e.usage F = 0
        · refine .inl ⟨?_, by simp_all [UsageSafe]⟩
          simp only [hd, sub_zero]
          exact .refl
        · refine .inr ⟨-e.usage F, by simpa using hd, ⟨rfl, ?_⟩, ?_⟩
          · exact sub_eq_add_neg _ _
          · exact fun hsafe => hd (hsafe e he hus rfl hs)
      · obtain rfl := h
        refine .inl ⟨.set o .refl (flagsOk_iff.2 (by simp [hc])), ?_⟩
        intro e he hus hpo _
        simp [he, hus, hpo] at hthrow

/-- Everything a call can do to the layer. -/
theorem step_cases (h : (lts F).step c op c') :
    (Edits F c c' ∧ UsageSafe F c op) ∨ c' = c.clearFlags F ∧ op = .sync ∨
      c' = c.emptied ∧ op = .flush ∨ ∃ d, d ≠ 0 ∧ Miscounted c d c' ∧ ¬ UsageSafe F c op := by
  cases op with
  | fetch o base => cases h; exact .inl ⟨fetchCoin_edits o base, trivial⟩
  | spendCoin o base => cases h; exact .inl ⟨spendCoin_edits o base, trivial⟩
  | sync => cases h; exact .inr (.inl ⟨rfl, rfl⟩)
  | flush => cases h; exact .inr (.inr (.inl ⟨rfl, rfl⟩))
  | uncache o =>
    obtain rfl : c' = c.uncache F o := h
    obtain hr | ⟨-, -, -, -, hr⟩ := uncache_cases o
    · rw [hr]; exact .inl ⟨.refl, trivial⟩
    · rw [hr]; exact .inl ⟨.drop o .refl, trivial⟩
  | batchWrite m b erase =>
    refine .inl ⟨?_, trivial⟩
    simp only [lts, exec, batchWrite, bind, EStateM.bind] at h
    obtain ⟨u, hr, hu⟩ | ⟨u, hr, hu⟩ := batchWriteEntries_edits erase m.entries .refl
    · rw [hr] at h; cases h; exact .best b hu
    · rw [hr] at h; obtain ⟨-, rfl⟩ := h; exact hu
  | emplace o coin k =>
    obtain rfl : c' = c.emplaceCoinInternalDANGER F o coin k := h
    cases hl : c.cacheCoins.lookup o with
    | none =>
      have hr : c.emplaceCoinInternalDANGER F o coin k =
          c.set F o { coin, capacity := k, dirty := true } := by
        simp [emplaceCoinInternalDANGER, hl, set, CacheEntry.usage]
      rw [hr]
      exact .inl ⟨.set o .refl (flagsOk_iff.2 (by simp)), .inl hl⟩
    | some e =>
      have hm : Miscounted c (dynamicMemoryUsage F k) (c.emplaceCoinInternalDANGER F o coin k) := by
        simp [emplaceCoinInternalDANGER, hl, Miscounted]
      by_cases hd : dynamicMemoryUsage F k = 0
      · have hb : (c.emplaceCoinInternalDANGER F o coin k).hashBlock = c.hashBlock := by
          simp [emplaceCoinInternalDANGER, hl]
        rw [hm.eq hb hd]
        exact .inl ⟨.refl, .inr hd⟩
      · exact .inr (.inr (.inr ⟨_, hd, hm, by simpa [UsageSafe, hl] using hd⟩))
  | addCoin o coin k po =>
    obtain he | hd := addCoin_step_cases h
    · exact .inl he
    · exact .inr (.inr (.inr hd))

theorem clearFlags_flagsOk : (c.clearFlags F).FlagsOk := by
  rw [flagsOk_iff_lookup]
  intro o e hl
  obtain ⟨e0, -, hs, rfl⟩ := lookup_clearFlags hl
  exact flagsOk_iff.2 (by simp [hs])

theorem recomputedUsage_clearFlags (h : c.recomputedUsage F = c.cachedCoinsUsage) :
    (c.clearFlags F).recomputedUsage F = (c.clearFlags F).cachedCoinsUsage := by
  simp only [Cache.recomputedUsage, clearFlags, Map.total_filterMapVals] at h ⊢
  congr 2
  funext e
  cases hs : e.coin.isSpent <;> simp [syncEntry, hs, usage]

theorem FlagsOk.step (h : c.FlagsOk) (hst : (lts F).step c op c') : c'.FlagsOk := by
  obtain ⟨he, -⟩ | ⟨rfl, -⟩ | ⟨rfl, -⟩ | ⟨d, -, hm, -⟩ := step_cases hst
  · exact he.flagsOk h
  · exact clearFlags_flagsOk
  · simp [FlagsOk, emptied]
  · rwa [FlagsOk, hm.1]

theorem SanityCheck.step (h : c.SanityCheck F) (hst : (lts F).step c op c')
    (hsafe : UsageSafe F c op) : c'.SanityCheck F := by
  refine ⟨h.1.step hst, ?_⟩
  obtain ⟨he, -⟩ | ⟨rfl, -⟩ | ⟨rfl, -⟩ | ⟨-, -, -, hn⟩ := step_cases hst
  · exact he.recomputedUsage h.2
  · exact recomputedUsage_clearFlags h.2
  · rfl
  · exact absurd hsafe hn

theorem not_sanityCheck_of_not_usageSafe (h : c.SanityCheck F)
    (hst : (lts F).step c op c') (hn : ¬ UsageSafe F c op) : ¬ c'.SanityCheck F := by
  obtain ⟨-, hs⟩ | ⟨-, rfl⟩ | ⟨-, rfl⟩ | ⟨d, hd, hm, -⟩ := step_cases hst
  · exact absurd hs hn
  · exact absurd trivial hn
  · exact absurd trivial hn
  · rintro ⟨-, hu⟩
    -- the recomputed usage is the old one, the counted usage is off by `d`
    rw [Cache.recomputedUsage, hm.1, ← Cache.recomputedUsage, h.2, hm.2] at hu
    exact hd (left_eq_add.1 hu)

theorem sanityCheck_of_restrict (h : ((lts F).restrict (UsageSafe F)).Reachable c) :
    c.SanityCheck F := by
  refine h.invariant ?_ ?_
  · rintro c rfl
    exact ⟨by simp [FlagsOk], rfl⟩
  · rintro c op c' hc ⟨hst, hsafe⟩
    exact hc.step hst hsafe

variable (F) in
/-- **`SanityCheck` passes in every run without a miscounting call** and fails right after the
first one.  The flags are documented ones in every run. -/
theorem sanityCheck_reachable :
    (∀ c, ((lts F).restrict (UsageSafe F)).Reachable c → c.SanityCheck F) ∧
      (∀ c op c', ((lts F).restrict (UsageSafe F)).Reachable c → (lts F).step c op c' →
        ¬ UsageSafe F c op → ¬ c'.SanityCheck F) ∧
      ∀ c, (lts F).Reachable c → c.FlagsOk := by
  refine ⟨fun c => sanityCheck_of_restrict, fun c op c' h hst hn => ?_, fun c h => ?_⟩
  · exact not_sanityCheck_of_not_usageSafe (sanityCheck_of_restrict h) hst hn
  · refine h.invariant ?_ fun c op c' hc hst => hc.step hst
    rintro c rfl
    simp [FlagsOk]

/-- Heap blocks of a 64-bit platform come in multiples of 16 bytes with 31 bytes added. -/
def scriptMemory : ScriptFns where
  isUnspendable s := s.head? == some 0x6a
  mallocUsage n := if n = 0 then 0 else BitVec.ofNat 64 ((n + 31) / 16 * 16)
  mallocUsage_zero := rfl

/-- A coin with a 34-byte script. -/
def longScriptCoin : Coin where
  out := { nValue := 5, scriptPubKey := List.replicate 34 0 }
  nHeight := 1

/-- The second `AddCoin` throws, and the 64 bytes of the coin that stays are no longer counted. -/
theorem usage_after_refused_overwrite :
    ∃ c, (lts scriptMemory).Reachable c ∧ c.recomputedUsage scriptMemory = 64 ∧
      c.cachedCoinsUsage = 0 ∧ ¬ c.SanityCheck scriptMemory := by
  let c₁ : Cache := Cache.set scriptMemory {} ⟨1, 0⟩
    { coin := longScriptCoin, capacity := 34, dirty := true, fresh := true }
  let c₂ : Cache := { c₁ with cachedCoinsUsage := 0 }
  have e₁ : addCoin scriptMemory ⟨1, 0⟩ longScriptCoin 34 false {} = .ok () c₁ := by
    rfl
  have e₂ : addCoin scriptMemory ⟨1, 0⟩ longScriptCoin 34 false c₁ = .error overwriteError c₂ := by
    rw [addCoin_eq (by decide) (by decide) rfl, if_pos (by decide)]
    exact congrArg _ (Cache.ext rfl (by decide) rfl)
  have h₁ : (lts scriptMemory).Reachable c₁ :=
    (LTS.Reachable.start rfl).tail (l := .addCoin ⟨1, 0⟩ longScriptCoin 34 false)
      (by simp only [lts, exec, e₁])
  have h₂ : (lts scriptMemory).Reachable c₂ :=
    h₁.tail (l := .addCoin ⟨1, 0⟩ longScriptCoin 34 false) (by simp only [lts, exec, e₂]; decide)
  refine ⟨c₂, h₂, by decide, rfl, fun h => ?_⟩
  exact absurd h.2 (by decide)

end Cache

end KPCoin.Coins
