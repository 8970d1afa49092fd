import KPCoin.Coins.Worth
import KPCoin.Data.SumLe
import KPCoin.Validation.Disconnect

/-!
# No inflation

Blocks connected one after another onto the empty set of coins.  `ConnectTip` connects a block in a
cache of its own and flushes it into the coins of the tip; between blocks `FlushStateToDisk` may
write those to the database.

* `Gains v v' d` : going from `v` to `v'` brings at most `d`;
* `wp_connectBlock_gains` : a block brings at most its subsidy, and no sum overflows;
* `no_inflation` : the supply is bounded by the subsidies.
-/

namespace KPCoin.Validation

open List Program Coins Consensus

variable {T : TxFns} {v v' v'' : CacheView} {d d' : ℤ} {tx : Transaction} {nHeight : ℕ}

/-- From `v` to `v'` the worth of the coins grows by at most `d`. -/
structure Gains (v v' : CacheView) (d : ℤ) : Prop where
  sound : v'.Sound
  bound : ∀ B, SumLe v.worth B → SumLe v'.worth (B + d)

theorem Gains.trans (h1 : Gains v v' d) (h2 : Gains v' v'' d') : Gains v v'' (d + d') :=
  ⟨h2.sound, fun B hB => by rw [← add_assoc]; exact h2.bound _ (h1.bound B hB)⟩

theorem Gains.le (h : Gains v v' d) (hd : d ≤ d') : Gains v v' d' :=
  ⟨h.sound, fun B hB S => (h.bound B hB S).trans (by omega)⟩

theorem Gains.fill (h : v.Sound) (hf : v.Fill v') : Gains v v' 0 :=
  ⟨h.fill hf, fun B hB => by rwa [hf.worth, add_zero]⟩

theorem Gains.refl (h : v.Sound) : Gains v v 0 := .fill h (.refl v)

theorem wp_spendInputs_gains {l : List TxIn} (h : v.Sound) (hn : (l.map TxIn.prevout).Nodup) :
    wp (l.mapM (spendInput T))
      (fun _ v' => Gains v v' (-(l.map fun t => coinValue (v.visible t.prevout)).sum))
      (fun _ => True) v := by
  refine (wp_mapM (fun done _ v' =>
    Gains v v' (-(done.map fun t => coinValue (v.visible t.prevout)).sum) ∧
      ∀ o ∉ done.map TxIn.prevout, v'.visible o = v.visible o) ⟨.refl h, fun _ _ => rfl⟩ ?_).mono
    (fun _ _ h => h.1) fun _ => id
  rintro done t rest coins v' rfl ⟨hg, hvis⟩
  -- the inputs are distinct, so the coin is still the one shown at the start
  have ht : t.prevout ∉ done.map TxIn.prevout := by
    rw [map_append, nodup_append] at hn
    exact fun hm => hn.2.2 _ hm _ (by simp) rfl
  simp only [spendInput, wp_bind]
  refine (CacheView.wp_spendCoin_worth hg.sound).mono
    (fun r v1 ⟨hs1, hvis1, hne, hw⟩ => ?_) fun _ => id
  have hspend : Gains v' v1 (-coinValue (v.visible t.prevout)) := by
    refine ⟨hs1, fun B hB => hB.update hne hs1.worth_nonneg ?_⟩
    rw [hw, hvis _ ht]
    exact le_of_eq (sub_eq_add_neg _ _)
  cases r with
  | none => trivial
  | some coin =>
    refine ⟨(hg.trans hspend).le ?_, fun o ho => ?_⟩
    · simp only [map_append, sum_append, map_singleton, sum_singleton]
      omega
    · obtain ⟨ho1, ho2⟩ : o ∉ done.map TxIn.prevout ∧ o ≠ t.prevout := by simpa using ho
      rw [hvis1 o ho2, hvis o ho1]

theorem wp_addCoins_gains (h : v.Sound) (htx : TxChecked tx) :
    wp (addCoins T tx nHeight false)
      (fun _ v' => Gains v v' (tx.vout.map TxOut.nValue).sum) (fun _ => True) v := by
  have hloop := wp_forM_zipIdx (l := tx.vout) (E := fun _ => True)
    (f := fun x => do
      let overwrite ← (if false = true then CacheView.haveCoin T.toScriptFns ⟨T.getHash tx, x.2⟩
        else pure (T.isCoinBase tx))
      CacheView.addCoin T.toScriptFns ⟨T.getHash tx, x.2⟩
        { out := x.1, nHeight, fCoinBase := T.isCoinBase tx } overwrite)
    (fun k v' => Gains v v' ((tx.vout.take k).map TxOut.nValue).sum) (.refl h) ?_
  · rw [take_length] at hloop
    exact hloop
  rintro k out v' hk hg
  refine (CacheView.wp_addCoin_worth hg.sound
    (htx.vout_range out (mem_of_getElem? hk))).mono (fun _ v1 ⟨hs1, hne, hw⟩ => ?_) fun _ => id
  have hadd : Gains v' v1 out.nValue := ⟨hs1, fun B hB => hB.update hne hs1.worth_nonneg hw⟩
  refine (hg.trans hadd).le (le_of_eq ?_)
  rw [take_add_one, hk]
  simp

theorem wp_updateCoins_gains (h : v.Sound) (htx : TxChecked tx) :
    wp (updateCoins T tx nHeight)
      (fun _ v' => Gains v v' ((tx.vout.map TxOut.nValue).sum - if T.isCoinBase tx then 0
        else (tx.vin.map fun t => coinValue (v.visible t.prevout)).sum)) (fun _ => True) v := by
  have hspend : wp (if T.isCoinBase tx then pure [] else tx.vin.mapM (spendInput T))
      (fun _ v' => Gains v v' (-if T.isCoinBase tx then 0
        else (tx.vin.map fun t => coinValue (v.visible t.prevout)).sum)) (fun _ => True) v := by
    split_ifs
    · exact (Gains.refl h).le (by simp)
    · exact wp_spendInputs_gains h htx.prevouts_nodup
  simp only [updateCoins, wp_bind]
  refine hspend.mono (fun _ v1 h1 => ?_) fun _ => id
  refine (wp_addCoins_gains h1.sound htx).mono (fun _ v2 h2 => ?_) fun _ => id
  exact (h1.trans h2).le (by omega)

variable {E : Env} {X : Connect} {block : Block} {rest : Coins.Cache → Coins.Cache} {F : ScriptFns}

/-- A transaction that is not the coinbase brings nothing but loses its fee. -/
theorem wp_connectTx_gains {acc : Progress} {i : ℕ} (h : v.Sound)
    (htx : TxChecked tx) (hf : moneyRange acc.nFees = true) :
    wp (connectTx E X acc (tx, i))
      (fun acc' v' => moneyRange acc'.nFees = true ∧
        if E.tx.isCoinBase tx then
          acc'.nFees = acc.nFees ∧ Gains v v' (tx.vout.map TxOut.nValue).sum
        else Gains v v' (acc.nFees - acc'.nFees)) (· ≠ .overflow) v := by
  simp only [connectTx, wp_bind, wp_mapError]
  refine (wp_checkConnect htx hf).mono (fun acc1 v1 ⟨h1, _, hn, hsp⟩ => ?_)
    fun e he => he (View.Sound.range h)
  refine (wp_updateCoins_gains (h.fill h1) htx).mono (fun undo v2 h2 => ?_) fun _ _ => by simp
  have hg := (Gains.fill h h1).trans h2
  have hfees : ∀ c : Prop, [Decidable c] → (if c then
      { acc1 with vtxundo := acc1.vtxundo ++ [undo] } else acc1 : Progress).nFees = acc1.nFees := by
    intro c _
    split_ifs <;> rfl
  rw [wp_pure, hfees]
  refine ⟨hn, ?_⟩
  rw [h1.visible] at hg
  cases hcb : E.tx.isCoinBase tx with
  | true =>
    simp only [hcb, ↓reduceIte] at hsp hg
    exact ⟨hsp, hg.le (by omega)⟩
  | false =>
    simp only [hcb, Bool.false_eq_true, ↓reduceIte] at hsp hg
    exact hg.le (by rw [hsp.fee]; omega)

theorem wp_connectTxs_gains {cb : Transaction} (h : v.Sound) (hb : BlockChecked E block)
    (hcb : block.vtx.head? = some cb) :
    wp (block.vtx.zipIdx.foldlM (connectTx E X) {})
      (fun acc v' => moneyRange acc.nFees = true ∧
        Gains v v' ((cb.vout.map TxOut.nValue).sum - acc.nFees)) (· ≠ .overflow) v := by
  obtain ⟨cb', rest, hvtx, hiscb, hrest⟩ := hb.coinbase_first
  obtain rfl : cb' = cb := by simpa [hvtx] using hcb
  have hloop := wp_foldlM_zipIdx (l := block.vtx) (f := connectTx E X) (b := {})
    (E := (· ≠ .overflow))
    (fun i acc v' => moneyRange acc.nFees = true ∧
      Gains v v' ((if i = 0 then 0 else (cb'.vout.map TxOut.nValue).sum) - acc.nFees) ∧
      (i = 0 → acc.nFees = 0)) ⟨by decide, .refl h, fun _ => rfl⟩ ?_
  · refine hloop.mono (fun acc v' ⟨hf, hg, _⟩ => ⟨hf, ?_⟩) fun _ => id
    rwa [if_neg (by simp [hvtx])] at hg
  rintro i tx acc v' hi ⟨hf, hg, -⟩
  refine (wp_connectTx_gains hg.sound (hb.checked tx (mem_of_getElem? hi)) hf).mono
    (fun acc1 v1 ⟨hf1, hg1⟩ => ⟨hf1, ?_, by simp⟩) fun _ => id
  cases i with
  | zero =>
    obtain rfl : cb' = tx := by simpa [hvtx] using hi
    rw [if_pos hiscb] at hg1
    exact (hg.trans hg1.2).le (by rw [if_pos rfl]; omega)
  | succ i =>
    have htx : E.tx.isCoinBase tx = false := by
      rw [hvtx] at hi
      exact hrest tx (mem_of_getElem? hi)
    rw [if_neg (by simp [htx])] at hg1
    exact (hg.trans hg1).le (by rw [if_neg (Nat.succ_ne_zero i)]; omega)

theorem wp_connectBlock_gains (h : v.Sound) :
    wp (connectBlock E X block)
      (fun r v' => r.isSome = true → Gains v v' (getBlockSubsidy X.index.nHeight E.params))
      (· ≠ .overflow) v := by
  refine wp_connectBlock_of_loop (P := fun acc v' => BlockChecked E block ∧
      ∀ cb ∈ block.vtx.head?, Gains v v' ((cb.vout.map TxOut.nValue).sum - acc.nFees))
    (fun _ => id) (fun v1 hf hb _ _ => ?_) (fun _ _ => by simp) (fun _ _ _ => by simp)
    fun acc v2 v3 ⟨hb, hP⟩ hf hlimit _ => ?_
  · obtain ⟨cb, rest, hvtx, -⟩ := hb.coinbase_first
    have hcb : block.vtx.head? = some cb := by simp [hvtx]
    refine (wp_connectTxs_gains (h.fill hf) hb hcb).mono
      (fun acc v2 ⟨hn, hg⟩ => ⟨hn, hb, fun cb' hcb' => ?_⟩) fun _ => id
    obtain rfl : cb = cb' := by simpa [hvtx] using hcb'
    exact ((Gains.fill h hf).trans hg).le (by omega)
  · obtain ⟨cb, rest, hvtx, -⟩ := hb.coinbase_first
    have hcb : cb ∈ block.vtx.head? := by simp [hvtx]
    have hg := hP cb hcb
    have hval := hlimit cb hcb
    have htx := hb.checked cb (by simp [hvtx])
    rw [E.tx.getValueOut_eq cb htx.vout_range htx.total_range] at hval
    exact (hg.trans (.fill hg.sound hf)).le (by omega)

/-- The coins of the tip and its height. -/
structure ChainState where
  coins : View
  height : ℕ

/-- What happens to the coins of the tip. -/
inductive ChainStep
  | connectTip (X : Connect) (block : Block)
  | flush
  | sync

/-- One step: `ConnectTip` of the next block, or `FlushStateToDisk`, which flushes or syncs the
coins of the tip.  A failed step is `none`. -/
def ChainState.exec (E : Env) (s : ChainState) : ChainStep → Option ChainState
  | .connectTip X block =>
    if X.index.nHeight = s.height + 1 then
      (connectTip E X block s.coins).map fun (_, coins) => { coins, height := s.height + 1 }
    else none
  | .flush => (writeTip (CacheView.flush E.tx.toScriptFns) s.coins).map ({ s with coins := · })
  | .sync => (writeTip (CacheView.sync E.tx.toScriptFns) s.coins).map ({ s with coins := · })

/-- The chain from the genesis block on, whose outputs are not added to the coins. -/
def chainLts (E : Env) : LTS ChainState ChainStep where
  init s := s.height = 0 ∧ ∃ c d, s.coins = .cache c (.db d) ∧ c.cacheCoins = ∅ ∧ d.coins = ∅
  step s l s' := s.exec E l = some s'

/-- The supply the subsidies allow up to a height. -/
def subsidies (p : Params) (height : ℕ) : ℤ :=
  ∑ k ∈ Finset.range height, getBlockSubsidy (k + 1) p

/-- The coins are sound and worth at most the subsidies. -/
def SupplyBounded (E : Env) (s : ChainState) : Prop :=
  s.coins.Sound ∧ SumLe s.coins.worth (subsidies E.params s.height)

theorem wp_writeBack_worth {erase : Bool} (h : v.Sound) :
    wp (CacheView.writeBack F erase rest)
      (fun _ v' => v'.top = rest v.top ∧ WrittenBack v.top v.base v'.base) (fun _ => True) v := by
  unfold wp CacheView.writeBack
  cases hr : v.base.batchWrite F v.top.cacheCoins v.top.hashBlock erase with
  | ok b => exact ⟨rfl, .of_batchWrite h hr⟩
  | error f => trivial

variable {s s' : ChainState}

theorem SupplyBounded.init (h : (chainLts E).init s) : SupplyBounded E s := by
  obtain ⟨hh, c, d, hs, hc, hd⟩ := h
  have hworth : s.coins.worth = fun _ => 0 := by
    funext o
    rw [hs, View.worth_cache, hc]
    simp [View.visible, Coins.CoinsDB.visible, hd, View.buried]
  refine ⟨?_, ?_⟩
  · rw [hs]
    exact ⟨⟨by simp [hc], by simp [hc]⟩, fun o coin ho => by
      simp [Coins.CoinsDB.visible, hd] at ho⟩
  · rw [hworth, hh]
    exact SumLe.zero

theorem SupplyBounded.writeTip {erase : Bool} (h : SupplyBounded E s)
    (hrest : ∀ c v v', WrittenBack c v v' → (View.cache (rest c) v').Sound ∧
      ∀ o, (View.cache (rest c) v').worth o ≤ (View.cache c v).worth o)
    (hst : (writeTip (CacheView.writeBack F erase rest) s.coins).map ({ s with coins := · }) =
      some s') : SupplyBounded E s' := by
  obtain ⟨hs, hB⟩ := h
  obtain ⟨coins, hwrite, rfl⟩ := Option.map_eq_some_iff.1 hst
  obtain ⟨c, base, u, v', hcoins, hr, rfl⟩ := writeTip_eq_some hwrite
  rw [hcoins] at hs hB
  obtain ⟨htop, hwb⟩ := (wp_writeBack_worth (v := ⟨c, base⟩) hs).ok hr
  obtain ⟨hs', hle⟩ := hrest c base v'.base hwb
  have hv : v'.toView = .cache (rest c) v'.base := by rw [CacheView.toView, htop]
  exact ⟨hv ▸ hs', hv ▸ hB.mono hle⟩

theorem SupplyBounded.connectTip (h : SupplyBounded E s)
    (hst : s.exec E (.connectTip X block) = some s') : SupplyBounded E s' := by
  obtain ⟨hs, hB⟩ := h
  have hview : CacheView.Sound { base := s.coins } := ⟨⟨by simp, by simp⟩, hs⟩
  simp only [ChainState.exec] at hst
  split_ifs at hst with hheight
  obtain ⟨⟨undo, coins⟩, hconnect, rfl⟩ := Option.map_eq_some_iff.1 hst
  obtain ⟨v1, hconn, htip⟩ := connectTip_eq_some hconnect
  obtain ⟨u, v2, hflush, rfl⟩ := flushTip_eq_some htip
  have hg : Gains { base := s.coins } v1 (getBlockSubsidy (s.height + 1) E.params) := by
    rw [← hheight]
    exact (wp_connectBlock_gains hview).ok hconn rfl
  obtain ⟨-, hwb⟩ := (wp_writeBack_worth hg.sound).ok hflush
  have hstart : CacheView.worth { base := s.coins } = s.coins.worth := by
    funext o
    exact View.worth_cache.trans (by simp [View.worth])
  refine ⟨hwb.sound, SumLe.mono ?_ hwb.worth⟩
  rw [subsidies, Finset.sum_range_succ]
  exact hg.bound _ (hstart ▸ hB)

theorem supplyBounded_reachable (h : (chainLts E).Reachable s) : SupplyBounded E s := by
  refine h.invariant (fun s => .init) fun s l s' hs hst => ?_
  cases l with
  | connectTip X block => exact hs.connectTip hst
  | flush => exact hs.writeTip (fun _ _ _ hwb => hwb.emptied) hst
  | sync => exact hs.writeTip (fun _ _ _ hwb => hwb.clearFlags) hst

theorem finite_lookup {β : Type} (m : Map OutPoint β) : {o | m.lookup o ≠ none}.Finite := by
  refine m.keys.toFinset.finite_toSet.subset fun o ho => ?_
  rw [Finset.mem_coe, mem_toFinset]
  exact AList.lookup_isSome.1 (Option.isSome_iff_ne_none.2 ho)

theorem finite_visible (v : View) : {o | v.visible o ≠ none}.Finite := by
  induction v with
  | db d => exact finite_lookup d.coins
  | cache c base ih =>
    refine ((finite_lookup c.cacheCoins).union ih).subset fun o ho => ?_
    by_cases hl : c.cacheCoins.lookup o = none
    · exact .inr fun hn => ho ((Coins.Cache.over_of_none hl).trans hn)
    · exact .inl hl

theorem supply_le_subsidies (h : (chainLts E).Reachable s) :
    ∑ᶠ o, coinValue (s.coins.visible o) ≤ subsidies E.params s.height := by
  obtain ⟨hs, hB⟩ := supplyBounded_reachable h
  have hvalues : SumLe (fun o => coinValue (s.coins.visible o)) (subsidies E.params s.height) :=
    hB.mono fun o => le_add_of_nonneg_right hs.buried_nonneg
  refine hvalues.finsum_le ((finite_visible s.coins).subset fun o ho hn => ho ?_)
  simp [hn]

/-- **No inflation**: in every state reached by connecting blocks from the empty set of coins, the
values of all coins add up to at most the subsidies of the blocks connected, and whatever block
comes next, no sum of amounts in its checks leaves the range of 64 bits. -/
theorem no_inflation {s : ChainState} (h : (chainLts E).Reachable s) :
    {o | s.coins.visible o ≠ none}.Finite ∧
      ∑ᶠ o, coinValue (s.coins.visible o) ≤
        ∑ k ∈ Finset.range s.height, getBlockSubsidy (k + 1) E.params ∧
      (∀ X block v', connectBlock E X block { base := s.coins } ≠ .error .overflow v') ∧
      (∀ block fCheckPOW fCheckMerkleRoot,
        checkBlock E block fCheckPOW fCheckMerkleRoot ≠ .error .overflow) ∧
      ∀ tx, Consensus.checkTransaction E.tx tx ≠ .error .overflow := by
  obtain ⟨hs, -⟩ := supplyBounded_reachable h
  refine ⟨finite_visible s.coins, supply_le_subsidies h, fun X block v' he => ?_,
    fun block pow merkle he => ?_, fun tx he => ?_⟩
  · have hview : CacheView.Sound { base := s.coins } := ⟨⟨by simp, by simp⟩, hs⟩
    exact (wp_connectBlock_gains hview).error he rfl
  · exact (checkBlock_spec E block pow merkle).error he rfl
  · exact (Consensus.checkTransaction_spec E.tx tx).error he rfl

/-- A block with nothing but its coinbase, which takes the whole subsidy. -/
def firstBlock : Block where
  hashPrevBlock := 7
  hashMerkleRoot := 10
  nBits := 0x207fffff
  nNonce := 1
  vtx := [{ vin := [{ prevout := ⟨0, 2 ^ 32 - 1⟩, scriptSig := [1, 0] }],
            vout := [⟨500 * coinUnit, []⟩], nLockTime := 10 }]

/-- The first block after a genesis block with hash 7. -/
def firstConnect : Connect where
  index := { hash := 1, nHeight := 1, nBits := 0x207fffff }
  pprev := [{ hash := 7, nHeight := 0, nBits := 0x207fffff }]

/-- The first block can be connected. -/
theorem exists_reachable_firstBlock : ∃ s, (chainLts sampleEnv).Reachable s ∧ s.height = 1 ∧
    coinValue (s.coins.visible ⟨10, 0⟩) = 50000000000 := by
  let s₀ : ChainState := { coins := .cache {} (.db { bestBlock := 7 }), height := 0 }
  have hrun : (s₀.exec sampleEnv (.connectTip firstConnect firstBlock)).map
      (fun s => (s.height, coinValue (s.coins.visible ⟨10, 0⟩))) = some (1, 50000000000) := by
    decide +kernel
  obtain ⟨s, hs, heq⟩ := Option.map_eq_some_iff.1 hrun
  have hinit : (chainLts sampleEnv).init s₀ := ⟨rfl, {}, _, rfl, rfl, rfl⟩
  exact ⟨s, (LTS.Reachable.start hinit).tail hs, congrArg Prod.fst heq, congrArg Prod.snd heq⟩

/-- The first block is connected: its coinbase is the whole supply, and as much as is allowed. -/
theorem no_inflation_first_block :
    ∃ s, (chainLts sampleEnv).Reachable s ∧ s.height = 1 ∧
      coinValue (s.coins.visible ⟨10, 0⟩) = 50000000000 ∧
      ∑ᶠ o, coinValue (s.coins.visible o) ≤
        ∑ k ∈ Finset.range s.height, getBlockSubsidy (k + 1) sampleEnv.params := by
  obtain ⟨s, hreach, hheight, hcoinbase⟩ := exists_reachable_firstBlock
  exact ⟨s, hreach, hheight, hcoinbase, (no_inflation hreach).2.1⟩

end KPCoin.Validation
