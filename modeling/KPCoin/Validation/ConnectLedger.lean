import KPCoin.Coins.Refinement
import KPCoin.Validation.ConnectBlock
import KPCoin.Validation.Ledger

/-!
# Connecting a block applies its transactions

The link between `ConnectBlock` on a stack of caches and the ledger: where the flags are truthful
and BIP30 is enforced, a block that connects applies its transactions to the map shown, and its
undo data are the coins they spent (`wp_connectBlock`).

`UpdateCoins` relies on `AddCoin` to notice an output that is already there, and `AddCoin` only
looks at the cache it is called on.  So besides the flags the invariant has to carry that the cache
covers every output of the block, which the BIP30 loop establishes.
-/

namespace KPCoin.Validation

open List Program Coins Consensus Ledger

variable {T : TxFns} {v v' v'' : CacheView}

/-- `v'` has truthful flags and covers what `v` covers. -/
structure After (v v' : CacheView) : Prop where
  coherent : v'.Coherent
  covers : ∀ o, v.Covers o → v'.Covers o

theorem After.trans (h1 : After v v') (h2 : After v' v'') : After v v'' :=
  ⟨h2.coherent, fun o h => h2.covers o (h1.covers o h)⟩

theorem After.refl (h : v.Coherent) : After v v := ⟨h, fun _ => id⟩

theorem After.fill (h : v.Coherent) (hf : v.Fill v') : After v v' :=
  ⟨h.fill hf, fun _ h => h.fill hf⟩

theorem eq_some_of_unspent {r : Option Coin} {coin : Coin}
    (h : (r.bind fun coin => coin.unspent) = some coin) : r = some coin := by
  obtain ⟨c, rfl, hc⟩ := Option.bind_eq_some_iff.1 h
  unfold Coin.unspent at hc
  split_ifs at hc
  exact hc

theorem wp_spendInputs {l : List TxIn} {E : Fault → Prop} (hc : v.Coherent)
    (hn : (l.map TxIn.prevout).Nodup) (havail : ∀ t ∈ l, (v.visible t.prevout).isSome = true) :
    wp (l.mapM (spendInput T))
      (fun undo v' => After v v' ∧ v'.visible = without v.visible (l.map TxIn.prevout) ∧
        (l.map TxIn.prevout).map v.visible = undo.map some) E v := by
  refine wp_mapM (fun done undo v' => After v v' ∧
    v'.visible = without v.visible (done.map TxIn.prevout) ∧
      (done.map TxIn.prevout).map v.visible = undo.map some) ⟨.refl hc, by simp, rfl⟩ ?_
  rintro done t rest undo v' rfl ⟨ha, hvis, hundo⟩
  obtain ⟨coin, hcoin⟩ := Option.isSome_iff_exists.1 (havail t (by simp))
  -- none of the inputs done is the next one
  have ht : t.prevout ∉ done.map TxIn.prevout := by
    rw [map_append, nodup_append] at hn
    exact fun hm => hn.2.2 _ hm _ (by simp) rfl
  have hshown : v'.visible t.prevout = some coin := by
    rw [hvis, without, if_neg ht, hcoin]
  simp only [spendInput, wp_bind]
  refine CacheView.wp_spendCoin ha.coherent fun r v1 hc1 hm hcov hr => ?_
  obtain rfl := eq_some_of_unspent (hr.trans hshown)
  refine ⟨ha.trans ⟨hc1, hcov⟩, ?_, by simp [← hundo, hcoin]⟩
  rw [map_append, map_singleton, Ledger.without_append, ← hvis]
  exact (cons.inj hm).1

variable {tx : Transaction} {nHeight : ℕ} {out : TxOut}

theorem createdCoin_isSpent (hout : moneyRange out.nValue = true) :
    Coin.isSpent { out, nHeight, fCoinBase := T.isCoinBase tx } = false := by
  rw [moneyRange_iff] at hout
  simp only [Coin.isSpent, TxOut.isNull, beq_eq_false_iff_ne, ne_eq]
  omega

theorem added_eq {m : CoinMap} {nHeight k : ℕ} {m' : CoinMap} (hout : tx.vout[k]? = some out)
    (hm' : ∀ o, m' o = (createdBelow T nHeight tx k o).or (m o)) (o : OutPoint) :
    CacheView.added T.toScriptFns m' ⟨T.getHash tx, k⟩
      { out, nHeight, fCoinBase := T.isCoinBase tx } o =
      (createdBelow T nHeight tx (k + 1) o).or (m o) := by
  rw [Ledger.createdBelow_succ hout, CacheView.added, createdCoin]
  by_cases ho : o = ⟨T.getHash tx, k⟩
  · subst ho
    split_ifs <;> simp [hm', Ledger.createdBelow_self]
  · split_ifs <;> simp [hm', ho]

theorem wp_addCoins (hc : v.Coherent) (htx : TxChecked tx)
    (hcov : ∀ i < tx.vout.length, v.Covers ⟨T.getHash tx, i⟩)
    (hcb : T.isCoinBase tx = true → ∀ i < tx.vout.length, v.visible ⟨T.getHash tx, i⟩ = none) :
    wp (addCoins T tx nHeight false)
      (fun _ v' => After v v' ∧
        (∀ o, v'.visible o = (created T nHeight tx o).or (v.visible o)) ∧
        ∀ o, created T nHeight tx o ≠ none → v.visible o = none) (fun _ => True) v := by
  rw [← Ledger.createdBelow_length]
  refine wp_forM_zipIdx (fun k v' => After v v' ∧
    (∀ o, v'.visible o = (createdBelow T nHeight tx k o).or (v.visible o)) ∧
    ∀ o, createdBelow T nHeight tx k o ≠ none → v.visible o = none)
    ⟨.refl hc, by simp, by simp⟩ ?_
  rintro k out v' hk ⟨ha, hvis, hfresh⟩
  obtain ⟨hlt, rfl⟩ := List.getElem?_eq_some_iff.1 hk
  -- the output is not one of those already added
  have hsame : v'.visible ⟨T.getHash tx, k⟩ = v.visible ⟨T.getHash tx, k⟩ := by
    rw [hvis, Ledger.createdBelow_self]; rfl
  refine CacheView.wp_addCoin_fresh ha.coherent
    (createdCoin_isSpent (htx.vout_range _ (getElem_mem hlt))) (ha.covers _ (hcov k hlt))
    (fun hpo => hsame.trans (hcb hpo k hlt)) trivial fun v1 hc1 hv1 hnone hcov1 => ?_
  refine ⟨ha.trans ⟨hc1, hcov1⟩, fun o => by rw [hv1]; exact added_eq hk hvis o, fun o ho => ?_⟩
  rw [Ledger.createdBelow_succ hk] at ho
  by_cases hoo : o = ⟨T.getHash tx, k⟩
  · subst hoo
    rw [← hsame]
    refine hnone ?_
    by_contra hu
    simp [createdCoin, hu] at ho
  · rw [Function.update_of_ne hoo] at ho
    exact hfresh o ho

theorem wp_updateCoins (hc : v.Coherent) (htx : TxChecked tx)
    (havail : T.isCoinBase tx = false → ∀ t ∈ tx.vin, (v.visible t.prevout).isSome = true)
    (hcov : ∀ i < tx.vout.length, v.Covers ⟨T.getHash tx, i⟩)
    (hcb : T.isCoinBase tx = true → ∀ i < tx.vout.length, v.visible ⟨T.getHash tx, i⟩ = none) :
    wp (updateCoins T tx nHeight)
      (fun undo v' => After v v' ∧ Applied T nHeight v.visible tx undo v'.visible)
      (fun _ => True) v := by
  have hspend : wp (if T.isCoinBase tx then pure [] else tx.vin.mapM (spendInput T))
      (fun undo v' => After v v' ∧ v'.visible = without v.visible (inputs T tx) ∧
        (inputs T tx).map v.visible = undo.map some) (fun _ => True) v := by
    unfold inputs
    split_ifs with h
    · exact ⟨.refl hc, by simp, rfl⟩
    · exact wp_spendInputs hc htx.prevouts_nodup (havail (by simpa using h))
  have hnodup : (inputs T tx).Nodup := by
    unfold inputs
    split_ifs
    · exact nodup_nil
    · exact htx.prevouts_nodup
  simp only [updateCoins, wp_bind]
  refine hspend.mono ?_ fun _ => id
  rintro undo v1 ⟨ha1, hv1, hundo⟩
  have hcb1 : T.isCoinBase tx = true → ∀ i < tx.vout.length,
      v1.visible ⟨T.getHash tx, i⟩ = none := by
    intro h i hi
    rw [hv1, without, hcb h i hi, ite_self]
  refine (wp_addCoins ha1.coherent htx (fun i hi => ha1.covers _ (hcov i hi)) hcb1).mono ?_
    fun _ => id
  rintro _ v2 ⟨ha2, hv2, hfresh⟩
  rw [hv1] at hv2 hfresh
  have hunspent : ∀ coin ∈ undo, coin.isSpent = false := by
    intro coin hcoin
    have hm : some coin ∈ (inputs T tx).map v.visible := hundo ▸ mem_map_of_mem hcoin
    obtain ⟨o, -, ho⟩ := mem_map.1 hm
    exact CacheView.isSpent_of_visible ho
  exact ⟨ha1.trans ha2, hnodup, hundo, hunspent, hfresh, hv2⟩

variable {E : Env} {X : Connect} {block : Block}

/-- The outputs of the block are covered, and those of a coinbase are not shown yet. -/
structure OutputsFree (E : Env) (v : CacheView) (tx : Transaction) : Prop where
  covers : ∀ i < tx.vout.length, v.Covers ⟨E.tx.getHash tx, i⟩
  coinbase : E.tx.isCoinBase tx = true →
    ∀ i < tx.vout.length, v.visible ⟨E.tx.getHash tx, i⟩ = none

theorem wp_connectTx {acc : Progress} {i : ℕ} (hc : v.Coherent)
    (htx : TxChecked tx) (hf : moneyRange acc.nFees = true) (hfree : OutputsFree E v tx) :
    wp (connectTx E X acc (tx, i))
      (fun acc' v' => After v v' ∧ moneyRange acc'.nFees = true ∧
        ∃ undo, Applied E.tx X.index.nHeight v.visible tx undo v'.visible ∧
          acc'.vtxundo = if i > 0 then acc.vtxundo ++ [undo] else acc.vtxundo)
      (fun _ => True) v := by
  simp only [connectTx, wp_bind, wp_mapError]
  refine (wp_checkConnect htx hf).mono ?_ fun _ _ => trivial
  rintro acc1 v1 ⟨h1, hundo, hn, hsp⟩
  have havail : E.tx.isCoinBase tx = false →
      ∀ t ∈ tx.vin, (v1.visible t.prevout).isSome = true := by
    intro hcb
    rw [if_neg (by simp [hcb])] at hsp
    rw [h1.visible]
    exact hsp.available
  refine (wp_updateCoins (hc.fill h1) htx havail (fun i hi => (hfree.covers i hi).fill h1)
    (by rw [h1.visible]; exact hfree.coinbase)).mono ?_ fun _ => id
  rintro undo v2 ⟨ha, happ⟩
  rw [h1.visible] at happ
  refine ⟨(After.fill hc h1).trans ha, ?_, undo, happ, ?_⟩ <;> split_ifs
  · exact hn
  · exact hn
  · simp [hundo]
  · exact hundo

/-- The loop of `ConnectBlock`: the transactions are applied, and all their undo data but that of
the first are kept. -/
theorem wp_connectTxs (hc : v.Coherent) (hb : BlockChecked E block)
    (hfree : ∀ tx ∈ block.vtx, OutputsFree E v tx) :
    wp (block.vtx.zipIdx.foldlM (connectTx E X) {})
      (fun acc v' => moneyRange acc.nFees = true ∧ v'.Coherent ∧
        ∃ undos, undos.length = block.vtx.length ∧ acc.vtxundo = undos.tail ∧
        Trace E.tx X.index.nHeight v.visible (block.vtx.zip undos) v'.visible)
      (fun _ => True) v := by
  have hloop := wp_foldlM_zipIdx (l := block.vtx) (f := connectTx E X) (b := {})
    (E := fun _ => True)
    (fun i acc v' => After v v' ∧ moneyRange acc.nFees = true ∧ (i = 0 → v' = v) ∧
      ∃ undos, undos.length = i ∧ acc.vtxundo = undos.tail ∧
        Trace E.tx X.index.nHeight v.visible ((block.vtx.take i).zip undos) v'.visible)
    ⟨.refl hc, by decide, fun _ => rfl, [], rfl, rfl, .start⟩ ?_
  · refine hloop.mono (fun acc v' ⟨ha, hf, _, undos, hlen, hundo, ht⟩ => ?_) fun _ => id
    rw [take_length] at ht
    exact ⟨hf, ha.coherent, undos, hlen, hundo, ht⟩
  rintro i tx acc v' hi ⟨ha, hf, hstart, undos, hlen, hundo, ht⟩
  have hmem := mem_of_getElem? hi
  have hfree' : OutputsFree E v' tx := by
    refine ⟨fun k hk => ha.covers _ ((hfree tx hmem).covers k hk), fun hcb => ?_⟩
    -- the coinbase is the first transaction
    obtain ⟨cb, rest, hvtx, -, hrest⟩ := hb.coinbase_first
    have hi0 : i = 0 := by
      by_contra hne
      obtain ⟨j, rfl⟩ := Nat.exists_eq_succ_of_ne_zero hne
      rw [hvtx] at hi
      simp [hrest tx (mem_of_getElem? hi)] at hcb
    rw [hstart hi0]
    exact (hfree tx hmem).coinbase hcb
  refine (wp_connectTx ha.coherent (hb.checked tx hmem) hf hfree').mono
    (fun acc1 v1 ⟨ha1, hf1, undo, happ, hundo1⟩ => ?_) fun _ => id
  refine ⟨ha.trans ha1, hf1, by simp, undos ++ [undo], by simp [hlen], ?_, ?_⟩
  · rw [hundo1, hundo]
    cases undos with
    | nil => simp [← hlen]
    | cons u us => simp [← hlen]
  · rw [take_add_one, hi, zip_append (by simp [hlen, (List.getElem?_eq_some_iff.1 hi).1.le])]
    exact ht.snoc happ

/-- **A block that connects applies its transactions**, if BIP30 is enforced, and its undo data are
the coins they spent. -/
theorem wp_connectBlock (hc : v.Coherent) (hbip : enforceBIP30 E X = true) :
    wp (connectBlock E X block)
      (fun r v' => ∀ undo, r = some undo → BlockChecked E block ∧ X.pprev ≠ [] ∧ v'.Coherent ∧
        ∃ undos, undos.length = block.vtx.length ∧ undo = undos.tail ∧
          Trace E.tx X.index.nHeight v.visible (block.vtx.zip undos) v'.visible)
      (fun _ => True) v := by
  refine wp_connectBlock_of_loop (P := fun acc v' => BlockChecked E block ∧ X.pprev ≠ [] ∧
    v'.Coherent ∧ ∃ undos, undos.length = block.vtx.length ∧ acc.vtxundo = undos.tail ∧
      Trace E.tx X.index.nHeight v.visible (block.vtx.zip undos) v'.visible)
    (fun _ _ => trivial) (fun v1 hf hb hprev hunseen => ?_) (fun _ _ => by simp)
    (fun _ _ _ => by simp)
    fun acc v2 v3 hP hf _ => ?_
  · have hnone := hunseen hbip
    rw [← hf.visible] at hnone
    have hfree : ∀ tx ∈ block.vtx, OutputsFree E v1 tx := fun tx htx =>
      ⟨fun i hi => .of_visible (hnone tx htx i hi), fun _ => hnone tx htx⟩
    refine (wp_connectTxs (hc.fill hf) hb hfree).mono (fun acc v2 ⟨hn, hc2, h⟩ => ?_) fun _ => id
    rw [hf.visible] at h
    exact ⟨hn, hb, hprev, hc2, h⟩
  · rintro undo ⟨⟩
    obtain ⟨hb, hprev, hc2, h⟩ := hP
    rw [hf.visible]
    exact ⟨hb, hprev, hc2.fill hf, h⟩

end KPCoin.Validation
