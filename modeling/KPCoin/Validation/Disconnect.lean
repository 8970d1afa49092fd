import KPCoin.Validation.ConnectLedger

/-!
# Disconnecting a block

`ApplyTxInUndo` and `DisconnectBlock` (`validation.cpp`) with `AccessByTxid` (`coins.cpp`).

* `disconnectBlock` takes the undo data as read back from disk;
* `wp_undoTx` : one transaction is undone, from the ledger after it to the ledger before it;
* `connect_disconnect` : a block that was connected is disconnected without a trace, if the coins
  of the view are ones that blocks can have created;
* `disconnect_loses_unspendable` : a coin with an unspendable script does not come back.
-/

namespace KPCoin.Validation

open List Program Coins Chain Ledger

/-- `DisconnectResult`. -/
inductive DisconnectResult
  | ok
  | unclean
  | failed
  deriving DecidableEq, Repr

/-- Why `DisconnectBlock` stops early: it returns `DISCONNECT_FAILED`, or a call on the view does
not return. -/
inductive DisconnectStop
  | failed
  | fault (f : Fault)
  deriving DecidableEq, Repr

/-- Programs of `DisconnectBlock`. -/
abbrev DisconnectM := EStateM DisconnectStop CacheView

/-- `MAX_OUTPUTS_PER_BLOCK`: an empty output is serialized in 9 bytes. -/
def maxOutputsPerBlock : ℕ := maxBlockWeight / (witnessScaleFactor * 9)

section Model

variable (T : TxFns)

/-- The loop of `AccessByTxid` from output `n` on, with `k` outputs left. -/
def accessByTxidFrom (txid : Uint256) (n : ℕ) : ℕ → ViewM Coin
  | 0 => return {}
  | k + 1 => do
    let alternate ← CacheView.accessCoin T.toScriptFns ⟨txid, n⟩
    if !alternate.isSpent then return alternate else accessByTxidFrom txid (n + 1) k

/-- `AccessByTxid`. -/
def accessByTxid (txid : Uint256) : ViewM Coin := accessByTxidFrom T txid 0 maxOutputsPerBlock

/-- The undo data of old versions has no height; another output of the transaction has it. -/
def undoMetadata (undo : Coin) (out : OutPoint) : DisconnectM Coin :=
  if undo.nHeight = 0 then do
    let alternate ← mapError .fault (accessByTxid T out.hash)
    rejectIf alternate.isSpent .failed
    return { undo with nHeight := alternate.nHeight, fCoinBase := alternate.fCoinBase }
  else return undo

/-- `ApplyTxInUndo`: whether it was clean. -/
def applyTxInUndo (undo : Coin) (out : OutPoint) : DisconnectM Bool := do
  let there ← mapError .fault (CacheView.haveCoin T.toScriptFns out)
  let fClean := !there
  let undo ← undoMetadata T undo out
  mapError .fault (CacheView.addCoin T.toScriptFns out undo (!fClean))
  return fClean

/-- Spend one output of the block again: whether it was there and as the block created it. -/
def undoOutput (nHeight : ℕ) (tx : Transaction) (out : TxOut) (o : ℕ) : DisconnectM Bool :=
  if T.isUnspendable out.scriptPubKey then return true
  else do
    let coin ← mapError .fault (CacheView.spendCoin T.toScriptFns ⟨T.getHash tx, o⟩)
    return coin.any fun coin =>
      out == coin.out && nHeight == coin.nHeight && T.isCoinBase tx == coin.fCoinBase

/-- The loop body of `DisconnectBlock`; the first transaction has no undo data. -/
def undoTx (nHeight : ℕ) (fEnforceBIP30 fClean : Bool) :
    Transaction × Option (List Coin) → DisconnectM Bool
  | (tx, txundo) => do
    let isBIP30Exception := T.isCoinBase tx && !fEnforceBIP30
    let fClean ← tx.vout.zipIdx.foldlM (fun fClean (out, o) => do
      let matched ← undoOutput T nHeight tx out o
      return fClean && (matched || isBIP30Exception)) fClean
    match txundo with
    | none => return fClean
    | some vprevout =>
      rejectIf (vprevout.length != tx.vin.length) .failed
      (tx.vin.zip vprevout).reverse.foldlM (fun fClean (txin, undo) => do
        let res ← applyTxInUndo T undo txin.prevout
        return fClean && res) fClean

end Model

/-- The blocks whose coinbase was overwritten by a later one. -/
def isBIP30Overwritten (b : BlockIndex) : Bool :=
  (b.nHeight == 91722 &&
    b.hash == 0x00000000000271a2dc26e7667f8419f2e15416dc6955e5a6c6cdf3f2574dd08e) ||
  (b.nHeight == 91812 &&
    b.hash == 0x00000000000af0aed4792b1acee3d966af36cf5def14935db8de83d6f9306f2f)

section Model

variable (T : TxFns)

/-- The body of `DisconnectBlock`: whether it was clean. -/
def undoBlock (pindex : BlockIndex) (pprev : Branch) (blockUndo : Option (List (List Coin)))
    (block : Block) : DisconnectM Bool :=
  match blockUndo with
  | none => throw .failed
  | some vtxundo => do
    rejectIf (vtxundo.length + 1 != block.vtx.length) .failed
    let fClean ← (block.vtx.zip (none :: vtxundo.map some)).reverse.foldlM
      (undoTx T pindex.nHeight (!isBIP30Overwritten pindex)) true
    match pprev with
    | [] => throw (.fault .abort)
    | parent :: _ =>
      mapError .fault (CacheView.setBestBlock parent.hash)
      return fClean

/-- `DisconnectBlock`. -/
def disconnectBlock (pindex : BlockIndex) (pprev : Branch) (blockUndo : Option (List (List Coin)))
    (block : Block) : ViewM DisconnectResult := fun v =>
  match undoBlock T pindex pprev blockUndo block v with
  | .ok fClean v => .ok (if fClean then .ok else .unclean) v
  | .error .failed v => .ok .failed v
  | .error (.fault f) v => .error f v

end Model

variable {T : TxFns} {v : CacheView} {nHeight : ℕ} {tx : Transaction}

variable {R : DisconnectStop → Prop} {undo : List Coin} {m m' : CoinMap} {block : Block}
  {o : OutPoint} {E : Env} {bip30 : Bool} {X : Connect}

theorem wp_undoOutput {out : TxOut} {k : ℕ} (hc : v.Coherent)
    (hshown : ∀ coin, createdCoin T nHeight tx out = some coin →
      v.visible ⟨T.getHash tx, k⟩ = some coin) :
    wp (undoOutput T nHeight tx out k)
      (fun matched v' => matched = true ∧ v'.Coherent ∧ v'.visible =
        if createdCoin T nHeight tx out = none then v.visible
        else Function.update v.visible ⟨T.getHash tx, k⟩ none) R v := by
  cases hu : T.isUnspendable out.scriptPubKey with
  | true =>
    have hcreated : createdCoin T nHeight tx out = none := if_pos hu
    rw [undoOutput, if_pos hu, if_pos hcreated]
    exact ⟨rfl, hc, rfl⟩
  | false =>
    have hcreated : createdCoin T nHeight tx out = some _ := if_neg (by simp [hu])
    rw [undoOutput, if_neg (by simp [hu]), wp_bind, wp_mapError, if_neg (by simp [hcreated])]
    refine CacheView.wp_spendCoin hc fun r v' hc' hm _ hr => ?_
    obtain rfl := eq_some_of_unspent (hr.trans (hshown _ hcreated))
    exact ⟨by simp, hc', (cons.inj hm).1⟩

/-- The outputs of a transaction are there as it created them; spending them leaves the ledger
without the inputs. -/
theorem wp_undoOutputs {exc : Bool} (hc : v.Coherent)
    (happ : Applied T nHeight m tx undo m') (hv : v.visible = m') :
    wp (tx.vout.zipIdx.foldlM (fun fClean (out, o) => do
        let matched ← undoOutput T nHeight tx out o
        return fClean && (matched || exc)) true)
      (fun fClean v' => fClean = true ∧ v'.Coherent ∧
        v'.visible = without m (inputs T tx)) R v := by
  rw [← happ.without_created, ← Ledger.createdBelow_length]
  refine wp_foldlM_zipIdx (fun k fClean (v' : CacheView) => fClean = true ∧ v'.Coherent ∧
    v'.visible = fun o => if createdBelow T nHeight tx k o = none then m' o else none)
    ⟨rfl, hc, by simp [hv]⟩ ?_
  rintro k out fClean v' hk ⟨rfl, hc', hvis⟩
  have hshown : ∀ coin, createdCoin T nHeight tx out = some coin →
      v'.visible ⟨T.getHash tx, k⟩ = some coin := by
    intro coin hcoin
    rw [hvis]
    simp only [Ledger.createdBelow_self, ↓reduceIte]
    exact happ.created_visible (by simp [created, hk, hcoin])
  simp only [wp_bind, wp_pure]
  refine (wp_undoOutput hc' hshown).mono ?_ fun _ => id
  rintro matched v1 ⟨hm, hc1, hv1⟩
  refine ⟨by simp [hm], hc1, ?_⟩
  rw [hv1, Ledger.createdBelow_succ hk]
  funext o
  by_cases ho : o = ⟨T.getHash tx, k⟩
  · subst ho
    split_ifs <;> simp_all [Ledger.createdBelow_self]
  · split_ifs <;> simp_all

theorem wp_applyTxInUndo {undo : Coin} (hc : v.Coherent)
    (hn : v.visible o = none) (hs : undo.isSpent = false) (hh : 1 ≤ undo.nHeight)
    (hu : T.isUnspendable undo.out.scriptPubKey = false) :
    wp (applyTxInUndo T undo o)
      (fun res v' => res = true ∧ v'.Coherent ∧
        v'.visible = Function.update v.visible o (some undo))
      R v := by
  simp only [applyTxInUndo, wp_bind, wp_mapError]
  refine CacheView.wp_haveCoin fun v1 h1 => ?_
  have hn1 : v1.visible o = none := by rw [h1.visible, hn]
  rw [hn, undoMetadata, if_neg (by omega)]
  refine CacheView.wp_addCoin (hc.fill h1) hs (fun _ => hn1) fun v2 hc2 _ hv2 => ⟨rfl, hc2, ?_⟩
  rw [hv2, h1.visible, CacheView.added, if_neg (by simp [hu])]

theorem wp_restoreInputs (hc : v.Coherent) (happ : Applied T nHeight m tx undo m')
    (hcb : T.isCoinBase tx = false) (hm : Stored T m) (hv : v.visible = without m (inputs T tx)) :
    wp ((tx.vin.zip undo).reverse.foldlM (fun fClean (txin, undo) => do
        let res ← applyTxInUndo T undo txin.prevout
        return fClean && res) true)
      (fun fClean v' => fClean = true ∧ v'.Coherent ∧ v'.visible = m) R v := by
  have hin : inputs T tx = tx.vin.map TxIn.prevout := by simp [inputs, hcb]
  have hlen : undo.length = tx.vin.length := by simpa [hin] using happ.length_undo
  have hkeys : (tx.vin.zip undo).reverse.map (fun x => x.1.prevout) = (inputs T tx).reverse := by
    rw [hin, map_reverse, ← Function.comp_def TxIn.prevout, ← map_map, map_fst_zip hlen.ge]
  have hundo : ∀ x ∈ tx.vin.zip undo, m x.1.prevout = some x.2 := by
    intro x hx
    apply happ.eq_of_mem_zip
    rw [hin, zip_map_left]
    exact mem_map_of_mem hx
  refine (wp_foldlM (fun done fClean v' => fClean = true ∧ v'.Coherent ∧ v'.visible =
    fun o => if o ∈ done.map (fun x => x.1.prevout) then m o else without m (inputs T tx) o)
    ⟨rfl, hc, by simp [hv]⟩ ?_).mono ?_ fun _ => id
  · rintro done ⟨t, coin⟩ rest fClean v' hl ⟨rfl, hc', hvis⟩
    have hmem : (t, coin) ∈ tx.vin.zip undo := by
      rw [← mem_reverse, hl]; simp
    have hcoin : m t.prevout = some coin := hundo _ hmem
    have hnodup : ((done ++ (t, coin) :: rest).map fun x => x.1.prevout).Nodup := by
      rw [← hl, hkeys]; exact nodup_reverse.2 happ.inputs_nodup
    have ht : t.prevout ∉ done.map (fun x => x.1.prevout) := by
      rw [map_append, nodup_append] at hnodup
      exact fun hmd => hnodup.2.2 _ hmd _ (by simp) rfl
    have hti : t.prevout ∈ inputs T tx := by
      rw [hin]; exact mem_map_of_mem (of_mem_zip hmem).1
    obtain ⟨hh, hu⟩ := hm _ _ hcoin
    simp only [wp_bind, wp_pure]
    refine (wp_applyTxInUndo hc' (by rw [hvis]; simp only [if_neg ht]; simp [without, hti])
      (happ.undo_unspent coin (of_mem_zip hmem).2) hh hu).mono ?_ fun _ => id
    rintro res v1 ⟨hres, hc1, hv1⟩
    refine ⟨by simp [hres], hc1, ?_⟩
    rw [hv1, hvis]
    funext o
    by_cases ho : o = t.prevout
    · subst ho; simp [hcoin]
    · have hdone : o ∈ (done ++ [(t, coin)]).map (fun x => x.1.prevout) ↔
          o ∈ done.map (fun x => x.1.prevout) := by
        rw [map_append, mem_append, map_singleton, mem_singleton]
        exact or_iff_left ho
      rw [Function.update_of_ne ho, if_congr hdone rfl rfl]
  · rintro fClean v' ⟨hf, hc', hv'⟩
    refine ⟨hf, hc', ?_⟩
    rw [hv', hkeys]
    simpa using Applied.restore

/-- A transaction with the undo data `DisconnectBlock` has for it: none for the coinbase. -/
def undoArg (T : TxFns) (x : Transaction × List Coin) : Transaction × Option (List Coin) :=
  (x.1, if T.isCoinBase x.1 then none else some x.2)

theorem wp_undoTx {m : CoinMap}
    (hc : v.Coherent) (happ : Applied T nHeight m tx undo v.visible) (hm : Stored T m) :
    wp (undoTx T nHeight bip30 true (undoArg T (tx, undo)))
      (fun fClean v' => fClean = true ∧ v'.Coherent ∧ v'.visible = m) R v := by
  simp only [undoArg, undoTx, wp_bind]
  refine (wp_undoOutputs hc happ rfl).mono ?_ fun _ => id
  rintro _ v1 ⟨rfl, hc1, hv1⟩
  cases hcb : T.isCoinBase tx with
  | true => exact ⟨rfl, hc1, by simpa [inputs, hcb] using hv1⟩
  | false =>
    have hlen : undo.length = tx.vin.length := by simpa [inputs, hcb] using happ.length_undo
    simp only [Bool.false_eq_true, ↓reduceIte, wp_bind, wp_rejectIf]
    exact ⟨by simp [hlen], fun _ => wp_restoreInputs hc1 happ hcb hm hv1⟩

theorem wp_undoTxs {l : List (Transaction × List Coin)} (ht : Trace T nHeight m l m')
    (hh : 1 ≤ nHeight) (hm : Stored T m) (hc : v.Coherent) (hv : v.visible = m') :
    wp ((l.map (undoArg T)).reverse.foldlM (undoTx T nHeight bip30) true)
      (fun fClean v' => fClean = true ∧ v'.Coherent ∧ v'.visible = m) R v := by
  induction ht generalizing v with
  | start => exact ⟨rfl, hc, hv⟩
  | snoc ht happ ih =>
    subst hv
    rw [map_append, reverse_append, map_singleton, reverse_singleton,
      singleton_append, foldlM_cons, wp_bind]
    refine (wp_undoTx hc happ (ht.stored hh hm)).mono (fun fClean v1 ⟨hf, hc1, hv1⟩ => ?_)
      fun _ => id
    subst hf
    exact ih hc1 hv1

theorem zip_undoArg {undos : List (List Coin)}
    (hb : BlockChecked E block) (hlen : undos.length = block.vtx.length) :
    block.vtx.zip (none :: undos.tail.map some) = (block.vtx.zip undos).map (undoArg E.tx) := by
  obtain ⟨cb, rest, hvtx, hcb, hrest⟩ := hb.coinbase_first
  rw [hvtx] at hlen ⊢
  cases undos with
  | nil => simp at hlen
  | cons u us =>
    rw [zip_cons_cons, zip_map_right]
    refine congrArg₂ _ (by simp [undoArg, hcb]) (map_congr_left fun x hx => ?_)
    simp [undoArg, hrest x.1 (of_mem_zip hx).1, Prod.map]

/-- **Connecting a block and disconnecting it again changes nothing**: for a view whose coins are
ones that blocks after the genesis block can have created, a block connected with BIP30 enforced is
disconnected cleanly with its undo data, the view shows the same coins as before, and its best
block is the parent. -/
theorem connect_disconnect {E : Env} {X : Connect} {block : Block} {v v' : CacheView}
    {undo : List (List Coin)} (hc : v.Coherent) (hstored : Stored E.tx v.visible)
    (hheight : 1 ≤ X.index.nHeight) (hbip : enforceBIP30 E X = true)
    (hconn : connectBlock E X block v = .ok (some undo) v') :
    ∃ v'', disconnectBlock E.tx X.index X.pprev (some undo) block v' = .ok .ok v'' ∧
      v''.visible = v.visible ∧ v''.Coherent ∧
      v''.top.hashBlock = X.pprev.head?.elim 0 BlockIndex.hash := by
  obtain ⟨hb, hprev, hc', undos, hlen, hundo, ht⟩ := (wp_connectBlock hc hbip).ok hconn undo rfl
  obtain ⟨parent, ancestors, hpprev⟩ := exists_cons_of_ne_nil hprev
  have hrun : wp (undoBlock E.tx X.index X.pprev (some undo) block)
      (fun fClean v'' => fClean = true ∧ v''.Coherent ∧ v''.visible = v.visible ∧
        v''.top.hashBlock = parent.hash) (fun _ => False) v' := by
    simp only [undoBlock, wp_bind, wp_rejectIf, hundo, zip_undoArg hb hlen, hpprev]
    refine ⟨fun h => ?_, fun _ => (wp_undoTxs ht hheight hstored hc' rfl).mono ?_ fun _ => id⟩
    · -- there is one more transaction than undo data
      obtain ⟨cb, rest, hvtx, -⟩ := hb.coinbase_first
      simp [hlen, hvtx] at h
    · rintro fClean v₁ ⟨hf, hc₁, hv₁⟩
      exact ⟨hf, hc₁.fill (CacheView.setBestBlock_fill _), hv₁, rfl⟩
  obtain ⟨fClean, v'', hr, hf, hc'', hv'', hbest⟩ := hrun.exists_ok
  refine ⟨v'', ?_, hv'', hc'', by simp [hbest, hpprev]⟩
  simp [disconnectBlock, hr, hf]

/-- What the view shows at `o` after a block was connected and cleanly disconnected. -/
def reconnected (E : Env) (X : Connect) (block : Block) (v : CacheView) (o : OutPoint) :
    Option (Option Coin) :=
  match connectBlock E X block v with
  | .ok (some undo) v' =>
    match disconnectBlock E.tx X.index X.pprev (some undo) block v' with
    | .ok .ok v'' => some (v''.visible o)
    | _ => none
  | _ => none

theorem exists_of_reconnected {r : Option Coin} (h : reconnected E X block v o = some r) :
    ∃ undo v' v'', connectBlock E X block v = .ok (some undo) v' ∧
      disconnectBlock E.tx X.index X.pprev (some undo) block v' = .ok .ok v'' ∧
      v''.visible o = r := by
  unfold reconnected at h
  split at h
  · rename_i undo v' hconn
    split at h
    · rename_i v'' hdis
      exact ⟨undo, v', v'', hconn, hdis, Option.some.inj h⟩
    · cases h
  · cases h

/-- Headers are numbered by their nonce. -/
def sampleEnv : Env where
  params := wideLimit
  tx := simpleTxFns
  header := { getHash := fun h => BitVec.ofNat 256 h.nNonce, serialize := fun _ => [] }
  blockSerializeSize _ := 200
  checkSignetBlockSolution _ := true

/-- A coinbase, and a transaction that spends the coin of `sampleView`. -/
def sampleBlock : Block where
  hashPrevBlock := 1
  hashMerkleRoot := 21
  nBits := 0x207fffff
  nNonce := 2
  vtx := [
    { vin := [{ prevout := ⟨0, 2 ^ 32 - 1⟩, scriptSig := [2, 0] }], vout := [⟨0, []⟩],
      nLockTime := 10 },
    { vin := [{ prevout := ⟨9, 0⟩ }], vout := [⟨5, []⟩], nLockTime := 11 }]

/-- Headers 1 to 3; the last one has two weeks of work on top of the second. -/
def sampleHeaders : Branch :=
  [{ hash := 3, nHeight := 3, nBits := 0x207fffff, nChainWork := 2 ^ 40 },
    { hash := 2, nHeight := 2, nBits := 0x207fffff, nChainWork := 4 },
    { hash := 1, nHeight := 1, nBits := 0x207fffff, nChainWork := 2 }]

/-- The block is connected below an assumed valid one, so that its scripts are not run. -/
def sampleConnect : Connect where
  index := { hash := 2, nHeight := 2, nBits := 0x207fffff, nChainWork := 4 }
  pprev := sampleHeaders.drop 2
  assumeValid :=
    { assumedValidBlock := 3, entry := some sampleHeaders, bestHeader := sampleHeaders }

/-- A coin with the given script. -/
def sampleCoin (script : Script) : Coin := { out := ⟨5, script⟩, nHeight := 1 }

/-- A cache over a database with that coin. -/
def sampleView (script : Script) : CacheView where
  base := .db
    { coins := (∅ : Map OutPoint Coin).insert ⟨9, 0⟩ (sampleCoin script)
      bestBlock := 1
      unspent := fun o c h => by
        rw [Map.lookup_insert_eq_ite] at h
        split_ifs at h
        · cases h; rfl
        · simp at h }

theorem eq_sampleCoin {script : Script} {coin : Coin}
    (h : (sampleView script).visible o = some coin) : o = ⟨9, 0⟩ ∧ coin = sampleCoin script := by
  have hl : ((∅ : Map OutPoint Coin).insert ⟨9, 0⟩ (sampleCoin script)).lookup o = some coin := h
  rw [Map.lookup_insert_eq_ite] at hl
  split_ifs at hl with ho
  · exact ⟨ho, (Option.some.inj hl).symm⟩
  · simp at hl

/-- The coin of an empty script comes back. -/
theorem connect_disconnect_spend :
    ∃ undo v' v'', connectBlock sampleEnv sampleConnect sampleBlock (sampleView []) =
        .ok (some undo) v' ∧
      disconnectBlock simpleTxFns sampleConnect.index sampleConnect.pprev
        (some undo) sampleBlock v' = .ok .ok v'' ∧ v''.visible = (sampleView []).visible := by
  have hrun : reconnected sampleEnv sampleConnect sampleBlock (sampleView []) ⟨9, 0⟩ =
      some (some (sampleCoin [])) := by decide +kernel
  obtain ⟨undo, v', -, hconn, -⟩ := exists_of_reconnected hrun
  have hc : (sampleView []).Coherent := ⟨Coins.Cache.coherent_empty, trivial⟩
  obtain ⟨v'', hdis, hvis, -⟩ := connect_disconnect hc
    (fun o coin h => by rw [(eq_sampleCoin h).2]; decide) (by decide) (by decide) hconn
  exact ⟨undo, v', v'', hconn, hdis, hvis⟩

/-- A coin with an unspendable script is spent while the scripts are not run.  `AddCoin` does not
take it back, and the block is still said to be disconnected cleanly. -/
theorem disconnect_loses_unspendable :
    ∃ undo v' v'', (∀ o coin, (sampleView [0x6a]).visible o = some coin → 1 ≤ coin.nHeight) ∧
      1 ≤ sampleConnect.index.nHeight ∧ enforceBIP30 sampleEnv sampleConnect = true ∧
      connectBlock sampleEnv sampleConnect sampleBlock (sampleView [0x6a]) = .ok (some undo) v' ∧
      disconnectBlock simpleTxFns sampleConnect.index sampleConnect.pprev
        (some undo) sampleBlock v' = .ok .ok v'' ∧ v''.visible ≠ (sampleView [0x6a]).visible := by
  have hrun : reconnected sampleEnv sampleConnect sampleBlock (sampleView [0x6a]) ⟨9, 0⟩ =
      some none := by decide +kernel
  obtain ⟨undo, v', v'', hconn, hdis, hvis⟩ := exists_of_reconnected hrun
  refine ⟨undo, v', v'', fun o coin h => ?_, by decide, by decide, hconn, hdis, fun heq => ?_⟩
  · rw [(eq_sampleCoin h).2]; decide
  · rw [heq] at hvis
    exact absurd hvis (by decide)

end KPCoin.Validation
