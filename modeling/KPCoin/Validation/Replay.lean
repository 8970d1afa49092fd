import KPCoin.Chain.ActiveChain
import KPCoin.Program.Writes
import KPCoin.Validation.Disconnect

/-!
# Replaying blocks

`RollforwardBlock` and `ReplayBlocks` (`validation.cpp`), and `BatchWrite` of the coins database
(`txdb.cpp`) stopped between two of its batches.  A flush that was interrupted has left some of its
coins on disk and the two tips in `DB_HEAD_BLOCKS`; when the node starts again, the blocks of the
old branch are taken back and those of the new one applied, over whatever coins are there.

None of this looks at the coins that it writes over: applying or undoing a block is a list of blind
writes (`writes_rollforwardBlock`, `writes_rollbackBlock`).  On the coins that the block really
found they do what they should (`overwrite_apply_of_trace`,
`overwrite_revert_of_trace`).
`KPCoin.Validation.Recovery` puts the blocks together.
-/

namespace KPCoin.Validation

open List Program Option Coins Chain Ledger Overwrite

/-- The block index and the block files: blocks are numbered as in the tree of their links. -/
structure BlockStore where
  env : Env
  tree : SkipTree
  index : ℕ → BlockIndex
  /-- `m_block_index`. -/
  blockIndex : Uint256 → Option ℕ
  /-- `ReadBlockFromDisk`. -/
  readBlock : ℕ → Option Block
  /-- `UndoReadFromDisk`. -/
  readUndo : ℕ → Option (List (List Coin))
  sound : tree.Sound
  nHeight_eq : ∀ p < tree.length, (index p).nHeight = tree.heightOf p
  blockIndex_hash : ∀ p < tree.length, blockIndex (index p).hash = some p
  /-- The null hash stands for no block. -/
  hash_ne_zero : ∀ p < tree.length, (index p).hash ≠ 0
  /-- There is one genesis block. -/
  genesis : ∀ a < tree.length, ∀ b < tree.length,
    tree.back (tree.heightOf a) a = tree.back (tree.heightOf b) b

/-- The errors that `ReplayBlocks` reports. -/
inductive ReplayError
  /-- "unknown inconsistent state". -/
  | unknownState
  /-- "reorganization to unknown block requested". -/
  | toUnknown
  /-- "reorganization from unknown block requested". -/
  | fromUnknown
  /-- "ReadBlockFromDisk failed". -/
  | readFailed (pindex : ℕ)
  /-- "DisconnectBlock failed". -/
  | disconnectFailed (pindex : ℕ)
  deriving DecidableEq, Repr

/-- How a replay ends early: it reports an error and returns false, or the process is gone. -/
inductive ReplayStop
  | error (e : ReplayError)
  | fault (f : Fault)
  | pointer (f : PointerFault)
  deriving DecidableEq, Repr

/-- Programs on the cache of `ReplayBlocks`. -/
abbrev ReplayM := EStateM ReplayStop CacheView

/-- Follow pointers. -/
def onTree {α : Type} (x : Except PointerFault α) : ReplayM α :=
  match x with
  | .ok a => pure a
  | .error f => throw (.pointer f)

section Transactions

variable (T : TxFns)

/-- Spend the inputs of a transaction that is not a coinbase, if they are there. -/
def respendInputs (tx : Transaction) : ViewM Unit :=
  if T.isCoinBase tx then pure ()
  else tx.vin.forM fun txin => do
    let _ ← CacheView.spendCoin T.toScriptFns txin.prevout
    return ()

/-- The loop body of `RollforwardBlock`. -/
def rollforwardTx (nHeight : ℕ) (tx : Transaction) : ViewM Unit := do
  respendInputs T tx
  -- every addition may be an overwrite
  addCoins T tx nHeight true

end Transactions

namespace BlockStore

variable (S : BlockStore)

/-- `RollforwardBlock`. -/
def rollforwardBlock (pindex : ℕ) : ReplayM Unit :=
  match S.readBlock pindex with
  | none => throw (.error (.readFailed pindex))
  | some block => mapError .fault (block.vtx.forM (rollforwardTx S.env.tx (S.index pindex).nHeight))

/-- What a block is disconnected from. -/
def pprev (pindex : ℕ) : Branch := (S.tree.pprevOf pindex).toList.map S.index

/-- The loop body of the rollback. -/
def rollbackBlock (pindex : ℕ) : ReplayM Unit :=
  -- the genesis block is never disconnected
  if (S.index pindex).nHeight > 0 then
    match S.readBlock pindex with
    | none => throw (.error (.readFailed pindex))
    | some block => do
      let res ← mapError .fault
        (disconnectBlock S.env.tx (S.index pindex) (S.pprev pindex) (S.readUndo pindex) block)
      if res = .failed then throw (.error (.disconnectFailed pindex)) else pure ()
  else pure ()

/-- Roll back along the old branch, at most `n` blocks. -/
def rollback (pindexFork : Option ℕ) : ℕ → Option ℕ → ReplayM Unit
  | 0, pindexOld => if pindexOld = pindexFork then pure () else throw (.pointer .unfinished)
  | n + 1, pindexOld =>
    if pindexOld = pindexFork then pure ()
    else match pindexOld with
      | none => throw (.pointer .noBlock)
      | some p => do
        S.rollbackBlock p
        let node ← onTree (S.tree.deref p)
        rollback pindexFork n node.pprev

/-- Roll forward from the forking point to the new tip. -/
def rollforward (nForkHeight pindexNew : ℕ) : ReplayM Unit :=
  (List.range' (nForkHeight + 1) ((S.index pindexNew).nHeight - nForkHeight)).forM fun nHeight => do
    match ← onTree (S.tree.getAncestor pindexNew nHeight) with
    | none => throw (.fault .abort)
    | some pindex => S.rollforwardBlock pindex

/-- The old tip and the fork; there is none for the first flush. -/
def findFork (hashOld : Uint256) (pindexNew : ℕ) : ReplayM (Option ℕ × Option ℕ) :=
  if hashOld = 0 then pure (none, none)
  else
    match S.blockIndex hashOld with
    | none => throw (.error .fromUnknown)
    | some pindexOld => do
      match ← onTree (S.tree.lastCommonAncestor pindexOld pindexNew) with
      | none => throw (.fault .abort)
      | some pindexFork => pure (some pindexOld, some pindexFork)

/-- `ReplayBlocks` between the look at the head blocks and `Flush`. -/
def replay (hashNew hashOld : Uint256) : ReplayM Unit :=
  match S.blockIndex hashNew with
  | none => throw (.error .toUnknown)
  | some pindexNew => do
    let (pindexOld, pindexFork) ← S.findFork hashOld pindexNew
    S.rollback pindexFork (pindexOld.elim 0 fun p => (S.index p).nHeight + 1) pindexOld
    S.rollforward (pindexFork.elim 0 fun p => (S.index p).nHeight) pindexNew
    mapError .fault (CacheView.setBestBlock (S.index pindexNew).hash)

/-- The cache over the database at the end of a replay, before it is flushed. -/
def replayed (d : CoinsDB) (hashNew hashOld : Uint256) : Except ReplayStop CacheView :=
  match S.replay hashNew hashOld { base := .db d } with
  | .ok _ v => .ok v
  | .error e _ => .error e

/-- `ReplayBlocks`: the database that it leaves when it returns true. -/
def replayBlocks (d : CoinsDB) : Except ReplayStop CoinsDB :=
  match d.headBlocks with
  | [] => .ok d
  | [hashNew, hashOld] => do
    let v ← S.replayed d hashNew hashOld
    (d.batchWrite v.top.cacheCoins v.top.hashBlock).mapError .fault
  | _ => .error (.error .unknownState)

end BlockStore

/-- The tip that `BatchWrite` starts from: when a replay was interrupted it is the old one still. -/
def oldTip (d : CoinsDB) : Uint256 :=
  if d.bestBlock = 0 ∧ d.headBlocks.length = 2 then d.headBlocks.getD 1 0 else d.bestBlock

/-- `BatchWrite` stopped after the batches that hold the entries `l`: the database is marked as
being between two tips. -/
def interrupted (d : CoinsDB) (l : List (Sigma fun _ : OutPoint => CacheEntry))
    (hashBlock : Uint256) : Except Fault CoinsDB :=
  if hashBlock = 0 then .error .abort
  else if d.bestBlock = 0 ∧ d.headBlocks.length = 2 ∧ d.headBlocks.head? ≠ some hashBlock then
    .error .abort
  else
    .ok { l.foldl (fun d x => d.writeEntry x.1 x.2) d with
      bestBlock := 0, headBlocks := [hashBlock, oldTip d] }

/-- A coin written or, if there is none, erased. -/
abbrev CoinWrite := OutPoint × Option Coin

section Writes

variable (T : TxFns) (nHeight : ℕ)

/-- The write of an output, none if it is unspendable. -/
def outputWrite (tx : Transaction) (x : TxOut × ℕ) : List CoinWrite :=
  (createdCoin T nHeight tx x.1).toList.map fun coin => (⟨T.getHash tx, x.2⟩, some coin)

/-- The writes of all outputs. -/
def outputWrites (tx : Transaction) : List CoinWrite :=
  tx.vout.zipIdx.flatMap (outputWrite T nHeight tx)

/-- Erase what was written. -/
def eraseAll (ws : List CoinWrite) : List CoinWrite := ws.map fun w => (w.1, none)

/-- The coins spent leave the map. -/
def inputWrites (tx : Transaction) : List CoinWrite := (inputs T tx).map (·, none)

/-- The coins spent come back, the last one first. -/
def restoreWrites (tx : Transaction) (undo : List Coin) : List CoinWrite :=
  ((inputs T tx).zip undo).reverse.map fun x => (x.1, some x.2)

/-- What rolling a transaction forward writes. -/
def applyWrites (tx : Transaction) : List CoinWrite :=
  inputWrites T tx ++ outputWrites T nHeight tx

/-- What undoing a transaction writes. -/
def revertWrites (x : Transaction × List Coin) : List CoinWrite :=
  eraseAll (outputWrites T nHeight x.1) ++ restoreWrites T x.1 x.2

end Writes

section Exact

variable {T : TxFns} {nHeight : ℕ} {tx : Transaction} {undo : List Coin} {m m' : CoinMap}
  {l : List (Transaction × List Coin)} {o : OutPoint}

theorem mem_outputWrites {w : CoinWrite} :
    w ∈ outputWrites T nHeight tx ↔ w.2 = created T nHeight tx w.1 ∧ w.2 ≠ none := by
  obtain ⟨⟨-, n⟩, -⟩ := w
  simp only [outputWrites, outputWrite, mem_flatMap, List.mem_map, mem_toList]
  constructor
  · rintro ⟨⟨out, i⟩, hx, coin, hcoin, heq⟩
    cases heq
    rw [mem_zipIdx_iff_getElem?] at hx
    simp [created, hx, hcoin]
  · rintro ⟨hc, hne⟩
    obtain ⟨coin, rfl⟩ := ne_none_iff_exists'.1 hne
    rw [created] at hc
    split_ifs at hc with hhash
    obtain ⟨out, hout, hcoin⟩ := bind_eq_some_iff.1 hc.symm
    exact ⟨(out, n), mem_zipIdx_iff_getElem?.2 hout, coin, hcoin, by rw [← hhash]⟩

theorem mem_keys_outputWrites :
    o ∈ (outputWrites T nHeight tx).map Prod.fst ↔ created T nHeight tx o ≠ none := by
  rw [List.mem_map]
  constructor
  · rintro ⟨w, hw, rfl⟩
    obtain ⟨heq, hne⟩ := mem_outputWrites.1 hw
    rwa [← heq]
  · intro hne
    exact ⟨(o, created T nHeight tx o), mem_outputWrites.2 ⟨rfl, hne⟩, rfl⟩

theorem map_fst_eraseAll (ws : List CoinWrite) : (eraseAll ws).map Prod.fst = ws.map Prod.fst := by
  rw [eraseAll, List.map_map]
  rfl

/-- The coins that a transaction found can be put back. -/
def Restorable (T : TxFns) (undo : List Coin) : Prop := ∀ coin ∈ undo,
  coin.isSpent = false ∧ 1 ≤ coin.nHeight ∧ T.isUnspendable coin.out.scriptPubKey = false

theorem restorable_of_applied (happ : Applied T nHeight m tx undo m') (hm : Stored T m) :
    Restorable T undo := by
  intro coin hcoin
  obtain ⟨o, -, ho⟩ : ∃ o ∈ inputs T tx, m o = some coin := by
    have hmem : some coin ∈ (inputs T tx).map m := by
      rw [happ.undo_eq]
      exact mem_map_of_mem hcoin
    exact mem_map.1 hmem
  obtain ⟨hheight, hspendable⟩ := hm o coin ho
  exact ⟨happ.undo_unspent coin hcoin, hheight, hspendable⟩

theorem overwrite_inputWrites : overwrite m (inputWrites T tx) = without m (inputs T tx) := by
  refine overwrite_eq (fun w hw => ?_) fun o ho => ?_
  · obtain ⟨o, ho, rfl⟩ := mem_map.1 hw
    exact (if_pos ho).symm
  · have hkeys : (inputWrites T tx).map Prod.fst = inputs T tx := by
      rw [inputWrites, List.map_map]
      exact map_id _
    rw [hkeys] at ho
    exact (if_neg ho).symm

/-- On the coins that it found, rolling a transaction forward applies it. -/
theorem overwrite_applyWrites (happ : Applied T nHeight m tx undo m') :
    overwrite m (applyWrites T nHeight tx) = m' := by
  rw [applyWrites, overwrite_append, overwrite_inputWrites]
  refine overwrite_eq (fun w hw => ?_) fun o ho => ?_
  · obtain ⟨heq, hne⟩ := mem_outputWrites.1 hw
    obtain ⟨coin, hcoin⟩ := ne_none_iff_exists'.1 hne
    rw [hcoin, happ.created_visible (heq.symm.trans hcoin)]
  · rw [mem_keys_outputWrites, not_not] at ho
    rw [happ.result, ho, none_or]

/-- On the coins that it left, undoing a transaction takes it back. -/
theorem overwrite_revertWrites (happ : Applied T nHeight m tx undo m') :
    overwrite m' (revertWrites T nHeight (tx, undo)) = m := by
  have herase : overwrite m' (eraseAll (outputWrites T nHeight tx)) = without m (inputs T tx) := by
    refine overwrite_eq (fun w hw => ?_) fun o ho => ?_
    · obtain ⟨w, hw', rfl⟩ := mem_map.1 hw
      obtain ⟨heq, hne⟩ := mem_outputWrites.1 hw'
      exact (happ.fresh _ (heq ▸ hne)).symm
    · rw [map_fst_eraseAll, mem_keys_outputWrites, not_not] at ho
      rw [happ.result, ho, none_or]
  rw [revertWrites, overwrite_append, herase]
  refine overwrite_eq (fun w hw => ?_) fun o ho => ?_
  · obtain ⟨⟨o, coin⟩, hx, rfl⟩ := mem_map.1 hw
    exact (happ.eq_of_mem_zip (mem_reverse.1 hx)).symm
  · have hkeys : (restoreWrites T tx undo).map Prod.fst = (inputs T tx).reverse := by
      rw [restoreWrites, List.map_map, map_reverse]
      exact congrArg _ (map_fst_zip happ.length_undo.ge)
    rw [hkeys, mem_reverse] at ho
    exact if_neg ho

section

variable (ht : Trace T nHeight m l m')
include ht

theorem overwrite_apply_of_trace :
    overwrite m ((l.map Prod.fst).flatMap (applyWrites T nHeight)) = m' := by
  induction ht with
  | start => rfl
  | snoc _ happ ih =>
    rw [map_append, flatMap_append, overwrite_append, ih]
    simpa using overwrite_applyWrites happ

theorem overwrite_revert_of_trace :
    overwrite m' (l.reverse.flatMap (revertWrites T nHeight)) = m := by
  induction ht with
  | start => rfl
  | snoc _ happ ih =>
    rw [reverse_append, flatMap_append, overwrite_append]
    simpa [overwrite_revertWrites happ] using ih

theorem restorable_of_trace (hh : 1 ≤ nHeight) (hm : Stored T m) :
    ∀ x ∈ l, x.2.length = (inputs T x.1).length ∧ Restorable T x.2 := by
  induction ht with
  | start => exact fun x hx => absurd hx not_mem_nil
  | snoc ht happ ih =>
    intro x hx
    rcases mem_append.1 hx with hx | hx
    · exact ih x hx
    · obtain rfl := mem_singleton.1 hx
      exact ⟨happ.length_undo, restorable_of_applied happ (ht.stored hh hm)⟩

end

end Exact

/-- The cache shows `m` and lies on the database `d`. -/
structure Over (d : CoinsDB) (m : CoinMap) (v : CacheView) : Prop where
  coherent : v.Coherent
  base_eq : v.base = .db d
  visible_eq : v.visible = m

section Programs

variable {T : TxFns} {F : ScriptFns} {d : CoinsDB} {m : CoinMap} {v v' : CacheView} {o : OutPoint}
  {coin : Coin} {nHeight : ℕ} {tx : Transaction} {undo : List Coin} {E : Fault → Prop}
  {block : Block} {out : TxOut}

theorem Over.fill (h : Over d m v) (hf : v.Fill v') : Over d m v' := by
  refine ⟨h.coherent.fill hf, ?_, hf.visible.trans h.visible_eq⟩
  -- nothing is filled into the database
  have hbase : v.base.Fill v'.base := hf.2
  rw [h.base_eq] at hbase
  cases hb : v'.base with
  | db d' =>
    rw [hb] at hbase
    rw [show d = d' from hbase]
  | cache c base =>
    rw [hb] at hbase
    exact hbase.elim

theorem writes_spendCoin (o : OutPoint) :
    Writes (Over d) (CacheView.spendCoin F o) [(o, none)] := by
  intro m v h
  have hbase : wp (CacheView.spendCoin F o) (fun _ v' => v'.base = .db d) (fun _ => False) v := by
    refine CacheView.wp_spendCoin_entry fun e v' hf _ _ => ?_
    cases e with
    | none => exact (h.fill hf).base_eq
    | some e => exact (h.fill hf).base_eq
  have hmap : wp (CacheView.spendCoin F o)
      (fun _ v' => v'.Coherent ∧ v'.visible = Function.update m o none) (fun _ => False) v := by
    refine CacheView.wp_spendCoin h.coherent fun r v' hc hm _ _ => ⟨hc, ?_⟩
    rw [← h.visible_eq]
    exact (cons.inj hm).1
  exact (hbase.and hmap).mono (fun _ _ ⟨hb, hc, hm⟩ => ⟨hc, hb, hm⟩) fun _ => id

theorem wp_addCoin_over {po : Bool} (h : Over d m v) (hs : coin.isSpent = false)
    (hpo : po = false → m o = none) :
    wp (CacheView.addCoin F o coin po) (fun _ => Over d (CacheView.added F m o coin)) E v := by
  refine CacheView.wp_addCoin h.coherent hs (fun hf => h.visible_eq ▸ hpo hf) fun v' hc hb hv => ?_
  exact ⟨hc, hb.trans h.base_eq, by rw [hv, h.visible_eq]⟩

/-- Look whether a coin is there and then allow for an overwrite. -/
theorem wp_haveCoin_over {Q : Bool → CacheView → Prop} (h : Over d m v)
    (hQ : ∀ there v', (there = false → m o = none) → Over d m v' → Q there v') :
    wp (CacheView.haveCoin F o) Q E v := by
  refine CacheView.wp_haveCoin fun v' hf => hQ _ v' (fun hn => ?_) (h.fill hf)
  rw [← h.visible_eq]
  simpa using hn

theorem writes_respendInputs : Writes (Over d) (respendInputs T tx) (inputWrites T tx) := by
  unfold respendInputs inputWrites inputs
  split_ifs
  · exact Writes.pure ()
  · rw [List.map_map, map_eq_flatMap]
    exact Writes.forM fun txin _ => (writes_spendCoin txin.prevout).then_pure

theorem overwrite_outputWrite {k : ℕ} :
    overwrite m (outputWrite T nHeight tx (out, k)) =
      CacheView.added T.toScriptFns m ⟨T.getHash tx, k⟩
        { out, nHeight, fCoinBase := T.isCoinBase tx } := by
  unfold outputWrite createdCoin CacheView.added
  split_ifs <;> rfl

theorem writes_addCoins (htx : Consensus.TxChecked tx) :
    Writes (Over d) (addCoins T tx nHeight true) (outputWrites T nHeight tx) := by
  refine Writes.forM fun ⟨out, k⟩ hx m v h => ?_
  have hout : out ∈ tx.vout := mem_of_getElem? (mem_zipIdx_iff_getElem?.1 hx)
  simp only [↓reduceIte, wp_bind, overwrite_outputWrite]
  refine wp_haveCoin_over h fun there v' hthere h' => ?_
  exact wp_addCoin_over h' (createdCoin_isSpent (htx.vout_range out hout)) hthere

theorem writes_rollforwardTx (htx : Consensus.TxChecked tx) :
    Writes (Over d) (rollforwardTx T nHeight tx) (applyWrites T nHeight tx) :=
  writes_respendInputs.bind fun _ => writes_addCoins htx

theorem writes_undoOutput {k : ℕ} :
    Writes (Over d) (undoOutput T nHeight tx out k)
      (eraseAll (outputWrite T nHeight tx (out, k))) := by
  unfold undoOutput outputWrite createdCoin
  split_ifs
  · exact Writes.pure true
  · exact (writes_spendCoin _).mapError.then_pure

theorem writes_applyTxInUndo (hs : coin.isSpent = false) (hh : 1 ≤ coin.nHeight)
    (hu : T.isUnspendable coin.out.scriptPubKey = false) :
    Writes (Over d) (applyTxInUndo T coin o) [(o, some coin)] := by
  intro m v h
  simp only [applyTxInUndo, wp_bind, wp_mapError, wp_pure]
  refine wp_haveCoin_over h fun there v' hthere h' => ?_
  -- the undo data have a height, so no other output is asked for it
  rw [undoMetadata, if_neg (by omega), Bool.not_not]
  refine (wp_addCoin_over h' hs hthere).mono (fun _ v'' h'' => ?_) fun _ => id
  rwa [CacheView.added, if_neg (by simp [hu])] at h''

theorem writes_restore (hcb : T.isCoinBase tx = false) (hundo : Restorable T undo) (fClean : Bool) :
    Writes (Over d) ((tx.vin.zip undo).reverse.foldlM (fun fClean (txin, undo) => do
      let res ← applyTxInUndo T undo txin.prevout
      return fClean && res) fClean) (restoreWrites T tx undo) := by
  have hws : restoreWrites T tx undo =
      (tx.vin.zip undo).reverse.flatMap fun x => [(x.1.prevout, some x.2)] := by
    rw [restoreWrites, inputs, if_neg (by simp [hcb]), zip_map_left, ← map_reverse,
      List.map_map, map_eq_flatMap]
    rfl
  rw [hws]
  refine Writes.foldlM (fun a x hx => ?_) fClean
  obtain ⟨hs, hh, hu⟩ := hundo x.2 (of_mem_zip (mem_reverse.1 hx)).2
  exact (writes_applyTxInUndo hs hh hu).then_pure

theorem writes_undoTx (hlen : undo.length = (inputs T tx).length) (hundo : Restorable T undo)
    (bip30 fClean : Bool) :
    Writes (Over d) (undoTx T nHeight bip30 fClean (undoArg T (tx, undo)))
      (revertWrites T nHeight (tx, undo)) := by
  have hout : Writes (Over d) (tx.vout.zipIdx.foldlM (fun fClean x => do
      let matched ← undoOutput T nHeight tx x.1 x.2
      return fClean && (matched || (T.isCoinBase tx && !bip30))) fClean)
      (eraseAll (outputWrites T nHeight tx)) := by
    rw [outputWrites, eraseAll, map_flatMap]
    refine Writes.foldlM (fun a x _ => ?_) fClean
    exact writes_undoOutput.then_pure
  refine hout.bind fun fClean => ?_
  cases hcb : T.isCoinBase tx with
  | true =>
    simp only [hcb, ↓reduceIte, restoreWrites, inputs]
    exact Writes.pure fClean
  | false =>
    rw [inputs, if_neg (by simp [hcb])] at hlen
    simp only [Bool.false_eq_true, ↓reduceIte]
    intro m v h
    rw [wp_bind, wp_rejectIf]
    exact ⟨by simp [hlen], fun _ => writes_restore hcb hundo fClean m v h⟩

theorem writes_undoTxs {E : Env} {undos : List (List Coin)}
    (hb : BlockChecked E block) (hlen : undos.length + 1 = block.vtx.length)
    (hundo : ∀ x ∈ block.vtx.zip ([] :: undos),
      x.2.length = (inputs E.tx x.1).length ∧ Restorable E.tx x.2) (bip30 : Bool) :
    Writes (Over d) ((block.vtx.zip (none :: undos.map some)).reverse.foldlM
      (undoTx E.tx nHeight bip30) true)
      ((block.vtx.zip ([] :: undos)).reverse.flatMap (revertWrites E.tx nHeight)) := by
  have hall : (([] : List Coin) :: undos).length = block.vtx.length := hlen
  have hzip : block.vtx.zip (none :: undos.map some) =
      (block.vtx.zip ([] :: undos)).map (undoArg E.tx) := zip_undoArg hb hall
  rw [hzip, ← map_reverse, foldlM_map]
  refine Writes.foldlM (fun fClean x hx => ?_) true
  obtain ⟨hlen, hrest⟩ := hundo x (mem_reverse.1 hx)
  exact writes_undoTx hlen hrest bip30 fClean

/-- A block that is undone to the end is not said to have failed. -/
theorem wp_disconnectBlock {index : BlockIndex} {pprev : Branch}
    {blockUndo : Option (List (List Coin))} {Q : CacheView → Prop}
    (h : wp (undoBlock T index pprev blockUndo block) (fun _ => Q) (fun _ => False) v) :
    wp (disconnectBlock T index pprev blockUndo block) (fun res v' => res ≠ .failed ∧ Q v')
      (fun _ => False) v := by
  obtain ⟨fClean, v', hr, hQ⟩ := h.exists_ok
  have hrun : disconnectBlock T index pprev blockUndo block v =
      .ok (if fClean then .ok else .unclean) v' := by
    rw [disconnectBlock, hr]
  refine wp_of_ok hrun ⟨?_, hQ⟩
  split_ifs <;> decide

end Programs

namespace BlockStore

variable (S : BlockStore) {d : CoinsDB} {m m' : CoinMap} {p q : ℕ}

/-- The block files have block `p`, valid on the coins `m`, and the coins that it spent; the coins
after it are `m'`. -/
structure Connected (p : ℕ) (m m' : CoinMap) (block : Block) (undo : List (List Coin)) : Prop where
  read_block : S.readBlock p = some block
  read_undo : S.readUndo p = some undo
  checked : BlockChecked S.env block
  length_undo : undo.length + 1 = block.vtx.length
  trace : Trace S.env.tx (S.tree.heightOf p) m (block.vtx.zip ([] :: undo)) m'

variable {S} {block : Block} {undo : List (List Coin)}

namespace Connected

section

variable (h : S.Connected p m m' block undo)
include h

theorem map_fst_zip : (block.vtx.zip ([] :: undo)).map Prod.fst = block.vtx :=
  List.map_fst_zip (by rw [length_cons, h.length_undo])

theorem writes_rollforward (hp : p < S.tree.length) :
    ∃ ws, Writes (Over d) (S.rollforwardBlock p) ws ∧ overwrite m ws = m' := by
  refine ⟨block.vtx.flatMap (applyWrites S.env.tx (S.tree.heightOf p)), ?_, ?_⟩
  · simp only [rollforwardBlock, h.read_block, S.nHeight_eq p hp]
    exact (Writes.forM fun tx htx => writes_rollforwardTx (h.checked.checked tx htx)).mapError
  · have := overwrite_apply_of_trace h.trace
    rwa [h.map_fst_zip] at this

theorem writes_rollback (hq : S.tree.pprevOf p = some q)
    (hp : p < S.tree.length) (hm : Stored S.env.tx m) :
    ∃ ws, Writes (Over d) (S.rollbackBlock p) ws ∧ overwrite m' ws = m := by
  have hheight : 1 ≤ S.tree.heightOf p := by
    have := (S.sound.parent p q hq).2
    omega
  refine ⟨_, fun m1 v hv => ?_, overwrite_revert_of_trace h.trace⟩
  have hundo := restorable_of_trace h.trace hheight hm
  have hrun : wp (disconnectBlock S.env.tx (S.index p) (S.pprev p) (S.readUndo p) block)
      (fun res v' => res ≠ .failed ∧
        Over d (overwrite m1 ((block.vtx.zip ([] :: undo)).reverse.flatMap
        (revertWrites S.env.tx (S.tree.heightOf p)))) v') (fun _ => False) v := by
    apply wp_disconnectBlock
    simp only [undoBlock, h.read_undo, pprev, hq, toList_some, map_singleton,
      wp_bind, wp_rejectIf, wp_mapError, S.nHeight_eq p hp]
    refine ⟨by simp [h.length_undo], fun _ => ?_⟩
    refine (writes_undoTxs h.checked h.length_undo hundo _ m1 v hv).mono
      (fun _ v' hv' => ?_) fun _ => id
    exact hv'.fill (CacheView.setBestBlock_fill _)
  rw [rollbackBlock, if_pos (by rw [S.nHeight_eq p hp]; exact hheight)]
  simp only [h.read_block, wp_bind, wp_mapError]
  refine hrun.mono (fun res v' ⟨hres, hv'⟩ => ?_) fun _ => id
  rw [if_neg hres]
  exact hv'

end

end Connected

end BlockStore

end KPCoin.Validation
