import KPCoin.Validation.CheckBlock

/-!
# Connecting a block

`UpdateCoins` and `ConnectBlock` (`validation.cpp`).  For each transaction `ConnectBlock` first
reads the view to check it (`checkConnect`) and then spends its inputs and adds its outputs
(`updateCoins`), keeping the coins it spent as undo data.

* `Connect` is what `ConnectBlock` is given besides the block and the view;
* `connectBlock` returns the undo data, if it gets as far as writing it;
* `wp_checkConnect` is the contract of the checks, and `wp_connectBlock_of_loop` reduces
  `ConnectBlock` to its loop.
-/

namespace KPCoin.Validation

open Program Coins Chain Consensus

section UpdateCoins

variable (T : TxFns)

/-- `AddCoins`. -/
def addCoins (tx : Transaction) (nHeight : ℕ) (checkForOverwrite : Bool) : ViewM Unit :=
  let fCoinbase := T.isCoinBase tx
  let txid := T.getHash tx
  tx.vout.zipIdx.forM fun (out, i) => do
    let overwrite ←
      (if checkForOverwrite then CacheView.haveCoin T.toScriptFns ⟨txid, i⟩ else pure fCoinbase)
    CacheView.addCoin T.toScriptFns ⟨txid, i⟩ { out, nHeight, fCoinBase := fCoinbase } overwrite

/-- Spend one input, which must be there. -/
def spendInput (txin : TxIn) : ViewM Coin := do
  match ← CacheView.spendCoin T.toScriptFns txin.prevout with
  | some coin => return coin
  | none => throw .abort

/-- `UpdateCoins`: the coins spent. -/
def updateCoins (tx : Transaction) (nHeight : ℕ) : ViewM (List Coin) := do
  let vprevout ← (if T.isCoinBase tx then pure [] else tx.vin.mapM (spendInput T))
  addCoins T tx nHeight false
  return vprevout

end UpdateCoins

/-- `GetBlockSubsidy`. -/
def getBlockSubsidy (nHeight : ℕ) (p : Params) : ℤ :=
  let halvings := (nHeight : ℤ).tdiv p.nSubsidyHalvingInterval
  if halvings ≥ 64 then 0 else (500 * coinUnit) >>> halvings.toNat

/-- `IsBIP30Repeat`. -/
def isBIP30Repeat (b : BlockIndex) : Bool :=
  (b.nHeight == 91842 &&
    b.hash == 0x00000000000a4d0a398161ffc163c503763b1f4360639393e0e4c8e300e0caec) ||
  (b.nHeight == 91880 &&
    b.hash == 0x00000000000743f190a18c5577a3c2d2a1f610ae9601ac046a38084ccb7cd721)

/-- `BIP34_IMPLIES_BIP30_LIMIT`. -/
def bip34ImpliesBip30Limit : ℕ := 1983702

/-- What the node knows of the block that is assumed to have a valid history. -/
structure AssumeValid where
  assumedValidBlock : Uint256 := 0
  /-- The index entry of that block, if it has one. -/
  entry : Option Branch := none
  bestHeader : Branch := []
  minimumChainWork : Pow.Arith := 0

/-- The data `ConnectBlock` uses besides the block and the view. -/
structure Connect where
  /-- `*pindex`. -/
  index : BlockIndex
  /-- `pindex->pprev` and its ancestors. -/
  pprev : Branch
  assumeValid : AssumeValid := {}
  /-- The check queue has threads, so script checks are run at the end. -/
  parallelScriptChecks : Bool := false
  fJustCheck : Bool := false
  /-- `WriteUndoDataForBlock` succeeds. -/
  undoWritten : Bool := true

variable (E : Env) (X : Connect)

/-- The scripts of the block are checked, unless it is buried under the assumed valid one. -/
def fScriptChecks : Bool :=
  let A := X.assumeValid
  if A.assumedValidBlock = 0 then true
  else match A.entry with
  | none => true
  | some entry =>
    match A.bestHeader with
    | [] => true
    | best :: _ =>
      if getAncestor X.index.nHeight entry = X.index :: X.pprev ∧
          getAncestor X.index.nHeight A.bestHeader = X.index :: X.pprev ∧
          best.nChainWork ≥ A.minimumChainWork then
        decide (Chain.getBlockProofEquivalentTime best.nChainWork X.index.nChainWork best.nBits
          E.params.nPowTargetSpacing ≤ 60 * 60 * 24 * 7 * 2)
      else true

/-- Blocks at this place may not overwrite unspent outputs (BIP30). -/
def enforceBIP30 : Bool :=
  let pindexBIP34height := getAncestor E.params.bip34Height X.pprev
  (!isBIP30Repeat X.index && !(pindexBIP34height.head?.any fun b => b.hash ==
    E.params.bip34Hash)) || decide (X.index.nHeight ≥ bip34ImpliesBip30Limit)

/-- `DeploymentActiveAt`. -/
def deploymentActiveAt (dep : BuriedDeployment) : Bool :=
  decide ((X.index.nHeight : ℤ) ≥ E.params.deploymentHeight dep)

/-- `GetBlockScriptFlags`. -/
def getBlockScriptFlags : List ScriptFlag :=
  ((E.params.scriptFlagExceptions X.index.hash).getD [.p2sh, .witness, .taproot]) ++
    (if deploymentActiveAt E X .dersig then [.dersig] else []) ++
    (if deploymentActiveAt E X .cltv then [.checkLockTimeVerify] else []) ++
    (if deploymentActiveAt E X .csv then [.checkSequenceVerify] else []) ++
    (if deploymentActiveAt E X .segwit then [.nullDummy] else [])

/-- `CheckInputScripts`.  With a check queue the answer is what the queue will find; otherwise a
failing script stops at once. -/
def checkInputScripts (tx : Transaction) (flags : List ScriptFlag) : BlockM Bool :=
  if E.tx.scriptExecutionCached tx flags then return true
  else do
    let spentOutputs ← tx.vin.mapM fun txin => do
      return (← Consensus.accessInput E.tx txin).out
    let failures := spentOutputs.zipIdx.filterMap fun (out, i) => E.tx.scriptCheck tx i out flags
    rejectIf (!X.parallelScriptChecks && !failures.isEmpty)
      (.invalidTx .consensus (failures.headD ""))
    return failures.isEmpty

/-- The running totals of the loop of `ConnectBlock`. -/
structure Progress where
  nFees : ℤ := 0
  nSigOpsCost : ℕ := 0
  vtxundo : List (List Coin) := []
  /-- The queued script checks all succeed. -/
  scriptsOk : Bool := true

/-- The fee of a transaction that is not the coinbase, added to the fees of the block; then its
relative lock times. -/
def checkFee (tx : Transaction) (nFees : ℤ) : BlockM ℤ := do
  let txfee ← mapError asConsensus (Consensus.checkTxInputs E.tx tx X.index.nHeight)
  let nFees ← ofExcept (addAmount nFees txfee)
  rejectIf (!moneyRange nFees) (.invalidBlock .consensus "bad-txns-accumulated-fee-outofrange")
  let prevheights ← tx.vin.mapM fun txin => do
    return (← mapError .fault (CacheView.accessCoin E.tx.toScriptFns txin.prevout)).nHeight
  let final ← ofExcept (Consensus.sequenceLocks tx (deploymentActiveAt E X .csv) prevheights
    (X.index :: X.pprev))
  rejectIf (!final) (.invalidBlock .consensus "bad-txns-nonfinal")
  return nFees

/-- The part of the loop body of `ConnectBlock` that only reads. -/
def checkConnect (acc : Progress) (tx : Transaction) : BlockM Progress := do
  let flags := getBlockScriptFlags E X
  let nFees ← (if E.tx.isCoinBase tx then pure acc.nFees else checkFee E X tx acc.nFees)
  let cost ← Consensus.getTransactionSigOpCost E.tx tx flags
  rejectIf (decide (acc.nSigOpsCost + cost > maxBlockSigopsCost))
    (.invalidBlock .consensus "bad-blk-sigops")
  let ok ← (if E.tx.isCoinBase tx || !fScriptChecks E X then pure true
    else mapError asConsensus (checkInputScripts E X tx flags))
  return { acc with
    nFees, nSigOpsCost := acc.nSigOpsCost + cost, scriptsOk := acc.scriptsOk && ok }

/-- The loop body of `ConnectBlock`. -/
def connectTx (acc : Progress) : Transaction × ℕ → BlockM Progress
  | (tx, i) => do
    let acc ← checkConnect E X acc tx
    let txundo ← mapError .fault (updateCoins E.tx tx X.index.nHeight)
    return if i > 0 then { acc with vtxundo := acc.vtxundo ++ [txundo] } else acc

/-- `CheckBlock` as called by `ConnectBlock`: a mutated block means broken hardware. -/
def recheckBlock (block : Block) : Except Stop Unit :=
  (checkBlock E block (!X.fJustCheck) (!X.fJustCheck)).mapError fun
    | .invalidBlock .mutated _ =>
      .error "Corrupt block found indicating potential hardware failure; shutting down"
    | e => e

/-- The BIP30 loops. -/
def checkBIP30 (block : Block) : BlockM Unit :=
  block.vtx.forM fun tx => (List.range tx.vout.length).forM fun o => do
    let there ← mapError .fault (CacheView.haveCoin E.tx.toScriptFns ⟨E.tx.getHash tx, o⟩)
    rejectIf there (.invalidBlock .consensus "bad-txns-BIP30")

/-- `ConnectBlock`: the undo data, unless nothing is connected. -/
def connectBlock (block : Block) : BlockM (Option (List (List Coin))) := do
  rejectIf (X.index.hash != E.header.getHash block.toBlockHeader) (.fault .abort)
  ofExcept (recheckBlock E X block)
  let best ← mapError .fault CacheView.getBestBlock
  rejectIf (X.pprev.head?.elim 0 BlockIndex.hash != best) (.fault .abort)
  if E.header.getHash block.toBlockHeader = E.params.hashGenesisBlock then
    -- the coinbase of the genesis block is unspendable
    (if X.fJustCheck then pure () else mapError .fault (CacheView.setBestBlock X.index.hash))
    return none
  else
    rejectIf X.pprev.isEmpty (.fault .abort)
    (if enforceBIP30 E X then checkBIP30 E block else pure ())
    let acc ← block.vtx.zipIdx.foldlM (connectTx E X) {}
    let blockReward ← ofExcept (addAmount acc.nFees (getBlockSubsidy X.index.nHeight E.params))
    rejectIf (block.vtx.head?.any fun cb => decide (E.tx.getValueOut cb > blockReward))
      (.invalidBlock .consensus "bad-cb-amount")
    rejectIf (!acc.scriptsOk) (.invalidBlock .consensus "block-validation-failed")
    if X.fJustCheck then return none
    else
      rejectIf (!X.undoWritten) (.error "WriteUndoDataForBlock")
      mapError .fault (CacheView.setBestBlock X.index.hash)
      return some acc.vtxundo

variable {E X} {v : CacheView} {tx : Transaction} {block : Block}

/-- The inputs of the transaction are in the map, and its fee has been added to the fees. -/
structure Spendable (m : CoinMap) (tx : Transaction) (nFees nFees' : ℤ) : Prop where
  available : ∀ t ∈ tx.vin, (m t.prevout).isSome = true
  fee : nFees' = nFees + (tx.vin.map fun t => coinValue (m t.prevout)).sum -
    (tx.vout.map TxOut.nValue).sum

theorem asConsensus_ne_overflow {e : Stop} : asConsensus e ≠ .overflow ↔ e ≠ .overflow := by
  cases e <;> simp [asConsensus]

theorem wp_checkFee {nFees : ℤ} (htx : TxChecked tx)
    (hcb : E.tx.isCoinBase tx = false) (hf : moneyRange nFees = true) :
    wp (checkFee E X tx nFees)
      (fun n v' => v.Fill v' ∧ Spendable v.visible tx nFees n ∧ moneyRange n = true)
      (fun e => ValuesInRange v.visible → e ≠ .overflow) v := by
  simp only [checkFee, wp_bind, wp_mapError, asConsensus_ne_overflow]
  refine (Consensus.wp_checkTxInputs htx hcb).mono ?_ fun _ => id
  rintro fee v1 ⟨h1, havail, hfee, hr⟩
  rw [wp_ofExcept, addAmount_of_inInt64 (inInt64_add hf hr), ensures_ok, wp_rejectIf]
  refine ⟨by simp, fun hn => ?_⟩
  have hheights : ReadsOnly (tx.vin.mapM fun txin => do
      return (← mapError Stop.fault
        (CacheView.accessCoin E.tx.toScriptFns txin.prevout)).nHeight) :=
    .mapM fun txin =>
      .bind (fun v => wp_mapError.2 (CacheView.wp_accessCoin fun _ _ h _ => h)) .pure
  refine hheights.wp (fun e he _ => he) fun hs v2 h2 => ?_
  refine (Consensus.sequenceLocks_readsOnly _ _ _ _).wp (fun e he _ => he) fun final v3 h3 => ?_
  rw [wp_rejectIf]
  refine ⟨by simp, fun _ => ⟨(h1.trans h2).trans h3, ⟨havail, ?_⟩, by simpa using hn⟩⟩
  rw [hfee]
  ring

theorem checkInputScripts_readsOnly (tx : Transaction) (flags : List ScriptFlag) :
    ReadsOnly (checkInputScripts E X tx flags) := by
  unfold checkInputScripts
  split_ifs
  · exact .pure _
  · refine .bind (.mapM fun txin => .bind (Consensus.accessInput_readsOnly txin) .pure)
      fun outs => .bind (.rejectIf (by simp)) .pure

/-- The checks of one transaction only read; a transaction that passes can be paid for. -/
theorem wp_checkConnect {acc : Progress} (htx : TxChecked tx) (hf : moneyRange acc.nFees = true) :
    wp (checkConnect E X acc tx)
      (fun acc' v' => v.Fill v' ∧ acc'.vtxundo = acc.vtxundo ∧ moneyRange acc'.nFees = true ∧
        if E.tx.isCoinBase tx then acc'.nFees = acc.nFees
        else Spendable v.visible tx acc.nFees acc'.nFees)
      (fun e => ValuesInRange v.visible → e ≠ .overflow) v := by
  have hscripts : ∀ (c : Bool) flags, ReadsOnly (if c then pure true
      else mapError asConsensus (checkInputScripts E X tx flags)) := by
    intro c flags
    split_ifs
    · exact .pure _
    · intro v
      rw [wp_mapError]
      exact (checkInputScripts_readsOnly tx flags).wp
        (fun e he => asConsensus_ne_overflow.2 he) fun _ _ => id
  have hfee : wp (if E.tx.isCoinBase tx then pure acc.nFees else checkFee E X tx acc.nFees)
      (fun n v' => v.Fill v' ∧ moneyRange n = true ∧
        if E.tx.isCoinBase tx then n = acc.nFees else Spendable v.visible tx acc.nFees n)
      (fun e => ValuesInRange v.visible → e ≠ .overflow) v := by
    cases hcb : E.tx.isCoinBase tx with
    | true => exact ⟨.refl v, hf, rfl⟩
    | false => exact (wp_checkFee htx hcb hf).mono (fun n v1 h => ⟨h.1, h.2.2, h.2.1⟩) fun _ => id
  simp only [checkConnect, wp_bind]
  refine hfee.mono ?_ fun _ => id
  rintro n v1 ⟨h1, hn, hsp⟩
  refine (Consensus.getTransactionSigOpCost_readsOnly tx _).wp (fun e he _ => he)
    fun cost v2 h2 => ?_
  rw [wp_rejectIf]
  refine ⟨by simp, fun _ => ?_⟩
  exact (hscripts _ _).wp (fun e he _ => he) fun ok v3 h3 => ⟨(h1.trans h2).trans h3, rfl, hn, hsp⟩

/-- No output of the transactions is in the map. -/
def Unseen (E : Env) (vtx : List Transaction) (m : CoinMap) : Prop :=
  ∀ tx ∈ vtx, ∀ i < tx.vout.length, m ⟨E.tx.getHash tx, i⟩ = none

theorem wp_checkBIP30 :
    wp (checkBIP30 E block) (fun _ v' => v.Fill v' ∧ Unseen E block.vtx v.visible)
      (· ≠ .overflow) v := by
  refine wp_forM (fun done v' => v.Fill v' ∧ Unseen E done v.visible) ⟨.refl v, by simp [Unseen]⟩ ?_
  rintro done tx rest v' - ⟨hf, hdone⟩
  have hloop := wp_forM (l := List.range tx.vout.length)
    (f := fun o => do
      let there ← mapError Stop.fault (CacheView.haveCoin E.tx.toScriptFns ⟨E.tx.getHash tx, o⟩)
      rejectIf there (.invalidBlock .consensus "bad-txns-BIP30"))
    (E := (· ≠ .overflow))
    (fun done v' => v.Fill v' ∧ ∀ i ∈ done, v.visible ⟨E.tx.getHash tx, i⟩ = none)
    ⟨hf, by simp⟩ ?_
  · refine hloop.mono (fun _ v1 ⟨hf1, hnone⟩ => ⟨hf1, fun tx' htx' => ?_⟩) fun _ => id
    obtain htx' | rfl : tx' ∈ done ∨ tx' = tx := by simpa using htx'
    · exact hdone tx' htx'
    · exact fun i hi => hnone i (by simpa using hi)
  rintro seen i _ v1 - ⟨hf1, hseen⟩
  simp only [wp_bind, wp_mapError, wp_rejectIf]
  refine CacheView.wp_haveCoin fun v2 hf2 => ⟨by simp, fun hn => ⟨hf1.trans hf2, ?_⟩⟩
  rw [hf1.visible] at hn
  intro j hj
  obtain hj | rfl : j ∈ seen ∨ j = i := by simpa using hj
  · exact hseen j hj
  · simpa using hn

theorem recheckBlock_spec (block : Block) :
    Program.ensures (recheckBlock E X block) (fun _ => BlockChecked E block) (· ≠ .overflow) := by
  have hspec := checkBlock_spec E block (!X.fJustCheck) (!X.fJustCheck)
  unfold recheckBlock
  cases hr : checkBlock E block (!X.fJustCheck) (!X.fJustCheck) with
  | ok u => exact hspec.ok hr
  | error e =>
    have he : e ≠ .overflow := hspec.error hr
    rw [Except.mapError]
    split
    · simp
    · exact he

theorem getBlockSubsidy_range (nHeight : ℕ) (p : Params) :
    0 ≤ getBlockSubsidy nHeight p ∧ getBlockSubsidy nHeight p ≤ 500 * coinUnit := by
  have hunit : coinUnit = 100000000 := rfl
  simp only [getBlockSubsidy]
  split_ifs
  · omega
  · rw [Int.shiftRight_eq_div_pow]
    exact ⟨Int.ediv_nonneg (by omega) (by exact_mod_cast Nat.zero_le _),
      Int.ediv_le_self _ (by omega)⟩

/-- The rule for `ConnectBlock`: what its loop establishes from the checks before it carries over to
the result, with the limit on the coinbase. -/
theorem wp_connectBlock_of_loop {P : Progress → CacheView → Prop}
    {Q : Option (List (List Coin)) → CacheView → Prop} {R : Stop → Prop}
    (hR : ∀ e, e ≠ .overflow → R e)
    (hloop : ∀ v1, v.Fill v1 → BlockChecked E block → X.pprev ≠ [] →
      (enforceBIP30 E X = true → Unseen E block.vtx v.visible) →
      wp (block.vtx.zipIdx.foldlM (connectTx E X) {})
        (fun acc v2 => moneyRange acc.nFees = true ∧ P acc v2) R v1)
    (hgenesis : ∀ v1, v.Fill v1 → Q none v1)
    (hjust : ∀ acc v2, P acc v2 → Q none v2)
    (hdone : ∀ acc v2 v3, P acc v2 → v2.Fill v3 →
      (∀ cb ∈ block.vtx.head?,
        E.tx.getValueOut cb ≤ acc.nFees + getBlockSubsidy X.index.nHeight E.params) →
      Q (some acc.vtxundo) v3) :
    wp (connectBlock E X block) Q R v := by
  simp only [connectBlock, wp_bind, wp_rejectIf, wp_ofExcept, wp_mapError]
  refine ⟨fun _ => hR _ (by simp), fun _ => (recheckBlock_spec block).mono (fun _ hb => ?_) hR⟩
  refine CacheView.wp_getBestBlock fun best v1 h1 => ⟨fun _ => hR _ (by simp), fun _ => ?_⟩
  by_cases hg : E.header.getHash block.toBlockHeader = E.params.hashGenesisBlock
  · rw [if_pos hg]
    cases X.fJustCheck with
    | true => exact hgenesis v1 h1
    | false => exact hgenesis _ (h1.trans (CacheView.setBestBlock_fill _))
  rw [if_neg hg]
  simp only [wp_bind, wp_rejectIf]
  refine ⟨fun _ => hR _ (by simp), fun hprev => ?_⟩
  have hbip30 : wp (if enforceBIP30 E X then checkBIP30 E block else pure ())
      (fun _ v2 => v.Fill v2 ∧ (enforceBIP30 E X = true → Unseen E block.vtx v.visible))
      (· ≠ .overflow) v1 := by
    split_ifs with hbip
    · rw [← h1.visible]
      exact wp_checkBIP30.mono (fun _ v2 => And.imp h1.trans fun hun _ => hun) fun _ => id
    · exact ⟨h1, fun h => absurd h hbip⟩
  refine hbip30.mono (fun _ v2 h2 => ?_) hR
  refine (hloop v2 h2.1 hb (by simpa using hprev) h2.2).mono ?_ fun _ => id
  rintro acc v3 ⟨hn, hP⟩
  have hfees := moneyRange_iff.1 hn
  have hsub := getBlockSubsidy_range X.index.nHeight E.params
  have hmax : maxMoney = 121300000000000000 := rfl
  have hunit : coinUnit = 100000000 := rfl
  rw [wp_ofExcept, addAmount_of_inInt64 (by constructor <;> omega)]
  refine ⟨fun _ => hR _ (by simp), fun hcb => ⟨fun _ => hR _ (by simp), fun _ => ?_⟩⟩
  cases X.fJustCheck with
  | true => exact hjust acc v3 hP
  | false =>
    simp only [Bool.false_eq_true, ↓reduceIte, wp_bind, wp_rejectIf, wp_mapError]
    refine ⟨fun _ => hR _ (by simp), fun _ => hdone acc v3 _ hP (CacheView.setBestBlock_fill _) ?_⟩
    intro cb hcbm
    simpa [Option.mem_def.1 hcbm] using hcb

/-! ### The coins of the tip -/

variable (E) in
/-- Flush the view of a block into the coins of the tip. -/
def flushTip (view : CacheView) : Option View :=
  match CacheView.flush E.tx.toScriptFns view with
  | .ok _ view => some view.base
  | .error _ _ => none

variable (E X) in
/-- The undo data of a block and the coins of the tip after it: `ConnectTip` connects the block in a
cache of its own. -/
def connectTip (block : Block) (coins : View) : Option (List (List Coin) × View) :=
  match connectBlock E X block { base := coins } with
  | .ok (some undo) view => (flushTip E view).map (undo, ·)
  | _ => none

/-- `FlushStateToDisk`: write the cache of the tip to the view below it. -/
def writeTip (m : ViewM Unit) : View → Option View
  | .db _ => none
  | .cache c base =>
    match m ⟨c, base⟩ with
    | .ok _ v => some v.toView
    | .error _ _ => none

variable {coins coins' : View}

theorem flushTip_eq_some (h : flushTip E v = some coins) :
    ∃ u v', CacheView.flush E.tx.toScriptFns v = .ok u v' ∧ coins = v'.base := by
  unfold flushTip at h
  split at h
  · rename_i u v' hr
    exact ⟨u, v', hr, (Option.some.inj h).symm⟩
  · cases h

theorem connectTip_eq_some {undo : List (List Coin)}
    (h : connectTip E X block coins = some (undo, coins')) :
    ∃ view, connectBlock E X block { base := coins } = .ok (some undo) view ∧
      flushTip E view = some coins' := by
  unfold connectTip at h
  split at h
  · rename_i undo' view hconn
    obtain ⟨_, hflush, heq⟩ := Option.map_eq_some_iff.1 h
    cases heq
    exact ⟨view, hconn, hflush⟩
  · cases h

theorem writeTip_eq_some {m : ViewM Unit} (h : writeTip m coins = some coins') :
    ∃ c base u v, coins = .cache c base ∧ m ⟨c, base⟩ = .ok u v ∧ coins' = v.toView := by
  cases coins with
  | db d => cases h
  | cache c base =>
    simp only [writeTip] at h
    split at h
    · rename_i u v hr
      exact ⟨c, base, u, v, rfl, hr, (Option.some.inj h).symm⟩
    · cases h

end KPCoin.Validation
