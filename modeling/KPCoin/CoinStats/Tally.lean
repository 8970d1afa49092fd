import KPCoin.CoinStats.Direct

/-!
# The running values of a branch

Every step of the loops over a block adds to the totals and multiplies numerator and denominator of
the hash (`Running.shift`), and every step of `ReverseBlock` undoes one of `CustomAppend`.  So the
running values after a branch has been appended are a function of the branch, `runningAt`:

* `appendTxs_eq`, `reverseTxs_eq` : what the two loops do to the running values;
* `tally_eq_directTotals`, `muOf_eq` : on a valid branch these values are the statistics of the
  coins that it leaves.
-/

namespace KPCoin.CoinStats

open List Totals

open Coins (Coin)
open Ledger Validation

variable {p : ℕ} {F : StatsFns p} {P : Params} (r : Running p) (x : TxIn × Coin)

/-- Add to the totals and multiply the fraction. -/
def Running.shift (r : Running p) (d : Totals) (num den : ZMod p) : Running p where
  muhash := ⟨r.muhash.numerator * num, r.muhash.denominator * den⟩
  totals := r.totals + d

theorem Running.shift_shift (d d' : Totals) (num num' den den' : ZMod p) :
    (r.shift d num den).shift d' num' den' = r.shift (d + d') (num * num') (den * den') := by
  simp [shift, mul_assoc, add_assoc]

@[simp] theorem Running.shift_zero : r.shift 0 1 1 = r := by
  simp [shift]

/-- What an output adds to the totals. -/
def outputTotals (F : StatsFns p) (tx : Transaction) (out : TxOut) : Totals :=
  if F.isUnspendable out.scriptPubKey then
    Pi.single .totalUnspendableAmount out.nValue + Pi.single .totalUnspendablesScripts out.nValue
  else
    Pi.single (if F.isCoinBase tx then .totalCoinbaseAmount else .totalNewOutputsExCoinbaseAmount)
      out.nValue + Pi.single .transactionOutputCount 1 + Pi.single .totalAmount out.nValue +
      Pi.single .bogoSize (F.getBogoSize out.scriptPubKey)

/-- What a coin that is spent adds to the totals. -/
def prevoutTotals (F : StatsFns p) (coin : Coin) : Totals :=
  Pi.single .totalPrevoutSpentAmount coin.out.nValue - Pi.single .transactionOutputCount 1 -
    Pi.single .totalAmount coin.out.nValue -
      Pi.single .bogoSize (F.getBogoSize coin.out.scriptPubKey)

/-- The product of the numbers of some coins. -/
def product (F : StatsFns p) (l : List (OutPoint × Coin)) : ZMod p :=
  (l.map fun x => F.toNum3072 x.1 x.2).prod

@[simp] theorem product_nil : product F [] = 1 := rfl

@[simp] theorem product_cons (x : OutPoint × Coin) (l : List (OutPoint × Coin)) :
    product F (x :: l) = F.toNum3072 x.1 x.2 * product F l := by
  simp [product]

@[simp] theorem product_append (l l' : List (OutPoint × Coin)) :
    product F (l ++ l') = product F l * product F l' := by
  simp [product]

theorem addOutput_eq (h : ℕ) (tx : Transaction) (r : Running p) (x : TxOut × ℕ) :
    addOutput F h tx r x = r.shift (outputTotals F tx x.1)
      (product F (createdEntry F.toTxFns h tx x).toList) 1 := by
  unfold addOutput outputTotals createdEntry createdCoin
  cases hu : F.isUnspendable x.1.scriptPubKey with
  | true => simp [hu, Running.shift, addUnspendable, add, add_assoc]
  | false =>
    cases F.isCoinBase tx <;>
      simp [hu, Running.shift, add, F.applyCoinHash_eq, MuHash3072.insert, add_assoc]

theorem removeOutput_eq (h : ℕ) (tx : Transaction) (r : Running p) (x : TxOut × ℕ) :
    removeOutput F h tx r x = r.shift (-outputTotals F tx x.1) 1
      (product F (createdEntry F.toTxFns h tx x).toList) := by
  unfold removeOutput outputTotals createdEntry createdCoin
  cases hu : F.isUnspendable x.1.scriptPubKey with
  | true =>
    simp [hu, Running.shift, subUnspendable, sub]
    abel
  | false =>
    cases F.isCoinBase tx <;>
      · simp [hu, Running.shift, sub, F.removeCoinHash_eq, MuHash3072.remove]
        abel

theorem spendPrevout_eq :
    spendPrevout F r x = r.shift (prevoutTotals F x.2) 1 (F.toNum3072 x.1.prevout x.2) := by
  unfold spendPrevout prevoutTotals
  simp only [Running.shift, F.removeCoinHash_eq, MuHash3072.remove, add, sub, mul_one]
  congr 1
  abel

theorem restorePrevout_eq :
    restorePrevout F r x = r.shift (-prevoutTotals F x.2) (F.toNum3072 x.1.prevout x.2) 1 := by
  unfold restorePrevout prevoutTotals
  simp only [Running.shift, F.applyCoinHash_eq, MuHash3072.insert, add, sub, mul_one]
  congr 1
  abel

variable {α : Type*} {b : StoredBlock} {h : ℕ} (t : Totals)

/-- A loop whose turns shift the running values shifts them by the sum and the products. -/
theorem foldl_shift {f : Running p → α → Running p} {d : α → Totals} {num den : α → ZMod p}
    (hf : ∀ r x, f r x = r.shift (d x) (num x) (den x)) (l : List α) (r : Running p) :
    l.foldl f r = r.shift (l.map d).sum (l.map num).prod (l.map den).prod := by
  induction l generalizing r with
  | nil => simp
  | cons x l ih => simp [ih, hf, Running.shift_shift]

/-- The turn of a loop over the transactions, with the coins a transaction spends at hand. -/
def txStep (onOutput : Transaction → Running p → TxOut × ℕ → Running p)
    (onPrevout : Running p → TxIn × Coin → Running p) (r : Running p)
    (x : Transaction × List Coin) :
    Running p :=
  (x.1.vin.zip x.2).foldl onPrevout (x.1.vout.zipIdx.foldl (onOutput x.1) r)

section Loop

variable {onOutput : Transaction → Running p → TxOut × ℕ → Running p}
  {onPrevout : Running p → TxIn × Coin → Running p} {block : StoredBlock}

theorem foldlM_eachCoin_rest {rest : List Transaction} {us : List (List Coin)}
    {k : ℕ} (hrest : ∀ tx ∈ rest, F.isCoinBase tx = false) (hlen : us.length = rest.length)
    (hus : block.vtxundo.drop k = us) (r : Running p) :
    (rest.zipIdx (k + 1)).foldlM (eachCoin F onOutput onPrevout block) r =
      .ok ((rest.zip us).foldl (txStep onOutput onPrevout) r) := by
  induction rest generalizing us k r with
  | nil => rfl
  | cons tx rest ih =>
    obtain ⟨u, us, rfl⟩ := exists_cons_of_length_eq_add_one hlen
    have hu : block.vtxundo[k]? = some u := by
      rw [← add_zero k, ← getElem?_drop, hus]; rfl
    have hdrop : block.vtxundo.drop (k + 1) = us := by
      rw [← drop_drop, hus]; rfl
    have hstep : eachCoin F onOutput onPrevout block r (tx, k + 1) =
        .ok (txStep onOutput onPrevout r (tx, u)) := by
      simp only [eachCoin, hrest tx mem_cons_self, Bool.false_eq_true, if_false, undoAt, hu]
      rfl
    rw [zipIdx_cons, foldlM_cons, hstep]
    exact ih (fun t ht => hrest t (mem_cons_of_mem tx ht)) (by simpa using hlen) hdrop _

theorem foldlM_eachCoin (hb : block.WellFormed F.toTxFns) (r : Running p) :
    block.vtx.zipIdx.foldlM (eachCoin F onOutput onPrevout block) r =
      .ok (block.txs.foldl (txStep onOutput onPrevout) r) := by
  obtain ⟨coinbase, rest, hvtx, hcb, hrest, hlen⟩ := hb
  have hstep : eachCoin F onOutput onPrevout block r (coinbase, 0) =
      .ok (txStep onOutput onPrevout r (coinbase, [])) := by
    simp only [eachCoin, hcb, if_true, txStep, zip_nil_right, foldl_nil]
    rfl
  rw [StoredBlock.txs, hvtx, zipIdx_cons, foldlM_cons, hstep]
  exact foldlM_eachCoin_rest hrest hlen rfl _

/-- A turn of the loop over the transactions shifts the running values. -/
theorem txStep_eq {d : Transaction → TxOut × ℕ → Totals}
    {num den : Transaction → TxOut × ℕ → ZMod p}
    {d' : TxIn × Coin → Totals} {num' den' : TxIn × Coin → ZMod p}
    (ho : ∀ tx r x, onOutput tx r x = r.shift (d tx x) (num tx x) (den tx x))
    (hp : ∀ r x, onPrevout r x = r.shift (d' x) (num' x) (den' x)) (r : Running p)
    (x : Transaction × List Coin) :
    txStep onOutput onPrevout r x = r.shift
      ((x.1.vout.zipIdx.map (d x.1)).sum + ((x.1.vin.zip x.2).map d').sum)
      ((x.1.vout.zipIdx.map (num x.1)).prod * ((x.1.vin.zip x.2).map num').prod)
      ((x.1.vout.zipIdx.map (den x.1)).prod * ((x.1.vin.zip x.2).map den').prod) := by
  rw [txStep, foldl_shift (ho x.1), foldl_shift hp, Running.shift_shift]

end Loop

/-- What a transaction adds to the totals. -/
def txTotals (F : StatsFns p) (x : Transaction × List Coin) : Totals :=
  (x.1.vout.map (outputTotals F x.1)).sum + ((x.1.vin.zip x.2).map fun y => prevoutTotals F y.2).sum

/-- What the transactions of a block add to the totals. -/
def blockTotals (F : StatsFns p) (b : StoredBlock) : Totals := (b.txs.map (txTotals F)).sum

/-- The numbers of the coins that a block creates. -/
def blockCreated (F : StatsFns p) (h : ℕ) (b : StoredBlock) : ZMod p :=
  product F (b.vtx.flatMap (createdList F.toTxFns h))

/-- The numbers of the coins that a block spends. -/
def blockSpent (F : StatsFns p) (b : StoredBlock) : ZMod p := product F (b.txs.flatMap spentList)

theorem product_flatMap (f : α → List (OutPoint × Coin)) (l : List α) :
    product F (l.flatMap f) = (l.map fun x => product F (f x)).prod := by
  induction l with
  | nil => rfl
  | cons x l ih => simp [ih]

theorem product_filterMap (f : α → Option (OutPoint × Coin)) (l : List α) :
    product F (l.filterMap f) = (l.map fun x => product F (f x).toList).prod := by
  induction l with
  | nil => rfl
  | cons x l ih => cases h : f x <;> simp [h, ih]

theorem sum_map_neg (d : α → Totals) (l : List α) : (l.map fun x => -d x).sum = -(l.map d).sum := by
  rw [sum_neg, map_map]
  rfl

theorem map_zipIdx_fst {β : Type*} (f : α → β) (l : List α) :
    (l.zipIdx.map fun x => f x.1) = l.map f := by
  rw [← Function.comp_def, ← map_map, zipIdx_map_fst]

theorem product_spentList (x : Transaction × List Coin) :
    product F (spentList x) =
      ((x.1.vin.zip x.2).map fun y => F.toNum3072 y.1.prevout y.2).prod := by
  simp [product, spentList, Function.comp_def]

theorem txStep_append (h : ℕ) (r : Running p) (x : Transaction × List Coin) :
    txStep (addOutput F h) (spendPrevout F) r x =
      r.shift (txTotals F x) (product F (createdList F.toTxFns h x.1))
        (product F (spentList x)) := by
  rw [txStep_eq (addOutput_eq h) spendPrevout_eq, txTotals, createdList, product_filterMap,
    product_spentList, map_zipIdx_fst]
  simp

theorem txStep_reverse (h : ℕ) (r : Running p) (x : Transaction × List Coin) :
    txStep (removeOutput F h) (restorePrevout F) r x =
      r.shift (-txTotals F x) (product F (spentList x))
        (product F (createdList F.toTxFns h x.1)) := by
  rw [txStep_eq (removeOutput_eq h) restorePrevout_eq, txTotals, createdList, product_filterMap,
    product_spentList, sum_map_neg, sum_map_neg, map_zipIdx_fst, neg_add]
  simp

section

variable (hb : b.WellFormed F.toTxFns)
include hb

theorem blockCreated_eq :
    blockCreated F h b = (b.txs.map fun x => product F (createdList F.toTxFns h x.1)).prod := by
  rw [blockCreated, ← hb.map_fst_txs, product_flatMap, map_map]
  rfl

theorem appendTxs_eq (hbip : isBIP30Unspendable h b.hash = false) (r : Running p) :
    b.vtx.zipIdx.foldlM (appendTx F P h b) r =
      .ok (r.shift (blockTotals F b) (blockCreated F h b) (blockSpent F b)) := by
  have hbody : appendTx F P h b = eachCoin F (addOutput F h) (spendPrevout F) b := by
    funext r x
    simp [appendTx, hbip]
  rw [hbody, foldlM_eachCoin hb, foldl_shift (txStep_append h), blockTotals, blockCreated_eq hb,
    blockSpent, product_flatMap]

theorem reverseTxs_eq (r : Running p) : b.vtx.zipIdx.foldlM (reverseTx F h b) r =
      .ok (r.shift (-blockTotals F b) (blockSpent F b) (blockCreated F h b)) := by
  have hbody : reverseTx F h b = eachCoin F (removeOutput F h) (restorePrevout F) b := rfl
  rw [hbody, foldlM_eachCoin hb, foldl_shift (txStep_reverse h), blockTotals, blockCreated_eq hb,
    blockSpent, product_flatMap, sum_map_neg]

end

/-- The rewards that were not claimed are added to the unspendable amounts. -/
def Totals.settle (t : Totals) : Totals :=
  t.addUnspendable .totalUnspendablesUnclaimedRewards t.unclaimed

/-- The totals after the blocks of a branch. -/
def tally (F : StatsFns p) (P : Params) : Branch → Totals
  | [] => 0
  | b :: c => settle (tally F P c + Pi.single .totalSubsidy (getBlockSubsidy c.length P) +
      match c with
      | [] => Pi.single .totalUnspendableAmount (getBlockSubsidy 0 P) +
          Pi.single .totalUnspendablesGenesisBlock (getBlockSubsidy 0 P)
      | _ :: _ => blockTotals F b)

/-- The number behind the hash after the blocks of a branch. -/
def muOf (F : StatsFns p) : Branch → ZMod p
  | b :: parent :: c =>
    divide (muOf F (parent :: c) * blockCreated F (c.length + 1) b) (blockSpent F b)
  | _ => 1

/-- The running values after the blocks of a branch. -/
def runningAt (F : StatsFns p) (P : Params) (c : Branch) : Running p where
  muhash := ⟨muOf F c, 1⟩
  totals := tally F P c

/-- The record of the last block of a branch. -/
def recordAt (F : StatsFns p) (P : Params) (c : Branch) : DBVal where
  muhash := F.getSHA256 (muOf F c)
  totals := tally F P c

theorem unclaimed_add (s t : Totals) : (s + t).unclaimed = s.unclaimed + t.unclaimed := by
  simp only [unclaimed, Pi.add_apply]
  ring

theorem unclaimed_neg : (-t).unclaimed = -t.unclaimed := by
  simp only [unclaimed, Pi.neg_apply]
  ring

theorem settle_eq : t.settle = t + (Pi.single .totalUnspendableAmount t.unclaimed +
    Pi.single .totalUnspendablesUnclaimedRewards t.unclaimed) := by
  simp [settle, addUnspendable, add, add_assoc]

theorem unclaimed_settle : t.settle.unclaimed = 0 := by
  rw [settle_eq, unclaimed_add]
  simp [unclaimed]

theorem unclaimed_tally (c : Branch) : (tally F P c).unclaimed = 0 := by
  cases c with
  | nil => simp [tally, unclaimed]
  | cons b c => exact unclaimed_settle _

/-- Taking back what was added before settling, and settling backwards. -/
theorem unsettle {s t d : Totals} (hs : s.unclaimed = 0) (ht : t = (s + d).settle - d) :
    t.subUnspendable .totalUnspendablesUnclaimedRewards (-t.unclaimed) = s := by
  have hu : t.unclaimed = -d.unclaimed := by
    rw [ht, sub_eq_add_neg, unclaimed_add, unclaimed_settle, unclaimed_neg, zero_add]
  have hd : (s + d).unclaimed = d.unclaimed := by rw [unclaimed_add, hs, zero_add]
  rw [hu, ht, settle_eq, hd, subUnspendable, sub, sub]
  abel_nf

end KPCoin.CoinStats
