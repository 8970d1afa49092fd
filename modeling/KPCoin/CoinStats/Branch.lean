import KPCoin.CoinStats.Tally

/-!
# The running values of a valid branch are its statistics

`tally` and `muOf` follow the code block by block.  Here they are brought into closed form: all
outputs and all spent coins of the branch are added up first, and the unclaimed rewards settled once
(`tally_eq_settle`).  On a valid branch each counter is then the one of `directTotals`
(`tally_eq_directTotals`), and the number behind the hash is the product over the coins left
(`muOf_eq`), if no number of a coin is zero and the modulus is prime.
-/

namespace KPCoin.CoinStats

open List Coins Ledger Validation

variable {p : ℕ} {F : StatsFns p} {P : Params} {T : TxFns} {m m' : CoinMap} {c : Branch}
  {b : StoredBlock}

theorem map_snd_zip_of_trace {h : ℕ} {l : List (Transaction × List Coin)}
    (ht : Trace T h m l m') : ∀ x ∈ l, (x.1.vin.zip x.2).map Prod.snd = x.2 := by
  induction ht with
  | start => simp
  | @snoc l m1 m2 tx undo _ ha ih =>
    intro x hx
    rcases mem_append.1 hx with hx | hx
    · exact ih x hx
    · obtain rfl := mem_singleton.1 hx
      have hlen : undo.length = (inputs T tx).length := by
        simpa using (congrArg length ha.undo_eq).symm
      refine map_snd_zip ?_
      rw [hlen, inputs]
      split_ifs <;> simp

theorem StoredBlock.WellFormed.flatMap_snd_txs (hb : b.WellFormed T) :
    b.txs.flatMap Prod.snd = b.vtxundo.flatten := by
  obtain ⟨coinbase, rest, hvtx, -, -, hlen⟩ := hb
  have : b.txs.map Prod.snd = [] :: b.vtxundo := map_snd_zip (by simp [hvtx, hlen])
  rw [flatMap_def, this]
  rfl

theorem sum_map_flatMap {α β A : Type*} [AddMonoid A] (f : α → List β) (g : β → A) (l : List α) :
    ((l.flatMap f).map g).sum = (l.map fun x => ((f x).map g).sum).sum := by
  induction l with
  | nil => rfl
  | cons x l ih => simp [ih]

/-- What a valid block adds, over its outputs and the coins it spends. -/
theorem blockTotals_eq {h : ℕ} (hb : b.WellFormed T) (ht : Trace T h m b.txs m') :
    blockTotals F b = ((b.vtx.flatMap fun tx => tx.vout.map fun out => (tx, out)).map fun x =>
        outputTotals F x.1 x.2).sum + (b.vtxundo.flatten.map (prevoutTotals F)).sum := by
  have hspent : ∀ x ∈ b.txs, ((x.1.vin.zip x.2).map fun y => prevoutTotals F y.2).sum =
      (x.2.map (prevoutTotals F)).sum := by
    intro x hx
    conv_rhs => rw [← map_snd_zip_of_trace ht x hx, map_map]
    rfl
  rw [← hb.flatMap_snd_txs, ← hb.map_fst_txs, sum_map_flatMap, sum_map_flatMap, map_map,
    ← sum_map_add]
  refine congrArg sum (map_congr_left fun x hx => ?_)
  rw [txTotals, hspent x hx]
  simp [Function.comp_def]

/-- What the blocks of a branch add before the rewards are settled. -/
def baseTotals (F : StatsFns p) (P : Params) (c : Branch) : Totals :=
  Pi.single .totalSubsidy ((List.range c.length).map fun h => getBlockSubsidy h P).sum +
    (Pi.single .totalUnspendableAmount (getBlockSubsidy 0 P) +
      Pi.single .totalUnspendablesGenesisBlock (getBlockSubsidy 0 P)) +
    ((outputs c).map fun x => outputTotals F x.1 x.2).sum +
    ((spentCoins c).map (prevoutTotals F)).sum

/-- Settling can wait. -/
theorem settle_settle_add (s d : Totals) : (s.settle + d).settle = (s + d).settle := by
  rw [settle_eq (s.settle + d), unclaimed_add, unclaimed_settle, zero_add, settle_eq s,
    settle_eq (s + d), unclaimed_add, Pi.single_add, Pi.single_add]
  abel

/-- The unclaimed rewards can be settled once for the whole branch. -/
theorem tally_eq_settle (hc : Unspent T c m) : tally F P c = (baseTotals F P c).settle := by
  induction hc with
  | genesis g => simp [tally, baseTotals, outputs, spentCoins]
  | @block b c m m' hc hb ht ih =>
    obtain ⟨parent, c, rfl⟩ := hc.exists_cons
    have hstep : tally F P (b :: parent :: c) = Totals.settle (tally F P (parent :: c) +
        (Pi.single .totalSubsidy (getBlockSubsidy (c.length + 1) P) + blockTotals F b)) := by
      rw [tally, add_assoc]; rfl
    rw [hstep, ih, settle_settle_add, blockTotals_eq hb ht]
    congr 1
    simp only [baseTotals, outputs, spentCoins, map_append, sum_append, length_cons,
      range_succ, map_singleton, sum_singleton, Pi.single_add]
    abel

theorem outputValue_eq (c : Branch) (q : Transaction → TxOut → Bool) :
    outputValue c q = ((outputs c).map fun x => if q x.1 x.2 then x.2.nValue else 0).sum := by
  simp [outputValue, sum_map_ite]

/-- A sum over the coins created is one over the spendable outputs. -/
theorem sum_createdCoins (g : TxOut → ℤ) (c : Branch) :
    ((createdCoins T c).map fun x => g x.2.out).sum =
      ((outputs c).map fun x => if T.isUnspendable x.2.scriptPubKey then 0 else g x.2).sum := by
  have htx h tx : ((createdList T h tx).map fun x => g x.2.out).sum =
      (tx.vout.map fun out => if T.isUnspendable out.scriptPubKey then 0 else g out).sum := by
    rw [createdList, ← map_zipIdx_fst _ tx.vout]
    induction tx.vout.zipIdx with
    | nil => rfl
    | cons x l ih =>
      cases hu : T.isUnspendable x.1.scriptPubKey <;> simp [createdEntry, createdCoin, hu, ih]
  induction c with
  | nil => rfl
  | cons b c ih =>
    cases c with
    | nil => rfl
    | cons parent c =>
      simp only [createdCoins, outputs, map_append, sum_append, ih, sum_map_flatMap, htx, map_map]
      rfl

theorem sum_removedCoins (hc : Unspent T c m) (g : TxOut → ℤ) :
    ((removedCoins c).map fun x => g x.2.out).sum =
    ((spentCoins c).map fun coin => g coin.out).sum := by
  induction hc with
  | genesis g => rfl
  | @block b c m m' hc hb ht ih =>
    obtain ⟨parent, c, rfl⟩ := hc.exists_cons
    have hspent : ∀ x ∈ b.txs, ((spentList x).map fun y => g y.2.out).sum =
        (x.2.map fun coin => g coin.out).sum := by
      intro x hx
      conv_rhs => rw [← map_snd_zip_of_trace ht x hx]
      simp [spentList, Function.comp_def]
    simp only [removedCoins, spentCoins, map_append, sum_append, ih, ← hb.flatMap_snd_txs,
      sum_map_flatMap]
    rw [map_congr_left hspent]

theorem Unspent.sum_out (hc : Unspent T c m) (g : TxOut → ℤ) :
    ∑ᶠ x ∈ coins m, g x.2.out =
      ((outputs c).map fun x => if T.isUnspendable x.2.scriptPubKey then 0 else g x.2).sum -
        ((spentCoins c).map fun coin => g coin.out).sum := by
  rw [hc.sum_coins, sum_createdCoins, sum_removedCoins hc]

theorem base_apply (c : Branch) (s : Stat) : baseTotals F P c s =
    (Pi.single Stat.totalSubsidy ((List.range c.length).map fun h => getBlockSubsidy h P).sum :
      Totals) s + (Pi.single Stat.totalUnspendableAmount (getBlockSubsidy 0 P) : Totals) s +
      (Pi.single Stat.totalUnspendablesGenesisBlock (getBlockSubsidy 0 P) : Totals) s +
      ((outputs c).map fun x => outputTotals F x.1 x.2 s).sum +
      ((spentCoins c).map fun coin => prevoutTotals F coin s).sum := by
  simp [baseTotals, Pi.list_sum_apply, Function.comp_def, add_assoc]

theorem outputTotals_apply (tx : Transaction) (out : TxOut) (s : Stat) :
    outputTotals F tx out s = match s with
      | .transactionOutputCount => if F.isUnspendable out.scriptPubKey then 0 else 1
      | .bogoSize => if F.isUnspendable out.scriptPubKey then 0 else F.getBogoSize out.scriptPubKey
      | .totalAmount => if F.isUnspendable out.scriptPubKey then 0 else out.nValue
      | .totalUnspendableAmount => if F.isUnspendable out.scriptPubKey then out.nValue else 0
      | .totalUnspendablesScripts => if F.isUnspendable out.scriptPubKey then out.nValue else 0
      | .totalNewOutputsExCoinbaseAmount =>
        if !F.isUnspendable out.scriptPubKey && !F.isCoinBase tx then out.nValue else 0
      | .totalCoinbaseAmount =>
        if !F.isUnspendable out.scriptPubKey && F.isCoinBase tx then out.nValue else 0
      | _ => 0 := by
  unfold outputTotals
  cases F.isUnspendable out.scriptPubKey <;> cases F.isCoinBase tx <;> cases s <;> simp

theorem prevoutTotals_apply (coin : Coin) (s : Stat) :
    prevoutTotals F coin s = match s with
      | .transactionOutputCount => -1
      | .bogoSize => -F.getBogoSize coin.out.scriptPubKey
      | .totalAmount => -coin.out.nValue
      | .totalPrevoutSpentAmount => coin.out.nValue
      | _ => 0 := by
  unfold prevoutTotals
  cases s <;> simp

theorem sum_getBlockSubsidy_range {n : ℕ} (hn : 0 < n) :
    ((List.range n).map fun h => getBlockSubsidy h P).sum =
      getBlockSubsidy 0 P + ((List.range' 1 (n - 1)).map fun h => getBlockSubsidy h P).sum := by
  obtain ⟨-, rfl⟩ := Nat.exists_eq_succ_of_ne_zero hn.ne'
  rw [range_eq_range', range'_succ]
  simp

/-- The outputs of a branch are unspendable, or created by a coinbase, or by another transaction. -/
theorem outputValue_true (c : Branch) : outputValue c (fun _ _ => true) =
    outputValue c (fun _ out => F.isUnspendable out.scriptPubKey) +
      outputValue c (fun tx out => !F.isUnspendable out.scriptPubKey && F.isCoinBase tx) +
      outputValue c fun tx out => !F.isUnspendable out.scriptPubKey && !F.isCoinBase tx := by
  simp only [outputValue_eq, ← sum_map_add]
  refine congrArg sum (map_congr_left fun x _ => ?_)
  cases F.isUnspendable x.2.scriptPubKey <;> cases F.isCoinBase x.1 <;> simp

/-- What is settled are the rewards that the blocks did not pay out. -/
theorem unclaimed_baseTotals (hc : c ≠ []) : (baseTotals F P c).unclaimed = unclaimedValue P c := by
  have hlen : 0 < c.length := length_pos_iff.2 hc
  simp only [Totals.unclaimed, base_apply, outputTotals_apply, prevoutTotals_apply, unclaimedValue,
    sum_getBlockSubsidy_range hlen, spentValue, @outputValue_true p F, outputValue_eq]
  simp
  ring

/-- **The totals of a valid branch** are the counts and sums over the coins it leaves and over the
outputs and coins that went through it. -/
theorem tally_eq_directTotals (hc : Unspent F.toTxFns c m) :
    tally F P c = directTotals F P c m := by
  have hne : c ≠ [] := by
    obtain ⟨-, -, rfl⟩ := hc.exists_cons
    simp
  rw [tally_eq_settle hc, settle_eq, unclaimed_baseTotals hne]
  funext s
  simp only [Pi.add_apply, base_apply, outputTotals_apply, prevoutTotals_apply]
  have hneg (g : TxOut → ℤ) : ((spentCoins c).map fun coin => -g coin.out).sum =
      -((spentCoins c).map fun coin => g coin.out).sum := by
    induction spentCoins c with
    | nil => rfl
    | cons coin l ih => simp only [map_cons, sum_cons, ih]; ring
  cases s with
  | transactionOutputCount =>
    simp_all [directTotals, hc.sum_out fun _ => 1, sub_eq_add_neg]
  | bogoSize =>
    simp [directTotals, hc.sum_out fun out => F.getBogoSize out.scriptPubKey, sub_eq_add_neg,
      hneg fun out => F.getBogoSize out.scriptPubKey]
  | totalAmount =>
    simp [directTotals, hc.sum_out fun out => out.nValue, sub_eq_add_neg,
      hneg fun out => out.nValue]
  | totalSubsidy | totalPrevoutSpentAmount | totalNewOutputsExCoinbaseAmount | totalCoinbaseAmount
  | totalUnspendablesGenesisBlock | totalUnspendablesBip30 | totalUnspendablesScripts
  | totalUnspendablesUnclaimedRewards | totalUnspendableAmount =>
    simp [directTotals, outputValue_eq, spentValue]

/-- No coin created on the branch has the number zero. -/
def NonZero (F : StatsFns p) (c : Branch) : Prop :=
  ∀ x ∈ createdCoins F.toTxFns c, F.toNum3072 x.1 x.2 ≠ 0

theorem Unspent.mem_createdCoins (hc : Unspent T c m)
    {x : OutPoint × Coin} (hx : x ∈ removedCoins c) : x ∈ createdCoins T c := by
  obtain ⟨U, -, hsum⟩ := hc.exists_coins
  rw [← Multiset.mem_coe, ← hsum, Multiset.mem_add]
  exact Or.inr (Multiset.mem_coe.2 hx)

theorem NonZero.tail (h : NonZero F (b :: c)) : NonZero F c := by
  intro x hx
  cases c with
  | nil => cases hx
  | cons parent c => exact h x (by simp only [createdCoins]; exact mem_append_right _ hx)

section Prime

variable [Fact p.Prime]

theorem product_ne_zero {l : List (OutPoint × Coin)} (h : ∀ x ∈ l, F.toNum3072 x.1 x.2 ≠ 0) :
    product F l ≠ 0 := by
  refine prod_ne_zero fun hmem => ?_
  obtain ⟨x, hx, h0⟩ := mem_map.1 hmem
  exact h x hx h0

theorem divide_mul {a b : ZMod p} (hb : b ≠ 0) : divide a b * b = a := by
  have hp : p - 2 + 1 = p - 1 := by
    have := (Fact.out : p.Prime).two_le
    omega
  rw [divide, getInverse, mul_assoc, ← pow_succ, hp, ZMod.pow_card_sub_one_eq_one hb, mul_one]

theorem divide_eq_of_mul_eq {a b c : ZMod p} (hb : b ≠ 0) (h : c * b = a) : divide a b = c :=
  mul_right_cancel₀ hb ((divide_mul hb).trans h.symm)

variable {parent : StoredBlock}

theorem NonZero.blockCreated_ne_zero (h : NonZero F (b :: parent :: c)) :
    blockCreated F (c.length + 1) b ≠ 0 :=
  product_ne_zero fun x hx => h x (by simp only [createdCoins]; exact mem_append_left _ hx)

theorem NonZero.blockSpent_ne_zero (h : NonZero F (b :: parent :: c))
    (hc : Unspent F.toTxFns (b :: parent :: c) m) : blockSpent F b ≠ 0 :=
  product_ne_zero fun x hx => h x <| hc.mem_createdCoins <| by
    simp only [removedCoins]; exact mem_append_left _ hx

/-- **The number behind the hash of a valid branch** is the product over the coins it leaves. -/
theorem muOf_eq {c : Branch} {m : CoinMap} (hc : Unspent F.toTxFns c m) (hn : NonZero F c) :
    muOf F c = ∏ᶠ x ∈ coins m, F.toNum3072 x.1 x.2 := by
  have hmul : muOf F c * product F (removedCoins c) = product F (createdCoins F.toTxFns c) := by
    induction hc with
    | genesis g => simp [muOf, removedCoins, createdCoins]
    | @block b c m m' hc hb ht ih =>
      obtain ⟨parent, c, rfl⟩ := hc.exists_cons
      have hspent := hn.blockSpent_ne_zero (hc.block hb ht)
      have hcreated : product F (createdCoins F.toTxFns (b :: parent :: c)) =
          blockCreated F (c.length + 1) b * product F (createdCoins F.toTxFns (parent :: c)) :=
        product_append _ _
      have hremoved : product F (removedCoins (b :: parent :: c)) =
          blockSpent F b * product F (removedCoins (parent :: c)) := product_append _ _
      rw [hcreated, hremoved, ← ih hn.tail, muOf, ← mul_assoc, divide_mul hspent]
      ring
  have hne : product F (removedCoins c) ≠ 0 :=
    product_ne_zero fun x hx => hn x (hc.mem_createdCoins hx)
  exact mul_right_cancel₀ hne (hmul.trans (hc.prod_coins fun x => F.toNum3072 x.1 x.2).symm)

end Prime

end KPCoin.CoinStats
