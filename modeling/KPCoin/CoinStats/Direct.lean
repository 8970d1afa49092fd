import KPCoin.CoinStats.Index
import KPCoin.Validation.Ledger

/-!
# The statistics of a branch

What the index is for: the statistics of a block are those of the coins that its branch leaves
unspent, and of the outputs and coins that went through its blocks.

* `Unspent T c m` : the branch `c` consists of valid blocks and leaves the coins `m`;
* `directTotals` and `directHash` are the statistics computed from the branch and its coins;
* `Unspent.exists_coins` : the coins left, together with all coins spent on the branch, are all
  coins created on it.  Every count, sum and product over the coins left follows from this.
-/

namespace KPCoin.CoinStats

open List Option Coins Ledger Validation

/-- The transactions of a block, each with the coins it spends. -/
def StoredBlock.txs (b : StoredBlock) : List (Transaction × List Coin) :=
  b.vtx.zip ([] :: b.vtxundo)

/-- A coinbase comes first, and each of the other transactions has undo data. -/
def StoredBlock.WellFormed (T : TxFns) (b : StoredBlock) : Prop :=
  ∃ coinbase rest, b.vtx = coinbase :: rest ∧ T.isCoinBase coinbase = true ∧
    (∀ tx ∈ rest, T.isCoinBase tx = false) ∧ b.vtxundo.length = rest.length

/-- The branch consists of valid blocks, and leaves the coins `m`.  The coins of the genesis block
cannot be spent. -/
inductive Unspent (T : TxFns) : Branch → CoinMap → Prop
  | genesis (g : StoredBlock) : Unspent T [g] fun _ => none
  | block {b : StoredBlock} {c : Branch} {m m' : CoinMap} : Unspent T c m → b.WellFormed T →
      Trace T c.length m b.txs m' → Unspent T (b :: c) m'

section Direct

variable {p : ℕ} (F : StatsFns p) (P : Params)

/-- The outputs of the blocks after the genesis block, with their transactions. -/
def outputs : Branch → List (Transaction × TxOut)
  | b :: parent :: c => b.vtx.flatMap (fun tx => tx.vout.map fun out => (tx, out)) ++
      outputs (parent :: c)
  | _ => []

/-- The coins spent by the blocks after the genesis block. -/
def spentCoins : Branch → List Coin
  | b :: parent :: c => b.vtxundo.flatten ++ spentCoins (parent :: c)
  | _ => []

/-- The coins of a map. -/
def coins (m : CoinMap) : Set (OutPoint × Coin) := { x | m x.1 = some x.2 }

/-- The value of the outputs for which `q` holds. -/
def outputValue (c : Branch) (q : Transaction → TxOut → Bool) : ℤ :=
  (((outputs c).filter fun x => q x.1 x.2).map fun x => x.2.nValue).sum

/-- The value of the coins spent. -/
def spentValue (c : Branch) : ℤ := ((spentCoins c).map fun coin => coin.out.nValue).sum

/-- What the blocks after the genesis block could have paid out and did not. -/
def unclaimedValue (c : Branch) : ℤ :=
  ((List.range' 1 (c.length - 1)).map fun h => getBlockSubsidy h P).sum + spentValue c -
    outputValue c fun _ _ => true

/-- The counters of a branch that leaves the coins `m`. -/
noncomputable def directTotals (c : Branch) (m : CoinMap) : Totals
  | .transactionOutputCount => ∑ᶠ _x ∈ coins m, 1
  | .bogoSize => ∑ᶠ x ∈ coins m, F.getBogoSize x.2.out.scriptPubKey
  | .totalAmount => ∑ᶠ x ∈ coins m, x.2.out.nValue
  | .totalSubsidy => ((List.range c.length).map fun h => getBlockSubsidy h P).sum
  | .totalUnspendableAmount => getBlockSubsidy 0 P +
      outputValue c (fun _ out => F.isUnspendable out.scriptPubKey) + unclaimedValue P c
  | .totalPrevoutSpentAmount => spentValue c
  | .totalNewOutputsExCoinbaseAmount =>
      outputValue c fun tx out => !F.isUnspendable out.scriptPubKey && !F.isCoinBase tx
  | .totalCoinbaseAmount =>
      outputValue c fun tx out => !F.isUnspendable out.scriptPubKey && F.isCoinBase tx
  | .totalUnspendablesGenesisBlock => getBlockSubsidy 0 P
  | .totalUnspendablesBip30 => 0
  | .totalUnspendablesScripts => outputValue c fun _ out => F.isUnspendable out.scriptPubKey
  | .totalUnspendablesUnclaimedRewards => unclaimedValue P c

/-- The hash of the coins `m`. -/
noncomputable def directHash (m : CoinMap) : Uint256 :=
  F.getSHA256 (∏ᶠ x ∈ coins m, F.toNum3072 x.1 x.2)

end Direct

/-- The coin created by one output, at its outpoint. -/
def createdEntry (T : TxFns) (h : ℕ) (tx : Transaction) (x : TxOut × ℕ) :
    Option (OutPoint × Coin) :=
  (createdCoin T h tx x.1).map fun coin => (⟨T.getHash tx, x.2⟩, coin)

/-- The coins a transaction creates. -/
def createdList (T : TxFns) (h : ℕ) (tx : Transaction) : List (OutPoint × Coin) :=
  tx.vout.zipIdx.filterMap (createdEntry T h tx)

/-- The coins a transaction spends. -/
def spentList (x : Transaction × List Coin) : List (OutPoint × Coin) :=
  (x.1.vin.zip x.2).map fun y => (y.1.prevout, y.2)

/-- The coins that the blocks after the genesis block create. -/
def createdCoins (T : TxFns) : Branch → List (OutPoint × Coin)
  | b :: parent :: c => b.vtx.flatMap (createdList T (c.length + 1)) ++ createdCoins T (parent :: c)
  | _ => []

/-- The coins that the blocks after the genesis block spend. -/
def removedCoins : Branch → List (OutPoint × Coin)
  | b :: parent :: c => b.txs.flatMap spentList ++ removedCoins (parent :: c)
  | _ => []

variable {T : TxFns} {h : ℕ} {m m' : CoinMap} {tx : Transaction} {undo : List Coin} {o : OutPoint}
  {coin : Coin}

theorem mem_createdList : (o, coin) ∈ createdList T h tx ↔ created T h tx o = some coin := by
  obtain ⟨-, n⟩ := o
  simp only [createdList, createdEntry, mem_filterMap, map_eq_some_iff, Prod.mk.injEq, Prod.exists,
    mem_zipIdx_iff_getElem?, OutPoint.mk.injEq, created]
  constructor
  · rintro ⟨out, i, hout, c, hc, ⟨rfl, rfl⟩, rfl⟩
    simpa [hout] using hc
  · intro hc
    split_ifs at hc with hh
    obtain ⟨out, hout, hc⟩ := bind_eq_some_iff.1 hc
    exact ⟨out, n, hout, coin, hc, ⟨hh.symm, rfl⟩, rfl⟩

theorem nodup_createdList : (createdList T h tx).Nodup := by
  have hidx : tx.vout.zipIdx.Nodup := by
    refine List.Nodup.of_map Prod.snd ?_
    rw [zipIdx_map_snd]
    exact nodup_range'
  refine List.Nodup.filterMap ?_ hidx
  rintro ⟨out, i⟩ ⟨out', i'⟩ y hy hy'
  simp only [mem_def, createdEntry, map_eq_some_iff, createdCoin] at hy hy'
  obtain ⟨coin, hcoin, rfl⟩ := hy
  obtain ⟨coin', hcoin', hy'⟩ := hy'
  split_ifs at hcoin hcoin'
  cases hcoin
  cases hcoin'
  simp only [Prod.mk.injEq, OutPoint.mk.injEq, Coin.mk.injEq, true_and, and_true] at hy'
  rw [hy'.1, hy'.2]

section

variable (ha : Applied T h m tx undo m')
include ha

theorem spentList_eq : spentList (tx, undo) = (inputs T tx).zip undo := by
  unfold inputs
  split_ifs with hcb
  · have hnil : undo = [] := by simpa [inputs, hcb] using ha.undo_eq.symm
    simp [spentList, hnil]
  · simp [spentList, zip_map_left]

theorem mem_spentList : (o, coin) ∈ spentList (tx, undo) ↔ o ∈ inputs T tx ∧ m o = some coin := by
  rw [spentList_eq ha]
  have hget (i : ℕ) : (inputs T tx)[i]?.map m = undo[i]?.map some := by
    rw [← getElem?_map, ← getElem?_map, ha.undo_eq]
  constructor
  · intro hmem
    obtain ⟨i, hi⟩ := getElem?_of_mem hmem
    obtain ⟨ho, hc⟩ := getElem?_zip_eq_some.1 hi
    have := hget i
    rw [ho, hc] at this
    exact ⟨mem_of_getElem? ho, some.inj this⟩
  · rintro ⟨ho, hc⟩
    obtain ⟨i, hi⟩ := getElem?_of_mem ho
    have := hget i
    rw [hi, map_some, hc] at this
    obtain ⟨coin', hcoin', heq⟩ := map_eq_some_iff.1 this.symm
    cases heq
    exact mem_of_getElem? (getElem?_zip_eq_some.2 ⟨hi, hcoin'⟩)

theorem nodup_spentList : (spentList (tx, undo)).Nodup := by
  rw [spentList_eq ha]
  refine List.Nodup.of_map Prod.fst ?_
  have hlen : (inputs T tx).length ≤ undo.length := by
    simpa using (congrArg length ha.undo_eq).le
  rw [map_fst_zip hlen]
  exact ha.inputs_nodup

end

/-- The coins of a map, as a finite set. -/
def IsCoins (m : CoinMap) (U : Finset (OutPoint × Coin)) : Prop :=
  ∀ o coin, (o, coin) ∈ U ↔ m o = some coin

variable {U : Finset (OutPoint × Coin)} {c : Branch}

theorem IsCoins.coe (hU : IsCoins m U) : coins m = ↑U := by
  ext ⟨o, coin⟩
  exact (hU o coin).symm

/-- One transaction: the coins left and those it spent are the coins before and those it created. -/
theorem exists_coins_of_applied (ha : Applied T h m tx undo m')
    (hU : IsCoins m U) : ∃ U', IsCoins m' U' ∧
      U'.val + (spentList (tx, undo) : Multiset _) = U.val + (createdList T h tx : Multiset _) := by
  -- what stays of the coins before
  let K := U.filter fun x => x.1 ∉ inputs T tx
  have hK o coin : (o, coin) ∈ K ↔ without m (inputs T tx) o = some coin := by
    by_cases ho : o ∈ inputs T tx <;> simp [K, without, ho, hU o coin]
  have hdisj : Disjoint (createdList T h tx).toFinset K := by
    rw [Finset.disjoint_left]
    rintro ⟨o, coin⟩ hc hk
    have hcr := mem_createdList.1 (mem_toFinset.1 hc)
    have := ha.fresh o (by rw [hcr]; simp)
    rw [(hK o coin).1 hk] at this
    cases this
  have hspent : U.filter (fun x => ¬ x.1 ∉ inputs T tx) = (spentList (tx, undo)).toFinset := by
    ext ⟨o, coin⟩
    simp [mem_spentList ha, hU o coin, and_comm]
  refine ⟨(createdList T h tx).toFinset ∪ K, fun o coin => ?_, ?_⟩
  · rw [Finset.mem_union, List.mem_toFinset, mem_createdList, hK, ha.result, or_eq_some_iff]
    constructor
    · rintro (hc | hk)
      · exact Or.inl hc
      · by_cases hc : created T h tx o = none
        · exact Or.inr ⟨hc, hk⟩
        · rw [ha.fresh o hc] at hk; cases hk
    · rintro (hc | ⟨-, hk⟩)
      · exact Or.inl hc
      · exact Or.inr hk
  · have h1 : ((createdList T h tx).toFinset ∪ K).val = (createdList T h tx) + K.val := by
      rw [← Finset.disjUnion_eq_union _ _ hdisj, Finset.disjUnion_val, toFinset_val,
        nodup_createdList.dedup]
    have h2 : K.val + (spentList (tx, undo) : Multiset _) = U.val := by
      have hval : (U.filter (fun x => ¬ x.1 ∉ inputs T tx)).val =
          (spentList (tx, undo) : Multiset _) := by
        rw [hspent, toFinset_val, (nodup_spentList ha).dedup]
      rw [← hval]
      exact Multiset.filter_add_not _ U.val
    rw [h1, add_assoc, h2, add_comm]

theorem exists_coins_of_trace {l : List (Transaction × List Coin)} (ht : Trace T h m l m')
    (hU : IsCoins m U) : ∃ U', IsCoins m' U' ∧ U'.val + (l.flatMap spentList : Multiset _) =
        U.val + ((l.map Prod.fst).flatMap (createdList T h) : Multiset _) := by
  induction ht with
  | start => exact ⟨U, hU, by simp⟩
  | @snoc l m1 m2 tx undo _ ha ih =>
    obtain ⟨U1, hU1, h1⟩ := ih
    obtain ⟨U2, hU2, h2⟩ := exists_coins_of_applied ha hU1
    refine ⟨U2, hU2, ?_⟩
    simp only [flatMap_append, map_append, map_singleton, flatMap_singleton, ← Multiset.coe_add]
    calc U2.val + ((l.flatMap spentList : Multiset _) + (spentList (tx, undo) : Multiset _))
        = U2.val + (spentList (tx, undo) : Multiset _) +
          (l.flatMap spentList : Multiset _) := by abel
      _ = U1.val + (l.flatMap spentList : Multiset _) + (createdList T h tx : Multiset _) := by
        rw [h2]; abel
      _ = _ := by rw [h1, add_assoc]

theorem StoredBlock.WellFormed.map_fst_txs {b : StoredBlock} (hb : b.WellFormed T) :
    b.txs.map Prod.fst = b.vtx := by
  obtain ⟨coinbase, rest, hvtx, -, -, hlen⟩ := hb
  exact map_fst_zip (by simp [hvtx, hlen])

theorem Unspent.exists_cons (hc : Unspent T c m) : ∃ b c', c = b :: c' := by
  cases hc <;> exact ⟨_, _, rfl⟩

theorem Unspent.exists_coins (hc : Unspent T c m) : ∃ U, IsCoins m U ∧
    U.val + (removedCoins c : Multiset _) = (createdCoins T c : Multiset _) := by
  induction hc with
  | genesis g => exact ⟨∅, by simp [IsCoins], rfl⟩
  | @block b c m m' hc hwf ht ih =>
    obtain ⟨U, hU, hsum⟩ := ih
    obtain ⟨U', hU', hsum'⟩ := exists_coins_of_trace ht hU
    obtain ⟨parent, c, rfl⟩ := hc.exists_cons
    refine ⟨U', hU', ?_⟩
    rw [hwf.map_fst_txs] at hsum'
    simp only [removedCoins, createdCoins, ← Multiset.coe_add]
    rw [← add_assoc, hsum', ← hsum, add_comm]
    abel

theorem Unspent.sum_coins (hc : Unspent T c m) (f : OutPoint × Coin → ℤ) :
    ∑ᶠ x ∈ coins m, f x = ((createdCoins T c).map f).sum - ((removedCoins c).map f).sum := by
  obtain ⟨U, hU, hsum⟩ := hc.exists_coins
  have := congrArg (fun s => (s.map f).sum) hsum
  simp only [Multiset.map_add, Multiset.sum_add] at this
  rw [hU.coe, finsum_mem_coe_finset, eq_sub_iff_add_eq]
  exact this

theorem Unspent.prod_coins {A : Type*} [CommMonoid A] (hc : Unspent T c m)
    (f : OutPoint × Coin → A) :
    (∏ᶠ x ∈ coins m, f x) * ((removedCoins c).map f).prod = ((createdCoins T c).map f).prod := by
  obtain ⟨U, hU, hsum⟩ := hc.exists_coins
  have := congrArg (fun s => (s.map f).prod) hsum
  simp only [Multiset.map_add, Multiset.prod_add] at this
  rw [hU.coe, finprod_mem_coe_finset]
  exact this

end KPCoin.CoinStats
