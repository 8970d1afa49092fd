import KPCoin.Coins.Visible
import KPCoin.Consensus.External

/-!
# The ledger

What applying a transaction is for: the coins it spends leave the map of unspent coins and the
coins it creates enter it.  `Applied` says this for one transaction, with the coins spent as undo
data, and `Trace` for the transactions of a block one after another.

No coin is created where one is left, so a transaction can be undone: taking out the coins it
created leaves the map without its inputs (`Applied.without_created`), and putting back the coins
spent gives the map before it (`Applied.restore`).
-/

namespace KPCoin.Ledger

open Coins

/-- The map without the coins at some outpoints. -/
def without (m : CoinMap) (os : List OutPoint) : CoinMap := fun o => if o ∈ os then none else m o

/-- The outpoints a transaction spends. -/
def inputs (T : TxFns) (tx : Transaction) : List OutPoint :=
  if T.isCoinBase tx then [] else tx.vin.map TxIn.prevout

/-- The coin created by one output; the unspendable ones are not kept. -/
def createdCoin (T : TxFns) (h : ℕ) (tx : Transaction) (out : TxOut) : Option Coin :=
  if T.isUnspendable out.scriptPubKey then none
  else some { out, nHeight := h, fCoinBase := T.isCoinBase tx }

/-- The coins a transaction creates at height `h`. -/
def created (T : TxFns) (h : ℕ) (tx : Transaction) : CoinMap := fun o =>
  if o.hash = T.getHash tx then (tx.vout[o.n]?).bind (createdCoin T h tx) else none

/-- The coins created by the first `k` outputs. -/
def createdBelow (T : TxFns) (h : ℕ) (tx : Transaction) (k : ℕ) : CoinMap := fun o =>
  if o.n < k then created T h tx o else none

/-- The transaction takes the map `m` to `m'`, spending the coins `undo`. -/
structure Applied (T : TxFns) (h : ℕ) (m : CoinMap) (tx : Transaction) (undo : List Coin)
    (m' : CoinMap) : Prop where
  inputs_nodup : (inputs T tx).Nodup
  undo_eq : (inputs T tx).map m = undo.map some
  undo_unspent : ∀ coin ∈ undo, coin.isSpent = false
  /-- No coin is created where one is left. -/
  fresh : ∀ o, created T h tx o ≠ none → without m (inputs T tx) o = none
  result : ∀ o, m' o = (created T h tx o).or (without m (inputs T tx) o)

/-- Transactions applied one after another, each with the coins it spent. -/
inductive Trace (T : TxFns) (h : ℕ) (m : CoinMap) :
    List (Transaction × List Coin) → CoinMap → Prop
  | start : Trace T h m [] m
  | snoc {l : List (Transaction × List Coin)} {m₁ m₂ : CoinMap} {tx : Transaction}
      {undo : List Coin} : Trace T h m l m₁ → Applied T h m₁ tx undo m₂ →
      Trace T h m (l ++ [(tx, undo)]) m₂

/-- Every coin of the map is one that blocks after the genesis block can have created. -/
def Stored (T : TxFns) (m : CoinMap) : Prop :=
  ∀ o coin, m o = some coin → 1 ≤ coin.nHeight ∧ T.isUnspendable coin.out.scriptPubKey = false

variable {T : TxFns} {h : ℕ} {m m' : CoinMap} {tx : Transaction} {undo : List Coin}
  {o : OutPoint} {coin : Coin} {os : List OutPoint}

@[simp] theorem without_nil : without m [] = m := by
  funext o
  simp [without]

theorem without_append : without m (os ++ [o]) = Function.update (without m os) o none := by
  funext o'
  by_cases ho : o' = o <;> simp [without, ho]

theorem without_eq_some (hw : without m os o = some coin) : m o = some coin := by
  unfold without at hw
  split_ifs at hw
  exact hw

theorem created_eq_some (hc : created T h tx o = some coin) :
    ∃ out, tx.vout[o.n]? = some out ∧ o = ⟨T.getHash tx, o.n⟩ ∧
      T.isUnspendable out.scriptPubKey = false ∧
      coin = { out, nHeight := h, fCoinBase := T.isCoinBase tx } := by
  unfold created at hc
  split_ifs at hc with ho
  obtain ⟨out, hout, hco⟩ := Option.bind_eq_some_iff.1 hc
  unfold createdCoin at hco
  split_ifs at hco with hu
  exact ⟨out, hout, by rw [← ho], by simpa using hu, (Option.some.inj hco).symm⟩

@[simp] theorem createdBelow_zero : createdBelow T h tx 0 = fun _ => none := by
  funext o
  simp [createdBelow]

theorem createdBelow_self {k : ℕ} : createdBelow T h tx k ⟨T.getHash tx, k⟩ = none :=
  if_neg (lt_irrefl k)

theorem createdBelow_length : createdBelow T h tx tx.vout.length = created T h tx := by
  funext o
  unfold createdBelow
  split_ifs with hlt
  · rfl
  · simp [created, List.getElem?_eq_none (not_lt.1 hlt)]

theorem createdBelow_succ {k : ℕ} {out : TxOut} (hout : tx.vout[k]? = some out) :
    createdBelow T h tx (k + 1) =
      Function.update (createdBelow T h tx k) ⟨T.getHash tx, k⟩ (createdCoin T h tx out) := by
  funext o
  obtain ⟨hash, n⟩ := o
  by_cases ho : hash = T.getHash tx
  · subst ho
    by_cases hn : n = k
    · subst hn; simp [createdBelow, created, hout]
    · have : n < k + 1 ↔ n < k := by omega
      simp [createdBelow, this, hn]
  · simp [createdBelow, created, ho]

namespace Applied

theorem without_created (ha : Applied T h m tx undo m') :
    (fun o => if created T h tx o = none then m' o else none) = without m (inputs T tx) := by
  funext o
  by_cases hc : created T h tx o = none
  · rw [ha.result, hc]; rfl
  · rw [if_neg hc, ha.fresh o hc]

theorem restore : (fun o => if o ∈ inputs T tx then m o else without m (inputs T tx) o) = m := by
  funext o
  by_cases ho : o ∈ inputs T tx <;> simp [without, ho]

variable (ha : Applied T h m tx undo m')
include ha

theorem created_visible (hc : created T h tx o = some coin) : m' o = some coin := by
  rw [ha.result, hc]; rfl

theorem length_undo : undo.length = (inputs T tx).length := by
  have := congrArg List.length ha.undo_eq
  rwa [List.length_map, List.length_map, eq_comm] at this

theorem eq_of_mem_zip (hx : (o, coin) ∈ (inputs T tx).zip undo) : m o = some coin := by
  obtain ⟨i, hi⟩ := List.mem_iff_getElem?.1 hx
  rw [List.getElem?_zip_eq_some] at hi
  have := congrArg (·[i]?) ha.undo_eq
  simpa [hi.1, hi.2] using this

theorem stored (hh : 1 ≤ h) (hm : Stored T m) : Stored T m' := by
  intro o coin ho
  rw [ha.result] at ho
  cases hc : created T h tx o with
  | none =>
    rw [hc] at ho
    exact hm o coin (without_eq_some ho)
  | some coin' =>
    obtain ⟨out, -, -, hu, rfl⟩ := created_eq_some hc
    rw [hc] at ho
    cases ho
    exact ⟨hh, hu⟩

end Applied

theorem Trace.stored {l : List (Transaction × List Coin)} (ht : Trace T h m l m') (hh : 1 ≤ h)
    (hm : Stored T m) : Stored T m' := by
  induction ht with
  | start => exact hm
  | snoc _ ha ih => exact ha.stored hh ih

end KPCoin.Ledger
