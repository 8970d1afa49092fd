import KPCoin.Coins.Cache
import KPCoin.Compressor.TxOut

/-!
# Undo records

`TxInUndoFormatter`, `CTxUndo` and `CBlockUndo` (`undo.h`).  For every input of a block the record
has the coin it spent: height and kind in one code, a zero where older versions had the version of
the transaction, present only above height zero, and the output in compressed form.

`reads_blockUndo` is the round trip.  It asks of the vectors that they have at most `MAX_SIZE`
entries: `ReadCompactSize` refuses a larger count (`blockUndo_needs_size`).
-/

namespace KPCoin.Compressor

open List

open Coins (Coin)
open Reader Serialize

/-- `CTxUndo`. -/
structure TxUndo where
  vprevout : List Coin
  deriving DecidableEq, Repr

/-- `CBlockUndo`. -/
structure BlockUndo where
  vtxundo : List TxUndo
  deriving DecidableEq, Repr

variable (K : ScriptConstants) (E : Secp256k1)

/-- The code of a height and a kind. -/
def heightCode (nHeight : ℕ) (fCoinBase : Bool) : Unsigned 4 :=
  BitVec.ofNat 32 (nHeight * 2 + fCoinBase.toNat)

/-- `TxInUndoFormatter::Ser`. -/
def serTxInUndo (txout : Coin) : List UInt8 :=
  varInt 4 (heightCode txout.nHeight txout.fCoinBase) ++
    ((if txout.nHeight > 0 then [0] else []) ++ serTxOut K E txout.out)

/-- The version that is skipped, above height zero. -/
def skipVersion (nHeight : ℕ) : Reader UInt8 Unit :=
  if nHeight > 0 then do
    let _nVersionDummy : Unsigned 4 ← readVarInt
    return ()
  else return ()

/-- `TxInUndoFormatter::Unser`, into `txout`. -/
def unserTxInUndo (txout : Coin) : Reader UInt8 Coin := do
  let nCode : Unsigned 4 ← readVarInt
  let nHeight := (nCode >>> 1).toNat
  skipVersion nHeight
  let out ← unserTxOut K E txout.out
  return { out, fCoinBase := nCode &&& 1 != 0, nHeight }

/-- A `CTxUndo` is its vector. -/
def serTxUndo (undo : TxUndo) : List UInt8 := writeVector (serTxInUndo K E) undo.vprevout

def unserTxUndo : Reader UInt8 TxUndo := do
  return { vprevout := ← readVector (unserTxInUndo K E {}) }

/-- A `CBlockUndo` is its vector. -/
def serBlockUndo (undo : BlockUndo) : List UInt8 := writeVector (serTxUndo K E) undo.vtxundo

def unserBlockUndo : Reader UInt8 BlockUndo := do
  return { vtxundo := ← readVector (unserTxUndo K E) }

/-- The coins that undo records are made of. -/
structure Storable (txout : Coin) : Prop where
  unspent : txout.isSpent = false
  height : txout.nHeight < 2 ^ 31
  value : moneyRange txout.out.nValue = true
  script : txout.out.scriptPubKey.length ≤ K.maxScriptSize

variable {K E} {fCoinBase : Bool} {nHeight : ℕ}

theorem reads_skipVersion (nHeight : ℕ) :
    Reads (skipVersion nHeight) (if nHeight > 0 then [0] else []) () := by
  unfold skipVersion
  split_ifs
  · -- the zero byte is the code of the number zero
    have hzero : varInt 4 0 = [0] := by rw [varInt_eq]; exact varIntBytes_of_lt (by decide)
    rw [← hzero]
    exact (reads_varInt 4 0).map fun _ => ()
  · exact reads_pure ()

theorem toNat_heightCode (h : nHeight < 2 ^ 31) :
    (heightCode nHeight fCoinBase).toNat = nHeight * 2 + fCoinBase.toNat := by
  have hbit := fCoinBase.toNat_le
  exact Nat.mod_eq_of_lt (show nHeight * 2 + fCoinBase.toNat < 2 ^ 32 by omega)

theorem heightCode_shift (h : nHeight < 2 ^ 31) :
    (heightCode nHeight fCoinBase >>> 1).toNat = nHeight := by
  have hbit := fCoinBase.toNat_le
  rw [BitVec.toNat_ushiftRight, toNat_heightCode h]
  omega

theorem heightCode_bit (h : nHeight < 2 ^ 31) :
    (heightCode nHeight fCoinBase &&& 1 != 0) = fCoinBase := by
  have hbit : (heightCode nHeight fCoinBase &&& 1).toNat = fCoinBase.toNat := by
    rw [BitVec.toNat_and, toNat_heightCode h]
    cases fCoinBase <;> simp
  have hiff : heightCode nHeight fCoinBase &&& 1 = 0 ↔ fCoinBase = false := by
    rw [← BitVec.toNat_inj, hbit]
    cases fCoinBase <;> decide
  cases fCoinBase with
  | false => rw [hiff.2 rfl]; rfl
  | true => exact bne_iff_ne.2 fun h => Bool.noConfusion (hiff.1 h)

/-- **A coin is read back**, whatever its height. -/
theorem reads_txInUndo (hE : DecompressUnique E) {txout : Coin} (h : Storable K txout)
    (txout0 : Coin) : Reads (unserTxInUndo K E txout0) (serTxInUndo K E txout) txout := by
  have hout := (reads_txOut hE h.value h.script txout0.out).map fun out =>
    ({ out, fCoinBase := txout.fCoinBase, nHeight := txout.nHeight } : Coin)
  refine (reads_varInt 4 (heightCode txout.nHeight txout.fCoinBase)).bind ?_
  simp only [heightCode_shift h.height, heightCode_bit h.height]
  exact (reads_skipVersion txout.nHeight).bind hout

/-- **Undo records are read back**: heights, kinds, outputs and nesting. -/
theorem reads_blockUndo (K : ScriptConstants) (E : Secp256k1) (hE : DecompressUnique E)
    (undo : BlockUndo)
    (hcoins : ∀ txundo ∈ undo.vtxundo, ∀ txout ∈ txundo.vprevout, Storable K txout)
    (hsize : undo.vtxundo.length ≤ maxSize ∧
      ∀ txundo ∈ undo.vtxundo, txundo.vprevout.length ≤ maxSize) :
    ∀ rest, (unserBlockUndo K E).run (serBlockUndo K E undo ++ rest) = some (undo, rest) := by
  have htx : ∀ txundo ∈ undo.vtxundo, Reads (unserTxUndo K E) (serTxUndo K E txundo) txundo := by
    intro txundo hmem
    have hvector := reads_vector (hsize.2 txundo hmem) fun txout htxout =>
      reads_txInUndo hE (hcoins txundo hmem txout htxout) {}
    exact hvector.map TxUndo.mk
  exact (reads_vector hsize.1 htx).map BlockUndo.mk

/-- A coin of one unit, from the first block. -/
def unitCoin : Coin :=
  { out := { nValue := 1, scriptPubKey := [0x51] }, fCoinBase := true, nHeight := 1 }

theorem storable_unitCoin (hscript : 1 ≤ K.maxScriptSize) : Storable K unitCoin :=
  ⟨rfl, by decide, by decide, hscript⟩

theorem reads_blockUndo_twoCoins :
    ∃ (K : ScriptConstants) (undo : BlockUndo), undo.vtxundo.length = 2 ∧
      (unserBlockUndo K generatorCurve).run (serBlockUndo K generatorCurve undo ++ []) =
        some (undo, []) := by
  let K : ScriptConstants := ⟨0x76, 0xa9, 0x87, 0x88, 0xac, 0x6a, 10000, by decide⟩
  have hcoin : Storable K unitCoin := storable_unitCoin (by decide)
  refine ⟨K, ⟨[⟨[unitCoin, { unitCoin with nHeight := 0 }]⟩, ⟨[]⟩]⟩, rfl, ?_⟩
  refine reads_blockUndo K generatorCurve decompressUnique_generatorCurve _ ?_ (by decide) []
  intro txundo htx txout htxout
  simp only [mem_cons, not_mem_nil, or_false] at htx
  rcases htx with rfl | rfl
  · simp only [mem_cons, not_mem_nil, or_false] at htxout
    rcases htxout with rfl | rfl
    · exact hcoin
    · exact ⟨rfl, by decide, by decide, hcoin.script⟩
  · cases htxout

/-- With one entry more than `MAX_SIZE` a record is written that is not read. -/
theorem blockUndo_needs_size :
    ∃ (K : ScriptConstants) (E : Secp256k1) (undo : BlockUndo), DecompressUnique E ∧
      (∀ txundo ∈ undo.vtxundo, ∀ txout ∈ txundo.vprevout, Storable K txout) ∧
      undo.vtxundo.length = maxSize + 1 ∧
      (unserBlockUndo K E).run (serBlockUndo K E undo ++ []) = none := by
  let K : ScriptConstants := ⟨0x76, 0xa9, 0x87, 0x88, 0xac, 0x6a, 10000, by decide⟩
  refine ⟨K, generatorCurve, ⟨replicate (maxSize + 1) ⟨[unitCoin]⟩⟩,
    decompressUnique_generatorCurve, ?_, length_replicate, ?_⟩
  · intro txundo htx txout htxout
    rw [eq_of_mem_replicate htx] at htxout
    rw [mem_singleton.1 htxout]
    exact storable_unitCoin (by decide)
  · have hnone : (readVector (unserTxUndo K generatorCurve)).run
        (writeVector (serTxUndo K generatorCurve) (replicate (maxSize + 1) ⟨[unitCoin]⟩) ++ []) =
          none :=
      run_readVector_of_gt (by rw [length_replicate]; exact Nat.lt_succ_self _)
        (by rw [length_replicate]; decide) []
    rw [unserBlockUndo, StateT.run_bind, serBlockUndo, hnone]
    rfl

end KPCoin.Compressor
