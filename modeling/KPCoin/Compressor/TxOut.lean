import KPCoin.Compressor.Amount
import KPCoin.Compressor.Script

/-!
# Compressed outputs

`AmountCompression` and `TxOutCompression` (`compressor.h`).  `compression_lossless` collects what
holds of the two codes, and `reads_txOut` is the round trip of an output.
-/

namespace KPCoin.Compressor

open List

open Reader (Reads)
open Serialize

variable (K : ScriptConstants) (E : Secp256k1)

/-- `AmountCompression::Ser` of a `CAmount`. -/
def serAmount (val : ℤ) : List UInt8 := varInt 8 (compressAmount (BitVec.ofInt 64 val))

/-- `AmountCompression::Unser` into a `CAmount`. -/
def unserAmount : Reader UInt8 ℤ := do
  let v : Unsigned 8 ← readVarInt
  return (decompressAmount v).toInt

/-- `TxOutCompression`, writing. -/
def serTxOut (out : TxOut) : List UInt8 := serAmount out.nValue ++ serScript K E out.scriptPubKey

/-- `TxOutCompression`, reading into `out`. -/
def unserTxOut (out : TxOut) : Reader UInt8 TxOut := do
  let nValue ← unserAmount
  let scriptPubKey ← unserScript K E out.scriptPubKey
  return { nValue, scriptPubKey }

variable {K E}

theorem reads_amount {val : ℤ} (h : moneyRange val = true) :
    Reads unserAmount (serAmount val) val := by
  obtain ⟨hnonneg, hle⟩ := moneyRange_iff.1 h
  have hmax : maxMoney = 121300000000000000 := rfl
  have hnat : (BitVec.ofInt 64 val).toNat = val.toNat := by
    rw [BitVec.toNat_ofInt]
    omega
  have hamount := (computes_roundTrip (n := BitVec.ofInt 64 val) (by omega)).2.2
  have hint : (BitVec.ofInt 64 val).toInt = val := by
    rw [BitVec.toInt_eq_toNat_of_lt (by omega)]
    omega
  have hread := (reads_varInt 8 (compressAmount (BitVec.ofInt 64 val))).map
    fun v => (decompressAmount v).toInt
  rwa [hamount, hint] at hread

/-- **An output is read back.** -/
theorem reads_txOut (hE : DecompressUnique E) {out : TxOut} (hvalue : moneyRange out.nValue = true)
    (hsize : out.scriptPubKey.length ≤ K.maxScriptSize) (out0 : TxOut) :
    Reads (unserTxOut K E out0) (serTxOut K E out) out := by
  refine (reads_amount hvalue).bind ?_
  exact (reads_script hE hsize out0.scriptPubKey).map (TxOut.mk out.nValue)

/-- **Compression is lossless.**  Amounts up to `MAX_MONEY` are restored, without overflow on the
way, so that no two of them have the same code.  A script of at most `MAX_SCRIPT_SIZE` bytes is
restored, and exactly the bytes written for it are consumed. -/
theorem compression_lossless :
    (∀ n : BitVec 64, (n.toNat : ℤ) ≤ maxMoney →
      decompressAmount (compressAmount n) = n ∧
      compressAmountChecked n = some (compressAmount n) ∧
      decompressAmountChecked (compressAmount n) = some n) ∧
    (∀ m n : BitVec 64, (m.toNat : ℤ) ≤ maxMoney → (n.toNat : ℤ) ≤ maxMoney →
      compressAmount m = compressAmount n → m = n) ∧
    (∀ (K : ScriptConstants) (E : Secp256k1), DecompressUnique E → ∀ script : Script,
      script.length ≤ K.maxScriptSize → ∀ rest,
      (unserScript K E []).run (serScript K E script ++ rest) = some (script, rest)) := by
  refine ⟨?_, ?_, ?_⟩
  · intro n hn
    obtain ⟨hcompress, hdecompress, hback⟩ := computes_roundTrip hn
    exact ⟨hback, hcompress, by rw [hdecompress, hback]⟩
  · intro m n hm hn h
    exact compressAmount_inj hm hn h
  · intro K E hE script hsize rest
    exact reads_script hE hsize [] rest

theorem isFullyValid_uncompressed {rest : List UInt8} (h : rest.length = 64) :
    PubKey.isFullyValid E (4 :: rest) = (E.parse (4 :: rest)).isSome := by
  have htake : (4 :: rest).take 65 = 4 :: rest := take_of_length_le (by rw [length_cons]; omega)
  change (true && (E.parse ((4 :: rest).take 65)).isSome) = _
  rw [htake, Bool.true_and]

/-- The generator of the curve, uncompressed. -/
def generator : PubKey :=
  [0x04,
    0x79, 0xBE, 0x66, 0x7E, 0xF9, 0xDC, 0xBB, 0xAC, 0x55, 0xA0, 0x62, 0x95, 0xCE, 0x87, 0x0B, 0x07,
    0x02, 0x9B, 0xFC, 0xDB, 0x2D, 0xCE, 0x28, 0xD9, 0x59, 0xF2, 0x81, 0x5B, 0x16, 0xF8, 0x17, 0x98,
    0x48, 0x3A, 0xDA, 0x77, 0x26, 0xA3, 0xC4, 0x65, 0x5D, 0xA4, 0xFB, 0xFC, 0x0E, 0x11, 0x08, 0xA8,
    0xFD, 0x17, 0xB4, 0x48, 0xA6, 0x85, 0x54, 0x19, 0x9C, 0x47, 0xD0, 0x8F, 0xFB, 0x10, 0xD4, 0xB8]

/-- The part of the curve library that knows one point, the generator. -/
def generatorCurve : Secp256k1 where
  Point := Unit
  parse bytes :=
    if bytes = generator ∨ bytes = 2 :: (generator.drop 1).take 32 then some () else none
  serialize _ := generator

theorem isFullyValid_generatorCurve {key : PubKey} (hlength : key.length = 65)
    (hhead : key.head? = some 4) :
    PubKey.isFullyValid generatorCurve key = true ↔ key = generator := by
  obtain ⟨rest, rfl⟩ := head?_eq_some_iff.1 hhead
  rw [isFullyValid_uncompressed (by simpa using hlength)]
  simp [generatorCurve]

theorem decompress_generatorCurve {x : List UInt8} {odd : UInt8} (hx : x.length = 32)
    (hodd : odd = 0 ∨ odd = 1) : PubKey.decompress generatorCurve ((2 + odd) :: x) =
      if odd = 0 ∧ x = (generator.drop 1).take 32 then some generator else none := by
  have hset : PubKey.set generator = generator := by decide
  have hsize : PubKey.size ((2 + odd) :: x) = 33 := by rcases hodd with rfl | rfl <;> rfl
  have htake : ((2 + odd) :: x).take 33 = (2 + odd) :: x :=
    take_of_length_le (by rw [length_cons]; omega)
  have hne : (2 + odd) :: x ≠ generator := fun h => by
    have := congrArg length h
    rw [length_cons, hx] at this
    exact absurd this (by decide)
  have hhead : 2 + odd = 2 ↔ odd = 0 := by rcases hodd with rfl | rfl <;> decide
  rw [PubKey.decompress, PubKey.isValid, hsize, htake]
  simp only [generatorCurve, hne, false_or, cons.injEq, hhead]
  split_ifs <;> simp_all

theorem decompressUnique_generatorCurve : DecompressUnique generatorCurve := by
  intro x odd key hx hodd
  rw [decompress_generatorCurve hx hodd]
  constructor
  · intro h
    split_ifs at h with hpoint
    obtain ⟨rfl, rfl⟩ := hpoint
    cases h
    exact ⟨rfl, rfl, (isFullyValid_generatorCurve rfl rfl).2 rfl, rfl, rfl⟩
  · rintro ⟨hlength, hhead, hvalid, rfl, hbit⟩
    obtain rfl := (isFullyValid_generatorCurve hlength hhead).1 hvalid
    exact if_pos ⟨hbit.symm, rfl⟩

theorem compression_lossless_generator :
    decompressAmount (compressAmount 121300000000000000) = 121300000000000000 ∧
      ∃ K : ScriptConstants, (unserScript K generatorCurve []).run
        (serScript K generatorCurve ([65] ++ generator ++ [K.opCheckSig]) ++ [1, 2]) =
          some ([65] ++ generator ++ [K.opCheckSig], [1, 2]) := by
  constructor
  · exact (compression_lossless.1 121300000000000000 (by decide)).1
  · exact ⟨⟨0x76, 0xa9, 0x87, 0x88, 0xac, 0x6a, 10000, by decide⟩, compression_lossless.2.2 _
      generatorCurve decompressUnique_generatorCurve _ (by decide) [1, 2]⟩

end KPCoin.Compressor
