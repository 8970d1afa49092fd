import KPCoin.Data.Reader
import KPCoin.Primitives.Transaction

/-!
# Serialization

The parts of `serialize.h` that vectors and integers are written with: integers in little-endian
order, `CompactSize` lengths, and vectors.  Reading fails where the code throws.

`reads_compactSize` and `reads_vector` say that what is written is read back, for lengths up to
`MAX_SIZE`.  `run_readSize_iff` says which bytes are read as a length at all: those that are written
for it, so that no length has two encodings.
-/

namespace KPCoin.Serialize

open List Reader

/-- `MAX_SIZE`. -/
def maxSize : ℕ := 0x02000000

/-- The lowest `k` bytes of a number, the lowest one first. -/
def leBytes : ℕ → ℕ → List UInt8
  | 0, _ => []
  | k + 1, n => UInt8.ofNat n :: leBytes k (n / 256)

/-- The number with these bytes. -/
def ofLeBytes : List UInt8 → ℕ
  | [] => 0
  | b :: rest => b.toNat + 256 * ofLeBytes rest

/-- `ser_readdata8` to `ser_readdata64`, and longer integers: `k` bytes. -/
def readInt (k : ℕ) : Reader UInt8 ℕ := do return ofLeBytes (← Reader.take k)

theorem length_leBytes (k n : ℕ) : (leBytes k n).length = k := by
  induction k generalizing n with
  | zero => rfl
  | succ k ih => rw [leBytes, length_cons, ih]

variable {k n : ℕ} {s rest : List UInt8} {least : ℕ} (bytes : List UInt8)

theorem ofLeBytes_leBytes (hn : n < 256 ^ k) : ofLeBytes (leBytes k n) = n := by
  induction k generalizing n with
  | zero => simpa [leBytes, ofLeBytes] using (Nat.lt_one_iff.1 hn).symm
  | succ k ih =>
    have hdiv : n / 256 < 256 ^ k := Nat.div_lt_of_lt_mul (by rwa [Nat.mul_comm, ← Nat.pow_succ])
    rw [leBytes, ofLeBytes, ih hdiv, UInt8.toNat_ofNat']
    omega

theorem reads_int (hn : n < 256 ^ k) : Reads (readInt k) (leBytes k n) n := by
  have h := (reads_take (leBytes k n)).map ofLeBytes
  rwa [length_leBytes, ofLeBytes_leBytes hn] at h

theorem leBytes_ofLeBytes : leBytes bytes.length (ofLeBytes bytes) = bytes := by
  induction bytes with
  | nil => rfl
  | cons b rest ih =>
    have hb : b.toNat < 256 := b.toNat_lt
    have hlow : UInt8.ofNat (b.toNat + 256 * ofLeBytes rest) = b := by
      apply UInt8.toNat_inj.1
      rw [UInt8.toNat_ofNat']
      omega
    have hhigh : (b.toNat + 256 * ofLeBytes rest) / 256 = ofLeBytes rest := by omega
    rw [length_cons, ofLeBytes, leBytes, hlow, hhigh, ih]

theorem ofLeBytes_lt : ofLeBytes bytes < 256 ^ bytes.length := by
  induction bytes with
  | nil => exact Nat.one_pos
  | cons b rest ih =>
    have hb : b.toNat < 256 := b.toNat_lt
    rw [ofLeBytes, length_cons]
    omega

theorem run_readInt_iff :
    (readInt k).run s = some (n, rest) ↔ n < 256 ^ k ∧ s = leBytes k n ++ rest := by
  constructor
  · intro h
    obtain ⟨bytes, s', htake, hpure⟩ := run_bind_eq_some.1 h
    obtain ⟨rfl, rfl⟩ := run_take_eq_some.1 htake
    obtain ⟨rfl, rfl⟩ := run_pure_eq_some.1 hpure
    exact ⟨ofLeBytes_lt bytes, by rw [leBytes_ofLeBytes]⟩
  · rintro ⟨hn, rfl⟩
    exact reads_int hn rest

/-- `GetSizeOfCompactSize`. -/
def getSizeOfCompactSize (nSize : ℕ) : ℕ :=
  if nSize < 253 then 1
  else if nSize ≤ 0xffff then 1 + 2
  else if nSize ≤ 0xffffffff then 1 + 4
  else 1 + 8

/-- `WriteCompactSize`. -/
def writeCompactSize (nSize : ℕ) : List UInt8 :=
  if nSize < 253 then leBytes 1 nSize
  else if nSize ≤ 0xffff then leBytes 1 253 ++ leBytes 2 nSize
  else if nSize ≤ 0xffffffff then leBytes 1 254 ++ leBytes 4 nSize
  else leBytes 1 255 ++ leBytes 8 nSize

/-- The longer forms must not be used for a length that fits a shorter one. -/
def readCanonical (k least : ℕ) : Reader UInt8 ℕ := do
  let nSizeRet ← readInt k
  if nSizeRet < least then failure else pure nSizeRet

/-- The length as it is read, before the check of its range. -/
def readSize : Reader UInt8 ℕ := do
  let chSize ← readInt 1
  if chSize < 253 then pure chSize
  else if chSize = 253 then readCanonical 2 253
  else if chSize = 254 then readCanonical 4 0x10000
  else readCanonical 8 0x100000000

/-- `ReadCompactSize`, with the check of the range. -/
def readCompactSize : Reader UInt8 ℕ := do
  let nSizeRet ← readSize
  if nSizeRet > maxSize then failure else pure nSizeRet

theorem reads_canonical (hn : n < 256 ^ k) (hleast : least ≤ n) :
    Reads (readCanonical k least) (leBytes k n) n := by
  have h := (reads_int hn).bind (f := fun n => if n < least then failure else pure n)
    (by rw [if_neg (Nat.not_lt.2 hleast)]; exact reads_pure n)
  rwa [append_nil] at h

theorem run_readSize_marker {m : ℕ} (hm : m < 256) (s : List UInt8) :
    readSize.run (leBytes 1 m ++ s) =
      StateT.run (if m < 253 then pure m else if m = 253 then readCanonical 2 253
        else if m = 254 then readCanonical 4 0x10000 else readCanonical 8 0x100000000) s := by
  rw [readSize, StateT.run_bind, reads_int (hm)]
  rfl

theorem reads_size (hn : n < 256 ^ 8) : Reads readSize (writeCompactSize n) n := by
  intro rest
  unfold writeCompactSize
  split_ifs with h1 h2 h4
  · rw [run_readSize_marker (by omega), if_pos h1]
    rfl
  · rw [append_assoc, run_readSize_marker (by decide)]
    exact reads_canonical (by omega) (by omega) rest
  · rw [append_assoc, run_readSize_marker (by decide)]
    exact reads_canonical (by omega) (by omega) rest
  · rw [append_assoc, run_readSize_marker (by decide)]
    exact reads_canonical hn (by omega) rest

theorem length_writeCompactSize (n : ℕ) : (writeCompactSize n).length = getSizeOfCompactSize n := by
  unfold writeCompactSize getSizeOfCompactSize
  split_ifs <;> simp [length_leBytes]

theorem run_readCanonical_iff :
    (readCanonical k least).run s = some (n, rest) ↔
      least ≤ n ∧ n < 256 ^ k ∧ s = leBytes k n ++ rest := by
  constructor
  · intro h
    obtain ⟨m, s', hint, hcheck⟩ := run_bind_eq_some.1 h
    split_ifs at hcheck with hleast
    · cases hcheck
    · obtain ⟨rfl, rfl⟩ := run_pure_eq_some.1 hcheck
      exact ⟨Nat.not_lt.1 hleast, run_readInt_iff.1 hint⟩
  · rintro ⟨hleast, hn, rfl⟩
    exact reads_canonical hn hleast rest

/-- **What is read as a length is what is written for it.** -/
theorem run_readSize_iff :
    readSize.run s = some (n, rest) ↔ n < 256 ^ 8 ∧ s = writeCompactSize n ++ rest := by
  constructor
  · intro h
    obtain ⟨m, s', hfirst, hform⟩ := run_bind_eq_some.1 h
    obtain ⟨hm, rfl⟩ := run_readInt_iff.1 hfirst
    unfold writeCompactSize
    split_ifs at hform with h1 h2 h4
    · obtain ⟨rfl, rfl⟩ := run_pure_eq_some.1 hform
      exact ⟨by omega, by rw [if_pos h1]⟩
    · obtain ⟨hleast, hn, rfl⟩ := run_readCanonical_iff.1 hform
      rw [if_neg (by omega), if_pos (by omega), h2]
      exact ⟨by omega, rfl⟩
    · obtain ⟨hleast, hn, rfl⟩ := run_readCanonical_iff.1 hform
      rw [if_neg (by omega), if_neg (by omega), if_pos (by omega), h4]
      exact ⟨by omega, rfl⟩
    · obtain ⟨hleast, hn, rfl⟩ := run_readCanonical_iff.1 hform
      rw [if_neg (by omega), if_neg (by omega), if_neg (by omega), show m = 255 by omega]
      exact ⟨hn, rfl⟩
  · rintro ⟨hn, rfl⟩
    exact reads_size hn rest

/-- The forms in which a length could be written. -/
inductive SizeForm
  | byte
  | two
  | four
  | eight
  deriving DecidableEq, Repr

namespace SizeForm

/-- The form has room for the length. -/
def Fits : SizeForm → ℕ → Prop
  | byte, n => n < 253
  | two, n => n < 256 ^ 2
  | four, n => n < 256 ^ 4
  | eight, n => n < 256 ^ 8

/-- The length in this form. -/
def encode : SizeForm → ℕ → List UInt8
  | byte, n => leBytes 1 n
  | two, n => leBytes 1 253 ++ leBytes 2 n
  | four, n => leBytes 1 254 ++ leBytes 4 n
  | eight, n => leBytes 1 255 ++ leBytes 8 n

end SizeForm

theorem run_readCanonical_of_lt (hn : n < 256 ^ k) (h : n < least)
    (rest : List UInt8) : (readCanonical k least).run (leBytes k n ++ rest) = none := by
  rw [readCanonical, StateT.run_bind, reads_int hn]
  simp only [Option.bind_eq_bind, Option.bind_some, if_pos h]
  rfl

theorem run_readSize_of_ne {form : SizeForm} (hfits : form.Fits n)
    (hne : form.encode n ≠ writeCompactSize n) (rest : List UInt8) :
    readSize.run (form.encode n ++ rest) = none := by
  unfold writeCompactSize at hne
  cases form with
  | byte => exact absurd (if_pos (show n < 253 from hfits)).symm hne
  | two =>
    have hn : n < 256 ^ 2 := hfits
    have hsmall : n < 253 := by
      by_contra h
      exact hne (by rw [if_neg h, if_pos (by omega), SizeForm.encode])
    exact run_readCanonical_of_lt hn hsmall rest
  | four =>
    have hn : n < 256 ^ 4 := hfits
    have hsmall : n < 0x10000 := by
      by_contra h
      exact hne (by rw [if_neg (by omega), if_neg (by omega), if_pos (by omega), SizeForm.encode])
    exact run_readCanonical_of_lt hn hsmall rest
  | eight =>
    have hn : n < 256 ^ 8 := hfits
    have hsmall : n < 0x100000000 := by
      by_contra h
      exact hne (by rw [if_neg (by omega), if_neg (by omega), if_neg (by omega), SizeForm.encode])
    exact run_readCanonical_of_lt hn hsmall rest

/-- **A length is read back.** -/
theorem reads_compactSize (hn : n ≤ maxSize) : Reads readCompactSize (writeCompactSize n) n := by
  have hlt : n < 256 ^ 8 := Nat.lt_of_le_of_lt hn (by decide)
  have h := (reads_size hlt).bind (f := fun n => if n > maxSize then failure else pure n)
    (by rw [if_neg (Nat.not_lt.2 hn)]; exact reads_pure n)
  rwa [append_nil] at h

theorem run_readCompactSize_of_gt (h : maxSize < n) (hn : n < 256 ^ 8) (rest : List UInt8) :
    readCompactSize.run (writeCompactSize n ++ rest) = none := by
  rw [readCompactSize, StateT.run_bind, reads_size hn]
  simp only [Option.bind_eq_bind, Option.bind_some, if_pos h]
  rfl

/-- A vector: its length, and its entries. -/
def writeVector {α : Type} (write : α → List UInt8) (v : List α) : List UInt8 :=
  writeCompactSize v.length ++ v.flatMap write

/-- Reading a vector.  The batches in which memory is allocated are left out. -/
def readVector {α : Type} (read : Reader UInt8 α) : Reader UInt8 (List α) := do
  let size ← readCompactSize
  Reader.replicate read size

/-- **A vector is read back.** -/
theorem reads_vector {α : Type} {read : Reader UInt8 α} {write : α → List UInt8} {v : List α}
    (hsize : v.length ≤ maxSize) (h : ∀ a ∈ v, Reads read (write a) a) :
    Reads (readVector read) (writeVector write v) v :=
  (reads_compactSize hsize).bind (Reader.reads_replicate h)

theorem run_readVector_of_gt {α : Type} {read : Reader UInt8 α} {write : α → List UInt8}
    {v : List α} (h : maxSize < v.length) (hn : v.length < 256 ^ 8) (rest : List UInt8) :
    (readVector read).run (writeVector write v ++ rest) = none := by
  rw [readVector, writeVector, StateT.run_bind, append_assoc, run_readCompactSize_of_gt h hn]
  rfl

/-- A byte. -/
def readByte : Reader UInt8 UInt8 := do return UInt8.ofNat (← readInt 1)

theorem reads_byte (b : UInt8) : Reads readByte [b] b := by
  have h := (reads_int (k := 1) (b.toNat_lt)).map UInt8.ofNat
  rwa [UInt8.ofNat_toNat, show leBytes 1 b.toNat = [b] by simp [leBytes]] at h

/-- A `uint256`, in the order of its bytes in memory. -/
def writeUint256 (h : Uint256) : List UInt8 := leBytes 32 h.toNat

def readUint256 : Reader UInt8 Uint256 := do return BitVec.ofNat 256 (← readInt 32)

theorem reads_uint256 (x : Uint256) : Reads readUint256 (writeUint256 x) x := by
  have h := (reads_int (k := 32) (x.isLt)).map (BitVec.ofNat 256)
  rwa [BitVec.ofNat_toNat, BitVec.setWidth_eq] at h

end KPCoin.Serialize
