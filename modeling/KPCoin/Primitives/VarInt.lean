import KPCoin.Data.BijectiveNumeral
import KPCoin.Primitives.Serialize

/-!
# Variable-length integers

`GetSizeOfVarInt`, `WriteVarInt` and `ReadVarInt` (`serialize.h`), for the unsigned integer types of
any number of bytes.  `WriteVarInt` fills a scratch buffer from the lowest group of seven bits up
and then sends it in the opposite order; a store past the end of the buffer is kept apart from a
result.

The bytes written for `n` are the bijective numeral of `n + 1` in base 128, every digit but the last
with the high bit set (`varIntBytes`).  From that

* the scratch buffer is large enough and holds these bytes: `writeVarInt_eq`;
* exactly these bytes are read as `n`: `run_readVarInt_iff`.

Together with the lengths of `KPCoin.Primitives.Serialize` this is `codes_bijective`.
-/

namespace KPCoin.Serialize

open BijectiveNumeral List BitVec

variable {sizeof : ℕ} {is rest : List UInt8} {tmp : List UInt8}

/-- An unsigned integer type of `sizeof` bytes. -/
abbrev Unsigned (sizeof : ℕ) := BitVec (8 * sizeof)

theorem toNat_constant (hsize : 0 < sizeof) {c : ℕ} (hc : c < 256) :
    (BitVec.ofNat (8 * sizeof) c).toNat = c := by
  have hpow : 2 ^ 8 ≤ 2 ^ (8 * sizeof) := Nat.pow_le_pow_right (by decide) (by omega)
  rw [toNat_ofNat, Nat.mod_eq_of_lt (by omega)]

theorem le_lowGroup_iff {n : Unsigned sizeof} : n ≤ 0x7F ↔ n.toNat < 128 := by
  rcases Nat.eq_zero_or_pos sizeof with rfl | hsize
  · -- the type with no bytes has a single value
    obtain rfl : n = 0 := eq_nil n
    decide
  · have h127 : (0x7F : Unsigned sizeof).toNat = 127 := toNat_constant hsize (by decide)
    rw [le_def]
    omega

section

variable {n : Unsigned sizeof} (h : ¬ n ≤ 0x7F)
include h

theorem sizeof_pos : 0 < sizeof := by
  rcases Nat.eq_zero_or_pos sizeof with rfl | hsize
  · obtain rfl : n = 0 := eq_nil n
    exact absurd (by decide) h
  · exact hsize

theorem toNat_nextGroup : (n >>> 7 - 1).toNat = n.toNat / 128 - 1 := by
  have hone : (1 : Unsigned sizeof).toNat = 1 := toNat_constant (sizeof_pos h) (by decide)
  have hshift : (n >>> 7).toNat = n.toNat / 128 := by
    rw [toNat_ushiftRight, Nat.shiftRight_eq_div_pow]
  rw [le_lowGroup_iff] at h
  rw [toNat_sub_of_le (by rw [le_def, hone, hshift]; omega), hone, hshift]

theorem nextGroup_lt : (n >>> 7 - 1).toNat < n.toNat := by
  rw [toNat_nextGroup h]
  rw [le_lowGroup_iff] at h
  omega

end

/-- The loop of `GetSizeOfVarInt`. -/
def getSizeOfVarIntLoop (nRet : ℕ) (n : Unsigned sizeof) : ℕ :=
  if n ≤ 0x7F then nRet + 1 else getSizeOfVarIntLoop (nRet + 1) (n >>> 7 - 1)
termination_by n.toNat
decreasing_by exact nextGroup_lt ‹_›

/-- `GetSizeOfVarInt`. -/
def getSizeOfVarInt (n : Unsigned sizeof) : ℕ := getSizeOfVarIntLoop 0 n

/-- `tmp[i] = b`, if there is such an entry. -/
def store (tmp : List UInt8) (i : ℕ) (b : UInt8) : Option (List UInt8) :=
  if i < tmp.length then some (tmp.set i b) else none

/-- The loop of `WriteVarInt` that fills the scratch buffer. -/
def fillGroups (tmp : List UInt8) (len : ℕ) (n : Unsigned sizeof) : Option (List UInt8 × ℕ) := do
  let tmp ← store tmp len (UInt8.ofNat (n &&& 0x7F).toNat ||| if len ≠ 0 then 0x80 else 0x00)
  if n ≤ 0x7F then pure (tmp, len) else fillGroups tmp (len + 1) (n >>> 7 - 1)
termination_by n.toNat
decreasing_by exact nextGroup_lt ‹_›

/-- The loop of `WriteVarInt` that sends the scratch buffer, from the entry `len` down. -/
def sendGroups (tmp : List UInt8) : ℕ → List UInt8
  | 0 => [tmp.getD 0 0]
  | len + 1 => tmp.getD (len + 1) 0 :: sendGroups tmp len

/-- The number of bytes of the scratch buffer. -/
def scratchSize (sizeof : ℕ) : ℕ := (sizeof * 8 + 6) / 7

/-- `WriteVarInt`; no result if the scratch buffer is overrun. -/
def writeVarInt (n : Unsigned sizeof) : Option (List UInt8) := do
  let (tmp, len) ← fillGroups (List.replicate (scratchSize sizeof) 0) 0 n
  return sendGroups tmp len

/-- The loop of `ReadVarInt`. -/
def readGroups (n : Unsigned sizeof) : List UInt8 → Option (Unsigned sizeof × List UInt8)
  | [] => none
  | chData :: is =>
    if n > allOnes _ >>> 7 then none
    else
      let n := n <<< 7 ||| BitVec.ofNat _ (chData &&& 0x7F).toNat
      if chData &&& 0x80 ≠ 0 then
        if n = allOnes _ then none else readGroups (n + 1) is
      else some (n, is)

/-- `ReadVarInt`. -/
def readVarInt : Reader UInt8 (Unsigned sizeof) := fun is => readGroups 0 is

/-- A digit that is followed by another one. -/
def continued (d : ℕ) : UInt8 := UInt8.ofNat d ||| 0x80

/-- The bytes for a number. -/
def varIntBytes (n : ℕ) : List UInt8 :=
  (numeral 128 (n / 128)).map continued ++ [UInt8.ofNat (n % 128)]

theorem length_varIntBytes (n : ℕ) : (varIntBytes n).length = (numeral 128 (n + 1)).length := by
  simp [varIntBytes, numeral_succ]

theorem varIntBytes_of_lt {n : ℕ} (h : n < 128) : varIntBytes n = [UInt8.ofNat n] := by
  rw [varIntBytes, Nat.div_eq_of_lt h, Nat.mod_eq_of_lt h, numeral_zero, map_nil, nil_append]

theorem numeral_nextGroup {n : Unsigned sizeof} (h : ¬ n ≤ 0x7F) :
    numeral 128 ((n >>> 7 - 1).toNat + 1) = numeral 128 (n.toNat / 128) := by
  rw [toNat_nextGroup h, Nat.sub_add_cancel]
  rw [le_lowGroup_iff] at h
  omega

theorem numeral_lowGroup {n : Unsigned sizeof} (h : n ≤ 0x7F) :
    numeral 128 (n.toNat / 128) = [] := by
  rw [Nat.div_eq_of_lt (le_lowGroup_iff.1 h), numeral_zero]

theorem getSizeOfVarIntLoop_eq (nRet : ℕ) (n : Unsigned sizeof) :
    getSizeOfVarIntLoop nRet n = nRet + (numeral 128 (n.toNat + 1)).length := by
  fun_induction getSizeOfVarIntLoop nRet n with
  | case1 nRet n h => simp [numeral_succ, numeral_lowGroup h]
  | case2 nRet n h ih =>
    rw [ih, numeral_nextGroup h, numeral_succ, length_append, length_singleton]
    omega

theorem getSizeOfVarInt_eq (n : Unsigned sizeof) :
    getSizeOfVarInt n = (varIntBytes n.toNat).length := by
  rw [getSizeOfVarInt, getSizeOfVarIntLoop_eq, length_varIntBytes, Nat.zero_add]

/-- The digits of a value are never more than the scratch buffer holds. -/
theorem length_varIntBytes_le (hsize : 0 < sizeof) (n : Unsigned sizeof) :
    (varIntBytes n.toNat).length ≤ scratchSize sizeof := by
  obtain ⟨j, hj⟩ : ∃ j, scratchSize sizeof = j + 1 :=
    Nat.exists_eq_add_one.2 (by unfold scratchSize; omega)
  rw [length_varIntBytes, hj]
  apply length_numeral_le
  calc n.toNat < 2 ^ (8 * sizeof) := n.isLt
    _ ≤ 2 ^ (7 * (j + 1)) := Nat.pow_le_pow_right (by decide) (by unfold scratchSize at hj; omega)
    _ = 128 ^ (j + 1) := by rw [Nat.pow_mul]

theorem take_set_succ {len : ℕ} (h : len < tmp.length) (b : UInt8) :
    (tmp.set len b).take (len + 1) = tmp.take len ++ [b] := by
  rw [take_add_one, take_set_of_le (Nat.le_refl len), getElem?_set_self h]
  rfl

theorem sendGroups_eq {len : ℕ} (h : len < tmp.length) :
    sendGroups tmp len = (tmp.take (len + 1)).reverse := by
  induction len with
  | zero =>
    cases tmp with
    | nil => cases h
    | cons b tmp => rfl
  | succ len ih =>
    rw [sendGroups, ih (by omega), getD_eq_getElem _ _ h, take_succ_eq_append_getElem h,
      List.reverse_append]
    rfl

theorem toNat_lowGroup (hsize : 0 < sizeof) (n : Unsigned sizeof) :
    (n &&& 0x7F).toNat = n.toNat % 128 := by
  have h127 : (0x7F : Unsigned sizeof).toNat = 2 ^ 7 - 1 := toNat_constant hsize (by decide)
  rw [toNat_and, h127, Nat.and_two_pow_sub_one_eq_mod]

/-- The loop appends the digits, the lowest one first. -/
theorem fillGroups_eq (hsize : 0 < sizeof) (tmp : List UInt8) (len : ℕ) (n : Unsigned sizeof)
    (hroom : len + (varIntBytes n.toNat).length ≤ tmp.length) :
    ∃ tmp' len', fillGroups tmp len n = some (tmp', len') ∧ len' < tmp'.length ∧
      tmp'.take (len' + 1) = tmp.take len ++
        (UInt8.ofNat (n.toNat % 128) ||| if len ≠ 0 then 0x80 else 0x00) ::
          ((numeral 128 (n.toNat / 128)).map continued).reverse := by
  fun_induction fillGroups tmp len n with
  | case1 tmp len n ih =>
    rw [length_varIntBytes, numeral_succ, length_append, length_singleton] at hroom
    have hstore : len < tmp.length := by omega
    rw [toNat_lowGroup hsize, store, if_pos hstore]
    generalize (UInt8.ofNat (n.toNat % 128) ||| if len ≠ 0 then 0x80 else 0x00) = byte
    change ∃ tmp' len', (if n ≤ 0x7F then _ else _) = _ ∧ _
    by_cases hn : n ≤ 0x7F
    · rw [if_pos hn]
      refine ⟨_, len, rfl, by rwa [length_set], ?_⟩
      rw [take_set_succ hstore, numeral_lowGroup hn]
      rfl
    · rw [if_neg hn]
      obtain ⟨tmp', len', hfill, hlen', htake⟩ := ih (tmp.set len byte) hn (by
        rw [length_varIntBytes, numeral_nextGroup hn, length_set]
        omega)
      refine ⟨tmp', len', hfill, hlen', ?_⟩
      rw [htake, take_set_succ hstore, ← numeral_nextGroup hn, numeral_succ, map_append,
        List.reverse_append, List.append_assoc]
      rfl

/-- **The scratch buffer is not overrun, and the bytes of the code are written.** -/
theorem writeVarInt_eq (hsize : 0 < sizeof) (n : Unsigned sizeof) :
    writeVarInt n = some (varIntBytes n.toNat) := by
  obtain ⟨tmp, len, hfill, hlen, htake⟩ :=
    fillGroups_eq hsize (replicate (scratchSize sizeof) 0) 0 n
    (by simpa using length_varIntBytes_le hsize n)
  rw [writeVarInt, hfill]
  change some (sendGroups tmp len) = _
  simp [sendGroups_eq hlen, htake, varIntBytes]

/-- `VARINT(n)`: the bytes that `WriteVarInt` writes. -/
def varInt (sizeof : ℕ) (n : Unsigned sizeof) : List UInt8 := (writeVarInt n).getD []

theorem varInt_eq [NeZero sizeof] (n : Unsigned sizeof) :
    varInt sizeof n = varIntBytes n.toNat := by
  simp [varInt, writeVarInt_eq (Nat.pos_of_neZero sizeof)]

theorem toNat_lowBits (b : UInt8) : (b &&& 0x7F).toNat = b.toNat % 128 := by
  exact Nat.and_two_pow_sub_one_eq_mod b.toNat 7

theorem highBit_iff (b : UInt8) : b &&& 0x80 ≠ 0 ↔ 128 ≤ b.toNat := by
  have hall : ∀ n < 256, UInt8.ofNat n &&& 0x80 ≠ 0 ↔ 128 ≤ n := by decide +kernel
  have h := hall b.toNat b.toNat_lt
  rwa [UInt8.ofNat_toNat] at h

theorem toNat_continued {d : ℕ} (hd : d < 128) : (continued d).toNat = d + 128 := by
  have hall : ∀ d < 128, (continued d).toNat = d + 128 := by decide +kernel
  exact hall d hd

theorem continued_lowBits {b : UInt8} (hb : 128 ≤ b.toNat) : continued (b.toNat % 128) = b := by
  apply UInt8.toNat_inj.1
  have hlt := b.toNat_lt
  rw [toNat_continued (Nat.mod_lt _ (by decide))]
  omega

theorem two_pow_eq (hsize : 0 < sizeof) : 2 ^ (8 * sizeof) = 128 * 2 ^ (8 * sizeof - 7) := by
  rw [show 128 = 2 ^ 7 from rfl, ← Nat.pow_add]
  congr 1
  omega

theorem toNat_allOnes_shift (hsize : 0 < sizeof) :
    (allOnes (8 * sizeof) >>> 7).toNat = 2 ^ (8 * sizeof - 7) - 1 := by
  have hpow := two_pow_eq hsize
  rw [toNat_ushiftRight, toNat_allOnes]
  omega

theorem toNat_addGroup {n : Unsigned sizeof} {d : ℕ} (hd : d < 128)
    (h : n.toNat * 128 + d < 2 ^ (8 * sizeof)) :
    (n <<< 7 ||| BitVec.ofNat _ d).toNat = n.toNat * 128 + d := by
  have hshift : n.toNat <<< 7 % 2 ^ (8 * sizeof) = n.toNat <<< 7 :=
    Nat.mod_eq_of_lt (by rw [Nat.shiftLeft_eq]; omega)
  rw [toNat_or, toNat_shiftLeft, toNat_ofNat, hshift,
    Nat.mod_eq_of_lt (by omega), ← Nat.shiftLeft_add_eq_or_of_lt hd, Nat.shiftLeft_eq]

section

variable (hsize : 0 < sizeof)
include hsize

theorem readGroups_cons (n : Unsigned sizeof) (chData : UInt8) (is : List UInt8) :
    readGroups n (chData :: is) =
      let m := n.toNat * 128 + chData.toNat % 128
      if 2 ^ (8 * sizeof) ≤ m then none
      else if 128 ≤ chData.toNat then
        if m + 1 = 2 ^ (8 * sizeof) then none else readGroups (BitVec.ofNat _ (m + 1)) is
      else some (BitVec.ofNat _ m, is) := by
  have hd : chData.toNat % 128 < 128 := Nat.mod_lt _ (by decide)
  have hpow := two_pow_eq hsize
  have hfull : n > allOnes _ >>> 7 ↔ 2 ^ (8 * sizeof) ≤ n.toNat * 128 + chData.toNat % 128 := by
    rw [gt_iff_lt, lt_def, toNat_allOnes_shift hsize]
    omega
  simp only [readGroups, hfull, highBit_iff, toNat_lowBits]
  by_cases hover : 2 ^ (8 * sizeof) ≤ n.toNat * 128 + chData.toNat % 128
  · rw [if_pos hover, if_pos hover]
  · have hadd := toNat_addGroup hd (Nat.not_le.1 hover)
    have hword : n <<< 7 ||| BitVec.ofNat _ (chData.toNat % 128) =
        BitVec.ofNat _ (n.toNat * 128 + chData.toNat % 128) := by
      rw [← hadd, ofNat_toNat, setWidth_eq]
    have hmax : n <<< 7 ||| BitVec.ofNat _ (chData.toNat % 128) = allOnes _ ↔
        n.toNat * 128 + chData.toNat % 128 + 1 = 2 ^ (8 * sizeof) := by
      rw [← toNat_inj, toNat_allOnes]
      omega
    have hnext : BitVec.ofNat (8 * sizeof) (n.toNat * 128 + chData.toNat % 128) + 1 =
        BitVec.ofNat _ (n.toNat * 128 + chData.toNat % 128 + 1) := (ofNat_add _ 1).symm
    simp only [if_neg hover, hmax]
    rw [hword, hnext]

theorem readGroups_continued {digits : List ℕ} (hdigits : ∀ d ∈ digits, d < 128)
    {n : Unsigned sizeof} (h : value 128 n.toNat digits < 2 ^ (8 * sizeof)) (is : List UInt8) :
    readGroups n (digits.map continued ++ is) =
      readGroups (BitVec.ofNat _ (value 128 n.toNat digits)) is := by
  induction digits generalizing n with
  | nil => rw [value_nil, ofNat_toNat, setWidth_eq, map_nil, nil_append]
  | cons d digits ih =>
    have hd : d < 128 := hdigits d mem_cons_self
    have hbyte := toNat_continued hd
    have hle := le_value (b := 128) (by decide) (n.toNat * 128 + d + 1) digits
    rw [value_cons] at h
    have hmod : (continued d).toNat % 128 = d := by omega
    have hnext : (BitVec.ofNat (8 * sizeof) (n.toNat * 128 + d + 1)).toNat =
        n.toNat * 128 + d + 1 := by
      rw [toNat_ofNat, Nat.mod_eq_of_lt (by omega)]
    rw [map_cons, List.cons_append, readGroups_cons hsize, hmod]
    simp only
    rw [if_neg (by omega), if_pos (by omega), if_neg (by omega),
      ih (fun d hd => hdigits d (mem_cons_of_mem _ hd)) (by rwa [hnext]), hnext, value_cons]

/-- What is accepted is digits that are followed by others, and a last one. -/
theorem readGroups_eq_some {m n : Unsigned sizeof} (h : readGroups m is = some (n, rest)) :
    ∃ digits d, (∀ d ∈ digits, d < 128) ∧ d < 128 ∧
      is = digits.map continued ++ UInt8.ofNat d :: rest ∧
      n.toNat = value 128 m.toNat digits * 128 + d := by
  induction is generalizing m with
  | nil => cases h
  | cons chData is ih =>
    have hd : chData.toNat % 128 < 128 := Nat.mod_lt _ (by decide)
    rw [readGroups_cons hsize] at h
    simp only at h
    split_ifs at h with hover hmore hmax
    · obtain ⟨digits, d, hdigits, hlast, rfl, hn⟩ := ih h
      rw [toNat_ofNat, Nat.mod_eq_of_lt (by omega)] at hn
      refine ⟨chData.toNat % 128 :: digits, d, ?_, hlast, ?_, hn⟩
      · simpa using ⟨hd, hdigits⟩
      · rw [map_cons, continued_lowBits hmore, List.cons_append]
    · rw [Option.some.injEq] at h
      obtain ⟨rfl, rfl⟩ := h
      refine ⟨[], chData.toNat % 128, by simp, hd, ?_, ?_⟩
      · rw [Nat.mod_eq_of_lt (by omega), UInt8.ofNat_toNat, map_nil, nil_append]
      · rw [toNat_ofNat, Nat.mod_eq_of_lt (by omega), value_nil]

/-- **The bytes of the code, and no others, are read as a value.** -/
theorem run_readVarInt_iff {n : Unsigned sizeof} :
    readVarInt.run is = some (n, rest) ↔ is = varIntBytes n.toNat ++ rest := by
  constructor
  · intro h
    obtain ⟨digits, d, hdigits, hd, rfl, hn⟩ := readGroups_eq_some hsize h
    rw [show (0 : Unsigned sizeof).toNat = 0 from toNat_zero] at hn
    have hdiv : n.toNat / 128 = value 128 0 digits := by omega
    have hmod : n.toNat % 128 = d := by omega
    rw [varIntBytes, hdiv, hmod, numeral_value hdigits, List.append_assoc]
    rfl
  · rintro rfl
    have hvalue : value 128 (0 : Unsigned sizeof).toNat (numeral 128 (n.toNat / 128)) =
        n.toNat / 128 := by
      rw [show (0 : Unsigned sizeof).toNat = 0 from toNat_zero, value_numeral]
    have hhigh : (BitVec.ofNat (8 * sizeof) (n.toNat / 128)).toNat = n.toNat / 128 := by
      rw [toNat_ofNat, Nat.mod_eq_of_lt (by omega)]
    have hlast : (UInt8.ofNat (n.toNat % 128)).toNat = n.toNat % 128 := by
      rw [UInt8.toNat_ofNat', Nat.mod_eq_of_lt (by omega)]
    change readGroups 0 (varIntBytes n.toNat ++ rest) = _
    rw [varIntBytes, List.append_assoc,
      readGroups_continued hsize (fun d hd => lt_of_mem_numeral (by decide) hd)
        (by rw [hvalue]; omega),
      hvalue, singleton_append, readGroups_cons hsize, hhigh, hlast, Nat.mod_mod]
    simp only
    rw [if_neg (by omega), if_neg (by omega), Nat.div_add_mod', ofNat_toNat, setWidth_eq]

end

theorem reads_varInt (sizeof : ℕ) [NeZero sizeof] (n : Unsigned sizeof) :
    Reader.Reads readVarInt (varInt sizeof n) n := by
  intro rest
  rw [varInt_eq, run_readVarInt_iff (Nat.pos_of_neZero sizeof)]

/-- **Both codes are bijective.**  Every value of every unsigned type is written within the scratch
buffer, in the length that was announced, and read back with the rest left; nothing but what is
written for a value is read as one.  The same holds of lengths of 64 bits, and a length in a form
longer than needed is rejected. -/
theorem codes_bijective :
    (∀ sizeof, 0 < sizeof → ∀ n : Unsigned sizeof, ∃ bytes, writeVarInt n = some bytes ∧
      bytes.length = getSizeOfVarInt n ∧ bytes.length ≤ (8 * sizeof + 6) / 7 ∧
      ∀ rest, readVarInt.run (bytes ++ rest) = some (n, rest)) ∧
    (∀ sizeof, 0 < sizeof → ∀ (n : Unsigned sizeof) (is rest : List UInt8),
      readVarInt.run is = some (n, rest) →
        ∃ bytes, writeVarInt n = some bytes ∧ is = bytes ++ rest) ∧
    (∀ n < 2 ^ 64, (writeCompactSize n).length = getSizeOfCompactSize n ∧
      ∀ rest, readSize.run (writeCompactSize n ++ rest) = some (n, rest)) ∧
    (∀ n is rest, readSize.run is = some (n, rest) → n < 2 ^ 64 ∧ is = writeCompactSize n ++ rest) ∧
    (∀ (form : SizeForm) (n : ℕ), form.Fits n → form.encode n ≠ writeCompactSize n →
      ∀ rest, readSize.run (form.encode n ++ rest) = none) := by
  refine ⟨?_, ?_, ?_, ?_, ?_⟩
  · intro sizeof hsize n
    refine ⟨_, writeVarInt_eq hsize n, (getSizeOfVarInt_eq n).symm, ?_,
      fun rest => (run_readVarInt_iff hsize).2 rfl⟩
    have hlength := length_varIntBytes_le hsize n
    unfold scratchSize at hlength
    omega
  · intro sizeof hsize n is rest h
    exact ⟨_, writeVarInt_eq hsize n, (run_readVarInt_iff hsize).1 h⟩
  · intro n hn
    exact ⟨length_writeCompactSize n, reads_size hn⟩
  · intro n is rest h
    exact run_readSize_iff.1 h
  · intro form n hfits hne rest
    exact run_readSize_of_ne hfits hne rest

theorem codes_bijective_values :
    (∃ bytes, writeVarInt (65535 : Unsigned 2) = some bytes ∧
      ∀ rest, readVarInt.run (bytes ++ rest) = some ((65535 : Unsigned 2), rest)) ∧
    readSize.run (SizeForm.encode .four 7 ++ [1]) = none := by
  constructor
  · obtain ⟨bytes, hwrite, -, -, hread⟩ := codes_bijective.1 2 (by decide) 65535
    exact ⟨bytes, hwrite, hread⟩
  · exact codes_bijective.2.2.2.2 .four 7 (show 7 < 256 ^ 4 by decide) (by decide) [1]

end KPCoin.Serialize
