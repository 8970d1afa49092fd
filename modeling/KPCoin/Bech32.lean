import Mathlib

/-!
# Bech32

`Encode` and `Decode` of `bech32.cpp`.  A string is a human-readable part, the last character `1`,
and 5-bit values written with 32 characters, of which six are a checksum.

The loop of `PolyMod` is linear for `xor`, and does no reduction while the state is below `2 ^ 25`.
So six values at the end are added to what six zeros give (`polyMod_append`), and exactly one choice
of them leads to the constant of the encoding:

* `polyMod_eq_iff` : the checksum verifies iff it is the one that is created.
* `decode_encode` : decoding undoes encoding, and what is decoded encodes to the string in lower
  case.

Characters and values are numbers.  The encoding `INVALID` is `none`, and so is a failed assertion.
-/

namespace KPCoin.Bech32

open List

/-- `Encoding`. -/
inductive Encoding where
  | bech32
  | bech32m
deriving DecidableEq

/-- `CHARSET`. -/
def charset : List ℕ :=
  ['q', 'p', 'z', 'r', 'y', '9', 'x', '8', 'g', 'f', '2', 't', 'v', 'd', 'w', '0',
    's', '3', 'j', 'n', '5', '4', 'k', 'h', 'c', 'e', '6', 'm', 'u', 'a', '7', 'l'].map Char.toNat

/-- The rows of `CHARSET_REV` for the letters. -/
def letters : List ℤ :=
  [-1, 29, -1, 24, 13, 25, 9, 8, 23, -1, 18, 22, 31, 27, 19, -1,
    1, 0, 3, 16, 11, 28, 12, 14, 6, 4, 2, -1, -1, -1, -1, -1]

/-- `CHARSET_REV`. -/
def charsetRev : List ℤ :=
  List.replicate 48 (-1) ++ [15, -1, 10, 17, 21, 20, 26, 30, 7, 5, -1, -1, -1, -1, -1, -1] ++
    letters ++ letters

/-- `EncodingConstant`. -/
def encodingConstant : Encoding → ℕ
  | .bech32 => 1
  | .bech32m => 0x2bc830a3

/-- A conditional `xor`. -/
def xorIf (b : Bool) (g c : ℕ) : ℕ := if b then c ^^^ g else c

/-- A step of `PolyMod`. -/
def polyModStep (c v : ℕ) : ℕ :=
  let c0 := c >>> 25
  let c := ((c &&& 0x1ffffff) <<< 5) ^^^ v
  let c := xorIf (c0.testBit 0) 0x3b6a57b2 c
  let c := xorIf (c0.testBit 1) 0x26508e6d c
  let c := xorIf (c0.testBit 2) 0x1ea119fa c
  let c := xorIf (c0.testBit 3) 0x3d4233dd c
  xorIf (c0.testBit 4) 0x2a1462b3 c

/-- `PolyMod`. -/
def polyMod (v : List ℕ) : ℕ := v.foldl polyModStep 1

/-- The character is an upper case letter. -/
def IsUpper (c : ℕ) : Prop := 'A'.toNat ≤ c ∧ c ≤ 'Z'.toNat

instance : DecidablePred IsUpper := fun _ => inferInstanceAs (Decidable (_ ∧ _))

/-- `LowerCase`. -/
def lowerCase (c : ℕ) : ℕ := if IsUpper c then c - 'A'.toNat + 'a'.toNat else c

/-- `CheckCharacters`: the indices of the errors. -/
def checkCharacters (i : ℕ) (lower upper : Bool) : List ℕ → List ℕ
  | [] => []
  | c :: str =>
    if 'a'.toNat ≤ c ∧ c ≤ 'z'.toNat then
      if upper then i :: checkCharacters (i + 1) lower upper str
      else checkCharacters (i + 1) true upper str
    else if IsUpper c then
      if lower then i :: checkCharacters (i + 1) lower upper str
      else checkCharacters (i + 1) lower true str
    else if c < 33 ∨ 126 < c then i :: checkCharacters (i + 1) lower upper str
    else checkCharacters (i + 1) lower upper str

/-- `ExpandHRP`. -/
def expandHRP (hrp : List ℕ) : List ℕ := hrp.map (· >>> 5) ++ 0 :: hrp.map (· &&& 0x1f)

/-- `VerifyChecksum`. -/
def verifyChecksum (hrp values : List ℕ) : Option Encoding :=
  let check := polyMod (expandHRP hrp ++ values)
  if check = encodingConstant .bech32 then some .bech32
  else if check = encodingConstant .bech32m then some .bech32m
  else none

/-- The 5-bit groups of a number. -/
def groups (mod : ℕ) : List ℕ := (List.range 6).map fun i => (mod >>> (5 * (5 - i))) &&& 31

/-- `CreateChecksum`. -/
def createChecksum (encoding : Encoding) (hrp values : List ℕ) : List ℕ :=
  groups (polyMod (expandHRP hrp ++ values ++ List.replicate 6 0) ^^^ encodingConstant encoding)

/-- `Encode`. -/
def encode (encoding : Encoding) (hrp values : List ℕ) : Option (List ℕ) :=
  if ∀ c ∈ hrp, ¬ IsUpper c then
    some (hrp ++ '1'.toNat ::
      (values ++ createChecksum encoding hrp values).map (charset.getD · 0))
  else none

/-- `std::string::rfind`. -/
def rfind (c : ℕ) : List ℕ → Option ℕ
  | [] => none
  | x :: str => ((rfind c str).map (· + 1)).or (if x = c then some 0 else none)

/-- The value of a character. -/
def valueOf (c : ℕ) : Option ℕ :=
  let rev := charsetRev.getD c (-1)
  if rev = -1 then none else some rev.toNat

/-- `Decode`. -/
def decode (str : List ℕ) : Option (Encoding × List ℕ × List ℕ) :=
  if checkCharacters 0 false false str ≠ [] then none else
  (rfind '1'.toNat str).bind fun pos =>
  if 90 < str.length ∨ pos = 0 ∨ str.length < pos + 7 then none else
  ((str.drop (pos + 1)).mapM valueOf).bind fun values =>
  let hrp := (str.take pos).map lowerCase
  (verifyChecksum hrp values).map fun result => (result, hrp, values.take (values.length - 6))

theorem xorIf_xor (a b : Bool) (g c d : ℕ) :
    xorIf (a ^^ b) g (c ^^^ d) = xorIf a g c ^^^ xorIf b g d := by
  cases a <;> cases b <;> grind [xorIf]

theorem polyModStep_xor (c d v w : ℕ) :
    polyModStep (c ^^^ d) (v ^^^ w) = polyModStep c v ^^^ polyModStep d w := by
  have hshift : (((c ^^^ d) &&& 0x1ffffff) <<< 5) ^^^ (v ^^^ w) =
      (((c &&& 0x1ffffff) <<< 5) ^^^ v) ^^^ (((d &&& 0x1ffffff) <<< 5) ^^^ w) := by
    grind
  simp only [polyModStep, Nat.shiftRight_xor_distrib, Nat.testBit_xor, hshift, xorIf_xor]

theorem foldl_polyModStep_xor (c d : ℕ) (l : List ℕ) :
    l.foldl polyModStep (c ^^^ d) =
      (List.replicate l.length 0).foldl polyModStep c ^^^ l.foldl polyModStep d := by
  induction l generalizing c d with
  | nil => rfl
  | cons v l ih =>
    rw [length_cons, replicate_succ, foldl_cons, foldl_cons, foldl_cons,
      ← ih, ← polyModStep_xor, Nat.zero_xor]

/-- Without reduction a step appends a group. -/
theorem polyModStep_of_lt {c v : ℕ} (hc : c < 2 ^ 25) (hv : v < 32) :
    polyModStep c v = 32 * c + v := by
  have hzero : c >>> 25 = 0 := by rw [Nat.shiftRight_eq_div_pow, Nat.div_eq_of_lt hc]
  have hmask : c &&& 0x1ffffff = c := by
    rw [show 0x1ffffff = 2 ^ 25 - 1 from rfl, Nat.and_two_pow_sub_one_eq_mod, Nat.mod_eq_of_lt hc]
  have hdiv : (c <<< 5 ^^^ v) / 2 ^ 5 = c := by
    rw [Nat.xor_div_two_pow, Nat.shiftLeft_eq, Nat.mul_div_cancel _ (by omega),
      Nat.div_eq_of_lt hv, Nat.xor_zero]
  have hmod : (c <<< 5 ^^^ v) % 2 ^ 5 = v := by
    rw [Nat.xor_mod_two_pow, Nat.shiftLeft_eq, Nat.mul_mod_left, Nat.mod_eq_of_lt hv, Nat.zero_xor]
  simp only [polyModStep, hzero, hmask, Nat.zero_testBit, xorIf, Bool.false_eq_true, if_false]
  omega

/-- The number with the given groups. -/
def pack (cs : List ℕ) : ℕ := cs.foldl (fun c v => 32 * c + v) 0

theorem exists_six {cs : List ℕ} (h : cs.length = 6) : ∃ a b c d e f, cs = [a, b, c, d, e, f] :=
  match cs, h with
  | [a, b, c, d, e, f], _ => ⟨a, b, c, d, e, f, rfl⟩

theorem polyMod_append {l cs : List ℕ} (hlen : cs.length = 6) (hcs : ∀ v ∈ cs, v < 32) :
    polyMod (l ++ cs) = polyMod (l ++ List.replicate 6 0) ^^^ pack cs := by
  have hpack : cs.foldl polyModStep 0 = pack cs := by
    obtain ⟨a, b, c, d, e, f, rfl⟩ := exists_six hlen
    simp only [forall_mem_cons] at hcs
    simp (disch := omega) only [foldl, pack, polyModStep_of_lt]
  rw [polyMod, polyMod, foldl_append, foldl_append, ← hpack, ← hlen,
    ← foldl_polyModStep_xor, Nat.xor_zero]

theorem pack_eq_iff {cs : List ℕ} {mod : ℕ} (hlen : cs.length = 6) (hcs : ∀ v ∈ cs, v < 32)
    (hmod : mod < 2 ^ 30) : pack cs = mod ↔ cs = groups mod := by
  obtain ⟨a, b, c, d, e, f, rfl⟩ := exists_six hlen
  have hgroup : ∀ n, n &&& 31 = n % 32 := fun n => Nat.and_two_pow_sub_one_eq_mod n 5
  simp only [forall_mem_cons] at hcs
  simp only [pack, groups, range, range.loop, map, foldl, hgroup,
    Nat.shiftRight_eq_div_pow, cons.injEq, and_true]
  omega

theorem groups_lt {mod v : ℕ} (hv : v ∈ groups mod) : v < 32 := by
  obtain ⟨-, -, rfl⟩ := mem_map.1 hv
  exact Nat.and_lt_two_pow _ (n := 5) (by norm_num)

theorem xorIf_lt {b : Bool} {g c n : ℕ} (hg : g < 2 ^ n) (hc : c < 2 ^ n) :
    xorIf b g c < 2 ^ n := by
  unfold xorIf
  split
  · exact Nat.xor_lt_two_pow hc hg
  · exact hc

theorem polyModStep_zero_lt (c : ℕ) : polyModStep c 0 < 2 ^ 30 := by
  have hbase : ((c &&& 0x1ffffff) <<< 5) ^^^ 0 < 2 ^ 30 := by
    have := Nat.and_lt_two_pow c (y := 0x1ffffff) (n := 25) (by norm_num)
    rw [Nat.xor_zero]
    omega
  iterate 5 refine xorIf_lt (by norm_num) ?_
  exact hbase

variable {encoding : Encoding} {str : List ℕ}

theorem polyMod_eq_iff {hrp values cs : List ℕ} (hlen : cs.length = 6) (hcs : ∀ v ∈ cs, v < 32) :
    polyMod (expandHRP hrp ++ (values ++ cs)) = encodingConstant encoding ↔
      cs = createChecksum encoding hrp values := by
  have hmod : polyMod (expandHRP hrp ++ values ++ replicate 6 0) ^^^
      encodingConstant encoding < 2 ^ 30 := by
    refine Nat.xor_lt_two_pow ?_ (by cases encoding <;> norm_num [encodingConstant])
    rw [polyMod, foldl_append]
    exact polyModStep_zero_lt _
  rw [← append_assoc, polyMod_append hlen hcs, createChecksum, ← pack_eq_iff hlen hcs hmod]
  constructor
  · rintro h
    rw [← h, Nat.xor_xor_cancel_left]
  · rintro h
    rw [h, Nat.xor_xor_cancel_left]

theorem verifyChecksum_eq_some {hrp values : List ℕ} :
    verifyChecksum hrp values = some encoding ↔
      polyMod (expandHRP hrp ++ values) = encodingConstant encoding := by
  unfold verifyChecksum
  cases encoding <;> grind [encodingConstant]

theorem charset_spec : ∀ v < 32, valueOf (charset.getD v 0) = some v ∧
    (33 ≤ charset.getD v 0 ∧ charset.getD v 0 ≤ 126 ∧ ¬ IsUpper (charset.getD v 0)) ∧
      charset.getD v 0 ≠ '1'.toNat := by decide

theorem charset_valueOf {c v : ℕ} (h : valueOf c = some v) :
    v < 32 ∧ charset.getD v 0 = lowerCase c := by
  have hall : ∀ c < 128, ∀ v ∈ valueOf c, v < 32 ∧ charset.getD v 0 = lowerCase c := by decide
  refine hall c ?_ v h
  by_contra hc
  rw [valueOf, getD_eq_default _ _ (by simpa [charsetRev, letters] using hc)] at h
  cases h

theorem mapM_charset {values : List ℕ} (h : ∀ v ∈ values, v < 32) :
    (values.map (charset.getD · 0)).mapM valueOf = some values := by
  induction values with
  | nil => rfl
  | cons v values ih =>
    rw [map_cons, mapM_cons, (charset_spec v (h v mem_cons_self)).1,
      ih fun w hw => h w (mem_cons_of_mem v hw)]
    rfl

theorem mapM_valueOf {str values : List ℕ} (h : str.mapM valueOf = some values) :
    (∀ v ∈ values, v < 32) ∧ values.map (charset.getD · 0) = str.map lowerCase := by
  induction str generalizing values with
  | nil =>
    cases h
    exact ⟨by simp, rfl⟩
  | cons c str ih =>
    simp only [mapM_cons, bind, pure, Option.bind_eq_some_iff, Option.some.injEq] at h
    obtain ⟨v, hv, vs, hvs, rfl⟩ := h
    obtain ⟨hlt, hmap⟩ := ih hvs
    obtain ⟨hv, hc⟩ := charset_valueOf hv
    exact ⟨forall_mem_cons.2 ⟨hv, hlt⟩, by rw [map_cons, hc, hmap, map_cons]⟩

theorem rfind_eq_none {c : ℕ} (h : c ∉ str) : rfind c str = none := by
  induction str with
  | nil => rfl
  | cons x str ih => grind [rfind]

theorem rfind_append {c : ℕ} {pre str : List ℕ} (h : c ∉ str) :
    rfind c (pre ++ c :: str) = some pre.length := by
  induction pre with
  | nil => simp [rfind, rfind_eq_none h]
  | cons x pre ih => simp [rfind, ih]

theorem eq_of_rfind {c pos : ℕ} (h : rfind c str = some pos) :
    str = str.take pos ++ c :: str.drop (pos + 1) := by
  induction str generalizing pos with
  | nil => cases h
  | cons x str ih =>
    rw [rfind] at h
    cases hr : rfind c str with
    | none => grind
    | some n =>
      obtain rfl : n + 1 = pos := by simpa [hr] using h
      rw [take_succ_cons, drop_succ_cons, cons_append, ← ih hr]

theorem checkCharacters_eq_nil (h : ∀ c ∈ str, 33 ≤ c ∧ c ≤ 126 ∧ ¬ IsUpper c)
    (i : ℕ) (lower : Bool) : checkCharacters i lower false str = [] := by
  induction str generalizing i lower with
  | nil => rfl
  | cons c str ih =>
    obtain ⟨⟨h1, h2, h3⟩, hstr⟩ := forall_mem_cons.1 h
    rw [checkCharacters]
    split
    · exact ih hstr _ _
    · rw [if_neg (by omega)]
      exact ih hstr _ _

theorem not_isUpper_lowerCase (c : ℕ) : ¬ IsUpper (lowerCase c) := by
  by_cases h : IsUpper c
  · rw [lowerCase, if_pos h]
    simp only [IsUpper, Char.reduceToNat] at h ⊢
    omega
  · rwa [lowerCase, if_neg h]

theorem decode_eq_some {str hrp values : List ℕ} :
    decode str = some (encoding, hrp, values) ↔
      checkCharacters 0 false false str = [] ∧ ∃ pos, rfind '1'.toNat str = some pos ∧
        (str.length ≤ 90 ∧ pos ≠ 0 ∧ pos + 7 ≤ str.length) ∧
        ∃ vs, (str.drop (pos + 1)).mapM valueOf = some vs ∧ (str.take pos).map lowerCase = hrp ∧
          verifyChecksum hrp vs = some encoding ∧ vs.take (vs.length - 6) = values := by
  simp only [decode, Option.ite_none_left_eq_some, Option.bind_eq_some_iff, Option.map_eq_some_iff,
    Prod.mk.injEq, not_or, not_lt, not_not]
  grind

/-- **Round trip**: decoding undoes encoding, and what is decoded encodes to the string in lower
case. -/
theorem decode_encode :
    (∀ encoding hrp values, hrp ≠ [] → (∀ c ∈ hrp, 33 ≤ c ∧ c ≤ 126 ∧ ¬ IsUpper c) →
      (∀ v ∈ values, v < 32) → hrp.length + 1 + values.length + 6 ≤ 90 →
      ∃ str, encode encoding hrp values = some str ∧ decode str = some (encoding, hrp, values)) ∧
      ∀ str encoding hrp values, decode str = some (encoding, hrp, values) →
        encode encoding hrp values = some (str.map lowerCase) := by
  constructor
  · intro encoding hrp values hne hhrp hvalues hlen
    have hlt : ∀ v ∈ values ++ createChecksum encoding hrp values, v < 32 :=
      forall_mem_append.2 ⟨hvalues, fun v => groups_lt⟩
    have hchars : ∀ c ∈ (values ++ createChecksum encoding hrp values).map (charset.getD · 0),
        (33 ≤ c ∧ c ≤ 126 ∧ ¬ IsUpper c) ∧ c ≠ '1'.toNat := by
      rintro c hc
      obtain ⟨v, hv, rfl⟩ := mem_map.1 hc
      exact (charset_spec v (hlt v hv)).2
    have hlength : (createChecksum encoding hrp values).length = 6 := rfl
    refine ⟨_, if_pos fun c hc => (hhrp c hc).2.2, decode_eq_some.2 ⟨?_, hrp.length, ?_, ?_,
      values ++ createChecksum encoding hrp values, ?_, ?_, ?_, ?_⟩⟩
    · exact checkCharacters_eq_nil (forall_mem_append.2 ⟨hhrp,
        forall_mem_cons.2 ⟨by decide, fun c hc => (hchars c hc).1⟩⟩) 0 false
    · exact rfind_append fun hc => (hchars _ hc).2 rfl
    · have := length_pos_iff.2 hne
      simp only [length_append, length_cons, length_map, hlength]
      omega
    · rw [drop_length_add_append]
      exact mapM_charset hlt
    · rw [take_left]
      exact (map_congr_left fun c hc => if_neg (hhrp c hc).2.2).trans (map_id _)
    · exact verifyChecksum_eq_some.2 ((polyMod_eq_iff hlength fun v => groups_lt).2 rfl)
    · simp [hlength]
  · intro str encoding hrp values h
    obtain ⟨-, pos, hpos, ⟨-, -, hlen⟩, vs, hvs, rfl, hverify, rfl⟩ := decode_eq_some.1 h
    obtain ⟨hlt, hmap⟩ := mapM_valueOf hvs
    have hlength : vs.length = str.length - (pos + 1) := by
      simpa using congrArg length hmap
    -- the last six values are the checksum of the others
    have hcs := (polyMod_eq_iff (by rw [length_drop]; omega) fun v hv =>
      hlt v (mem_of_mem_drop hv)).1 ((take_append_drop (vs.length - 6) vs).symm ▸
        verifyChecksum_eq_some.1 hverify)
    have hupper : ∀ c ∈ (str.take pos).map lowerCase, ¬ IsUpper c :=
      forall_mem_map.2 fun c _ => not_isUpper_lowerCase c
    rw [encode, if_pos hupper, ← hcs, take_append_drop, hmap]
    conv_rhs => rw [eq_of_rfind hpos]
    rw [map_append]
    rfl

theorem decode_encode_short : ∃ str, encode .bech32m [97] [0, 31] = some str ∧
    decode str = some (.bech32m, [97], [0, 31]) :=
  decode_encode.1 .bech32m [97] [0, 31] (by decide) (by decide) (by decide) (by decide)

end KPCoin.Bech32
