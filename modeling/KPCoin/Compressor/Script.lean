import KPCoin.Primitives.VarInt

/-!
# Compressed scripts

`CompressScript`, `DecompressScript` and `ScriptCompression` (`compressor.cpp`, `compressor.h`),
with the parts of `CPubKey` they use (`pubkey.h`, `pubkey.cpp`).  Six codes stand for the scripts
that pay to a key hash, a script hash or a public key; every other script is written with its
length, moved up by six.

Neither `script/script.h` nor the curve library is in the tree.  The opcodes and `MAX_SCRIPT_SIZE`
are the parameters `ScriptConstants`, the library is `Secp256k1`, and what is assumed of it is
`DecompressUnique`.

`reads_script` says that a script is read back from the bytes written for it.
-/

namespace KPCoin.Compressor

open List Reader Serialize

/-- The functions of the curve library on serialized points. -/
structure Secp256k1 where
  /-- `secp256k1_pubkey`. -/
  Point : Type
  /-- `secp256k1_ec_pubkey_parse`. -/
  parse : List UInt8 → Option Point
  /-- `secp256k1_ec_pubkey_serialize`, uncompressed. -/
  serialize : Point → List UInt8

/-- `CPubKey`: its bytes, as far as they are used. -/
abbrev PubKey := List UInt8

namespace PubKey

/-- `GetLen`. -/
def getLen (chHeader : UInt8) : ℕ :=
  if chHeader = 2 ∨ chHeader = 3 then 33
  else if chHeader = 4 ∨ chHeader = 6 ∨ chHeader = 7 then 65
  else 0

/-- `Set`; `Invalidate` leaves a header that no key has. -/
def set (bytes : List UInt8) : PubKey :=
  match bytes with
  | [] => [0xFF]
  | header :: _ => if getLen header ≠ 0 ∧ getLen header = bytes.length then bytes else [0xFF]

/-- `size`. -/
def size (key : PubKey) : ℕ := getLen (key.headD 0xFF)

/-- `IsValid`. -/
def isValid (key : PubKey) : Bool := key.size > 0

variable (E : Secp256k1)

/-- `IsFullyValid`. -/
def isFullyValid (key : PubKey) : Bool := key.isValid && (E.parse (key.take key.size)).isSome

/-- `Decompress`: the key, if it can be parsed. -/
def decompress (key : PubKey) : Option PubKey :=
  if key.isValid then (E.parse (key.take key.size)).map fun point => set (E.serialize point)
  else none

end PubKey

/-- **What is assumed of the curve library**: `Decompress` returns the one valid uncompressed key
with the given x coordinate and parity. -/
def DecompressUnique (E : Secp256k1) : Prop :=
  ∀ (x : List UInt8) (odd : UInt8) (key : PubKey), x.length = 32 → odd = 0 ∨ odd = 1 →
    (PubKey.decompress E ((2 + odd) :: x) = some key ↔
      key.length = 65 ∧ key.head? = some 4 ∧ PubKey.isFullyValid E key = true ∧
        (key.drop 1).take 32 = x ∧ key.getD 64 0 &&& 1 = odd)

/-- What the code takes from `script/script.h`. -/
structure ScriptConstants where
  opDup : UInt8
  opHash160 : UInt8
  opEqual : UInt8
  opEqualVerify : UInt8
  opCheckSig : UInt8
  opReturn : UInt8
  /-- `MAX_SCRIPT_SIZE`. -/
  maxScriptSize : ℕ
  /-- The length of a script, moved up by the special codes, fits an `unsigned int`. -/
  maxScriptSize_lt : maxScriptSize + 6 < 2 ^ 32

variable (K : ScriptConstants) (E : Secp256k1)

/-- `IsToKeyID`: the hash. -/
def isToKeyID (script : Script) : Option (List UInt8) :=
  if script.length = 25 ∧ script.getD 0 0 = K.opDup ∧ script.getD 1 0 = K.opHash160 ∧
      script.getD 2 0 = 20 ∧ script.getD 23 0 = K.opEqualVerify ∧
        script.getD 24 0 = K.opCheckSig then
    some ((script.drop 3).take 20)
  else none

/-- `IsToScriptID`: the hash. -/
def isToScriptID (script : Script) : Option (List UInt8) :=
  if script.length = 23 ∧ script.getD 0 0 = K.opHash160 ∧ script.getD 1 0 = 20 ∧
      script.getD 22 0 = K.opEqual then
    some ((script.drop 2).take 20)
  else none

/-- `IsToPubKey`: the key. -/
def isToPubKey (script : Script) : Option PubKey :=
  if script.length = 35 ∧ script.getD 0 0 = 33 ∧ script.getD 34 0 = K.opCheckSig ∧
      (script.getD 1 0 = 0x02 ∨ script.getD 1 0 = 0x03) then
    some (PubKey.set ((script.drop 1).take 33))
  else if script.length = 67 ∧ script.getD 0 0 = 65 ∧ script.getD 66 0 = K.opCheckSig ∧
      script.getD 1 0 = 0x04 then
    let pubkey := PubKey.set ((script.drop 1).take 65)
    -- an invalid key could not be restored
    if pubkey.isFullyValid E then some pubkey else none
  else none

/-- The last part of `CompressScript`: a key, if it can be compressed. -/
def compressKey (pubkey : PubKey) : Option (List UInt8) :=
  let x := (pubkey.drop 1).take 32
  if pubkey.getD 0 0 = 0x02 ∨ pubkey.getD 0 0 = 0x03 then some (pubkey.getD 0 0 :: x)
  else if pubkey.getD 0 0 = 0x04 then some ((0x04 ||| (pubkey.getD 64 0 &&& 0x01)) :: x)
  else none

/-- `CompressScript`. -/
def compressScript (script : Script) : Option (List UInt8) :=
  match isToKeyID K script with
  | some keyID => some (0x00 :: keyID)
  | none =>
    match isToScriptID K script with
    | some scriptID => some (0x01 :: scriptID)
    | none =>
      match isToPubKey K E script with
      | some pubkey => compressKey pubkey
      | none => none

/-- `GetSpecialScriptSize`. -/
def getSpecialScriptSize (nSize : ℕ) : ℕ :=
  if nSize = 0 ∨ nSize = 1 then 20
  else if nSize = 2 ∨ nSize = 3 ∨ nSize = 4 ∨ nSize = 5 then 32
  else 0

/-- `DecompressScript`: whether it succeeded, and the script, which it otherwise leaves as it was.
No result if its assertion fails. -/
def decompressScript (script : Script) (nSize : ℕ) (bytes : List UInt8) : Option (Bool × Script) :=
  match nSize with
  | 0 => some (true, [K.opDup, K.opHash160, 20] ++ bytes.take 20 ++ [K.opEqualVerify, K.opCheckSig])
  | 1 => some (true, [K.opHash160, 20] ++ bytes.take 20 ++ [K.opEqual])
  | 2 => some (true, [33, 2] ++ bytes.take 32 ++ [K.opCheckSig])
  | 3 => some (true, [33, 3] ++ bytes.take 32 ++ [K.opCheckSig])
  | 4 => decompressKey 2
  | 5 => decompressKey 3
  | _ => some (false, script)
where
  /-- The cases `0x04` and `0x05`. -/
  decompressKey (header : UInt8) : Option (Bool × Script) :=
    match PubKey.decompress E (PubKey.set (header :: bytes.take 32)) with
    | none => some (false, script)
    | some pubkey =>
      if pubkey.size = 65 then some (true, [65] ++ pubkey.take 65 ++ [K.opCheckSig]) else none

/-- `nSpecialScripts`. -/
def nSpecialScripts : ℕ := 6

/-- `ScriptCompression::Ser`. -/
def serScript (script : Script) : List UInt8 :=
  match compressScript K E script with
  | some compr => compr
  | none => varInt 4 (BitVec.ofNat 32 (script.length + nSpecialScripts)) ++ script

/-- `ScriptCompression::Unser`, into a script that may already hold something. -/
def unserScript (script : Script) : Reader UInt8 Script := do
  let nSize : Unsigned 4 ← readVarInt
  if nSize.toNat < nSpecialScripts then
    let vch ← Reader.take (getSpecialScriptSize nSize.toNat)
    match decompressScript K E script nSize.toNat vch with
    | some (_, script) => pure script
    | none => failure
  else if nSize.toNat - nSpecialScripts > K.maxScriptSize then
    let _ ← Reader.take (nSize.toNat - nSpecialScripts)
    pure (script ++ [K.opReturn])
  else Reader.take (nSize.toNat - nSpecialScripts)

variable {K E}

variable {script : Script} {bytes : List UInt8} {pubkey : PubKey} {s : List UInt8}

theorem reads_special (code : ℕ) {script' : Script} (hcode : code < 6)
    (hlength : bytes.length = getSpecialScriptSize code)
    (h : decompressScript K E script code bytes = some (true, script')) :
    Reads (unserScript K E script) (UInt8.ofNat code :: bytes) script' := by
  have hword : (BitVec.ofNat 32 code).toNat = code := by
    rw [BitVec.toNat_ofNat, Nat.mod_eq_of_lt (by omega)]
  have hbyte : varInt 4 (BitVec.ofNat 32 code) = [UInt8.ofNat code] := by
    rw [varInt_eq, hword, varIntBytes_of_lt (by omega)]
  have hrest := (reads_take bytes).bind
    (f := fun vch => match decompressScript K E script code vch with
      | some (_, script) => pure script
      | none => failure)
    (by rw [h]; exact reads_pure script')
  rw [hlength, append_nil] at hrest
  rw [← singleton_append, ← hbyte]
  refine (reads_varInt 4 (BitVec.ofNat 32 code)).bind ?_
  rw [hword, if_pos (show code < nSpecialScripts from hcode)]
  exact hrest

theorem drop_eq_cons {i : ℕ} {b : UInt8} (hi : i < s.length) (h : s.getD i 0 = b) :
    s.drop i = b :: s.drop (i + 1) := by
  rw [drop_eq_getElem_cons hi, ← h, getD_eq_getElem _ _ hi]

theorem drop_eq_singleton {i : ℕ} {b : UInt8} (hi : s.length = i + 1)
    (h : s.getD i 0 = b) : s.drop i = [b] := by
  rw [drop_eq_cons (by omega) h, drop_eq_nil_of_le (by omega)]

theorem drop_eq_take_append (s : List UInt8) (i k : ℕ) :
    s.drop i = (s.drop i).take k ++ s.drop (i + k) := by
  rw [← drop_drop, take_append_drop]

theorem eq_of_isToKeyID {keyID : List UInt8} (h : isToKeyID K script = some keyID) :
    keyID.length = 20 ∧
      script = [K.opDup, K.opHash160, 20] ++ keyID ++ [K.opEqualVerify, K.opCheckSig] := by
  unfold isToKeyID at h
  split_ifs at h with hif
  obtain ⟨hlength, h0, h1, h2, h23, h24⟩ := hif
  cases h
  refine ⟨by simp [hlength], ?_⟩
  calc script = script.drop 0 := rfl
    _ = [K.opDup, K.opHash160, 20] ++ script.drop 3 := by
      rw [drop_eq_cons (by omega) h0, drop_eq_cons (by omega) h1, drop_eq_cons (by omega) h2]
      rfl
    _ = [K.opDup, K.opHash160, 20] ++ (script.drop 3).take 20 ++ script.drop 23 := by
      rw [append_assoc, ← drop_eq_take_append script 3 20]
    _ = _ := by rw [drop_eq_cons (by omega) h23, drop_eq_singleton hlength h24]

theorem eq_of_isToScriptID {scriptID : List UInt8} (h : isToScriptID K script = some scriptID) :
    scriptID.length = 20 ∧ script = [K.opHash160, 20] ++ scriptID ++ [K.opEqual] := by
  unfold isToScriptID at h
  split_ifs at h with hif
  obtain ⟨hlength, h0, h1, h22⟩ := hif
  cases h
  refine ⟨by simp [hlength], ?_⟩
  calc script = script.drop 0 := rfl
    _ = [K.opHash160, 20] ++ script.drop 2 := by
      rw [drop_eq_cons (by omega) h0, drop_eq_cons (by omega) h1]
      rfl
    _ = [K.opHash160, 20] ++ (script.drop 2).take 20 ++ script.drop 22 := by
      rw [append_assoc, ← drop_eq_take_append script 2 20]
    _ = _ := by rw [drop_eq_singleton hlength h22]

/-- The forms of key that a script can pay to. -/
inductive KeyForm (E : Secp256k1) : PubKey → Prop
  | compressed {header : UInt8} {x : List UInt8} (hheader : header = 2 ∨ header = 3)
      (hx : x.length = 32) : KeyForm E (header :: x)
  | uncompressed {x y : List UInt8} (hx : x.length = 32) (hy : y.length = 32)
      (hvalid : PubKey.isFullyValid E (4 :: (x ++ y)) = true) : KeyForm E (4 :: (x ++ y))

theorem set_cons {header : UInt8}
    (h : PubKey.getLen header = bytes.length + 1) :
      PubKey.set (header :: bytes) = header :: bytes :=
  if_pos ⟨by omega, by rw [h, length_cons]⟩

theorem eq_around_key {k : ℕ} (hlength : script.length = k + 2)
    (h0 : script.getD 0 0 = UInt8.ofNat k) (hlast : script.getD (k + 1) 0 = K.opCheckSig) :
    script = [UInt8.ofNat k] ++ (script.drop 1).take k ++ [K.opCheckSig] := by
  calc script = script.drop 0 := rfl
    _ = [UInt8.ofNat k] ++ script.drop 1 := drop_eq_cons (by omega) h0
    _ = [UInt8.ofNat k] ++ (script.drop 1).take k ++ script.drop (1 + k) := by
      rw [append_assoc, ← drop_eq_take_append script 1 k]
    _ = _ := by rw [Nat.add_comm 1 k, drop_eq_singleton hlength hlast]

theorem eq_of_isToPubKey (h : isToPubKey K E script = some pubkey) :
    KeyForm E pubkey ∧ script = [UInt8.ofNat pubkey.length] ++ pubkey ++ [K.opCheckSig] := by
  unfold isToPubKey at h
  simp only at h
  split_ifs at h with hcompressed huncompressed hvalid
  · obtain ⟨hlength, h0, h34, h1⟩ := hcompressed
    have hkey : (script.drop 1).take 33 = script.getD 1 0 :: (script.drop 2).take 32 := by
      rw [drop_eq_cons (by omega) rfl, take_succ_cons]
    have hx : ((script.drop 2).take 32).length = 32 := by simp [hlength]
    have hset : PubKey.set ((script.drop 1).take 33) = (script.drop 1).take 33 := by
      rw [hkey]
      exact set_cons (by rw [hx, PubKey.getLen, if_pos h1])
    rw [hset, Option.some.injEq] at h
    subst h
    refine ⟨by rw [hkey]; exact .compressed h1 hx, ?_⟩
    have hk : ((script.drop 1).take 33).length = 33 := by simp [hlength]
    rw [hk]
    exact eq_around_key hlength h0 h34
  · obtain ⟨hlength, h0, h66, h1⟩ := huncompressed
    have hkey : (script.drop 1).take 65 =
        4 :: ((script.drop 2).take 32 ++ (script.drop 34).take 32) := by
      rw [drop_eq_cons (by omega) h1, take_succ_cons, take_add (j := 32), drop_drop]
    have hx : ((script.drop 2).take 32).length = 32 := by simp [hlength]
    have hy : ((script.drop 34).take 32).length = 32 := by simp [hlength]
    have hset : PubKey.set ((script.drop 1).take 65) = (script.drop 1).take 65 := by
      rw [hkey]
      exact set_cons (by rw [length_append, hx, hy]; rfl)
    rw [hset] at h hvalid
    rw [Option.some.injEq] at h
    subst h
    have hk : ((script.drop 1).take 65).length = 65 := by simp [hlength]
    refine ⟨?_, by rw [hk]; exact eq_around_key hlength h0 h66⟩
    rw [hkey] at hvalid ⊢
    exact .uncompressed hx hy hvalid

theorem lowBit_eq (b : UInt8) : b &&& 1 = 0 ∨ b &&& 1 = 1 := by
  have hall : ∀ n < 256, UInt8.ofNat n &&& 1 = 0 ∨ UInt8.ofNat n &&& 1 = 1 := by decide +kernel
  have h := hall b.toNat b.toNat_lt
  rwa [UInt8.ofNat_toNat] at h

/-- A valid key is restored from its x coordinate and parity. -/
theorem decompressKey_eq (hE : DecompressUnique E) {x y : List UInt8} {odd : UInt8}
    (hx : x.length = 32) (hy : y.length = 32)
    (hvalid : PubKey.isFullyValid E (4 :: (x ++ y)) = true)
    (hodd : (4 :: (x ++ y)).getD 64 0 &&& 1 = odd) (script : Script) :
    decompressScript.decompressKey K E script x (2 + odd) =
      some (true, [65] ++ (4 :: (x ++ y)) ++ [K.opCheckSig]) := by
  have hbit : odd = 0 ∨ odd = 1 := hodd ▸ lowBit_eq _
  have htake : x.take 32 = x := take_of_length_le (by omega)
  have hlength : (4 :: (x ++ y)).length = 65 := by simp [hx, hy]
  have hset : PubKey.set ((2 + odd) :: x) = (2 + odd) :: x := by
    apply set_cons
    rcases hbit with rfl | rfl <;> rw [hx] <;> rfl
  have hkey : PubKey.decompress E ((2 + odd) :: x) = some (4 :: (x ++ y)) := by
    refine (hE x odd _ hx hbit).2 ⟨hlength, rfl, hvalid, ?_, hodd⟩
    rw [drop_one, tail_cons, take_append_of_le_length (by omega), htake]
  rw [decompressScript.decompressKey, htake, hset, hkey]
  change (if PubKey.getLen 4 = 65 then _ else _) = _
  rw [if_pos (show PubKey.getLen 4 = 65 from rfl), take_of_length_le (by omega)]

theorem reads_compressKey (hE : DecompressUnique E) (hform : KeyForm E pubkey) (script : Script) :
    ∃ compr, compressKey pubkey = some compr ∧ Reads (unserScript K E script) compr
      ([UInt8.ofNat pubkey.length] ++ pubkey ++ [K.opCheckSig]) := by
  cases hform with
  | @compressed header x hheader hx =>
    have htake : x.take 32 = x := take_of_length_le (by omega)
    refine ⟨header :: x, ?_, ?_⟩
    · rw [compressKey, getD_cons_zero, drop_one, tail_cons, htake, if_pos hheader]
    · rw [length_cons, hx]
      rcases hheader with rfl | rfl
      · exact reads_special 2 (by decide) hx (by simp [decompressScript, htake])
      · exact reads_special 3 (by decide) hx (by simp [decompressScript, htake])
  | @uncompressed x y hx hy hvalid =>
    have htake : (x ++ y).take 32 = x := by
      rw [take_append_of_le_length (by omega), take_of_length_le (by omega)]
    have hlength : (4 :: (x ++ y)).length = 65 := by simp [hx, hy]
    have hkey := decompressKey_eq (K := K) hE hx hy hvalid rfl script
    refine ⟨(0x04 ||| ((4 :: (x ++ y)).getD 64 0 &&& 0x01)) :: x, ?_, ?_⟩
    · rw [compressKey, drop_one, tail_cons, htake]
      rfl
    · rw [hlength]
      rcases lowBit_eq ((4 :: (x ++ y)).getD 64 0) with hodd | hodd
      · rw [hodd] at hkey ⊢
        exact reads_special 4 (by decide) hx hkey
      · rw [hodd] at hkey ⊢
        exact reads_special 5 (by decide) hx hkey

/-- **A script is read back from the bytes written for it.** -/
theorem reads_script (hE : DecompressUnique E) (hsize : script.length ≤ K.maxScriptSize)
    (script0 : Script) : Reads (unserScript K E script0) (serScript K E script) script := by
  unfold serScript compressScript
  cases hkeyID : isToKeyID K script with
  | some keyID =>
    obtain ⟨hlength, hscript⟩ := eq_of_isToKeyID hkeyID
    refine reads_special 0 (by decide) hlength ?_
    rw [decompressScript, take_of_length_le (by omega), ← hscript]
  | none =>
    cases hscriptID : isToScriptID K script with
    | some scriptID =>
      obtain ⟨hlength, hscript⟩ := eq_of_isToScriptID hscriptID
      refine reads_special 1 (by decide) hlength ?_
      rw [decompressScript, take_of_length_le (by omega), ← hscript]
    | none =>
      cases hpubkey : isToPubKey K E script with
      | some pubkey =>
        obtain ⟨hform, hscript⟩ := eq_of_isToPubKey hpubkey
        obtain ⟨compr, hcompr, hread⟩ := reads_compressKey hE hform script0
        rw [hscript]
        simp only [hcompr]
        exact hread
      | none =>
        have hmax := K.maxScriptSize_lt
        have hword : (BitVec.ofNat 32 (script.length + nSpecialScripts)).toNat =
            script.length + 6 := by
          rw [BitVec.toNat_ofNat, nSpecialScripts, Nat.mod_eq_of_lt (by omega)]
        refine (reads_varInt 4 (BitVec.ofNat 32 (script.length + nSpecialScripts))).bind ?_
        have hcode : ¬ script.length + 6 < nSpecialScripts := by unfold nSpecialScripts; omega
        have hlength : script.length + 6 - nSpecialScripts = script.length := by
          unfold nSpecialScripts; omega
        rw [hword, if_neg hcode, if_neg (by omega)]
        exact reads_take script

end KPCoin.Compressor
