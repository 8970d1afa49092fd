import KPCoin.MerkleBlock.Nodes

/-!
# Building and extracting a partial tree

`TraverseAndExtract` mirrors `TraverseAndBuild`: on the flags and hashes that were stored for a node
it returns the hash of the node, the matches below it, and stops where the node ends.

* `unserialize_serialize` : a tree that is written and read is the same up to flags that fill the
  last byte;
* `traverseAndExtract_encoding` : the mirror, for every node of a tree without mutation;
* `extractMatches_build` : so the matches of a tree that was built, written and read are those of
  the mask.
-/

namespace KPCoin.MerkleBlock

open Consensus MerkleTree Serialize List Extraction
open Reader (Reads)

/-- The flag at a position of a sequence of bytes. -/
def flagAt (bytes : List UInt8) (p : ℕ) : Bool := (bytes.getD (p / 8) 0).toNat.testBit (p % 8)

theorem bytesToBits_eq (bytes : List UInt8) :
    bytesToBits bytes = (List.range (bytes.length * 8)).map (flagAt bytes) := by
  refine map_congr_left fun p _ => ?_
  rw [flagAt, Nat.shiftLeft_eq, one_mul, Nat.and_two_pow]
  cases (bytes.getD (p / 8) 0).toNat.testBit (p % 8) with
  | false => simp
  | true => simp

theorem testBit_or_flag (x : UInt8) (b : Bool) {i j : ℕ} (hj : j < 8) :
    (x ||| UInt8.ofNat (b.toNat <<< j)).toNat.testBit i =
    (x.toNat.testBit i || b && decide (i = j)) := by
  have hflag : (UInt8.ofNat (b.toNat <<< j)).toNat = b.toNat * 2 ^ j := by
    have hpow : 2 ^ j ≤ 2 ^ 7 := Nat.pow_le_pow_right (by decide) (by omega)
    rw [UInt8.toNat_ofNat']
    cases b with
    | false => simp
    | true => rw [Bool.toNat_true]; omega
  rw [UInt8.toNat_or, hflag]
  cases b with
  | false => simp
  | true => simp [Nat.testBit_two_pow, eq_comm]

theorem flagAt_modify (ret : List UInt8) (b : Bool) {k p : ℕ} (hk : k / 8 < ret.length)
    (hzero : flagAt ret k = false) :
    flagAt (ret.modify (k / 8) (· ||| UInt8.ofNat (b.toNat <<< (k % 8)))) p =
      if p = k then b else flagAt ret p := by
  unfold flagAt at hzero ⊢
  simp only [getD_eq_getElem?_getD, getElem?_modify] at hzero ⊢
  by_cases hbyte : k / 8 = p / 8
  · rw [hbyte] at hk hzero
    simp only [hbyte, if_true, getElem?_eq_getElem hk, Option.map_eq_map, Option.map_some,
      Option.getD_some, testBit_or_flag _ b (Nat.mod_lt k (by decide))]
    by_cases hp : p = k
    · subst hp
      rw [getElem?_eq_getElem hk, Option.getD_some] at hzero
      simp [hzero]
    · have hne : p % 8 ≠ k % 8 := by omega
      simp [hp, hne]
  · have hp : p ≠ k := by rintro rfl; exact hbyte rfl
    simp [hbyte, hp]

theorem flagAt_bitsLoop {n : ℕ} {bits : List Bool} (hlen : bits.length ≤ n * 8) :
    (bits.zipIdx.foldl
      (fun ret b => ret.modify (b.2 / 8) (· ||| UInt8.ofNat (b.1.toNat <<< (b.2 % 8))))
      (List.replicate n 0)).length = n ∧
    ∀ p, flagAt (bits.zipIdx.foldl
      (fun ret b => ret.modify (b.2 / 8) (· ||| UInt8.ofNat (b.1.toNat <<< (b.2 % 8))))
      (List.replicate n 0)) p = bits.getD p false := by
  induction bits using reverseRecOn with
  | nil =>
    refine ⟨by simp, fun p => ?_⟩
    rw [flagAt]
    rcases lt_or_ge (p / 8) n with h | h
    · simp
    · simp
  | append_singleton bits b ih =>
    rw [length_append, length_singleton] at hlen
    obtain ⟨hlength, hflags⟩ := ih (by omega)
    rw [zipIdx_append, foldl_append]
    simp only [zipIdx_cons, zipIdx_nil, foldl_cons, foldl_nil, zero_add]
    refine ⟨by rw [length_modify, hlength], fun p => ?_⟩
    have hzero := hflags bits.length
    rw [getD_eq_default _ _ (le_refl _)] at hzero
    rw [flagAt_modify _ b (by rw [hlength]; omega) hzero, hflags]
    split_ifs with hp
    · simp [hp]
    · rcases lt_or_ge p bits.length with h | h
      · simp [getElem?_append_left h]
      · rw [getD_eq_default _ _ h, getD_eq_default]
        simp
        omega

/-- **Flags survive being packed**, with flags that fill the last byte. -/
theorem bytesToBits_bitsToBytes (bits : List Bool) :
    ∃ pad, bytesToBits (bitsToBytes bits) = bits ++ List.replicate pad false ∧
      (bitsToBytes bits).length = (bits.length + 7) / 8 := by
  obtain ⟨hlength, hflags⟩ := @flagAt_bitsLoop ((bits.length + 7) / 8) bits (by omega)
  refine ⟨(bits.length + 7) / 8 * 8 - bits.length, ?_, hlength⟩
  refine ext_getElem ?_ fun p h1 h2 => ?_
  · rw [bytesToBits_eq, length_map, length_range, length_append, length_replicate]
    rw [show (bitsToBytes bits).length = (bits.length + 7) / 8 from hlength]
    omega
  · simp only [bytesToBits_eq, getElem_map, getElem_range]
    rw [show flagAt (bitsToBytes bits) p = bits.getD p false from hflags p]
    rcases lt_or_ge p bits.length with h | h
    · rw [getElem_append_left h, getD_eq_getElem _ _ h]
    · rw [getElem_append_right h, getElem_replicate, getD_eq_default _ _ h]

theorem unserialize_serialize {t : PartialMerkleTree} (hn : t.nTransactions < 2 ^ 32)
    (hhash : t.vHash.length ≤ maxSize) (hbits : t.vBits.length ≤ maxSize) :
    ∃ pad, (t.vBits.length + pad) = (t.vBits.length + 7) / 8 * 8 ∧ Reads unserialize (serialize t)
      { t with vBits := t.vBits ++ List.replicate pad false, fBad := false } := by
  obtain ⟨pad, hpad, hlength⟩ := bytesToBits_bitsToBytes t.vBits
  have htotal := congrArg length hpad
  rw [bytesToBits_eq, length_map, length_range, hlength, length_append, length_replicate] at htotal
  refine ⟨pad, htotal.symm, ?_⟩
  have hbytes : Reads (readVector readByte) (writeVector (fun b => [b]) (bitsToBytes t.vBits))
      (bitsToBytes t.vBits) := reads_vector (by rw [hlength]; omega) fun b _ => reads_byte b
  have hhashes := reads_vector hhash fun h _ => reads_uint256 h
  refine (reads_int hn).bind (hhashes.bind ?_)
  rw [← hpad]
  exact hbytes.map _

variable (T : TxFns) (vTxid : List Uint256) (vMatch : List Bool)

/-- The positions of the matches below a node. -/
def matchesBelow (height pos : ℕ) : List ℕ :=
  (List.range' (pos * 2 ^ height) (2 ^ height)).filter fun p =>
    decide (p < vTxid.length) && vMatch.getD p false

/-- The flags and hashes that are stored for a node. -/
def encoding : ℕ → ℕ → List Bool × List Uint256
  | 0, pos => ([parentOfMatch vTxid vMatch 0 pos], [calcHash T vTxid 0 pos])
  | height + 1, pos =>
    if parentOfMatch vTxid vMatch (height + 1) pos then
      let l := encoding height (pos * 2)
      let r := if pos * 2 + 1 < calcTreeWidth vTxid.length height then encoding height (pos * 2 + 1)
        else ([], [])
      (true :: (l.1 ++ r.1), l.2 ++ r.2)
    else ([false], [calcHash T vTxid (height + 1) pos])

variable {T vTxid vMatch} {height pos : ℕ} {s : Extraction}

theorem traverseAndBuild_eq (s : List Bool × List Uint256) :
    traverseAndBuild T vTxid vMatch height pos s =
      (s.1 ++ (encoding T vTxid vMatch height pos).1,
        s.2 ++ (encoding T vTxid vMatch height pos).2) := by
  induction height generalizing pos s with
  | zero => rfl
  | succ height ih =>
    obtain ⟨-, -⟩ := s
    rw [traverseAndBuild, encoding]
    cases parentOfMatch vTxid vMatch (height + 1) pos with
    | false => rfl
    | true =>
      simp only [Bool.not_true, Bool.false_eq_true, if_false, if_true, ih]
      split_ifs <;> simp

theorem parentOfMatch_eq : parentOfMatch vTxid vMatch height pos = false ↔
    matchesBelow vTxid vMatch height pos = [] := by
  rw [parentOfMatch, matchesBelow, Nat.shiftLeft_eq, any_eq_false, filter_eq_nil_iff]

theorem matchesBelow_succ : matchesBelow vTxid vMatch (height + 1) pos =
    matchesBelow vTxid vMatch height (pos * 2) ++
      if pos * 2 + 1 < calcTreeWidth vTxid.length height then
        matchesBelow vTxid vMatch height (pos * 2 + 1) else [] := by
  have hsplit : range' (pos * 2 ^ (height + 1)) (2 ^ (height + 1)) =
      range' (pos * 2 * 2 ^ height) (2 ^ height) ++
        range' ((pos * 2 + 1) * 2 ^ height) (2 ^ height) := by
    have hleft : pos * 2 ^ (height + 1) = pos * 2 * 2 ^ height := by
      rw [pow_succ', mul_assoc]
    have hright : (pos * 2 + 1) * 2 ^ height = pos * 2 * 2 ^ height + 2 ^ height := Nat.succ_mul _ _
    have hpow : 2 ^ (height + 1) = 2 ^ height + 2 ^ height := by
      omega
    rw [hleft, hright, range'_append_1, hpow]
  rw [matchesBelow, hsplit, filter_append]
  split_ifs with hright
  · rfl
  · -- all the positions of the second half are beyond the end
    rw [lt_calcTreeWidth] at hright
    refine congrArg _ (filter_eq_nil_iff.2 fun p hp => ?_)
    have hle : vTxid.length ≤ p := le_trans (not_lt.1 hright) (mem_range'_1.1 hp).1
    simp [not_lt.2 hle]

/-- What has been extracted after a node with these matches. -/
def Extraction.advance (vTxid : List Uint256) (s : Extraction) (bits hashes : ℕ) (ms : List ℕ) :
    Extraction where
  nBitsUsed := s.nBitsUsed + bits
  nHashUsed := s.nHashUsed + hashes
  vMatch := s.vMatch ++ ms.map fun p => vTxid.getD p 0
  vnIndex := s.vnIndex ++ ms
  fBad := s.fBad

theorem Extraction.advance_advance (s : Extraction) (b b' h h' : ℕ) (ms ms' : List ℕ) :
    (s.advance vTxid b h ms).advance vTxid b' h' ms' =
      s.advance vTxid (b + b') (h + h') (ms ++ ms') := by
  simp [advance, add_assoc]

theorem prefix_drop_cons {α : Type} {a : α} {l x : List α} {k : ℕ} (h : a :: l <+: x.drop k) :
    x[k]? = some a ∧ l <+: x.drop (k + 1) := by
  obtain ⟨rest, h⟩ := h
  refine ⟨?_, rest, ?_⟩
  · rw [← head?_drop, ← h]
    rfl
  · rw [← tail_drop, ← h]
    rfl

theorem prefix_drop_append {α : Type} {l r x : List α} {k : ℕ} (h : l ++ r <+: x.drop k) :
    l <+: x.drop k ∧ r <+: x.drop (k + l.length) := by
  obtain ⟨rest, h⟩ := h
  refine ⟨⟨r ++ rest, by rw [← h, append_assoc]⟩, rest, ?_⟩
  rw [← drop_drop, ← h, append_assoc, drop_left]

theorem useHash_eq {hash : Uint256} (h : [hash] <+: t.vHash.drop s.nHashUsed) (isMatch : Bool)
    (hpos : isMatch = true → vTxid.getD pos 0 = hash) :
    useHash t isMatch pos { s with nBitsUsed := s.nBitsUsed + 1 } =
      (hash, s.advance vTxid 1 1 (if isMatch then [pos] else [])) := by
  rw [useHash, (prefix_drop_cons h).1]
  cases isMatch with
  | false => simp [advance]
  | true => simp [advance, ← hpos rfl]

section Mirror

variable {t : PartialMerkleTree} (hn : t.nTransactions = vTxid.length) (hne : vTxid ≠ [])
  (hmutated : (computeMerkleRoot T vTxid).2 = false)
include hn hne hmutated

theorem traverseAndExtract_encoding (hheight : height ≤ treeHeight vTxid.length)
    (hpos : pos < calcTreeWidth vTxid.length height)
    (hbits : (encoding T vTxid vMatch height pos).1 <+: t.vBits.drop s.nBitsUsed)
    (hhashes : (encoding T vTxid vMatch height pos).2 <+: t.vHash.drop s.nHashUsed) :
    traverseAndExtract T t height pos s = (calcHash T vTxid height pos,
      s.advance vTxid (encoding T vTxid vMatch height pos).1.length
        (encoding T vTxid vMatch height pos).2.length (matchesBelow vTxid vMatch height pos)) := by
  induction height generalizing pos s with
  | zero =>
    have hmatches : matchesBelow vTxid vMatch 0 pos =
        if parentOfMatch vTxid vMatch 0 pos then [pos] else [] := by
      simp [matchesBelow, parentOfMatch, filter_cons]
    rw [traverseAndExtract, (prefix_drop_cons hbits).1, hmatches]
    exact useHash_eq hhashes _ fun _ => rfl
  | succ height ih =>
    rw [encoding] at hbits hhashes ⊢
    cases hparent : parentOfMatch vTxid vMatch (height + 1) pos with
    | false =>
      simp only [hparent, Bool.false_eq_true, if_false] at hbits hhashes ⊢
      rw [traverseAndExtract, (prefix_drop_cons hbits).1, parentOfMatch_eq.1 hparent]
      exact useHash_eq hhashes false nofun
    | true =>
      simp only [hparent, if_true] at hbits hhashes ⊢
      obtain ⟨hflag, hbits⟩ := prefix_drop_cons hbits
      obtain ⟨hbitsLeft, hbitsRight⟩ := prefix_drop_append hbits
      obtain ⟨hhashesLeft, hhashesRight⟩ := prefix_drop_append hhashes
      have hleft := ih (Nat.le_of_succ_le hheight) (mul_two_lt hpos)
        (s := { s with nBitsUsed := s.nBitsUsed + 1 }) hbitsLeft hhashesLeft
      rw [traverseAndExtract, hflag, calcHash, matchesBelow_succ]
      simp only [hleft, hn]
      by_cases hright : pos * 2 + 1 < calcTreeWidth vTxid.length height
      · simp only [hright, if_true] at hbitsRight hhashesRight ⊢
        rw [ih (Nat.le_of_succ_le hheight) hright hbitsRight hhashesRight]
        -- no mutation, so the two branches differ
        have hdiffer := calcHash_ne hne hmutated hheight hright
        simp only [hdiffer.symm, if_false, advance_advance]
        simp [advance, add_assoc, add_comm]
      · simp only [hright, if_false]
        simp [advance, add_assoc, add_comm]

end Mirror

/-- There is at most one stored hash for each id below a node, and at most one flag for each of the
nodes below it. -/
theorem length_encoding (hpos : pos < calcTreeWidth vTxid.length height) :
    pos * 2 ^ height + (encoding T vTxid vMatch height pos).2.length ≤ vTxid.length ∧
      (encoding T vTxid vMatch height pos).2.length ≤ 2 ^ height ∧
      (encoding T vTxid vMatch height pos).2.length ≤
      (encoding T vTxid vMatch height pos).1.length ∧
      (encoding T vTxid vMatch height pos).1.length < 2 ^ (height + 1) := by
  induction height generalizing pos with
  | zero =>
    rw [lt_calcTreeWidth] at hpos
    simp only [encoding, length_singleton]
    omega
  | succ height ih =>
    have hsplit : pos * 2 * 2 ^ height = pos * 2 ^ (height + 1) := by
      rw [mul_assoc, ← pow_succ']
    have hsplit' : (pos * 2 + 1) * 2 ^ height = pos * 2 ^ (height + 1) + 2 ^ height := by
      rw [Nat.succ_mul, hsplit]
    obtain ⟨hl1, hl2, hl3, hl4⟩ := ih (mul_two_lt hpos)
    rw [encoding]
    split_ifs with hparent hright
    · obtain ⟨hr1, hr2, hr3, hr4⟩ := ih hright
      simp only [length_cons, length_append]
      omega
    · simp only [append_nil, length_cons]
      omega
    · rw [lt_calcTreeWidth] at hpos
      simp only [length_singleton]
      omega

/-- The tree is not much higher than it has to be. -/
theorem two_pow_treeHeight_le (n : ℕ) : 2 ^ treeHeight n ≤ 2 * n + 1 := by
  cases hheight : treeHeight n with
  | zero => simp
  | succ k =>
    have h := lt_calcTreeWidth.1 ((treeHeight_spec n).1 k (by omega))
    omega

/-- The positions of the matches. -/
def matchedPositions (n : ℕ) (vMatch : List Bool) : List ℕ :=
  (List.range n).filter fun p => vMatch.getD p false

theorem matchesBelow_root : matchesBelow vTxid vMatch (treeHeight vTxid.length) 0 =
    matchedPositions vTxid.length vMatch := by
  have hle : vTxid.length ≤ 2 ^ treeHeight vTxid.length := by
    refine not_lt.1 fun hlt => ?_
    have h := lt_calcTreeWidth.2 (show 1 * 2 ^ treeHeight vTxid.length < vTxid.length by omega)
    exact absurd (treeHeight_spec vTxid.length).2 (not_le.2 h)
  obtain ⟨d, hd⟩ := Nat.exists_eq_add_of_le hle
  rw [matchesBelow, zero_mul, ← range_eq_range', hd, range_add, filter_append]
  have hbeyond : ((range d).map (vTxid.length + ·)).filter
      (fun p => decide (p < vTxid.length) && vMatch.getD p false) = [] := by
    refine filter_eq_nil_iff.2 fun p hp => ?_
    obtain ⟨-, -, rfl⟩ := mem_map.1 hp
    simp
  rw [hbeyond, append_nil]
  refine filter_congr fun p hp => ?_
  rw [decide_eq_true (mem_range.1 hp), Bool.true_and]

theorem build_eq : build T vTxid vMatch =
    { nTransactions := vTxid.length,
      vBits := (encoding T vTxid vMatch (treeHeight vTxid.length) 0).1,
      vHash := (encoding T vTxid vMatch (treeHeight vTxid.length) 0).2, fBad := false } := by
  simp [build, traverseAndBuild_eq]

/-- A traversal that uses up a tree of the right size gives the result. -/
theorem extractMatches_eq {root : Uint256} {vnIndex : List ℕ}
    (hn : 0 < t.nTransactions) (hlimit : t.nTransactions ≤ maxTransactions)
    (hhashes : t.vHash.length ≤ t.nTransactions) (hbits : t.vHash.length ≤ t.vBits.length)
    (htraverse : traverseAndExtract T t (treeHeight t.nTransactions) 0 { vnIndex, fBad := t.fBad } =
      (root, s))
    (hgood : s.fBad = false) (hbitsUsed : (s.nBitsUsed + 7) / 8 = (t.vBits.length + 7) / 8)
    (hhashUsed : s.nHashUsed = t.vHash.length) :
    extractMatches T t vnIndex = (root, s.vMatch, s.vnIndex) := by
  simp only [extractMatches, htraverse]
  rw [if_neg (by omega), if_neg (by omega), if_neg (by omega), if_neg (by omega), hgood,
    if_neg Bool.false_ne_true, if_neg (not_not.2 hbitsUsed), if_neg (not_not.2 hhashUsed)]

theorem extractMatches_build (vMatch : List Bool) (hne : vTxid ≠ [])
    (hlimit : vTxid.length ≤ maxTransactions) (hmutated : (computeMerkleRoot T vTxid).2 = false) :
    ∃ t, Reads unserialize (serialize (build T vTxid vMatch)) t ∧
      extractMatches T t [] = ((computeMerkleRoot T vTxid).1,
        (matchedPositions vTxid.length vMatch).map fun p => vTxid.getD p 0,
        matchedPositions vTxid.length vMatch) := by
  have hlength := @length_encoding T vTxid vMatch _ _ (width_treeHeight hne)
  have htraverse := @traverseAndExtract_encoding T vTxid vMatch (treeHeight vTxid.length) 0
  rw [build_eq]
  generalize encoding T vTxid vMatch (treeHeight vTxid.length) 0 = e at hlength htraverse
  obtain ⟨bits, hashes⟩ := e
  dsimp only at hlength htraverse ⊢
  obtain ⟨hhashes, -, hflags, hbits⟩ := hlength
  rw [zero_mul, zero_add] at hhashes
  have hheight := two_pow_treeHeight_le vTxid.length
  have hmax : maxTransactions = 16666 := rfl
  have hsize : maxSize = 33554432 := rfl
  obtain ⟨pad, hpad, hreads⟩ := @unserialize_serialize ⟨vTxid.length, bits, hashes, false⟩
    (by dsimp only; omega) (by dsimp only; omega) (by dsimp only; omega)
  dsimp only at hpad hreads
  refine ⟨_, hreads, ?_⟩
  have hresult := htraverse (t := ⟨vTxid.length, bits ++ replicate pad false, hashes, false⟩) rfl
    hne hmutated (le_refl _) (width_treeHeight hne) (s := { vnIndex := [], fBad := false })
    (prefix_append _ _) prefix_rfl
  rw [calcHash_root hne, matchesBelow_root] at hresult
  have hpos := length_pos_of_ne_nil hne
  have hpadded : (bits ++ replicate pad false).length = (bits.length + 7) / 8 * 8 := by
    rw [length_append, length_replicate, hpad]
  have h := extractMatches_eq hpos hlimit hhashes (by dsimp only; omega) hresult rfl
    (by dsimp only [advance]; omega) (zero_add _)
  simpa [advance] using h

end KPCoin.MerkleBlock
