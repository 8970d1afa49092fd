import KPCoin.MerkleBlock.RoundTrip

/-!
# What a partial tree proves

Whatever flags and hashes a partial tree has: if the root that is extracted from it is the one of a
list of transaction ids, then every match is the id at its position.  The hashes of the nodes that
are visited are determined from the root downwards, if no other pair has the hash of a pair of the
tree.

* `traverseAndExtract_sound` : a node that has the right hash has right matches below it;
* `extractMatches_sound` : so have the matches of a tree with the right root;
* `partialMerkleTree_correct` : partial trees round-trip and are sound.
-/

namespace KPCoin.MerkleBlock

open Consensus MerkleTree Prod

variable {T : TxFns} {t : PartialMerkleTree} {vTxid : List Uint256} {height pos : ℕ}
  {s s' s'' : Extraction} {es es' : List (Uint256 × ℕ)}

/-- The matches `es` are added to what has been extracted. -/
def Adds (s s' : Extraction) (es : List (Uint256 × ℕ)) : Prop :=
  s'.vMatch = s.vMatch ++ es.map fst ∧ s'.vnIndex = s.vnIndex ++ es.map snd

theorem Adds.none (hmatch : s'.vMatch = s.vMatch) (hindex : s'.vnIndex = s.vnIndex) :
    Adds s s' [] := by
  simp [Adds, hmatch, hindex]

theorem Adds.append (h : Adds s s' es) (h' : Adds s' s'' es') : Adds s s'' (es ++ es') := by
  simp [Adds, h.1, h.2, h'.1, h'.2]

/-- A stored hash is a match at most of its own position. -/
theorem useHash_adds (t : PartialMerkleTree) (isMatch : Bool) (pos : ℕ) (s : Extraction) :
    ∃ es, Adds s (useHash t isMatch pos s).2 es ∧
      ∀ e ∈ es, isMatch = true ∧ e = ((useHash t isMatch pos s).1, pos) := by
  unfold useHash
  cases t.vHash[s.nHashUsed]? with
  | none => exact ⟨[], .none rfl rfl, by simp⟩
  | some hash =>
    cases isMatch with
    | false => exact ⟨[], .none rfl rfl, by simp⟩
    | true => exact ⟨[(hash, pos)], ⟨rfl, rfl⟩, by simp⟩

/-- The matches below a node are right if its hash is. -/
def Proves (vTxid : List Uint256) (node : Uint256) (s : Extraction)
    (r : Uint256 × Extraction) : Prop :=
  ∃ es, Adds s r.2 es ∧ (r.1 = node → ∀ e ∈ es, vTxid[e.2]? = some e.1)

theorem proves_of_useHash_false (node : Uint256) {u : Extraction} (hmatch : u.vMatch = s.vMatch)
    (hindex : u.vnIndex = s.vnIndex) : Proves vTxid node s (useHash t false pos u) := by
  obtain ⟨es, hadds, hes⟩ := useHash_adds t false pos u
  refine ⟨es, ?_, fun _ e he => absurd (hes e he).1 Bool.false_ne_true⟩
  simpa [Adds, hmatch, hindex] using hadds

section Sound

variable (hn : t.nTransactions = vTxid.length)
  (hinj : ∀ p q, Hashed T.sha256D64 vTxid q → T.sha256D64 p.1 p.2 = T.sha256D64 q.1 q.2 → p = q)
include hn hinj

theorem traverseAndExtract_sound (hheight : height ≤ treeHeight vTxid.length)
    (hpos : pos < calcTreeWidth vTxid.length height) (s : Extraction) :
    Proves vTxid (calcHash T vTxid height pos) s (traverseAndExtract T t height pos s) := by
  induction height generalizing pos s with
  | zero =>
    rw [traverseAndExtract]
    cases t.vBits[s.nBitsUsed]? with
    | none => exact ⟨[], .none rfl rfl, by simp⟩
    | some fParentOfMatch =>
      obtain ⟨es, hadds, hes⟩ :=
        useHash_adds t fParentOfMatch pos { s with nBitsUsed := s.nBitsUsed + 1 }
      refine ⟨es, hadds, fun hnode e he => ?_⟩
      rw [(hes e he).2]
      exact (@getElem?_level T vTxid 0 pos hpos).trans (congrArg some hnode.symm)
  | succ height ih =>
    rw [traverseAndExtract]
    obtain _ | _ | _ := t.vBits[s.nBitsUsed]?
    · exact ⟨[], .none rfl rfl, by simp⟩
    · exact proves_of_useHash_false _ rfl rfl
    · have hhashed := hashed_children (T := T) hheight hpos
      obtain ⟨es, hadds, hes⟩ := ih (Nat.le_of_succ_le hheight) (mul_two_lt hpos)
        { s with nBitsUsed := s.nBitsUsed + 1 }
      by_cases hright : pos * 2 + 1 < calcTreeWidth vTxid.length height
      · obtain ⟨es', hadds', hes'⟩ := ih (Nat.le_of_succ_le hheight) hright
          (traverseAndExtract T t height (pos * 2) { s with nBitsUsed := s.nBitsUsed + 1 }).2
        simp only [hn, hright, if_true]
        refine ⟨es ++ es', ?_, fun hnode e he => ?_⟩
        · have h := hadds.append hadds'
          split <;> exact h
        · -- the hash of the node determines those of its children
          have hpair := hinj (_, _) _ hhashed hnode
          rw [children, if_pos hright, mk.injEq] at hpair
          rcases List.mem_append.1 he with he | he
          · exact hes hpair.1 e he
          · exact hes' hpair.2 e he
      · simp only [hn, hright, if_false]
        refine ⟨es, hadds, fun hnode => hes ?_⟩
        have hpair := hinj (_, _) _ hhashed hnode
        rw [mk.injEq] at hpair
        exact hpair.1

theorem extractMatches_sound {vnIndex : List ℕ}
    (hroot : (extractMatches T t vnIndex).1 = (computeMerkleRoot T vTxid).1)
    (hnull : (computeMerkleRoot T vTxid).1 ≠ 0) :
    ∃ es : List (Uint256 × ℕ), (extractMatches T t vnIndex).2 =
      (es.map fst, vnIndex ++ es.map snd) ∧ ∀ e ∈ es, vTxid[e.2]? = some e.1 := by
  have hne : vTxid ≠ [] := fun h => hnull (by rw [h]; rfl)
  obtain ⟨es, hadds, hes⟩ := traverseAndExtract_sound hn hinj (le_refl _) (width_treeHeight hne)
    { vnIndex, fBad := t.fBad }
  rw [calcHash_root hne, ← hn] at hes
  rw [← hn] at hadds
  unfold extractMatches at hroot ⊢
  generalize traverseAndExtract T t (treeHeight t.nTransactions) 0 { vnIndex, fBad := t.fBad } = r
    at hadds hes hroot ⊢
  obtain ⟨root, s⟩ := r
  dsimp only at hadds hes hroot ⊢
  -- the root is not null, so all checks have passed
  split_ifs at hroot ⊢
  all_goals first
    | exact absurd hroot.symm hnull
    | exact ⟨es, Prod.ext hadds.1 hadds.2, hes hroot⟩

end Sound

/-- **Partial Merkle trees round-trip and are sound.**  For ids without mutation and any mask, the
tree that is built, written and read yields the root and exactly the matches with their positions.
And any tree object with as many transactions that yields the root, if that is not null, has only
matches that are ids at their positions, if no other pair has the hash of a pair hashed for the
root. -/
theorem partialMerkleTree_correct (T : TxFns) (vTxid : List Uint256) :
    (∀ vMatch, vTxid ≠ [] → vTxid.length ≤ maxTransactions → (computeMerkleRoot T vTxid).2 = false →
      ∃ t, (∀ rest, unserialize.run (serialize (build T vTxid vMatch) ++ rest) = some (t, rest)) ∧
        extractMatches T t [] = ((computeMerkleRoot T vTxid).1,
          (matchedPositions vTxid.length vMatch).map fun p => vTxid.getD p 0,
          matchedPositions vTxid.length vMatch)) ∧
    ((∀ p, ∀ q ∈ merklePairs T vTxid.length vTxid,
        T.sha256D64 p.1 p.2 = T.sha256D64 q.1 q.2 → p = q) →
      ∀ t vnIndex, t.nTransactions = vTxid.length →
        (extractMatches T t vnIndex).1 = (computeMerkleRoot T vTxid).1 →
        (computeMerkleRoot T vTxid).1 ≠ 0 →
        ∃ es : List (Uint256 × ℕ), (extractMatches T t vnIndex).2 =
          (es.map fst, vnIndex ++ es.map snd) ∧ ∀ e ∈ es, vTxid[e.2]? = some e.1) :=
  ⟨extractMatches_build,
    fun hinj _ _ hn hroot hnull => extractMatches_sound hn
      (fun p q hq => hinj p q (mem_merklePairs (le_refl _) hq)) hroot hnull⟩

/-- A pair hash without second preimages for the pairs of three leaves. -/
def threeLeaves : TxFns :=
  { simpleTxFns with
    sha256D64 := fun a b =>
      if (a, b) = (1, 2) then 100 else if (a, b) = (4, 4) then 101
      else if (a, b) = (100, 101) then 102 else 0 }

theorem threeLeaves_inj (p q : Uint256 × Uint256) (hq : q ∈ merklePairs threeLeaves 3 [1, 2, 4])
    (h : threeLeaves.sha256D64 p.1 p.2 = threeLeaves.sha256D64 q.1 q.2) : p = q := by
  have hpairs : merklePairs threeLeaves 3 [1, 2, 4] =
      [(1, 2), (4, 4), (100, 101)] := by decide +kernel
  rw [hpairs] at hq
  simp only [List.mem_cons, List.not_mem_nil, or_false] at hq
  rcases hq with rfl | rfl | rfl <;>
  · simp only [threeLeaves] at h
    split_ifs at h <;> simp_all

/-- The second and third of three transactions are proved to be in a block. -/
theorem partialMerkleTree_three :
    (∃ t, unserialize.run (serialize (build threeLeaves [1, 2, 4] [false, true, true])) =
      some (t, []) ∧ extractMatches threeLeaves t [] = (102, [2, 4], [1, 2])) ∧
    ∃ es : List (Uint256 × ℕ), (extractMatches threeLeaves
        ⟨3, [true, false, true, true], [100, 4], false⟩ [7]).2 =
      (es.map fst, [7] ++ es.map snd) ∧ ∀ e ∈ es, [1, 2, 4][e.2]? = some e.1 := by
  obtain ⟨hcomplete, hsound⟩ := partialMerkleTree_correct threeLeaves [1, 2, 4]
  obtain ⟨t, hread, hextract⟩ :=
    hcomplete [false, true, true] (by simp) (by decide) (by decide +kernel)
  refine ⟨⟨t, ?_, hextract.trans (by decide +kernel)⟩, ?_⟩
  · have h := hread []
    exact h
  · exact hsound threeLeaves_inj _ [7] rfl (by decide +kernel) (by decide +kernel)

end KPCoin.MerkleBlock
