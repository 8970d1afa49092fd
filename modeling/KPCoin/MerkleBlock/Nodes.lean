import KPCoin.Consensus.MerkleCommit
import KPCoin.MerkleBlock.PartialTree

/-!
# The nodes of the tree

The nodes that a partial tree visits are those that `ComputeMerkleRoot` goes through: `CalcHash` at
a height and a position is an entry of that level of the tree (`getElem?_level`), the number of
entries is `CalcTreeWidth`, and the node at the height of the tree is the root (`calcHash_root`).
-/

namespace KPCoin.MerkleBlock

open Consensus MerkleTree

variable {T : TxFns} {vTxid : List Uint256} {n height pos : ℕ}

theorem calcTreeWidth_eq (n height : ℕ) :
    calcTreeWidth n height = (n + 2 ^ height - 1) / 2 ^ height := by
  rw [calcTreeWidth, Nat.shiftLeft_eq, Nat.one_mul, Nat.shiftRight_eq_div_pow]

theorem lt_calcTreeWidth : pos < calcTreeWidth n height ↔ pos * 2 ^ height < n := by
  have hpos := Nat.two_pow_pos height
  rw [calcTreeWidth_eq, ← Nat.succ_le_iff, Nat.le_div_iff_mul_le hpos, Nat.succ_mul]
  omega

theorem length_level_eq :
    (level T.sha256D64 vTxid height).length = calcTreeWidth vTxid.length height := by
  rw [length_level, calcTreeWidth_eq]

theorem heightLoop_spec {rounds k : ℕ} (hbelow : ∀ j < k, 1 < calcTreeWidth n j)
    (henough : calcTreeWidth n (k + rounds) ≤ 1) :
    (∀ j < heightLoop n rounds k, 1 < calcTreeWidth n j) ∧
      calcTreeWidth n (heightLoop n rounds k) ≤ 1 := by
  induction rounds generalizing k with
  | zero => exact ⟨hbelow, henough⟩
  | succ rounds ih =>
    rw [heightLoop]
    split_ifs with hwidth
    · refine ih (fun j hj => ?_) (by rwa [Nat.add_right_comm, Nat.add_assoc])
      rcases Nat.lt_succ_iff_lt_or_eq.1 hj with hj | rfl
      · exact hbelow j hj
      · exact hwidth
    · exact ⟨hbelow, Nat.not_lt.1 hwidth⟩

theorem treeHeight_spec (n : ℕ) :
    (∀ j < treeHeight n, 1 < calcTreeWidth n j) ∧ calcTreeWidth n (treeHeight n) ≤ 1 := by
  refine heightLoop_spec (fun j hj => absurd hj (Nat.not_lt_zero j)) ?_
  refine Nat.not_lt.1 fun hlt => ?_
  have h := lt_calcTreeWidth.1 hlt
  have hpow : n < 2 ^ n := Nat.lt_two_pow_self
  rw [Nat.zero_add] at h
  omega

/-- The children of a node; a single child stands for both. -/
def children (T : TxFns) (vTxid : List Uint256) (height pos : ℕ) : Uint256 × Uint256 :=
  (calcHash T vTxid height (pos * 2),
    if pos * 2 + 1 < calcTreeWidth vTxid.length height then calcHash T vTxid height (pos * 2 + 1)
    else calcHash T vTxid height (pos * 2))

theorem mul_two_lt (hpos : pos < calcTreeWidth n (height + 1)) :
    pos * 2 < calcTreeWidth n height := by
  rw [lt_calcTreeWidth] at hpos ⊢
  rwa [Nat.mul_assoc, ← Nat.pow_succ']

theorem getElem?_pairs_of_level (hlevel : ∀ pos < calcTreeWidth vTxid.length height,
      (level T.sha256D64 vTxid height)[pos]? = some (calcHash T vTxid height pos))
    (hpos : pos < calcTreeWidth vTxid.length (height + 1)) :
    (pairs (level T.sha256D64 vTxid height))[pos]? = some (children T vTxid height pos) := by
  rw [getElem?_pairs, Nat.mul_comm 2 pos, hlevel _ (mul_two_lt hpos), children]
  split_ifs with hright
  · rw [hlevel _ hright]
    rfl
  · rw [List.getElem?_eq_none (by rw [length_level_eq]; omega)]
    rfl

theorem getElem?_level (hpos : pos < calcTreeWidth vTxid.length height) :
    (level T.sha256D64 vTxid height)[pos]? = some (calcHash T vTxid height pos) := by
  induction height generalizing pos with
  | zero =>
    rw [level, calcHash, List.getD_eq_getElem?_getD, List.getElem?_eq_getElem hpos]
    rfl
  | succ height ih =>
    rw [level, up, List.getElem?_map, getElem?_pairs_of_level (fun _ => ih) hpos]
    rfl

theorem above_level_of_le (hle : height ≤ treeHeight vTxid.length) :
    Above T.sha256D64 vTxid (level T.sha256D64 vTxid height) := by
  refine above_level fun k hk => ?_
  rw [length_level_eq]
  exact (treeHeight_spec _).1 k (by omega)

theorem hashed_children (hheight : height < treeHeight vTxid.length)
    (hpos : pos < calcTreeWidth vTxid.length (height + 1)) :
    Hashed T.sha256D64 vTxid (children T vTxid height pos) := by
  refine ⟨_, above_level_of_le (Nat.le_of_lt hheight), ?_,
    List.mem_of_getElem? (getElem?_pairs_of_level (fun _ => getElem?_level) hpos)⟩
  rw [length_level_eq]
  exact (treeHeight_spec _).1 height hheight

theorem width_treeHeight (hne : vTxid ≠ []) :
    0 < calcTreeWidth vTxid.length (treeHeight vTxid.length) := by
  rw [lt_calcTreeWidth, Nat.zero_mul]
  exact List.length_pos_of_ne_nil hne

/-- **The top node is the root.** -/
theorem calcHash_root (hne : vTxid ≠ []) :
    calcHash T vTxid (treeHeight vTxid.length) 0 = (computeMerkleRoot T vTxid).1 := by
  obtain ⟨habove, -⟩ := computeMerkleRoot_spec hne
  have hlen : (level T.sha256D64 vTxid (treeHeight vTxid.length)).length < 2 := by
    rw [length_level_eq]
    have := (treeHeight_spec vTxid.length).2
    omega
  have htop := getElem?_level (T := T) (width_treeHeight hne)
  rw [(above_level_of_le (Nat.le_refl _)).unique habove hlen (by simp)] at htop
  exact (Option.some.inj htop).symm

/-- Two entries that are paired in a level without twins differ. -/
theorem ne_of_noTwins : {l : List Uint256} → {i : ℕ} → {a b : Uint256} → NoTwins l →
    l[2 * i]? = some a → l[2 * i + 1]? = some b → a ≠ b
  | [], _, _, _, _, ha, _ => by simp at ha
  | [_], i, _, _, _, _, hb => by simp at hb
  | _ :: _ :: _, 0, _, _, h, ha, hb => by
    cases ha
    cases hb
    exact h.1
  | _ :: _ :: rest, i + 1, _, _, h, ha, hb => ne_of_noTwins h.2 ha hb

theorem calcHash_ne (hne : vTxid ≠ []) (hmutated : (computeMerkleRoot T vTxid).2 = false)
    (hheight : height < treeHeight vTxid.length)
    (hpos : pos * 2 + 1 < calcTreeWidth vTxid.length height) :
    calcHash T vTxid height (pos * 2) ≠ calcHash T vTxid height (pos * 2 + 1) := by
  have hplain :=
    (computeMerkleRoot_spec hne).2 hmutated _ (above_level_of_le (Nat.le_of_lt hheight))
  refine ne_of_noTwins (i := pos) hplain ?_ ?_
  · rw [Nat.mul_comm]
    exact getElem?_level (by omega)
  · rw [Nat.mul_comm]
    exact getElem?_level hpos

end KPCoin.MerkleBlock
