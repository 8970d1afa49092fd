import KPCoin.Pow.RandomX
import KPCoin.Pow.Retarget

/-!
# The RandomX key as a function of the chain

The key of a block is the genesis key in the first epoch of 2048 blocks, and the hash of the last
block of the epoch before after that.  `GetRandomXKey` finds that block by walking back from the
parent; `GetRandomXBlockHash` is given its hash and decides from the height whether to use it.

* `selectKeyBlock_eq` : the walk ends at the last block of the epoch before, never in the fallback;
* `randomXKey_of_chain` : so the key is the same for the blocks of an epoch on one branch, on two
  branches exactly if they share the hash of the key block, and for both functions.
-/

namespace KPCoin.Pow

open List Chain

variable {c c' : Branch} {k : ℕ}

/-- The height of the block after `pindexPrev`. -/
def nextHeight (pindexPrev : Branch) : ℕ := pindexPrev.head?.elim 0 fun b => b.nHeight + 1

theorem nextHeight_eq_length (h : Linked c) : nextHeight c = c.length := by
  cases c with
  | nil => rfl
  | cons b c => exact congrArg (· + 1) h.1

theorem Linked.suffix (h : Linked c') (hc : c <:+ c') : Linked c := by
  induction c' with
  | nil =>
    obtain rfl := suffix_nil.1 hc
    trivial
  | cons b c' ih =>
    rcases suffix_cons_iff.1 hc with rfl | hc
    · exact h
    · exact ih h.2 hc

section

variable (h : Linked c) (hk : k < c.length)
include h hk

theorem walkToKeyBlock_eq : walkToKeyBlock k c = c.drop (c.length - 1 - k) := by
  induction c with
  | nil => simp at hk
  | cons b c ih =>
    rw [length_cons] at hk ⊢
    rw [walkToKeyBlock]
    split_ifs
    · have hlt : k < c.length := by rw [← h.1]; omega
      rw [ih h.2 hlt, show c.length + 1 - 1 - k = c.length - 1 - k + 1 by omega, drop_succ_cons]
    · have heq : c.length + 1 - 1 - k = 0 := by rw [← h.1]; omega
      rw [heq, drop_zero]

theorem getAncestor_eq : getAncestor k c = c.drop (c.length - 1 - k) := by
  induction c with
  | nil => simp at hk
  | cons b c ih =>
    rw [length_cons] at hk ⊢
    have hb := h.1
    rw [getAncestor, if_neg (by omega)]
    split_ifs
    · have hzero : c.length + 1 - 1 - k = 0 := by omega
      rw [hzero, drop_zero]
    · rw [ih h.2 (by omega), show c.length + 1 - 1 - k = c.length - 1 - k + 1 by omega,
        drop_succ_cons]

theorem Linked.head_drop : ∃ b, (c.drop (c.length - 1 - k)).head? = some b ∧ b.nHeight = k := by
  obtain ⟨b, rest, hdrop⟩ := exists_cons_of_ne_nil
    (show c.drop (c.length - 1 - k) ≠ [] by rw [ne_eq, drop_eq_nil_iff]; omega)
  have hlink : Linked (b :: rest) := hdrop ▸ h.suffix (drop_suffix _ _)
  refine ⟨b, by rw [hdrop]; rfl, ?_⟩
  have hlen : (b :: rest).length = c.length - (c.length - 1 - k) := by rw [← hdrop, length_drop]
  rw [hlink.1]
  rw [length_cons] at hlen
  omega

end

theorem getKeyBlockHeight_eq (n : ℕ) :
    getKeyBlockHeight n = if n < 2048 then -1 else ((n / 2048 * 2048 - 1 : ℕ) : ℤ) := by
  have hmod : (n : ℤ).tmod randomxKeyInterval = ((n % 2048) : ℤ) := rfl
  rw [getKeyBlockHeight, hmod]
  simp only [randomxKeyInterval]
  split_ifs <;> omega

theorem selectKeyBlock_eq (h : Linked c) : selectKeyBlock c =
    if nextHeight c < 2048 then none
    else (getAncestor (nextHeight c / 2048 * 2048 - 1 : ℕ) c).head? := by
  have hnext : (c.head?.elim 0 fun b => (b.nHeight : ℤ) + 1) = (nextHeight c) := by
    cases c <;> rfl
  unfold selectKeyBlock
  simp only [hnext, getKeyBlockHeight_eq]
  by_cases hn : nextHeight c < 2048
  · rw [if_pos hn, if_pos hn, if_pos (by decide)]
  · rw [if_neg hn, if_neg hn, if_neg (by omega)]
    have hlen := nextHeight_eq_length h
    have hk : nextHeight c / 2048 * 2048 - 1 < c.length := by omega
    obtain ⟨b, hb, hheight⟩ := h.head_drop hk
    rw [walkToKeyBlock_eq h hk, getAncestor_eq h hk, hb, Option.filter_some, if_pos]
    exact decide_eq_true (congrArg Nat.cast hheight)

theorem exists_keyBlock (h : Linked c) (hn : 2048 ≤ nextHeight c) :
    ∃ b, (getAncestor (nextHeight c / 2048 * 2048 - 1 : ℕ) c).head? = some b ∧
      b.nHeight = nextHeight c / 2048 * 2048 - 1 ∧ selectKeyBlock c = some b := by
  have hlen := nextHeight_eq_length h
  have hk : nextHeight c / 2048 * 2048 - 1 < c.length := by omega
  obtain ⟨b, hb, hheight⟩ := h.head_drop hk
  rw [← getAncestor_eq h hk] at hb
  exact ⟨b, hb, hheight, by rw [selectKeyBlock_eq h, if_neg (by omega), hb]⟩

/-- The blocks of an epoch on one branch have the same key block. -/
theorem selectKeyBlock_suffix (h' : Linked c') (hc : c <:+ c')
    (hepoch : nextHeight c' / 2048 = nextHeight c / 2048) :
      selectKeyBlock c' = selectKeyBlock c := by
  have h := h'.suffix hc
  rw [selectKeyBlock_eq h, selectKeyBlock_eq h', hepoch]
  have hlen := nextHeight_eq_length h
  by_cases hn : nextHeight c < 2048
  · rw [if_pos hn, if_pos (by omega)]
  · obtain ⟨rest, rfl⟩ := hc
    rw [if_neg hn, if_neg (by omega), getAncestor_eq h (by omega),
      getAncestor_eq h' (by rw [length_append]; omega), length_append,
      show rest.length + c.length - 1 - (nextHeight c / 2048 * 2048 - 1) =
        rest.length + (c.length - 1 - (nextHeight c / 2048 * 2048 - 1)) by omega,
      drop_length_add_append]

theorem uint256Bytes_injective : Function.Injective uint256Bytes := by
  intro a b hab
  have hbyte : ∀ i < 32, a.toNat / 2 ^ (8 * i) % 2 ^ 8 = b.toNat / 2 ^ (8 * i) % 2 ^ 8 := by
    intro i hi
    have h := map_inj_left.1 hab i (mem_range.2 hi)
    have hnat := congrArg UInt8.toNat h
    rwa [UInt8.toNat_ofNat', UInt8.toNat_ofNat', BitVec.toNat_ushiftRight, BitVec.toNat_ushiftRight,
      Nat.shiftRight_eq_div_pow, Nat.shiftRight_eq_div_pow] at hnat
  refine BitVec.eq_of_getLsbD_eq fun j hj => ?_
  -- digit `j` is a digit of byte `j / 8`
  have hdigit : ∀ x : Uint256, x.getLsbD j =
      (x.toNat / 2 ^ (8 * (j / 8)) % 2 ^ 8).testBit (j % 8) := by
    intro x
    rw [Nat.testBit_mod_two_pow, Nat.testBit_div_two_pow, decide_eq_true (by omega)]
    congr 1
    omega
  rw [hdigit, hdigit, hbyte _ (by omega)]

/-- **The RandomX key is a function of the chain.**  For every linked branch: the genesis key in the
first epoch, and after it the hash of the ancestor at the end of the epoch before; the same key for
all blocks of an epoch on the branch, and on another branch exactly if the key blocks have the same
hash; and the same key in `GetRandomXBlockHash`. -/
theorem randomXKey_of_chain (H : HeaderFns) (rx : RandomXHash) (c : Branch) (h : Linked c) :
    (nextHeight c < 2048 → getRandomXKey c = (randomxGenesisKey, -1)) ∧
    (2048 ≤ nextHeight c →
      ∃ b, (getAncestor (nextHeight c / 2048 * 2048 - 1 : ℕ) c).head? = some b ∧
      getRandomXKey c = (uint256Bytes b.hash, ((nextHeight c / 2048 * 2048 - 1 : ℕ) : ℤ))) ∧
    (∀ c', Linked c' → c <:+ c' → nextHeight c' / 2048 = nextHeight c / 2048 →
      getRandomXKey c' = getRandomXKey c) ∧
    (∀ c' b b', Linked c' → nextHeight c' / 2048 = nextHeight c / 2048 →
      (getAncestor (nextHeight c / 2048 * 2048 - 1 : ℕ) c).head? = some b →
      (getAncestor (nextHeight c' / 2048 * 2048 - 1 : ℕ) c').head? = some b' →
      2048 ≤ nextHeight c → (getRandomXKey c = getRandomXKey c' ↔ b.hash = b'.hash)) ∧
    ∀ header keyHash, (2048 ≤ nextHeight c →
        ∃ b, (getAncestor (nextHeight c / 2048 * 2048 - 1 : ℕ) c).head? = some b ∧
        keyHash = b.hash) →
      getRandomXBlockHash H rx header (nextHeight c) keyHash =
        rx (H.serialize header) (getRandomXKey c).1 := by
  have hgenesis : nextHeight c < 2048 → getRandomXKey c = (randomxGenesisKey, -1) := by
    intro hn
    rw [getRandomXKey, selectKeyBlock_eq h, if_pos hn]
  have hkey : ∀ c b, Linked c → 2048 ≤ nextHeight c →
      (getAncestor (nextHeight c / 2048 * 2048 - 1 : ℕ) c).head? = some b →
      getRandomXKey c = (uint256Bytes b.hash, ((nextHeight c / 2048 * 2048 - 1 : ℕ) : ℤ)) := by
    intro c b h hn hb
    obtain ⟨b', hb', hheight, hselect⟩ := exists_keyBlock h hn
    obtain rfl := Option.mem_unique hb hb'
    rw [getRandomXKey, hselect, ← hheight]
  refine ⟨hgenesis, fun hn => ?_, fun c' h' hc hepoch => ?_, fun c' b b' h' hepoch hb hb' hn => ?_,
    fun header keyHash hhash => ?_⟩
  · obtain ⟨b, hb, -⟩ := exists_keyBlock h hn
    exact ⟨b, hb, hkey c b h hn hb⟩
  · rw [getRandomXKey, getRandomXKey, selectKeyBlock_suffix h' hc hepoch]
  · rw [hkey c b h hn hb, hkey c' b' h' (by omega) hb', hepoch, Prod.mk_inj]
    exact ⟨fun heq => uint256Bytes_injective heq.1, fun heq => ⟨congrArg _ heq, rfl⟩⟩
  · rw [getRandomXBlockHash, getKeyBlockHeight_eq]
    by_cases hn : nextHeight c < 2048
    · rw [if_pos hn, hgenesis hn]
      rfl
    · obtain ⟨b, hb, rfl⟩ := hhash (not_lt.1 hn)
      rw [if_neg hn, hkey c b h (not_lt.1 hn) hb]
      have hnonneg : ¬ ((nextHeight c / 2048 * 2048 - 1 : ℕ) : ℤ) < 0 := by omega
      simp [hnonneg]

/-- A chain of `n` blocks, each with its height as hash and time. -/
def numberedChain : ℕ → Branch
  | 0 => []
  | n + 1 => { hash := BitVec.ofNat 256 n, nHeight := n, nTime := n, nBits := 0 } :: numberedChain n

theorem linked_numberedChain (n : ℕ) : Linked (numberedChain n) ∧ (numberedChain n).length = n := by
  induction n with
  | zero => exact ⟨trivial, rfl⟩
  | succ n ih => exact ⟨⟨ih.2.symm, ih.1⟩, congrArg (· + 1) ih.2⟩

/-- A RandomX that sums up the bytes of the key. -/
def sumOfKey : RandomXHash := fun _ key => BitVec.ofNat 256 (key.map UInt8.toNat).sum

/-- Headers without content. -/
def emptyHeader : HeaderFns := ⟨fun _ => 0, fun _ => []⟩

/-- The first blocks of the second epoch have the hash of block 2047 as key, in both functions. -/
theorem randomXKey_second_epoch :
    getRandomXKey (numberedChain 2048) = (uint256Bytes 2047, 2047) ∧
      getRandomXKey (numberedChain 2049) = getRandomXKey (numberedChain 2048) ∧
      getRandomXBlockHash emptyHeader sumOfKey ⟨1, 0, 0, 0, 0, 0⟩ 2048 2047 =
        sumOfKey [] (getRandomXKey (numberedChain 2048)).1 := by
  obtain ⟨hlink, -⟩ := linked_numberedChain 2048
  obtain ⟨hlink', -⟩ := linked_numberedChain 2049
  have hnext : nextHeight (numberedChain 2048) = 2048 := rfl
  have hnext' : nextHeight (numberedChain 2049) = 2049 := rfl
  obtain ⟨-, hkey, hsame, -, hhash⟩ :=
    randomXKey_of_chain emptyHeader sumOfKey (numberedChain 2048) hlink
  rw [hnext] at hkey hsame hhash
  obtain ⟨b, hb, hkey⟩ := hkey le_rfl
  have hblock : b.hash = 2047 := by
    cases hb
    rfl
  refine ⟨?_, ?_, ?_⟩
  · rw [hkey, hblock]
    rfl
  · exact hsame _ hlink' (suffix_cons _ _) (by rw [hnext'])
  · exact hhash ⟨1, 0, 0, 0, 0, 0⟩ 2047 fun _ => ⟨b, hb, hblock.symm⟩

end KPCoin.Pow
