import KPCoin.CoinStats.Branch
import KPCoin.Validation.Subsidy

/-!
# The index across reorganisations

Blocks of a tree are appended and rewound in any order that follows its branches (`Follows`).  The
running values are always those of the current branch, so every `ReverseBlock` finds in the database
exactly what it computes (`reverseBlock_eq`).  The database keeps a record of every block that was
ever appended (`Inv`): blocks of the current branch are found by height, and a block that left it
was copied to the hash index when it was rewound, before its height could be written again.

`coinStats_across_reorgs` is the result: no call fails, and `LookUpStats` answers for every block
ever appended with the statistics of the coins that its own branch leaves.
-/

namespace KPCoin.CoinStats

open List Validation

/-- The calls made on the index. -/
inductive Call where
  | append (block : StoredBlock)
  | rewind (newTip : Branch)

/-- The calls follow branches of the tree from the genesis block on.  They lead to the branch `tip`,
having appended the blocks `appended`. -/
inductive Follows (tree : Set Branch) : List Call → Branch → List Branch → Prop
  | start : Follows tree [] [] []
  | append {calls : List Call} {tip : Branch} {appended : List Branch} {b : StoredBlock} :
      Follows tree calls tip appended → b :: tip ∈ tree →
      Follows tree (calls ++ [.append b]) (b :: tip) ((b :: tip) :: appended)
  | rewind {calls : List Call} {tip newTip : Branch} {appended : List Branch} :
      Follows tree calls tip appended → newTip <:+ tip → newTip ≠ tip → newTip ≠ [] →
      Follows tree (calls ++ [.rewind newTip]) newTip appended

variable {p : ℕ} (F : StatsFns p) (P : Params)

/-- One call, with the branch that the index is at. -/
def Call.exec (x : Index p × Branch) : Call → Except Fault (Index p × Branch)
  | .append b => do return (← customAppend F P x.1 b x.2, b :: x.2)
  | .rewind newTip => do return (← customRewind F P x.1 x.2 newTip, newTip)

/-- A tree of valid blocks, known by their hashes. -/
structure ValidTree (tree : Set Branch) : Prop where
  /-- A hash belongs to one block. -/
  hash_inj : ∀ {b c b' c'}, b :: c ∈ tree → b' :: c' ∈ tree → b.hash = b'.hash → b :: c = b' :: c'
  notBIP30 : ∀ {b c}, b :: c ∈ tree → isBIP30Unspendable c.length b.hash = false
  valid : ∀ {c}, c ∈ tree → ∃ m, Unspent F.toTxFns c m
  nonZero : ∀ {c}, c ∈ tree → NonZero F c

variable {F P} {tree : Set Branch} {s : Index p} {b parent : StoredBlock} {c tip : Branch}
  {newTip : Branch}

/-- The record of the parent is where `CustomAppend` and `ReverseBlock` look for it. -/
theorem readPrevious_eq {val : DBVal}
    (h : s.heightIndex.lookup c.length = some (parent.hash, val)) :
    readPrevious s (c.length + 1) parent.hash = .ok val := by
  simp [readPrevious, h]

theorem divide_one (a : ZMod p) : divide a 1 = a := by
  simp [divide, getInverse]

/-- A block of a valid tree after the genesis block is well formed. -/
theorem ValidTree.wellFormed (ht : ValidTree F tree) (hb : b :: parent :: c ∈ tree) :
    b.WellFormed F.toTxFns := by
  obtain ⟨m, hm⟩ := ht.valid hb
  cases hm with
  | block _ hwf _ => exact hwf

theorem customAppend_eq (ht : ValidTree F tree) (hb : b :: c ∈ tree)
    (hrun : s.running = runningAt F P c)
    (hprev : ∀ parent c', c = parent :: c' →
      s.heightIndex.lookup c'.length = some (parent.hash, recordAt F P c)) :
    customAppend F P s b c = .ok { s with
      running := runningAt F P (b :: c)
      heightIndex := s.heightIndex.insert c.length (b.hash, recordAt F P (b :: c)) } := by
  cases c with
  | nil =>
    have htotals :
        (((runningAt F P []).totals.add .totalSubsidy (getBlockSubsidy 0 P)).addUnspendable
        .totalUnspendablesGenesisBlock (getBlockSubsidy 0 P)).settle = tally F P [b] := by
      simp only [runningAt, tally, Totals.add, Totals.addUnspendable, add_assoc]
      rfl
    simp only [customAppend, hrun, length_nil, pure_bind, recordAt, ← htotals]
    simp only [runningAt, muOf, MuHash3072.finalize, divide_one, ← htotals]
    rfl
  | cons parent c =>
    have hbip : isBIP30Unspendable (c.length + 1) b.hash = false := ht.notBIP30 hb
    simp only [customAppend, length_cons, readPrevious_eq (hprev parent c rfl), hrun,
      appendTxs_eq (ht.wellFormed hb) hbip, Running.shift, runningAt, one_mul]
    rfl

theorem reverseBlock_eq [Fact p.Prime] (ht : ValidTree F tree) (hb : b :: parent :: c ∈ tree)
    (hrun : s.running = runningAt F P (b :: parent :: c))
    (hprev : s.heightIndex.lookup c.length = some (parent.hash, recordAt F P (parent :: c))) :
    reverseBlock F P s b (parent :: c) = .ok { s with running := runningAt F P (parent :: c) } := by
  obtain ⟨m, hm⟩ := ht.valid hb
  have hspent := (ht.nonZero hb).blockSpent_ne_zero hm
  have hcreated := (ht.nonZero hb).blockCreated_ne_zero
  -- multiplying by the coins spent and dividing by those created leads back
  have hmu : divide (muOf F (b :: parent :: c) * blockSpent F b) (blockCreated F (c.length + 1) b) =
      muOf F (parent :: c) := by
    refine divide_eq_of_mul_eq hcreated ?_
    rw [muOf, divide_mul hspent]
  have htotals : ((tally F P (b :: parent :: c)).sub .totalSubsidy
      (getBlockSubsidy (parent :: c).length P) + -blockTotals F b) = (tally F P (parent :: c) +
        (Pi.single Stat.totalSubsidy (getBlockSubsidy (parent :: c).length P) +
          blockTotals F b)).settle -
      (Pi.single Stat.totalSubsidy (getBlockSubsidy (parent :: c).length P) + blockTotals F b) := by
    rw [Totals.sub, ← add_assoc, ← sub_eq_add_neg, sub_sub]
    rfl
  have hback := unsettle (unclaimed_tally (parent :: c)) htotals
  simp only [reverseBlock, readPrevious_eq hprev, hrun, reverseTxs_eq (ht.wellFormed hb),
    Running.shift, runningAt, MuHash3072.finalize, one_mul, length_cons, bind,
    Except.bind] at hback ⊢
  simp only [hmu, hback, recordAt, and_self, if_true]
  rfl

/-- The height index has the records of the blocks of a branch. -/
def OnBranch (F : StatsFns p) (P : Params) (s : Index p) (tip : Branch) : Prop :=
  ∀ b c, b :: c <:+ tip → s.heightIndex.lookup c.length = some (b.hash, recordAt F P (b :: c))

theorem reverseTo_eq [Fact p.Prime] (ht : ValidTree F tree) (hne : newTip ≠ [])
    (htree : ∀ c, c <:+ tip → c ≠ [] → c ∈ tree) (hon : OnBranch F P s tip)
    (hrun : s.running = runningAt F P tip) (hsuf : newTip <:+ tip) (hlt : newTip ≠ tip) :
    reverseTo F P newTip tip s = .ok { s with running := runningAt F P newTip } := by
  induction tip generalizing s with
  | nil => exact absurd (suffix_nil.1 hsuf) hlt
  | cons b prev ih =>
    have hprev : newTip <:+ prev := (suffix_cons_iff.1 hsuf).resolve_left hlt
    obtain ⟨parent, c, rfl⟩ : ∃ parent c, prev = parent :: c := by
      refine exists_cons_of_ne_nil fun h => hne ?_
      rw [h] at hprev
      exact suffix_nil.1 hprev
    have hrev := reverseBlock_eq ht (htree _ suffix_rfl (by simp)) hrun
      (hon parent c (suffix_cons _ _))
    rw [reverseTo, hrev]
    by_cases heq : parent :: c = newTip
    · exact (if_pos heq).trans (heq ▸ rfl)
    · refine (if_neg heq).trans ?_
      exact @ih { s with running := runningAt F P (parent :: c) }
        (fun c hc => htree c (hc.trans (suffix_cons _ _)))
        (fun b' c' hc => hon b' c' (hc.trans (suffix_cons _ _))) rfl hprev (Ne.symm heq)

/-- The index is at the branch `tip` and has a record of every block in `appended`. -/
structure Inv (F : StatsFns p) (P : Params) (tree : Set Branch) (s : Index p) (tip : Branch)
    (appended : List Branch) : Prop where
  running : s.running = runningAt F P tip
  onTip : OnBranch F P s tip
  mem_tree : ∀ c ∈ appended, c ∈ tree
  tip_appended : ∀ c, c <:+ tip → c ≠ [] → c ∈ appended
  /-- Whatever is stored under a height is the record of the block with the hash beside it. -/
  heights : ∀ h hash val, s.heightIndex.lookup h = some (hash, val) →
    ∃ b c, b :: c ∈ appended ∧ hash = b.hash ∧ val = recordAt F P (b :: c)
  /-- Whatever is stored under a hash is the record of the block with this hash. -/
  hashes : ∀ hash val, s.hashIndex.lookup hash = some val →
    ∃ b c, b :: c ∈ appended ∧ hash = b.hash ∧ val = recordAt F P (b :: c)
  present : ∀ b c, b :: c ∈ appended → (s.heightIndex.lookup c.length).isSome = true
  /-- A block that is not on the current branch is in the hash index. -/
  kept : ∀ b c, b :: c ∈ appended → b :: c <:+ tip ∨ (s.hashIndex.lookup b.hash).isSome = true

variable {appended : List Branch} {calls : List Call}

theorem inv_start : Inv F P tree ({} : Index p) [] [] where
  running := by simp [runningAt, muOf, tally]
  onTip b c h := absurd (suffix_nil.1 h) (by simp)
  mem_tree := by simp
  tip_appended c h hne := absurd (suffix_nil.1 h) hne
  heights h hash val hl := by simp at hl
  hashes hash val hl := by simp at hl
  present := by simp
  kept := by simp

/-- Every block ever appended is found, with its record. -/
theorem Inv.lookUpOne_eq (hi : Inv F P tree s tip appended) (ht : ValidTree F tree)
    (hb : b :: c ∈ appended) : lookUpOne s b.hash c.length = some (recordAt F P (b :: c)) := by
  have hsame : ∀ {b' c'}, b' :: c' ∈ appended → b.hash = b'.hash → b :: c = b' :: c' :=
    fun hb' h => ht.hash_inj (hi.mem_tree _ hb) (hi.mem_tree _ hb') h
  obtain ⟨⟨hash, val⟩, hl⟩ := Option.isSome_iff_exists.1 (hi.present b c hb)
  simp only [lookUpOne, hl]
  split_ifs with hh
  · obtain ⟨b', c', hb', hhash, rfl⟩ := hi.heights _ _ _ hl
    rw [hsame hb' (hh.symm.trans hhash)]
  · -- not on the current branch, as its height belongs to another block
    have hoff : ¬ b :: c <:+ tip := fun hon => by
      rw [hi.onTip b c hon] at hl
      cases hl
      exact hh rfl
    obtain ⟨val', hl'⟩ := Option.isSome_iff_exists.1 ((hi.kept b c hb).resolve_left hoff)
    obtain ⟨b', c', hb', hhash, rfl⟩ := hi.hashes _ _ hl'
    rw [hl', hsame hb' hhash]

theorem Inv.append (hi : Inv F P tree s tip appended) (hb : b :: tip ∈ tree) :
    Inv F P tree { s with
      running := runningAt F P (b :: tip)
      heightIndex := s.heightIndex.insert tip.length (b.hash, recordAt F P (b :: tip)) }
      (b :: tip) ((b :: tip) :: appended) where
  running := rfl
  onTip b' c' h := by
    rw [Map.lookup_insert_eq_ite]
    rcases suffix_cons_iff.1 h with heq | hsuf
    · obtain ⟨rfl, rfl⟩ := cons.inj heq
      exact if_pos rfl
    · have hlt : c'.length ≠ tip.length := by
        have := hsuf.length_le
        simp only [length_cons] at this
        omega
      rw [if_neg hlt]
      exact hi.onTip b' c' hsuf
  mem_tree := by
    intro c hc
    rcases mem_cons.1 hc with rfl | hc
    · exact hb
    · exact hi.mem_tree c hc
  tip_appended c h hne := by
    rcases suffix_cons_iff.1 h with rfl | hsuf
    · exact mem_cons_self
    · exact mem_cons_of_mem _ (hi.tip_appended c hsuf hne)
  heights h hash val hl := by
    rw [Map.lookup_insert_eq_ite] at hl
    split_ifs at hl
    · cases hl
      exact ⟨b, tip, mem_cons_self, rfl, rfl⟩
    · obtain ⟨b', c', hb', rest⟩ := hi.heights h hash val hl
      exact ⟨b', c', mem_cons_of_mem _ hb', rest⟩
  hashes hash val hl := by
    obtain ⟨b', c', hb', rest⟩ := hi.hashes hash val hl
    exact ⟨b', c', mem_cons_of_mem _ hb', rest⟩
  present b' c' h := by
    rw [Map.lookup_insert_eq_ite]
    split_ifs with hlen
    · rfl
    · rcases mem_cons.1 h with heq | h
      · exact absurd (congrArg length (cons.inj heq).2) hlen
      · exact hi.present b' c' h
  kept b' c' h := by
    rcases mem_cons.1 h with heq | h
    · exact Or.inl (heq ▸ suffix_rfl)
    · exact (hi.kept b' c' h).imp (fun hsuf => hsuf.trans (suffix_cons _ _)) id

/-- What `CopyHeightIndexToHashIndex` adds to the hash index: records of the blocks of the branch,
among them those of the heights that it goes through. -/
structure Copied (F : StatsFns p) (P : Params) (tip : Branch) (start n : ℕ)
    (old new : Map Uint256 DBVal) : Prop where
  from_tip : ∀ hash val, new.lookup hash = some val → old.lookup hash = some val ∨
    ∃ b c, b :: c <:+ tip ∧ hash = b.hash ∧ val = recordAt F P (b :: c)
  old_mem : ∀ hash, (old.lookup hash).isSome = true → (new.lookup hash).isSome = true
  tip_mem : ∀ b c, b :: c <:+ tip → start ≤ c.length → c.length < start + n →
    (new.lookup b.hash).isSome = true

theorem exists_suffix {h : ℕ} (hh : h < tip.length) : ∃ b c, b :: c <:+ tip ∧ c.length = h := by
  have hlen : (tip.drop (tip.length - 1 - h)).length = h + 1 := by
    rw [length_drop]; omega
  obtain ⟨b, c, heq⟩ := exists_cons_of_length_eq_add_one hlen
  refine ⟨b, c, heq ▸ drop_suffix _ _, ?_⟩
  rw [heq] at hlen
  simpa using hlen

theorem eq_of_suffix {b' : StoredBlock} {c' : Branch} (h : b :: c <:+ tip) (h' : b' :: c' <:+ tip)
    (hlen : c.length = c'.length) : b :: c = b' :: c' :=
  List.IsSuffix.eq_of_length (suffix_of_suffix_length_le h h' (by simp [hlen])) (by simp [hlen])

theorem copyHeightIndexToHashIndex_spec (hon : OnBranch F P s tip) {start n : ℕ}
    (hn : start + n ≤ tip.length) : ∃ new, copyHeightIndexToHashIndex s start n = .ok new ∧
      Copied F P tip start n s.hashIndex new := by
  induction n with
  | zero =>
    exact ⟨s.hashIndex, rfl, fun _ _ => Or.inl, fun _ => id, fun _ _ _ h1 h2 => by omega⟩
  | succ n ih =>
    obtain ⟨new, hnew, hc⟩ := ih (by omega)
    obtain ⟨b, c, hsuf, hlen⟩ := exists_suffix (show start + n < tip.length by omega)
    refine ⟨new.insert b.hash (recordAt F P (b :: c)), ?_, ?_, ?_, ?_⟩
    · have hl : s.heightIndex.lookup (start + n) = some (b.hash, recordAt F P (b :: c)) :=
        hlen ▸ hon b c hsuf
      rw [copyHeightIndexToHashIndex] at hnew ⊢
      rw [range'_1_concat, foldlM_append, hnew]
      simp only [foldlM_cons, foldlM_nil, hl, bind]
      rfl
    · intro hash val hl
      rw [Map.lookup_insert_eq_ite] at hl
      split_ifs at hl with heq
      · cases hl
        exact Or.inr ⟨b, c, hsuf, heq, rfl⟩
      · exact hc.from_tip hash val hl
    · intro hash hold
      rw [Map.lookup_insert_eq_ite]
      split_ifs
      · rfl
      · exact hc.old_mem hash hold
    · intro b' c' hsuf' h1 h2
      rw [Map.lookup_insert_eq_ite]
      split_ifs with heq
      · rfl
      · refine hc.tip_mem b' c' hsuf' h1 (lt_of_le_of_ne (by omega) fun hlast => heq ?_)
        exact congrArg StoredBlock.hash
          (cons.inj (eq_of_suffix hsuf' hsuf (hlast.trans hlen.symm))).1

theorem Inv.rewind [Fact p.Prime] (hi : Inv F P tree s tip appended) (ht : ValidTree F tree)
    (hsuf : newTip <:+ tip) (hlt : newTip ≠ tip) (hne : newTip ≠ []) :
    ∃ s', customRewind F P s tip newTip = .ok s' ∧ Inv F P tree s' newTip appended := by
  have hpos : 0 < newTip.length := length_pos_iff.2 hne
  have hlen : newTip.length < tip.length :=
    lt_of_le_of_ne hsuf.length_le fun h => hlt (hsuf.eq_of_length h)
  obtain ⟨new, hnew, hc⟩ := copyHeightIndexToHashIndex_spec hi.onTip
    (show newTip.length - 1 + (tip.length - newTip.length + 1) ≤ tip.length by omega)
  have hon : OnBranch F P { s with hashIndex := new } tip := hi.onTip
  have hrev := reverseTo_eq ht hne (fun c hc hcne => hi.mem_tree c (hi.tip_appended c hc hcne)) hon
    hi.running hsuf hlt
  refine ⟨{ s with hashIndex := new, running := runningAt F P newTip }, ?_, ?_⟩
  · simp only [customRewind, hnew, bind]
    exact hrev
  · refine ⟨rfl, fun b c h => hi.onTip b c (h.trans hsuf), hi.mem_tree,
      fun c h => hi.tip_appended c (h.trans hsuf), hi.heights, ?_, hi.present, ?_⟩
    · intro hash val hl
      rcases hc.from_tip hash val hl with hold | ⟨b, c, hbc, rest⟩
      · exact hi.hashes hash val hold
      · exact ⟨b, c, hi.tip_appended _ hbc (by simp), rest⟩
    · intro b c hb
      rcases hi.kept b c hb with hbc | hold
      · by_cases hlow : c.length < newTip.length
        · exact Or.inl (suffix_of_suffix_length_le hbc hsuf hlow)
        · have := hbc.length_le
          rw [length_cons] at this
          exact Or.inr (hc.tip_mem b c hbc (by omega) (by omega))
      · exact Or.inr (hc.old_mem _ hold)

/-- Calls that follow the tree are carried out. -/
theorem Follows.inv [Fact p.Prime] (ht : ValidTree F tree) (h : Follows tree calls tip appended) :
    ∃ s, calls.foldlM (Call.exec F P) (({} : Index p), []) = .ok (s, tip) ∧
      Inv F P tree s tip appended := by
  induction h with
  | start => exact ⟨{}, rfl, inv_start⟩
  | @append calls tip appended b _ hb ih =>
    obtain ⟨s, hs, hi⟩ := ih
    have happ := customAppend_eq ht hb hi.running fun parent c' heq =>
      heq ▸ hi.onTip parent c' (heq ▸ suffix_rfl)
    refine ⟨_, ?_, hi.append hb⟩
    rw [foldlM_append, hs]
    simp only [foldlM_cons, foldlM_nil, Call.exec, happ, bind, Except.bind]
    rfl
  | @rewind calls tip newTip appended _ hsuf hlt hne ih =>
    obtain ⟨s, hs, hi⟩ := ih
    obtain ⟨s', hrew, hi'⟩ := hi.rewind ht hsuf hlt hne
    refine ⟨s', ?_, hi'⟩
    rw [foldlM_append, hs]
    simp only [foldlM_cons, foldlM_nil, Call.exec, hrew, bind, Except.bind]
    rfl

/-- **The index reports each block's own statistics across reorganisations.**  However blocks of a
valid tree are appended and rewound along its branches, every call succeeds, so that no `Assert` of
`ReverseBlock` fails; the running values are those of the coins of the current branch, also right
after it was rewound; and `LookUpStats` answers for every block ever appended with the statistics of
the coins that its own branch leaves. -/
theorem coinStats_across_reorgs [Fact p.Prime] (P : Params) (ht : ValidTree F tree)
    {calls : List Call} (h : Follows tree calls tip appended) :
    ∃ s, calls.foldlM (Call.exec F P) (({} : Index p), []) = .ok (s, tip) ∧
      (∀ m, Unspent F.toTxFns tip m → s.running =
        { muhash := ⟨∏ᶠ x ∈ coins m, F.toNum3072 x.1 x.2, 1⟩, totals := directTotals F P tip m }) ∧
      ∀ b c m, b :: c ∈ appended → Unspent F.toTxFns (b :: c) m → lookUpStats s b c = some
        { nHeight := c.length, hashBlock := b.hash, indexUsed := true
          hashSerialized := directHash F m, totals := directTotals F P (b :: c) m } := by
  obtain ⟨s, hs, hi⟩ := h.inv ht
  refine ⟨s, hs, fun m hm => ?_, fun b c m hb hm => ?_⟩
  · have hne : tip ≠ [] := by
      obtain ⟨b, c, rfl⟩ := hm.exists_cons
      simp
    have htree : tip ∈ tree := hi.mem_tree tip (hi.tip_appended tip suffix_rfl hne)
    rw [hi.running, runningAt, muOf_eq hm (ht.nonZero htree), tally_eq_directTotals hm]
  · have htree : b :: c ∈ tree := hi.mem_tree _ hb
    rw [lookUpStats, hi.lookUpOne_eq ht hb, recordAt, muOf_eq hm (ht.nonZero htree),
      tally_eq_directTotals hm]
    rfl

/-- Functions for concrete blocks, modulo a Fermat prime. -/
def simpleStatsFns : StatsFns 65537 where
  toTxFns := simpleTxFns
  toNum3072 _ coin := if coin.nHeight = 1 then 2 else 3
  getSHA256 a := BitVec.ofNat 256 a.val
  getBogoSize script := 50 + script.length

/-- A coinbase with a coin and an unspendable output. -/
def coinbase (locktime : ℕ) : Transaction where
  vin := [{ prevout := ⟨0, 2 ^ 32 - 1⟩ }]
  vout := [⟨7, [0x51]⟩, ⟨1, [0x6a]⟩]
  nLockTime := locktime

/-- A block with a coinbase only. -/
def coinbaseBlock (n : ℕ) : StoredBlock where
  hash := BitVec.ofNat 256 n
  vtx := [coinbase n]
  vtxundo := []

/-- A block that spends the coin of the coinbase of the second block. -/
def spendingBlock : StoredBlock where
  hash := 3
  vtx := [coinbase 3,
    { vin := [{ prevout := ⟨2, 0⟩ }], vout := [⟨5, [0x51]⟩, ⟨2, [0x51]⟩], nLockTime := 4 }]
  vtxundo := [[{ out := ⟨7, [0x51]⟩, nHeight := 1, fCoinBase := true }]]

/-- The first branch. -/
def spendingBranch : Branch := [spendingBlock, coinbaseBlock 2, coinbaseBlock 1]

/-- Two branches on one genesis block. -/
def twoBranches : Set Branch :=
  { c | c ∈ [[coinbaseBlock 1], [coinbaseBlock 2, coinbaseBlock 1], spendingBranch,
      [coinbaseBlock 5, coinbaseBlock 1]] }

theorem hash_eq_of_created {T : TxFns} {h : ℕ} {tx : Transaction} {o : OutPoint}
    (ho : Ledger.created T h tx o ≠ none) : o.hash = T.getHash tx := by
  by_contra hne
  exact ho (if_neg hne)

theorem unspent_coinbaseBlock (n : ℕ) (g : StoredBlock) :
    Unspent simpleTxFns [coinbaseBlock n, g] (Ledger.created simpleTxFns 1 (coinbase n)) := by
  refine .block (.genesis g) ⟨_, [], rfl, rfl, by simp, rfl⟩
    (Ledger.Trace.snoc .start ⟨?_, rfl, by simp, fun o _ => ?_, fun o => ?_⟩)
  · exact nodup_nil
  · simp [Ledger.without]
  · simp [Ledger.without]

theorem unspent_spendingBranch : ∃ m, Unspent simpleTxFns spendingBranch m := by
  refine ⟨_, .block (unspent_coinbaseBlock 2 _) ⟨_, _, rfl, rfl, by decide, rfl⟩
    ((Ledger.Trace.snoc .start ⟨?_, rfl, by simp, fun o ho => ?_, fun o => rfl⟩).snoc
      ⟨?_, rfl, ?_, fun o ho => ?_, fun o => rfl⟩)⟩
  · exact nodup_nil
  · simp [Ledger.without, Ledger.created, hash_eq_of_created ho, simpleTxFns, coinbase]
  · exact nodup_singleton _
  · decide
  · simp [Ledger.without, Ledger.created, hash_eq_of_created ho, simpleTxFns, coinbase]

theorem validTree_twoBranches : ValidTree simpleStatsFns twoBranches where
  hash_inj {b c b' c'} hb hb' h := by
    simp only [twoBranches, spendingBranch, Set.mem_ofPred_eq, mem_cons, cons.injEq, not_mem_nil,
      or_false] at hb hb'
    rcases hb with ⟨rfl, rfl⟩ | ⟨rfl, rfl⟩ | ⟨rfl, rfl⟩ | ⟨rfl, rfl⟩ <;>
      rcases hb' with ⟨rfl, rfl⟩ | ⟨rfl, rfl⟩ | ⟨rfl, rfl⟩ | ⟨rfl, rfl⟩ <;>
      first | rfl | exact absurd h (by decide)
  notBIP30 {b c} hb := by
    simp only [twoBranches, spendingBranch, Set.mem_ofPred_eq, mem_cons, cons.injEq, not_mem_nil,
      or_false] at hb
    rcases hb with ⟨rfl, rfl⟩ | ⟨rfl, rfl⟩ | ⟨rfl, rfl⟩ | ⟨rfl, rfl⟩ <;> decide
  valid {c} hc := by
    simp only [twoBranches, Set.mem_ofPred_eq, mem_cons, not_mem_nil, or_false] at hc
    rcases hc with rfl | rfl | rfl | rfl
    · exact ⟨_, .genesis _⟩
    · exact ⟨_, unspent_coinbaseBlock 2 _⟩
    · exact unspent_spendingBranch
    · exact ⟨_, unspent_coinbaseBlock 5 _⟩
  nonZero _ x _ := by
    simp only [simpleStatsFns]
    split_ifs <;> decide

/-- The second branch replaces the first, whose blocks are still found. -/
theorem coinStats_across_reorgs_twoBranches :
    ∃ s, [Call.append (coinbaseBlock 1), .append (coinbaseBlock 2), .append spendingBlock,
        .rewind [coinbaseBlock 1], .append (coinbaseBlock 5)].foldlM
          (Call.exec simpleStatsFns wideLimit) ({}, []) =
            .ok (s, [coinbaseBlock 5, coinbaseBlock 1]) ∧
      ∃ m, lookUpStats s spendingBlock [coinbaseBlock 2, coinbaseBlock 1] = some
        { nHeight := 2, hashBlock := 3, indexUsed := true
          hashSerialized := directHash simpleStatsFns m
          totals := directTotals simpleStatsFns wideLimit spendingBranch m } := by
  have hprime : Fact (Nat.Prime 65537) := ⟨by norm_num⟩
  have hfollows : Follows twoBranches ([] ++ [Call.append (coinbaseBlock 1)] ++
      [.append (coinbaseBlock 2)] ++ [.append spendingBlock] ++ [.rewind [coinbaseBlock 1]] ++
      [.append (coinbaseBlock 5)]) _ _ :=
    ((((Follows.start.append (by simp [twoBranches])).append (by simp [twoBranches])).append
      (by simp [twoBranches, spendingBranch])).rewind
      ((suffix_cons _ _).trans (suffix_cons _ _)) (by simp) (by simp)).append
      (by simp [twoBranches])
  obtain ⟨m, hm⟩ := unspent_spendingBranch
  obtain ⟨s, hs, -, hstats⟩ := coinStats_across_reorgs wideLimit validTree_twoBranches hfollows
  exact ⟨s, hs, m, hstats _ _ m (by simp) hm⟩

end KPCoin.CoinStats
