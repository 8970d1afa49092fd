import KPCoin.LTS.Basic

/-!
# Ancestors by the skip list

`CBlockIndex::GetAncestor` and `BuildSkip` of `chain.cpp`.  The block index is a list of nodes that
only grows; a pointer to a block is its position.  `SkipTree.back` follows `pprev` a number of
times.

The system adds blocks to the index, each above one that is there or as a new genesis block, and
calls `BuildSkip` on it.  `getAncestor_eq_back` : in every index so built, `GetAncestor` finds what
following `pprev` finds; neither it nor `BuildSkip` ever fails.  The proof uses of `GetSkipHeight`
only that it is lower (`getSkipHeight_lt`).
-/

namespace KPCoin.Chain

open Option

/-- `InvertLowestOne`. -/
def invertLowestOne (n : ℕ) : ℕ := n &&& (n - 1)

/-- `GetSkipHeight`. -/
def getSkipHeight (height : ℕ) : ℕ :=
  if height < 2 then 0
  else if height % 2 = 1 then invertLowestOne (invertLowestOne (height - 1)) + 1
  else invertLowestOne height

theorem invertLowestOne_le (n : ℕ) : invertLowestOne n ≤ n - 1 := Nat.and_le_right

theorem getSkipHeight_lt {height : ℕ} (h : 0 < height) : getSkipHeight height < height := by
  have h1 := invertLowestOne_le height
  have h2 := invertLowestOne_le (height - 1)
  have h3 := invertLowestOne_le (invertLowestOne (height - 1))
  unfold getSkipHeight
  split_ifs <;> omega

example : (List.range 12).map getSkipHeight = [0, 0, 0, 1, 0, 1, 4, 1, 0, 1, 8, 1] := by decide

/-- The links of a `CBlockIndex`. -/
structure SkipNode where
  pprev : Option ℕ
  nHeight : ℕ
  pskip : Option ℕ
  deriving DecidableEq, Repr

/-- The blocks of the index in the order in which they came. -/
abbrev SkipTree := List SkipNode

/-- What would end the process. -/
inductive PointerFault
  /-- `assert(pindexWalk->pprev)`. -/
  | assertPprev
  /-- A pointer to no block is followed. -/
  | noBlock
  /-- `assert(pa == pb)` of `LastCommonAncestor`. -/
  | assertCommon
  /-- A place outside `vChain` is accessed. -/
  | outOfRange
  /-- An `int` is too small. -/
  | overflow
  /-- A loop goes on for longer than it is followed here. -/
  | unfinished
  deriving DecidableEq, Repr

namespace SkipTree

variable (T : SkipTree)

/-- Follow a pointer. -/
def deref (p : ℕ) : Except PointerFault SkipNode :=
  match T[p]? with
  | some node => .ok node
  | none => .error .noBlock

/-- `pskip` is followed if it is not too far back and `pprev->pskip` is not better than
`pskip->pprev`. -/
def FollowSkip (height heightSkip heightSkipPrev : ℕ) : Prop :=
  heightSkip = height ∨ (heightSkip > height ∧
    ¬ ((heightSkipPrev : ℤ) < heightSkip - 2 ∧ heightSkipPrev ≥ height))

instance (height heightSkip heightSkipPrev : ℕ) :
    Decidable (FollowSkip height heightSkip heightSkipPrev) :=
  inferInstanceAs (Decidable (_ ∨ _))

/-- The loop of `GetAncestor`, at most `n` times around. -/
def walkTo (height : ℕ) : ℕ → ℕ → ℕ → Except PointerFault ℕ
  | 0, pindexWalk, _ => .ok pindexWalk
  | n + 1, pindexWalk, heightWalk =>
    if heightWalk > height then do
      let node ← deref T pindexWalk
      let heightSkip := getSkipHeight heightWalk
      let heightSkipPrev := getSkipHeight (heightWalk - 1)
      match node.pskip with
      | some pskip =>
        if FollowSkip height heightSkip heightSkipPrev then walkTo height n pskip heightSkip
        else match node.pprev with
          | some pprev => walkTo height n pprev (heightWalk - 1)
          | none => .error .assertPprev
      | none =>
        match node.pprev with
        | some pprev => walkTo height n pprev (heightWalk - 1)
        | none => .error .assertPprev
    else .ok pindexWalk

/-- `CBlockIndex::GetAncestor`.  The height of the block goes down in every round of the loop, so
there are no more rounds than that. -/
def getAncestor (p : ℕ) (height : ℤ) : Except PointerFault (Option ℕ) := do
  let node ← deref T p
  if height > node.nHeight ∨ height < 0 then return none
  else
    let q ← walkTo T height.toNat node.nHeight p node.nHeight
    return some q

/-- The new block of a parent, and `BuildSkip` on it. -/
def addBlock (pprev : Option ℕ) : Except PointerFault SkipTree :=
  match pprev with
  | none => return T ++ [⟨none, 0, none⟩]
  | some p => do
    let parent ← deref T p
    let pskip ← getAncestor T p (getSkipHeight (parent.nHeight + 1))
    return T ++ [⟨some p, parent.nHeight + 1, pskip⟩]

/-- A parent that is there, or none for a genesis block. -/
def ValidParent (pprev : Option ℕ) : Prop := ∀ p ∈ pprev, p < T.length

instance (pprev : Option ℕ) : Decidable (T.ValidParent pprev) :=
  inferInstanceAs (Decidable (∀ p ∈ pprev, p < T.length))

/-- The index that grows by `addBlock`. -/
def growing : LTS SkipTree (Option ℕ) where
  init T := T = []
  step T pprev T' := T.ValidParent pprev ∧ T.addBlock pprev = .ok T'

/-- `pprev` of a block, none for a genesis block. -/
def pprevOf (p : ℕ) : Option ℕ := T[p]?.bind SkipNode.pprev

/-- The height of a block. -/
def heightOf (p : ℕ) : ℕ := T[p]?.elim 0 SkipNode.nHeight

/-- The block reached by following `pprev` `n` times. -/
def back : ℕ → ℕ → Option ℕ
  | 0, p => some p
  | n + 1, p => (T.pprevOf p).bind (back n)

/-- Heights count the parents, and a skip leads to the ancestor of its height. -/
structure Sound : Prop where
  root : ∀ p < T.length, T.pprevOf p = none → T.heightOf p = 0
  parent : ∀ p q, T.pprevOf p = some q → q < T.length ∧ T.heightOf p = T.heightOf q + 1
  skip : ∀ p s, T[p]?.bind SkipNode.pskip = some s →
    T.back (T.heightOf p - getSkipHeight (T.heightOf p)) p = some s

variable {T} {p q m n : ℕ}

theorem nHeight_eq (hp : p < T.length) : T[p].nHeight = T.heightOf p := by
  rw [heightOf, List.getElem?_eq_getElem hp, elim_some]

theorem deref_eq_ok (hp : p < T.length) : T.deref p = .ok T[p] := by
  rw [deref, List.getElem?_eq_getElem hp]

theorem back_add : T.back (m + n) p = (T.back m p).bind (T.back n) := by
  induction m generalizing p with
  | zero => rw [zero_add]; rfl
  | succ m ih =>
    rw [Nat.succ_add, back, back]
    cases T.pprevOf p with
    | none => rfl
    | some q => exact ih

namespace Sound

variable (h : T.Sound)
include h

theorem back_height (hp : p < T.length) (hq : T.back n p = some q) :
    q < T.length ∧ T.heightOf p = T.heightOf q + n := by
  induction n generalizing p with
  | zero =>
    cases hq
    exact ⟨hp, rfl⟩
  | succ n ih =>
    obtain ⟨r, hr, hq⟩ := bind_eq_some_iff.1 hq
    obtain ⟨hrlt, hheight⟩ := h.parent p r hr
    obtain ⟨hqlt, heq⟩ := ih hrlt hq
    exact ⟨hqlt, by omega⟩

theorem exists_back (hp : p < T.length) (hn : n ≤ T.heightOf p) : ∃ q, T.back n p = some q := by
  induction n generalizing p with
  | zero => exact ⟨p, rfl⟩
  | succ n ih =>
    cases hr : T.pprevOf p with
    | none =>
      have := h.root p hp hr
      omega
    | some r =>
      obtain ⟨hrlt, hheight⟩ := h.parent p r hr
      obtain ⟨q, hq⟩ := ih hrlt (by omega)
      exact ⟨q, by rw [back, hr]; exact hq⟩

/-- The loop of `GetAncestor` ends at the ancestor. -/
theorem walkTo_eq {height heightWalk : ℕ} (hp : p < T.length) (hwalk : T.heightOf p = heightWalk)
    (hle : height ≤ heightWalk) (hn : heightWalk ≤ n + height) :
    (T.walkTo height n p heightWalk).map some = .ok (T.back (heightWalk - height) p) := by
  induction n generalizing p heightWalk with
  | zero =>
    obtain rfl : heightWalk = height := by omega
    rw [Nat.sub_self]
    rfl
  | succ n ih =>
    rw [walkTo]
    split_ifs with hgt
    case neg =>
      obtain rfl : heightWalk = height := by omega
      rw [Nat.sub_self]
      rfl
    rw [deref_eq_ok hp]
    -- One step to the parent: there is one above height 0.
    have hprev : ∀ pprev, T[p].pprev = some pprev →
        (T.walkTo height n pprev (heightWalk - 1)).map some =
          .ok (T.back (heightWalk - height) p) := by
      intro pprev hpp
      have hof : T.pprevOf p = some pprev := by
        rw [pprevOf, List.getElem?_eq_getElem hp, bind_some, hpp]
      obtain ⟨hlt, hheight⟩ := h.parent p pprev hof
      rw [ih hlt (by omega) (by omega) (by omega)]
      obtain ⟨k, hk⟩ : ∃ k, heightWalk - height = k + 1 := ⟨heightWalk - height - 1, by omega⟩
      rw [hk, back, hof, show heightWalk - 1 - height = k by omega]
      rfl
    have hroot : T[p].pprev ≠ none := by
      intro hnone
      have := h.root p hp (by rw [pprevOf, List.getElem?_eq_getElem hp, bind_some, hnone])
      omega
    obtain ⟨pprev, hpp⟩ := ne_none_iff_exists'.1 hroot
    cases hskip : T[p].pskip with
    | none =>
      simp only [bind, Except.bind, hskip, hpp]
      exact hprev pprev hpp
    | some s =>
      simp only [bind, Except.bind, hskip, hpp]
      split_ifs with hfollow
      · have hlt := getSkipHeight_lt (lt_of_le_of_lt (Nat.zero_le height) hgt)
        have hback := h.skip p s (by rw [List.getElem?_eq_getElem hp, bind_some, hskip])
        rw [hwalk] at hback
        obtain ⟨hslt, hsheight⟩ := h.back_height hp hback
        have hge : height ≤ getSkipHeight heightWalk := by
          rcases hfollow with heq | ⟨hgt, -⟩ <;> omega
        rw [ih hslt (by omega) hge (by omega),
          show heightWalk - height = heightWalk - getSkipHeight heightWalk +
            (getSkipHeight heightWalk - height) by omega, back_add, hback]
        rfl
      · exact hprev pprev hpp

theorem getAncestor_eq (hp : p < T.length) {height : ℕ} (hle : height ≤ T.heightOf p) :
    T.getAncestor p height = .ok (T.back (T.heightOf p - height) p) := by
  have hwalk := h.walkTo_eq hp rfl hle (Nat.le_add_right _ _)
  simp only [getAncestor, deref_eq_ok hp, nHeight_eq hp, bind, Except.bind]
  rw [if_neg (by omega), Int.toNat_natCast]
  cases hres : T.walkTo height (T.heightOf p) p (T.heightOf p) with
  | error e => rw [hres] at hwalk; cases hwalk
  | ok q => rw [hres] at hwalk; exact hwalk

end Sound

theorem getAncestor_eq_none (hp : p < T.length) {height : ℤ}
    (hout : height < 0 ∨ T.heightOf p < height) : T.getAncestor p height = .ok none := by
  simp only [getAncestor, deref_eq_ok hp, nHeight_eq hp, bind, Except.bind]
  rw [if_pos (by omega)]
  rfl

section Append

variable {node : SkipNode}

theorem pprevOf_append (hp : p < T.length) : pprevOf (T ++ [node]) p = T.pprevOf p := by
  rw [pprevOf, List.getElem?_append_left hp, pprevOf]

theorem heightOf_append (hp : p < T.length) : heightOf (T ++ [node]) p = T.heightOf p := by
  rw [heightOf, List.getElem?_append_left hp, heightOf]

theorem Sound.back_append (h : T.Sound) (hp : p < T.length) :
    back (T ++ [node]) n p = T.back n p := by
  induction n generalizing p with
  | zero => rfl
  | succ n ih =>
    rw [back, back, pprevOf_append hp]
    cases hq : T.pprevOf p with
    | none => rfl
    | some q => exact ih (h.parent p q hq).1

theorem Sound.append (h : T.Sound) (hroot : node.pprev = none → node.nHeight = 0)
    (hparent : ∀ q, node.pprev = some q → q < T.length ∧ node.nHeight = T.heightOf q + 1)
    (hskip : ∀ s, node.pskip = some s →
      back (T ++ [node]) (node.nHeight - getSkipHeight node.nHeight) T.length = some s) :
    Sound (T ++ [node]) := by
  have hnew : (T ++ [node])[T.length]? = some node := List.getElem?_concat_length
  have hcases : ∀ p, p < (T ++ [node]).length → p < T.length ∨ p = T.length := by
    intro p hp
    rw [List.length_append, List.length_singleton] at hp
    omega
  have hlt : ∀ {p x} {f : SkipNode → Option ℕ}, (T ++ [node])[p]?.bind f = some x →
      p < (T ++ [node]).length := by
    intro p x f hx
    obtain ⟨_, hp, -⟩ := bind_eq_some_iff.1 hx
    exact (getElem?_eq_some_iff.1 hp).1
  refine ⟨fun p hp hnone => ?_, fun p q hq => ?_, fun p s hs => ?_⟩
  · rcases hcases p hp with hp | rfl
    · rw [pprevOf_append hp] at hnone
      rw [heightOf_append hp, h.root p hp hnone]
    · rw [pprevOf, hnew] at hnone
      rw [heightOf, hnew]
      exact hroot hnone
  · rw [List.length_append]
    rcases hcases p (hlt hq) with hp | rfl
    · rw [pprevOf_append hp] at hq
      obtain ⟨hqlt, hheight⟩ := h.parent p q hq
      rw [heightOf_append hp, heightOf_append hqlt]
      exact ⟨Nat.lt_add_right _ hqlt, hheight⟩
    · rw [pprevOf, hnew] at hq
      obtain ⟨hqlt, hheight⟩ := hparent q hq
      rw [heightOf_append hqlt, heightOf, hnew]
      exact ⟨Nat.lt_add_right _ hqlt, hheight⟩
  · rcases hcases p (hlt hs) with hp | rfl
    · rw [List.getElem?_append_left hp] at hs
      rw [heightOf_append hp, h.back_append hp]
      exact h.skip p s hs
    · rw [hnew] at hs
      have hheight : heightOf (T ++ [node]) T.length = node.nHeight := by rw [heightOf, hnew]; rfl
      rw [hheight]
      exact hskip s hs

end Append

theorem sound_nil : Sound [] :=
  ⟨fun _ hp => absurd hp (Nat.not_lt_zero _), fun _ _ hq => (by cases hq),
    fun _ _ hs => (by cases hs)⟩

theorem Sound.addBlock (h : T.Sound) {pprev : Option ℕ} (hvalid : T.ValidParent pprev) :
    ∃ node, T.addBlock pprev = .ok (T ++ [node]) ∧ Sound (T ++ [node]) := by
  cases pprev with
  | none =>
    refine ⟨⟨none, 0, none⟩, rfl, h.append (fun _ => rfl) ?_ ?_⟩
    · exact fun q hq => by cases hq
    · exact fun s hs => by cases hs
  | some p =>
    have hp : p < T.length := hvalid p rfl
    have hlt : getSkipHeight (T.heightOf p + 1) < T.heightOf p + 1 :=
      getSkipHeight_lt (Nat.succ_pos _)
    have hanc := h.getAncestor_eq hp (Nat.lt_succ_iff.1 hlt)
    set pskip := T.back (T.heightOf p - getSkipHeight (T.heightOf p + 1)) p with hpskip
    refine ⟨⟨some p, T.heightOf p + 1, pskip⟩, ?_, h.append ?_ ?_ ?_⟩
    · simp only [SkipTree.addBlock, deref_eq_ok hp, nHeight_eq hp, bind, Except.bind]
      rw [hanc]
      rfl
    · exact fun hnone => by cases hnone
    · rintro q ⟨⟩
      exact ⟨hp, rfl⟩
    · intro s hs
      -- From the new block one step leads to the parent.
      rw [show T.heightOf p + 1 - getSkipHeight (T.heightOf p + 1) =
        T.heightOf p - getSkipHeight (T.heightOf p + 1) + 1 by omega, back, pprevOf,
        List.getElem?_concat_length]
      exact (h.back_append hp).trans (hpskip.symm.trans hs)

theorem sound_of_reachable (h : growing.Reachable T) : T.Sound := by
  refine h.invariant ?_ ?_
  · rintro _ rfl
    exact sound_nil
  · rintro T pprev T' hT ⟨hvalid, hadd⟩
    obtain ⟨node, hnode, hsound⟩ := hT.addBlock hvalid
    rw [hnode] at hadd
    exact Except.ok.inj hadd ▸ hsound

/-- **`GetAncestor` finds what following `pprev` finds**, and neither it nor `BuildSkip` fails. -/
theorem getAncestor_eq_back (T : SkipTree) (h : growing.Reachable T) :
    (∀ p < T.length, ∀ height : ℤ,
      (height < 0 ∨ T.heightOf p < height → T.getAncestor p height = .ok none) ∧
      (0 ≤ height ∧ height ≤ T.heightOf p → ∃ q,
        T.back (T.heightOf p - height.toNat) p = some q ∧ T.heightOf q = height ∧
          T.getAncestor p height = .ok (some q))) ∧
      ∀ pprev, T.ValidParent pprev → ∃ T', T.addBlock pprev = .ok T' := by
  have hT := sound_of_reachable h
  refine ⟨fun p hp height => ⟨getAncestor_eq_none hp, fun ⟨h₀, hle⟩ => ?_⟩, fun pprev hv => ?_⟩
  · obtain ⟨height, rfl⟩ := Int.eq_ofNat_of_zero_le h₀
    have hle : height ≤ T.heightOf p := by omega
    obtain ⟨q, hq⟩ := hT.exists_back hp (Nat.sub_le (T.heightOf p) height)
    obtain ⟨-, hheight⟩ := hT.back_height hp hq
    refine ⟨q, hq, by omega, ?_⟩
    rw [hT.getAncestor_eq hp hle, hq]
  · obtain ⟨node, hadd, -⟩ := hT.addBlock hv
    exact ⟨_, hadd⟩

/-- Add blocks one after the other. -/
def grow (pprev : List (Option ℕ)) : Option SkipTree :=
  pprev.foldlM (fun T p => if T.ValidParent p then (T.addBlock p).toOption else none) []

theorem reachable_of_grow {pprev : List (Option ℕ)} (h : grow pprev = some T) :
    growing.Reachable T := by
  refine LTS.Reachable.foldlM (.start rfl) (fun T p T' hT => ?_) h
  split_ifs at hT with hvalid
  refine ⟨hvalid, ?_⟩
  cases hadd : T.addBlock p with
  | error e => rw [hadd] at hT; cases hT
  | ok T1 => rw [hadd] at hT; exact congrArg _ (some.inj hT)

/-- Two branches above the third block. -/
def forked : List (Option ℕ) :=
  [none, some 0, some 1, some 2, some 3, some 4, some 2, some 6, some 7, some 5]

theorem getAncestor_forked : ∃ T, grow forked = some T ∧ growing.Reachable T ∧
    9 < T.length ∧ T.heightOf 9 = 6 ∧ ∃ q, T.back 5 9 = some q ∧
      T.getAncestor 9 1 = .ok (some q) := by
  have hrun : (grow forked).map (fun T => (T.length, T.heightOf 9)) = some (10, 6) := by
    decide +kernel
  obtain ⟨T, hT, hlen⟩ := map_eq_some_iff.1 hrun
  rw [Prod.mk.injEq] at hlen
  have hreach := reachable_of_grow hT
  obtain ⟨q, hq, -, hanc⟩ := ((getAncestor_eq_back T hreach).1 9 (by omega) 1).2 (by omega)
  rw [hlen.2] at hq
  exact ⟨T, hT, hreach, by omega, hlen.2, q, hq, hanc⟩

end SkipTree

end KPCoin.Chain
