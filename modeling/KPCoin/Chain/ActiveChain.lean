import KPCoin.Chain.SkipList

/-!
# The active chain, forks and locators

`CChain`, `LastCommonAncestor` and `LocatorEntries` (`chain.h`, `chain.cpp`) over a growing block
index.

* `IsChain` : `vChain` lists the ancestors of the tip by height.  `SetTip` stops filling it as soon
  as it meets a block that is in its place, which is sound because of `Nested`: what is below a
  block in the old vector are its ancestors;
* `setTip_spec`, `findFork_spec`, `lastCommonAncestor_spec`, `locatorEntries_spec` : what each
  function returns, and that it does return;
* `active_chain_exact` : all of these in every state that adding blocks and setting the tip lead to.
-/

namespace KPCoin.Chain

open List Option

namespace SkipTree

/-- `a` is `b` or an ancestor of it. -/
def IsAncestor (T : SkipTree) (a b : ℕ) : Prop := ∃ n, T.back n b = some a

/-! ### `CChain` -/

/-- `vChain`, null where nothing has been entered yet. -/
abbrev VChain := List (Option ℕ)

/-- `CChain::Height`. -/
def VChain.height (v : VChain) : ℤ := v.length - 1

/-- `CChain::operator[]`. -/
def VChain.at (v : VChain) (nHeight : ℤ) : Option ℕ :=
  if nHeight < 0 ∨ nHeight ≥ v.length then none else v[nHeight.toNat]?.join

/-- `CChain::Tip`. -/
def VChain.tip (v : VChain) : Option ℕ := v.getLast?.join

/-- `std::vector::resize`. -/
def VChain.resize (n : ℕ) (v : VChain) : VChain := v.take n ++ List.replicate (n - v.length) none

section Functions

variable (T : SkipTree)

/-- The loop of `SetTip`, at most `n` times around. -/
def fillDown : ℕ → Option ℕ → VChain → Except PointerFault VChain
  | _, none, v => .ok v
  | 0, some _, _ => .error .unfinished
  | n + 1, some pindex, v => do
    let node ← T.deref pindex
    match v[node.nHeight]? with
    | none => .error .outOfRange
    | some entry =>
      if entry = some pindex then return v
      else fillDown n node.pprev (v.set node.nHeight (some pindex))

/-- `CChain::SetTip`. -/
def setTip (v : VChain) (block : ℕ) : Except PointerFault VChain := do
  let node ← T.deref block
  fillDown T (node.nHeight + 1) (some block) (v.resize (node.nHeight + 1))

/-- `CChain::Contains`. -/
def contains (v : VChain) (pindex : ℕ) : Except PointerFault Bool := do
  let node ← T.deref pindex
  return decide (v.at node.nHeight = some pindex)

/-- The loop of `FindFork`, at most `n` times around. -/
def forkLoop (v : VChain) : ℕ → Option ℕ → Except PointerFault (Option ℕ)
  | _, none => .ok none
  | 0, some _ => .error .unfinished
  | n + 1, some pindex => do
    if ← T.contains v pindex then return some pindex
    else
      let node ← T.deref pindex
      forkLoop v n node.pprev

/-- A block higher than `height` is replaced by its ancestor there. -/
def lowerTo (pindex nHeight : ℕ) (height : ℤ) : Except PointerFault (Option ℕ) :=
  if nHeight > height then T.getAncestor pindex height else .ok (some pindex)

/-- `CChain::FindFork`. -/
def findFork (v : VChain) : Option ℕ → Except PointerFault (Option ℕ)
  | none => .ok none
  | some pindex => do
    let node ← T.deref pindex
    let pindex ← T.lowerTo pindex node.nHeight v.height
    T.forkLoop v (node.nHeight + 1) pindex

/-- The loop of `LastCommonAncestor`, at most `n` times around. -/
def commonLoop : ℕ → Option ℕ → Option ℕ → Except PointerFault (Option ℕ × Option ℕ)
  | 0, some pa, some pb => if pa = pb then .ok (some pa, some pb) else .error .unfinished
  | n + 1, some pa, some pb =>
    if pa = pb then .ok (some pa, some pb)
    else do
      let a ← T.deref pa
      let b ← T.deref pb
      commonLoop n a.pprev b.pprev
  | _, pa, pb => .ok (pa, pb)

/-- `LastCommonAncestor`. -/
def lastCommonAncestor (pa pb : ℕ) : Except PointerFault (Option ℕ) := do
  let a ← T.deref pa
  let b ← T.deref pb
  let qa ← T.lowerTo pa a.nHeight b.nHeight
  let qb ← T.lowerTo pb b.nHeight a.nHeight
  let (qa, qb) ← T.commonLoop (min a.nHeight b.nHeight + 1) qa qb
  if qa = qb then return qa else throw .assertCommon

/-- `if (have.size() > 10) step *= 2`, for an `int`. -/
def nextStep (size : ℕ) (step : ℤ) : Except PointerFault ℤ :=
  if size ≤ 10 then .ok step
  else if step * 2 < 2 ^ 31 then .ok (step * 2)
  else .error .overflow

/-- The loop of `LocatorEntries`, at most `n` times around, with the blocks in place of their
hashes. -/
def locatorLoop : ℕ → Option ℕ → ℤ → List ℕ → Except PointerFault (List ℕ)
  | _, none, _, have' => .ok have'
  | 0, some _, _, _ => .error .unfinished
  | n + 1, some index, step, have' => do
    let node ← T.deref index
    let have' := have' ++ [index]
    if node.nHeight = 0 then return have'
    else
      let height := max ((node.nHeight : ℤ) - step) 0
      let index ← T.getAncestor index height
      let step ← nextStep have'.length step
      locatorLoop n index step have'

/-- `LocatorEntries`. -/
def locatorEntries {Hash : Type} (getBlockHash : ℕ → Hash) (index : ℕ) :
    Except PointerFault (List Hash) := do
  let node ← T.deref index
  let blocks ← T.locatorLoop (node.nHeight + 1) (some index) 1 []
  return blocks.map getBlockHash

end Functions

variable {T : SkipTree} {p q a b c n : ℕ} {v : VChain} {tip : Option ℕ}

theorem pprevOf_eq (hp : p < T.length) : T.pprevOf p = T[p].pprev := by
  rw [pprevOf, getElem?_eq_getElem hp, bind_some]

theorem back_succ_of_parent (hq : T.pprevOf p = some q) : T.back (n + 1) p = T.back n q := by
  rw [back, hq, bind_some]

theorem isAncestor_refl : T.IsAncestor p p := ⟨0, rfl⟩

theorem IsAncestor.trans (hab : T.IsAncestor a b) (hbc : T.IsAncestor b c) : T.IsAncestor a c := by
  obtain ⟨m, hm⟩ := hab
  obtain ⟨n, hn⟩ := hbc
  exact ⟨n + m, by rw [back_add, hn]; exact hm⟩

theorem isAncestor_iff_of_parent (hq : T.pprevOf p = some q) :
    T.IsAncestor a p ↔ a = p ∨ T.IsAncestor a q := by
  constructor
  · rintro ⟨n, hn⟩
    cases n with
    | zero => exact .inl (some.inj hn).symm
    | succ n => exact .inr ⟨n, back_succ_of_parent hq ▸ hn⟩
  · rintro (rfl | ⟨n, hn⟩)
    · exact isAncestor_refl
    · exact ⟨n + 1, (back_succ_of_parent hq).trans hn⟩

theorem isAncestor_iff_of_root (hq : T.pprevOf p = none) : T.IsAncestor a p ↔ a = p := by
  constructor
  · rintro ⟨n, hn⟩
    cases n with
    | zero => exact (some.inj hn).symm
    | succ n => rw [back, hq] at hn; cases hn
  · rintro rfl
    exact isAncestor_refl

namespace Sound

variable (h : T.Sound)
include h

theorem isAncestor_iff (hb : b < T.length) :
    T.IsAncestor a b ↔ T.heightOf a ≤ T.heightOf b ∧
      T.back (T.heightOf b - T.heightOf a) b = some a := by
  refine ⟨fun ⟨n, hn⟩ => ?_, fun ⟨_, ha⟩ => ⟨_, ha⟩⟩
  obtain ⟨-, hheight⟩ := h.back_height hb hn
  exact ⟨by omega, by rwa [hheight, Nat.add_sub_cancel_left]⟩

theorem isAncestor_of_le (hc : c < T.length) (ha : T.IsAncestor a c) (hb : T.IsAncestor b c)
    (hle : T.heightOf a ≤ T.heightOf b) : T.IsAncestor a b := by
  obtain ⟨-, hback⟩ := (h.isAncestor_iff hc).1 ha
  obtain ⟨hbc, hbackb⟩ := (h.isAncestor_iff hc).1 hb
  refine ⟨T.heightOf b - T.heightOf a, ?_⟩
  rw [show T.heightOf c - T.heightOf a = T.heightOf c - T.heightOf b +
    (T.heightOf b - T.heightOf a) by omega, back_add, hbackb] at hback
  exact hback

theorem eq_of_isAncestor (hb : b < T.length) (ha : T.IsAncestor a b)
    (hle : T.heightOf b ≤ T.heightOf a) : a = b := by
  obtain ⟨-, hback⟩ := (h.isAncestor_iff hb).1 ha
  rw [Nat.sub_eq_zero_of_le hle] at hback
  exact (some.inj hback).symm

theorem exists_pprev (hp : p < T.length) (hpos : 0 < T.heightOf p) : ∃ q, T.pprevOf p = some q := by
  cases hq : T.pprevOf p with
  | none =>
    have := h.root p hp hq
    omega
  | some q => exact ⟨q, rfl⟩

end Sound

/-! ### `SetTip` -/

/-- `vChain` lists the ancestors of the tip by height, and is empty without a tip. -/
def IsChain (T : SkipTree) : Option ℕ → VChain → Prop
  | none, v => v = []
  | some tip, v => tip < T.length ∧ v.length = T.heightOf tip + 1 ∧
      ∀ i ≤ T.heightOf tip, v[i]? = some (T.back (T.heightOf tip - i) tip)

/-- Below a block in the vector, up to height `m`, are its ancestors. -/
def Nested (T : SkipTree) (m : ℕ) (v : VChain) : Prop :=
  ∀ i ≤ m, ∀ x, v[i]? = some (some x) → ∀ j ≤ i, v[j]? = some (T.back (i - j) x)

theorem IsChain.tip_eq (h : T.IsChain tip v) : v.tip = tip := by
  cases tip with
  | none =>
    obtain rfl : v = [] := h
    rfl
  | some t =>
    obtain ⟨-, hlen, hv⟩ := h
    rw [VChain.tip, getLast?_eq_getElem?, hlen, Nat.add_sub_cancel, hv _ le_rfl, Nat.sub_self]
    rfl

theorem IsChain.nested (h : T.IsChain tip v) (m : ℕ) : T.Nested m v := by
  intro i _ x hx j hj
  cases tip with
  | none =>
    obtain rfl : v = [] := h
    cases hx
  | some t =>
    obtain ⟨-, hlen, hv⟩ := h
    have hi : i ≤ T.heightOf t := by
      have := (List.getElem?_eq_some_iff.1 hx).1
      omega
    rw [hv i hi, some_inj] at hx
    rw [hv j (hj.trans hi), show T.heightOf t - j = T.heightOf t - i + (i - j) by omega,
      back_add, hx]
    rfl

theorem getElem?_resize (m i : ℕ) (hi : i < m) : (v.resize m)[i]? = some (v[i]?.join) := by
  unfold VChain.resize
  by_cases hlt : i < v.length
  · rw [getElem?_append_left (by simp; omega), getElem?_take_of_lt hi, getElem?_eq_getElem hlt]
    rfl
  · rw [getElem?_append_right (by simp; omega), getElem?_replicate,
      getElem?_eq_none (not_lt.1 hlt), if_pos]
    · rfl
    · simp
      omega

theorem length_resize (m : ℕ) : (v.resize m).length = m := by
  rw [VChain.resize, length_append, length_take, length_replicate]
  omega

theorem Nested.resize {m : ℕ} (h : T.Nested m v) : T.Nested m (v.resize (m + 1)) := by
  intro i hi x hx j hj
  rw [getElem?_resize _ _ (by omega), some_inj, join_eq_some_iff] at hx
  rw [getElem?_resize _ _ (by omega), h i hi x hx j hj]
  rfl

/-- `SetTip` writes the blocks from the tip down until one is in its place. -/
theorem Sound.fillDown_eq (h : T.Sound) (hp : p < T.length) (hn : T.heightOf p < n)
    (hlen : T.heightOf p < v.length) (hv : T.Nested (T.heightOf p) v) :
    ∃ v', T.fillDown n (some p) v = .ok v' ∧ v'.length = v.length ∧
      (∀ j ≤ T.heightOf p, v'[j]? = some (T.back (T.heightOf p - j) p)) ∧
      ∀ j > T.heightOf p, v'[j]? = v[j]? := by
  induction n generalizing p v with
  | zero => exact absurd hn (Nat.not_lt_zero _)
  | succ n ih =>
    have hget := getElem?_eq_getElem hlen
    simp only [fillDown, deref_eq_ok hp, nHeight_eq hp, bind, Except.bind, hget]
    split_ifs with hmet
    · refine ⟨v, rfl, rfl, fun j hj => ?_, fun _ _ => rfl⟩
      exact hv _ le_rfl p (by rw [hget, hmet]) j hj
    · have hset : ∀ j, j ≠ T.heightOf p →
          (v.set (T.heightOf p) (some p))[j]? = v[j]? := fun j hj =>
        getElem?_set_ne (Ne.symm hj)
      have hself : (v.set (T.heightOf p) (some p))[T.heightOf p]? = some (some p) := by
        rw [getElem?_set_self hlen]
      rw [← pprevOf_eq hp]
      cases hq : T.pprevOf p with
      | none =>
        have hzero := h.root p hp hq
        refine ⟨_, by rw [fillDown], length_set, fun j hj => ?_, fun j hj => hset j (by omega)⟩
        obtain rfl : j = T.heightOf p := by omega
        rw [hself, Nat.sub_self]
        rfl
      | some q =>
        obtain ⟨hqlt, hheight⟩ := h.parent p q hq
        have hnest : T.Nested (T.heightOf q) (v.set (T.heightOf p) (some p)) := by
          intro i hi x hx j hj
          rw [hset i (by omega)] at hx
          rw [hset j (by omega)]
          exact hv i (by omega) x hx j hj
        obtain ⟨v', hfill, hlen', hbelow, habove⟩ :=
          ih hqlt (by omega) (by rw [length_set]; omega) hnest
        refine ⟨v', hfill, by rw [hlen', length_set], fun j hj => ?_, fun j hj => ?_⟩
        · by_cases hj' : j = T.heightOf p
          · subst hj'
            rw [habove _ (by omega), hself, Nat.sub_self]
            rfl
          · rw [hbelow j (by omega), show T.heightOf p - j = T.heightOf q - j + 1 by omega,
              back_succ_of_parent hq]
        · rw [habove j (by omega), hset j (by omega)]

theorem Sound.setTip_spec (h : T.Sound) (hv : T.IsChain tip v)
    (hb : b < T.length) : ∃ v', T.setTip v b = .ok v' ∧ T.IsChain (some b) v' := by
  obtain ⟨v', hfill, hlen, hbelow, -⟩ := h.fillDown_eq hb
    (Nat.lt_succ_self _) (by rw [length_resize]; omega) (hv.nested _).resize
  refine ⟨v', ?_, hb, by rw [hlen, length_resize], hbelow⟩
  simp only [setTip, deref_eq_ok hb, nHeight_eq hb, bind, Except.bind]
  exact hfill

/-! ### `Contains` and `FindFork` -/

theorem contains_eq (hp : p < T.length) :
    T.contains v p = .ok (decide (v.at (T.heightOf p) = some p)) := by
  simp only [contains, deref_eq_ok hp, nHeight_eq hp, bind, Except.bind]
  rfl

/-- What `FindFork` looks for: the highest ancestor of `b` on the chain, or null if there is
none. -/
def IsFork (T : SkipTree) (v : VChain) (b : ℕ) : Option ℕ → Prop
  | some f => T.IsAncestor f b ∧ v.at (T.heightOf f) = some f ∧
      ∀ a, T.IsAncestor a b → v.at (T.heightOf a) = some a → T.heightOf a ≤ T.heightOf f
  | none => ∀ a, T.IsAncestor a b → v.at (T.heightOf a) ≠ some a

/-- If the ancestors of `b` on the chain are ancestors of `q`, the two have one fork. -/
theorem IsFork.of_ancestor {r : Option ℕ} (hqb : T.IsAncestor q b)
    (hstep : ∀ a, T.IsAncestor a b → v.at (T.heightOf a) = some a → T.IsAncestor a q)
    (h : T.IsFork v q r) : T.IsFork v b r := by
  cases r with
  | none => exact fun a ha hon => h a (hstep a ha hon) hon
  | some f =>
    obtain ⟨hf, hfon, hmax⟩ := h
    exact ⟨hf.trans hqb, hfon, fun a ha hon => hmax a (hstep a ha hon) hon⟩

theorem Sound.forkLoop_eq (h : T.Sound) (hp : p < T.length) (hn : T.heightOf p < n) :
    ∃ r, T.forkLoop v n (some p) = .ok r ∧ T.IsFork v p r := by
  induction n generalizing p with
  | zero => exact absurd hn (Nat.not_lt_zero _)
  | succ n ih =>
    simp only [forkLoop, contains_eq hp, deref_eq_ok hp, bind, Except.bind, decide_eq_true_eq]
    by_cases hon : v.at (T.heightOf p) = some p
    · rw [if_pos hon]
      refine ⟨some p, rfl, isAncestor_refl, hon, fun a ha _ => ?_⟩
      exact ((h.isAncestor_iff hp).1 ha).1
    · rw [if_neg hon, ← pprevOf_eq hp]
      cases hq : T.pprevOf p with
      | none =>
        refine ⟨none, by rw [forkLoop], fun a ha => ?_⟩
        rw [(isAncestor_iff_of_root hq).1 ha]
        exact hon
      | some q =>
        obtain ⟨hqlt, hheight⟩ := h.parent p q hq
        obtain ⟨r, hr, hfork⟩ := ih hqlt (by omega)
        -- `p` itself is not on the chain, so its ancestors on the chain are those of its parent.
        refine ⟨r, hr, hfork.of_ancestor ⟨1, back_succ_of_parent hq⟩ fun a ha hon' => ?_⟩
        rcases (isAncestor_iff_of_parent hq).1 ha with rfl | ha
        · exact absurd hon' hon
        · exact ha

/-- A block is replaced by its ancestor at the lower height. -/
theorem Sound.lowerTo_eq (h : T.Sound) (ha : a < T.length) (m : ℕ) :
    ∃ q, T.lowerTo a (T.heightOf a) m = .ok (some q) ∧ q < T.length ∧
      T.heightOf q = min (T.heightOf a) m ∧ T.IsAncestor q a := by
  unfold lowerTo
  split_ifs
  · obtain ⟨q, hq⟩ := h.exists_back ha (Nat.sub_le (T.heightOf a) m)
    obtain ⟨hqlt, hheight⟩ := h.back_height ha hq
    exact ⟨q, by rw [h.getAncestor_eq ha (by omega), hq], hqlt, by omega, _, hq⟩
  · exact ⟨a, rfl, ha, by omega, isAncestor_refl⟩

theorem Sound.findFork_spec (h : T.Sound) (hb : b < T.length) (v : VChain) :
    ∃ r, T.findFork v (some b) = .ok r ∧ T.IsFork v b r := by
  -- Nothing above the height of the chain is on it.
  have hlow : ∀ a, v.at (T.heightOf a) = some a → (T.heightOf a) ≤ v.height := by
    intro a ha
    unfold VChain.at at ha
    split_ifs at ha
    rw [VChain.height]
    omega
  simp only [findFork, deref_eq_ok hb, nHeight_eq hb, bind, Except.bind]
  by_cases hneg : v.height < 0
  · rw [lowerTo, if_pos (by omega), getAncestor_eq_none hb (.inl hneg)]
    refine ⟨none, by simp [forkLoop], fun a _ ha => ?_⟩
    have := hlow a ha
    omega
  · obtain ⟨m, hm⟩ := Int.eq_ofNat_of_zero_le (not_lt.1 hneg)
    obtain ⟨q, hq, hqlt, hheight, hqb⟩ := h.lowerTo_eq hb m
    rw [hm, hq]
    obtain ⟨r, hr, hfork⟩ := h.forkLoop_eq hqlt (n := T.heightOf b + 1) (by omega)
    refine ⟨r, hr, hfork.of_ancestor hqb fun a ha hon => ?_⟩
    have := hlow a hon
    have := ((h.isAncestor_iff hb).1 ha).1
    exact h.isAncestor_of_le hb ha hqb (by omega)

/-! ### `LastCommonAncestor` -/

/-- The common ancestor of greatest height. -/
structure IsLastCommon (T : SkipTree) (a b c : ℕ) : Prop where
  left : T.IsAncestor c a
  right : T.IsAncestor c b
  greatest : ∀ x, T.IsAncestor x a → T.IsAncestor x b → T.heightOf x ≤ T.heightOf c

theorem IsLastCommon.of_ancestors {pa pb : ℕ} (hpa : T.IsAncestor pa a) (hpb : T.IsAncestor pb b)
    (hdown : ∀ y, T.IsAncestor y a → T.IsAncestor y b → T.IsAncestor y pa ∧ T.IsAncestor y pb)
    (h : T.IsLastCommon pa pb c) : T.IsLastCommon a b c where
  left := h.left.trans hpa
  right := h.right.trans hpb
  greatest y hya hyb := h.greatest y (hdown y hya hyb).1 (hdown y hya hyb).2

theorem Sound.commonLoop_eq (h : T.Sound) {x : ℕ} (ha : a < T.length) (hb : b < T.length)
    (hab : T.heightOf a = T.heightOf b) (hn : T.heightOf a < n) (hxa : T.IsAncestor x a)
    (hxb : T.IsAncestor x b) :
    ∃ c, T.commonLoop n (some a) (some b) = .ok (some c, some c) ∧ T.IsLastCommon a b c := by
  induction n generalizing a b with
  | zero => exact absurd hn (Nat.not_lt_zero _)
  | succ n ih =>
    rw [commonLoop]
    split_ifs with heq
    · subst heq
      exact ⟨a, rfl, isAncestor_refl, isAncestor_refl, fun y hy _ => ((h.isAncestor_iff ha).1 hy).1⟩
    · simp only [deref_eq_ok ha, deref_eq_ok hb, bind, Except.bind, ← pprevOf_eq ha,
        ← pprevOf_eq hb]
      -- Two blocks of one height are no ancestors of each other.
      have hne : ∀ y, T.IsAncestor y a → T.IsAncestor y b → y ≠ a ∧ y ≠ b := by
        intro y hya hyb
        constructor
        · rintro rfl
          exact heq (h.eq_of_isAncestor hb hyb hab.ge)
        · rintro rfl
          exact heq (h.eq_of_isAncestor ha hya hab.le).symm
      have hpos : 0 < T.heightOf a := by
        by_contra hzero
        exact (hne x hxa hxb).1 (h.eq_of_isAncestor ha hxa (by omega))
      obtain ⟨pa, hpa⟩ := h.exists_pprev ha hpos
      obtain ⟨pb, hpb⟩ := h.exists_pprev hb (by omega)
      obtain ⟨hpalt, hha⟩ := h.parent a pa hpa
      obtain ⟨hpblt, hhb⟩ := h.parent b pb hpb
      have hdown : ∀ y, T.IsAncestor y a → T.IsAncestor y b →
          T.IsAncestor y pa ∧ T.IsAncestor y pb := fun y hya hyb =>
        ⟨((isAncestor_iff_of_parent hpa).1 hya).resolve_left (hne y hya hyb).1,
          ((isAncestor_iff_of_parent hpb).1 hyb).resolve_left (hne y hya hyb).2⟩
      rw [hpa, hpb]
      obtain ⟨hxpa, hxpb⟩ := hdown x hxa hxb
      obtain ⟨c, hc, hcommon⟩ := ih hpalt hpblt (by omega) (by omega) hxpa hxpb
      exact ⟨c, hc, hcommon.of_ancestors ⟨1, back_succ_of_parent hpa⟩ ⟨1, back_succ_of_parent hpb⟩
        hdown⟩

theorem Sound.lastCommonAncestor_spec (h : T.Sound) (ha : a < T.length) (hb : b < T.length)
    (hgenesis : T.back (T.heightOf a) a = T.back (T.heightOf b) b) :
    ∃ c, T.lastCommonAncestor a b = .ok (some c) ∧ T.IsLastCommon a b c := by
  obtain ⟨qa, hqa, hqalt, hqah, hqaa⟩ := h.lowerTo_eq ha (T.heightOf b)
  obtain ⟨qb, hqb, hqblt, hqbh, hqbb⟩ := h.lowerTo_eq hb (T.heightOf a)
  have hdown : ∀ y, T.IsAncestor y a → T.IsAncestor y b →
      T.IsAncestor y qa ∧ T.IsAncestor y qb := by
    intro y hya hyb
    have hle := ((h.isAncestor_iff ha).1 hya).1
    have hle' := ((h.isAncestor_iff hb).1 hyb).1
    exact ⟨h.isAncestor_of_le ha hya hqaa (by omega), h.isAncestor_of_le hb hyb hqbb (by omega)⟩
  obtain ⟨x, hx⟩ := h.exists_back ha le_rfl
  obtain ⟨hxqa, hxqb⟩ := hdown x ⟨_, hx⟩ ⟨_, hgenesis ▸ hx⟩
  obtain ⟨c, hc, hcommon⟩ := h.commonLoop_eq hqalt hqblt (by omega)
    (n := min (T.heightOf a) (T.heightOf b) + 1) (by omega) hxqa hxqb
  refine ⟨c, ?_, hcommon.of_ancestors hqaa hqbb hdown⟩
  simp only [lastCommonAncestor, deref_eq_ok ha, deref_eq_ok hb, nHeight_eq ha, nHeight_eq hb,
    bind, Except.bind, hqa, hqb, hc]
  rfl

/-! ### Locators -/

/-- How far below the first one the `k`th entry of a locator is: one block each for the first
eleven, then steps that double. -/
def locatorDepth (k : ℕ) : ℕ := min k 10 + 2 ^ (k - 10) - 1

theorem locatorDepth_succ (k : ℕ) : locatorDepth (k + 1) = locatorDepth k + 2 ^ (k - 10) := by
  unfold locatorDepth
  have hpos : 1 ≤ 2 ^ (k - 10) := Nat.one_le_two_pow
  rcases lt_or_ge k 10 with hk | hk
  · rw [show k + 1 - 10 = 0 by omega, show k - 10 = 0 by omega]
    omega
  · rw [show k + 1 - 10 = k - 10 + 1 by omega]
    omega

/-- The genesis block is reached after `11 + log2(height + 1)` entries. -/
theorem lt_of_locatorDepth_lt {k H : ℕ} (hk : locatorDepth k < H) : k < 11 + Nat.log2 (H + 1) := by
  by_contra hge
  have hlog : H + 1 < 2 ^ (Nat.log2 (H + 1) + 1) := Nat.lt_log2_self
  have hpow : 2 ^ (Nat.log2 (H + 1) + 1) ≤ 2 ^ (k - 10) :=
    Nat.pow_le_pow_right (by decide) (by omega)
  unfold locatorDepth at hk
  omega

/-- A locator of `b`: ancestors from `b` to the genesis block, ever lower. -/
structure IsLocator (T : SkipTree) (b : ℕ) (l : List ℕ) : Prop where
  head : l.head? = some b
  last : ∃ g, l.getLast? = some g ∧ T.heightOf g = 0 ∧ T.pprevOf g = none
  ancestors : ∀ x ∈ l, T.IsAncestor x b
  decreasing : (l.map T.heightOf).Pairwise (· > ·)

theorem IsLocator.cons {l : List ℕ} (hq : T.IsAncestor q p) (hlt : T.heightOf q < T.heightOf p)
    (hsound : T.Sound) (hqlt : q < T.length) (hl : T.IsLocator q l) : T.IsLocator p (p :: l) where
  head := rfl
  last := by
    obtain ⟨g, hg, hrest⟩ := hl.last
    refine ⟨g, ?_, hrest⟩
    rw [getLast?_cons, hg]
    rfl
  ancestors x hx := by
    rcases mem_cons.1 hx with rfl | hx
    · exact isAncestor_refl
    · exact (hl.ancestors x hx).trans hq
  decreasing := by
    rw [map_cons, pairwise_cons]
    refine ⟨fun y hy => ?_, hl.decreasing⟩
    obtain ⟨x, hx, rfl⟩ := mem_map.1 hy
    exact lt_of_le_of_lt ((hsound.isAncestor_iff hqlt).1 (hl.ancestors x hx)).1 hlt

theorem Sound.isLocator_genesis (h : T.Sound) (hzero : T.heightOf p = 0) : T.IsLocator p [p] where
  head := rfl
  last := by
    refine ⟨p, rfl, hzero, ?_⟩
    cases hq : T.pprevOf p with
    | none => rfl
    | some q =>
      have := (h.parent p q hq).2
      omega
  ancestors x hx := by
    rw [mem_singleton.1 hx]
    exact isAncestor_refl
  decreasing := pairwise_singleton _ _

/-- The loop of `LocatorEntries` with `have'.length = k` entries of a locator that started at height
`H`. -/
theorem Sound.locatorLoop_eq (h : T.Sound) {H k : ℕ} (hH : H < 2 ^ 30) (hp : p < T.length)
    (hn : T.heightOf p < n) (hdepth : T.heightOf p = H - locatorDepth k)
    (hk : k ≤ 11 + Nat.log2 (H + 1)) (have' : List ℕ) (hlen : have'.length = k) :
    ∃ l, T.locatorLoop n (some p) (2 ^ (k - 10) : ℕ) have' = .ok (have' ++ l) ∧
      T.IsLocator p l ∧ k + l.length ≤ 12 + Nat.log2 (H + 1) := by
  induction n generalizing p k have' with
  | zero => exact absurd hn (Nat.not_lt_zero _)
  | succ n ih =>
    simp only [locatorLoop, deref_eq_ok hp, nHeight_eq hp, bind, Except.bind]
    split_ifs with hzero
    · exact ⟨[p], rfl, h.isLocator_genesis hzero, by rw [length_singleton]; omega⟩
    · have hlt := lt_of_locatorDepth_lt (k := k) (H := H) (by omega)
      have hsucc := locatorDepth_succ k
      have hpos : 1 ≤ 2 ^ (k - 10) := Nat.one_le_two_pow
      have hmax : max ((T.heightOf p : ℤ) - (2 ^ (k - 10) : ℕ)) 0 =
          ((H - locatorDepth (k + 1) : ℕ) : ℤ) := by omega
      obtain ⟨q, hq⟩ := h.exists_back hp (Nat.sub_le (T.heightOf p) (H - locatorDepth (k + 1)))
      obtain ⟨hqlt, hheight⟩ := h.back_height hp hq
      -- The step stays below half the height that is left to go, so doubling it does not overflow.
      have hstep : nextStep (have' ++ [p]).length ((2 ^ (k - 10) : ℕ) : ℤ) =
          .ok ((2 ^ (k + 1 - 10) : ℕ) : ℤ) := by
        rw [length_append, length_singleton, nextStep]
        rcases lt_or_ge k 10 with hk' | hk'
        · rw [if_pos (by omega), show k + 1 - 10 = k - 10 by omega]
        · have hdouble : (2 ^ (k + 1 - 10) : ℕ) = 2 ^ (k - 10) * 2 := by
            rw [show k + 1 - 10 = k - 10 + 1 by omega, pow_succ]
          have hsmall : 2 ^ (k - 10) < 2 ^ 30 := by
            unfold locatorDepth at hdepth
            omega
          rw [if_neg (by omega), if_pos (by omega), hdouble]
          rfl
      obtain ⟨l, hl, hloc, hcount⟩ := ih (k := k + 1) hqlt (by omega) (by omega) (by omega)
        (have' ++ [p]) (by rw [length_append, hlen]; rfl)
      refine ⟨p :: l, ?_, hloc.cons ⟨_, hq⟩ (by omega) h hqlt, by rw [length_cons]; omega⟩
      rw [hmax, h.getAncestor_eq hp (by omega), hq]
      simp only [hstep]
      rw [hl, append_assoc, singleton_append]

theorem Sound.locatorEntries_spec (h : T.Sound) {Hash : Type} (getBlockHash : ℕ → Hash)
    (hb : b < T.length) (hheight : T.heightOf b < 2 ^ 30) :
    ∃ l, T.locatorEntries getBlockHash b = .ok (l.map getBlockHash) ∧ T.IsLocator b l ∧
      l.length ≤ 12 + Nat.log2 (T.heightOf b + 1) := by
  obtain ⟨l, hl, hloc, hcount⟩ := h.locatorLoop_eq hheight hb (Nat.lt_succ_self _) rfl
    (Nat.zero_le _) [] rfl
  refine ⟨l, ?_, hloc, by omega⟩
  simp only [locatorEntries, deref_eq_ok hb, nHeight_eq hb, bind, Except.bind]
  rw [show 1 = ((2 ^ (0 - 10) : ℕ) : ℤ) from rfl, hl]
  rfl

end SkipTree

/-! ### Adding blocks and setting the tip -/

open SkipTree

/-- The block index and the active chain. -/
structure ChainState where
  tree : SkipTree
  vChain : VChain

/-- What is done to them. -/
inductive ChainOp
  | addBlock (pprev : Option ℕ)
  | setTip (block : ℕ)

/-- The block index grows, and the tip is set to any of its blocks. -/
def chainSystem : LTS ChainState ChainOp where
  init s := s = ⟨[], []⟩
  step s op s' := match op with
    | .addBlock pprev => s.tree.ValidParent pprev ∧ s.vChain = s'.vChain ∧
        s.tree.addBlock pprev = .ok s'.tree
    | .setTip block => block < s.tree.length ∧ s.tree = s'.tree ∧
        s.tree.setTip s.vChain block = .ok s'.vChain

/-- The block the tip was last set to. -/
def currentTip (ops : List ChainOp) : Option ℕ :=
  ops.foldl (fun tip op => match op with
    | .addBlock _ => tip
    | .setTip block => some block) none

theorem SkipTree.IsChain.append {T : SkipTree} {node : SkipNode} {tip : Option ℕ} {v : VChain}
    (h : T.Sound) (hv : T.IsChain tip v) : IsChain (T ++ [node]) tip v := by
  cases tip with
  | none => exact hv
  | some t =>
    obtain ⟨ht, hlen, hv⟩ := hv
    refine ⟨?_, ?_, fun i hi => ?_⟩
    · rw [length_append]
      omega
    · rw [heightOf_append ht, hlen]
    · rw [heightOf_append ht] at hi ⊢
      rw [hv i hi, h.back_append ht]

theorem chainSystem_run {ops : List ChainOp} {s : ChainState} (h : chainSystem.Run ops s) :
    s.tree.Sound ∧ s.tree.IsChain (currentTip ops) s.vChain := by
  induction h with
  | start hs =>
    obtain rfl := hs
    exact ⟨sound_nil, rfl⟩
  | @snoc ops s s' op _ hst ih =>
    obtain ⟨hsound, hchain⟩ := ih
    cases op with
    | addBlock pprev =>
      obtain ⟨hvalid, hv, hadd⟩ := hst
      obtain ⟨node, hnode, hsound'⟩ := hsound.addBlock hvalid
      rw [hnode] at hadd
      have htree := Except.ok.inj hadd
      rw [← htree, ← hv, currentTip, foldl_append]
      exact ⟨hsound', hchain.append hsound⟩
    | setTip block =>
      obtain ⟨hblock, htree, hset⟩ := hst
      obtain ⟨v', hv', hchain'⟩ := hsound.setTip_spec hchain hblock
      rw [hv'] at hset
      rw [← htree, ← Except.ok.inj hset, currentTip, foldl_append]
      exact ⟨hsound, hchain'⟩

/-- **The chain is the path to the tip, and forks, common ancestors and locators are exact.** -/
theorem active_chain_exact (ops : List ChainOp) (s : ChainState) (h : chainSystem.Run ops s) :
    s.tree.IsChain (currentTip ops) s.vChain ∧ s.vChain.tip = currentTip ops ∧
      (∀ b < s.tree.length, ∃ v, s.tree.setTip s.vChain b = .ok v) ∧
      (∀ b < s.tree.length,
        ∃ r, s.tree.findFork s.vChain (some b) = .ok r ∧ s.tree.IsFork s.vChain b r) ∧
      (∀ a < s.tree.length, ∀ b < s.tree.length,
        s.tree.back (s.tree.heightOf a) a = s.tree.back (s.tree.heightOf b) b →
          ∃ c, s.tree.lastCommonAncestor a b = .ok (some c) ∧ s.tree.IsLastCommon a b c) ∧
      ∀ b < s.tree.length, s.tree.heightOf b < 2 ^ 30 →
        ∀ {Hash : Type} (getBlockHash : ℕ → Hash),
          ∃ l, s.tree.locatorEntries getBlockHash b = .ok (l.map getBlockHash) ∧
            s.tree.IsLocator b l ∧ l.length ≤ 12 + Nat.log2 (s.tree.heightOf b + 1) := by
  obtain ⟨hsound, hchain⟩ := chainSystem_run h
  refine ⟨hchain, hchain.tip_eq, fun b hb => ?_, fun b hb => hsound.findFork_spec hb _,
    fun a ha b hb => hsound.lastCommonAncestor_spec ha hb,
    fun b hb hheight _ getBlockHash => hsound.locatorEntries_spec getBlockHash hb hheight⟩
  obtain ⟨v, hv, -⟩ := hsound.setTip_spec hchain hb
  exact ⟨v, hv⟩

/-- Make one of the calls, if its argument is there. -/
def ChainState.exec (s : ChainState) : ChainOp → Option ChainState
  | .addBlock pprev =>
    if s.tree.ValidParent pprev then (s.tree.addBlock pprev).toOption.map (⟨·, s.vChain⟩) else none
  | .setTip block =>
    if block < s.tree.length then
      (s.tree.setTip s.vChain block).toOption.map (⟨s.tree, ·⟩)
    else none

theorem ChainState.step_of_exec {s s' : ChainState} {op : ChainOp} (h : s.exec op = some s') :
    chainSystem.step s op s' := by
  have hok : ∀ {α : Type} {x : Except PointerFault α} {y}, x.toOption = some y → x = .ok y := by
    intro α x y hx
    cases x with
    | error e => cases hx
    | ok z => exact congrArg _ (some.inj hx)
  cases op with
  | addBlock pprev =>
    simp only [exec] at h
    split_ifs at h with hvalid
    obtain ⟨T, hT, rfl⟩ := map_eq_some_iff.1 h
    exact ⟨hvalid, rfl, hok hT⟩
  | setTip block =>
    simp only [exec] at h
    split_ifs at h with hblock
    obtain ⟨v, hv, rfl⟩ := map_eq_some_iff.1 h
    exact ⟨hblock, rfl, hok hv⟩

/-- The tip moves to a branch that forks off above the second block. -/
def reorgRun : List ChainOp :=
  [.addBlock none, .addBlock (some 0), .addBlock (some 1), .addBlock (some 2), .setTip 3,
    .addBlock (some 1), .addBlock (some 4), .setTip 5]

theorem active_chain_reorgRun : ∃ s, chainSystem.Run reorgRun s ∧
    s.vChain = [some 0, some 1, some 4, some 5] ∧ 3 < s.tree.length ∧
      s.tree.IsChain (some 5) s.vChain ∧
      ∃ r, s.tree.findFork s.vChain (some 3) = .ok r ∧ s.tree.IsFork s.vChain 3 r := by
  have hrun : (reorgRun.foldlM ChainState.exec ⟨[], []⟩).map
      (fun s => (s.vChain, s.tree.length)) = some ([some 0, some 1, some 4, some 5], 6) := by
    decide +kernel
  obtain ⟨s, hs, hfacts⟩ := map_eq_some_iff.1 hrun
  rw [Prod.mk.injEq] at hfacts
  have hreach : chainSystem.Run reorgRun s :=
    LTS.Run.foldlM (.start rfl) (fun _ _ _ => ChainState.step_of_exec) hs
  obtain ⟨hchain, -, -, hfork, -⟩ := active_chain_exact reorgRun s hreach
  exact ⟨s, hreach, hfacts.1, by omega, hchain, hfork 3 (by omega)⟩

end KPCoin.Chain
