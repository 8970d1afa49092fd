import Mathlib

/-!
# Merkle trees that repeat the last entry of an odd level

A level is hashed pairwise into the next one; the last entry of a level with an odd number of
entries is paired with itself.  A level with the twins `x, x` at its end hashes like the one without
the second `x`, so the leaves are only determined by the root if no level pairs twins.

* `pairs`, `up` : the pairs of a level, and the next level;
* `Above` : a level of the tree over a list, up to its root;
* `level` : the levels by their height;
* `eq_of_root_eq` : two lists without twins, with the same root and without collisions, are equal,
  if no leaf is a hash.

Nothing is asked of the hash function but on the pairs that the trees hash (`Hashed`).
-/

namespace MerkleTree

open List

variable {α : Type*}

/-- The pairs in which a level is hashed. -/
def pairs : List α → List (α × α)
  | [] => []
  | [a] => [(a, a)]
  | a :: b :: rest => (a, b) :: pairs rest

/-- No two entries that are paired are equal. -/
def NoTwins : List α → Prop
  | a :: b :: rest => a ≠ b ∧ NoTwins rest
  | _ => True

theorem length_pairs : (l : List α) → (pairs l).length = (l.length + 1) / 2
  | [] => by simp [pairs]
  | [_] => by simp [pairs]
  | _ :: _ :: rest => by
    simp only [pairs, length_cons, length_pairs rest]
    omega

theorem pairs_ne_nil : {l : List α} → l ≠ [] → pairs l ≠ []
  | [], h => absurd rfl h
  | [_], _ => cons_ne_nil _ _
  | _ :: _ :: _, _ => cons_ne_nil _ _

/-- Without twins, a level is determined by its pairs. -/
theorem eq_of_pairs_eq : {l l' : List α} → NoTwins l → NoTwins l' → pairs l = pairs l' → l = l'
  | [], [], _, _, _ => rfl
  | [], [_], _, _, h => by cases h
  | [], _ :: _ :: _, _, _, h => by cases h
  | [_], [], _, _, h => by cases h
  | [a], [b], _, _, h => by
    injection h with h
    exact congrArg (fun p => [p.1]) h
  | [a], b :: c :: rest, _, hl', h => by
    -- the twins `b` and `c` would be in the second list
    injection h with h
    injection h with hb hc
    exact absurd (hb.symm.trans hc) hl'.1
  | _ :: _ :: _, [], _, _, h => by cases h
  | a :: b :: rest, [c], hl, _, h => by
    injection h with h
    injection h with ha hb
    exact absurd (ha.trans hb.symm) hl.1
  | a :: b :: rest, c :: d :: rest', hl, hl', h => by
    injection h with hpair hrest
    injection hpair with ha hb
    rw [ha, hb, eq_of_pairs_eq hl.2 hl'.2 hrest]

variable (hash : α → α → α)

/-- The next level. -/
def up (l : List α) : List α := (pairs l).map fun p => hash p.1 p.2

/-- One round of hashing, as long as there are two entries. -/
def Rises (l l' : List α) : Prop := 2 ≤ l.length ∧ l' = up hash l

/-- `l'` is a level of the tree over `l`. -/
def Above : List α → List α → Prop := Relation.ReflTransGen (Rises hash)

/-- A pair that is hashed on the way to the root. -/
def Hashed (l : List α) (p : α × α) : Prop := ∃ y, Above hash l y ∧ 2 ≤ y.length ∧ p ∈ pairs y

/-- No level pairs twins. -/
def Plain (l : List α) : Prop := ∀ y, Above hash l y → NoTwins y

variable {hash} {l l' y : List α} {r : α}

theorem length_up (l : List α) : (up hash l).length = (l.length + 1) / 2 := by
  rw [up, length_map, length_pairs]

theorem Above.head (hl : 2 ≤ l.length) (h : Above hash (up hash l) y) : Above hash l y :=
  Relation.ReflTransGen.head ⟨hl, rfl⟩ h

theorem Above.cases_head (h : Above hash l y) :
    y = l ∨ 2 ≤ l.length ∧ Above hash (up hash l) y := by
  rcases Relation.ReflTransGen.cases_head h with heq | ⟨_, ⟨hl, rfl⟩, hy⟩
  · exact .inl heq.symm
  · exact .inr ⟨hl, hy⟩

theorem Above.cases_tail (h : Above hash l y) :
    y = l ∨ ∃ z, Above hash l z ∧ 2 ≤ z.length ∧ y = up hash z := by
  rcases Relation.ReflTransGen.cases_tail h with heq | ⟨z, hz, hlen, hy⟩
  · exact .inl heq
  · exact .inr ⟨z, hz, hlen, hy⟩

theorem Plain.up (h : Plain hash l) (hl : 2 ≤ l.length) : Plain hash (up hash l) :=
  fun y hy => h y (hy.head hl)

theorem eq_of_map_eq {β γ : Type*} {f : β → γ} : {xs ys : List β} →
    (∀ p ∈ xs, ∀ q ∈ ys, f p = f q → p = q) → xs.map f = ys.map f → xs = ys
  | [], [], _, _ => rfl
  | [], _ :: _, _, h => by cases h
  | _ :: _, [], _, h => by cases h
  | p :: xs, q :: ys, hinj, h => by
    injection h with hhead htail
    rw [hinj p mem_cons_self q mem_cons_self hhead, eq_of_map_eq
      (fun p hp q hq => hinj p (mem_cons_of_mem _ hp) q (mem_cons_of_mem _ hq)) htail]

section Roots

variable (hplain : Plain hash l) (hplain' : Plain hash l')
  (hinj : ∀ p q, Hashed hash l p → Hashed hash l' q → hash p.1 p.2 = hash q.1 q.2 → p = q)
include hplain hplain' hinj

/-- Of two trees with the same root, one is a part of the other. -/
theorem above_or_above (hl : Above hash l [r]) (hl' : Above hash l' [r]) :
    Above hash l l' ∨ Above hash l' l := by
  -- from the root down to the leaves of `l`
  induction hl using Relation.ReflTransGen.head_induction_on with
  | refl => exact .inr hl'
  | @head l _ hrise hrest ih =>
    obtain ⟨hlen, rfl⟩ := hrise
    rcases ih (hplain.up hlen) fun p q ⟨y, hy, hp⟩ => hinj p q ⟨y, hy.head hlen, hp⟩ with h | h
    · exact .inl (h.head hlen)
    · rcases h.cases_tail with heq | ⟨y, hy, hylen, heq⟩
      · rw [← heq]
        exact .inl (.single ⟨hlen, rfl⟩)
      · have hpairs : pairs l = pairs y := eq_of_map_eq
          (fun p hp q hq => hinj p q ⟨l, .refl, hlen, hp⟩ ⟨y, hy, hylen, hq⟩) heq
        rw [eq_of_pairs_eq (hplain l .refl) (hplain' y hy) hpairs]
        exact .inr hy

omit hplain hplain' hinj in
/-- A part of a tree that is not the whole tree has a leaf that is a hash. -/
theorem eq_of_above (h : Above hash l l')
    (hleaf : ∀ x ∈ l', ∀ p, Hashed hash l p → hash p.1 p.2 ≠ x) : l' = l := by
  rcases h.cases_tail with heq | ⟨y, hy, hlen, rfl⟩
  · exact heq
  · obtain ⟨p, hp⟩ := exists_mem_of_ne_nil _ (pairs_ne_nil (l := y) (by rintro rfl; simp at hlen))
    exact absurd rfl (hleaf _ (mem_map_of_mem hp) p ⟨y, hy, hlen, hp⟩)

/-- **The root determines the leaves.** -/
theorem eq_of_root_eq (hl : Above hash l [r]) (hl' : Above hash l' [r])
    (hleaf : ∀ x ∈ l, ∀ p, Hashed hash l' p → hash p.1 p.2 ≠ x)
    (hleaf' : ∀ x ∈ l', ∀ p, Hashed hash l p → hash p.1 p.2 ≠ x) : l = l' := by
  rcases above_or_above hplain hplain' hinj hl hl' with h | h
  · exact (eq_of_above h hleaf').symm
  · exact eq_of_above h hleaf

end Roots

theorem getElem?_pairs : (l : List α) → (i : ℕ) →
    (pairs l)[i]? = l[2 * i]?.map fun a => (a, (l[2 * i + 1]?).getD a)
  | [], _ => by simp [pairs]
  | [_], 0 => by simp [pairs]
  | [_], i + 1 => by simp [pairs]
  | _ :: _ :: _, 0 => by simp [pairs]
  | a :: b :: rest, i + 1 => by
    rw [pairs, getElem?_cons_succ, getElem?_pairs rest i]
    rfl

variable (hash) in
/-- The level at a height above the leaves. -/
def level (l : List α) : ℕ → List α
  | 0 => l
  | h + 1 => up hash (level l h)

theorem length_level (l : List α) (h : ℕ) :
    (level hash l h).length = (l.length + 2 ^ h - 1) / 2 ^ h := by
  induction h with
  | zero => simp [level]
  | succ h ih =>
    have hpos : 0 < 2 ^ h := Nat.two_pow_pos h
    have hsum : l.length + 2 ^ h - 1 + 2 ^ h = l.length + 2 ^ h * 2 - 1 := by omega
    rw [level, length_up, ih, ← Nat.add_div_right _ hpos, Nat.div_div_eq_div_mul, hsum,
      Nat.pow_succ]

/-- A level is reached as long as the ones below have two entries. -/
theorem above_level {h : ℕ} (hlen : ∀ k < h, 2 ≤ (level hash l k).length) :
    Above hash l (level hash l h) := by
  induction h with
  | zero => exact .refl
  | succ h ih => exact (ih fun k hk => hlen k (by omega)).tail ⟨hlen h (by omega), rfl⟩

theorem Above.unique {z : List α} (hy : Above hash l y) (hz : Above hash l z) (hylen : y.length < 2)
    (hzlen : z.length < 2) : y = z := by
  induction hy using Relation.ReflTransGen.head_induction_on with
  | refl =>
    rcases hz.cases_head with rfl | ⟨hlen, -⟩
    · rfl
    · omega
  | head hrise _ ih =>
    obtain ⟨hlen, rfl⟩ := hrise
    rcases hz.cases_head with rfl | ⟨-, hz⟩
    · omega
    · exact ih hz

end MerkleTree
