import KPCoin.Primitives.Serialize

/-!
# Differential lists

`DifferenceFormatter` of `blockencodings.h` writes an increasing list of unsigned integers of `w`
bits by the numbers that are left out between them.

`differences_spec` : what is written is read back, also with the count that `VectorFormatter` writes
before it; what is read is strictly increasing; and a running sum that leaves the type or passes 64
bits is refused.
-/

namespace KPCoin.BlockEncodings

open List KPCoin.Serialize Reader

variable {w : ℕ}

/-- `DifferenceFormatter::Ser`: the bytes and `m_shift` after it. -/
def ser (mShift : ℕ) (v : BitVec w) : Option (List UInt8 × ℕ) :=
  if v.toNat < mShift ∨ v.toNat ≥ 2 ^ 64 - 1 then none
  else some (writeCompactSize (v.toNat - mShift), (v.toNat + 1) % 2 ^ 64)

/-- `DifferenceFormatter::Unser`, with `m_shift` after it.  The least value of the type is 0. -/
def unser (mShift : ℕ) : Reader UInt8 (BitVec w × ℕ) := do
  let n ← readCompactSize
  let mShift := (mShift + n) % 2 ^ 64
  if mShift < n ∨ mShift ≥ 2 ^ 64 - 1 ∨ mShift < 0 ∨ mShift > 2 ^ w - 1 then failure
  else return (BitVec.ofNat w mShift, (mShift + 1) % 2 ^ 64)

/-- The elements of a list, one after the other. -/
def serAll : ℕ → List (BitVec w) → Option (List UInt8)
  | _, [] => some []
  | mShift, v :: vs => do
    let (bytes, mShift) ← ser mShift v
    return bytes ++ (← serAll mShift vs)

/-- As many elements as given. -/
def unserAll : ℕ → ℕ → Reader UInt8 (List (BitVec w))
  | 0, _ => pure []
  | n + 1, mShift => do
    let (v, mShift) ← unser mShift
    return v :: (← unserAll n mShift)

/-- `VectorFormatter<DifferenceFormatter>::Ser`. -/
def serVector (v : List (BitVec w)) : Option (List UInt8) := do
  return writeCompactSize v.length ++ (← serAll 0 v)

/-- `VectorFormatter<DifferenceFormatter>::Unser`. -/
def unserVector : Reader UInt8 (List (BitVec w)) := do
  let n ← readCompactSize
  unserAll n 0

/-- What is left out before each element. -/
def gaps : ℕ → List ℕ → List ℕ
  | _, [] => []
  | mShift, v :: vs => (v - mShift) :: gaps (v + 1) vs

/-- The running sums of the gaps, in unbounded integers. -/
def sums : ℕ → List ℕ → List ℕ
  | _, [] => []
  | mShift, n :: ns => (mShift + n) :: sums (mShift + n + 1) ns

variable {m n d : ℕ} {s rest : List UInt8} {r : BitVec w × ℕ}

theorem run_unser (hm : m < 2 ^ 64) (hd : d < 256 ^ 8) (rest : List UInt8) :
    (unser m).run (writeCompactSize d ++ rest) =
      if d ≤ maxSize ∧ m + d < 2 ^ w ∧ m + d < 2 ^ 64 - 1 then
        some ((BitVec.ofNat w (m + d), m + d + 1), rest) else none := by
  have hw : 0 < 2 ^ w := Nat.two_pow_pos w
  rw [unser, StateT.run_bind]
  by_cases hsize : d ≤ maxSize
  · rw [reads_compactSize hsize]
    by_cases hrange : m + d < 2 ^ w ∧ m + d < 2 ^ 64 - 1
    · have hmod : (m + d) % 2 ^ 64 = m + d := Nat.mod_eq_of_lt (by omega)
      have hmod' : (m + d + 1) % 2 ^ 64 = m + d + 1 := Nat.mod_eq_of_lt (by omega)
      rw [if_pos ⟨hsize, hrange⟩]
      simp only [hmod, hmod', Option.bind_eq_bind, Option.bind_some]
      rw [if_neg (by omega)]
      rfl
    · rw [if_neg fun h => hrange h.2]
      simp only [Option.bind_eq_bind, Option.bind_some]
      rw [if_pos (by omega)]
      rfl
  · rw [run_readCompactSize_of_gt (Nat.not_le.1 hsize) hd, if_neg fun h => hsize h.1]
    rfl

theorem run_unser_eq_some (hm : m < 2 ^ 64) (h : (unser m).run s = some (r, rest)) :
    ∃ d, r = (BitVec.ofNat w (m + d), m + d + 1) ∧ m + d < 2 ^ w ∧ m + d < 2 ^ 64 - 1 := by
  obtain ⟨d, s', hd, -⟩ := run_bind_eq_some.1 h
  obtain ⟨d', s'', hd', hcheck⟩ := run_bind_eq_some.1 hd
  obtain ⟨hlt, rfl⟩ := run_readSize_iff.1 hd'
  rw [run_unser hm hlt] at h
  split_ifs at h with hrange
  obtain ⟨rfl, rfl⟩ := h
  exact ⟨d', rfl, hrange.2⟩

theorem unserAll_increasing {v : List (BitVec w)} (hm : m < 2 ^ 64)
    (h : (unserAll n m).run s = some (v, rest)) : (∀ x ∈ v, m ≤ x.toNat) ∧ v.Pairwise (· < ·) := by
  induction n generalizing m s v rest with
  | zero =>
    obtain ⟨rfl, -⟩ := run_pure_eq_some.1 h
    exact ⟨nofun, .nil⟩
  | succ n ih =>
    obtain ⟨r, s', hr, h⟩ := run_bind_eq_some.1 h
    obtain ⟨d, rfl, hw, hd⟩ := run_unser_eq_some hm hr
    obtain ⟨vs, s'', hvs, h⟩ := run_bind_eq_some.1 h
    obtain ⟨rfl, -⟩ := run_pure_eq_some.1 h
    obtain ⟨hle, hinc⟩ := ih (by omega) hvs
    have hnat : (BitVec.ofNat w (m + d)).toNat = m + d := by
      rw [BitVec.toNat_ofNat, Nat.mod_eq_of_lt hw]
    refine ⟨forall_mem_cons.2 ⟨by omega, fun x hx => ?_⟩, pairwise_cons.2 ⟨fun x hx => ?_, hinc⟩⟩
    · have := hle x hx
      omega
    · have := hle x hx
      rw [BitVec.lt_def]
      omega

theorem unserAll_refused {ds : List ℕ} (hm : m < 2 ^ 64) (hds : ∀ d ∈ ds, d < 256 ^ 8)
    (hn : ds.length ≤ n) (hout : ∃ x ∈ sums m ds, 2 ^ w ≤ x ∨ 2 ^ 64 ≤ x) :
    (unserAll n m : Reader UInt8 (List (BitVec w))).run
      (ds.flatMap writeCompactSize ++ rest) = none := by
  induction ds generalizing m n with
  | nil => simp [sums] at hout
  | cons d ds ih =>
    obtain ⟨n, rfl⟩ : ∃ k, n = k + 1 := ⟨n - 1, by rw [length_cons] at hn; omega⟩
    obtain ⟨hd, hds⟩ := forall_mem_cons.1 hds
    rw [flatMap_cons, append_assoc, unserAll, StateT.run_bind, run_unser hm hd]
    split_ifs with hrange
    · have hrest := ih (m := m + d + 1) (n := n) (by omega) hds (by simpa using hn) <| by
        obtain ⟨x, hx, hout⟩ := hout
        rcases mem_cons.1 hx with rfl | hx
        · omega
        · exact ⟨x, hx, hout⟩
      simp only [Option.bind_eq_bind, Option.bind_some, StateT.run_bind, hrest]
      rfl
    · rfl

theorem reads_unserAll {v : List (BitVec w)} (hm : m < 2 ^ 64) (hinc : v.Pairwise (· < ·))
    (hle : ∀ x ∈ v, m ≤ x.toNat ∧ x.toNat < 2 ^ 64 - 1)
    (hgaps : ∀ d ∈ gaps m (v.map BitVec.toNat), d ≤ maxSize) :
    ∃ bytes, serAll m v = some bytes ∧ Reads (unserAll v.length m) bytes v := by
  induction v generalizing m with
  | nil => exact ⟨[], rfl, reads_pure []⟩
  | cons x v ih =>
    obtain ⟨⟨hmx, hx⟩, hle⟩ := forall_mem_cons.1 hle
    obtain ⟨hgap, hgaps⟩ := forall_mem_cons.1 hgaps
    obtain ⟨hlt, hinc⟩ := pairwise_cons.1 hinc
    obtain ⟨bytes, hbytes, hreads⟩ := ih (m := x.toNat + 1) (by omega) hinc
      (fun y hy => ⟨BitVec.lt_def.1 (hlt y hy), (hle y hy).2⟩) hgaps
    refine ⟨writeCompactSize (x.toNat - m) ++ bytes, ?_, ?_⟩
    · rw [serAll, ser, if_neg (by omega), Nat.mod_eq_of_lt (by omega)]
      simp [hbytes]
    · have hsum : m + (x.toNat - m) = x.toNat := by omega
      have hfirst : Reads (unser m) (writeCompactSize (x.toNat - m)) (x, x.toNat + 1) := by
        intro rest
        have hmax : maxSize < 256 ^ 8 := by decide
        rw [run_unser hm (by omega), hsum, if_pos ⟨hgap, x.isLt, hx⟩, BitVec.ofNat_toNat,
          BitVec.setWidth_eq]
      exact hfirst.bind (hreads.map (x :: ·))

/-- **Differential lists are lossless and strictly increasing**, for every unsigned type. -/
theorem differences_spec (w : ℕ) :
    (∀ v : List (BitVec w), v.Pairwise (· < ·) → (∀ x ∈ v, x.toNat < 2 ^ 64 - 1) →
      (∀ d ∈ gaps 0 (v.map BitVec.toNat), d ≤ maxSize) →
      (∃ bytes, serAll 0 v = some bytes ∧ Reads (unserAll v.length 0) bytes v) ∧
        (v.length ≤ maxSize → ∃ bytes, serVector v = some bytes ∧ Reads unserVector bytes v)) ∧
    (∀ n s rest (v : List (BitVec w)), (unserAll n 0).run s = some (v, rest) →
      v.Pairwise (· < ·)) ∧
    (∀ s rest (v : List (BitVec w)), unserVector.run s = some (v, rest) → v.Pairwise (· < ·)) ∧
    ∀ ds n rest, (∀ d ∈ ds, d < 2 ^ 64) → ds.length ≤ n →
      (∃ x ∈ sums 0 ds, 2 ^ w ≤ x ∨ 2 ^ 64 ≤ x) →
      (unserAll n 0 : Reader UInt8 (List (BitVec w))).run
        (ds.flatMap writeCompactSize ++ rest) = none := by
  refine ⟨fun v hinc hlt hgaps => ?_, fun _ _ _ _ h => (unserAll_increasing (by decide) h).2,
    fun s rest v h => ?_, fun _ _ _ hds => unserAll_refused (by decide) hds⟩
  · obtain ⟨bytes, hbytes, hreads⟩ :=
      reads_unserAll (by decide) hinc (fun x hx => ⟨Nat.zero_le _, hlt x hx⟩) hgaps
    refine ⟨⟨bytes, hbytes, hreads⟩, fun hlen => ?_⟩
    exact ⟨_, by rw [serVector, hbytes]; rfl, (reads_compactSize hlen).bind hreads⟩
  · obtain ⟨n, s', -, hn⟩ := run_bind_eq_some.1 h
    exact (unserAll_increasing (by decide) hn).2

end KPCoin.BlockEncodings
