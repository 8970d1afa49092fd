import KPCoin.Bech32

/-!
# Substituted characters

The checksum of `bech32.cpp` has distance at least four on the lengths that `Decode` accepts.  By
linearity the errors in a string act on the state of `PolyMod` as they act on the state `0`.  A step
without input is injective, so errors go unnoticed only when the last of them cancels the state that
those before it led to, which then has only its lowest group set.

* `nodup_syndromes` : the states after one error differ above their lowest group.
* `decode_substituted` : with one to three characters substituted, a string is not accepted with the
  same encoding.
-/

namespace KPCoin.Bech32

open List

/-- The state `k` characters after `c`. -/
def syndrome (c : ℕ) : ℕ → ℕ
  | 0 => c
  | k + 1 => polyModStep (syndrome c k) 0

/-- No two of the numbers agree on the lowest bits. -/
def distinct : ℕ → List ℕ → Bool
  | 0, l => l.length ≤ 1
  | n + 1, l => match l with
    | [] | [_] => true
    | l =>
      let p := fun a => Nat.beq (a / 2 ^ n % 2) 0
      distinct n (l.filter p) && distinct n (l.filter (!p ·))

theorem nodup_of_distinct {n : ℕ} {l : List ℕ} (h : distinct n l) : l.Nodup := by
  induction n generalizing l with
  | zero =>
    match l, h with
    | [], _ => exact nodup_nil
    | [a], _ => exact nodup_singleton a
  | succ n ih =>
    match l, h with
    | [], _ => exact nodup_nil
    | [a], _ => exact nodup_singleton a
    | a :: b :: l, h =>
      obtain ⟨hpos, hneg⟩ := Bool.and_eq_true_iff.1 h
      refine (filter_append_perm _ _).nodup_iff.1 (nodup_append.2 ⟨ih hpos, ih hneg, ?_⟩)
      rintro x hx _ hy rfl
      grind

/-- The errors: no error, or one with a number of characters after it. -/
def errors : List (ℕ × ℕ) :=
  (0, 0) :: (range' 1 31).flatMap fun v => (range' 1 87).map fun k => (v, k)

theorem nodup_syndromes : (errors.map fun e => syndrome e.1 e.2 / 32).Nodup := by
  rw [errors, map_cons, map_flatMap]
  simp only [map_map, Function.comp_def]
  exact nodup_of_distinct (n := 25) (by decide +kernel)

theorem mem_errors {v k : ℕ} (hv : 0 < v ∧ v < 32) (hk : 0 < k ∧ k ≤ 87) : (v, k) ∈ errors := by
  simp only [errors, mem_cons, mem_flatMap, mem_range'_1, mem_map]
  exact .inr ⟨v, by omega, k, by omega, rfl⟩

theorem syndrome_div_inj {e f : ℕ × ℕ} (he : e ∈ errors) (hf : f ∈ errors)
    (h : syndrome e.1 e.2 / 32 = syndrome f.1 f.2 / 32) : e = f :=
  inj_on_of_nodup_map nodup_syndromes he hf h

theorem polyModStep_eq (c v : ℕ) : polyModStep c v = polyModStep c 0 ^^^ v := by
  have hzero : polyModStep 0 v = v := by simp [polyModStep, xorIf]
  conv_lhs => rw [← Nat.xor_zero c, ← Nat.zero_xor v, polyModStep_xor, hzero]

theorem syndrome_xor (c d k : ℕ) : syndrome (c ^^^ d) k = syndrome c k ^^^ syndrome d k := by
  induction k with
  | zero => rfl
  | succ k ih => rw [syndrome, ih, ← Nat.xor_zero 0, polyModStep_xor, syndrome, syndrome]

theorem syndrome_syndrome (c j k : ℕ) : syndrome (syndrome c j) k = syndrome c (j + k) := by
  induction k with
  | zero => rfl
  | succ k ih => rw [syndrome, ih]; rfl

theorem polyModStep_zero_ne {c : ℕ} (hc : c < 2 ^ 30) (hne : c ≠ 0) : polyModStep c 0 ≠ 0 := by
  intro h
  have hlow : ∀ c0 < 32, polyModStep (2 ^ 25 * c0) 0 % 2 ^ 5 = 0 → c0 = 0 := by decide
  have hmod : c % 2 ^ 25 < 2 ^ 25 := Nat.mod_lt _ (by norm_num)
  have htop : c ^^^ c % 2 ^ 25 = 2 ^ 25 * (c / 2 ^ 25) := by
    have h1 := Nat.xor_mod_two_pow (a := c) (b := c % 2 ^ 25) (n := 25)
    have h2 := Nat.xor_div_two_pow (a := c) (b := c % 2 ^ 25) (n := 25)
    rw [Nat.mod_mod, Nat.xor_self] at h1
    rw [Nat.div_eq_of_lt hmod, Nat.xor_zero] at h2
    omega
  have hsplit :
      polyModStep c 0 = polyModStep (2 ^ 25 * (c / 2 ^ 25)) 0 ^^^ (32 * (c % 2 ^ 25) + 0) := by
    rw [← polyModStep_of_lt hmod (by norm_num), ← polyModStep_xor, ← htop, Nat.xor_xor_cancel_right]
    rfl
  have hzero := hlow (c / 2 ^ 25) (by omega) (by
    have hlast := congrArg (· % 2 ^ 5) (hsplit.symm.trans h)
    simp only [Nat.xor_mod_two_pow] at hlast
    rwa [show (32 * (c % 2 ^ 25) + 0) % 2 ^ 5 = 0 by omega, Nat.xor_zero] at hlast)
  rw [polyModStep_of_lt (by omega) (by norm_num)] at h
  omega

/-- No continuation of at most `m` characters with at most `t` errors cancels the state. -/
def Detected (t m c : ℕ) : Prop :=
  ∀ e : List ℕ, e.length ≤ m → (∀ v ∈ e, v < 32) → e.countP (· ≠ 0) ≤ t →
    e.foldl polyModStep c ≠ 0

theorem detected_of_next {t m c : ℕ} (hc : c < 2 ^ 30) (hne : c ≠ 0)
    (h : ∀ k < m, ∀ v, 0 < v ∧ v < 32 → ∀ u, t = u + 1 →
      Detected u (m - (k + 1)) (syndrome c (k + 1) ^^^ v)) : Detected t m c := by
  intro e hlen hlt hcount
  induction e generalizing m c with
  | nil => exact hne
  | cons v e ih =>
    obtain ⟨hv, he⟩ := forall_mem_cons.1 hlt
    rw [length_cons] at hlen
    rw [foldl_cons]
    obtain rfl | hpos := eq_zero_or_pos v
    · refine ih (m := m - 1) (polyModStep_zero_lt c) (polyModStep_zero_ne hc hne) ?_ (by omega) he
        (hcount)
      intro k hk v hv u hu
      have := h (k + 1) (by omega) v hv u hu
      rwa [show k + 1 + 1 = 1 + (k + 1) by omega, ← syndrome_syndrome, ← Nat.sub_sub] at this
    · rw [countP_cons_of_pos (by simpa using hpos.ne')] at hcount
      rw [polyModStep_eq]
      exact h 0 (by omega) v ⟨hpos, hv⟩ (t - 1) (by omega) e (by omega) he (by omega)

theorem detected_two {v : ℕ} (hv : 0 < v ∧ v < 32) : Detected 2 87 v := by
  have hlt : ∀ c k w, w < 32 → syndrome c (k + 1) ^^^ w < 2 ^ 30 := fun c k w hw =>
    Nat.xor_lt_two_pow (polyModStep_zero_lt _) (by omega)
  refine detected_of_next (by omega) (by omega) fun k hk w hw t ht => ?_
  refine detected_of_next (hlt _ _ _ hw.2) (fun h => ?_) fun j hj x hx u hu => ?_
  · -- one error cannot be cancelled
    have := syndrome_div_inj (mem_errors hv (k := k + 1) (by omega)) mem_cons_self (by
      rw [Nat.xor_eq_zero_iff.1 h]
      exact Nat.div_eq_of_lt hw.2)
    simp at this
  · refine detected_of_next (hlt _ _ _ hx.2) (fun h => ?_) fun i hi y hy n hn => by omega
    -- and two errors lead to distinct states
    rw [syndrome_xor, syndrome_syndrome, Nat.xor_eq_zero_iff] at h
    have hdiv := congrArg (· / 2 ^ 5) h
    simp only [Nat.xor_div_two_pow] at hdiv
    have := syndrome_div_inj (mem_errors hv (by omega))
      (mem_errors hw (by omega))
      (Nat.xor_eq_zero_iff.1 (hdiv.trans (Nat.div_eq_of_lt hx.2)))
    simp only [Prod.mk.injEq] at this
    omega

theorem foldl_polyModStep_ne {e : List ℕ} (hlen : e.length ≤ 88) (hlt : ∀ v ∈ e, v < 32)
    (hcount : e.countP (· ≠ 0) ≤ 3) (hpos : 0 < e.countP (· ≠ 0)) : e.foldl polyModStep 0 ≠ 0 := by
  induction e with
  | nil => simp at hpos
  | cons v e ih =>
    obtain ⟨hv, he⟩ := forall_mem_cons.1 hlt
    rw [length_cons] at hlen
    obtain rfl | hv0 := eq_zero_or_pos v
    · exact ih (by omega) he (hcount) (hpos)
    · rw [countP_cons_of_pos (by simpa using hv0.ne')] at hcount
      rw [foldl_cons, polyModStep_eq, show polyModStep 0 0 = 0 from rfl, Nat.zero_xor]
      exact detected_two ⟨hv0, hv⟩ e (by omega) he (by omega)

theorem foldl_polyModStep_zipWith {l l' : List ℕ} (h : l.length = l'.length) (c d : ℕ) :
    (zipWith (· ^^^ ·) l l').foldl polyModStep (c ^^^ d) =
      l.foldl polyModStep c ^^^ l'.foldl polyModStep d := by
  induction l generalizing l' c d with
  | nil => obtain rfl := length_eq_zero_iff.1 h.symm; rfl
  | cons v l ih =>
    obtain ⟨w, l', rfl⟩ := exists_cons_of_length_pos (by rw [← h]; simp)
    rw [zipWith_cons_cons, foldl_cons, foldl_cons, foldl_cons, ← ih (by simpa using h),
      polyModStep_xor]

/-- A character, or another one of the alphabet that is not only in the other case. -/
def Substitutes (c c' : ℕ) : Prop := c' = c ∨ (valueOf c').isSome ∧ lowerCase c' ≠ lowerCase c

theorem exists_values {data data' values : List ℕ} (h : Forall₂ Substitutes data data')
    (hvalues : data.mapM valueOf = some values) :
    ∃ values', data'.mapM valueOf = some values' ∧ values.length = values'.length ∧
      ∃ e, e = zipWith (· ^^^ ·) values values' ∧ e.length = data.length ∧ (∀ v ∈ e, v < 2 ^ 5) ∧
        e.countP (· ≠ 0) = (zip data data').countP fun p => p.1 ≠ p.2 := by
  induction h generalizing values with
  | nil => cases hvalues; exact ⟨[], rfl, rfl, [], rfl, rfl, by simp, rfl⟩
  | @cons c c' data data' hc _ ih =>
    simp only [mapM_cons, bind, pure, Option.bind_eq_some_iff, Option.some.injEq] at hvalues
    obtain ⟨v, hv, vs, hvs, rfl⟩ := hvalues
    obtain ⟨vs', hvs', hlen, e, rfl, helen, hlt, hcount⟩ := ih hvs
    obtain ⟨v', hv', hiff⟩ : ∃ v', valueOf c' = some v' ∧ (v = v' ↔ c = c') := by
      obtain rfl | ⟨hsome, hne⟩ := hc
      · exact ⟨v, hv, by simp⟩
      · obtain ⟨v', hv'⟩ := Option.isSome_iff_exists.1 hsome
        refine ⟨v', hv', iff_of_false ?_ ?_⟩
        · rintro rfl
          exact hne ((charset_valueOf hv').2.symm.trans (charset_valueOf hv).2)
        · rintro rfl
          exact hne rfl
    refine ⟨v' :: vs', by simp [hv', hvs'], congrArg (· + 1) hlen, _, rfl, congrArg (· + 1) helen,
      forall_mem_cons.2 ⟨?_, hlt⟩, ?_⟩
    · exact Nat.xor_lt_two_pow (charset_valueOf hv).1 (charset_valueOf hv').1
    · rw [zipWith_cons_cons, zip_cons_cons, countP_cons, countP_cons, hcount]
      simp [hiff]

theorem one_notMem_of_mapM {data values : List ℕ} (h : data.mapM valueOf = some values) :
    '1'.toNat ∉ data := by
  intro hmem
  obtain ⟨hlt, hmap⟩ := mapM_valueOf h
  obtain ⟨v, hv, hone⟩ := mem_map.1 (hmap ▸ mem_map_of_mem hmem)
  exact (charset_spec v (hlt v hv)).2.2 hone

theorem values_of_decode {pre data hrp values : List ℕ} {encoding : Encoding}
    (h : decode (pre ++ '1'.toNat :: data) = some (encoding, hrp, values))
    (hone : '1'.toNat ∉ data) : data.length ≤ 88 ∧ ∃ vs, data.mapM valueOf = some vs ∧
      polyMod (expandHRP (pre.map lowerCase) ++ vs) = encodingConstant encoding := by
  obtain ⟨-, pos, hpos, ⟨hlen, hpos0, -⟩, vs, hvs, rfl, hverify, -⟩ := decode_eq_some.1 h
  obtain rfl := Option.some.inj ((rfind_append hone).symm.trans hpos)
  rw [length_append, length_cons] at hlen
  rw [drop_length_add_append, drop_one, tail_cons] at hvs
  rw [take_left] at hverify
  exact ⟨by omega, vs, hvs, verifyChecksum_eq_some.1 hverify⟩

/-- **Error detection**: with one to three characters of the data part substituted, the string is
not accepted with the same encoding. -/
theorem decode_substituted {pre data data' hrp values : List ℕ} {encoding : Encoding}
    (h : decode (pre ++ '1'.toNat :: data) = some (encoding, hrp, values))
    (hone : '1'.toNat ∉ data) (hsub : Forall₂ Substitutes data data')
    (hcount : (zip data data').countP (fun p => p.1 ≠ p.2) ∈ Set.Icc 1 3) (hrp' values' : List ℕ) :
    decode (pre ++ '1'.toNat :: data') ≠ some (encoding, hrp', values') := by
  intro h'
  obtain ⟨hlen, vs, hvs, hcheck⟩ := values_of_decode h hone
  obtain ⟨vs', hvs', hlength, -, rfl, helen, hlt, hvalues⟩ := exists_values hsub hvs
  obtain ⟨-, _, hws, hcheck'⟩ := values_of_decode h' (one_notMem_of_mapM hvs')
  cases (hvs'.symm.trans hws)
  rw [polyMod, foldl_append] at hcheck hcheck'
  have hfold := foldl_polyModStep_zipWith hlength _ _ ▸ congrArg₂ (· ^^^ ·) hcheck hcheck'
  rw [Nat.xor_self, Nat.xor_self] at hfold
  exact foldl_polyModStep_ne (helen.trans_le hlen) hlt (hvalues ▸ hcount.2) (hvalues ▸ hcount.1)
    hfold

theorem decode_substituted_empty :
    decode [97, 49, 113, 113, 102, 110, 51, 97] ≠ some (.bech32m, [97], []) :=
  decode_substituted (show decode ([97] ++ '1'.toNat :: [108, 113, 102, 110, 51, 97]) =
      some (.bech32m, [97], []) by decide)
    (by decide) (.cons (.inr (by decide)) (forall₂_same.2 fun _ _ => .inl rfl)) (by decide) [97] []

end KPCoin.Bech32
