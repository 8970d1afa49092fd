import Mathlib

/-!
# Bijective numerals

With the digits `1` to `b` every number has exactly one numeral in base `b`; that of zero is empty.
A digit is kept here as its value less one, so that digits are numbers below `b`.

`value` reads a numeral from the highest digit on, `numeral` writes it.  They are inverse to each
other (`value_numeral`, `numeral_value`), and `length_numeral_le` bounds the number of digits.
-/

namespace BijectiveNumeral

variable {b : ℕ}

/-- The number whose numeral is the one of `N` followed by `digits`. -/
def value (b N : ℕ) (digits : List ℕ) : ℕ := digits.foldl (fun N d => N * b + d + 1) N

/-- The digits of a number, the highest one first. -/
def numeral (b : ℕ) : ℕ → List ℕ
  | 0 => []
  | n + 1 => numeral b (n / b) ++ [n % b]
decreasing_by exact Nat.lt_succ_of_le (Nat.div_le_self n b)

@[simp] theorem value_nil (b N : ℕ) : value b N [] = N := rfl

@[simp] theorem value_cons (b N d : ℕ) (digits : List ℕ) :
    value b N (d :: digits) = value b (N * b + d + 1) digits := rfl

@[simp] theorem value_concat (b N d : ℕ) (digits : List ℕ) :
    value b N (digits ++ [d]) = value b N digits * b + d + 1 := by
  simp [value]

@[simp] theorem numeral_zero (b : ℕ) : numeral b 0 = [] := by rw [numeral]

theorem numeral_succ (b n : ℕ) : numeral b (n + 1) = numeral b (n / b) ++ [n % b] := by rw [numeral]

theorem le_value (hb : 0 < b) (N : ℕ) (digits : List ℕ) : N ≤ value b N digits := by
  induction digits generalizing N with
  | nil => exact Nat.le_refl N
  | cons d digits ih =>
    have hmul : N ≤ N * b := Nat.le_mul_of_pos_right N hb
    have hrest := ih (N * b + d + 1)
    rw [value_cons]
    omega

theorem value_numeral (b N : ℕ) : value b 0 (numeral b N) = N := by
  fun_induction numeral b N with
  | case1 => rfl
  | case2 n ih => rw [value_concat, ih, Nat.div_add_mod']

theorem numeral_value {digits : List ℕ} (h : ∀ d ∈ digits, d < b) :
    numeral b (value b 0 digits) = digits := by
  induction digits using List.reverseRecOn with
  | nil => exact numeral_zero b
  | append_singleton digits d ih =>
    have hd : d < b := h d (by simp)
    have hdiv : (value b 0 digits * b + d) / b = value b 0 digits := by
      rw [Nat.mul_comm, Nat.mul_add_div (by omega), Nat.div_eq_of_lt hd, Nat.add_zero]
    have hmod : (value b 0 digits * b + d) % b = d := by
      rw [Nat.mul_add_mod_self_right, Nat.mod_eq_of_lt hd]
    rw [value_concat, numeral_succ, hdiv, hmod, ih fun d hd => h d (List.mem_append_left _ hd)]

theorem lt_of_mem_numeral (hb : 0 < b) {N d : ℕ} (h : d ∈ numeral b N) : d < b := by
  fun_induction numeral b N with
  | case1 => cases h
  | case2 n ih =>
    rcases List.mem_append.1 h with h | h
    · exact ih h
    · rw [List.mem_singleton.1 h]
      exact Nat.mod_lt n hb

/-- `j + 1` digits are enough for `1` to `b ^ (j + 1)`. -/
theorem length_numeral_le {j n : ℕ} (h : n < b ^ (j + 1)) : (numeral b (n + 1)).length ≤ j + 1 := by
  induction j generalizing n with
  | zero =>
    have hdiv : n / b = 0 := Nat.div_eq_of_lt (by simpa using h)
    simp [numeral_succ, hdiv]
  | succ j ih =>
    have hdiv : n / b < b ^ (j + 1) := Nat.div_lt_of_lt_mul (by rwa [Nat.mul_comm, ← Nat.pow_succ])
    rw [numeral_succ, List.length_append]
    cases hn : n / b with
    | zero => simp
    | succ m => exact Nat.add_le_add_right (ih (by omega)) 1

end BijectiveNumeral
