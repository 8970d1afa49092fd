import Mathlib

/-!
# Rounding down to the leading digits

A number of `b` binary digits is cut to its leading ones: `drop b` digits at its end become zero.
Whatever the number of digits that is kept, as long as it is not zero, this is monotone.
-/

/-- Clear the last `drop b` digits of a number with `b` digits. -/
def Nat.roundDown (drop : ℕ → ℕ) (x : ℕ) : ℕ := x / 2 ^ drop x.size * 2 ^ drop x.size

namespace Nat

variable {drop : ℕ → ℕ} {x y : ℕ}

theorem roundDown_le (x : ℕ) : x.roundDown drop ≤ x := div_mul_le_self _ _

theorem roundDown_eq_self (h : 2 ^ drop x.size ∣ x) : x.roundDown drop = x := Nat.div_mul_cancel h

theorem two_pow_le_roundDown (hdrop : drop x.size < x.size) :
    2 ^ (x.size - 1) ≤ x.roundDown drop := by
  obtain ⟨k, hk⟩ := Nat.exists_eq_add_of_le (le_sub_one_of_lt hdrop)
  have hx : 2 ^ (x.size - 1) ≤ x := lt_size.1 (by omega)
  rw [hk, pow_add, mul_comm] at hx
  rw [hk, pow_add, mul_comm]
  exact mul_le_mul_right _ ((le_div_iff_mul_le (by positivity)).2 hx)

section

variable (hdrop : ∀ b, 0 < b → drop b < b)
include hdrop

theorem size_roundDown : (x.roundDown drop).size = x.size := by
  refine le_antisymm (size_le_size (roundDown_le x)) ?_
  rcases eq_zero_or_pos x.size with hzero | hpos
  · exact hzero ▸ zero_le _
  · have hlt := lt_size.2 (two_pow_le_roundDown (hdrop _ hpos))
    omega

theorem roundDown_lt_of_two_mul_le (hpos : 0 < y)
    (hxy : 2 * x ≤ y) : x.roundDown drop < y.roundDown drop := by
  have hsize : 0 < y.size := size_pos.2 hpos
  have hy : y < 2 * 2 ^ (y.size - 1) := by
    rw [← pow_succ', succ_eq_add_one, Nat.sub_add_cancel hsize]
    exact lt_size_self y
  calc x.roundDown drop ≤ x := roundDown_le x
    _ < 2 ^ (y.size - 1) := by omega
    _ ≤ y.roundDown drop := two_pow_le_roundDown (hdrop _ hsize)

theorem roundDown_mono (hxy : x ≤ y) : x.roundDown drop ≤ y.roundDown drop := by
  rcases lt_or_eq_of_le (size_le_size hxy) with hlt | heq
  · -- a number with fewer digits is below the leading digit of the other
    have hpos : 0 < y.size := zero_lt_of_lt hlt
    calc x.roundDown drop ≤ x := roundDown_le x
      _ ≤ 2 ^ x.size := (lt_size_self x).le
      _ ≤ 2 ^ (y.size - 1) := Nat.pow_le_pow_right (by omega) (by omega)
      _ ≤ y.roundDown drop := two_pow_le_roundDown (hdrop _ hpos)
  · unfold roundDown
    rw [heq]
    exact mul_le_mul_right _ (Nat.div_le_div_right hxy)

end

end Nat
