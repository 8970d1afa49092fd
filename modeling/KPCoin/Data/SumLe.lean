import Mathlib

/-!
# Bounding a sum over all keys

`SumLe f B` says that `f` adds up to at most `B` over any finite set of keys.  It can be followed
through changes at single keys (`SumLe.update`) without asking where `f` is zero; once the support
is known to be finite it bounds the whole sum (`SumLe.finsum_le`).
-/

variable {α M : Type*} [AddCommGroup M] [PartialOrder M]

/-- Over any finite set of keys, `f` adds up to at most `B`. -/
def SumLe (f : α → M) (B : M) : Prop := ∀ S : Finset α, ∑ k ∈ S, f k ≤ B

namespace SumLe

open Finset

variable {f f' : α → M} {B d : M}

theorem zero : SumLe (fun _ : α => (0 : M)) 0 := fun S => by simp

theorem finsum_le (h : SumLe f B) (hf : (Function.support f).Finite) : ∑ᶠ k, f k ≤ B := by
  rw [finsum_eq_sum _ hf]
  exact h _

variable [IsOrderedAddMonoid M]

theorem mono (h : SumLe f B) (hf : ∀ k, f' k ≤ f k) : SumLe f' B := fun S =>
  (sum_le_sum fun k _ => hf k).trans (h S)

/-- A change by at most `d` at one key, where the new value is not negative. -/
theorem update [DecidableEq α] (h : SumLe f B) {k : α} (hne : ∀ k' ≠ k, f' k' = f k')
    (h0 : 0 ≤ f' k) (hk : f' k ≤ f k + d) : SumLe f' (B + d) := by
  intro S
  have hrest : ∑ k' ∈ S.erase k, f' k' = ∑ k' ∈ S.erase k, f k' :=
    sum_congr rfl fun k' hk' => hne k' (ne_of_mem_erase hk')
  -- the key may be counted in either way, as its new value is not negative
  calc ∑ k' ∈ S, f' k' ≤ ∑ k' ∈ insert k (S.erase k), f' k' := by
        by_cases hS : k ∈ S
        · rw [insert_erase hS]
        · rw [sum_insert (notMem_erase k S), erase_eq_of_notMem hS]
          exact le_add_of_nonneg_left h0
    _ = f' k + ∑ k' ∈ S.erase k, f k' := by
        rw [sum_insert (notMem_erase k S), hrest]
    _ ≤ f k + d + ∑ k' ∈ S.erase k, f k' := add_le_add hk le_rfl
    _ = ∑ k' ∈ insert k (S.erase k), f k' + d := by
        rw [sum_insert (notMem_erase k S), add_right_comm]
    _ ≤ B + d := add_le_add (h _) le_rfl

end SumLe
