import Mathlib

/-!
# Lists that lead from one position to the next

A list of inputs moves a position step by step: `next t x` is where `x` leads from `t`, and
`ok t x` says whether `x` may be taken there.  `Walk next ok t l` says that each element of `l` may
be taken where the ones before it lead.
-/

/-- Starting from `t`, each element of the list may be taken where the ones before it lead. -/
def Walk {T H : Type*} (next : T → H → T) (ok : T → H → Prop) : T → List H → Prop
  | _, [] => True
  | t, x :: l => ok t x ∧ Walk next ok (next t x) l

namespace Walk

variable {S T H : Type*} {next : T → H → T} {ok : T → H → Prop} {t : T} {l l₁ l₂ : List H} {x : H}

@[simp] theorem nil : Walk next ok t [] := trivial

@[simp] theorem cons_iff : Walk next ok t (x :: l) ↔ ok t x ∧ Walk next ok (next t x) l := Iff.rfl

theorem append_iff :
    Walk next ok t (l₁ ++ l₂) ↔ Walk next ok t l₁ ∧ Walk next ok (l₁.foldl next t) l₂ := by
  induction l₁ generalizing t with
  | nil => simp
  | cons x l₁ ih => simp [ih, and_assoc]

theorem concat_iff : Walk next ok t (l ++ [x]) ↔ Walk next ok t l ∧ ok (l.foldl next t) x := by
  simp [append_iff]

theorem of_initial (h : Walk next ok t l₂) (hl : l₁ <+: l₂) : Walk next ok t l₁ := by
  obtain ⟨l, rfl⟩ := hl
  exact (append_iff.1 h).1

end Walk
