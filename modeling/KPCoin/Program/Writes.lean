import KPCoin.Data.Overwrite
import KPCoin.Program.Wp

/-!
# Programs that only make blind writes

A program that shows a map in each of its states, by a relation `R`, and whatever the map is, always
returns after the same writes.  `Writes R p ws` says so; the rules follow the shape of the program,
and what a loop writes is what its rounds write, one after another.
-/

namespace Program

open Overwrite

variable {ε ε' σ κ ν α β : Type} [DecidableEq κ] {R : (κ → ν) → σ → Prop}

/-- The program returns, and the map shown afterwards is the one before with the writes `ws`. -/
def Writes (R : (κ → ν) → σ → Prop) (p : EStateM ε σ α) (ws : List (κ × ν)) : Prop :=
  ∀ m s, R m s → wp p (fun _ => R (overwrite m ws)) (fun _ => False) s

namespace Writes

variable {p : EStateM ε σ α} {ws ws' : List (κ × ν)} {g : β → List (κ × ν)} {l : List β}

theorem pure (a : α) : Writes R (pure a : EStateM ε σ α) [] := fun _ _ h => h

theorem bind {f : α → EStateM ε σ β} (hp : Writes R p ws) (hf : ∀ a, Writes R (f a) ws') :
    Writes R (p >>= f) (ws ++ ws') := by
  intro m s h
  rw [wp_bind, overwrite_append]
  exact (hp m s h).mono (fun a s' h' => hf a _ s' h') fun _ => id

theorem then_pure {f : α → β} (hp : Writes R p ws) :
    Writes R (p >>= fun a => Pure.pure (f a)) ws := by
  have hret : ∀ a, Writes R (Pure.pure (f a) : EStateM ε σ β) [] := fun a => Writes.pure (f a)
  rw [← List.append_nil ws]
  exact hp.bind hret

theorem mapError {f : ε → ε'} (hp : Writes R p ws) : Writes R (mapError f p) ws := fun m s h =>
  wp_mapError.2 (hp m s h)

theorem foldlM {f : α → β → EStateM ε σ α} (hf : ∀ a, ∀ x ∈ l, Writes R (f a x) (g x)) (a : α) :
    Writes R (l.foldlM f a) (l.flatMap g) := by
  induction l generalizing a with
  | nil => exact Writes.pure a
  | cons x l ih =>
    exact (hf a x List.mem_cons_self).bind fun a' =>
      ih (fun b y hy => hf b y (List.mem_cons_of_mem _ hy)) a'

theorem forM {f : β → EStateM ε σ Unit}
    (hf : ∀ x ∈ l, Writes R (f x) (g x)) : Writes R (l.forM f) (l.flatMap g) := by
  rw [forM_eq_foldlM]
  exact Writes.foldlM (fun _ => hf) ()

end Writes

end Program
