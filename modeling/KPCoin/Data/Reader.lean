import Mathlib

/-!
# Reading from a sequence of bytes

A `Reader` takes a value from the front of a list and leaves the rest, or fails.  `Reads r bytes a`
says that it takes exactly `bytes`, whatever follows, and returns `a`.  A reader that is composed as
its writer is reads what the writer wrote (`Reads.bind`, `reads_replicate`).  What a composed reader
accepts is taken apart by `run_bind_eq_some`.
-/

/-- A reader of a value. -/
abbrev Reader (β α : Type) := StateT (List β) Option α

namespace Reader

open List

variable {β α γ : Type}

/-- The reader takes `bytes` and returns `a`. -/
def Reads (r : Reader β α) (bytes : List β) (a : α) : Prop :=
  ∀ rest, r.run (bytes ++ rest) = some (a, rest)

theorem reads_pure (a : α) : Reads (β := β) (pure a) [] a := fun _ => rfl

variable {r : Reader β α} {f : α → Reader β γ} {s rest : List β}

theorem Reads.bind {bytes bytes' : List β} {a : α} {c : γ}
    (h : Reads r bytes a) (h' : Reads (f a) bytes' c) : Reads (r >>= f) (bytes ++ bytes') c := by
  intro rest
  rw [StateT.run_bind, append_assoc, h]
  exact h' rest

theorem Reads.map {bytes : List β} {a : α} (h : Reads r bytes a) (f : α → γ) :
    Reads (do return f (← r)) bytes (f a) := by
  have hbind := h.bind (f := fun a => pure (f a)) (reads_pure (f a))
  rwa [append_nil] at hbind

theorem run_bind_eq_some {c : γ} :
    (r >>= f).run s = some (c, rest) ↔
      ∃ a s', r.run s = some (a, s') ∧ (f a).run s' = some (c, rest) := by
  constructor
  · intro h
    obtain ⟨⟨a, s'⟩, hr, hf⟩ := Option.bind_eq_some_iff.1 h
    exact ⟨a, s', hr, hf⟩
  · rintro ⟨a, s', hr, hf⟩
    exact Option.bind_eq_some_iff.2 ⟨(a, s'), hr, hf⟩

theorem run_pure_eq_some {a c : α} :
    (pure a : Reader β α).run s = some (c, rest) ↔ c = a ∧ s = rest := by
  constructor
  · intro h
    cases h
    exact ⟨rfl, rfl⟩
  · rintro ⟨rfl, rfl⟩
    rfl

/-- Take the first `n` entries. -/
def take (n : ℕ) : Reader β (List β) := fun s => if n ≤ s.length then some (s.splitAt n) else none

theorem reads_take (bytes : List β) : Reads (take bytes.length) bytes bytes := by
  intro rest
  change (if _ then _ else _) = _
  rw [if_pos (by simp), splitAt_eq, take_left, drop_left]

theorem run_take_eq_some {n : ℕ} {s bytes rest : List β} :
    (take n).run s = some (bytes, rest) ↔ s = bytes ++ rest ∧ bytes.length = n := by
  constructor
  · intro h
    change (if n ≤ s.length then some (s.splitAt n) else none) = _ at h
    split_ifs at h with hn
    rw [splitAt_eq] at h
    obtain ⟨rfl, rfl⟩ := h
    exact ⟨(take_append_drop n s).symm, length_take_of_le hn⟩
  · rintro ⟨rfl, rfl⟩
    exact reads_take bytes rest

/-- Read `n` values, one after the other. -/
def replicate (r : Reader β α) : ℕ → Reader β (List α)
  | 0 => pure []
  | n + 1 => do
    let a ← r
    let as ← replicate r n
    return a :: as

theorem reads_replicate {write : α → List β} {as : List α} (h : ∀ a ∈ as, Reads r (write a) a) :
    Reads (replicate r as.length) (as.flatMap write) as := by
  induction as with
  | nil => exact reads_pure []
  | cons a as ih =>
    have htail := ih fun a ha => h a (mem_cons_of_mem _ ha)
    exact (h a mem_cons_self).bind (htail.map (a :: ·))

end Reader
