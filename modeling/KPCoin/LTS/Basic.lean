import Mathlib

/-!
# Transition systems and their runs

A component that keeps state between calls is given a meaning as a transition system: a set of
initial states and a labelled step relation, the labels being the calls made on it together with
whatever its environment answers.

* `LTS.Run A ls s` : the calls `ls`, in this order, lead from an initial state to `s`;
* `LTS.Reachable A s` : some run ends in `s`;
* `LTS.restrict A C` : the same system, taking only the steps that satisfy `C`.

Two rules go from one step to a run: `Reachable.invariant` for what every step keeps, and
`Run.refines` for a system whose abstraction follows a function on abstract states.
-/

namespace KPCoin

/-- A transition system with states `S` and labels `L`. -/
structure LTS (S L : Type*) where
  /-- The states a run may start from. -/
  init : S → Prop
  /-- `step s l s'` : in state `s` the call `l` may lead to `s'`. -/
  step : S → L → S → Prop

namespace LTS

variable {S T L : Type*}

/-- `Run A ls s` : the labels `ls` lead from an initial state to `s`. -/
inductive Run (A : LTS S L) : List L → S → Prop
  | start {s : S} : A.init s → Run A [] s
  | snoc {ls : List L} {s s' : S} {l : L} : Run A ls s → A.step s l s' → Run A (ls ++ [l]) s'

/-- Some run ends in `s`. -/
def Reachable (A : LTS S L) (s : S) : Prop := ∃ ls, A.Run ls s

/-- The runs of `A` all of whose steps satisfy `C`. -/
def restrict (A : LTS S L) (C : S → L → Prop) : LTS S L where
  init := A.init
  step s l s' := A.step s l s' ∧ C s l

variable {A : LTS S L} {f : S → L → Option S} {s s' : S} {I : S → Prop} {ls : List L}

theorem Reachable.start (h : A.init s) : A.Reachable s := ⟨[], .start h⟩

theorem Reachable.tail {l : L} (h : A.Reachable s) (hst : A.step s l s') : A.Reachable s' := by
  obtain ⟨ls, hr⟩ := h
  exact ⟨ls ++ [l], .snoc hr hst⟩

/-- What holds initially and is kept by every step holds in every reachable state. -/
theorem Reachable.invariant (h : A.Reachable s)
    (h0 : ∀ s, A.init s → I s) (hstep : ∀ s l s', I s → A.step s l s' → I s') : I s := by
  obtain ⟨ls, hr⟩ := h
  induction hr with
  | start hs => exact h0 _ hs
  | snoc _ hst ih => exact hstep _ _ _ ih hst

theorem Reachable.of_restrict {C : S → L → Prop} (h : (A.restrict C).Reachable s) : A.Reachable s :=
  h.invariant (fun _ hs => .start hs) fun _ _ _ hs hst => hs.tail hst.1

theorem Run.foldlM {ls ls' : List L} (h : A.Run ls s)
    (hf : ∀ s l s', f s l = some s' → A.step s l s') (hr : ls'.foldlM f s = some s') :
    A.Run (ls ++ ls') s' := by
  induction ls' generalizing s ls with
  | nil =>
    rw [List.append_nil]
    exact Option.some.inj hr ▸ h
  | cons l ls' ih =>
    obtain ⟨s1, hs1, hr⟩ := Option.bind_eq_some_iff.1 hr
    rw [← List.singleton_append, ← List.append_assoc]
    exact ih (h.snoc (hf s l s1 hs1)) hr

theorem Reachable.foldlM (h : A.Reachable s) (hf : ∀ s l s', f s l = some s' → A.step s l s')
    (hr : ls.foldlM f s = some s') : A.Reachable s' := by
  obtain ⟨ls0, h0⟩ := h
  exact ⟨ls0 ++ ls, h0.foldlM hf hr⟩

/-- If every step changes the abstraction `f s` of the state as `g` says, then so does a run. -/
theorem Run.refines {f : S → T} {g : T → L → T} {t : T}
    (h : A.Run ls s) (h0 : ∀ s, A.init s → I s ∧ f s = t)
    (hstep : ∀ s l s', I s → A.step s l s' → I s' ∧ f s' = g (f s) l) :
    I s ∧ f s = ls.foldl g t := by
  induction h with
  | start hs => exact h0 _ hs
  | snoc _ hst ih =>
    obtain ⟨hI, hf⟩ := hstep _ _ _ ih.1 hst
    refine ⟨hI, ?_⟩
    rw [hf, ih.2, List.foldl_append]
    rfl

end LTS

end KPCoin
