import KPCoin.Data.Walk

/-!
# Weakest preconditions for stateful programs that may stop early

A program is an `EStateM ε σ α`: it changes a state `σ` and returns a value or stops with an `ε`.
`wp m Q E s` says that `m` run in `s` either returns with `Q` or stops with `E`.

The lemmas tagged `simp` execute a program symbolically; `wp_foldlM`, `wp_forM` and `wp_mapM` are
the rules for its loops, with an invariant on the part of the list already done, or on its length
for a list with indices.
-/

namespace Program

variable {ε ε' σ α β : Type}

/-- From `s` the program returns with `Q` or stops with `E`. -/
def wp (m : EStateM ε σ α) (Q : α → σ → Prop) (E : ε → Prop) (s : σ) : Prop :=
  match m s with
  | .ok a s' => Q a s'
  | .error e _ => E e

/-- Stop with `e` if `c` holds. -/
def rejectIf (c : Bool) (e : ε) : EStateM ε σ Unit := if c then throw e else pure ()

/-- Rename the ways a program stops. -/
def mapError (f : ε → ε') (m : EStateM ε σ α) : EStateM ε' σ α := fun s =>
  match m s with
  | .ok a s => .ok a s
  | .error e s => .error (f e) s

variable {E E' : ε → Prop} {a : α} {e : ε}

section Wp

variable {Q Q' : α → σ → Prop} {s s' : σ}

instance {m : EStateM ε σ α} [∀ a s, Decidable (Q a s)] [DecidablePred E] :
    Decidable (wp m Q E s) :=
  decidable_of_iff ((match m s with
    | .ok a s' => decide (Q a s')
    | .error e _ => decide (E e)) = true) (by unfold wp; cases m s <;> simp)

variable {m : EStateM ε σ α} {l : List α} {f : α → EStateM ε σ Unit} {c : Bool}
  {x : Except ε α}

theorem wp_of_ok (h : m s = .ok a s') (hQ : Q a s') : wp m Q E s := by
  simpa [wp, h] using hQ

theorem wp.ok (h : wp m Q E s) (hm : m s = .ok a s') : Q a s' := by
  simpa [wp, hm] using h

theorem wp.error (h : wp m Q E s) (hm : m s = .error e s') : E e := by
  simpa [wp, hm] using h

theorem wp.exists_ok (h : wp m Q (fun _ => False) s) : ∃ a s', m s = .ok a s' ∧ Q a s' := by
  cases hm : m s with
  | ok a s' => exact ⟨a, s', rfl, h.ok hm⟩
  | error e s' => exact (h.error hm).elim

theorem wp.mono (h : wp m Q E s) (hQ : ∀ a s, Q a s → Q' a s)
    (hE : ∀ e, E e → E' e) : wp m Q' E' s := by
  unfold wp at h ⊢
  cases hm : m s with
  | ok a s' => rw [hm] at h; exact hQ a s' h
  | error e s' => rw [hm] at h; exact hE e h

theorem wp.and (h : wp m Q E s) (h' : wp m Q' E' s) : wp m (fun a s => Q a s ∧ Q' a s) E s := by
  unfold wp at h h' ⊢
  cases hm : m s with
  | ok a s' =>
    rw [hm] at h h'
    exact ⟨h, h'⟩
  | error e s' =>
    rw [hm] at h
    exact h

@[simp] theorem wp_pure : wp (pure a : EStateM ε σ α) Q E s ↔ Q a s := Iff.rfl

@[simp] theorem wp_throw : wp (throw e : EStateM ε σ α) Q E s ↔ E e := Iff.rfl

@[simp] theorem wp_get {Q : σ → σ → Prop} : wp (get : EStateM ε σ σ) Q E s ↔ Q s s := Iff.rfl

@[simp] theorem wp_set {t : σ} {Q : PUnit → σ → Prop} :
    wp (set t : EStateM ε σ PUnit) Q E s ↔ Q ⟨⟩ t := Iff.rfl

@[simp] theorem wp_modify {f : σ → σ} {Q : Unit → σ → Prop} :
    wp (modify f : EStateM ε σ Unit) Q E s ↔ Q () (f s) := Iff.rfl

@[simp] theorem wp_bind {f : α → EStateM ε σ β} {Q : β → σ → Prop} :
    wp (m >>= f) Q E s ↔ wp m (fun a s => wp (f a) Q E s) E s := by
  simp only [wp, bind, EStateM.bind]
  cases m s <;> rfl

@[simp] theorem wp_rejectIf {Q : Unit → σ → Prop} :
    wp (rejectIf c e) Q E s ↔ (c = true → E e) ∧ (c = false → Q () s) := by
  cases c <;> simp [rejectIf]

theorem wp_ite {c : Prop} [Decidable c] {m' : EStateM ε σ α} :
    wp (if c then m else m') Q E s ↔ (c → wp m Q E s) ∧ (¬ c → wp m' Q E s) := by
  split_ifs with h <;> simp [h]

@[simp] theorem wp_mapError {f : ε → ε'} {E : ε' → Prop} :
    wp (mapError f m) Q E s ↔ wp m Q (fun e => E (f e)) s := by
  simp only [wp, mapError]
  cases m s <;> rfl

theorem wp_foldlM {f : β → α → EStateM ε σ β} {b : β} (I : List α → β → σ → Prop)
    (h0 : I [] b s)
    (hstep : ∀ done x rest b s, l = done ++ x :: rest → I done b s →
      wp (f b x) (I (done ++ [x])) E s) :
    wp (l.foldlM f b) (I l) E s := by
  induction l using List.reverseRecOn with
  | nil => exact h0
  | append_singleton l x ih =>
    rw [List.foldlM_append, wp_bind]
    refine (ih fun done y rest b s hl => hstep done y (rest ++ [x]) b s (by simp [hl])).mono
      (fun b s hI => ?_) fun _ => id
    rw [List.foldlM_cons, wp_bind]
    exact hstep l x [] b s rfl hI

theorem forM_eq_foldlM (l : List α) (f : α → EStateM ε σ Unit) :
    l.forM f = l.foldlM (fun _ x => f x) () := by
  induction l with
  | nil => rfl
  | cons x l ih => exact congrArg (f x >>= ·) (funext fun _ => ih)

theorem wp_forM (I : List α → σ → Prop) (h0 : I [] s)
    (hstep : ∀ done x rest s, l = done ++ x :: rest → I done s →
      wp (f x) (fun _ => I (done ++ [x])) E s) :
    wp (l.forM f) (fun _ => I l) E s := by
  rw [forM_eq_foldlM]
  exact wp_foldlM (fun done _ => I done) h0 fun done x rest _ => hstep done x rest

theorem wp_mapM {f : α → EStateM ε σ β} (I : List α → List β → σ → Prop)
    (h0 : I [] [] s)
    (hstep : ∀ done x rest bs s, l = done ++ x :: rest → I done bs s →
      wp (f x) (fun b => I (done ++ [x]) (bs ++ [b])) E s) :
    wp (l.mapM f) (I l) E s := by
  induction l using List.reverseRecOn with
  | nil => exact h0
  | append_singleton l x ih =>
    rw [List.mapM_append, wp_bind]
    refine (ih fun done y rest bs s hl => hstep done y (rest ++ [x]) bs s (by simp [hl])).mono
      (fun bs s hI => ?_) fun _ => id
    rw [List.mapM_cons, bind_assoc, wp_bind]
    exact hstep l x [] bs s rfl hI

theorem getElem?_of_zipIdx_eq {done rest : List (α × ℕ)} {x : α × ℕ}
    (h : l.zipIdx = done ++ x :: rest) : x.2 = done.length ∧ l[done.length]? = some x.1 := by
  have hx : l.zipIdx[done.length]? = some x := by simp [h]
  rw [List.getElem?_zipIdx, Option.map_eq_some_iff] at hx
  obtain ⟨a, ha, rfl⟩ := hx
  exact ⟨by simp, ha⟩

theorem wp_foldlM_zipIdx {f : β → α × ℕ → EStateM ε σ β} {b : β} (I : ℕ → β → σ → Prop)
    (h0 : I 0 b s) (hstep : ∀ i x b s, l[i]? = some x → I i b s → wp (f b (x, i)) (I (i + 1)) E s) :
    wp (l.zipIdx.foldlM f b) (I l.length) E s := by
  have := wp_foldlM (fun done => I done.length) h0
    (fun done x rest b s hl hI => by
      obtain ⟨hi, hx⟩ := getElem?_of_zipIdx_eq hl
      obtain ⟨x, i⟩ := x
      obtain rfl : i = done.length := hi
      simpa using hstep done.length x b s hx hI)
  simpa using this

theorem wp_forM_zipIdx {f : α × ℕ → EStateM ε σ Unit} (I : ℕ → σ → Prop) (h0 : I 0 s)
    (hstep : ∀ i x s, l[i]? = some x → I i s → wp (f (x, i)) (fun _ => I (i + 1)) E s) :
    wp (l.zipIdx.forM f) (fun _ => I l.length) E s := by
  rw [forM_eq_foldlM]
  exact wp_foldlM_zipIdx (fun i _ => I i) h0 fun i x _ => hstep i x

/-- If `c` holds the program returns in the state `t`, otherwise it stops. -/
def does (m : EStateM ε σ Unit) (s : σ) (c : Prop) (t : σ) : Prop :=
  wp m (fun _ s' => c ∧ s' = t) (fun _ => ¬ c) s

/-- A loop whose body is a test and an update, on states with the invariant `I`. -/
theorem does.forM {next : σ → α → σ} {ok : σ → α → Prop} {I : σ → Prop}
    (hf : ∀ s x, I s → does (f x) s (ok s x) (next s x)) (hnext : ∀ s x, I s → I (next s x))
    (l : List α) (hs : I s) : does (l.forM f) s (Walk next ok s l) (l.foldl next s) := by
  induction l generalizing s with
  | nil => exact ⟨trivial, rfl⟩
  | cons x l ih =>
    change wp (f x >>= fun _ => l.forM f) _ _ s
    rw [wp_bind]
    refine (hf s x hs).mono ?_ fun _ h hw => h hw.1
    rintro _ _ ⟨hok, rfl⟩
    exact wp.mono (ih (hnext s x hs)) (fun _ _ h => ⟨⟨hok, h.1⟩, h.2⟩) fun _ h hw => h hw.2

end Wp

/-- The computation returns with `Q` or stops with `E`. -/
def ensures (x : Except ε α) (Q : α → Prop) (E : ε → Prop) : Prop :=
  match x with
  | .ok a => Q a
  | .error e => E e

/-- Stop with `e` if `c` holds. -/
def failIf (c : Bool) (e : ε) : Except ε Unit := if c then .error e else .ok ()

section Ensures

variable {Q Q' : α → Prop} {x : Except ε α} {f : α → β → Except ε α} {l : List β}

theorem ensures.ok (h : ensures x Q E) (hx : x = .ok a) : Q a := by
  simpa [ensures, hx] using h

theorem ensures.error (h : ensures x Q E) (hx : x = .error e) : E e := by
  simpa [ensures, hx] using h

theorem ensures.mono (h : ensures x Q E) (hQ : ∀ a, Q a → Q' a)
    (hE : ∀ e, E e → E' e) : ensures x Q' E' := by
  cases x with
  | ok a => exact hQ a h
  | error e => exact hE e h

@[simp] theorem ensures_ok : ensures (.ok a : Except ε α) Q E ↔ Q a := Iff.rfl

@[simp] theorem ensures_error : ensures (.error e : Except ε α) Q E ↔ E e := Iff.rfl

@[simp] theorem ensures_bind {f : α → Except ε β} {Q : β → Prop} :
    ensures (x >>= f) Q E ↔ ensures x (fun a => ensures (f a) Q E) E := by
  cases x <;> rfl

@[simp] theorem ensures_failIf {Q : Unit → Prop} :
    ensures (failIf c e) Q E ↔ (c = true → E e) ∧ (c = false → Q ()) := by
  cases c <;> simp [failIf]

/-- A loop with an invariant on the part of the list already done. -/
theorem ensures_foldlM_done (I : List β → α → Prop)
    (h0 : I [] a) (hstep : ∀ done x rest a, l = done ++ x :: rest → I done a →
      ensures (f a x) (I (done ++ [x])) E) : ensures (l.foldlM f a) (I l) E := by
  induction l using List.reverseRecOn with
  | nil => exact h0
  | append_singleton l x ih =>
    rw [List.foldlM_append, ensures_bind]
    refine (ih fun done y rest a hl => hstep done y (rest ++ [x]) a (by simp [hl])).mono
      (fun a hI => ?_) fun _ => id
    rw [List.foldlM_cons, ensures_bind]
    exact hstep l x [] a rfl hI

theorem ensures_foldlM (h0 : Q a)
    (hstep : ∀ a x, x ∈ l → Q a → ensures (f a x) Q E) : ensures (l.foldlM f a) Q E :=
  ensures_foldlM_done (fun _ => Q) h0 fun _ x _ a hl => hstep a x (by simp [hl])

theorem ensures.exists_ok (h : ensures x Q fun _ => False) : ∃ a, x = .ok a ∧ Q a := by
  cases x with
  | ok a => exact ⟨a, rfl, h⟩
  | error e => exact h.elim

end Ensures

@[simp] theorem wp_ofExcept :
    wp (ofExcept x : EStateM ε σ α) Q E s ↔ ensures x (fun a => Q a s) E := by
  cases x <;> rfl

/-- The state in which a program returns or stops. -/
def finalState : EStateM.Result ε σ α → σ
  | .ok _ s => s
  | .error _ s => s

/-- Whether it returns or stops, the program does not change `f`. -/
def keeps {τ : Type} (f : σ → τ) (m : EStateM ε σ α) : Prop := ∀ s, f (finalState (m s)) = f s

namespace keeps

variable {τ : Type} {f : σ → τ}

theorem pure (a : α) : keeps f (pure a : EStateM ε σ α) := fun _ => rfl

theorem throw (e : ε) : keeps f (throw e : EStateM ε σ α) := fun _ => rfl

theorem get : keeps f (get : EStateM ε σ σ) := fun _ => rfl

theorem modify {g : σ → σ} (h : ∀ s, f (g s) = f s) : keeps f (modify g : EStateM ε σ Unit) := h

theorem bind {m : EStateM ε σ α} {g : α → EStateM ε σ β} (hm : keeps f m)
    (hg : ∀ a, keeps f (g a)) : keeps f (m >>= g) := by
  intro s
  have h1 := hm s
  simp only [Bind.bind, EStateM.bind]
  cases hr : m s with
  | error e s' => rw [hr] at h1; exact h1
  | ok a s' => rw [hr] at h1; exact (hg a s').trans h1

theorem rejectIf : keeps f (rejectIf c e) := by
  cases c
  · exact pure ()
  · exact throw e

theorem ofExcept : keeps f (ofExcept x : EStateM ε σ α) := by
  cases x
  · exact throw _
  · exact pure _

end keeps

end Program
