import Mathlib

/-!
# Actions on a state that may fail

`Action σ ε α` changes a state and returns a value or an error; a failed
action keeps the changes it made before it failed (Rust's `&mut self` with
`?`). `Action.Keeps I x` says that `x` keeps the invariant `I`, whether it
fails or not. `Action.Runs A x v r v'` says what `x` does in terms of a view
of the state: from every state that shows `v` it ends with outcome `r` in a
state that shows `v'`. `Action.Meets A T x v Q` is the weaker judgement for
longer programs: if `x` succeeds its result and the view afterwards meet
`Q`, and where `T` holds it does succeed. `T := False` is partial and
`T := True` total correctness, with one proof for both.
-/
namespace DbStorage

abbrev Action (σ ε : Type) := ExceptT ε (StateM σ)

variable {ε' : Type}

namespace Action
variable {σ ε α β : Type}

/-- Runs an action: its outcome and the state afterwards. -/
def exec (x : Action σ ε α) (s : σ) : Except ε α × σ := StateT.run (ExceptT.run x) s

/-- The action that computes its outcome and the state afterwards with `f`. -/
def ofFn (f : σ → Except ε α × σ) : Action σ ε α := fun s => f s

/-- Lifts a computation that does not touch the state. -/
def ofExcept {ε' : Type} (f : ε' → ε) : Except ε' α → Action σ ε α
  | .ok a => pure a
  | .error e => throw (f e)

/-- The same action with another error (Rust's `map_err`). -/
def mapError {ε' : Type} (f : ε → ε') (x : Action σ ε α) : Action σ ε' α :=
  ofFn fun s => ((exec x s).1.mapError f, (exec x s).2)

@[simp] theorem exec_ofFn (f : σ → Except ε α × σ) (s : σ) : exec (ofFn f) s = f s := rfl

@[simp] theorem exec_mapError (f : ε → ε') (x : Action σ ε α) (s : σ) :
    exec (mapError f x) s = ((exec x s).1.mapError f, (exec x s).2) := rfl

theorem exec_bind (x : Action σ ε α) (f : α → Action σ ε β) (s : σ) :
    exec (x >>= f) s = match exec x s with
      | (.ok a, s') => exec (f a) s'
      | (.error e, s') => (.error e, s') := by
  show StateT.run (ExceptT.run (x >>= f)) s = _
  simp only [exec, ExceptT.run_bind, StateT.run_bind]
  cases StateT.run (ExceptT.run x) s with
  | mk r s' => cases r <;> rfl

variable {x : Action σ ε α} {f : α → Action σ ε β} {s : σ} {a : α} {e : ε}

theorem exec_bind_ok {s' : σ} (h : exec x s = (.ok a, s')) : exec (x >>= f) s = exec (f a) s' := by
  rw [exec_bind, h]

theorem exec_bind_error {s' : σ} (h : exec x s = (.error e, s')) : exec (x >>= f) s = (.error e, s') := by
  rw [exec_bind, h]

variable {r : Except ε α} {y : Action σ ε α}

theorem exec_eq (h : (exec x s).1 = r) : exec x s = (r, (exec x s).2) := Prod.ext h rfl

/-- The action keeps `I`, also when it fails. -/
def Keeps (I : σ → Prop) (x : Action σ ε α) : Prop := ∀ s, I s → I (exec x s).2

theorem Keeps.pure {I : σ → Prop} (a : α) : Keeps I (Pure.pure a : Action σ ε α) := fun _ hs => hs

theorem Keeps.throw {I : σ → Prop} (e : ε) : Keeps I (MonadExcept.throw e : Action σ ε α) :=
  fun _ hs => hs

theorem Keeps.ofExcept {I : σ → Prop} (f : ε' → ε) (x : Except ε' α) :
    Keeps I (Action.ofExcept f x : Action σ ε α) := by
  cases x with
  | ok a => exact .pure a
  | error e => exact .throw (f e)

theorem Keeps.bind {I : σ → Prop} (hx : Keeps I x) (hf : ∀ a, Keeps I (f a)) : Keeps I (x >>= f) := by
  intro s hs
  have h := hx s hs
  rw [exec_bind]
  revert h
  cases exec x s with
  | mk r s' =>
    intro h
    cases r with
    | ok a => exact hf a s' h
    | error e => exact h

theorem Keeps.ite {I : σ → Prop} {c : Prop} [Decidable c] (hx : Keeps I x) (hy : Keeps I y) :
    Keeps I (if c then x else y) := by
  split
  · exact hx
  · exact hy

theorem Keeps.mapError {I : σ → Prop} (hx : Keeps I x) (f : ε → ε') : Keeps I (Action.mapError f x) := hx

/-! ## Errors -/

/-- The action never fails with an error in `E`. -/
def Never (E : ε → Prop) (x : Action σ ε α) : Prop := ∀ s e, (exec x s).1 = .error e → ¬ E e

section
variable {E : ε → Prop}

theorem Never.pure (a : α) : Never E (Pure.pure a : Action σ ε α) := fun _ _ h => nomatch h

theorem Never.throw (he : ¬ E e) : Never E (MonadExcept.throw e : Action σ ε α) := by
  intro s e' h
  cases h
  exact he

theorem Never.bind (hx : Never E x) (hf : ∀ a, Never E (f a)) : Never E (x >>= f) := by
  intro s e h
  have hxs := hx s e
  rw [exec_bind] at h
  revert h hxs
  cases exec x s with
  | mk r s' =>
    cases r with
    | ok a => exact fun h _ => hf a s' e h
    | error e' =>
      intro h hxs
      cases h
      exact hxs rfl

theorem Never.ite {c : Prop} [Decidable c] (hx : Never E x) (hy : Never E y) : Never E (if c then x else y) := by
  split
  · exact hx
  · exact hy

theorem Never.ofExcept {f : ε' → ε} {x : Except ε' α} (h : ∀ e, x = .error e → ¬ E (f e)) :
    Never E (Action.ofExcept f x : Action σ ε α) := by
  cases x with
  | ok a => exact .pure a
  | error e => exact .throw (h e rfl)

theorem Never.mapError {f : ε' → ε} (x : Action σ ε' α) (h : ∀ e, ¬ E (f e)) : Never E (Action.mapError f x) := by
  intro s e he
  rw [exec_mapError] at he
  cases hx : (exec x s).1 with
  | ok a => rw [hx] at he; cases he
  | error e' =>
    rw [hx] at he
    cases he
    exact h e'

/-- The action keeps `I` when it fails with an error in `E`. -/
def KeepsOn (E : ε → Prop) (I : σ → Prop) (x : Action σ ε α) : Prop :=
  ∀ s e, I s → (exec x s).1 = .error e → E e → I (exec x s).2

variable {I : σ → Prop}

theorem Keeps.keepsOn (h : Keeps I x) : KeepsOn E I x := fun s _ hs _ _ => h s hs

theorem Never.keepsOn (h : Never E x) : KeepsOn E I x :=
  fun s e _ he hE => absurd hE (h s e he)

theorem KeepsOn.bind (hx : Keeps I x) (hf : ∀ a, KeepsOn E I (f a)) : KeepsOn E I (x >>= f) := by
  intro s e hs
  have h := hx s hs
  rw [exec_bind]
  revert h
  cases exec x s with
  | mk r s' =>
    cases r with
    | ok a => exact fun h => hf a s' e h
    | error e' => exact fun h _ _ => h

end

/-! ## Running through a view -/

section
variable {τ : Type} {A : σ → τ → Prop} {v v' v'' : τ}

/-- From every state that shows `v`, the action ends with outcome `r` in a
state that shows `v'`. -/
def Runs (A : σ → τ → Prop) (x : Action σ ε α) (v : τ) (r : Except ε α) (v' : τ) : Prop :=
  ∀ s, A s v → ∃ s', exec x s = (r, s') ∧ A s' v'

theorem Runs.pure (a : α) : Runs A (Pure.pure a : Action σ ε α) v (.ok a) v := fun s hs => ⟨s, rfl, hs⟩

theorem Runs.bind {r : Except ε β} (hx : Runs A x v (.ok a) v') (hf : Runs A (f a) v' r v'') :
    Runs A (x >>= f) v r v'' := by
  intro s hs
  obtain ⟨s₁, h₁, hs₁⟩ := hx s hs
  obtain ⟨s₂, h₂, hs₂⟩ := hf s₁ hs₁
  exact ⟨s₂, (exec_bind_ok h₁).trans h₂, hs₂⟩

theorem Runs.ofExcept_ok {f : ε' → ε} {x : Except ε' α} (h : x = .ok a) :
    Runs A (Action.ofExcept f x) v (.ok a) v := h ▸ .pure a

theorem Runs.mapError (h : Runs A x v r v') (f : ε → ε') : Runs A (Action.mapError f x) v (r.mapError f) v' := by
  intro s hs
  obtain ⟨s', hx, hs'⟩ := h s hs
  exact ⟨s', by rw [exec_mapError, hx], hs'⟩

/-- If the action succeeds from a state that shows `v`, its result and the
view afterwards meet `Q`; it succeeds where `T` holds. -/
def Meets (A : σ → τ → Prop) (T : Prop) (x : Action σ ε α) (v : τ) (Q : α → τ → Prop) : Prop :=
  ∀ s, A s v → match exec x s with
    | (.ok a, s') => ∃ v', A s' v' ∧ Q a v'
    | (.error _, _) => ¬ T

variable {T : Prop}

variable {Q : α → τ → Prop}

theorem Runs.meets (h : Runs A x v (.ok a) v') (hq : Q a v') : Meets A T x v Q := by
  intro s hs
  obtain ⟨s', hx, hs'⟩ := h s hs
  rw [hx]
  exact ⟨v', hs', hq⟩

theorem Meets.pure (hq : Q a v) : Meets A T (Pure.pure a : Action σ ε α) v Q :=
  (Runs.pure a).meets hq

theorem Meets.throw (h : ¬ T) : Meets A T (MonadExcept.throw e : Action σ ε α) v Q := fun _ _ => h

variable {R : β → τ → Prop}

theorem Meets.bind (hx : Meets A T x v Q) (hf : ∀ a v', Q a v' → Meets A T (f a) v' R) : Meets A T (x >>= f) v R := by
  intro s hs
  have h := hx s hs
  rw [exec_bind]
  revert h
  cases exec x s with
  | mk r s' =>
    cases r with
    | ok a =>
      rintro ⟨v', hs', hq⟩
      exact hf a v' hq s' hs'
    | error e => exact id

theorem Runs.then (hx : Runs A x v (.ok a) v') (hf : Meets A T (f a) v' R) : Meets A T (x >>= f) v R := by
  intro s hs
  obtain ⟨s', h, hs'⟩ := hx s hs
  rw [exec_bind_ok h]
  exact hf s' hs'

theorem Meets.mono {R : α → τ → Prop} (hx : Meets A T x v Q) (h : ∀ a v', Q a v' → R a v') : Meets A T x v R := by
  intro s hs
  have hm := hx s hs
  revert hm
  cases exec x s with
  | mk r s' =>
    cases r with
    | ok a =>
      rintro ⟨v', hs', hq⟩
      exact ⟨v', hs', h a v' hq⟩
    | error e => exact id

end

end Action
end DbStorage
