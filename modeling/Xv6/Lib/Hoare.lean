import Mathlib.Logic.Basic

/-!
# Preconditions for a program that may stop

A program reads and writes a state, and either returns a value or stops with a
reason; the state it had reached is there in both cases.

> `wp m Q E s`: run from `s`, the program `m` either returns some `a` in a state
> with `Q a`, or stops for a reason `e` in a state with `E e`.

What a composed program needs is said in terms of its parts, statement by
statement: `wp_bind` and its companions are simp lemmas, and `wp.andThen` chains
the specification of the first part with a proof about the rest. A program whose
stops all meet `E` can promise as little as it likes about its value (`wp.mono`).
-/

namespace Xv6.Lib

universe u

variable {σ ε α β : Type u}

/-- A program over the state `σ` that may stop with a reason in `ε`. -/
abbrev Prog (σ ε α : Type u) := ExceptT ε (StateM σ) α

/-- The value or the reason, and the state reached. -/
def exec (m : Prog σ ε α) (s : σ) : Except ε α × σ := StateT.run (ExceptT.run m) s

/-- Stop here. -/
def stop (e : ε) : Prog σ ε α := throw e

def wp (m : Prog σ ε α) (Q : α → σ → Prop) (E : ε → σ → Prop) (s : σ) : Prop :=
  match exec m s with
  | (.ok a, s') => Q a s'
  | (.error e, s') => E e s'

variable {Q R : α → σ → Prop} {E : ε → σ → Prop} {s : σ}

theorem exec_bind (m : Prog σ ε α) (f : α → Prog σ ε β) (s : σ) :
    exec (m >>= f) s = match exec m s with
      | (.ok a, s') => exec (f a) s'
      | (.error e, s') => (.error e, s') := by
  show StateT.run (ExceptT.run m >>= fun r => ExceptT.bindCont f r) s = _
  unfold exec
  rw [StateT.run_bind]
  cases StateT.run (ExceptT.run m) s with
  | mk r s' =>
    cases r with
    | ok a => rfl
    | error e => rfl

@[simp] theorem wp_pure (a : α) : wp (pure a : Prog σ ε α) Q E s ↔ Q a s := Iff.rfl

@[simp] theorem wp_stop (e : ε) : wp (stop e : Prog σ ε α) Q E s ↔ E e s := Iff.rfl

@[simp] theorem wp_get {Q : σ → σ → Prop} : wp (get : Prog σ ε σ) Q E s ↔ Q s s := Iff.rfl

@[simp] theorem wp_modify {Q : PUnit → σ → Prop} (f : σ → σ) :
    wp (modify f : Prog σ ε PUnit) Q E s ↔ Q ⟨⟩ (f s) := Iff.rfl

@[simp] theorem wp_bind (m : Prog σ ε α) (f : α → Prog σ ε β) {Q : β → σ → Prop} :
    wp (m >>= f) Q E s ↔ wp m (fun a => wp (f a) Q E) E s := by
  unfold wp
  rw [exec_bind]
  cases exec m s with
  | mk r s' =>
    cases r with
    | ok a => exact Iff.rfl
    | error e => exact Iff.rfl

@[simp] theorem wp_ite {c : Prop} [Decidable c] (m n : Prog σ ε α) :
    wp (if c then m else n) Q E s ↔ (c → wp m Q E s) ∧ (¬c → wp n Q E s) := by
  by_cases hc : c
  · simp [hc]
  · simp [hc]

/-- A weaker promise about the value. -/
theorem wp.mono {m : Prog σ ε α} (h : wp m R E s) (hQ : ∀ a s', R a s' → Q a s') : wp m Q E s := by
  unfold wp at h ⊢
  cases hm : exec m s with
  | mk r s' =>
    rw [hm] at h
    cases r with
    | ok a => exact hQ a s' h
    | error e => exact h

/-- A weaker promise about the stops. -/
theorem wp.monoStop {E' : ε → σ → Prop} {m : Prog σ ε α} (h : wp m Q E s)
    (hE : ∀ e s', E e s' → E' e s') : wp m Q E' s := by
  unfold wp at h ⊢
  cases hm : exec m s with
  | mk r s' =>
    rw [hm] at h
    cases r with
    | ok a => exact h
    | error e => exact hE e s' h

/-- Two promises about one run. -/
theorem wp.and {E' : ε → σ → Prop} {m : Prog σ ε α} (h : wp m Q E s) (h' : wp m R E' s) :
    wp m (fun a s' => Q a s' ∧ R a s') (fun e s' => E e s' ∧ E' e s') s := by
  unfold wp at h h' ⊢
  cases hm : exec m s with
  | mk r s' =>
    rw [hm] at h h'
    cases r with
    | ok a => exact ⟨h, h'⟩
    | error e => exact ⟨h, h'⟩

/-- Nothing is promised. -/
theorem wp_true (m : Prog σ ε α) : wp m (fun _ _ => True) (fun _ _ => True) s := by
  unfold wp
  cases exec m s with
  | mk r s' =>
    cases r with
    | ok a => exact trivial
    | error e => exact trivial

/-- **Sequencing**: the first part's promise is what the rest starts from. -/
theorem wp.andThen {m : Prog σ ε α} {f : α → Prog σ ε β} {Q : β → σ → Prop} (h : wp m R E s)
    (hf : ∀ a s', R a s' → wp (f a) Q E s') : wp (m >>= f) Q E s :=
  (wp_bind m f).mpr (h.mono hf)

/-- What a returned value meets. -/
theorem wp.of_ok {m : Prog σ ε α} {a : α} {s' : σ} (h : wp m Q E s)
    (hm : exec m s = (.ok a, s')) : Q a s' := by
  unfold wp at h
  rw [hm] at h
  exact h

/-- The promise, and which run it is about. -/
theorem wp.told {m : Prog σ ε α} (h : wp m Q E s) :
    wp m (fun a s' => Q a s' ∧ exec m s = (.ok a, s')) E s := by
  unfold wp at h ⊢
  cases hm : exec m s with
  | mk r s' =>
    rw [hm] at h
    cases r with
    | ok a => exact ⟨h, rfl⟩
    | error e => exact h

/-- A program that does not stop returns. -/
theorem wp.returns {m : Prog σ ε α} (h : wp m Q E s) (hE : ∀ e s', ¬E e s') :
    ∃ a s', exec m s = (.ok a, s') ∧ Q a s' := by
  unfold wp at h
  cases hm : exec m s with
  | mk r s' =>
    rw [hm] at h
    cases r with
    | ok a => exact ⟨a, s', rfl, h⟩
    | error e => exact absurd h (hE e s')

/-- What a stop meets. -/
theorem wp.of_error {m : Prog σ ε α} {e : ε} {s' : σ} (h : wp m Q E s)
    (hm : exec m s = (.error e, s')) : E e s' := by
  unfold wp at h
  rw [hm] at h
  exact h

/-! ## A part of a larger state -/

variable {τ : Type u}

/-- A program over the part `part t` of the state `t`. -/
def zoom (part : τ → σ) (put : σ → τ → τ) (m : Prog σ ε α) : Prog τ ε α := do
  let t ← get
  match exec m (part t) with
  | (.ok a, s) => do
    set (put s t)
    pure a
  | (.error e, s) => do
    set (put s t)
    stop e

@[simp] theorem wp_zoom (part : τ → σ) (put : σ → τ → τ) (m : Prog σ ε α) {Q : α → τ → Prop}
    {E : ε → τ → Prop} {t : τ} : wp (zoom part put m) Q E t ↔
      wp m (fun a s => Q a (put s t)) (fun e s => E e (put s t)) (part t) := by
  unfold zoom
  rw [wp_bind, wp_get]
  show wp (match exec m (part t) with | (.ok a, s) => _ | (.error e, s) => _) Q E t ↔
    (match exec m (part t) with | (.ok a, s') => _ | (.error e, s') => _)
  cases exec m (part t) with
  | mk r s =>
    cases r with
    | ok a => exact Iff.rfl
    | error e => exact Iff.rfl

/-! ## Other reasons to stop -/

variable {ε' : Type u}

/-- The same program where there are other reasons to stop. -/
def among (f : ε → ε') (m : Prog σ ε α) : Prog σ ε' α := do
  let s ← get
  match exec m s with
  | (.ok a, s') => do
    set s'
    pure a
  | (.error e, s') => do
    set s'
    stop (f e)

@[simp] theorem wp_among (f : ε → ε') (m : Prog σ ε α) {E : ε' → σ → Prop} :
    wp (among f m) Q E s ↔ wp m Q (fun e s' => E (f e) s') s := by
  unfold among
  rw [wp_bind, wp_get]
  show wp (match exec m s with | (.ok a, s') => _ | (.error e, s') => _) Q E s ↔
    (match exec m s with | (.ok a, s') => _ | (.error e, s') => _)
  cases exec m s with
  | mk r s' =>
    cases r with
    | ok a => exact Iff.rfl
    | error e => exact Iff.rfl

end Xv6.Lib
