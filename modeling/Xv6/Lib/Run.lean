import Mathlib.Logic.Function.Basic
import Mathlib.Data.Option.Basic

/-!
# Runs of a partial step function

A system is a step function `step : σ → α → Option σ`: the label names who
moves and resolves every choice, `none` says the label is not enabled. The
three notions below are all the later files need:

* `runFrom` — a schedule (a list of labels) executed from a state;
* `RunOk` — every step of that execution meets a side condition `ok`, which
  reads the state *before* the step;
* `Reach` — the states some `ok`-run gets to, with the invariant rule
  `Reach.inv` that every safety theorem goes through.

Two systems under one schedule are compared by `runFrom_rel`: a relation kept
by each pair of steps relates the two executions label by label, so that in
particular neither of them gets stuck alone. What is seen of one system (`trace`)
is a schedule of the other by `runFrom_trace`.
-/

namespace Xv6.Lib

variable {σ τ α : Type*}

/-- Execute a schedule; `none` as soon as a label is not enabled. -/
def runFrom (step : σ → α → Option σ) : σ → List α → Option σ
  | s, [] => some s
  | s, a :: as => (step s a).bind fun s' => runFrom step s' as

@[simp] theorem runFrom_nil (step : σ → α → Option σ) (s : σ) :
    runFrom step s [] = some s := rfl

@[simp] theorem runFrom_cons (step : σ → α → Option σ) (s : σ) (a : α) (as : List α) :
    runFrom step s (a :: as) = (step s a).bind fun s' => runFrom step s' as := rfl

/-- One execution after another. -/
theorem runFrom_append {step : σ → α → Option σ} :
    ∀ {as bs : List α} {s s' s'' : σ}, runFrom step s as = some s' →
      runFrom step s' bs = some s'' → runFrom step s (as ++ bs) = some s'' := by
  intro as
  induction as with
  | nil =>
    intro bs s s' s'' h h'
    rw [runFrom_nil, Option.some.injEq] at h
    exact h ▸ h'
  | cons a as ih =>
    intro bs s s' s'' h h'
    rw [runFrom_cons] at h
    obtain ⟨s₁, h₁, hrest⟩ := Option.bind_eq_some_iff.mp h
    rw [List.cons_append, runFrom_cons, h₁, Option.bind_some]
    exact ih hrest h'

/-- Every step of the execution of `as` from `s` meets `ok`. -/
def RunOk (step : σ → α → Option σ) (ok : σ → α → Prop) : σ → List α → Prop
  | _, [] => True
  | s, a :: as => ok s a ∧ ∀ s', step s a = some s' → RunOk step ok s' as

/-- The states reached from `init` by steps that meet `ok`. -/
inductive Reach (step : σ → α → Option σ) (ok : σ → α → Prop) (init : σ → Prop) : σ → Prop
  | start {s : σ} : init s → Reach step ok init s
  | next {s s' : σ} {a : α} :
      Reach step ok init s → ok s a → step s a = some s' → Reach step ok init s'

/-- The side condition of an unrestricted run. -/
def Any : σ → α → Prop := fun _ _ => True

/-- **The invariant rule**: what holds initially and survives every step that
meets the side condition holds in every reached state. -/
theorem Reach.inv {step : σ → α → Option σ} {ok : σ → α → Prop} {init Inv : σ → Prop}
    (h0 : ∀ s, init s → Inv s)
    (hstep : ∀ {s s' : σ} {a : α}, Inv s → ok s a → step s a = some s' → Inv s')
    {s : σ} (h : Reach step ok init s) : Inv s := by
  induction h with
  | start hi => exact h0 _ hi
  | next _ hok hs ih => exact hstep ih hok hs

/-- The invariant rule for an invariant that speaks of ghost state `g`: each step
may choose it anew. -/
theorem Reach.ghost {γ : Type*} {step : σ → α → Option σ} {ok : σ → α → Prop} {init : σ → Prop}
    {Inv : σ → γ → Prop} (h0 : ∀ s, init s → ∃ g, Inv s g)
    (hstep : ∀ {s s' : σ} {a : α} {g : γ}, Inv s g → ok s a → step s a = some s' →
      ∃ g', Inv s' g')
    {s : σ} (h : Reach step ok init s) : ∃ g, Inv s g := by
  induction h with
  | start hi => exact h0 _ hi
  | next _ hok hs ih =>
    obtain ⟨g, hg⟩ := ih
    exact hstep hg hok hs

/-- A weaker side condition reaches more. -/
theorem Reach.mono {step : σ → α → Option σ} {ok ok' : σ → α → Prop} {init : σ → Prop}
    (hok : ∀ s a, ok s a → ok' s a) {s : σ} (h : Reach step ok init s) :
    Reach step ok' init s := by
  induction h with
  | start hi => exact .start hi
  | next _ ha hs ih => exact .next ih (hok _ _ ha) hs

/-- An execution of a schedule ends in a reached state. -/
theorem Reach.of_run {step : σ → α → Option σ} {ok : σ → α → Prop} {init : σ → Prop} :
    ∀ (as : List α) {s s' : σ}, Reach step ok init s → RunOk step ok s as →
      runFrom step s as = some s' → Reach step ok init s' := by
  intro as
  induction as with
  | nil =>
    intro s s' hs _ hrun
    rw [runFrom_nil, Option.some.injEq] at hrun
    exact hrun ▸ hs
  | cons a as ih =>
    intro s s' hs hok hrun
    rw [runFrom_cons] at hrun
    obtain ⟨s₁, h₁, hrest⟩ := Option.bind_eq_some_iff.mp hrun
    exact ih (.next hs hok.1 h₁) (hok.2 s₁ h₁) hrest

/-- Without a side condition every execution counts. -/
theorem RunOk.any (step : σ → α → Option σ) : ∀ (as : List α) (s : σ), RunOk step Any s as := by
  intro as
  induction as with
  | nil => intro s; exact trivial
  | cons a as ih => intro s; exact ⟨trivial, fun s' _ => ih s'⟩

/-- A weaker side condition. -/
theorem RunOk.imp {step : σ → α → Option σ} {ok ok' : σ → α → Prop} (h : ∀ s a, ok s a → ok' s a) :
    ∀ {as : List α} {s : σ}, RunOk step ok s as → RunOk step ok' s as := by
  intro as
  induction as with
  | nil => intro s _; exact trivial
  | cons a as ih => intro s hrun; exact ⟨h s a hrun.1, fun s' hs => ih (hrun.2 s' hs)⟩

/-- A step function that is enabled only where the side condition holds. -/
def guarded (step : σ → α → Option σ) (ok : σ → α → Prop) [∀ s a, Decidable (ok s a)] :
    σ → α → Option σ := fun s a => if ok s a then step s a else none

/-- A side condition that can be decided is checked along the way. -/
theorem runFrom_guarded {step : σ → α → Option σ} {ok : σ → α → Prop} [∀ s a, Decidable (ok s a)] :
    ∀ (as : List α) {s s' : σ}, runFrom (guarded step ok) s as = some s' →
      RunOk step ok s as ∧ runFrom step s as = some s' := by
  intro as
  induction as with
  | nil => intro s s' h; exact ⟨trivial, h⟩
  | cons a as ih =>
    intro s s' h
    rw [runFrom_cons] at h ⊢
    obtain ⟨s₁, h₁, hrest⟩ := Option.bind_eq_some_iff.mp h
    unfold guarded at h₁
    split at h₁
    next hok =>
      obtain ⟨hrun, hs'⟩ := ih hrest
      refine ⟨⟨hok, fun s₂ h₂ => ?_⟩, Option.bind_eq_some_iff.mpr ⟨s₁, h₁, hs'⟩⟩
      rw [h₁, Option.some.injEq] at h₂
      exact h₂ ▸ hrun
    next => exact absurd h₁.symm (Option.some_ne_none s₁)

theorem RunOk.of_prefix {step : σ → α → Option σ} {ok : σ → α → Prop} :
    ∀ {as bs : List α} {s : σ}, RunOk step ok s as → bs <+: as → RunOk step ok s bs := by
  intro as
  induction as with
  | nil =>
    intro bs s _ hbs
    rw [List.prefix_nil.mp hbs]
    exact trivial
  | cons a as ih =>
    intro bs s h hbs
    cases bs with
    | nil => exact trivial
    | cons b bs =>
      obtain ⟨rfl, hpre⟩ := List.cons_prefix_cons.mp hbs
      exact ⟨h.1, fun s' hs' => ih (h.2 s' hs') hpre⟩

/-- **An exact side condition.** Within the runs that meet `base`: if `Inv` is kept
by the steps that meet `ok` and gives `good`, and every other step breaks `good` at
once, then the runs that meet `ok` are exactly those that stay `good`. -/
theorem RunOk.iff_always_of {step : σ → α → Option σ} {base ok : σ → α → Prop} {Inv good : σ → Prop}
    (hstep : ∀ {s s' : σ} {a : α}, Inv s → base s a → ok s a → step s a = some s' → Inv s')
    (hgood : ∀ {s : σ}, Inv s → good s)
    (hbad : ∀ {s : σ} {a : α}, Inv s → base s a → ¬ok s a → ∃ s', step s a = some s' ∧ ¬good s') :
    ∀ (as : List α) {s : σ}, Inv s → RunOk step base s as →
      (RunOk step ok s as ↔ ∀ bs, bs <+: as → ∀ s', runFrom step s bs = some s' → good s') := by
  intro as
  induction as with
  | nil =>
    intro s hs _
    refine ⟨fun _ bs hbs s' hrun => ?_, fun _ => trivial⟩
    rw [List.prefix_nil.mp hbs, runFrom_nil, Option.some.injEq] at hrun
    exact hrun ▸ hgood hs
  | cons a as ih =>
    intro s hs hbase
    constructor
    · rintro ⟨ha, hrest⟩ bs hbs s' hrun
      cases bs with
      | nil =>
        rw [runFrom_nil, Option.some.injEq] at hrun
        exact hrun ▸ hgood hs
      | cons b bs =>
        obtain ⟨rfl, hpre⟩ := List.cons_prefix_cons.mp hbs
        rw [runFrom_cons] at hrun
        obtain ⟨s₁, h₁, hrun⟩ := Option.bind_eq_some_iff.mp hrun
        exact (ih (hstep hs hbase.1 ha h₁) (hbase.2 s₁ h₁)).mp (hrest s₁ h₁) bs hpre s' hrun
    · intro hall
      have ha : ok s a := by
        by_contra hna
        obtain ⟨s₁, h₁, hng⟩ := hbad hs hbase.1 hna
        refine hng (hall [a] (List.cons_prefix_cons.mpr ⟨rfl, List.nil_prefix⟩) s₁ ?_)
        rw [runFrom_cons, h₁]
        rfl
      refine ⟨ha, fun s₁ h₁ => (ih (hstep hs hbase.1 ha h₁) (hbase.2 s₁ h₁)).mpr
        fun bs hbs s' hrun => ?_⟩
      refine hall (a :: bs) (List.cons_prefix_cons.mpr ⟨rfl, hbs⟩) s' ?_
      rw [runFrom_cons, h₁]
      exact hrun

/-- An exact side condition on all runs. -/
theorem RunOk.iff_always {step : σ → α → Option σ} {ok : σ → α → Prop} {Inv good : σ → Prop}
    (hstep : ∀ {s s' : σ} {a : α}, Inv s → ok s a → step s a = some s' → Inv s')
    (hgood : ∀ {s : σ}, Inv s → good s)
    (hbad : ∀ {s : σ} {a : α}, Inv s → ¬ok s a → ∃ s', step s a = some s' ∧ ¬good s')
    (as : List α) {s : σ} (hs : Inv s) :
    RunOk step ok s as ↔ ∀ bs, bs <+: as → ∀ s', runFrom step s bs = some s' → good s' :=
  RunOk.iff_always_of (fun hi _ => hstep hi) hgood (fun hi _ => hbad hi) as hs (RunOk.any step as s)

/-- **Lock-step simulation.** If related states stay related under every label
that meets `ok` on the left (and are enabled together), a schedule whose left
execution meets `ok` keeps the two executions related to its end. -/
theorem runFrom_rel {step : σ → α → Option σ} {step' : τ → α → Option τ}
    {ok : σ → α → Prop} {R : σ → τ → Prop}
    (hstep : ∀ {s : σ} {t : τ} {a : α}, R s t → ok s a → Option.Rel R (step s a) (step' t a)) :
    ∀ (as : List α) {s : σ} {t : τ}, R s t → RunOk step ok s as →
      Option.Rel R (runFrom step s as) (runFrom step' t as) := by
  intro as
  induction as with
  | nil => intro s t hR _; exact .some hR
  | cons a as ih =>
    intro s t hR hok
    rw [runFrom_cons, runFrom_cons]
    have h := hstep hR hok.1
    cases hs : step s a with
    | none =>
      cases ht : step' t a with
      | none => exact .none
      | some t' => rw [hs, ht] at h; cases h
    | some s' =>
      cases ht : step' t a with
      | none => rw [hs, ht] at h; cases h
      | some t' =>
        rw [hs, ht] at h
        cases h with
        | some hR' => exact ih hR' (hok.2 s' hs)

/-- What is seen of the steps of an execution. -/
def trace {β : Type*} (step : σ → α → Option σ) (see : σ → α → Option β) : σ → List α → List β
  | _, [] => []
  | s, a :: as =>
    match step s a with
    | some s' => (see s a).toList ++ trace step see s' as
    | none => []

/-- **Simulation of what is seen.** If each step is one of the other system, with what is seen of
it as label, or nothing is seen of it and the states stay related, then what is seen of an execution
is a schedule of the other system. -/
theorem runFrom_trace {β : Type*} {step : σ → α → Option σ} {step' : τ → β → Option τ}
    {see : σ → α → Option β} {ok : σ → α → Prop} (R : σ → τ → Prop)
    (hstep : ∀ {s s' : σ} {t : τ} {a : α}, R s t → ok s a → step s a = some s' →
      see s a = none ∧ R s' t ∨ ∃ b t', see s a = some b ∧ step' t b = some t' ∧ R s' t') :
    ∀ (as : List α) {s s' : σ} {t : τ}, R s t → RunOk step ok s as → runFrom step s as = some s' →
      ∃ t', runFrom step' t (trace step see s as) = some t' ∧ R s' t' := by
  intro as
  induction as with
  | nil =>
    intro s s' t hR _ hrun
    exact ⟨t, rfl, Option.some.inj hrun ▸ hR⟩
  | cons a as ih =>
    intro s s' t hR hok hrun
    obtain ⟨s₁, h₁, hrest⟩ := Option.bind_eq_some_iff.mp hrun
    unfold trace
    rw [h₁]
    dsimp only
    rcases hstep hR hok.1 h₁ with ⟨hv, hR'⟩ | ⟨b, t₁, hv, ht, hR'⟩
    · rw [hv]
      exact ih hR' (hok.2 s₁ h₁) hrest
    · rw [hv]
      obtain ⟨t', hrun', hfin⟩ := ih hR' (hok.2 s₁ h₁) hrest
      exact ⟨t', Option.bind_eq_some_iff.mpr ⟨t₁, ht, hrun'⟩, hfin⟩

end Xv6.Lib
