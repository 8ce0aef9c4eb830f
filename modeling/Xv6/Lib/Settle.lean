import Xv6.Lib.Run
import Mathlib.Data.List.Shortlex

/-!
# Runs that come to an end

`Settles` is inevitability: whatever enabled steps are taken among those that meet `ok`, the run
gets to a `good` state, and never to one where nothing more can be done before that. No fairness
is assumed.

Ranks are lists of numbers, all of one length, the weightiest first (`Lower`).

> A rank that every such step makes lower, and no other stuck states than good ones, are
> enough (`Settles.of_rank`).
-/

namespace Xv6.Lib

/-- Lower at one place, and no higher at the places before it. -/
def Lower : List Nat → List Nat → Prop := List.Shortlex (· < ·)

theorem lower_wf : WellFounded Lower := List.Shortlex.wf Nat.lt_wfRel.wf

theorem lower_head {a' a : Nat} {l' l : List Nat} (h : a' < a) (hlen : l'.length = l.length) :
    Lower (a' :: l') (a :: l) :=
  List.Shortlex.of_lex (congrArg (· + 1) hlen) (List.Lex.rel h)

theorem lower_tail {a' a : Nat} {l' l : List Nat} (h : a' ≤ a) (hl : Lower l' l)
    (hlen : l'.length = l.length) : Lower (a' :: l') (a :: l) := by
  rcases Nat.lt_or_eq_of_le h with h | rfl
  · exact lower_head h hlen
  · rcases List.shortlex_def.mp hl with hlt | ⟨-, hlex⟩
    · exact absurd hlen (Nat.ne_of_lt hlt)
    · exact List.Shortlex.of_lex (congrArg (· + 1) hlen) (List.Lex.cons hlex)

variable {σ α : Type*}

inductive Settles (step : σ → α → Option σ) (ok : σ → α → Prop) (good : σ → Prop) : σ → Prop
  | here {s : σ} : good s → Settles step ok good s
  | go {s : σ} : (∃ a s', ok s a ∧ step s a = some s') →
      (∀ a s', ok s a → step s a = some s' → Settles step ok good s') → Settles step ok good s

theorem Settles.mono {step : σ → α → Option σ} {ok : σ → α → Prop} {good good' : σ → Prop}
    (hgood : ∀ {s : σ}, good s → good' s) {s : σ} (h : Settles step ok good s) :
    Settles step ok good' s := by
  induction h with
  | here hs => exact .here (hgood hs)
  | go hnext _ ih => exact .go hnext ih

/-- **The rank rule**. -/
theorem Settles.of_rank {step : σ → α → Option σ} {ok : σ → α → Prop} {good Inv : σ → Prop}
    (rank : σ → List Nat)
    (hinv : ∀ {s s' : σ} {a : α}, Inv s → ok s a → step s a = some s' → Inv s')
    (hrank : ∀ {s s' : σ} {a : α}, Inv s → ok s a → step s a = some s' →
      Lower (rank s') (rank s))
    (hstuck : ∀ {s : σ}, Inv s → (∀ a, ok s a → step s a = none) → good s) {s : σ} (h : Inv s) :
    Settles step ok good s := by
  induction hr : rank s using lower_wf.induction generalizing s with
  | _ r ih =>
    by_cases hnext : ∃ a s', ok s a ∧ step s a = some s'
    · refine .go hnext fun a s' ha hs => ?_
      exact ih (rank s') (hr ▸ hrank h ha hs) (hinv h ha hs) rfl
    · refine .here (hstuck h fun a ha => ?_)
      cases hs : step s a with
      | none => rfl
      | some s' => exact absurd ⟨a, s', ha, hs⟩ hnext

end Xv6.Lib
