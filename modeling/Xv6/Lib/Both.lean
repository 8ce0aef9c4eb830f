import Xv6.Lib.Hoare

/-!
# Two programs side by side

> `both m n R s t`: run from `s` and from `t`, the programs `m` and `n` either both return,
> with `R` for the values and the states, or both stop for the same reason.

With `m` for `n` this says what a program does not depend on, if `R` says what the two
states have in common (`both.bind` composes such statements). What is known about one of the
runs carries over to the other (`both.wp`).
-/

namespace Xv6.Lib

universe u

variable {σ ε α β : Type u}

def both (m n : Prog σ ε α) (R : α → σ → α → σ → Prop) (s t : σ) : Prop :=
  match exec m s, exec n t with
  | (.ok a, s'), (.ok b, t') => R a s' b t'
  | (.error e, _), (.error e', _) => e = e'
  | _, _ => False

variable {R R' : α → σ → α → σ → Prop} {s t : σ} {m n : Prog σ ε α}

theorem both.pure {a b : α} (h : R a s b t) : both (pure a : Prog σ ε α) (pure b) R s t := h

theorem both.stop (e : ε) : both (stop e : Prog σ ε α) (stop e) R s t := rfl

theorem both.modify {R : PUnit → σ → PUnit → σ → Prop} {f g : σ → σ} (h : R ⟨⟩ (f s) ⟨⟩ (g t)) :
    both (modify f : Prog σ ε PUnit) (modify g) R s t := h

/-- A program that begins by reading the state. -/
theorem both.get {f g : σ → Prog σ ε α} (h : both (f s) (g t) R s t) :
    both (get >>= f) (get >>= g) R s t := h

theorem both.mono (h : both m n R s t) (hR : ∀ a s' b t', R a s' b t' → R' a s' b t') :
    both m n R' s t := by
  unfold both at h ⊢
  rcases hm : exec m s with ⟨r | a, s'⟩
  · rcases hn : exec n t with ⟨r' | b, t'⟩
    · rw [hm, hn] at h
      exact h
    · rw [hm, hn] at h
      exact h.elim
  · rcases hn : exec n t with ⟨r' | b, t'⟩
    · rw [hm, hn] at h
      exact h.elim
    · rw [hm, hn] at h
      exact hR a s' b t' h

/-- **Sequencing.** -/
theorem both.bind {f g : α → Prog σ ε β} {R' : β → σ → β → σ → Prop} (h : both m n R s t)
    (hf : ∀ a s' b t', R a s' b t' → both (f a) (g b) R' s' t') :
    both (m >>= f) (n >>= g) R' s t := by
  unfold both at h ⊢
  rw [exec_bind, exec_bind]
  rcases hm : exec m s with ⟨r | a, s'⟩
  · rcases hn : exec n t with ⟨r' | b, t'⟩
    · rw [hm, hn] at h
      exact h
    · rw [hm, hn] at h
      exact h.elim
  · rcases hn : exec n t with ⟨r' | b, t'⟩
    · rw [hm, hn] at h
      exact h.elim
    · rw [hm, hn] at h
      exact hf a s' b t' h

theorem both.ite {c d : Prop} [Decidable c] [Decidable d] {m' n' : Prog σ ε α} (hcd : c ↔ d)
    (h : c → both m n R s t) (h' : ¬c → both m' n' R s t) :
    both (if c then m else m') (if d then n else n') R s t := by
  by_cases hc : c
  · rw [if_pos hc, if_pos (hcd.mp hc)]
    exact h hc
  · rw [if_neg hc, if_neg fun hd => hc (hcd.mpr hd)]
    exact h' hc

/-- What is known about the second run is known of the pair. -/
theorem both.and {Q : α → σ → Prop} {E : ε → σ → Prop} (h : both m n R s t) (hn : wp n Q E t) :
    both m n (fun a s' b t' => R a s' b t' ∧ Q b t') s t := by
  unfold both at h ⊢
  unfold wp at hn
  rcases hm : exec m s with ⟨r | a, s'⟩
  · rcases hx : exec n t with ⟨r' | b, t'⟩
    · rw [hm, hx] at h
      exact h
    · rw [hm, hx] at h
      exact h.elim
  · rcases hx : exec n t with ⟨r' | b, t'⟩
    · rw [hm, hx] at h
      exact h.elim
    · rw [hm, hx] at h
      rw [hx] at hn
      exact ⟨h, hn⟩

/-- **What is known about the second run** carries over to the first. -/
theorem both.wp {Q : α → σ → Prop} {E : ε → σ → Prop} (h : both m n R s t) (hn : Lib.wp n Q E t) :
    Lib.wp m (fun a s' => ∃ b t', R a s' b t' ∧ Q b t') (fun e _ => ∃ t', E e t') s := by
  unfold both at h
  unfold Lib.wp at hn ⊢
  rcases hm : exec m s with ⟨r | a, s'⟩
  · rcases hx : exec n t with ⟨r' | b, t'⟩
    · rw [hm, hx] at h
      rw [hx] at hn
      exact ⟨t', (show r = r' from h) ▸ hn⟩
    · rw [hm, hx] at h
      exact h.elim
  · rcases hx : exec n t with ⟨r' | b, t'⟩
    · rw [hm, hx] at h
      exact h.elim
    · rw [hm, hx] at h
      rw [hx] at hn
      exact ⟨b, t', h, hn⟩

end Xv6.Lib
