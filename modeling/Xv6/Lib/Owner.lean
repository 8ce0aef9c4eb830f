import Mathlib.Data.List.Perm.Basic
import Mathlib.Data.List.Nodup
import Mathlib.Logic.Function.Basic

/-!
# Things with one owner

A stock of things is divided between a list, which holds some of them, and places,
each of which holds one or none. `Split D l own` says that the things in `D` are
exactly those held, and none of them twice.

> `Split.move`: giving a place another content keeps the division when the old content
> and the old list are, together, the new content and the new list.

The stock `D` never changes: what one owner gives up another must take.
-/

namespace Xv6.Lib.Owner

variable {α π ρ : Type*} {D : α → Prop} {l l' : List α} {own own' : π → Option α}

structure Split (D : α → Prop) (l : List α) (own : π → Option α) : Prop where
  nodup : l.Nodup
  mem : ∀ a, D a ↔ a ∈ l ∨ ∃ q, own q = some a
  apart : ∀ {a q}, own q = some a → a ∉ l
  inj : ∀ {q r a}, own q = some a → own r = some a → q = r

namespace Split

theorem of_mem (h : Split D l own) {a : α} (ha : a ∈ l) : D a := (h.mem a).mpr (.inl ha)

theorem of_own (h : Split D l own) {a : α} {q : π} (hq : own q = some a) : D a :=
  (h.mem a).mpr (.inr ⟨q, hq⟩)

/-- Nothing is in any place. -/
theorem of_list (h : l.Nodup) : Split (· ∈ l) l (fun _ : π => none) where
  nodup := h
  mem a := ⟨.inl, fun hc => hc.elim id fun ⟨_, hq⟩ => absurd hq.symm (Option.some_ne_none a)⟩
  apart hq := absurd hq.symm (Option.some_ne_none _)
  inj hq := absurd hq.symm (Option.some_ne_none _)

theorem of_iff {D' : α → Prop} (h : Split D l own) (hD : ∀ a, D' a ↔ D a) : Split D' l own where
  nodup := h.nodup
  mem a := (hD a).trans (h.mem a)
  apart := h.apart
  inj := h.inj

/-- The list in another order. -/
theorem perm (h : Split D l own) (hp : l'.Perm l) : Split D l' own where
  nodup := hp.nodup_iff.mpr h.nodup
  mem a := (h.mem a).trans (or_congr_left hp.mem_iff.symm)
  apart ha hc := h.apart ha (hp.mem_iff.mp hc)
  inj := h.inj

/-- The same places under another description. -/
theorem congr (h : Split D l own) (ho : ∀ q, own' q = own q) : Split D l own' := by
  rwa [show own' = own from funext ho]

/-- **One place gets another content.** -/
theorem move [DecidableEq π] (h : Split D l own) (q₀ : π) (x : Option α)
    (hp : (x.toList ++ l').Perm ((own q₀).toList ++ l)) :
    Split D l' (Function.update own q₀ x) := by
  have hnd : ((own q₀).toList ++ l).Nodup := by
    cases hq : own q₀ with
    | none => exact h.nodup
    | some a => exact List.nodup_cons.mpr ⟨h.apart hq, h.nodup⟩
  have hnd' : (x.toList ++ l').Nodup := hp.nodup_iff.mpr hnd
  have hin : ∀ a, (a ∈ x.toList ∨ a ∈ l') ↔ (a ∈ (own q₀).toList ∨ a ∈ l) := fun a => by
    rw [← List.mem_append, ← List.mem_append]
    exact hp.mem_iff
  -- a thing in another place is neither in the list nor in this place
  have hother : ∀ {a q}, q ≠ q₀ → own q = some a → a ∉ x.toList ∧ a ∉ l' := by
    intro a q hne hq
    rw [← not_or, hin, not_or]
    refine ⟨fun hc => hne (h.inj hq (Option.mem_toList.mp hc)), h.apart hq⟩
  refine ⟨(List.nodup_append.mp hnd').2.1, fun a => ?_, fun {a q} hq hc => ?_,
    fun {q r a} hq hr => ?_⟩
  · rw [h.mem]
    constructor
    · rintro (ha | ⟨q, hq⟩)
      · rcases (hin a).mpr (.inr ha) with hx | ha
        · exact .inr ⟨q₀, by rw [Function.update_self]; exact Option.mem_toList.mp hx⟩
        · exact .inl ha
      · by_cases hne : q = q₀
        · rw [hne] at hq
          rcases (hin a).mpr (.inl (Option.mem_toList.mpr hq)) with hx | ha
          · exact .inr ⟨q₀, by rw [Function.update_self]; exact Option.mem_toList.mp hx⟩
          · exact .inl ha
        · exact .inr ⟨q, by rw [Function.update_of_ne hne]; exact hq⟩
    · rintro (ha | ⟨q, hq⟩)
      · rcases (hin a).mp (.inr ha) with hx | ha
        · exact .inr ⟨q₀, Option.mem_toList.mp hx⟩
        · exact .inl ha
      · by_cases hne : q = q₀
        · rw [hne, Function.update_self] at hq
          rcases (hin a).mp (.inl (Option.mem_toList.mpr hq)) with hx | ha
          · exact .inr ⟨q₀, Option.mem_toList.mp hx⟩
          · exact .inl ha
        · rw [Function.update_of_ne hne] at hq
          exact .inr ⟨q, hq⟩
  · by_cases hne : q = q₀
    · rw [hne, Function.update_self] at hq
      exact (List.nodup_append.mp hnd').2.2 a (Option.mem_toList.mpr hq) a hc rfl
    · rw [Function.update_of_ne hne] at hq
      exact (hother hne hq).2 hc
  · by_cases hq₀ : q = q₀
    · by_cases hr₀ : r = q₀
      · rw [hq₀, hr₀]
      · rw [hq₀, Function.update_self] at hq
        rw [Function.update_of_ne hr₀] at hr
        exact absurd (Option.mem_toList.mpr hq) (hother hr₀ hr).1
    · rw [Function.update_of_ne hq₀] at hq
      by_cases hr₀ : r = q₀
      · rw [hr₀, Function.update_self] at hr
        exact absurd (Option.mem_toList.mpr hr) (hother hq₀ hq).1
      · rw [Function.update_of_ne hr₀] at hr
        exact h.inj hq hr

/-- A place takes a thing from the list. -/
theorem put [DecidableEq π] (h : Split D l own) {q₀ : π} {a : α} (hq : own q₀ = none)
    (hp : l.Perm (a :: l')) : Split D l' (Function.update own q₀ (some a)) :=
  h.move q₀ (some a) (by rw [hq]; exact hp.symm)

/-- A place gives its content to the list. -/
theorem give [DecidableEq π] (h : Split D l own) {q₀ : π} {a : α} (hq : own q₀ = some a)
    (hp : l'.Perm (a :: l)) : Split D l' (Function.update own q₀ none) :=
  h.move q₀ none (by rw [hq]; exact hp)

/-! ## A larger and a smaller stock -/

/-- Something new comes to the list. -/
theorem add (h : Split D l own) {a : α} (ha : ¬D a) :
    Split (fun b => b = a ∨ D b) (a :: l) own where
  nodup := List.nodup_cons.mpr ⟨fun hc => ha (h.of_mem hc), h.nodup⟩
  mem b := by rw [List.mem_cons, or_assoc, h.mem]
  apart {b q} hq hc := by
    rcases List.mem_cons.mp hc with rfl | hc
    · exact ha (h.of_own hq)
    · exact h.apart hq hc
  inj := h.inj

/-- The first of the list goes. -/
theorem drop {a : α} (h : Split D (a :: l) own) : Split (fun b => D b ∧ b ≠ a) l own where
  nodup := (List.nodup_cons.mp h.nodup).2
  mem b := by
    rw [h.mem, List.mem_cons]
    constructor
    · rintro ⟨(rfl | hl) | hq, hne⟩
      · exact absurd rfl hne
      · exact .inl hl
      · exact .inr hq
    · rintro (hl | ⟨q, hq⟩)
      · exact ⟨.inl (.inr hl), fun he => (List.nodup_cons.mp h.nodup).1 (he ▸ hl)⟩
      · exact ⟨.inr ⟨q, hq⟩, fun he => h.apart hq (he ▸ List.mem_cons_self)⟩
  apart hq hl := h.apart hq (List.mem_cons_of_mem a hl)
  inj := h.inj

/-! ## A part of the places -/

/-- The list and some of the places, with what they have. -/
theorem part (h : Split D l own) {e : ρ → π} (he : Function.Injective e) :
    Split (fun a => a ∈ l ∨ ∃ r, own (e r) = some a) l (fun r => own (e r)) where
  nodup := h.nodup
  mem _ := Iff.rfl
  apart hq := h.apart hq
  inj hq hr := he (h.inj hq hr)

/-- **What is done within a part** is done within the whole. -/
theorem join (h : Split D l own) {e : ρ → π} {new : ρ → Option α}
    (h' : Split (fun a => a ∈ l ∨ ∃ r, own (e r) = some a) l' new)
    (hin : ∀ r, own' (e r) = new r) (hout : ∀ q, (∀ r, q ≠ e r) → own' q = own q) :
    Split D l' own' := by
  -- what a place outside the part has is not the part's
  have hsep : ∀ {a q}, (∀ r, q ≠ e r) → own q = some a → ¬(a ∈ l ∨ ∃ r, own (e r) = some a) := by
    rintro a q hq ha (hl | ⟨r, hr⟩)
    · exact h.apart ha hl
    · exact hq r (h.inj ha hr)
  refine ⟨h'.nodup, fun a => ?_, fun {a q} hq hl => ?_, fun {q r a} hq hr => ?_⟩
  · rw [h.mem]
    constructor
    · intro ha
      by_cases hp : a ∈ l ∨ ∃ r, own (e r) = some a
      · rcases (h'.mem a).mp hp with hl | ⟨r, hr⟩
        · exact .inl hl
        · exact .inr ⟨e r, (hin r).trans hr⟩
      · rcases ha with hl | ⟨q, hq⟩
        · exact absurd (.inl hl) hp
        · exact .inr ⟨q, (hout q fun r he => hp (.inr ⟨r, he ▸ hq⟩)).trans hq⟩
    · rintro (hl | ⟨q, hq⟩)
      · exact ((h'.mem a).mpr (.inl hl)).imp id fun ⟨r, hr⟩ => ⟨e r, hr⟩
      · by_cases hr : ∃ r, q = e r
        · obtain ⟨r, rfl⟩ := hr
          rw [hin] at hq
          exact ((h'.mem a).mpr (.inr ⟨r, hq⟩)).imp id fun ⟨r, hr⟩ => ⟨e r, hr⟩
        · rw [hout q fun r he => hr ⟨r, he⟩] at hq
          exact .inr ⟨q, hq⟩
  · by_cases hr : ∃ r, q = e r
    · obtain ⟨r, rfl⟩ := hr
      rw [hin] at hq
      exact h'.apart hq hl
    · have hne : ∀ r, q ≠ e r := fun r he => hr ⟨r, he⟩
      rw [hout q hne] at hq
      exact hsep hne hq ((h'.mem a).mpr (.inl hl))
  · by_cases hq' : ∃ s, q = e s
    · obtain ⟨s, rfl⟩ := hq'
      rw [hin] at hq
      by_cases hr' : ∃ s', r = e s'
      · obtain ⟨s', rfl⟩ := hr'
        rw [hin] at hr
        rw [h'.inj hq hr]
      · have hne : ∀ s, r ≠ e s := fun s he => hr' ⟨s, he⟩
        rw [hout r hne] at hr
        exact absurd ((h'.mem a).mpr (.inr ⟨s, hq⟩)) (hsep hne hr)
    · have hne : ∀ s, q ≠ e s := fun s he => hq' ⟨s, he⟩
      rw [hout q hne] at hq
      by_cases hr' : ∃ s', r = e s'
      · obtain ⟨s', rfl⟩ := hr'
        rw [hin] at hr
        exact absurd ((h'.mem a).mpr (.inr ⟨s', hr⟩)) (hsep hne hq)
      · rw [hout r fun s he => hr' ⟨s, he⟩] at hr
        exact h.inj hq hr

end Split

end Xv6.Lib.Owner
