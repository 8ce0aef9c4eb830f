import Mathlib.Logic.Function.Basic
import Mathlib.Data.Option.Basic

/-!
# Radix trees in a store

A store says what the entry `i` of the table `t` leads to, if anything. From a root a
path leads down; paths are written with the last index first, so that a node is one
step from the node of the tail.

> `node_update`: where tables are distinct, changing one entry of one table changes
> one node, if nothing was or is below it.

The depth `n` is the depth of the nodes that are not tables any more: only the entries
of nodes above it are looked at.
-/

namespace Xv6.Lib.Radix

variable {τ ι : Type*} {child child' : τ → ι → Option τ} {root t : τ} {n : Nat}

/-- Where a path leads. -/
def node (child : τ → ι → Option τ) (root : τ) : List ι → Option τ
  | [] => some root
  | i :: p => (node child root p).bind fun t => child t i

theorem node_cons (i : ι) (p : List ι) :
    node child root (i :: p) = (node child root p).bind fun t => child t i := rfl

theorem node_of_some {i : ι} {p : List ι} (h : node child root p = some t) :
    node child root (i :: p) = child t i := by
  rw [node_cons, h, Option.bind_some]

/-- A path in two parts. -/
theorem node_append (p q : List ι) :
    node child root (p ++ q) = (node child root q).bind fun t => node child t p := by
  induction p with
  | nil =>
    show node child root q = _
    cases node child root q with
    | none => rfl
    | some t => rfl
  | cons i p ih =>
    rw [List.cons_append, node_cons, ih]
    cases node child root q with
    | none => rfl
    | some t => rfl

/-- What is below nothing is nothing. -/
theorem node_append_none {p q : List ι} (h : node child root q = none) :
    node child root (p ++ q) = none := by
  rw [node_append, h, Option.bind_none]

/-- Only the tables on the way matter. -/
theorem node_congr (h : ∀ p t, p.length < n → node child root p = some t →
    ∀ i, child' t i = child t i) :
    ∀ p : List ι, p.length ≤ n → node child' root p = node child root p := by
  intro p
  induction p with
  | nil => intro _; rfl
  | cons i p ih =>
    intro hp
    rw [node_cons, node_cons, ih (Nat.le_of_succ_le hp)]
    cases ht : node child root p with
    | none => rfl
    | some t => exact h p t hp ht i

/-- No two paths lead to one table. -/
def Apart (child : τ → ι → Option τ) (root : τ) (n : Nat) : Prop :=
  ∀ {p q : List ι} {t : τ}, p.length < n → q.length < n →
    node child root p = some t → node child root q = some t → p = q

/-- **One entry changes.** -/
theorem node_update {i₀ : ι} {p₀ : List ι} {c : Option τ} (ha : Apart child root n)
    (h₀ : node child root p₀ = some t) (hn : p₀.length < n) (hc : child' t i₀ = c)
    (hsame : ∀ u i, u ≠ t ∨ i ≠ i₀ → child' u i = child u i)
    (hold : child t i₀ = none ∨ p₀.length + 1 = n)
    (hnew : (∀ u, c = some u → ∀ i, child' u i = none) ∨ p₀.length + 1 = n) :
    ∀ p : List ι, p.length ≤ n →
      (p ≠ i₀ :: p₀ → node child' root p = node child root p) ∧
      (p = i₀ :: p₀ → node child' root p = c) := by
  -- the table itself stays where it is: the entry is below it
  have htop : ∀ p : List ι, p.length ≤ p₀.length → node child' root p = node child root p :=
    node_congr fun p u hp hu i => hsame u i (.inl fun he => by
      have hpp := ha (Nat.lt_trans hp hn) hn hu (he ▸ h₀)
      rw [hpp] at hp
      exact Nat.lt_irrefl _ hp)
  have hat : node child' root (i₀ :: p₀) = c := by
    rw [node_of_some ((htop p₀ (Nat.le_refl _)).trans h₀), hc]
  intro p
  induction p with
  | nil => exact fun _ => ⟨fun _ => rfl, fun he => absurd he.symm (List.cons_ne_nil _ _)⟩
  | cons i p ih =>
    intro hp
    refine ⟨fun hne => ?_, fun he => by rw [he]; exact hat⟩
    by_cases hq : p = i₀ :: p₀
    · -- below the entry there was nothing and is nothing
      have hlt : p₀.length + 1 ≠ n := fun he => by
        rw [hq] at hp
        simp only [List.length_cons] at hp
        omega
      have hno := hold.resolve_right hlt
      rw [node_cons, node_cons, hq, hat, node_of_some h₀, hno, Option.bind_none]
      cases hcc : c with
      | none => rfl
      | some u => exact (hnew.resolve_right hlt) u hcc i
    · rw [node_cons, node_cons, (ih (Nat.le_of_succ_le hp)).1 hq]
      cases hu : node child root p with
      | none => rfl
      | some u =>
        refine hsame u i ?_
        by_cases hut : u = t
        · refine .inr fun hi => hne ?_
          rw [hi, ha hp hn hu (hut ▸ h₀)]
        · exact .inl hut

end Xv6.Lib.Radix
