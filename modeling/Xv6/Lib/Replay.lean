import Mathlib.Logic.Function.Basic
import Mathlib.Data.List.Basic

/-!
# Replaying a list of writes

A store is a function from keys to values, and a list of writes replayed over it
gives a store again: the last write to a key wins, and a key that is not written
keeps its value.
-/

namespace Xv6.Lib

variable {κ β : Type*} [DecidableEq κ]

/-- The store after the writes `ws`, the first one first. -/
def replay : List (κ × β) → (κ → β) → κ → β
  | [], m => m
  | w :: ws, m => replay ws (Function.update m w.1 w.2)

theorem replay_append (ws vs : List (κ × β)) (m : κ → β) :
    replay (ws ++ vs) m = replay vs (replay ws m) := by
  induction ws generalizing m with
  | nil => rfl
  | cons w ws ih =>
    rw [List.cons_append, replay, replay, ih]

/-- One more write. -/
theorem replay_snoc (ws : List (κ × β)) (k : κ) (v : β) (m : κ → β) :
    replay (ws ++ [(k, v)]) m = Function.update (replay ws m) k v := by
  rw [replay_append]
  rfl

end Xv6.Lib
