import Mathlib.Algebra.BigOperators.Group.Finset.Basic
import Mathlib.Algebra.Order.BigOperators.Group.Finset
import Mathlib.Data.Fintype.BigOperators

/-!
# Counting by owner

A count kept in one place is the sum of what its owners hold. When one owner's
share changes, or two owners move something between them, the sum changes with
it; when an owner holds all of it, nobody else holds any. And a table of
optional entries is counted by what it points to: an entry that is set or cleared
changes one count by one.
-/

namespace Xv6.Lib

variable {ι κ α : Type*} [Fintype ι] [DecidableEq ι]

omit [Fintype ι] in
/-- One owner's share changes, of the owners in `t`. -/
theorem sum_change_on {t : Finset ι} {f g : ι → Nat} {i : ι} (hi : i ∈ t)
    (h : ∀ j, j ≠ i → g j = f j) : ∑ j ∈ t, g j + f i = ∑ j ∈ t, f j + g i := by
  have hrest : ∑ j ∈ t.erase i, g j = ∑ j ∈ t.erase i, f j :=
    Finset.sum_congr rfl fun j hj => h j (Finset.ne_of_mem_erase hj)
  rw [← Finset.add_sum_erase _ g hi, ← Finset.add_sum_erase _ f hi, hrest]
  omega

/-- One owner's share changes. -/
theorem sum_change {f g : ι → Nat} (i : ι) (h : ∀ j, j ≠ i → g j = f j) :
    ∑ j, g j + f i = ∑ j, f j + g i := sum_change_on (Finset.mem_univ i) h

/-- One owner's share changes, of what is counted by `F`. -/
theorem sum_update {β : Type*} (F : β → Nat) (f : ι → β) (i : ι) (x : β) :
    ∑ j, F (Function.update f i x j) + F (f i) = ∑ j, F (f j) + F x := by
  have h := sum_change (f := fun j => F (f j)) (g := fun j => F (Function.update f i x j)) i
    fun j hj => by rw [Function.update_of_ne hj]
  rwa [Function.update_self] at h

/-- One owner's share does not grow, and the others' stay. -/
theorem sum_update_le {β : Type*} (F : β → Nat) {f f' : ι → β} {i : ι} {x : β}
    (hf : ∀ j, F (f' j) = F (f j)) (hx : F x ≤ F (f i)) :
    ∑ j, F (Function.update f' i x j) ≤ ∑ j, F (f j) := by
  have h := sum_update F f' i x
  rw [Finset.sum_congr rfl fun j _ => hf j, hf] at h
  omega

/-- One owner's share shrinks, and the others' stay. -/
theorem sum_update_lt {β : Type*} (F : β → Nat) {f f' : ι → β} {i : ι} {x : β}
    (hf : ∀ j, F (f' j) = F (f j)) (hx : F x < F (f i)) :
    ∑ j, F (Function.update f' i x j) < ∑ j, F (f j) := by
  have h := sum_update F f' i x
  rw [Finset.sum_congr rfl fun j _ => hf j, hf] at h
  omega

/-- Two owners' shares change. -/
theorem sum_change_two {f g : ι → Nat} {i j : ι} (hij : i ≠ j)
    (h : ∀ k, k ≠ i → k ≠ j → g k = f k) :
    ∑ k, g k + (f i + f j) = ∑ k, f k + (g i + g j) := by
  have h₁ := sum_change (f := f) (g := Function.update f i (g i)) i
    fun k hk => Function.update_of_ne hk _ _
  have h₂ := sum_change (f := Function.update f i (g i)) (g := g) j fun k hk => by
    by_cases hki : k = i
    · rw [hki, Function.update_self]
    · rw [Function.update_of_ne hki]
      exact h k hki hk
  rw [Function.update_self] at h₁
  rw [Function.update_of_ne hij.symm] at h₂
  omega

omit [DecidableEq ι] in
/-- Nobody holds more than there is. -/
theorem le_sum (f : ι → Nat) (i : ι) : f i ≤ ∑ j, f j :=
  Finset.single_le_sum (fun _ _ => Nat.zero_le _) (Finset.mem_univ i)

/-- Two owners together hold no more than there is. -/
theorem add_le_sum {f : ι → Nat} {i j : ι} (hij : i ≠ j) : f i + f j ≤ ∑ k, f k := by
  have h := sum_change (f := f) (g := Function.update f i 0) i fun k hk =>
    Function.update_of_ne hk _ _
  have hj := le_sum (Function.update f i 0) j
  rw [Function.update_self] at h
  rw [Function.update_of_ne hij.symm] at hj
  omega

variable [DecidableEq α]

/-- How many entries of a table point to `a`, not counting the entry `st`. -/
def entries (row : ι → Option α) (st : Option ι) (a : α) : Nat :=
  (Finset.univ.filter fun i => row i = some a ∧ st ≠ some i).card

/-- An entry that is counted is one of them. -/
theorem entries_pos {row : ι → Option α} {st : Option ι} {a : α} {i : ι} (h : row i = some a)
    (hst : st ≠ some i) : 1 ≤ entries row st a :=
  Finset.card_pos.mpr ⟨i, Finset.mem_filter.mpr ⟨Finset.mem_univ i, h, hst⟩⟩

/-- Setting an empty entry. -/
theorem entries_set {row : ι → Option α} {st : Option ι} {i : ι} (h : row i = none)
    (hst : st ≠ some i) (b a : α) :
    entries (Function.update row i (some b)) st a = entries row st a + [b].count a := by
  unfold entries
  by_cases hab : b = a
  · subst hab
    have hins : (Finset.univ.filter fun j => Function.update row i (some b) j =
      some b ∧ st ≠ some j)
        = insert i (Finset.univ.filter fun j => row j = some b ∧ st ≠ some j) := by
      ext j
      by_cases hj : j = i
      · subst hj
        simp [hst]
      · simp [hj]
    rw [hins, Finset.card_insert_of_notMem (by simp [h]), List.count_singleton_self]
  · have hsame :
      (Finset.univ.filter fun j => Function.update row i (some b) j = some a ∧ st ≠ some j)
        = Finset.univ.filter fun j => row j = some a ∧ st ≠ some j := by
      ext j
      by_cases hj : j = i
      · subst hj
        simp [h, hab]
      · simp [Function.update_of_ne hj]
    rw [hsame, List.count_eq_zero_of_not_mem (by simpa using Ne.symm hab), Nat.add_zero]

/-- Clearing an entry. -/
theorem entries_unset {row : ι → Option α} {st : Option ι} {i : ι} {b : α} (h : row i = some b)
    (hst : st ≠ some i) (a : α) :
    entries (Function.update row i none) st a + [b].count a = entries row st a := by
  have hset : entries (Function.update (Function.update row i none) i (some b)) st a
      = entries (Function.update row i none) st a + [b].count a :=
    entries_set (Function.update_self i none row) hst b a
  rw [Function.update_idem, ← h, Function.update_eq_self] at hset
  exact hset.symm

/-- An entry that is not counted may hold anything. -/
theorem entries_stale (row : ι → Option α) (i : ι) (o : Option α) (a : α) :
    entries (Function.update row i o) (some i) a = entries row (some i) a := by
  unfold entries
  congr 1
  ext j
  by_cases hj : j = i
  · subst hj
    simp
  · simp [Function.update_of_ne hj]

theorem entries_none (row : ι → Option α) (i : ι) (a : α) :
    entries (Function.update row i none) none a = entries row (some i) a := by
  unfold entries
  congr 1
  ext j
  by_cases hj : j = i
  · subst hj
    simp
  · simp [Function.update_of_ne hj, Ne.symm hj]

/-- Ceasing to count an entry. -/
theorem entries_ignore {row : ι → Option α} {i : ι} {b : α} (h : row i = some b) (a : α) :
    entries row (some i) a + [b].count a = entries row none a := by
  rw [← entries_none row i a]
  exact entries_unset h (Option.some_ne_none i).symm a

end Xv6.Lib
