import Xv6.Vm.Machine

/-!
# Entries and paths

What an entry that was put together from a page and ten bits says, and the path of an
address: its three indices, the lowest level first. A path of three indices is a
virtual page (`pageOf`), and different pages have different paths.
-/

namespace Xv6.Vm

open Lib

theorem PGSIZE_eq : PGSIZE = 4096 := rfl
theorem MAXVA_eq : MAXVA = 274877906944 := rfl
theorem TRAPFRAME_eq : TRAPFRAME = 274877898752 := rfl

/-! ## Entries -/

/-- The page an entry leads to. -/
def next (pte : Pte) : Option Frame := if pte &&& PTE_V ≠ 0 then some (PTE2PA pte) else none

variable {pa : Frame} {b m : Nat} {pte : Pte}

theorem PTE2PA_or (hb : b < 1024) : PTE2PA (PA2PTE pa ||| b) = pa := by
  unfold PTE2PA PA2PTE
  have hz : b >>> 10 = 0 := by
    rw [Nat.shiftRight_eq_div_pow]
    exact Nat.div_eq_of_lt hb
  rw [Nat.shiftRight_or_distrib, Nat.shiftLeft_shiftRight, hz, Nat.or_zero]

theorem PA2PTE_and (hm : m < 1024) : PA2PTE pa &&& m = 0 := by
  have hlow : PA2PTE pa % 2 ^ 10 = 0 := by
    unfold PA2PTE
    rw [Nat.shiftLeft_eq]
    exact Nat.mul_mod_left pa (2 ^ 10)
  have hmod : (PA2PTE pa &&& m) % 2 ^ 10 = PA2PTE pa &&& m :=
    Nat.mod_eq_of_lt (Nat.and_lt_two_pow _ hm)
  rw [← hmod, Nat.and_mod_two_pow, hlow, Nat.zero_and]

/-- The flags of an entry are the bits it was made with. -/
theorem or_and (hm : m < 1024) : (PA2PTE pa ||| b) &&& m = b &&& m := by
  rw [Nat.and_or_distrib_right, PA2PTE_and hm, Nat.zero_or]

theorem PTE_FLAGS_or (hb : b < 1024) : PTE_FLAGS (PA2PTE pa ||| b) = b := by
  unfold PTE_FLAGS
  rw [or_and (by decide), Nat.and_two_pow_sub_one_eq_mod (n := 10)]
  exact Nat.mod_eq_of_lt hb

theorem or_lt (hpa : pa < 2 ^ 52) (hb : b < 1024) : PA2PTE pa ||| b < 2 ^ 64 := by
  refine Nat.or_lt_two_pow ?_ (Nat.lt_trans hb (by decide))
  have hlt : pa * 2 ^ 10 < 2 ^ 52 * 2 ^ 10 := Nat.mul_lt_mul_of_pos_right hpa (by decide)
  unfold PA2PTE
  rw [Nat.shiftLeft_eq]
  exact Nat.lt_trans hlt (by decide)

theorem flags_lt (pte : Pte) : PTE_FLAGS pte < 1024 := Nat.and_lt_two_pow (n := 10) _ (by decide)

theorem next_of_valid (h : pte &&& PTE_V ≠ 0) : next pte = some (PTE2PA pte) := if_pos h

theorem next_of_invalid (h : pte &&& PTE_V = 0) : next pte = none := if_neg (not_not.mpr h)

theorem next_eq_none : next pte = none ↔ pte &&& PTE_V = 0 := by
  refine ⟨fun h => ?_, next_of_invalid⟩
  by_contra hv
  rw [next_of_valid hv] at h
  exact Option.some_ne_none _ h

theorem next_eq_some : next pte = some pa ↔ pte &&& PTE_V ≠ 0 ∧ PTE2PA pte = pa := by
  unfold next
  rw [Option.ite_none_right_eq_some, Option.some.injEq]

theorem and_valid (b : Nat) : (b ||| PTE_V) &&& PTE_V = PTE_V := by
  rw [Nat.and_or_distrib_right, Nat.and_self]
  have hle : b &&& PTE_V ≤ PTE_V := Nat.and_le_right
  have hv : PTE_V = 1 := rfl
  rw [hv] at hle ⊢
  rcases Nat.le_one_iff_eq_zero_or_eq_one.mp hle with h | h
  · rw [h, Nat.zero_or]
  · rw [h, Nat.or_self]

/-- An entry made valid leads to its page. -/
theorem next_made (hb : b < 1024) : next (PA2PTE pa ||| b ||| PTE_V) = some pa := by
  rw [Nat.or_assoc, next_eq_some]
  refine ⟨?_, PTE2PA_or (Nat.or_lt_two_pow (n := 10) hb (by decide))⟩
  rw [or_and (by decide), and_valid]
  decide

/-- The entry that `mappages` makes for a page. -/
def entryOf (pa : Frame) (perm : Nat) : Pte := PA2PTE pa ||| perm ||| PTE_V

theorem entryOf_lt (hpa : pa < 2 ^ 44) (hb : b < 1024) : entryOf pa b < 2 ^ 64 := by
  unfold entryOf
  rw [Nat.or_assoc]
  exact or_lt (Nat.lt_trans hpa (by decide)) (Nat.or_lt_two_pow (n := 10) hb (by decide))

theorem entryOf_valid (hb : b < 1024) : entryOf pa b &&& PTE_V ≠ 0 :=
  (next_eq_some.mp (next_made hb)).1

theorem PTE2PA_entryOf (hb : b < 1024) : PTE2PA (entryOf pa b) = pa :=
  (next_eq_some.mp (next_made hb)).2

theorem entryOf_and (hm : m < 1024) : entryOf pa b &&& m = (b ||| PTE_V) &&& m := by
  unfold entryOf
  rw [Nat.or_assoc]
  exact or_and hm

/-! ## Paths -/

/-- The number of the virtual page a path stands for. -/
def pageOf : List (Fin 512) → Nat
  | [] => 0
  | i :: p => pageOf p * 512 + i

/-- The path of an address. -/
def way (va : Nat) : List (Fin 512) := [PX 0 va, PX 1 va, PX 2 va]

theorem pageOf_way {va : Nat} (h : va < 2 ^ 39) : pageOf (way va) = va / PGSIZE := by
  show ((0 * 512 + va / 2 ^ 30 % 512) * 512 + va / 2 ^ 21 % 512) * 512 + va / 2 ^
    12 % 512 = va / 4096
  omega

theorem pageOf_inj : ∀ {p q : List (Fin 512)}, p.length = q.length → pageOf p =
    pageOf q → p = q := by
  intro p
  induction p with
  | nil =>
    intro q hl _
    exact (List.length_eq_zero_iff.mp hl.symm).symm
  | cons i p ih =>
    intro q hl hpq
    cases q with
    | nil => exact absurd hl (Nat.succ_ne_zero _)
    | cons j q =>
      have hpq : pageOf p * 512 + i = pageOf q * 512 + j := hpq
      have hi := i.isLt
      have hj := j.isLt
      have hij : i = j := Fin.ext (by omega)
      rw [hij, ih (Nat.succ.inj hl) (by omega)]

theorem way_inj {va va' : Nat} (h : va < 2 ^ 39) (h' : va' < 2 ^ 39) (hw : way va = way va') :
    va / PGSIZE = va' / PGSIZE := by
  rw [← pageOf_way h, ← pageOf_way h', hw]

/-- A path of three indices is the way of an address when its page is that of the address. -/
theorem eq_way {va : Nat} {q : List (Fin 512)} (h : va < 2 ^ 39) (hq : q.length = 3) :
    q = way va ↔ pageOf q = va / PGSIZE := by
  rw [← pageOf_way h]
  exact ⟨fun he => by rw [he], fun he => pageOf_inj (q := way va) hq he⟩

/-! ## The page of an address -/

theorem PGROUNDDOWN_eq (va : Nat) : PGROUNDDOWN va = va / 4096 * 4096 := rfl

theorem PGROUNDDOWN_mod (a : Nat) : PGROUNDDOWN a % PGSIZE = 0 := Nat.mul_mod_left _ _

theorem PGROUNDDOWN_le (va : Nat) : PGROUNDDOWN va ≤ va := Nat.div_mul_le_self va PGSIZE

theorem PGROUNDDOWN_of_mod {va : Nat} (h : va % PGSIZE = 0) : PGROUNDDOWN va = va :=
  Nat.div_mul_cancel (Nat.dvd_of_mod_eq_zero h)

theorem PX_round (level va : Nat) : PX level (PGROUNDDOWN va) = PX level va := by
  have hdiv : PGROUNDDOWN va / 2 ^ (12 + 9 * level) = va / 2 ^ (12 + 9 * level) := by
    rw [PGROUNDDOWN_eq, Nat.pow_add, ← Nat.div_div_eq_div_mul, ← Nat.div_div_eq_div_mul,
      show (2 : Nat) ^ 12 = 4096 from rfl, Nat.mul_div_cancel _ (by decide : 0 < 4096)]
  unfold PX
  simp only [hdiv]

/-- An address is looked up as its page is. -/
theorem way_round (va : Nat) : way (PGROUNDDOWN va) = way va := by
  unfold way
  rw [PX_round, PX_round, PX_round]

end Xv6.Vm
