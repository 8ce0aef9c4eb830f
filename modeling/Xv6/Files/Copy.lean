import Mathlib.Data.List.GetD
import Xv6.Files.Machine

/-!
# What a copy copies

`copyin` goes page by page and stops at the first page it cannot have: it has copied
the bytes before it (`either_copyin_copied`), and all of them if no byte is out of
reach. `copyout` does the same in the other direction.
-/

namespace Xv6.Files

open Lib

/-- The byte at an address of the source, if it can be read. -/
def byteAt (mem : Mem) (user_src : Bool) (va : Nat) : Option UInt8 :=
  if user_src then (mem.user (va / PGSIZE * PGSIZE)).map fun page => page (va % PGSIZE)
  else some (mem.kernel va)

/-- Whether a byte of the destination can be written. -/
def storable (mem : Mem) (user_dst : Bool) (va : Nat) : Prop :=
  user_dst = true → mem.writable (va / PGSIZE * PGSIZE) = true

/-- `r` is a copy of `len` bytes that ends at the first one that is not there. -/
structure Copied (byte : Nat → Option UInt8) (len : Nat) (r : List UInt8 × Bool) : Prop where
  length : r.1.length ≤ len
  bytes : ∀ k, k < r.1.length → byte k = some (r.1.getD k 0)
  all : r.2 = true → r.1.length = len
  stop : r.2 = false → r.1.length < len ∧ byte r.1.length = none

theorem Copied.nil {byte : Nat → Option UInt8} : Copied byte 0 ([], true) where
  length := le_rfl
  bytes k hk := absurd hk (Nat.not_lt_zero k)
  all _ := rfl
  stop h := by cases h

/-- A part that is copied, and the rest. -/
theorem Copied.append {byte : Nat → Option UInt8} {f : Nat → UInt8} {n m : Nat}
    {r : List UInt8 × Bool}
    (h : Copied (fun k => byte (n + k)) m r) (hf : ∀ k, k < n → byte k = some (f k)) :
    Copied byte (n + m) ((List.range n).map f ++ r.1, r.2) := by
  have hlen : ((List.range n).map f ++ r.1).length = n + r.1.length := by
    rw [List.length_append, List.length_map, List.length_range]
  refine ⟨?_, fun k hk => ?_, fun hr => ?_, fun hr => ?_⟩
  · rw [hlen]
    exact Nat.add_le_add_left h.length n
  · rw [hlen] at hk
    by_cases hkn : k < n
    · rw [List.getD_append _ _ _ _ (by rw [List.length_map, List.length_range]; exact hkn),
        hf k hkn,
        List.getD_eq_getElem _ _ (by rw [List.length_map, List.length_range]; exact hkn),
        List.getElem_map,
        List.getElem_range]
    · rw [List.getD_append_right _ _ _ _ (by rw [List.length_map, List.length_range]; omega),
        List.length_map, List.length_range]
      have hb := h.bytes (k - n) (by omega)
      rwa [show n + (k - n) = k by omega] at hb
  · rw [hlen, h.all hr]
  · have hs := h.stop hr
    rw [hlen]
    exact ⟨Nat.add_lt_add_left hs.1 n, hs.2⟩

theorem PGSIZE_eq : PGSIZE = 4096 := rfl

/-- **`copyin`**: by induction on what is left to copy. -/
theorem copyin_copied (mem : Mem) : ∀ fuel srcva len, len ≤ fuel →
    Copied (fun k => byteAt mem true (srcva + k)) len (copyin mem fuel srcva len) := by
  have hP := PGSIZE_eq
  intro fuel
  induction fuel with
  | zero =>
    intro srcva len hle
    rw [Nat.le_zero.mp hle]
    exact Copied.nil
  | succ fuel ih =>
    intro srcva len hle
    unfold copyin
    split
    next h0 =>
      rw [h0]
      exact Copied.nil
    next h0 =>
      dsimp only
      cases hpage : mem.user (srcva / PGSIZE * PGSIZE) with
      | none =>
        refine ⟨Nat.zero_le _, fun k hk => absurd hk (Nat.not_lt_zero k), fun h => (by cases h),
          fun _ => ?_⟩
        refine ⟨Nat.pos_of_ne_zero h0, ?_⟩
        show Option.map _ (mem.user _) = none
        rw [List.length_nil, Nat.add_zero, hpage]
        rfl
      | some page =>
        dsimp only
        generalize hn : min (PGSIZE - (srcva - srcva / PGSIZE * PGSIZE)) len = n
        rw [hP] at hpage hn ⊢
        have hin : ∀ k, k < n → byteAt mem true (srcva + k)
            = some (page (srcva - srcva / 4096 * 4096 + k)) := by
          intro k hk
          show Option.map _ (mem.user ((srcva + k) / 4096 * 4096)) = _
          rw [show (srcva + k) / 4096 = srcva / 4096 by omega, hpage, Option.map_some]
          show some (page ((srcva + k) % 4096)) = _
          rw [show (srcva + k) % 4096 = srcva - srcva / 4096 * 4096 + k by omega]
        have hrest : Copied (fun k => byteAt mem true (srcva + (n + k))) (len - n)
            (copyin mem fuel (srcva / 4096 * 4096 + 4096) (len - n)) := by
          by_cases hz : len - n = 0
          · rw [hz]
            cases fuel <;> exact Copied.nil
          · have h := ih (srcva / 4096 * 4096 + 4096) (len - n) (by omega)
            rw [show srcva / 4096 * 4096 + 4096 = srcva + n by omega] at h ⊢
            simp only [Nat.add_assoc] at h
            exact h
        have happ := Copied.append hrest hin
        rwa [show n + (len - n) = len by omega] at happ

theorem either_copyin_copied (mem : Mem) (user_src : Bool) (src len : Nat) :
    Copied (fun k => byteAt mem user_src (src + k)) len (either_copyin mem user_src src len) := by
  unfold either_copyin
  cases user_src with
  | true => exact copyin_copied mem len src len le_rfl
  | false =>
    have h := Copied.append (f := fun k => mem.kernel (src + k))
      (n := len) Copied.nil fun k _ => rfl
    rw [List.append_nil] at h
    exact h

/-- **`copyout`** copies everything when everything can be written. -/
theorem copyout_all (mem : Mem) : ∀ fuel dstva len, len ≤ fuel →
    (∀ k, k < len → storable mem true (dstva + k)) → copyout mem fuel dstva len = (len, true) := by
  have hP := PGSIZE_eq
  intro fuel
  induction fuel with
  | zero =>
    intro dstva len hle _
    rw [Nat.le_zero.mp hle]
    rfl
  | succ fuel ih =>
    intro dstva len hle h
    unfold copyout
    split
    next h0 => rw [h0]
    next h0 =>
      dsimp only
      have hw : mem.writable (dstva / PGSIZE * PGSIZE) = true := h 0 (Nat.pos_of_ne_zero h0) rfl
      rw [if_neg (by rw [hw]; exact Bool.noConfusion)]
      generalize hn : min (PGSIZE - (dstva - dstva / PGSIZE * PGSIZE)) len = n
      rw [hP] at hn ⊢
      by_cases hz : len - n = 0
      · rw [hz]
        have hlen : n = len := by omega
        cases fuel with
        | zero =>
          show (n + 0, true) = _
          rw [hlen]
          rfl
        | succ fuel =>
          show (n + 0, true) = _
          rw [hlen]
          rfl
      · rw [ih _ _ (by omega) fun k hk => ?_]
        · dsimp only
          rw [show n + (len - n) = len by omega]
        · have hk' := h (n + k) (by omega)
          rwa [show dstva / 4096 * 4096 + 4096 + k = dstva + (n + k) by omega]

theorem either_copyout_all (mem : Mem) {user_dst : Bool} {dst len : Nat}
    (h : ∀ k, k < len → storable mem user_dst (dst + k)) :
    either_copyout mem user_dst dst len = (len, true) := by
  unfold either_copyout
  cases user_dst with
  | true => exact copyout_all mem len dst len le_rfl h
  | false => rfl

end Xv6.Files
