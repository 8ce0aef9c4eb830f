import Mathlib.Data.List.Nodup
import Mathlib.Data.Option.Basic
import Mathlib.Logic.Function.Basic

/-!
# Straight-line code that changes the address space under itself

Loads, stores, moves, and writes of control registers, one of which (`satp`) names the
table that addresses are looked up in: those of loads and stores, and that of the code
itself. An instruction whose page is no longer where the code lives does not run.

A hart may still hold what it has looked up in a table that it no longer uses, until the
next fence (`stale`). What is looked up must not depend on it:

> `Mmu.find`: the cell behind an address is the one in the table that is in use, and no
> table that may be remembered says anything else.

A run of code is a partial function on the hart and the memory (`run`). Its pieces compose
(`run_append`); a block that saves registers, or restores them, has one rule for all its
instructions (`run_saves`, `run_loads`).
-/

namespace Xv6.Lib.Isa

variable {R S W A : Type*}

inductive Access
  | fetch
  | load
  | store
  deriving DecidableEq

inductive Instr (R S W : Type*)
  /-- `sd src, off(base)`. -/
  | sd (src : R) (off : W) (base : R)
  | ld (dst : R) (off : W) (base : R)
  | li (dst : R) (w : W)
  | addi (dst src : R) (w : W)
  | csrw (csr : S) (src : R)
  | csrr (dst : R) (csr : S)
  | fence

/-- The registers, the control registers, and the tables that may be remembered. -/
structure Hart (R S W : Type*) where
  reg : R → W
  csr : S → W
  stale : List W

/-- Which control register names the table, and what a table says about an address. -/
structure Mmu (S W A : Type*) where
  satp : S
  look : W → Access → W → Option A

/-- The code of one page, which is at `page` and lives in the cell `home`. -/
structure Page (W A : Type*) where
  page : W
  home : A

section Hart

variable [DecidableEq R]

namespace Hart

def set (h : Hart R S W) (r : R) (w : W) : Hart R S W := { h with reg := Function.update h.reg r w }

@[simp] theorem set_csr (h : Hart R S W) (r : R) (w : W) : (h.set r w).csr = h.csr := rfl

@[simp] theorem set_stale (h : Hart R S W) (r : R) (w : W) : (h.set r w).stale = h.stale := rfl

@[simp] theorem set_self (h : Hart R S W) (r : R) (w : W) : (h.set r w).reg r = w := by
  show Function.update h.reg r w r = w
  rw [Function.update_self]

theorem set_other (h : Hart R S W) {r r' : R} (hne : r' ≠ r) (w : W) :
    (h.set r w).reg r' = h.reg r' := by
  show Function.update h.reg r w r' = _
  rw [Function.update_of_ne hne]

end Hart

end Hart

section Find

variable [DecidableEq A] {m : Mmu S W A} {h : Hart R S W}

/-- The cell behind an address. -/
def Mmu.find (m : Mmu S W A) (h : Hart R S W) (acc : Access) (va : W) : Option A :=
  match m.look (h.csr m.satp) acc va with
  | none => none
  | some a => if ∀ t ∈ h.stale, m.look t acc va = some a then some a else none

/-- What is looked up depends on the tables only. -/
theorem Mmu.find_congr {h h' : Hart R S W} (hcsr : h'.csr m.satp = h.csr m.satp)
    (hstale : h'.stale = h.stale) (acc : Access) (va : W) :
    m.find h' acc va = m.find h acc va := by
  unfold Mmu.find
  rw [hcsr, hstale]

/-- Nothing is remembered. -/
theorem Mmu.find_fresh (hstale : h.stale = []) (acc : Access) (va : W) :
    m.find h acc va = m.look (h.csr m.satp) acc va := by
  unfold Mmu.find
  cases m.look (h.csr m.satp) acc va with
  | none => rfl
  | some a =>
    rw [hstale]
    exact if_pos fun t ht => absurd ht List.not_mem_nil

/-- Every table says the same. -/
theorem Mmu.find_agree {acc : Access} {va : W} {a : A}
    (hlook : m.look (h.csr m.satp) acc va = some a)
    (hstale : ∀ t ∈ h.stale, m.look t acc va = some a) : m.find h acc va = some a := by
  unfold Mmu.find
  rw [hlook]
  exact if_pos hstale

end Find

section Semantics

variable [DecidableEq R] [DecidableEq S] [DecidableEq A] [Add W]

def exec1 (m : Mmu S W A) (i : Instr R S W) (x : Hart R S W × (A → W)) :
    Option (Hart R S W × (A → W)) :=
  match i with
  | .sd src off base =>
    (m.find x.1 .store (x.1.reg base + off)).map fun a =>
      (x.1, Function.update x.2 a (x.1.reg src))
  | .ld dst off base =>
    (m.find x.1 .load (x.1.reg base + off)).map fun a => (x.1.set dst (x.2 a), x.2)
  | .li dst w => some (x.1.set dst w, x.2)
  | .addi dst src w => some (x.1.set dst (x.1.reg src + w), x.2)
  | .csrw csr src =>
    some ({ x.1 with
      csr := Function.update x.1.csr csr (x.1.reg src)
      stale := if csr = m.satp then x.1.csr m.satp :: x.1.stale else x.1.stale }, x.2)
  | .csrr dst csr => some (x.1.set dst (x.1.csr csr), x.2)
  | .fence => some ({ x.1 with stale := [] }, x.2)

/-- One instruction, if it is still where it was. -/
def step (m : Mmu S W A) (at_ : Page W A) (i : Instr R S W) (x : Hart R S W × (A → W)) :
    Option (Hart R S W × (A → W)) :=
  if m.find x.1 .fetch at_.page = some at_.home then exec1 m i x else none

def run (m : Mmu S W A) (at_ : Page W A) : List (Instr R S W) → Hart R S W × (A → W) →
    Option (Hart R S W × (A → W))
  | [], x => some x
  | i :: code, x => (step m at_ i x).bind (run m at_ code)

end Semantics

/-! ## Blocks -/

section Stored

variable [DecidableEq A] {mem : A → W}

/-- The registers in `l` are stored one after the other. -/
def stored (cell : W → A) (reg : R → W) : List (R × W) → (A → W) → A → W
  | [], mem => mem
  | (r, off) :: l, mem => stored cell reg l (Function.update mem (cell off) (reg r))

theorem stored_other {cell : W → A} {reg : R → W} {l : List (R × W)} {a : A}
    (ha : ∀ s ∈ l, cell s.2 ≠ a) : stored cell reg l mem a = mem a := by
  induction l generalizing mem with
  | nil => rfl
  | cons s l ih =>
    obtain ⟨r, off⟩ := s
    show stored cell reg l _ a = mem a
    rw [ih fun s hs => ha s (List.mem_cons_of_mem _ hs)]
    exact Function.update_of_ne (ha (r, off) List.mem_cons_self).symm _ _

/-- Every register is in its own cell. -/
theorem stored_at {cell : W → A} {reg : R → W} {l : List (R × W)} {r : R} {off : W}
    (hnd : (l.map fun s => cell s.2).Nodup) (hmem : (r, off) ∈ l) :
    stored cell reg l mem (cell off) = reg r := by
  induction l generalizing mem with
  | nil => exact absurd hmem List.not_mem_nil
  | cons s l ih =>
    obtain ⟨hne, hnd⟩ := List.nodup_cons.mp hnd
    rcases List.mem_cons.mp hmem with rfl | hmem
    · show stored cell reg l _ (cell off) = reg r
      rw [stored_other fun s hs hc => hne (List.mem_map.mpr ⟨s, hs, hc⟩)]
      exact Function.update_self _ _ _
    · exact ih hnd hmem

end Stored

section Loaded

variable [DecidableEq R] {mem : A → W}

/-- The registers in `l` are loaded one after the other. -/
def loaded (cell : W → A) (mem : A → W) : List (R × W) → (R → W) → R → W
  | [], reg => reg
  | (r, off) :: l, reg => loaded cell mem l (Function.update reg r (mem (cell off)))

theorem loaded_other {cell : W → A} {l : List (R × W)} {reg : R → W} {r : R}
    (hr : ∀ s ∈ l, s.1 ≠ r) : loaded cell mem l reg r = reg r := by
  induction l generalizing reg with
  | nil => rfl
  | cons s l ih =>
    obtain ⟨r', off⟩ := s
    show loaded cell mem l _ r = reg r
    rw [ih fun s hs => hr s (List.mem_cons_of_mem _ hs)]
    exact Function.update_of_ne (hr (r', off) List.mem_cons_self).symm _ _

theorem loaded_at {cell : W → A} {l : List (R × W)} {reg : R → W} {r : R} {off : W}
    (hnd : (l.map Prod.fst).Nodup) (hmem : (r, off) ∈ l) :
    loaded cell mem l reg r = mem (cell off) := by
  induction l generalizing reg with
  | nil => exact absurd hmem List.not_mem_nil
  | cons s l ih =>
    obtain ⟨hne, hnd⟩ := List.nodup_cons.mp hnd
    rcases List.mem_cons.mp hmem with rfl | hmem
    · show loaded cell mem l _ r = mem (cell off)
      rw [loaded_other fun s hs hc => hne (List.mem_map.mpr ⟨s, hs, hc⟩)]
      exact Function.update_self _ _ _
    · exact ih hnd hmem

end Loaded

section Rules

variable [DecidableEq R] [DecidableEq S] [DecidableEq A] [Add W] {m : Mmu S W A} {at_ : Page W A}
  {h : Hart R S W} {mem : A → W} {x y : Hart R S W × (A → W)} {code code' : List (Instr R S W)}

@[simp] theorem run_nil : run m at_ [] x = some x := rfl

theorem run_append (h : run m at_ code x = some y) :
    run m at_ (code ++ code') x = run m at_ code' y := by
  induction code generalizing x with
  | nil =>
    obtain rfl : x = y := Option.some.inj h
    rfl
  | cons i code ih =>
    obtain ⟨x', hx', hrest⟩ := Option.bind_eq_some_iff.mp h
    show (step m at_ i x).bind (run m at_ (code ++ code')) = _
    rw [hx']
    exact ih hrest

/-- The first instruction, and the others. -/
theorem run_cons {i : Instr R S W} (hfetch : m.find x.1 .fetch at_.page = some at_.home)
    (hexec : exec1 m i x = some y) : run m at_ (i :: code) x = run m at_ code y := by
  show (step m at_ i x).bind (run m at_ code) = _
  unfold step
  rw [if_pos hfetch, hexec]
  rfl

/-- **Saving registers**, through a base register. -/
theorem run_saves {cell : W → A} {base : R} {l : List (R × W)}
    (hfetch : m.find h .fetch at_.page = some at_.home)
    (hcell : ∀ s ∈ l, m.find h .store (h.reg base + s.2) = some (cell s.2)) :
    run m at_ (l.map fun s => .sd s.1 s.2 base) (h, mem) =
      some (h, stored cell h.reg l mem) := by
  induction l generalizing mem with
  | nil => rfl
  | cons s l ih =>
    have hexec : exec1 m (.sd s.1 s.2 base) (h, mem) =
        some (h, Function.update mem (cell s.2) (h.reg s.1)) := by
      show (m.find h .store (h.reg base + s.2)).map _ = _
      rw [hcell s List.mem_cons_self]
      rfl
    rw [List.map_cons, run_cons hfetch hexec]
    exact ih fun s hs => hcell s (List.mem_cons_of_mem _ hs)

/-- **Restoring registers**, through a base register that is not one of them. -/
theorem run_loads {cell : W → A} {base : R} {l : List (R × W)}
    (hfetch : m.find h .fetch at_.page = some at_.home) (hbase : ∀ s ∈ l, s.1 ≠ base)
    (hcell : ∀ s ∈ l, m.find h .load (h.reg base + s.2) = some (cell s.2)) :
    run m at_ (l.map fun s => .ld s.1 s.2 base) (h, mem) =
      some ({ h with reg := loaded cell mem l h.reg }, mem) := by
  induction l generalizing h with
  | nil => rfl
  | cons s l ih =>
    have hexec : exec1 m (.ld s.1 s.2 base) (h, mem) =
        some (h.set s.1 (mem (cell s.2)), mem) := by
      show (m.find h .load (h.reg base + s.2)).map _ = _
      rw [hcell s List.mem_cons_self]
      rfl
    have hsame : ∀ acc va, m.find (h.set s.1 (mem (cell s.2))) acc va = m.find h acc va :=
      fun acc va => Mmu.find_congr rfl rfl acc va
    have hkeep : (h.set s.1 (mem (cell s.2))).reg base = h.reg base :=
      Function.update_of_ne (hbase s List.mem_cons_self).symm _ _
    rw [List.map_cons, run_cons hfetch hexec]
    refine ih ((hsame _ _).trans hfetch) (fun s hs => hbase s (List.mem_cons_of_mem _ hs))
      fun s' hs' => ?_
    rw [hsame, hkeep]
    exact hcell s' (List.mem_cons_of_mem _ hs')

end Rules

end Xv6.Lib.Isa
