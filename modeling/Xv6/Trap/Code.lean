import Xv6.Lib.Isa
import Xv6.Vm.Machine
import Mathlib.Data.BitVec

/-!
# The code between user space, the kernel and its threads

`trampoline.S`, `swtch.S` and `kernelvec.S`, instruction by instruction, up to the jumps at
their ends.
-/

namespace Xv6.Trap

open Lib.Isa

abbrev Word := BitVec 64

inductive Reg
  | ra | sp | gp | tp
  | t0 | t1 | t2 | t3 | t4 | t5 | t6
  | s0 | s1 | s2 | s3 | s4 | s5 | s6 | s7 | s8 | s9 | s10 | s11
  | a0 | a1 | a2 | a3 | a4 | a5 | a6 | a7
  deriving DecidableEq, Repr

/-- The control registers that the code names. -/
inductive Csr
  | satp
  | sscratch
  deriving DecidableEq

abbrev Code := List (Instr Reg Csr Word)

def TRAMPOLINE : Word := BitVec.ofNat 64 Vm.TRAMPOLINE
def TRAPFRAME : Word := BitVec.ofNat 64 Vm.TRAPFRAME

/-! ## `trampoline.S` -/

/-- Up to `jalr t0`. -/
def uservec : Code :=
  [.csrw .sscratch .a0, .li .a0 TRAPFRAME,
    -- save the user registers in TRAPFRAME
    .sd .ra 40 .a0, .sd .sp 48 .a0, .sd .gp 56 .a0, .sd .tp 64 .a0, .sd .t0 72 .a0,
    .sd .t1 80 .a0, .sd .t2 88 .a0, .sd .s0 96 .a0, .sd .s1 104 .a0, .sd .a1 120 .a0,
    .sd .a2 128 .a0, .sd .a3 136 .a0, .sd .a4 144 .a0, .sd .a5 152 .a0, .sd .a6 160 .a0,
    .sd .a7 168 .a0, .sd .s2 176 .a0, .sd .s3 184 .a0, .sd .s4 192 .a0, .sd .s5 200 .a0,
    .sd .s6 208 .a0, .sd .s7 216 .a0, .sd .s8 224 .a0, .sd .s9 232 .a0, .sd .s10 240 .a0,
    .sd .s11 248 .a0, .sd .t3 256 .a0, .sd .t4 264 .a0, .sd .t5 272 .a0, .sd .t6 280 .a0,
    .csrr .t0 .sscratch, .sd .t0 112 .a0,
    -- kernel_sp, kernel_hartid, kernel_trap and kernel_satp
    .ld .sp 8 .a0, .ld .tp 32 .a0, .ld .t0 16 .a0, .ld .t1 0 .a0,
    .fence, .csrw .satp .t1, .fence]

/-- Up to `sret`. -/
def userret : Code :=
  [.fence, .csrw .satp .a0, .fence, .li .a0 TRAPFRAME,
    -- restore all but a0 from TRAPFRAME
    .ld .ra 40 .a0, .ld .sp 48 .a0, .ld .gp 56 .a0, .ld .tp 64 .a0, .ld .t0 72 .a0,
    .ld .t1 80 .a0, .ld .t2 88 .a0, .ld .s0 96 .a0, .ld .s1 104 .a0, .ld .a1 120 .a0,
    .ld .a2 128 .a0, .ld .a3 136 .a0, .ld .a4 144 .a0, .ld .a5 152 .a0, .ld .a6 160 .a0,
    .ld .a7 168 .a0, .ld .s2 176 .a0, .ld .s3 184 .a0, .ld .s4 192 .a0, .ld .s5 200 .a0,
    .ld .s6 208 .a0, .ld .s7 216 .a0, .ld .s8 224 .a0, .ld .s9 232 .a0, .ld .s10 240 .a0,
    .ld .s11 248 .a0, .ld .t3 256 .a0, .ld .t4 264 .a0, .ld .t5 272 .a0, .ld .t6 280 .a0,
    .ld .a0 112 .a0]

/-! ## `swtch.S` and `kernelvec.S` -/

/-- Up to `ret`. -/
def swtch : Code :=
  [.sd .ra 0 .a0, .sd .sp 8 .a0, .sd .s0 16 .a0, .sd .s1 24 .a0, .sd .s2 32 .a0, .sd .s3 40 .a0,
    .sd .s4 48 .a0, .sd .s5 56 .a0, .sd .s6 64 .a0, .sd .s7 72 .a0, .sd .s8 80 .a0,
    .sd .s9 88 .a0, .sd .s10 96 .a0, .sd .s11 104 .a0,
    .ld .ra 0 .a1, .ld .sp 8 .a1, .ld .s0 16 .a1, .ld .s1 24 .a1, .ld .s2 32 .a1, .ld .s3 40 .a1,
    .ld .s4 48 .a1, .ld .s5 56 .a1, .ld .s6 64 .a1, .ld .s7 72 .a1, .ld .s8 80 .a1,
    .ld .s9 88 .a1, .ld .s10 96 .a1, .ld .s11 104 .a1]

/-- `kernelvec` up to `call kerneltrap`. -/
def kernelvec : Code :=
  [.addi .sp .sp (-256),
    .sd .ra 0 .sp, .sd .gp 16 .sp, .sd .tp 24 .sp, .sd .t0 32 .sp, .sd .t1 40 .sp, .sd .t2 48 .sp,
    .sd .a0 72 .sp, .sd .a1 80 .sp, .sd .a2 88 .sp, .sd .a3 96 .sp, .sd .a4 104 .sp,
    .sd .a5 112 .sp, .sd .a6 120 .sp, .sd .a7 128 .sp, .sd .t3 216 .sp, .sd .t4 224 .sp,
    .sd .t5 232 .sp, .sd .t6 240 .sp]

/-- From there up to `sret`. -/
def kernelret : Code :=
  [.ld .ra 0 .sp, .ld .gp 16 .sp,
    -- not tp (contains hartid), in case we moved CPUs
    .ld .t0 32 .sp, .ld .t1 40 .sp, .ld .t2 48 .sp, .ld .a0 72 .sp, .ld .a1 80 .sp, .ld .a2 88 .sp,
    .ld .a3 96 .sp, .ld .a4 104 .sp, .ld .a5 112 .sp, .ld .a6 120 .sp, .ld .a7 128 .sp,
    .ld .t3 216 .sp, .ld .t4 224 .sp, .ld .t5 232 .sp, .ld .t6 240 .sp,
    .addi .sp .sp 256]

/-! ## `struct trapframe` -/

def kernel_satp : Word := 0
def kernel_sp : Word := 8
def kernel_trap : Word := 16
def epc : Word := 24
def kernel_hartid : Word := 32

/-- Where `struct trapframe` has a register. -/
def slot : Reg → Word
  | .ra => 40 | .sp => 48 | .gp => 56 | .tp => 64 | .t0 => 72 | .t1 => 80 | .t2 => 88
  | .s0 => 96 | .s1 => 104 | .a0 => 112 | .a1 => 120 | .a2 => 128 | .a3 => 136 | .a4 => 144
  | .a5 => 152 | .a6 => 160 | .a7 => 168 | .s2 => 176 | .s3 => 184 | .s4 => 192 | .s5 => 200
  | .s6 => 208 | .s7 => 216 | .s8 => 224 | .s9 => 232 | .s10 => 240 | .s11 => 248 | .t3 => 256
  | .t4 => 264 | .t5 => 272 | .t6 => 280

/-- All registers but `a0`. -/
def others : List Reg :=
  [.ra, .sp, .gp, .tp, .t0, .t1, .t2, .s0, .s1, .a1, .a2, .a3, .a4, .a5, .a6, .a7, .s2, .s3, .s4,
    .s5, .s6, .s7, .s8, .s9, .s10, .s11, .t3, .t4, .t5, .t6]

/-- The registers and their places. -/
def frame : List (Reg × Word) := others.map fun r => (r, slot r)

theorem uservec_eq : uservec = [.csrw .sscratch .a0, .li .a0 TRAPFRAME] ++
    (frame.map (fun s => .sd s.1 s.2 .a0) ++
      [.csrr .t0 .sscratch, .sd .t0 (slot .a0) .a0, .ld .sp kernel_sp .a0,
        .ld .tp kernel_hartid .a0, .ld .t0 kernel_trap .a0, .ld .t1 kernel_satp .a0, .fence,
        .csrw .satp .t1, .fence]) := rfl

theorem userret_eq : userret = [.fence, .csrw .satp .a0, .fence, .li .a0 TRAPFRAME] ++
    (frame.map (fun s => .ld s.1 s.2 .a0) ++ [.ld .a0 (slot .a0) .a0]) := rfl

theorem mem_others {r : Reg} : r ∈ others ↔ r ≠ .a0 := by
  cases r <;> decide

theorem mem_frame {r : Reg} (hr : r ≠ .a0) : (r, slot r) ∈ frame :=
  List.mem_map.mpr ⟨r, mem_others.mpr hr, rfl⟩

theorem frame_ne {s : Reg × Word} (hs : s ∈ frame) : s.1 ≠ .a0 ∧ s.2 = slot s.1 := by
  obtain ⟨r, hr, rfl⟩ := List.mem_map.mp hs
  exact ⟨mem_others.mp hr, rfl⟩

theorem frame_nodup : (frame.map Prod.fst).Nodup := by decide

theorem slot_inj {r r' : Reg} (h : slot r = slot r') : r = r' := by
  have hnd : ((.a0 :: others).map slot).Nodup := by decide
  have hmem : ∀ r, r ∈ .a0 :: others := fun r => by
    by_cases hr : r = .a0
    · exact hr ▸ List.mem_cons_self
    · exact List.mem_cons_of_mem _ (mem_others.mpr hr)
  exact List.inj_on_of_nodup_map hnd (hmem r) (hmem r') h

/-- A register has no place among the kernel's words. -/
theorem slot_bounds (r : Reg) : 40 ≤ slot r ∧ slot r < 4096 := by
  cases r <;> decide

end Xv6.Trap
