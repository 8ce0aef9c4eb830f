import Xv6.Vm.Machine

/-!
# User memory of a process

The parts of `proc.c`, `sysproc.c` and `vm.c` that work on the page table and the size
of a process: making and freeing an address space, `sbrk`, demand faults, and copying
between kernel and user memory. What `myproc()` would be is a parameter.
-/

namespace Xv6.Vm

open Lib

/-- What `vmfault` and `growproc` read of `myproc()`. -/
structure Me where
  sz : Nat
  pagetable : Frame
  deriving DecidableEq, Repr

/-- `sz + n` as a `uint64`, for an `int` `n`. -/
def plus (sz : Nat) (n : Int) : Nat := ((sz + n) % 2 ^ 64).toNat

def proc_pagetable (trapframe : Frame) : Kern (Option Frame) := do
  match ← uvmcreate with
  | none => pure none
  | some pagetable => do
    let k ← get
    let ok ← mappages pagetable TRAMPOLINE PGSIZE k.trampoline (PTE_R ||| PTE_X)
    if ok = false then do
      uvmfree pagetable 0
      pure none
    else do
      let ok ← mappages pagetable TRAPFRAME PGSIZE trapframe (PTE_R ||| PTE_W)
      if ok = false then do
        uvmunmap pagetable TRAMPOLINE 1 false
        uvmfree pagetable 0
        pure none
      else pure (some pagetable)

def proc_freepagetable (pagetable : Frame) (sz : Nat) : Kern PUnit := do
  uvmunmap pagetable TRAMPOLINE 1 false
  uvmunmap pagetable TRAPFRAME 1 false
  uvmfree pagetable sz

/-- The result (`false` for -1) and the new `p->sz`. -/
def growproc (p : Me) (n : Int) : Kern (Bool × Nat) :=
  if 0 < n then
    if TRAPFRAME < plus p.sz n then pure (false, p.sz)
    else do
      let sz ← uvmalloc p.pagetable p.sz (plus p.sz n) PTE_W
      if sz = 0 then pure (false, p.sz) else pure (true, sz)
  else if n < 0 then do
    let sz ← uvmdealloc p.pagetable p.sz (plus p.sz n)
    pure (true, sz)
  else pure (true, p.sz)

def SBRK_EAGER : Int := 1

/-- The result (`none` for -1) and the new `p->sz`. -/
def sys_sbrk (p : Me) (n t : Int) : Kern (Option Nat × Nat) := do
  let addr := p.sz
  if t = SBRK_EAGER ∨ n < 0 then do
    let (ok, sz) ← growproc p n
    if ok = false then pure (none, sz) else pure (some addr, sz)
  else if plus addr n < addr then pure (none, p.sz)
  else if TRAPFRAME < plus addr n then pure (none, p.sz)
  else pure (some addr, plus p.sz n)

def ismapped (pagetable : Frame) (va : Nat) : Kern Bool := do
  match ← walk pagetable va false with
  | none => pure false
  | some (t, i) => do
    let k ← get
    if k.pte t i &&& PTE_V ≠ 0 then pure true else pure false

/-- The rest of `vmfault`, for a page below `p->sz` that is not mapped. -/
def faultIn (p : Me) (va : Nat) : Kern Frame := do
  match ← kalloc with
  | none => pure 0
  | some mem => do
    memset mem 0
    let ok ← mappages p.pagetable va PGSIZE mem (PTE_W ||| PTE_U ||| PTE_R)
    if ok = false then do
      kfree mem
      pure 0
    else pure mem

/-- 0 if the page cannot be had. -/
def vmfault (p : Me) (pagetable : Frame) (va : Nat) : Kern Frame :=
  if p.sz ≤ va then pure 0
  else do
    let mapped ← ismapped pagetable (PGROUNDDOWN va)
    if mapped = true then pure 0 else faultIn p (PGROUNDDOWN va)

/-- The page a user address is in, faulted in if need be; 0 if there is none. -/
def userPage (p : Me) (pagetable : Frame) (va0 : Nat) : Kern Frame := do
  let pa0 ← walkaddr pagetable va0
  if pa0 = 0 then vmfault p pagetable va0 else pure pa0

/-- `memmove(pa0 + off, src, n)`. -/
def store (pa0 : Frame) (off : Nat) (src : List UInt8) : Kern PUnit :=
  modify fun k => k.setPage pa0 (Bytes.blit (k.mem pa0) off src)

/-- The bytes of a page from `off` on. -/
def Kmem.read (k : Kmem) (pa0 : Frame) (off n : Nat) : List UInt8 :=
  (List.range n).map fun j => k.mem pa0 (off + j)

/-- How much of `len` bytes at `va` lies in the page of `va`. -/
def chunk (va len : Nat) : Nat := min (PGSIZE - (va - PGROUNDDOWN va)) len

theorem chunk_pos {va len : Nat} (h : 0 < len) : 0 < chunk va len := by
  unfold chunk PGROUNDDOWN PGSIZE
  omega

/-- `false` for -1. -/
def copyout (p : Me) (pagetable : Frame) (dstva : Nat) (src : List UInt8) : Kern Bool :=
  if _h : src = [] then pure true
  else do
    let va0 := PGROUNDDOWN dstva
    if MAXVA ≤ va0 then pure false
    else do
      let pa0 ← userPage p pagetable va0
      if pa0 = 0 then pure false
      else
        match ← walk pagetable va0 false with
        | none => stop .null
        | some (t, i) => do
          let k ← get
          if k.pte t i &&& PTE_W = 0 then pure false
          else do
            let n := chunk dstva src.length
            store pa0 (dstva - va0) (src.take n)
            copyout p pagetable (va0 + PGSIZE) (src.drop n)
termination_by src.length
decreasing_by
  have hp := @chunk_pos dstva _ (List.length_pos_iff.mpr _h)
  rw [List.length_drop]
  have hl := List.length_pos_iff.mpr _h
  omega

/-- What was copied, and whether it is all (`false` for -1). -/
def copyin (p : Me) (pagetable : Frame) (srcva len : Nat) : Kern (List UInt8 × Bool) :=
  if _h : len = 0 then pure ([], true)
  else do
    let va0 := PGROUNDDOWN srcva
    let pa0 ← userPage p pagetable va0
    if pa0 = 0 then pure ([], false)
    else do
      let k ← get
      let n := chunk srcva len
      let (rest, ok) ← copyin p pagetable (va0 + PGSIZE) (len - n)
      pure (k.read pa0 (srcva - va0) n ++ rest, ok)
termination_by len
decreasing_by
  have hp := @chunk_pos srcva _ (Nat.pos_of_ne_zero _h)
  omega

/-- The inner loop of `copyinstr`, over `n` bytes of a page: what is stored, the NUL with
it, and whether there was one. -/
def scanPage (page : Page) : Nat → Nat → List UInt8 × Bool
  | _, 0 => ([], false)
  | off, n + 1 =>
    if page off = 0 then ([0], true)
    else
      let (rest, got_null) := scanPage page (off + 1) n
      (page off :: rest, got_null)

/-- What is stored, and the result (`false` for -1). -/
def copyinstr (pagetable : Frame) (srcva max : Nat) : Kern (List UInt8 × Bool) :=
  if _h : max = 0 then pure ([], false)
  else do
    let va0 := PGROUNDDOWN srcva
    let pa0 ← walkaddr pagetable va0
    if pa0 = 0 then pure ([], false)
    else do
      let k ← get
      let n := chunk srcva max
      let (s, got_null) := scanPage (k.mem pa0) (srcva - va0) n
      if got_null = true then pure (s, true)
      else do
        let (rest, ok) ← copyinstr pagetable (va0 + PGSIZE) (max - n)
        pure (s ++ rest, ok)
termination_by max
decreasing_by
  have hp := @chunk_pos srcva _ (Nat.pos_of_ne_zero _h)
  omega

end Xv6.Vm
