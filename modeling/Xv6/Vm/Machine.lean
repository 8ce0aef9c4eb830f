import Xv6.Lib.Hoare
import Xv6.Lib.Bytes
import Xv6.Lib.Radix

/-!
# `kalloc.c` and `vm.c`: pages and user page tables

Physical memory is its pages; a page is named by its number, so a pointer to the
start of a page is a `Frame`. A page-table page is a page: `walk` reads and writes
64-bit entries in the bytes of memory, and nothing but the proofs keeps the tables of
one address space apart from the data of another.

The free list is a list. Its links are stored in the free pages, which nobody else
reads. `oom` is what the calls of `kalloc` to come find: `true` is no page, whatever is
on the list, since other cores take pages and give them back between two calls.

A loop over addresses stops before its counter can wrap, since `walk` panics from
`MAXVA` on.
-/

namespace Xv6.Vm

open Lib

def PGSIZE : Nat := 4096
def MAXVA : Nat := 2 ^ (9 + 9 + 9 + 12 - 1)
def TRAMPOLINE : Nat := MAXVA - PGSIZE
def TRAPFRAME : Nat := TRAMPOLINE - PGSIZE
def KERNBASE : Nat := 0x80000000
def PHYSTOP : Nat := KERNBASE + 128 * 1024 * 1024

def PGROUNDUP (sz : Nat) : Nat := (sz + PGSIZE - 1) % 2 ^ 64 / PGSIZE * PGSIZE
def PGROUNDDOWN (a : Nat) : Nat := a / PGSIZE * PGSIZE

/-- An `int` made of a `uint64`, as a `uint64` again. -/
def int (n : Nat) : Nat :=
  if n % 2 ^ 32 < 2 ^ 31 then n % 2 ^ 32 else 2 ^ 64 - 2 ^ 32 + n % 2 ^ 32

/-! ## Page-table entries -/

/-- A physical page, by its number. -/
abbrev Frame := Nat

/-- A page-table entry, a `uint64`. -/
abbrev Pte := Nat

def PTE_V : Nat := 2 ^ 0
def PTE_R : Nat := 2 ^ 1
def PTE_W : Nat := 2 ^ 2
def PTE_X : Nat := 2 ^ 3
def PTE_U : Nat := 2 ^ 4

def PA2PTE (pa : Frame) : Pte := pa <<< 10
def PTE2PA (pte : Pte) : Frame := pte >>> 10
def PTE_FLAGS (pte : Pte) : Nat := pte &&& 0x3FF

/-- The index into the table of a level. -/
def PX (level va : Nat) : Fin 512 := ⟨va / 2 ^ (12 + 9 * level) % 512, Nat.mod_lt _ (by decide)⟩

/-! ## Memory -/

/-- The bytes of a page; there are none from `PGSIZE` on. -/
abbrev Page := Nat → UInt8

structure Kmem where
  mem : Frame → Page
  freelist : List Frame
  oom : List Bool
  /-- The first page after `end`. -/
  low : Frame
  /-- The page of `trampoline.S`. -/
  trampoline : Frame

namespace Kmem

def setPage (k : Kmem) (pa : Frame) (x : Page) : Kmem :=
  { k with mem := Function.update k.mem pa x }

/-- `pagetable[i]`. -/
def pte (k : Kmem) (pagetable : Frame) (i : Fin 512) : Pte :=
  Bytes.get (k.mem pagetable) (8 * i) 8

def setPte (k : Kmem) (pagetable : Frame) (i : Fin 512) (pte : Pte) : Kmem :=
  k.setPage pagetable (Bytes.put (k.mem pagetable) (8 * i) 8 pte)

end Kmem

/-- Why a call does not return. -/
inductive Panic
  | kfree
  | walk
  /-- `mappages: va not aligned`. -/
  | mappagesVa
  /-- `mappages: size not aligned`. -/
  | mappagesAligned
  /-- `mappages: size`. -/
  | mappagesSize
  /-- `mappages: remap`. -/
  | remap
  /-- `uvmunmap: not aligned`. -/
  | uvmunmap
  /-- `freewalk: leaf`. -/
  | freewalkLeaf
  | uvmclear
  /-- `loadseg: address should exist`. -/
  | loadseg
  | ilock
  | iunlock
  | initExiting
  /-- Deeper recursion than a page table has levels. -/
  | depth
  | null
  deriving DecidableEq, Repr

abbrev Kern := Prog Kmem Panic

/-- `memset(pa, c, PGSIZE)`. -/
def memset (pa : Frame) (c : UInt8) : Kern PUnit := modify (·.setPage pa fun _ => c)

def kfree (pa : Frame) : Kern PUnit := do
  let k ← get
  if pa < k.low ∨ PHYSTOP / PGSIZE ≤ pa then stop .kfree
  else do
    memset pa 1
    modify fun k => { k with freelist := pa :: k.freelist }

def kalloc : Kern (Option Frame) := do
  let k ← get
  modify fun k => { k with oom := k.oom.tail }
  if k.oom.headD false = true then pure none
  else
    match k.freelist with
    | [] => pure none
    | r :: next => do
      modify fun k => { k with freelist := next }
      memset r 5
      pure (some r)

/-! ## Page tables -/

/-- The loop of `walk`, from a level down. -/
def walkFrom (va : Nat) (alloc : Bool) : Nat → Frame → Kern (Option (Frame × Fin 512))
  | 0, pagetable => pure (some (pagetable, PX 0 va))
  | level + 1, pagetable => do
    let k ← get
    let pte := k.pte pagetable (PX (level + 1) va)
    if pte &&& PTE_V ≠ 0 then walkFrom va alloc level (PTE2PA pte)
    else if alloc = false then pure none
    else
      match ← kalloc with
      | none => pure none
      | some page => do
        memset page 0
        modify (·.setPte pagetable (PX (level + 1) va) (PA2PTE page ||| PTE_V))
        walkFrom va alloc level page

/-- The page and the index of the entry. -/
def walk (pagetable : Frame) (va : Nat) (alloc : Bool) : Kern (Option (Frame × Fin 512)) :=
  if MAXVA ≤ va then stop .walk else walkFrom va alloc 2 pagetable

/-- 0 if not mapped. -/
def walkaddr (pagetable : Frame) (va : Nat) : Kern Frame :=
  if MAXVA ≤ va then pure 0
  else do
    match ← walk pagetable va false with
    | none => pure 0
    | some (t, i) => do
      let k ← get
      if k.pte t i &&& PTE_V = 0 then pure 0
      else if k.pte t i &&& PTE_U = 0 then pure 0
      else pure (PTE2PA (k.pte t i))

/-- The loop of `mappages`: the page at `a`, and `n` more. -/
def mappagesFrom (pagetable : Frame) (perm : Nat) : Nat → Nat → Frame → Kern Bool
  | n, a, pa => do
    match ← walk pagetable a true with
    | none => pure false
    | some (t, i) => do
      let k ← get
      if k.pte t i &&& PTE_V ≠ 0 then stop .remap
      else do
        modify (·.setPte t i (PA2PTE pa ||| perm ||| PTE_V))
        match n with
        | 0 => pure true
        | n + 1 => mappagesFrom pagetable perm n (a + PGSIZE) (pa + 1)

/-- `false` for -1. -/
def mappages (pagetable : Frame) (va size : Nat) (pa : Frame) (perm : Nat) : Kern Bool :=
  if va % PGSIZE ≠ 0 then stop .mappagesVa
  else if size % PGSIZE ≠ 0 then stop .mappagesAligned
  else if size = 0 then stop .mappagesSize
  else mappagesFrom pagetable perm (size / PGSIZE - 1) va pa

def uvmcreate : Kern (Option Frame) := do
  match ← kalloc with
  | none => pure none
  | some pagetable => do
    memset pagetable 0
    pure (some pagetable)

/-- The loop of `uvmunmap`. -/
def uvmunmapFrom (pagetable : Frame) (do_free : Bool) : Nat → Nat → Kern PUnit
  | 0, _ => pure ⟨⟩
  | n + 1, a => do
    match ← walk pagetable a false with
    | none => pure ⟨⟩
    | some (t, i) => do
      let k ← get
      if k.pte t i &&& PTE_V = 0 then pure ⟨⟩
      else do
        if do_free = true then kfree (PTE2PA (k.pte t i)) else pure ⟨⟩
        modify (·.setPte t i 0)
    uvmunmapFrom pagetable do_free n (a + PGSIZE)

def uvmunmap (pagetable : Frame) (va npages : Nat) (do_free : Bool) : Kern PUnit :=
  if va % PGSIZE ≠ 0 then stop .uvmunmap else uvmunmapFrom pagetable do_free npages va

def uvmdealloc (pagetable : Frame) (oldsz newsz : Nat) : Kern Nat :=
  if oldsz ≤ newsz then pure oldsz
  else do
    if PGROUNDUP newsz < PGROUNDUP oldsz then
      uvmunmap pagetable (PGROUNDUP newsz)
        (int ((PGROUNDUP oldsz - PGROUNDUP newsz) / PGSIZE)) true
    else pure ⟨⟩
    pure newsz

/-- The loop of `uvmalloc`; `oldsz` is rounded up. -/
def uvmallocFrom (pagetable : Frame) (oldsz newsz xperm : Nat) (a : Nat) : Kern Nat :=
  if _h : a < newsz then do
    match ← kalloc with
    | none => do
      let _ ← uvmdealloc pagetable a oldsz
      pure 0
    | some mem => do
      memset mem 0
      let ok ← mappages pagetable a PGSIZE mem (PTE_R ||| PTE_U ||| xperm)
      if ok = false then do
        kfree mem
        let _ ← uvmdealloc pagetable a oldsz
        pure 0
      else uvmallocFrom pagetable oldsz newsz xperm (a + PGSIZE)
  else pure newsz
termination_by newsz - a
decreasing_by
  have hp : PGSIZE = 4096 := rfl
  omega

/-- 0 on error. -/
def uvmalloc (pagetable : Frame) (oldsz newsz xperm : Nat) : Kern Nat :=
  if newsz < oldsz then pure oldsz
  else uvmallocFrom pagetable (PGROUNDUP oldsz) newsz xperm (PGROUNDUP oldsz)

/-- One thing after the other. -/
def each {α : Type} (f : α → Kern PUnit) : List α → Kern PUnit
  | [] => pure ⟨⟩
  | a :: as => do
    f a
    each f as

/-- The turn of the loop of `freewalk` for one entry; `free` frees the table below. -/
def freeEntry (free : Frame → Kern PUnit) (pagetable : Frame) (i : Fin 512) : Kern PUnit := do
  let k ← get
  let pte := k.pte pagetable i
  if pte &&& PTE_V ≠ 0 ∧ pte &&& (PTE_R ||| PTE_W ||| PTE_X) = 0 then do
    free (PTE2PA pte)
    modify (·.setPte pagetable i 0)
  else if pte &&& PTE_V ≠ 0 then stop .freewalkLeaf
  else pure ⟨⟩

/-- There are 512 entries in a table. -/
@[irreducible] def indices : List (Fin 512) := List.finRange 512

/-- Of a table with `depth` levels, its own included. -/
def freewalk : Nat → Frame → Kern PUnit
  | 0, _ => stop .depth
  | depth + 1, pagetable => do
    each (freeEntry (freewalk depth) pagetable) indices
    kfree pagetable

def uvmfree (pagetable : Frame) (sz : Nat) : Kern PUnit := do
  if 0 < sz then uvmunmap pagetable 0 (PGROUNDUP sz / PGSIZE) true else pure ⟨⟩
  freewalk 3 pagetable

/-- `memmove(dst, src, PGSIZE)`. -/
def memmove (dst src : Frame) : Kern PUnit := modify fun k => k.setPage dst (k.mem src)

/-- `err` of `uvmcopy`. -/
def uvmcopyErr (new : Frame) (i : Nat) : Kern Bool := do
  uvmunmap new 0 (i / PGSIZE) true
  pure false

/-- The loop of `uvmcopy`. -/
def uvmcopyFrom (old new : Frame) (sz : Nat) (i : Nat) : Kern Bool :=
  if _h : i < sz then do
    match ← walk old i false with
    | none => uvmcopyFrom old new sz (i + PGSIZE)
    | some (t, j) => do
      let k ← get
      let pte := k.pte t j
      if pte &&& PTE_V = 0 then uvmcopyFrom old new sz (i + PGSIZE)
      else
        match ← kalloc with
        | none => uvmcopyErr new i
        | some mem => do
          memmove mem (PTE2PA pte)
          let ok ← mappages new i PGSIZE mem (PTE_FLAGS pte)
          if ok = false then do
            kfree mem
            uvmcopyErr new i
          else uvmcopyFrom old new sz (i + PGSIZE)
  else pure true
termination_by sz - i
decreasing_by
  all_goals
    have hp : PGSIZE = 4096 := rfl
    omega

/-- `false` for -1. -/
def uvmcopy (old new : Frame) (sz : Nat) : Kern Bool := uvmcopyFrom old new sz 0

def uvmclear (pagetable : Frame) (va : Nat) : Kern PUnit := do
  match ← walk pagetable va false with
  | none => stop .uvmclear
  | some (t, i) => modify fun k => k.setPte t i (k.pte t i &&& (2 ^ 64 - 1 - PTE_U))

end Xv6.Vm
