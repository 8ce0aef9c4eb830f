import Xv6.Lib.Run
import Xv6.Proc.Basic
import Xv6.Vm.Exec

/-!
# `proc.c`: the address spaces of all processes

The process table as far as it holds pages, and what a process can do to them: `fork`,
`exec`, `exit`, `wait`, `sbrk`, faults, and the copies to and from user memory that
system calls make. A call is one step: two processes never work on one address space,
and what their calls have in common is the free list, which `kalloc` may find empty at
any point (`oom`) and which the rest of the kernel takes pages from and gives back to
between two calls.

Left out of `struct proc` are the fields that hold no pages, and of the calls what they
do to open files and to locks.
-/

namespace Xv6.Vm

open Lib

structure Proc where
  state : ProcState
  parent : Option Slot
  sz : Nat
  /-- `none` is 0. -/
  pagetable : Option Frame
  trapframe : Option Frame
  /-- 16 bytes. -/
  name : List UInt8
  xstate : Int

/-- A slot after `procinit`. -/
def Proc.boot : Proc := ⟨.UNUSED, none, 0, none, none, List.replicate 16 0, 0⟩

structure Mach where
  kmem : Kmem
  proc : Slot → Proc
  initproc : Slot
  /-- The pages that the rest of the kernel has from `kalloc`. -/
  kernel : List Frame

abbrev Sys := Prog Mach Panic

/-- Work on memory. -/
def onKmem {α : Type} (c : Kern α) : Sys α := zoom (·.kmem) (fun k m => { m with kmem := k }) c

def setProc (p : Slot) (f : Proc → Proc) : Sys PUnit :=
  modify fun m => { m with proc := Function.update m.proc p (f (m.proc p)) }

/-- A pointer that is followed. -/
def pointer (x : Option Frame) : Sys Frame :=
  match x with
  | none => stop .null
  | some f => pure f

/-! ## Making and freeing a process -/

def freeTrapframe (p : Slot) : Sys PUnit := do
  let m ← get
  match (m.proc p).trapframe with
  | none => pure ⟨⟩
  | some trapframe => onKmem (kfree trapframe)

def freePagetable (p : Slot) : Sys PUnit := do
  let m ← get
  match (m.proc p).pagetable with
  | none => pure ⟨⟩
  | some pagetable => onKmem (proc_freepagetable pagetable (m.proc p).sz)

def freeproc (p : Slot) : Sys PUnit := do
  freeTrapframe p
  setProc p fun x => { x with trapframe := none }
  freePagetable p
  setProc p fun x =>
    { x with
      pagetable := none
      sz := 0
      parent := none
      name := x.name.set 0 0
      xstate := 0
      state := .UNUSED }

/-- The first `UNUSED` slot. -/
def found (m : Mach) : Option Slot :=
  (List.finRange NPROC).find? fun p => (m.proc p).state = .UNUSED

/-- `none` for 0. -/
def allocproc : Sys (Option Slot) := do
  let m ← get
  match found m with
  | none => pure none
  | some p => do
    setProc p fun x => { x with state := .USED }
    match ← onKmem kalloc with
    | none => do
      freeproc p
      pure none
    | some trapframe => do
      setProc p fun x => { x with trapframe := some trapframe }
      match ← onKmem (proc_pagetable trapframe) with
      | none => do
        freeproc p
        pure none
      | some pagetable => do
        setProc p fun x => { x with pagetable := some pagetable }
        pure (some p)

def userinit : Sys PUnit := do
  match ← allocproc with
  | none => stop .null
  | some p => do
    modify fun m => { m with initproc := p }
    setProc p fun x => { x with state := .RUNNABLE }

/-! ## `fork`, `exit` and `wait` -/

/-- `sizeof(struct trapframe)`. -/
def trapframeSize : Nat := 288

/-- `*(np->trapframe) = *(p->trapframe)`, and `np->trapframe->a0 = 0`. -/
def copyTrapframe (dst src : Frame) : Kern PUnit :=
  modify fun k =>
    (k.setPage dst (Bytes.blit (k.mem dst) 0 (k.read src 0 trapframeSize))).setField dst 112 0

/-- The child's slot, or `none` for -1. -/
def kfork (p : Slot) : Sys (Option Slot) := do
  match ← allocproc with
  | none => pure none
  | some np => do
    let m ← get
    let old ← pointer (m.proc p).pagetable
    let new ← pointer (m.proc np).pagetable
    let ok ← onKmem (uvmcopy old new (m.proc p).sz)
    if ok = false then do
      freeproc np
      pure none
    else do
      setProc np fun x => { x with sz := (m.proc p).sz }
      let src ← pointer (m.proc p).trapframe
      let dst ← pointer (m.proc np).trapframe
      onKmem (copyTrapframe dst src)
      setProc np fun x =>
        { x with
          name := safestrcpy x.name ((m.proc p).name.takeWhile (· ≠ 0)) 16
          parent := some p
          state := .RUNNABLE }
      pure (some np)

def reparent (p : Slot) : Sys PUnit := modify fun m =>
  { m with proc :=
    fun pp => if (m.proc pp).parent = some p then { m.proc pp with parent := some m.initproc }
    else m.proc pp }

def kexit (p : Slot) (status : Int) : Sys PUnit := do
  let m ← get
  if p = m.initproc then stop .initExiting
  else do
    reparent p
    setProc p fun x => { x with xstate := status, state := .ZOMBIE }

/-- What `vm.c` reads of `myproc()`. -/
def me (p : Slot) : Sys Me := do
  let m ← get
  let pagetable ← pointer (m.proc p).pagetable
  pure ⟨(m.proc p).sz, pagetable⟩

/-- The bytes of an `int`. -/
def intBytes (n : Int) : List UInt8 := (List.range 4).map (Bytes.le (n % 2 ^ 32).toNat)

/-- The first child that has exited. -/
def zombie (m : Mach) (p : Slot) : Option Slot :=
  (List.finRange NPROC).find? fun pp => (m.proc pp).parent = some p ∧ (m.proc pp).state = .ZOMBIE

/-- `copyout` of `pp->xstate`, if `addr` is not 0. -/
def putStatus (p pp : Slot) (addr : Nat) : Sys Bool := do
  let m ← get
  if addr = 0 then pure true
  else do
    let my ← me p
    onKmem (copyout my my.pagetable addr (intBytes (m.proc pp).xstate))

/-- One turn of the loop of `kwait`: the slot of the child freed; `none` for -1 and for going
to sleep. -/
def kwait (p : Slot) (addr : Nat) : Sys (Option Slot) := do
  let m ← get
  match zombie m p with
  | none => pure none
  | some pp => do
    let ok ← putStatus p pp addr
    if ok = false then pure none
    else do
      freeproc pp
      pure (some pp)

/-! ## The other calls -/

/-- What `kexec` has made of a process. -/
def Proc.load (x : Proc) (t : Task) : Proc :=
  { x with sz := t.sz, pagetable := some t.pagetable, name := t.name }

/-- `kexec` by `p`; the log and the inode are those of this call. -/
def runKexec (p : Slot) (file : Option (List UInt8)) (path : List UInt8)
    (argv : List (List UInt8)) :
    Sys (Option Nat) := do
  let m ← get
  let pagetable ← pointer (m.proc p).pagetable
  let trapframe ← pointer (m.proc p).trapframe
  zoom (fun m => ⟨m.kmem, 0, 0, false, ⟨(m.proc p).sz, pagetable, trapframe, (m.proc p).name⟩⟩)
    (fun s m =>
      { m with kmem := s.kmem, proc := Function.update m.proc p ((m.proc p).load s.proc) })
    (kexec file path argv)

def sbrk (p : Slot) (n t : Int) : Sys (Option Nat) := do
  let my ← me p
  let (r, sz) ← onKmem (sys_sbrk my n t)
  setProc p fun x => { x with sz := sz }
  pure r

/-- A program writes to a page of its memory. -/
def userStore (my : Me) (va : Nat) (x : Page) : Kern PUnit := do
  let pa ← walkaddr my.pagetable va
  if pa = 0 then pure ⟨⟩ else modify (·.setPage pa x)

/-- What happens next. -/
inductive Act
  | fork (p : Slot)
  | exec (p : Slot) (file : Option (List UInt8)) (path : List UInt8) (argv : List (List UInt8))
  | exit (p : Slot) (status : Int)
  | wait (p : Slot) (addr : Nat)
  | sbrk (p : Slot) (n t : Int)
  /-- A page fault in user mode. -/
  | fault (p : Slot) (va : Nat)
  | copyout (p : Slot) (va : Nat) (src : List UInt8)
  | copyin (p : Slot) (va len : Nat)
  /-- A program writes to its memory. -/
  | store (p : Slot) (va : Nat) (x : Page)
  /-- The scheduler, `sleep`, `wakeup` and `yield`. -/
  | sched (p : Slot) (s : ProcState)
  /-- The rest of the kernel takes a page, gives one back, or writes to one. -/
  | take
  | give (pa : Frame)
  | write (pa : Frame) (x : Page)

/-- The states of a process that is not on its way in or out. -/
def Awake (s : ProcState) : Prop := s = .SLEEPING ∨ s = .RUNNABLE ∨ s = .RUNNING

instance (s : ProcState) : Decidable (Awake s) := inferInstanceAs (Decidable (_ ∨ _))

/-- When it can happen: a call is made by a process that runs, with the arguments `sys_exec`
lets through. -/
def Act.Can (m : Mach) : Act → Prop
  | fork p | exit p _ | wait p _ | sbrk p _ _ | fault p _ | copyout p _ _ |
    copyin p _ _ | store p _ _ =>
    (m.proc p).state = .RUNNING
  | exec p _ _ argv =>
    (m.proc p).state = .RUNNING ∧ argv.length < MAXARG ∧ ∀ s ∈ argv, s.length < PGSIZE
  | sched p s => Awake (m.proc p).state ∧ Awake s
  | take => True
  | give pa => pa ∈ m.kernel
  | write pa _ => pa ∈ m.kernel ∨ ∃ p, (m.proc p).trapframe = some pa

instance (m : Mach) (a : Act) : Decidable (a.Can m) := by
  cases a <;> unfold Act.Can <;> infer_instance

def Act.run : Act → Sys PUnit
  | fork p => do let _ ← kfork p
  | exec p file path argv => do let _ ← runKexec p file path argv
  | exit p status => kexit p status
  | wait p addr => do let _ ← kwait p addr
  | sbrk p n t => do let _ ← Vm.sbrk p n t
  | fault p va => do
    let my ← me p
    let _ ← onKmem (vmfault my my.pagetable va)
  | copyout p va src => do
    let my ← me p
    let _ ← onKmem (Vm.copyout my my.pagetable va src)
  | copyin p va len => do
    let my ← me p
    let _ ← onKmem (Vm.copyin my my.pagetable va len)
  | store p va x => do
    let my ← me p
    onKmem (userStore my va x)
  | sched p s => setProc p fun x => { x with state := s }
  | take => do
    match ← onKmem kalloc with
    | none => pure ⟨⟩
    | some pa => modify fun m => { m with kernel := pa :: m.kernel }
  | give pa => do
    onKmem (kfree pa)
    modify fun m => { m with kernel := m.kernel.erase pa }
  | write pa x => onKmem (modify (·.setPage pa x))

/-- A step, and what its calls of `kalloc` find. -/
def step (m : Mach) (a : List Bool × Act) : Option Mach :=
  if a.2.Can m then
    match exec a.2.run { m with kmem.oom := a.1 } with
    | (.ok _, m') => some m'
    | (.error _, _) => none
  else none

/-- A machine before `userinit`. -/
structure Unbooted (m : Mach) : Prop where
  proc : ∀ p, m.proc p = Proc.boot
  nodup : (m.kernel ++ m.kmem.freelist).Nodup
  ram : ∀ f ∈ m.kernel ++ m.kmem.freelist, m.kmem.low ≤ f ∧ f < PHYSTOP / PGSIZE
  low : 0 < m.kmem.low
  trampoline : m.kmem.trampoline < PHYSTOP / PGSIZE

/-- A machine after `userinit`. -/
def Booted (m : Mach) : Prop := ∃ m₀, Unbooted m₀ ∧ exec userinit m₀ = (.ok ⟨⟩, m)

end Xv6.Vm
