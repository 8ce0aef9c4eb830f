import Xv6.Intr.Nesting
import Xv6.Trap.Trampoline

/-!
# Traps

`trap.c`, `forkret` and the trampoline on any number of harts, over the machine of
`Intr`, which has the interrupt enable bit, the locks and the switches between threads.

A process's thread is before a statement of `usertrap`, `prepare_return` or `forkret`
(`Stmt`), or somewhere in the C code they call (`Stmt.code`), where it goes on as `Intr`
has it. An interrupt in the kernel puts a `kerneltrap` on top of the thread that it finds,
with the local variables it reads the control registers into (`Handler`); it comes at
any statement, if interrupts are on, and C code that yields in a handler comes back on
any hart. `uservec` and `userret` are run instruction by instruction, with interrupts
off.

C code may change every register but `tp`, and the two bits of `sstatus` that a trap
saves: `intr_off` writes back what it has read before an interrupt came. What it does
with memory and page tables is left to the labels: which processes exist, where their
tables and trapframes are, and what a system call writes into the trapframe.

Two things are bookkeeping: `want` is what the program of a process has a right to find
in its registers, given the instructions it has executed and the system calls it has made, and
`returns` lists where handlers were called from and where they have gone back to.
-/

namespace Xv6.Trap

open Lib Lib.Isa
open Intr (Thread)

/-- What a program sees of its hart. -/
structure Ctx where
  pc : Word
  reg : Reg → Word

/-- Where `stvec` points. -/
inductive Vec
  | kernelvec
  | uservec
  deriving DecidableEq

/-- `scause`. -/
inductive Cause
  /-- 0x8000000000000009. -/
  | external
  /-- 0x8000000000000005. -/
  | timer
  /-- 8. -/
  | ecall
  /-- 13. -/
  | load
  /-- 15. -/
  | store
  | other
  deriving DecidableEq

/-- A hart. Its interrupt enable bit is `Intr.Cpu.sie` in supervisor mode, and `sie` in
user mode, where it has no effect. -/
structure Core where
  hart : Hart Reg Csr Word
  user : Bool
  pc : Word
  sie : Bool
  stvec : Vec
  sepc : Word
  scause : Cause
  /-- `SSTATUS_SPP`: true for supervisor mode. -/
  spp : Bool
  spie : Bool

/-- C code that a process's thread is in. -/
inductive Kind
  /-- `killed(p)` before a system call. -/
  | early
  /-- `syscall()`, and what follows up to `prepare_return`. -/
  | syscall
  /-- `devintr`, `vmfault`, and what follows. -/
  | rest
  | forkret
  deriving DecidableEq

/-- The next statement of a process's thread. -/
inductive Stmt
  /-- In user space. -/
  | user
  /-- At `uservec`. -/
  | uservec
  /-- `usertrap`, before `if((r_sstatus() & SSTATUS_SPP) != 0)`. -/
  | fromUser
  /-- Before `w_stvec((uint64)kernelvec)`. -/
  | toKernelvec
  /-- Before `p->trapframe->epc = r_sepc()`. -/
  | saveEpc
  /-- Before `if(r_scause() == 8)`. -/
  | cause
  | code (k : Kind)
  /-- Before `p->trapframe->epc += 4`. -/
  | skip
  | intrOn
  /-- `prepare_return`, before `intr_off()`. -/
  | intrOff
  /-- Before `w_stvec(trampoline_uservec)`. -/
  | toUservec
  | kernelSatp
  | kernelSp
  | kernelTrap
  | kernelHartid
  /-- Before `x = r_sstatus()`. -/
  | sstatus
  /-- Before `w_sepc(p->trapframe->epc)`. -/
  | sepc
  /-- Before `satp = MAKE_SATP(p->pagetable)`. -/
  | userret
  deriving DecidableEq

/-- The next statement of `kerneltrap`. -/
inductive HStmt
  /-- `usertrap`, which a trap in the kernel has come to. -/
  | usertrap
  /-- Before `sepc = r_sepc()`. -/
  | locals
  /-- Before `if((sstatus & SSTATUS_SPP) == 0)`. -/
  | fromKernel
  /-- Before `if(intr_get() != 0)`. -/
  | intrGet
  | devintr
  | code
  | wSepc
  | wSstatus
  | sret
  deriving DecidableEq

/-- A `kerneltrap` and its local variables; `came` is where it was called from. -/
structure Handler where
  next : HStmt
  sepc : Word
  spp : Bool
  spie : Bool
  sie : Bool
  came : Word

inductive Panic
  /-- `usertrap: not from user mode`. -/
  | usertrap
  /-- `kerneltrap: not from supervisor mode`. -/
  | notFromKernel
  /-- `kerneltrap: interrupts enabled`. -/
  | interruptsEnabled
  | kerneltrap
  /-- A fault in the trampoline. -/
  | fault
  /-- `uservec` has jumped to something else than `usertrap`. -/
  | astray
  /-- `sret` has gone to the wrong mode, or left interrupts off. -/
  | sret
  deriving DecidableEq

/-- What does not change: where the trampoline's code lives, the kernel's page table, the
address of `usertrap`, the kernel stacks and the numbers of the harts. -/
structure Env (C P A : Type*) where
  home : A
  kernel_pagetable : Word
  usertrap : Word
  kstack : P → Word
  hartid : C → Word

structure Sys (C P L A : Type*) where
  k : Intr.Kernel C P L
  core : C → Core
  /-- None: the slot is free. -/
  task : P → Option Stmt
  handlers : Thread C P → List Handler
  /-- What the page tables say. -/
  look : Word → Access → Word → Option A
  mem : A → Word
  /-- `MAKE_SATP(p->pagetable)`. -/
  satp : P → Word
  /-- `p->trapframe`. -/
  tf : P → Word → A
  want : P → Ctx
  returns : List (Word × Word)
  panic : Option Panic

/-- What `syscall` and `kexec` write into the trapframe. -/
inductive Write
  | a0 (w : Word)
  | a1 (w : Word)
  | sp (w : Word)
  | epc (w : Word)

/-- What the kernel's C code does where `Intr` has it. -/
inductive Move (P L : Type*)
  | step
  | call (f : Intr.Call P L)
  /-- The scheduler takes `p->lock`. -/
  | dispatch (p : P)

inductive Act (C P L A : Type*)
  /-- The program on `c` executes an instruction. -/
  | user (c : C) (x : Ctx)
  /-- A trap on `c`; `pc` is where it comes, if that is in the kernel. -/
  | trap (c : C) (cause : Cause) (pc : Word)
  /-- The trap code on `c` goes on. -/
  | go (c : C)
  | move (c : C) (a : Move P L)
  /-- The C code on `c` returns. -/
  | done (c : C)
  /-- C code computes. -/
  | work (c : C) (reg : Reg → Word) (spp spie : Bool)
  | write (c : C) (w : Write)
  /-- `*(np->trapframe) = *(p->trapframe)` and `np->trapframe->a0 = 0` in `kfork`. -/
  | fork (c : C) (q : P)
  /-- `kexec` installs a page table. -/
  | exec (c : C) (satp : Word)
  /-- `allocproc` and `freeproc`. -/
  | alloc (c : C) (q : P) (satp : Word) (tf : Word → A)
  | free (c : C) (q : P)
  /-- Whatever else the kernel and the programs do with memory and page tables. -/
  | memory (look : Word → Access → Word → Option A) (mem : A → Word)

/-- The words of a trapframe. -/
def words : List Word :=
  [kernel_satp, kernel_sp, kernel_trap, epc, kernel_hartid] ++ (.a0 :: others).map slot

section Machine

variable {C P L A : Type*} [DecidableEq C] [DecidableEq P] [DecidableEq L] [DecidableEq A]

namespace Sys

/-- The thread on `c`. -/
abbrev on (s : Sys C P L A) (c : C) : Thread C P := s.k.on c

def setCore (s : Sys C P L A) (c : C) (x : Core) : Sys C P L A :=
  { s with core := Function.update s.core c x }

def goto (s : Sys C P L A) (p : P) (t : Stmt) : Sys C P L A :=
  { s with task := Function.update s.task p (some t) }

/-- `p->trapframe->off = w`. -/
def poke (s : Sys C P L A) (p : P) (off w : Word) : Sys C P L A :=
  { s with mem := Function.update s.mem (s.tf p off) w }

def setHandlers (s : Sys C P L A) (t : Thread C P) (hs : List Handler) : Sys C P L A :=
  { s with handlers := Function.update s.handlers t hs }

def fail (s : Sys C P L A) (e : Panic) : Sys C P L A := { s with panic := some e }

/-- The thread on `c` is in C code of the kernel. -/
def inCode (s : Sys C P L A) (c : C) : Bool :=
  match s.handlers (s.on c), (s.k.cpu c).proc with
  | h :: _, _ => h.next = .code
  | [], none => true
  | [], some p => match s.task p with
    | some (.code _) => true
    | _ => false

end Sys

/-- `uservec`, and the jump at its end. -/
def enter (e : Env C P A) (s : Sys C P L A) (c : C) (p : P) : Sys C P L A :=
  match run (mmu s.look) (trampoline e.home) uservec ((s.core c).hart, s.mem) with
  | none => s.fail .fault
  | some (h, mem) =>
    if h.reg .t0 = e.usertrap then
      { (s.setCore c { s.core c with hart := h }).goto p .fromUser with mem := mem }
    else s.fail .astray

/-- `userret`, with the user's page table in `a0`, and `sret`. -/
def leave (e : Env C P A) (s : Sys C P L A) (c : C) (p : P) : Sys C P L A :=
  let x := s.core c
  match run (mmu s.look) (trampoline e.home) userret (x.hart.set .a0 (s.satp p), s.mem) with
  | none => s.fail .fault
  | some (h, mem) =>
    if x.spp = true then s.fail .sret
    else
      { (s.setCore c { x with hart := h, user := true, pc := x.sepc, sie := x.spie }).goto p .user
        with mem := mem }

/-- A statement of `usertrap` or `prepare_return`. -/
def goTask (e : Env C P A) (s : Sys C P L A) (c : C) (p : P) : Stmt → Option (Sys C P L A)
  | .user | .code _ => none
  | .uservec => some (enter e s c p)
  | .fromUser => some (if (s.core c).spp = true then s.fail .usertrap else s.goto p .toKernelvec)
  | .toKernelvec => some ((s.setCore c { s.core c with stvec := .kernelvec }).goto p .saveEpc)
  | .saveEpc => some ((s.poke p epc (s.core c).sepc).goto p .cause)
  | .cause => some (s.goto p (.code (if (s.core c).scause = .ecall then .early else .rest)))
  | .skip =>
    some { (s.poke p epc (s.mem (s.tf p epc) + 4)).goto p .intrOn with
      want := Function.update s.want p { s.want p with pc := (s.want p).pc + 4 } }
  | .intrOn =>
    (Intr.step s.k (.call c .intrOn)).map fun k => { s.goto p (.code .syscall) with k := k }
  | .intrOff => (Intr.step s.k (.call c .intrOff)).map fun k => { s.goto p .toUservec with k := k }
  | .toUservec => some ((s.setCore c { s.core c with stvec := .uservec }).goto p .kernelSatp)
  | .kernelSatp => some ((s.poke p kernel_satp ((s.core c).hart.csr .satp)).goto p .kernelSp)
  | .kernelSp => some ((s.poke p kernel_sp (e.kstack p + 4096)).goto p .kernelTrap)
  | .kernelTrap => some ((s.poke p kernel_trap e.usertrap).goto p .kernelHartid)
  | .kernelHartid => some ((s.poke p kernel_hartid ((s.core c).hart.reg .tp)).goto p .sstatus)
  | .sstatus =>
    some ((s.setCore c { s.core c with spp := false, spie := true }).goto p .sepc)
  | .sepc => some ((s.setCore c { s.core c with sepc := s.mem (s.tf p epc) }).goto p .userret)
  | .userret => some (leave e s c p)

/-- A statement of `kerneltrap`, with `hs` below it. -/
def goHandler (s : Sys C P L A) (c : C) (h : Handler) (hs : List Handler) :
    Option (Sys C P L A) :=
  let x := s.core c
  let next (h : Handler) : Sys C P L A := s.setHandlers (s.on c) (h :: hs)
  match h.next with
  | .usertrap => some (if x.spp = true then s.fail .usertrap else s.fail .astray)
  | .locals =>
    some (next { h with next := .fromKernel, sepc := x.sepc, spp := x.spp, spie := x.spie,
                        sie := (s.k.cpu c).sie })
  | .fromKernel =>
    some (if h.spp = false then s.fail .notFromKernel else next { h with next := .intrGet })
  | .intrGet =>
    some (if (s.k.cpu c).sie = true then s.fail .interruptsEnabled
      else next { h with next := .devintr })
  | .devintr =>
    some (if x.scause = .external ∨ x.scause = .timer then next { h with next := .code }
      else s.fail .kerneltrap)
  | .code => none
  | .wSepc => some ((next { h with next := .wSstatus }).setCore c { x with sepc := h.sepc })
  | .wSstatus =>
    some { (next { h with next := .sret }).setCore c { x with spp := h.spp, spie := h.spie } with
      k := s.k.put c { s.k.cpu c with sie := h.sie } (s.k.cur c) }
  | .sret =>
    if x.spp = true ∧ x.spie = true then
      (Intr.step s.k (.sret c)).map fun k =>
        { s.setHandlers (s.on c) hs with k := k, returns := s.returns ++ [(h.came, x.sepc)] }
    else some (s.fail .sret)

/-- What the hardware writes when it takes a trap. -/
def Core.taken (x : Core) (cause : Cause) (pc : Word) (spp spie : Bool) : Core :=
  { x with user := false, sepc := pc, scause := cause, spp := spp, spie := spie }

/-- A handler that has no local variables yet. -/
def Handler.enter (v : Vec) (came : Word) : Handler where
  next := match v with
    | .kernelvec => .locals
    | .uservec => .usertrap
  sepc := 0
  spp := false
  spie := false
  sie := false
  came := came

/-- A trap from user mode. -/
def trapUser (s : Sys C P L A) (c : C) (cause : Cause) : Sys C P L A :=
  let x := s.core c
  let s' := { s.setCore c (x.taken cause x.pc false x.sie) with
    k := s.k.put c { s.k.cpu c with sie := false } (s.k.cur c) }
  match x.stvec, (s.k.cpu c).proc with
  | .uservec, some p => s'.goto p .uservec
  | v, _ => s'.setHandlers (s.on c) (Handler.enter v x.pc :: s.handlers (s.on c))

/-- An interrupt in the kernel at `pc`, which leaves `k`. -/
def trapKernel (s : Sys C P L A) (c : C) (cause : Cause) (pc : Word) (k : Intr.Kernel C P L) :
    Sys C P L A :=
  { (s.setCore c ((s.core c).taken cause pc true (s.k.cpu c).sie)).setHandlers (s.on c)
      (Handler.enter (s.core c).stvec pc :: s.handlers (s.on c)) with k := k }

/-- The hardware takes a trap. -/
def trap (s : Sys C P L A) (c : C) (cause : Cause) (pc : Word) : Option (Sys C P L A) :=
  if (s.core c).user = true then some (trapUser s c cause)
  else if cause = .external ∨ cause = .timer then
    (Intr.step s.k (.intr c)).map (trapKernel s c cause pc)
  else none

/-- What the C code does with interrupts, locks, states and threads. -/
def move (s : Sys C P L A) (c : C) (a : Move P L) : Option (Sys C P L A) :=
  let step (a : Intr.Act C P L) := (Intr.step s.k a).map fun k => { s with k := k }
  match a with
  | .step => step (.step c)
  | .dispatch p => step (.dispatch c p)
  -- these have statements or labels of their own
  | .call .intrOn | .call .intrOff | .call (.context _) => none
  | .call f => step (.call c f)

/-- The process on `c` and its C code. -/
def caller (s : Sys C P L A) (c : C) : Option (P × Kind) :=
  match s.handlers (s.on c), (s.k.cpu c).proc with
  | [], some p => match s.task p with
    | some (.code k) => some (p, k)
    | _ => none
  | _, _ => none

def Ctx.write (x : Ctx) : Write → Ctx
  | .a0 w => { x with reg := Function.update x.reg .a0 w }
  | .a1 w => { x with reg := Function.update x.reg .a1 w }
  | .sp w => { x with reg := Function.update x.reg .sp w }
  | .epc w => { x with pc := w }

def Write.off : Write → Word
  | .a0 _ => slot .a0
  | .a1 _ => slot .a1
  | .sp _ => slot .sp
  | .epc _ => Trap.epc

def Write.word : Write → Word
  | .a0 w | .a1 w | .sp w | .epc w => w

/-- `*(np->trapframe) = *(p->trapframe)` and `np->trapframe->a0 = 0`. -/
def copied (s : Sys C P L A) (p q : P) (a : A) : Word :=
  if a = s.tf q (slot .a0) then 0
  else match words.find? fun off => s.tf q off = a with
    | some off => s.mem (s.tf p off)
    | none => s.mem a

/-- One step of the machine. -/
def step (e : Env C P A) (s : Sys C P L A) : Act C P L A → Option (Sys C P L A)
  | .user c x =>
    match (s.core c).user, (s.k.cpu c).proc with
    | true, some p =>
      some { s.setCore c { s.core c with
          pc := x.pc, hart := { (s.core c).hart with reg := x.reg } } with
        want := Function.update s.want p x }
    | _, _ => none
  | .trap c cause pc => trap s c cause pc
  | .go c =>
    if (s.core c).user = true then none
    else
      match s.handlers (s.on c), (s.k.cpu c).proc with
      | h :: hs, _ => goHandler s c h hs
      | [], some p => (s.task p).bind (goTask e s c p)
      | [], none => none
  | .move c a => if s.inCode c = true then move s c a else none
  | .done c =>
    match s.handlers (s.on c), caller s c with
    | h :: hs, _ =>
      if h.next = .code then some (s.setHandlers (s.on c) ({ h with next := .wSepc } :: hs))
      else none
    | [], some (p, k) => some (s.goto p (if k = .early then .skip else .intrOff))
    | [], none => none
  | .work c reg spp spie =>
    if s.inCode c = true then
      some (s.setCore c { s.core c with
        hart := { (s.core c).hart with reg := Function.update reg .tp ((s.core c).hart.reg .tp) }
        spp := spp, spie := spie })
    else none
  | .write c w =>
    match caller s c with
    | some (p, .syscall) | some (p, .forkret) =>
      some { s.poke p w.off w.word with
        want := Function.update s.want p ((s.want p).write w) }
    | _ => none
  | .fork c q =>
    match caller s c with
    | some (p, .syscall) =>
      if s.task q = some (.code .forkret) then
        some { s with
          mem := copied s p q
          want := Function.update s.want q ((s.want p).write (.a0 0)) }
      else none
    | _ => none
  | .exec c satp =>
    match caller s c with
    | some (p, .syscall) | some (p, .forkret) =>
      some { s with satp := Function.update s.satp p satp }
    | _ => none
  | .alloc c q satp tf =>
    if s.inCode c = true then
      (Intr.step s.k (.call c (.context q))).map fun k =>
        { (s.goto q (.code .forkret)).setHandlers (.proc q) [] with
          k := k
          satp := Function.update s.satp q satp
          tf := Function.update s.tf q tf
          want := Function.update s.want q ⟨s.mem (tf epc), fun r => s.mem (tf (slot r))⟩ }
    else none
  | .free c q =>
    if s.inCode c = true ∧ (s.k.cur c).cur = .code .body then
      some { s with
        task := Function.update s.task q none
        handlers := Function.update s.handlers (.proc q) [] }
    else none
  | .memory look mem => some { s with look := look, mem := mem }

/-! ## What the rest of the kernel promises -/

/-- The trampoline is in every table, and every process has a trapframe of its own. -/
structure Tables (e : Env C P A) (s : Sys C P L A) : Prop where
  kernel : s.look e.kernel_pagetable .fetch TRAMPOLINE = some e.home
  user : ∀ p, s.task p ≠ none → UserTable s.look e.home (s.tf p) (s.satp p)
  words : ∀ p, s.task p ≠ none → Distinct (s.tf p)
  apart : ∀ p q, s.task p ≠ none → s.task q ≠ none → p ≠ q →
    ∀ o < 4096, ∀ o' < 4096, s.tf p o ≠ s.tf q o'

/-- The slot `q` is in the hands of the thread on `c`. -/
structure Held (s : Sys C P L A) (c : C) (q : P) : Prop where
  lock : s.k.lock (.proc q) = some c
  running : s.k.state q ≠ .RUNNING
  runnable : s.k.state q ≠ .RUNNABLE
  other : (s.k.cpu c).proc ≠ some q

def Promised (e : Env C P A) (s : Sys C P L A) : Act C P L A → Prop
  | .move c (.call f) => Intr.Matched s.k (.call c f) ∧
      ∀ q, f = .setState q .RUNNABLE → s.task q ≠ none
  -- C code has undone what it did
  | .done c => (s.k.cur c).cur = .code .body ∧ (s.k.cur c).depth = 0
  | .fork c q | .free c q => Held s c q
  | .alloc c q satp tf => Held s c q ∧ ∀ s', step e s (.alloc c q satp tf) = some s' → Tables e s'
  | .exec c satp => ∀ s', step e s (.exec c satp) = some s' → Tables e s'
  | .memory look mem => Tables e { s with look := look, mem := mem } ∧
      ∀ p, s.task p ≠ none → ∀ off < 4096, mem (s.tf p off) = s.mem (s.tf p off)
  | _ => True

/-- The trapframe of `p`, as its program will find it. -/
def saved (s : Sys C P L A) (p : P) : Ctx := ⟨s.mem (s.tf p epc), fun r => s.mem (s.tf p (slot r))⟩

/-- Every CPU enters `scheduler()`, on the kernel's page table; no process has run. -/
structure Init (e : Env C P A) (s : Sys C P L A) : Prop where
  k : Intr.Init s.k
  tables : Tables e s
  user : ∀ c, (s.core c).user = false
  stvec : ∀ c, (s.core c).stvec = .kernelvec
  satp : ∀ c, (s.core c).hart.csr .satp = e.kernel_pagetable
  stale : ∀ c, (s.core c).hart.stale = []
  tp : ∀ c, (s.core c).hart.reg .tp = e.hartid c
  task : ∀ p, s.task p = none ∨ s.task p = some (.code .forkret)
  free : ∀ p, s.task p = none → s.k.state p ≠ .RUNNING ∧ s.k.state p ≠ .RUNNABLE
  handlers : ∀ t, s.handlers t = []
  want : ∀ p, s.task p ≠ none → s.want p = saved s p
  returns : s.returns = []
  panic : s.panic = none

end Machine

end Xv6.Trap
