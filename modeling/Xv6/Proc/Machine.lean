import Xv6.Lib.Run
import Xv6.Proc.Code

/-!
# Processes on many CPUs

The kernel as a machine: the process table, the spinlocks, and for every CPU
whose stack it is executing on. A thread is a process's kernel thread or a CPU's
scheduler; `code t` is what it does next, or resumes with once it is switched
to. A label picks a CPU, and that CPU makes one elementary step of the thread it
is on — so two CPUs interleave between any two assignments.

The scheduler's phase 1 reads the table without locks. The label `dispatch`
names the slot it came up with, which may be any slot at all: nothing the scan
read need still be true, or ever have been true at one moment.

A CPU that holds no spinlock (`noff = 0`) can be interrupted: by the timer,
which makes a process yield wherever it is, or by a device whose handler wakes a
channel.

`saved q` says that `q->context` holds all that is needed to resume `q`. `test`,
`missed`, `handed` and `kills` are bookkeeping: the last condition a process
tested and whether a `wakeup` for it was completed since; the record
`allocproc` returned each slot with; and the record of the slot each successful
`kkill` marked.
-/

namespace Xv6.Proc

open Lib

/-- A process's kernel thread, or the scheduler of a CPU. -/
inductive Thread (C : Type*)
  | proc (p : Slot)
  | sched (c : C)
  deriving DecidableEq

structure Kernel (C : Type*) where
  proc : Slot → Proc
  parent : Slot → Option Slot
  lock : Lock → Option C
  noff : C → Nat
  cproc : C → Option Slot
  exec : C → Option Slot
  code : Thread C → Code
  saved : Slot → Bool
  nextpid : BitVec 32
  test : Slot → Option (WaitChan × Lock)
  missed : Slot → Bool
  handed : List (Slot × Proc)
  kills : List (BitVec 32 × Slot × Proc)

/-- What a process asks the kernel for. -/
inductive Call
  | crit (n : Nat)
  | kfork
  | kexit (status : Int)
  | kwait
  | kkill (pid : BitVec 32)
  | setkilled

/-- An interrupt: the timer, or a device that wakes `ch` under a lock. -/
inductive Intr
  | timer
  | device (ch : WaitChan) (n : Nat)

inductive Act (C : Type*)
  | step (c : C) (a : Choice)
  | dispatch (c : C) (best : Slot)
  | call (c : C) (f : Call)
  | intr (c : C) (i : Intr)

variable {C : Type*} [DecidableEq C]

/-- The fixed part of a kernel: `PIPE_VERSION` and `initproc`. -/
structure Config where
  v : Version
  initproc : Slot

def Call.code (cfg : Config) (p : Slot) : Call → Code
  | .crit n => .crit p n
  | .kfork => .kfork p .done
  | .kexit status => .kexit cfg.v cfg.initproc p status
  | .kwait => .kwait p
  | .kkill pid => .kkill pid Code.slots .done
  | .setkilled => .setkilled p .done

namespace Kernel

/-- The thread CPU `c` is executing. -/
def thread (s : Kernel C) (c : C) : Thread C :=
  match s.exec c with
  | some p => .proc p
  | none => .sched c

def cur (s : Kernel C) (c : C) : Code := s.code (s.thread c)

/-- The thread on `c` goes on with `k`. -/
def goOn (s : Kernel C) (c : C) (k : Code) : Kernel C :=
  { s with code := Function.update s.code (s.thread c) k }

/-- `acquire(l)`: spins while another CPU has the lock. -/
def acquire (s : Kernel C) (c : C) (l : Lock) (k : Code) : Option (Kernel C) :=
  match s.lock l with
  | none => some { s.goOn c k with
      lock := Function.update s.lock l (some c)
      noff := Function.update s.noff c (s.noff c + 1) }
  | some c' => if c' = c then some (s.goOn c .panic) else none

/-- `release(l)`. -/
def release (s : Kernel C) (c : C) (l : Lock) (k : Code) : Kernel C :=
  if s.lock l = some c then { s.goOn c k with
    lock := Function.update s.lock l none
    noff := Function.update s.noff c (s.noff c - 1) }
  else s.goOn c .panic

/-- The bookkeeping of an event. -/
def note (s : Kernel C) : Event → Kernel C
  | .tested p ch l => { s with
      test := Function.update s.test p (some (ch, l))
      missed := Function.update s.missed p false }
  | .woken ch l => { s with missed := fun p => s.missed p || s.test p == some (ch, l) }
  | .marked pid q => { s with kills := s.kills ++ [(pid, q, s.proc q)] }

/-- One elementary step of the thread on `c`. -/
def exec1 (cfg : Config) (s : Kernel C) (c : C) (a : Choice) : Option (Kernel C) :=
  match s.cur c with
  | .done | .halt | .panic => none
  | .acquire l k => s.acquire c l k
  | .release l k => some (s.release c l k)
  | .read q k => some (s.goOn c (k (s.proc q)))
  | .write q f k => some { s.goOn c k with proc := Function.update s.proc q (f (s.proc q)) }
  | .readParent q k => some (s.goOn c (k (s.parent q)))
  | .writeParent q o k => some { s.goOn c k with parent := Function.update s.parent q o }
  | .allocpid k => some { s.goOn c (k s.nextpid) with nextpid := s.nextpid + 1 }
  | .context q k =>
    let s' := s.goOn c k
    some { s' with
      code := Function.update s'.code (.proc q) (Code.forkret q)
      saved := Function.update s.saved q true
      handed := s.handed ++ [(q, s.proc q)] }
  | .setProc o k => some { s.goOn c k with cproc := Function.update s.cproc c o }
  | .checkSched p k =>
    some (s.goOn c (if s.lock (.proc p) = some c ∧ s.noff c = 1 ∧ (s.proc p).state ≠ .RUNNING
      then k else .panic))
  | .save k =>
    match s.exec c with
    | some p => some { s.goOn c k with saved := Function.update s.saved p true }
    | none => some (s.goOn c k)
  | .load o k =>
    match o with
    | some q => some { s.goOn c k with
        exec := Function.update s.exec c (some q)
        saved := Function.update s.saved q false }
    | none => some { s.goOn c k with exec := Function.update s.exec c none }
  | .choose k => some (s.goOn c (k a))
  | .note e k => some ((s.goOn c k).note e)
  | .jump l => some (s.goOn c (Code.loop cfg.v l))

end Kernel

/-- One step of the machine. -/
def step (cfg : Config) (s : Kernel C) : Act C → Option (Kernel C)
  | .step c a => s.exec1 cfg c a
  | .dispatch c best =>
    match s.exec c, s.code (.sched c) with
    | none, .done => some (s.goOn c (Code.scheduler best))
    | _, _ => none
  | .call c f =>
    match s.exec c with
    | some p =>
      match s.code (.proc p) with
      | .done => some (s.goOn c (f.code cfg p))
      | _ => none
    | none => none
  | .intr c i =>
    if s.noff c = 0 then
      match s.exec c, i with
      | some p, .timer => some (s.goOn c (Code.yield cfg.v p (s.code (.proc p))))
      | some p, .device ch n =>
        some (s.goOn c (Code.handler cfg.v (some p) ch n (s.code (.proc p))))
      | none, .device ch n =>
        match s.code (.sched c) with
        | .done => some (s.goOn c (Code.handler cfg.v none ch n .done))
        | _ => none
      | none, .timer => none
    else none

/-- After boot: `userinit` has made `initproc` RUNNABLE, every other slot is as
`procinit` left it, and every CPU enters `scheduler()`. -/
structure Init (cfg : Config) (s : Kernel C) : Prop where
  init : s.proc cfg.initproc =
    { Proc.boot with state := .RUNNABLE, pid := 1, trapframe := true, pagetable := true }
  other : ∀ q, q ≠ cfg.initproc → s.proc q = Proc.boot
  parent : ∀ q, s.parent q = none
  lock : ∀ l, s.lock l = none
  noff : ∀ c, s.noff c = 0
  cproc : ∀ c, s.cproc c = none
  exec : ∀ c, s.exec c = none
  sched : ∀ c, s.code (.sched c) = .done
  start : s.code (.proc cfg.initproc) = Code.forkret cfg.initproc
  saved : s.saved cfg.initproc = true
  nextpid : s.nextpid = 2
  handed : s.handed = []
  kills : s.kills = []

/-- The machine after boot, slot `0` being `initproc`. -/
def Kernel.boot (C : Type*) : Kernel C where
  proc := fun q => if q = 0 then
    { Proc.boot with state := .RUNNABLE, pid := 1, trapframe := true, pagetable := true }
    else Proc.boot
  parent := fun _ => none
  lock := fun _ => none
  noff := fun _ => 0
  cproc := fun _ => none
  exec := fun _ => none
  code := fun t => match t with
    | .proc p => Code.forkret p
    | .sched _ => .done
  saved := fun q => q == 0
  nextpid := 2
  test := fun _ => none
  missed := fun _ => false
  handed := []
  kills := []

/-- The CPUs of a machine that has two. -/
def hart0 : Fin 2 := 0
def hart1 : Fin 2 := 1

omit [DecidableEq C] in
theorem boot_init (v : Version) : Init ⟨v, 0⟩ (Kernel.boot C) :=
  ⟨rfl, fun _ hq => if_neg hq, fun _ => rfl, fun _ => rfl, fun _ => rfl, fun _ => rfl,
    fun _ => rfl, fun _ => rfl, rfl, rfl, rfl, rfl, rfl⟩

end Xv6.Proc
