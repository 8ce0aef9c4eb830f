import Xv6.Lib.Run
import Xv6.Proc.Basic

/-!
# Interrupts, `noff` and `intena`

`spinlock.c` and the two halves of a switch in `proc.c`, for any number of CPUs,
processes and locks. A thread is a process's kernel thread or a CPU's scheduler; what a
process does between two calls is left to the label, and so is the order of its locks.

An interrupt comes whenever the CPU takes one (`sie`), also in the middle of
`push_off`, and runs on the stack of the thread it finds: `below` are the frames that
wait under the one that runs. A thread that yields in a handler comes back on any CPU,
so every statement of `push_off` before `intr_off` has taken effect is a step of its own.
From there to the matching `pop_off` nothing but a switch comes between two statements of
one CPU, which is why `pop_off` up to `intr_on`, and the tests of `sched`, are one step
each: where interrupts are on they panic.

The way to user space and back is `intrOff` and `intrOn`, as nothing else of it touches
these fields.

Three things are bookkeeping: `depth` counts the calls of `push_off` that a thread has not
undone (one it did not make itself: the scheduler's, when it first runs), `was` and `before`
remember whether interrupts were on at the call of the outermost, and `closed` lists what they
were when the `pop_off` that undid it returned.
-/

namespace Xv6.Intr

open Lib

/-- The spinlocks: `p->lock` of a process, and any others. -/
inductive Lock (P L : Type*)
  | proc (p : P)
  | other (l : L)
  deriving DecidableEq

/-- A process's kernel thread, or the scheduler of a CPU. -/
inductive Thread (C P : Type*)
  | proc (p : P)
  | sched (c : C)
  deriving DecidableEq

inductive Panic
  /-- `acquire`: the CPU holds the lock. -/
  | acquire
  | release
  /-- `pop_off - interruptible`. -/
  | popOffInterruptible
  | popOff
  /-- `sched p->lock`. -/
  | schedLock
  /-- `sched locks`. -/
  | schedLocks
  /-- `sched RUNNING`. -/
  | schedRunning
  /-- `sched interruptible`. -/
  | schedInterruptible
  deriving DecidableEq

/-- Where a thread is when it is in none of the functions below. -/
inductive Pc (P : Type*)
  /-- In a process's kernel code, or in an interrupt handler. -/
  | body
  /-- In `scheduler`, before `intr_on()`. -/
  | intrOn
  /-- Before `intr_off()`. -/
  | intrOff
  /-- Looking for a process. -/
  | pick
  /-- It has `p->lock`; before `if(p->state == RUNNABLE)`. -/
  | check (p : P)
  /-- Before `swtch(&c->context, &p->context)`. -/
  | swtch (p : P)
  /-- Before `release(&p->lock)`. -/
  | back (p : P)
  deriving DecidableEq

/-- The next statement of a thread. `ret` is where the function it is in returns to. -/
inductive At (P L : Type*)
  | code (pc : Pc P)
  /-- `push_off`, called by `acquire(l)` if there is an `l`: before `old = intr_get()`. -/
  | getOld (w : Option (Lock P L)) (was : Bool) (ret : Pc P)
  /-- Before `intr_off()`. -/
  | turnOff (w : Option (Lock P L)) (old was : Bool) (ret : Pc P)
  /-- Before `if(mycpu()->noff == 0)`. -/
  | count (w : Option (Lock P L)) (old was : Bool) (ret : Pc P)
  /-- `acquire`: before `if(holding(lk))`. -/
  | test (l : Lock P L) (ret : Pc P)
  /-- The loop on `__sync_lock_test_and_set`. -/
  | spin (l : Lock P L) (ret : Pc P)
  /-- At the beginning of `pop_off`. -/
  | popOff (ret : Pc P)
  /-- Before its `intr_on()`. -/
  | turnOn (was : Option Bool) (ret : Pc P)
  /-- At its end. -/
  | popped (was : Option Bool) (ret : Pc P)
  /-- `sched`: before `swtch(&p->context, &mycpu()->context)`. -/
  | leaving (intena : Bool)
  /-- Before `mycpu()->intena = intena`. -/
  | restore (intena : Bool)
  | panic (e : Panic)
  deriving DecidableEq

/-- `struct cpu`, the interrupt enable bit of its `sstatus`, and the process whose kernel thread
it is executing; none: its scheduler. -/
structure Cpu (P : Type*) where
  noff : Nat
  intena : Bool
  sie : Bool
  proc : Option P

structure Stack (P L : Type*) where
  cur : At P L
  below : List (At P L)
  depth : Nat
  before : Option Bool

/-- An outermost `push_off` that has been undone: whether interrupts were on before it,
and whether they are when `pop_off` returns. -/
structure Closed (P : Type*) where
  proc : P
  before : Bool
  after : Bool
  deriving DecidableEq

structure Kernel (C P L : Type*) where
  cpu : C → Cpu P
  /-- `lk->cpu` of a lock that is locked. -/
  lock : Lock P L → Option C
  state : P → ProcState
  stack : Thread C P → Stack P L
  closed : List (Closed P)

variable {C P L : Type*}

def Stack.goto (t : Stack P L) (f : At P L) : Stack P L := { t with cur := f }

/-- The statements that touch one CPU and the thread it is executing. -/
def Stack.advance (x : Cpu P) (t : Stack P L) : Option (Cpu P × Stack P L) :=
  match t.cur with
  | .getOld w was ret => some (x, t.goto (.turnOff w x.sie was ret))
  | .turnOff w old was ret => some ({ x with sie := false }, t.goto (.count w old was ret))
  | .count w old was ret =>
    some ({ x with intena := if x.noff = 0 then old else x.intena, noff := x.noff + 1 },
      { t with
        cur := match w with
          | some l => .test l ret
          | none => .code ret
        depth := t.depth + 1
        before := if t.depth = 0 then some was else t.before })
  | .popOff ret =>
    if x.sie = true then some (x, t.goto (.panic .popOffInterruptible))
    else if x.noff < 1 then some (x, t.goto (.panic .popOff))
    else
      let was := if t.depth = 1 then t.before else none
      some ({ x with noff := x.noff - 1 },
        { t with
          cur := if x.noff - 1 = 0 ∧ x.intena = true then .turnOn was ret else .popped was ret
          depth := t.depth - 1 })
  | .turnOn was ret => some ({ x with sie := true }, t.goto (.popped was ret))
  | .restore intena => some ({ x with intena := intena }, t.goto (.code .body))
  | .code .intrOn => some ({ x with sie := true }, t.goto (.code .intrOff))
  | .code .intrOff => some ({ x with sie := false }, t.goto (.code .pick))
  | .code .pick => some (x, t.goto (.code .intrOn))
  | _ => none

namespace Kernel

variable [DecidableEq C] [DecidableEq P] [DecidableEq L]

/-- The thread that `c` is executing. -/
def on (s : Kernel C P L) (c : C) : Thread C P :=
  match (s.cpu c).proc with
  | some p => .proc p
  | none => .sched c

def cur (s : Kernel C P L) (c : C) : Stack P L := s.stack (s.on c)

/-- The CPU `c` and the thread on it have changed. -/
def put (s : Kernel C P L) (c : C) (x : Cpu P) (t : Stack P L) : Kernel C P L :=
  { s with
    cpu := Function.update s.cpu c x
    stack := fun th => if th = s.on c then t else s.stack th }

def goto (s : Kernel C P L) (c : C) (f : At P L) : Kernel C P L :=
  s.put c (s.cpu c) ((s.cur c).goto f)

/-- `release(lk)` up to `pop_off`. -/
def release (s : Kernel C P L) (c : C) (l : Lock P L) (ret : Pc P) : Kernel C P L :=
  if s.lock l = some c then { s.goto c (.popOff ret) with lock := Function.update s.lock l none }
  else s.goto c (.panic .release)

/-- `sched()` up to `swtch`. -/
def sched (s : Kernel C P L) (c : C) (p : P) : Kernel C P L :=
  if s.lock (.proc p) ≠ some c then s.goto c (.panic .schedLock)
  else if (s.cpu c).noff ≠ 1 then s.goto c (.panic .schedLocks)
  else if s.state p = .RUNNING then s.goto c (.panic .schedRunning)
  else if (s.cpu c).sie = true then s.goto c (.panic .schedInterruptible)
  else s.goto c (.leaving (s.cpu c).intena)

/-- `swtch` from a process to the scheduler of `c`. The scheduler does not restore
`intena`, so what it may expect there is forgotten. -/
def swtchOut (s : Kernel C P L) (c : C) (intena : Bool) : Kernel C P L :=
  let s' := s.goto c (.restore intena)
  { s' with
    cpu := Function.update s'.cpu c { s'.cpu c with proc := none }
    stack := Function.update s'.stack (.sched c) { s'.stack (.sched c) with before := none } }

/-- `swtch` from the scheduler of `c` to `p`. -/
def swtchIn (s : Kernel C P L) (c : C) (p : P) : Kernel C P L :=
  let s' := s.goto c (.code (.back p))
  { s' with cpu := Function.update s'.cpu c { s'.cpu c with proc := some p } }

/-- The statements of `scheduler` under `p->lock`. -/
def scheduler (s : Kernel C P L) (c : C) : Pc P → Option (Kernel C P L)
  | .check p =>
    if s.state p = .RUNNABLE then
      some { s.goto c (.code (.swtch p)) with state := Function.update s.state p .RUNNING }
    else some (s.goto c (.code (.back p)))
  | .swtch p => some (s.swtchIn c p)
  | .back p => some (s.release c (.proc p) .pick)
  | _ => none

/-- `pop_off` returns. -/
def returned (s : Kernel C P L) (c : C) (was : Option Bool) (ret : Pc P) : Kernel C P L :=
  { s.goto c (.code ret) with
    closed := s.closed ++ match (s.cpu c).proc, was with
      | some p, some b => [⟨p, b, (s.cpu c).sie⟩]
      | _, _ => [] }

/-- One statement of the thread on `c`. -/
def exec1 (s : Kernel C P L) (c : C) : Option (Kernel C P L) :=
  match (s.cur c).cur with
  | .test l ret =>
    some (s.goto c (if s.lock l = some c then .panic .acquire else .spin l ret))
  | .spin l ret =>
    if s.lock l = none then
      some { s.goto c (.code ret) with lock := Function.update s.lock l (some c) }
    else none
  | .popped was ret => some (s.returned c was ret)
  | .leaving intena => (s.cpu c).proc.map fun _ => s.swtchOut c intena
  | .code pc =>
    match (s.cpu c).proc, s.scheduler c pc with
    | none, some s' => some s'
    | _, _ => ((s.cur c).advance (s.cpu c)).map fun y => s.put c y.1 y.2
  | _ => ((s.cur c).advance (s.cpu c)).map fun y => s.put c y.1 y.2

end Kernel

/-- What kernel code does with interrupts, locks and states. -/
inductive Call (P L : Type*)
  | acquire (l : Lock P L)
  | release (l : Lock P L)
  | pushOff
  | popOff
  | intrOn
  | intrOff
  | setState (q : P) (st : ProcState)
  /-- `q->context` is made to start at `forkret`. -/
  | context (q : P)
  | sched

inductive Act (C P L : Type*)
  /-- The thread on `c` goes on. -/
  | step (c : C)
  | call (c : C) (f : Call P L)
  /-- The scheduler of `c` takes `p->lock`. -/
  | dispatch (c : C) (p : P)
  | intr (c : C)
  /-- A handler returns. -/
  | sret (c : C)

variable [DecidableEq C] [DecidableEq P] [DecidableEq L]

/-- A thread that has not run: it begins in `forkret`, under the `p->lock` that the scheduler
has taken. -/
def Stack.forkret : Stack P L := ⟨.code .body, [], 1, none⟩

def Kernel.call (s : Kernel C P L) (c : C) : Call P L → Option (Kernel C P L)
  | .acquire l => some (s.goto c (.getOld (some l) (s.cpu c).sie .body))
  | .release l => some (s.release c l .body)
  | .pushOff => some (s.goto c (.getOld none (s.cpu c).sie .body))
  | .popOff => some (s.goto c (.popOff .body))
  | .intrOn => some (s.put c { s.cpu c with sie := true } (s.cur c))
  | .intrOff => some (s.put c { s.cpu c with sie := false } (s.cur c))
  | .setState q st => some { s with state := Function.update s.state q st }
  | .context q => some { s with stack := Function.update s.stack (.proc q) Stack.forkret }
  | .sched => (s.cpu c).proc.map (s.sched c)

/-- One step of the machine. -/
def step (s : Kernel C P L) : Act C P L → Option (Kernel C P L)
  | .step c => s.exec1 c
  | .call c f => if (s.cur c).cur = .code .body then s.call c f else none
  | .dispatch c p =>
    if (s.cpu c).proc = none ∧ (s.cur c).cur = .code .pick then
      some (s.goto c (.getOld (some (.proc p)) (s.cpu c).sie (.check p)))
    else none
  | .intr c =>
    if (s.cpu c).sie = true then
      some (s.put c { s.cpu c with sie := false }
        { s.cur c with cur := .code .body, below := (s.cur c).cur :: (s.cur c).below })
    else none
  | .sret c =>
    match (s.cur c).cur, (s.cur c).below with
    | .code .body, f :: below =>
      some (s.put c { s.cpu c with sie := true } { s.cur c with cur := f, below := below })
    | _, _ => none

/-- What the callers promise. -/
def Matched (s : Kernel C P L) : Act C P L → Prop
  -- a `pop_off` undoes a `push_off`, and a process that has left RUNNING keeps its own
  -- `p->lock` until it is in the scheduler
  | .call c (.release l) => 0 < (s.cur c).depth ∧
      ∀ p, (s.cpu c).proc = some p → l = .proc p → s.state p = .RUNNING
  | .call c .popOff => 0 < (s.cur c).depth
  -- `usertrap` and `prepare_return` hold no lock and are not called by a handler
  | .call c .intrOn | .call c .intrOff => (s.cur c).depth = 0 ∧ (s.cur c).below = []
  -- "p->lock must be held"; only the scheduler makes a process RUNNING, and only the
  -- process itself ends that
  | .call c (.setState q st) => s.lock (.proc q) = some c ∧ st ≠ .RUNNING ∧
      ((s.cpu c).proc ≠ some q → s.state q ≠ .RUNNING)
  | .call c (.context q) => s.lock (.proc q) = some c ∧ s.state q ≠ .RUNNING ∧
      (s.cpu c).proc ≠ some q
  -- a handler has undone what it did
  | .sret c => (s.cur c).depth = 0
  | _ => True

/-- Every CPU enters `scheduler()`; no process has run. -/
structure Init (s : Kernel C P L) : Prop where
  noff : ∀ c, (s.cpu c).noff = 0
  sie : ∀ c, (s.cpu c).sie = false
  proc : ∀ c, (s.cpu c).proc = none
  lock : ∀ l, s.lock l = none
  sched : ∀ c, s.stack (.sched c) = ⟨.code .intrOn, [], 0, none⟩
  start : ∀ p, s.stack (.proc p) = Stack.forkret
  closed : s.closed = []

end Xv6.Intr
