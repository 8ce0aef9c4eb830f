import Xv6.Proc.Basic

/-!
# `proc.c`, one lock operation or assignment at a time

Kernel code as the list of what it does next. A `Code` is one elementary step —
take or drop a spinlock, read or assign fields of a process, half of a `swtch` —
and what comes after it; the C functions are definitions that build such code in
front of a continuation, so that `sleep` below reads like `sleep` in `proc.c`.
Loops over the process table are recursions over the list of slots; the two
loops that go through `sleep` (`kwait`, and a critical section that waits for a
condition) come back by `jump`.

`read` sees the fields of one slot at once and `write` assigns to one of them;
the code does both only under that slot's lock, and nowhere else does the
difference show. What lies outside `proc.c` appears as `choose`: whether a page
or a page table can be had, whether `uvmcopy` or `copyout` succeed, and what
kernel code that uses `sleep` and `wakeup` does between taking and dropping its
own lock.

`note` is bookkeeping and does nothing.
-/

namespace Xv6.Proc

/-- The spinlocks: `p->lock` of a slot, `wait_lock`, and those of other kernel
data (`pi->lock`, `tickslock`, ..). -/
inductive Lock
  | proc (q : Slot)
  | wait
  | obj (n : Nat)
  deriving DecidableEq, Repr

/-- What a `choose` comes back with. -/
inductive Choice
  | no
  | yes
  | wake (ch : WaitChan)
  | wait (ch : WaitChan)

/-- Bookkeeping: process `p`, holding `l`, has found its condition false and
will sleep on `ch`; a `wakeup(ch)` made under `l` is complete; `kkill(pid)` has
marked slot `q` and will return 0. -/
inductive Event
  | tested (p : Slot) (ch : WaitChan) (l : Lock)
  | woken (ch : WaitChan) (l : Lock)
  | marked (pid : BitVec 32) (q : Slot)

/-- Where loops come back to. -/
inductive Loop
  | kwait (p : Slot)
  | crit (p : Slot) (n : Nat)

inductive Code
  /-- In user space, or in kernel code that holds nothing. -/
  | done
  /-- `panic("init exiting")`. -/
  | halt
  | panic
  | acquire (l : Lock) (k : Code)
  | release (l : Lock) (k : Code)
  | read (q : Slot) (k : Proc → Code)
  | write (q : Slot) (f : Proc → Proc) (k : Code)
  | readParent (q : Slot) (k : Option Slot → Code)
  | writeParent (q : Slot) (o : Option Slot) (k : Code)
  /-- `allocpid()`, a critical section of `pid_lock` of its own. -/
  | allocpid (k : BitVec 32 → Code)
  /-- `q->context` made to start at `forkret`. -/
  | context (q : Slot) (k : Code)
  /-- `c->proc = o`. -/
  | setProc (o : Option Slot) (k : Code)
  /-- The first three tests of `sched()`; the fourth, of `intr_get()`, is in `Xv6.Intr`. -/
  | checkSched (p : Slot) (k : Code)
  /-- `swtch`, first half: the registers go to the old context. -/
  | save (k : Code)
  /-- `swtch`, second half: the registers come from the context of process `o`,
  or of this CPU's scheduler; `k` is what the old context resumes with. -/
  | load (o : Option Slot) (k : Code)
  | choose (k : Choice → Code)
  | note (e : Event) (k : Code)
  | jump (l : Loop)

namespace Code

def slots : List Slot := List.finRange NPROC

def setState (q : Slot) (st : ProcState) : Code → Code := .write q fun r => { r with state := st }
def setChan (q : Slot) (ch : Option WaitChan) : Code → Code :=
  .write q fun r => { r with chan := ch }
def setKilled (q : Slot) (b : Bool) : Code → Code := .write q fun r => { r with killed := b }
def setXstate (q : Slot) (x : Int) : Code → Code := .write q fun r => { r with xstate := x }
def setPid (q : Slot) (pid : BitVec 32) : Code → Code := .write q fun r => { r with pid := pid }
def setTrapframe (q : Slot) (b : Bool) : Code → Code := .write q fun r => { r with trapframe := b }
def setPagetable (q : Slot) (b : Bool) : Code → Code := .write q fun r => { r with pagetable := b }
def setPriority (q : Slot) (x : Int) : Code → Code := .write q fun r => { r with priority := x }

/-- `sched()`. -/
def sched (p : Slot) (k : Code) : Code :=
  .checkSched p <| .save <| .load none k

/-- `yield()`. -/
def yield (v : Version) (p : Slot) (k : Code) : Code :=
  .acquire (.proc p) <|
  .write p (fun r => { r with priority := decay v r.priority }) <|
  setState p .RUNNABLE <|
  sched p <|
  .release (.proc p) k

/-- `forkret()`, up to the return to user space. -/
def forkret (p : Slot) : Code := .release (.proc p) .done

/-- `sleep(chan, lk)`. -/
def sleep (p : Slot) (ch : WaitChan) (lk : Lock) (k : Code) : Code :=
  .acquire (.proc p) <|
  .release lk <|
  setChan p (some ch) <|
  setState p .SLEEPING <|
  sched p <|
  setChan p none <|
  .release (.proc p) <|
  .acquire lk k

/-- The boost of `wakeup` in v6+. -/
def boost (v : Version) (q : Slot) (k : Code) : Code :=
  if priorityBoost v then setPriority q PRIORITY_BOOST k else k

/-- `wakeup(chan)` over the slots still to be looked at; `me` is `myproc()`. -/
def wakeup (v : Version) (me : Option Slot) (ch : Option WaitChan) : List Slot → Code → Code
  | [], k => k
  | q :: qs, k =>
    if some q = me then wakeup v me ch qs k
    else
      .acquire (.proc q) <| .read q fun r =>
        if r.state = .SLEEPING ∧ r.chan = ch then
          setState q .RUNNABLE <| boost v q <| .release (.proc q) <| wakeup v me ch qs k
        else .release (.proc q) <| wakeup v me ch qs k

/-- `kkill(pid)` over the slots still to be looked at. -/
def kkill (pid : BitVec 32) : List Slot → Code → Code
  | [], k => k
  | q :: qs, k =>
    .acquire (.proc q) <| .read q fun r =>
      if r.pid = pid then
        setKilled q true <| .read q fun r =>
          if r.state = .SLEEPING then
            setState q .RUNNABLE <| .note (.marked pid q) <| .release (.proc q) k
          else .note (.marked pid q) <| .release (.proc q) k
      else .release (.proc q) <| kkill pid qs k

/-- `setkilled(p)`. -/
def setkilled (p : Slot) (k : Code) : Code :=
  .acquire (.proc p) <| setKilled p true <| .release (.proc p) k

/-- `killed(p)`. -/
def killed (p : Slot) (k : Bool → Code) : Code :=
  .acquire (.proc p) <| .read p fun r => .release (.proc p) (k r.killed)

/-- `freeproc(p)`. -/
def freeproc (q : Slot) (k : Code) : Code :=
  setTrapframe q false <|
  setPagetable q false <|
  setPid q 0 <|
  .writeParent q none <|
  setChan q none <|
  setKilled q false <|
  setXstate q 0 <|
  setPriority q PRIORITY_BASE <|
  setState q .UNUSED k

/-- `allocproc()`, which comes back with the slot and its lock, or with
nothing. -/
def allocproc (k : Option Slot → Code) : List Slot → Code
  | [] => k none
  | q :: qs =>
    .acquire (.proc q) <| .read q fun r =>
      if r.state = .UNUSED then
        .allocpid fun pid =>
        setPid q pid <|
        setState q .USED <|
        setPriority q PRIORITY_BASE <|
        -- the trapframe page
        .choose fun a => match a with
          | .yes =>
            setTrapframe q true <|
            -- proc_pagetable
            .choose fun b => match b with
              | .yes => setPagetable q true <| .context q <| k (some q)
              | _ => setPagetable q false <| freeproc q <| .release (.proc q) <| k none
          | _ => setTrapframe q false <| freeproc q <| .release (.proc q) <| k none
      else .release (.proc q) <| allocproc k qs

/-- `kfork()`, less the copies that leave the process table alone. -/
def kfork (p : Slot) (k : Code) : Code :=
  allocproc (fun o => match o with
    | none => k
    | some np =>
      -- uvmcopy
      .choose fun a => match a with
        | .yes =>
          .release (.proc np) <|
          .acquire .wait <| .writeParent np (some p) <| .release .wait <|
          .acquire (.proc np) <| setState np .RUNNABLE <| .release (.proc np) k
        | _ => freeproc np <| .release (.proc np) k) slots

/-- `reparent(p)`, under `wait_lock`. -/
def reparent (v : Version) (initproc p : Slot) : List Slot → Code → Code
  | [], k => k
  | q :: qs, k =>
    .readParent q fun o =>
      if o = some p then
        .writeParent q (some initproc) <|
        wakeup v (some p) (some (.proc initproc)) slots <|
        .note (.woken (.proc initproc) .wait) <|
        reparent v initproc p qs k
      else reparent v initproc p qs k

/-- `wakeup(p->parent)` in `kexit`. -/
def wakeParent (v : Version) (p : Slot) (o : Option Slot) (k : Code) : Code :=
  match o with
  | some q => wakeup v (some p) (some (.proc q)) slots <| .note (.woken (.proc q) .wait) k
  | none => wakeup v (some p) none slots k

/-- `kexit(status)`, from where it takes `wait_lock`. -/
def kexit (v : Version) (initproc p : Slot) (status : Int) : Code :=
  if p = initproc then .halt
  else
    .acquire .wait <|
    reparent v initproc p slots <|
    .readParent p fun o => wakeParent v p o <|
    .acquire (.proc p) <|
    setXstate p status <|
    setState p .ZOMBIE <|
    .release .wait <|
    sched p .panic

/-- The body of the `for(;;)` of `kwait`, under `wait_lock`: the slots still to
be looked at, and `havekids`. -/
def kwaitScan (p : Slot) : Bool → List Slot → Code
  | havekids, [] =>
    if havekids then
      killed p fun b =>
        if b then .release .wait .done
        else
          .note (.tested p (.proc p) .wait) <|
          sleep p (.proc p) .wait <| .jump (.kwait p)
    else .release .wait .done
  | havekids, q :: qs =>
    .readParent q fun o =>
      if o = some p then
        .acquire (.proc q) <| .read q fun r =>
          if r.state = .ZOMBIE then
            -- copyout of the exit status, if asked for
            .choose fun a => match a with
              | .yes => freeproc q <| .release (.proc q) <| .release .wait .done
              | _ => .release (.proc q) <| .release .wait .done
          else .release (.proc q) <| kwaitScan p true qs
      else kwaitScan p havekids qs

/-- `kwait(addr)`. -/
def kwait (p : Slot) : Code := .acquire .wait <| .jump (.kwait p)

/-- Kernel code under a spinlock of its own, between taking and dropping it: it
may wake a channel, or find its condition false and sleep, as often as it
likes. -/
def critBody (v : Version) (p : Slot) (n : Nat) : Code :=
  .choose fun a => match a with
    | .wake ch =>
      wakeup v (some p) (some ch) slots <| .note (.woken ch (.obj n)) <| .jump (.crit p n)
    | .wait ch => .note (.tested p ch (.obj n)) <| sleep p ch (.obj n) <| .jump (.crit p n)
    | _ => .release (.obj n) .done

def crit (p : Slot) (n : Nat) : Code := .acquire (.obj n) <| .jump (.crit p n)

def loop (v : Version) : Loop → Code
  | .kwait p => kwaitScan p false slots
  | .crit p n => critBody v p n

/-- An interrupt handler that makes a condition true under its lock and wakes
the channel (`clockintr`, `uartintr`, ..). -/
def handler (v : Version) (me : Option Slot) (ch : WaitChan) (n : Nat) (k : Code) : Code :=
  .acquire (.obj n) <|
  wakeup v me (some ch) slots <|
  .note (.woken ch (.obj n)) <|
  .release (.obj n) k

/-- Phase 2 of `scheduler()` for the process phase 1 came up with, or the body
of the v1..v5 loop for one slot. -/
def scheduler (best : Slot) : Code :=
  .acquire (.proc best) <| .read best fun r =>
    if r.state = .RUNNABLE then
      setState best .RUNNING <|
      .setProc (some best) <|
      .save <| .load (some best) <|
      .setProc none <|
      .release (.proc best) .done
    else .release (.proc best) .done

end Code

end Xv6.Proc
