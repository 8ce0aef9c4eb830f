import Xv6.Pipe.Basic
import Mathlib.Data.Fintype.Basic

/-!
# `proc.h`: the process table

`struct proc` as the process code reads and writes it: the state, the fields
`p->lock` guards, `trapframe` and `pagetable` as "present or not", and the
priority of `PIPE_VERSION >= 6`. `parent` is guarded by `wait_lock` instead and
is kept apart from the record (see `Machine`); kernel stacks, contexts, open
files and the working directory are not fields here either.
-/

namespace Xv6

def NPROC : Nat := 64

instance : NeZero NPROC := ⟨by decide⟩

/-- A slot of `proc[NPROC]`. -/
abbrev Slot := Fin NPROC

/-- `enum procstate`. -/
inductive ProcState
  | UNUSED | USED | SLEEPING | RUNNABLE | RUNNING | ZOMBIE
  deriving DecidableEq, Repr

def PRIORITY_BASE : Int := 0
def PRIORITY_BOOST : Int := 10

/-- A sleep channel: the address of a process (as in `kwait`) or of anything
else. -/
inductive WaitChan
  | proc (q : Slot)
  | obj (a : Nat)
  deriving DecidableEq, Repr

structure Proc where
  state : ProcState
  chan : Option WaitChan
  killed : Bool
  xstate : Int
  pid : BitVec 32
  trapframe : Bool
  pagetable : Bool
  priority : Int
  deriving DecidableEq, Repr

/-- `#if PIPE_VERSION >= 6`: the versions with priorities. -/
def priorityBoost : Version → Bool
  | .v6 | .v7 | .v8 => true
  | _ => false

namespace Proc

/-- A slot nobody has used: static data is zero and `procinit` sets the
state. -/
def boot : Proc := ⟨.UNUSED, none, false, 0, 0, false, false, PRIORITY_BASE⟩

/-- The priority after `yield`, which from v6 on lets it decay. -/
def decay (v : Version) (priority : Int) : Int :=
  if priorityBoost v = true ∧ PRIORITY_BASE < priority then priority - 1 else priority

end Proc

end Xv6
