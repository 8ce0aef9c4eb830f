import Xv6.Lib.Ring
import Xv6.Lib.Run
import Mathlib.Data.BitVec

/-!
# `console.c`: typing and reading

`consoleintr` edits a line at the end of a ring of characters, `consoleread` takes
characters from its front; both under `cons.lock`, in any interleaving. The ring
has three indices: between `r` and `w` lie the characters readers may have,
between `w` and `e` the line being edited.

`consoleintr` holds the lock from beginning to end, so it is one step.
`consoleread` gives it up in `sleep`, and `kkill` may strike between any two of
its steps; its places are those of its two loops. `either_copyout` may fail, which
the label chooses.

The last fields of `Cons` and `Sys` are bookkeeping and steer nothing. A character
that is stored gets a number, its position in `accepted`; `line`, `committed` and
`erased` say where the numbers are, `taken` how many of the committed ones `r` has
passed. `delivered` collects the bytes copied out, `rets` the length asked for and
the result of every `consoleread` that returned.
-/

namespace Xv6.Console

open Lib

def INPUT_BUF_SIZE : Nat := 128

/-- `C(x)`, Control-x. -/
def C (x : Char) : UInt8 := UInt8.ofNat (x.toNat - '@'.toNat)

def newline : UInt8 := 10
def carriageReturn : UInt8 := 13
def delete : UInt8 := 0x7f

/-- `cons`, less its lock, and what `consputc` sent to the UART. -/
structure Cons where
  buf : Nat → UInt8
  r : BitVec 32
  w : BitVec 32
  e : BitVec 32
  tx : List UInt8
  accepted : List UInt8
  line : List Nat
  committed : List Nat
  erased : List Nat
  taken : Nat

/-- `x % INPUT_BUF_SIZE`. -/
def slot (x : BitVec 32) : Nat := (x % BitVec.ofNat 32 INPUT_BUF_SIZE).toNat

namespace Cons

/-- `consputc(c)`. -/
def consputc (s : Cons) (c : UInt8) : Cons := { s with tx := s.tx ++ [c] }

/-- `consputc(BACKSPACE)`. -/
def consputcBackspace (s : Cons) : Cons := { s with tx := s.tx ++ [8, 32, 8] }

/-- `cons.e--; consputc(BACKSPACE);` -/
def erase (s : Cons) : Cons :=
  { s.consputcBackspace with
    e := s.e - 1
    line := s.line.dropLast
    erased := s.erased ++ s.line.getLast?.toList }

/-- `cons.buf[cons.e++ % INPUT_BUF_SIZE] = c;` -/
def store (s : Cons) (c : UInt8) : Cons :=
  { s with
    buf := Function.update s.buf (slot s.e) c
    e := s.e + 1
    accepted := s.accepted ++ [c]
    line := s.line ++ [s.accepted.length] }

/-- `cons.w = cons.e;` -/
def commit (s : Cons) : Cons :=
  { s with
    w := s.e
    committed := s.committed ++ s.line
    line := [] }

/-- The loop of control-u. -/
def killLoop : Nat → Cons → Cons
  | 0, s => s
  | fuel + 1, s =>
    if s.e ≠ s.w ∧ s.buf (slot (s.e - 1)) ≠ newline then killLoop fuel s.erase else s

/-- Control-u; the loop goes around at most `cons.e - cons.w` times. -/
def killLine (s : Cons) : Cons := killLoop (s.e - s.w).toNat s

/-- `cons.r++` -/
def take (s : Cons) : Cons := { s with r := s.r + 1, taken := s.taken + 1 }

/-- `cons.r--` -/
def untake (s : Cons) : Cons := { s with r := s.r - 1, taken := s.taken - 1 }

end Cons

/-- Locals of `consoleread`: `n` counts down, `target` keeps its first value. -/
structure Frame where
  n : BitVec 32
  target : BitVec 32

/-- Places in `consoleread`: before `acquire`; at `while(n > 0)`; at
`while(cons.r == cons.w)`; at `killed(myproc())`; about to `sleep`; asleep; made
runnable. -/
inductive Pc
  | enter | top | wait | killed | sleep | asleep | woken
  deriving DecidableEq, Repr

inductive Ctl
  | user
  | read (pc : Pc) (f : Frame)

structure Sys (P : Type*) where
  cons : Cons
  lock : Option P
  ctl : P → Ctl
  killed : P → Bool
  delivered : List UInt8
  rets : List (Int × Int)

/-- Labels: a character comes in, a process calls `consoleread`, is killed, takes
the lock, or runs its next statement with the outcome of its `either_copyout`. -/
inductive Act (P : Type*)
  | intr (c : UInt8)
  | read (p : P) (n : BitVec 32)
  | kill (p : P)
  | acquire (p : P)
  | run (p : P) (copied : Bool)

/-- SLEEPING on `&cons.r` becomes RUNNABLE. -/
def Ctl.wake : Ctl → Ctl
  | .read .asleep f => .read .woken f
  | c => c

variable {P : Type*} [DecidableEq P]

namespace Sys

/-- `wakeup(&cons.r)`. -/
def wakeup (s : Sys P) : Sys P := { s with ctl := fun p => (s.ctl p).wake }

def goto (s : Sys P) (p : P) (pc : Pc) (f : Frame) : Sys P :=
  { s with ctl := Function.update s.ctl p (.read pc f) }

/-- `release(&cons.lock); return v;` -/
def ret (s : Sys P) (p : P) (f : Frame) (v : Int) : Sys P :=
  { s with
    lock := none
    ctl := Function.update s.ctl p .user
    rets := s.rets ++ [(f.target.toInt, v)] }

/-- `consoleintr(c)`. `procdump` prints and leaves `cons` alone. -/
def consoleintr (s : Sys P) (c : UInt8) : Sys P :=
  if c = C 'P' then s
  else if c = C 'U' then { s with cons := s.cons.killLine }
  else if c = C 'H' ∨ c = delete then
    if s.cons.e ≠ s.cons.w then { s with cons := s.cons.erase } else s
  else if c ≠ 0 ∧ s.cons.e - s.cons.r < BitVec.ofNat 32 INPUT_BUF_SIZE then
    let c := if c = carriageReturn then newline else c
    let cons := (s.cons.consputc c).store c
    if c = newline ∨ c = C 'D' ∨ cons.e - cons.r = BitVec.ofNat 32 INPUT_BUF_SIZE then
      wakeup { s with cons := cons.commit }
    else { s with cons := cons }
  else s

/-- The body of `consoleread`'s loop, with a character there. -/
def consume (s : Sys P) (p : P) (f : Frame) (copied : Bool) : Sys P :=
  let c := s.cons.buf (slot s.cons.r)
  if c = C 'D' then
    -- save ^D for next time if there is something to return
    { s with cons := if f.n < f.target then s.cons.take.untake else s.cons.take }.ret p f
      (f.target - f.n).toInt
  else if copied then
    let f' := { f with n := f.n - 1 }
    let s' := { s with cons := s.cons.take, delivered := s.delivered ++ [c] }
    if c = newline then s'.ret p f' (f'.target - f'.n).toInt else s'.goto p .top f'
  else { s with cons := s.cons.take }.ret p f (f.target - f.n).toInt

/-- The next statement of the holder of the lock. -/
def run (s : Sys P) (p : P) (copied : Bool) : Option (Sys P) :=
  match s.ctl p with
  | .read .top f =>
    if 0 < f.n.toInt then some (s.goto p .wait f) else some (s.ret p f (f.target - f.n).toInt)
  | .read .wait f =>
    if s.cons.r = s.cons.w then some (s.goto p .killed f) else some (s.consume p f copied)
  | .read .killed f => if s.killed p then some (s.ret p f (-1)) else some (s.goto p .sleep f)
  | .read .sleep f => some ({ s with lock := none }.goto p .asleep f)
  | _ => none

end Sys

/-- One step. -/
def step (s : Sys P) : Act P → Option (Sys P)
  | .intr c => if s.lock = none then some (s.consoleintr c) else none
  | .read p n =>
    match s.ctl p with
    | .user => some (s.goto p .enter ⟨n, n⟩)
    | _ => none
  | .kill p => some { s with
      killed := Function.update s.killed p true
      ctl := Function.update s.ctl p (s.ctl p).wake }
  | .acquire p =>
    if s.lock = none then
      match s.ctl p with
      | .read .enter f => some ({ s with lock := some p }.goto p .top f)
      | .read .woken f => some ({ s with lock := some p }.goto p .wait f)
      | _ => none
    else none
  | .run p copied => if s.lock = some p then s.run p copied else none

/-- `consoleinit`: `cons` is zeroed. -/
structure Init (s : Sys P) : Prop where
  r : s.cons.r = 0
  w : s.cons.w = 0
  e : s.cons.e = 0
  accepted : s.cons.accepted = []
  line : s.cons.line = []
  committed : s.cons.committed = []
  erased : s.cons.erased = []
  taken : s.cons.taken = 0
  ctl : ∀ p, s.ctl p = .user
  delivered : s.delivered = []
  rets : s.rets = []

/-- Every `either_copyout` of the run succeeds. -/
def Copies (_ : Sys P) : Act P → Prop
  | .run _ copied => copied = true
  | _ => True

instance (s : Sys P) : (a : Act P) → Decidable (Copies s a)
  | .run _ copied => inferInstanceAs (Decidable (copied = true))
  | .intr _ | .read _ _ | .kill _ | .acquire _ => isTrue trivial

end Xv6.Console
