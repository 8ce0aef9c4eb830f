import Xv6.Lib.Dlist
import Xv6.Log.Machine
import Mathlib.Data.BitVec

/-!
# `bio.c` with its pointers

The buffer cache as its list really is: every buffer and the sentinel
`bcache.head` have a `next` and a `prev`, and `binit`, `bget` and `brelse` read
and assign them one at a time. `Log.Machine` speaks of a list of buffers
instead; `Bio.Order` proves that this list is there.

Any processes call `bread`, `brelse`, `bpin` and `bunpin` on blocks of `ROOTDEV`,
in any interleaving. What `bcache.lock` makes atomic is one step; `acquiresleep`
is a step that is not enabled while somebody holds the buffer, and the read from
disk is a step of its own. A `brelse` needs the lock, as its `holdingsleep`
demands, and a `bunpin` an earlier `bpin`; a `bpin` needs nothing.

`clock`, `freed` and `pins` are bookkeeping: when a `brelse` last brought the
count of a buffer to zero, and how many pins are out.
-/

namespace Xv6.Bio

open Lib
open Log (NBUF BufId ROOTDEV)

/-- `&bcache.buf[i]`, or `&bcache.head`. -/
abbrev Node := Option BufId

abbrev head : Node := none

/-- The `next` and `prev` fields. -/
structure Links where
  next : Node → Node
  prev : Node → Node

namespace Links

def setNext (l : Links) (b v : Node) : Links := { l with next := Function.update l.next b v }

def setPrev (l : Links) (b v : Node) : Links := { l with prev := Function.update l.prev b v }

/-- `b->next->prev = b->prev; b->prev->next = b->next;` -/
def unlink (l : Links) (b : Node) : Links :=
  let l := l.setPrev (l.next b) (l.prev b)
  l.setNext (l.prev b) (l.next b)

/-- `b->next = bcache.head.next; b->prev = &bcache.head; bcache.head.next->prev = b;
bcache.head.next = b;` -/
def pushFront (l : Links) (b : Node) : Links :=
  let l := l.setNext b (l.next head)
  let l := l.setPrev b head
  let l := l.setPrev (l.next head) b
  l.setNext head b

end Links

/-- `binit`. The pointers of a buffer mean nothing before its turn. -/
def binit : Links :=
  (List.finRange NBUF).foldl (fun l i => l.pushFront (some i)) ⟨fun _ => head, fun _ => head⟩

/-- `struct buf`, less its pointers and its data; the lock names its holder. -/
structure Buf (P : Type) where
  valid : Bool
  dev : BitVec 32
  blockno : BitVec 32
  lock : Option P
  refcnt : BitVec 32

/-- Where a process is: outside `bio.c`, in `bread` before its `acquiresleep` and
before its read, in `brelse` past its `releasesleep`. -/
inductive Pc
  | user
  | bread (i : BufId)
  | fill (i : BufId)
  | brelse (i : BufId)
  deriving DecidableEq, Repr

structure Sys (P : Type) where
  buf : BufId → Buf P
  links : Links
  pc : P → Pc
  panicked : Bool
  clock : Nat
  freed : BufId → Option Nat
  pins : BufId → Nat

inductive Act (P : Type)
  | bread (p : P) (b : BitVec 32)
  | brelse (p : P) (i : BufId)
  | bpin (p : P) (i : BufId)
  | bunpin (p : P) (i : BufId)
  | run (p : P)

variable {P : Type} [DecidableEq P]

namespace Sys

def setBuf (s : Sys P) (i : BufId) (x : Buf P) : Sys P :=
  { s with buf := Function.update s.buf i x }

def goto (s : Sys P) (p : P) (c : Pc) : Sys P := { s with pc := Function.update s.pc p c }

@[simp] theorem goto_buf (s : Sys P) (p : P) (c : Pc) : (s.goto p c).buf = s.buf := rfl

omit [DecidableEq P] in
@[simp] theorem setBuf_self (s : Sys P) (i : BufId) (x : Buf P) : (s.setBuf i x).buf i = x := by
  simp [setBuf]

omit [DecidableEq P] in
theorem setBuf_ne {i j : BufId} (s : Sys P) (x : Buf P) (hj : j ≠ i) :
    (s.setBuf i x).buf j = s.buf j := by
  simp [setBuf, hj]

/-- `b->dev == dev && b->blockno == blockno` -/
def caches (s : Sys P) (dev blockno : BitVec 32) (i : BufId) : Bool :=
  (s.buf i).dev == dev && (s.buf i).blockno == blockno

/-- `b->refcnt == 0` -/
def unused (s : Sys P) (i : BufId) : Bool := (s.buf i).refcnt == 0

/-- `bget(dev, blockno)` up to its `acquiresleep`. A loop along the list sees every
buffer once, so `NBUF + 1` steps of it are enough. -/
def bget (s : Sys P) (p : P) (dev blockno : BitVec 32) : Sys P :=
  match scan s.links.next head (fun b => b.any (s.caches dev blockno)) (NBUF + 1)
      (s.links.next head) with
  | some (some i) =>
    (s.setBuf i { s.buf i with refcnt := (s.buf i).refcnt + 1 }).goto p (.bread i)
  | _ =>
    match scan s.links.prev head (fun b => b.any s.unused) (NBUF + 1) (s.links.prev head) with
    | some (some i) =>
      (s.setBuf i { s.buf i with dev := dev, blockno := blockno, valid := false, refcnt := 1 }).goto
        p (.bread i)
    | _ => { s with panicked := true }

/-- The end of `brelse`. -/
def release (s : Sys P) (i : BufId) : Sys P :=
  let r := (s.buf i).refcnt - 1
  let s' := s.setBuf i { s.buf i with refcnt := r }
  if r = 0 then
    { s' with
      links := (s.links.unlink (some i)).pushFront (some i)
      clock := s.clock + 1
      freed := Function.update s.freed i (some s.clock) }
  else s'

/-- The next statement of process `p`. -/
def run (s : Sys P) (p : P) : Option (Sys P) :=
  match s.pc p with
  | .user => none
  | .bread i =>
    if (s.buf i).lock = none then
      some ((s.setBuf i { s.buf i with lock := some p }).goto p
        (if (s.buf i).valid then .user else .fill i))
    else none
  | .fill i => some ((s.setBuf i { s.buf i with valid := true }).goto p .user)
  | .brelse i => some ((s.release i).goto p .user)

end Sys

/-- `ROOTDEV`. -/
def rootdev : BitVec 32 := BitVec.ofNat 32 ROOTDEV

/-- One step; none after a panic. -/
def step (s : Sys P) (a : Act P) : Option (Sys P) :=
  if s.panicked then none
  else match a with
    | .bread p b => if s.pc p = .user then some (s.bget p rootdev b) else none
    | .brelse p i =>
      if s.pc p = .user ∧ (s.buf i).lock = some p then
        some ((s.setBuf i { s.buf i with lock := none }).goto p (.brelse i))
      else none
    | .bpin p i =>
      if s.pc p = .user then
        some { s.setBuf i { s.buf i with refcnt := (s.buf i).refcnt + 1 } with
          pins := Function.update s.pins i (s.pins i + 1) }
      else none
    | .bunpin p i =>
      if s.pc p = .user ∧ 0 < s.pins i then
        some { s.setBuf i { s.buf i with refcnt := (s.buf i).refcnt - 1 } with
          pins := Function.update s.pins i (s.pins i - 1) }
      else none
    | .run p => s.run p

/-- After `binit`: the buffers are as static data is. -/
structure Boot (s : Sys P) : Prop where
  buf : ∀ i, s.buf i = ⟨false, 0, 0, none, 0⟩
  links : s.links = binit
  freed : ∀ i, s.freed i = none

end Xv6.Bio
