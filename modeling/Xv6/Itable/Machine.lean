import Xv6.Lib.Run
import Mathlib.Data.Fintype.Basic
import Mathlib.Data.List.FinRange

/-!
# `fs.c`: the inode table

`iget`, `idup`, `ilock`, `iunlock`, `iput`, `iupdate` and `ialloc`, called by any
processes in any order. The table is protected by `itable.lock`, the fields of a
slot below `lock` by its sleep-lock; `iput` reads some of these under the table's
lock alone. So `iput` is a place a statement, and a process in it holds
`itable.lock` from `testRef` to the `release`, and again at `drop`. The bodies of
`iget` and `idup` touch what `itable.lock` protects and are one step each, which
is enabled while nobody holds the lock. `bread` to `brelse` of the block of an
inode is one step: reading a `dinode` in `ilock`, writing one in `iupdate`, looking at
one and taking it in `ialloc`, whose `iget` comes later.

A reference belongs to nobody in particular (an open file has one, and any process
with a descriptor may use it). `live` counts those that were handed out and for which
`iput` has not been called; a process inside `iput` still has the one it is to drop.
`dirty` is set by a change to a locked inode and cleared by `iupdate`. Both are
bookkeeping.

`ref`, an `int` in the source, is a `Nat`: open files, current directories and a few
variables of each call in progress have the references, some hundreds in all, so that
it cannot overflow, and no `iput` lowers a 0 (`SlotOk.count`).
-/

namespace Xv6.Itable

open Lib

def NINODE : Nat := 50
def NDIRECT : Nat := 12

/-- A slot of `itable.inode`. -/
abbrev SlotId := Fin NINODE

/-- `struct dinode`. -/
structure Dinode where
  type : Int
  major : Int
  minor : Int
  nlink : Int
  size : Nat
  addrs : List Nat
  deriving DecidableEq, Repr

/-- `memset(dip, 0, sizeof(*dip))`. -/
def Dinode.zero : Dinode := ⟨0, 0, 0, 0, 0, List.replicate (NDIRECT + 1) 0⟩

/-- The content is gone. -/
def Dinode.Empty (d : Dinode) : Prop := d.size = 0 ∧ d.addrs = List.replicate (NDIRECT + 1) 0

/-- `itrunc`, less its `iupdate` and the bitmap. -/
def Dinode.trunc (d : Dinode) : Dinode :=
  { d with size := 0, addrs := List.replicate (NDIRECT + 1) 0 }

/-- `struct inode`; `data` is the copy of the inode on disk. -/
structure Inode (P : Type) where
  dev : Nat
  inum : Nat
  ref : Nat
  locked : Option P
  valid : Bool
  data : Dinode

/-- The statements of `iput`: before `acquire`, the three tests, `acquiresleep`, the
`release`, then without the table's lock `itrunc` and its `iupdate`, `type = 0` and its
`iupdate`, `valid = 0` and `releasesleep`; the second `acquire`; `ref--`. -/
inductive Put
  | enter | testRef | testValid | testNlink | lock | release
  | trunc | truncUpdate | zero | update | invalid | unlock | again | drop
  deriving DecidableEq, Repr

/-- Where a process is: between two calls, in `acquiresleep` of `ilock` and past it, at
inode `inum` in the loop of `ialloc`, at its `iget`, in `iput`. -/
inductive Pc
  | user
  | acquire (i : SlotId)
  | read (i : SlotId)
  | scan (dev : Nat) (type : Int) (inum : Nat)
  | claimed (dev inum : Nat)
  | put (st : Put) (i : SlotId)
  deriving DecidableEq, Repr

inductive Panic
  /-- `iget: no inodes` -/
  | igetNoInodes
  /-- `ilock` -/
  | ilock
  /-- `ilock: no type` -/
  | ilockNoType
  /-- `iunlock` -/
  | iunlock
  /-- `sched locks`: `acquiresleep` sleeps with `itable.lock` held. -/
  | schedLocks
  deriving DecidableEq, Repr

structure Sys (P : Type) where
  inode : SlotId → Inode P
  dinode : Nat → Nat → Dinode
  /-- `sb.ninodes`. -/
  ninodes : Nat
  lock : Option P
  pc : P → Pc
  panicked : Option Panic
  live : SlotId → Nat
  dirty : SlotId → Bool

/-- Labels: the calls; a change to an inode by the process that has it locked; the next
statement of a process. -/
inductive Act (P : Type)
  | iget (p : P) (dev inum : Nat)
  | idup (p : P) (i : SlotId)
  | ilock (p : P) (i : SlotId)
  | write (p : P) (i : SlotId) (d : Dinode)
  | iupdate (p : P) (i : SlotId)
  | iunlock (p : P) (i : SlotId)
  | iput (p : P) (i : SlotId)
  | ialloc (p : P) (dev : Nat) (type : Int)
  | run (p : P)

variable {P : Type} [DecidableEq P]

namespace Sys

def goto (s : Sys P) (p : P) (c : Pc) : Sys P := { s with pc := Function.update s.pc p c }

def setInode (s : Sys P) (i : SlotId) (x : Inode P) : Sys P :=
  { s with inode := Function.update s.inode i x }

def setDinode (s : Sys P) (dev inum : Nat) (d : Dinode) : Sys P :=
  { s with dinode := Function.update s.dinode dev (Function.update (s.dinode dev) inum d) }

def setLive (s : Sys P) (i : SlotId) (n : Nat) : Sys P :=
  { s with live := Function.update s.live i n }

def setDirty (s : Sys P) (i : SlotId) (b : Bool) : Sys P :=
  { s with dirty := Function.update s.dirty i b }

def panic (s : Sys P) (e : Panic) : Sys P := { s with panicked := some e }

/-- `ip->ref++`. -/
def up (s : Sys P) (i : SlotId) : Sys P :=
  (s.setInode i { s.inode i with ref := (s.inode i).ref + 1 }).setLive i (s.live i + 1)

/-- The body of `iget`, for process `p`. -/
def get (s : Sys P) (p : P) (dev inum : Nat) : Sys P :=
  match (List.finRange NINODE).find? fun i =>
      0 < (s.inode i).ref ∧ (s.inode i).dev = dev ∧ (s.inode i).inum = inum with
  | some i => (s.up i).goto p .user
  | none =>
    match (List.finRange NINODE).find? fun i => (s.inode i).ref = 0 with
    | none => s.panic .igetNoInodes
    | some i =>
      ((s.setInode i ⟨dev, inum, 1, (s.inode i).locked, false, (s.inode i).data⟩).setLive i
        (s.live i + 1)).goto p .user

/-- `ilock` past `acquiresleep`. -/
def load (s : Sys P) (p : P) (i : SlotId) : Sys P :=
  if (s.inode i).valid then s.goto p .user
  else
    let d := s.dinode (s.inode i).dev (s.inode i).inum
    let s := s.setInode i { s.inode i with data := d, valid := true }
    if d.type = 0 then s.panic .ilockNoType else s.goto p .user

/-- `iupdate`. -/
def update (s : Sys P) (i : SlotId) : Sys P :=
  (s.setDinode (s.inode i).dev (s.inode i).inum (s.inode i).data).setDirty i false

/-- The next statement of `iput`. -/
def put (s : Sys P) (p : P) (i : SlotId) : Put → Option (Sys P)
  | .enter => if s.lock = none then some ({ s with lock := some p }.goto p
    (.put .testRef i)) else none
  | .testRef => some (s.goto p (.put (if (s.inode i).ref = 1 then .testValid else .drop) i))
  | .testValid => some (s.goto p (.put (if (s.inode i).valid then .testNlink else .drop) i))
  | .testNlink => some (s.goto p (.put (if (s.inode i).data.nlink = 0 then .lock else .drop) i))
  | .lock =>
    if (s.inode i).locked = none then
      some ((s.setInode i { s.inode i with locked := some p }).goto p (.put .release i))
    else some (s.panic .schedLocks)
  | .release => some ({ s with lock := none }.goto p (.put .trunc i))
  | .trunc =>
    some (((s.setInode i { s.inode i with data := (s.inode i).data.trunc }).setDirty i true).goto p
      (.put .truncUpdate i))
  | .truncUpdate => some ((s.update i).goto p (.put .zero i))
  | .zero =>
    some (((s.setInode i { s.inode i with data := { (s.inode i).data with type := 0 } }).setDirty i
      true).goto p (.put .update i))
  | .update => some ((s.update i).goto p (.put .invalid i))
  | .invalid => some ((s.setInode i { s.inode i with valid := false }).goto p (.put .unlock i))
  | .unlock => some ((s.setInode i { s.inode i with locked := none }).goto p (.put .again i))
  | .again => if s.lock = none then some ({ s with lock := some p }.goto p (.put .drop i)) else none
  | .drop =>
    some ({ s.setInode i { s.inode i with ref := (s.inode i).ref - 1 } with lock := none }.goto p
      .user)

/-- The next statement of process `p`. -/
def run (s : Sys P) (p : P) : Option (Sys P) :=
  match s.pc p with
  | .user => none
  | .acquire i =>
    if (s.inode i).locked = none then
      some ((s.setInode i { s.inode i with locked := some p }).goto p (.read i))
    else none
  | .read i => some (s.load p i)
  | .scan dev type inum =>
    if inum < s.ninodes then
      if (s.dinode dev inum).type = 0 then
        some ((s.setDinode dev inum { Dinode.zero with type := type }).goto p (.claimed dev inum))
      else some (s.goto p (.scan dev type (inum + 1)))
    else some (s.goto p .user)
  | .claimed dev inum => if s.lock = none then some (s.get p dev inum) else none
  | .put st i => s.put p i st

end Sys

/-- One step; none after a panic. -/
def step (s : Sys P) (a : Act P) : Option (Sys P) :=
  if s.panicked ≠ none then none
  else match a with
    | .iget p dev inum => if s.pc p = .user ∧ s.lock = none then some (s.get p dev inum) else none
    | .idup p i => if s.pc p = .user ∧ s.lock = none then some (s.up i) else none
    | .ilock p i =>
      if s.pc p = .user then
        if (s.inode i).ref < 1 then some (s.panic .ilock) else some (s.goto p (.acquire i))
      else none
    | .write p i d =>
      if s.pc p = .user then
        some ((s.setInode i
          { s.inode i with data := { d with type := (s.inode i).data.type } }).setDirty
          i true)
      else none
    | .iupdate p i => if s.pc p = .user then some (s.update i) else none
    | .iunlock p i =>
      if s.pc p = .user then
        if (s.inode i).locked ≠ some p ∨ (s.inode i).ref < 1 then some (s.panic .iunlock)
        else some (s.setInode i { s.inode i with locked := none })
      else none
    | .iput p i =>
      if s.pc p = .user then some ((s.setLive i (s.live i - 1)).goto p (.put .enter i)) else none
    | .ialloc p dev type => if s.pc p = .user then some (s.goto p (.scan dev type 1)) else none
    | .run p => s.run p

/-- The stages of `iput` with the sleep-lock held. -/
def Put.locks : Put → Bool
  | .release | .trunc | .truncUpdate | .zero | .update | .invalid | .unlock => true
  | _ => false

/-- What a process has to do with a slot. -/
inductive Role
  | acquire | read
  | put (st : Put)
  deriving DecidableEq, Repr

def Pc.role (i : SlotId) : Pc → Option Role
  | .acquire j => if j = i then some .acquire else none
  | .read j => if j = i then some .read else none
  | .put st j => if j = i then some (.put st) else none
  | _ => none

/-- Process `p` is between `ilock` and `iunlock` of a slot. -/
def Uses (x : Inode P) (role : P → Option Role) (p : P) : Prop :=
  role p = some .acquire ∨ role p = some .read ∨
    (x.locked = some p ∧ ∀ st, role p = some (.put st) → st.locks = false)

/-- What callers keep to: a call is given a reference that was not put; the reference
that is put is not the last one while somebody uses the inode; an inode is changed by the
process that has it locked, and the change is on disk before `iunlock`; an inode is
allocated with a type. -/
def Proper (s : Sys P) : Act P → Prop
  | .idup _ i | .ilock _ i => 1 ≤ s.live i
  | .write p i _ => (s.inode i).locked = some p
  | .iupdate p i => (s.inode i).locked = some p
  | .iunlock _ i => s.dirty i = false
  | .iput _ i =>
    1 ≤ s.live i ∧ ((∃ q, Uses (s.inode i) (fun q => (s.pc q).role i) q) → 2 ≤ s.live i)
  | .ialloc _ _ type => type ≠ 0
  | .iget _ _ _ | .run _ => True

/-- The table as it boots. -/
structure Boot (s : Sys P) : Prop where
  ref : ∀ i, (s.inode i).ref = 0
  locked : ∀ i, (s.inode i).locked = none
  lock : s.lock = none
  pc : ∀ p, s.pc p = .user
  panicked : s.panicked = none
  live : ∀ i, s.live i = 0
  dirty : ∀ i, s.dirty i = false

end Xv6.Itable
