import Xv6.Lib.Ring
import Xv6.Lib.Run
import Mathlib.Data.BitVec

/-!
# `virtio_disk.c`: the driver and the device

Any processes call `virtio_disk_rw`, each on a buffer of its own; the interrupt
handler and the device run beside them. Driver and device share the descriptors,
the status bytes, the avail ring and the used ring. The lock keeps the driver's
processes and its interrupt handler apart, but not the device, so the driver's
stores that the device may see are steps of their own: the entry in the avail ring
comes before the index that publishes it.

The device takes the entries of the avail ring one by one and reads the chain of
descriptors each begins with (`DevReq` is what it finds there). Which of the
requests it has taken it completes next is up to it. A completion is three stores,
the status, the entry in the used ring and the index, and the driver may run in
between.

`sleep` gives up the lock and marks the process in one step. `kkill` may make a
sleeping process runnable at any time. A descriptor number is a `Nat`; the indices
of the two rings are the `uint16`s they are.

`completed` is bookkeeping: whether the device has completed the request at a head
since that request was filled in.
-/

namespace Xv6.Virtio

open Lib

def NUM : Nat := 8
def BSIZE : Nat := 1024

def VRING_DESC_F_NEXT : BitVec 16 := 1
def VRING_DESC_F_WRITE : BitVec 16 := 2

/-- What a descriptor points to: nothing, `&ops[i]`, the data of a buffer,
`&info[i].status`. -/
inductive Dma (B : Type)
  | null
  | op (i : Nat)
  | data (b : B)
  | status (i : Nat)
  deriving DecidableEq, Repr

/-- `struct virtq_desc`. -/
structure Desc (B : Type) where
  addr : Dma B
  len : Nat
  flags : BitVec 16
  next : Nat
  deriving DecidableEq, Repr

def Desc.zero {B : Type} : Desc B := ⟨.null, 0, 0, 0⟩

/-- `struct virtio_blk_req`; the type is `VIRTIO_BLK_T_OUT` if `write`. -/
structure BlkReq where
  write : Bool
  sector : Nat
  deriving DecidableEq, Repr

/-- `info[i]`. -/
structure Info (B : Type) where
  b : Option B
  status : UInt8

/-- `disk`, less its lock. -/
structure Disk (B : Type) where
  desc : Nat → Desc B
  availIdx : BitVec 16
  avail : Nat → Nat
  usedIdx : BitVec 16
  used : Nat → Nat
  free : Nat → Bool
  seen : BitVec 16
  info : Nat → Info B
  ops : Nat → BlkReq

/-- A request as the device reads it: the head of its chain, the command, the
buffer, and where the status goes. -/
structure DevReq (B : Type) where
  head : Nat
  op : BlkReq
  data : Dma B
  status : Dma B
  deriving DecidableEq, Repr

/-- The device: how far it is in the avail ring, the requests it has taken, those
whose status it has written, and the one whose entry it has stored. -/
structure Dev (B : Type) where
  last : BitVec 16
  taken : List (DevReq B)
  done : List (DevReq B)
  stored : Option Nat

/-- The arguments of `virtio_disk_rw`, with the sector. -/
structure Call (B : Type) where
  b : B
  write : Bool
  sector : Nat
  deriving DecidableEq, Repr

/-- `idx[3]`. -/
structure Chain where
  i0 : Nat
  i1 : Nat
  i2 : Nat
  deriving DecidableEq, Repr

/-- Places before there are descriptors: before `acquire`; at `alloc3_desc`; asleep
on `&disk.free[0]`; made runnable. -/
inductive Early
  | enter | alloc | asleep | woken
  deriving DecidableEq, Repr

/-- Places with descriptors: before they are filled in; before the entry in the avail
ring; before the index; at `while(b->disk == 1)`; asleep on `b`; made runnable; past
the loop. -/
inductive Late
  | format | put | publish | wait | asleep | woken | finish
  deriving DecidableEq, Repr

inductive Pc (B : Type)
  | user
  | early (st : Early) (c : Call B)
  | late (st : Late) (c : Call B) (x : Chain)
  deriving DecidableEq, Repr

/-- Who holds `vdisk_lock`. -/
inductive Owner (P : Type)
  | proc (p : P)
  | intr
  deriving DecidableEq, Repr

inductive Panic
  /-- `free_desc 1` -/
  | freeDesc1
  /-- `free_desc 2` -/
  | freeDesc2
  /-- `virtio_disk_intr status` -/
  | status
  /-- A null `info[id].b`, which the source does not test for. -/
  | nullBuf
  /-- The loop of `free_chain` does not end. -/
  | loop
  deriving DecidableEq, Repr

structure Sys (P B : Type) where
  disk : Disk B
  dev : Dev B
  /-- `b->disk`. -/
  busy : B → Bool
  lock : Option (Owner P)
  pc : P → Pc B
  panicked : Option Panic
  completed : Nat → Bool

/-- Labels: a process calls `virtio_disk_rw`, is killed, takes the lock or runs its
next statement; the interrupt handler starts or runs; the device takes an entry,
writes the status of the request with head `h`, stores its entry, moves its index. -/
inductive Act (P B : Type)
  | rw (p : P) (c : Call B)
  | kill (p : P)
  | acquire (p : P)
  | run (p : P)
  | intr
  | intrRun
  | devTake
  | devStatus (h : Nat)
  | devStore (h : Nat)
  | devIdx

variable {P B : Type} [DecidableEq P] [DecidableEq B]

/-- `idx % NUM`. -/
def slot (idx : BitVec 16) : Nat := (idx % BitVec.ofNat 16 NUM).toNat

/-- The buffer of the call a process is in. -/
def Pc.buf : Pc B → Option B
  | .user => none
  | .early _ c | .late _ c _ => some c.b

/-- SLEEPING becomes RUNNABLE. -/
def Pc.wake : Pc B → Pc B
  | .early .asleep c => .early .woken c
  | .late .asleep c x => .late .woken c x
  | c => c

namespace Sys

def goto (s : Sys P B) (p : P) (c : Pc B) : Sys P B := { s with pc := Function.update s.pc p c }

/-- `wakeup(&disk.free[0])`. -/
def wakeupFree (s : Sys P B) : Sys P B :=
  { s with pc := fun p => match s.pc p with
      | .early .asleep c => .early .woken c
      | c => c }

/-- `wakeup(b)`. -/
def wakeupBuf (s : Sys P B) (b : B) : Sys P B :=
  { s with pc := fun p => match s.pc p with
      | .late .asleep c x => .late (if c.b = b then .woken else .asleep) c x
      | c => c }

def setDesc (s : Sys P B) (i : Nat) (x : Desc B) : Sys P B :=
  { s with disk := { s.disk with desc := Function.update s.disk.desc i x } }

def setFree (s : Sys P B) (i : Nat) (f : Bool) : Sys P B :=
  { s with disk := { s.disk with free := Function.update s.disk.free i f } }

def setInfo (s : Sys P B) (i : Nat) (x : Info B) : Sys P B :=
  { s with disk := { s.disk with info := Function.update s.disk.info i x } }

/-- `alloc_desc()`; `none` is `-1`. -/
def allocDesc (s : Sys P B) : Option (Sys P B × Nat) :=
  ((List.range NUM).find? s.disk.free).map fun i => (s.setFree i false, i)

/-- `free_desc(i)`. -/
def freeDesc (s : Sys P B) (i : Nat) : Except Panic (Sys P B) :=
  if NUM ≤ i then .error .freeDesc1
  else if s.disk.free i then .error .freeDesc2
  else .ok ((s.setDesc i .zero).setFree i true).wakeupFree

/-- The loop of `free_chain(i)`. -/
def freeLoop : Nat → Sys P B → Nat → Except Panic (Sys P B)
  | 0, _, _ => .error .loop
  | fuel + 1, s, i =>
    let flag := (s.disk.desc i).flags
    let nxt := (s.disk.desc i).next
    match s.freeDesc i with
    | .error e => .error e
    | .ok s => if flag &&& VRING_DESC_F_NEXT ≠ 0 then freeLoop fuel s nxt else .ok s

/-- `free_chain(i)`: every turn frees a descriptor, so there are at most `NUM`. -/
def freeChain (s : Sys P B) (i : Nat) : Except Panic (Sys P B) := freeLoop NUM s i

/-- `alloc3_desc(idx)`, which gives back what it got if it does not get all three. -/
def alloc3Desc (s : Sys P B) : Except Panic (Sys P B × Option Chain) :=
  match s.allocDesc with
  | none => .ok (s, none)
  | some (s, i0) =>
    match s.allocDesc with
    | none => (s.freeDesc i0).map fun s => (s, none)
    | some (s, i1) =>
      match s.allocDesc with
      | none => ((s.freeDesc i0).bind fun s => s.freeDesc i1).map fun s => (s, none)
      | some (s, i2) => .ok (s, some ⟨i0, i1, i2⟩)

/-- `virtio_disk_rw` from the command to `disk.info[idx[0]].b = b`. -/
def format (s : Sys P B) (c : Call B) (x : Chain) : Sys P B :=
  let s := { s with disk := { s.disk with
    ops := Function.update s.disk.ops x.i0 ⟨c.write, c.sector⟩ } }
  let s := s.setDesc x.i0 ⟨.op x.i0, 16, VRING_DESC_F_NEXT, x.i1⟩
  let s := s.setDesc x.i1 ⟨.data c.b, BSIZE,
    (if c.write then 0 else VRING_DESC_F_WRITE) ||| VRING_DESC_F_NEXT, x.i2⟩
  let s := s.setInfo x.i0 { s.disk.info x.i0 with status := 0xff }
  let s := s.setDesc x.i2 ⟨.status x.i0, 1, VRING_DESC_F_WRITE, 0⟩
  let s := { s with
    busy := Function.update s.busy c.b true
    completed := Function.update s.completed x.i0 false }
  s.setInfo x.i0 { s.disk.info x.i0 with b := some c.b }

/-- `disk.avail->ring[disk.avail->idx % NUM] = idx[0];` -/
def put (s : Sys P B) (x : Chain) : Sys P B :=
  { s with disk := { s.disk with
      avail := Function.update s.disk.avail (slot s.disk.availIdx) x.i0 } }

/-- `disk.avail->idx += 1;` -/
def publish (s : Sys P B) : Sys P B :=
  { s with disk := { s.disk with availIdx := s.disk.availIdx + 1 } }

/-- The end of `virtio_disk_rw`. -/
def finish (s : Sys P B) (p : P) (x : Chain) : Except Panic (Sys P B) :=
  ((s.setInfo x.i0 { s.disk.info x.i0 with b := none }).freeChain x.i0).map fun s =>
    { s with lock := none }.goto p .user

/-- A step that may panic. -/
def orPanic (s : Sys P B) : Except Panic (Sys P B) → Sys P B
  | .ok s' => s'
  | .error e => { s with panicked := some e }

/-- The next statement of the process that holds the lock. -/
def run (s : Sys P B) (p : P) : Option (Sys P B) :=
  match s.pc p with
  | .early .alloc c => some (s.orPanic (s.alloc3Desc.map fun r =>
      match r.2 with
      | some x => r.1.goto p (.late .format c x)
      | none => { r.1 with lock := none }.goto p (.early .asleep c)))
  | .late .format c x => some ((s.format c x).goto p (.late .put c x))
  | .late .put c x => some ((s.put x).goto p (.late .publish c x))
  | .late .publish c x => some (s.publish.goto p (.late .wait c x))
  | .late .wait c x =>
    if s.busy c.b then some ({ s with lock := none }.goto p (.late .asleep c x))
    else some (s.goto p (.late .finish c x))
  | .late .finish _ x => some (s.orPanic (s.finish p x))
  | _ => none

/-- One turn of the loop of `virtio_disk_intr`, or its end. -/
def intrRun (s : Sys P B) : Sys P B :=
  if s.disk.seen ≠ s.disk.usedIdx then
    let id := s.disk.used (slot s.disk.seen)
    if (s.disk.info id).status ≠ 0 then { s with panicked := some .status }
    else
      match (s.disk.info id).b with
      | none => { s with panicked := some .nullBuf }
      | some b =>
        let s := { s with busy := Function.update s.busy b false }.wakeupBuf b
        { s with disk := { s.disk with seen := s.disk.seen + 1 } }
  else { s with lock := none }

/-- The chain of descriptors that begins with `h`. -/
def readReq (s : Sys P B) (h : Nat) : DevReq B :=
  let i1 := (s.disk.desc h).next
  let i2 := (s.disk.desc i1).next
  let op := match (s.disk.desc h).addr with
    | .op i => s.disk.ops i
    | _ => ⟨false, 0⟩
  ⟨h, op, (s.disk.desc i1).addr, (s.disk.desc i2).addr⟩

/-- The device takes an entry of the avail ring. -/
def devTake (s : Sys P B) : Option (Sys P B) :=
  if s.dev.last ≠ s.disk.availIdx then
    some { s with dev := { s.dev with
      last := s.dev.last + 1
      taken := s.dev.taken ++ [s.readReq (s.disk.avail (slot s.dev.last))] } }
  else none

/-- The device writes status 0 where the request says. -/
def devStatus (s : Sys P B) (h : Nat) : Option (Sys P B) :=
  (s.dev.taken.find? fun r => r.head = h).map fun r =>
    let s := match r.status with
      | .status i => s.setInfo i { s.disk.info i with status := 0 }
      | _ => s
    { s with dev := { s.dev with taken := s.dev.taken.erase r, done := r :: s.dev.done } }

/-- The device stores the entry of a request whose status it has written. -/
def devStore (s : Sys P B) (h : Nat) : Option (Sys P B) :=
  if s.dev.stored = none then
    (s.dev.done.find? fun r => r.head = h).map fun r =>
      { s with
        disk := { s.disk with used := Function.update s.disk.used (slot s.disk.usedIdx) r.head }
        dev := { s.dev with done := s.dev.done.erase r, stored := some r.head } }
  else none

/-- The device moves its index over the entry. -/
def devIdx (s : Sys P B) : Option (Sys P B) :=
  match s.dev.stored with
  | none => none
  | some h => some { s with
      disk := { s.disk with usedIdx := s.disk.usedIdx + 1 }
      dev := { s.dev with stored := none }
      completed := Function.update s.completed h true }

end Sys

/-- One step; none after a panic. -/
def step (s : Sys P B) (a : Act P B) : Option (Sys P B) :=
  if s.panicked ≠ none then none
  else match a with
    | .rw p c => if s.pc p = .user then some (s.goto p (.early .enter c)) else none
    | .kill p => some (s.goto p (s.pc p).wake)
    | .acquire p =>
      if s.lock = none then
        match s.pc p with
        | .early .enter c | .early .woken c =>
          some ({ s with lock := some (.proc p) }.goto p (.early .alloc c))
        | .late .woken c x => some ({ s with lock := some (.proc p) }.goto p (.late .wait c x))
        | _ => none
      else none
    | .run p => if s.lock = some (.proc p) then s.run p else none
    | .intr => if s.lock = none then some { s with lock := some .intr } else none
    | .intrRun => if s.lock = some .intr then some s.intrRun else none
    | .devTake => s.devTake
    | .devStatus h => s.devStatus h
    | .devStore h => s.devStore h
    | .devIdx => s.devIdx

/-- The buffer of a call is in no other call: its caller holds its lock. -/
def Distinct (s : Sys P B) : Act P B → Prop
  | .rw _ c => ∀ q, (s.pc q).buf ≠ some c.b
  | _ => True

/-- After `virtio_disk_init`: the queue memory is zero, all descriptors are free. -/
structure Init (s : Sys P B) : Prop where
  free : ∀ i, s.disk.free i = true
  availIdx : s.disk.availIdx = 0
  usedIdx : s.disk.usedIdx = 0
  seen : s.disk.seen = 0
  last : s.dev.last = 0
  taken : s.dev.taken = []
  done : s.dev.done = []
  stored : s.dev.stored = none
  lock : s.lock = none
  pc : ∀ p, s.pc p = .user
  panicked : s.panicked = none

end Xv6.Virtio
