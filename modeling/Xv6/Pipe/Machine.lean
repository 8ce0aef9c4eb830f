import Xv6.Lib.Run
import Xv6.Pipe.Pass

/-!
# Processes on one pipe

Any number of processes call `pipewrite` and `piperead` on one pipe, in every
interleaving. A process's place in the code is its `Ctl`; `pi->lock` is held
from `acquire` to a `return` or a `sleep`, and while it is held only the holder
moves — except that `kkill`, which takes `p->lock` alone, may strike anyone
between any two steps. That is why `killed(pr)` is a step of its own, apart
from the copy before it and the `sleep` after it.

`sleep(chan, &pi->lock)` gives up the lock and marks the process in one step,
and `wakeup(chan)` marks every sleeper at once: `p->lock` is held from before
`release(lk)` until the process has been switched out, so nobody sees the
window in between. `wakeup` skips `myproc()`, which is never asleep.

Whether a `copyin` or `copyout` fails, and after how many bytes, is chosen by
the label (`Copy`), and so is what a process does in user space.

The last four fields of `Sys` are bookkeeping and steer nothing. `written`
collects the ring bytes by which `nwrite` moved on, `delivered` the user bytes
by which a `piperead`'s `i` grew, both in lock order and tagged with the number
of the call; `call` keeps each call's arguments, its `i` and its return value.

`Step` says once what every label does; `step_cases` is the inversion the
invariants are proved from.
-/

namespace Xv6.Pipe

open Lib

/-- The two sleep channels, `&pi->nread` and `&pi->nwrite`. -/
inductive Chan
  | nread | nwrite
  deriving DecidableEq, Repr

/-- Places in `pipewrite`: before `acquire`; at `while(i < n)`; past the
`readopen`/`killed` test; about to `sleep`; asleep; made runnable, before the
`acquire` at the end of `sleep`; out of the loop. -/
inductive WPc
  | enter | top | body | sleep | asleep | woken | leave
  deriving DecidableEq, Repr

/-- Places in `piperead`: before `acquire`; at the `while` that waits for bytes;
at its `killed(pr)`; about to `sleep`; asleep; made runnable; in the copy loop;
past it. -/
inductive RPc
  | enter | wait | killed | sleep | asleep | woken | loop | leave
  deriving DecidableEq, Repr

/-- Locals of `pipewrite`. `call` and `i0` (the value of `i` when the lock was
last taken) are bookkeeping. -/
structure WFrame where
  q : Req
  call : Nat
  i : Int
  i0 : Int
  need : Bool
  deriving DecidableEq

/-- Locals of `piperead`. -/
structure RFrame where
  q : Req
  call : Nat
  i : Int
  wasFull : Bool
  deriving DecidableEq

inductive Ctl
  | user
  | w (pc : WPc) (f : WFrame)
  | r (pc : RPc) (f : RFrame)
  deriving DecidableEq

/-- The record of a call: its arguments, the caller's memory when it was made,
`i` so far, and what it returned. -/
structure Call where
  isWrite : Bool
  q : Req
  buf : Mem
  i : Int
  ret : Option Int

structure Sys (P : Type*) where
  pi : Pipe
  lock : Option P
  ctl : P → Ctl
  killed : P → Bool
  umem : P → Mem
  ncall : Nat
  call : Nat → Call
  written : List (Nat × UInt8)
  delivered : List (Nat × UInt8)

/-- Labels: a process changes its own memory, calls `pipewrite` or `piperead`,
is killed, an end is closed, a process takes the lock, or the holder of the lock
executes its next statement. -/
inductive Act (P : Type*)
  | user (p : P) (mem : Mem)
  | write (p : P) (q : Req)
  | read (p : P) (q : Req)
  | kill (p : P)
  | close (writable : Bool)
  | acquire (p : P)
  | run (p : P) (r : Copy)

/-- The channel a process is SLEEPING on. -/
def Ctl.asleepOn : Ctl → Option Chan
  | .w .asleep _ => some .nwrite
  | .r .asleep _ => some .nread
  | _ => none

/-- The places at which a process holds `pi->lock`. -/
def Ctl.holds : Ctl → Bool
  | .w .top _ | .w .body _ | .w .sleep _ | .w .leave _ => true
  | .r .wait _ | .r .killed _ | .r .sleep _ | .r .loop _ | .r .leave _ => true
  | _ => false

/-- SLEEPING becomes RUNNABLE. -/
def Ctl.wake : Ctl → Ctl
  | .w .asleep f => .w .woken f
  | .r .asleep f => .r .woken f
  | c => c

variable {P : Type*} [DecidableEq P]

namespace Sys

/-- `wakeup(chan)`. -/
def wakeup (s : Sys P) (ch : Chan) : Sys P :=
  { s with ctl := fun p => if (s.ctl p).asleepOn = some ch then (s.ctl p).wake else s.ctl p }

/-- `kkill` of process `p`. -/
def kkill (s : Sys P) (p : P) : Sys P :=
  { s with
    killed := Function.update s.killed p true
    ctl := Function.update s.ctl p (s.ctl p).wake }

/-- `pipeclose`. -/
def pipeclose (s : Sys P) (writable : Bool) : Sys P :=
  if writable then { s with pi := { s.pi with writeopen := false } }.wakeup .nread
  else { s with pi := { s.pi with readopen := false } }.wakeup .nwrite

/-- Move process `p` to `c`. -/
def goto (s : Sys P) (p : P) (c : Ctl) : Sys P :=
  { s with ctl := Function.update s.ctl p c }

/-- `release(&pi->lock); return r`. -/
def ret (s : Sys P) (p : P) (k : Nat) (r : Int) : Sys P :=
  { s with
    lock := none
    ctl := Function.update s.ctl p .user
    call := Function.update s.call k { s.call k with ret := some r } }

/-- The last wakeup of `pipewrite`: unconditional up to v4, from v5 on
`if(need_wakeup && i > 0)`. -/
def wakeReaders (v : Version) (s : Sys P) (f : WFrame) : Sys P :=
  if lazyWakeup v then if f.need ∧ 0 < f.i then s.wakeup .nread else s else s.wakeup .nread

/-- The last wakeup of `piperead`: unconditional up to v4, from v5 on
`if(was_full && i > 0)`. -/
def wakeWriters (v : Version) (s : Sys P) (f : RFrame) : Sys P :=
  if lazyWakeup v then if f.wasFull ∧ 0 < f.i then s.wakeup .nwrite else s else s.wakeup .nwrite

/-- One iteration of the writer's copy, by `writeIter`. -/
def put (v : Version) (s : Sys P) (p : P) (f : WFrame) (r : Copy) : Sys P :=
  let o := writeIter v s.pi (s.umem p) f.q.addr f.q.n f.i r
  let new := Ring.contents (pipeTotal v) o.pi.data s.pi.nwrite.toNat
    (o.pi.nwrite - s.pi.nwrite).toNat
  { s with
    pi := o.pi
    ctl := Function.update s.ctl p (.w (if o.brk then .leave else .top) { f with i := o.i })
    call := Function.update s.call f.call { s.call f.call with i := o.i }
    written := s.written ++ new.map (Prod.mk f.call) }

/-- One iteration of the reader's copy, by `readIter`. -/
def get (v : Version) (s : Sys P) (p : P) (f : RFrame) (r : Copy) : Sys P :=
  let o := readIter v s.pi (s.umem p) f.q.addr f.q.n f.i r
  let new := (List.range (o.i - f.i).toNat).map (userBytes o.mem f.q.addr f.i)
  { s with
    pi := o.pi
    umem := Function.update s.umem p o.mem
    ctl := Function.update s.ctl p (.r (if o.brk then .leave else .loop) { f with i := o.i })
    call := Function.update s.call f.call { s.call f.call with i := o.i }
    delivered := s.delivered ++ new.map (Prod.mk f.call) }

/-- A process enters `pipewrite` or `piperead`. -/
def enter (s : Sys P) (p : P) (isWrite : Bool) (q : Req) : Sys P :=
  { s with
    ctl := Function.update s.ctl p
      (if isWrite then .w .enter ⟨q, s.ncall, 0, 0, false⟩ else .r .enter ⟨q, s.ncall, 0, false⟩)
    ncall := s.ncall + 1
    call := Function.update s.call s.ncall ⟨isWrite, q, s.umem p, 0, none⟩ }

/-- `acquire(&pi->lock)`, at the start of a call (where v5..v8 sample
`need_wakeup`) or at the end of `sleep` (after which they set it). -/
def acquire (v : Version) (s : Sys P) (p : P) : Option (Sys P) :=
  match s.ctl p with
  | .w .enter f => some
      ({ s with lock := some p }.goto p
        (.w .top { f with i0 := f.i, need := lazyWakeup v && s.pi.empty }))
  | .w .woken f => some
      ({ s with lock := some p }.goto p (.w .top { f with i0 := f.i, need := lazyWakeup v }))
  | .r .enter f | .r .woken f => some ({ s with lock := some p }.goto p (.r .wait f))
  | _ => none

/-- The next statement of the holder of the lock. -/
def run (v : Version) (s : Sys P) (p : P) (r : Copy) : Option (Sys P) :=
  match s.ctl p with
  | .w .top f =>
    if f.i < f.q.n then
      if s.pi.readopen = false ∨ s.killed p = true then some (s.ret p f.call (-1))
      else some (s.goto p (.w .body f))
    else some (s.goto p (.w .leave f))
  | .w .body f =>
    if s.pi.full (pipeTotal v) then some ((s.wakeup .nread).goto p (.w .sleep f))
    else some (s.put v p f r)
  | .w .sleep f => some ({ s with lock := none }.goto p (.w .asleep f))
  | .w .leave f => some ((s.wakeReaders v f).ret p f.call f.i)
  | .r .wait f =>
    if s.pi.empty = true ∧ s.pi.writeopen = true then some (s.goto p (.r .killed f))
    else some (s.goto p (.r .loop { f with wasFull := lazyWakeup v && s.pi.full (pipeTotal v) }))
  | .r .killed f =>
    if s.killed p = true then some (s.ret p f.call (-1)) else some (s.goto p (.r .sleep f))
  | .r .sleep f => some ({ s with lock := none }.goto p (.r .asleep f))
  | .r .loop f =>
    if f.i < f.q.n ∧ s.pi.empty = false then some (s.get v p f r)
    else some (s.goto p (.r .leave f))
  | .r .leave f => some ((s.wakeWriters v f).ret p f.call f.i)
  | _ => none

end Sys

/-- One step of the system. -/
def step (v : Version) (s : Sys P) : Act P → Option (Sys P)
  | .user p mem =>
    if s.ctl p = .user then some { s with umem := Function.update s.umem p mem } else none
  | .write p q => if s.ctl p = .user then some (s.enter p true q) else none
  | .read p q => if s.ctl p = .user then some (s.enter p false q) else none
  | .kill p => some (s.kkill p)
  | .close writable => if s.lock = none then some (s.pipeclose writable) else none
  | .acquire p => if s.lock = none then s.acquire v p else none
  | .run p r => if s.lock = some p then s.run v p r else none

/-- A pipe fresh from `pipealloc`; the data page holds junk. -/
structure Init (s : Sys P) : Prop where
  nread : s.pi.nread = 0
  nwrite : s.pi.nwrite = 0
  readopen : s.pi.readopen = true
  writeopen : s.pi.writeopen = true
  lock : s.lock = none
  ctl : ∀ p, s.ctl p = .user
  ncall : s.ncall = 0
  written : s.written = []
  delivered : s.delivered = []

/-- A fresh pipe over a zeroed page, every process in user space. -/
def Sys.fresh (umem : P → Mem) : Sys P where
  pi := ⟨fun _ => 0, 0, 0, true, true⟩
  lock := none
  ctl := fun _ => .user
  killed := fun _ => false
  umem := umem
  ncall := 0
  call := fun _ => ⟨false, ⟨0, 0, by decide, by decide⟩, fun _ => 0, 0, none⟩
  written := []
  delivered := []

omit [DecidableEq P] in
theorem fresh_init (umem : P → Mem) : Init (Sys.fresh umem) :=
  ⟨rfl, rfl, rfl, rfl, rfl, fun _ => rfl, rfl, rfl, rfl⟩

/-! ## What a step can do -/

/-- Every step, with its guards. -/
inductive Step (v : Version) (s : Sys P) : Act P → Sys P → Prop
  | user {p : P} {mem : Mem} (hc : s.ctl p = .user) :
      Step v s (.user p mem) { s with umem := Function.update s.umem p mem }
  | write {p : P} {q : Req} (hc : s.ctl p = .user) : Step v s (.write p q) (s.enter p true q)
  | read {p : P} {q : Req} (hc : s.ctl p = .user) : Step v s (.read p q) (s.enter p false q)
  | kill {p : P} : Step v s (.kill p) (s.kkill p)
  | close {writable : Bool} (hl : s.lock = none) : Step v s (.close writable) (s.pipeclose writable)
  | wEnter {p : P} {f : WFrame} (hl : s.lock = none) (hc : s.ctl p = .w .enter f) :
      Step v s (.acquire p) ({ s with lock := some p }.goto p
        (.w .top { f with i0 := f.i, need := lazyWakeup v && s.pi.empty }))
  | wResume {p : P} {f : WFrame} (hl : s.lock = none) (hc : s.ctl p = .w .woken f) :
      Step v s (.acquire p) ({ s with lock := some p }.goto p
        (.w .top { f with i0 := f.i, need := lazyWakeup v }))
  | rEnter {p : P} {pc : RPc} {f : RFrame} (hl : s.lock = none) (hc : s.ctl p = .r pc f)
      (hpc : pc = .enter ∨ pc = .woken) :
      Step v s (.acquire p) ({ s with lock := some p }.goto p (.r .wait f))
  | wFail {p : P} {r : Copy} {f : WFrame} (hl : s.lock = some p) (hc : s.ctl p = .w .top f)
      (hi : f.i < f.q.n) (hstop : s.pi.readopen = false ∨ s.killed p = true) :
      Step v s (.run p r) (s.ret p f.call (-1))
  | wTest {p : P} {r : Copy} {f : WFrame} (hl : s.lock = some p) (hc : s.ctl p = .w .top f)
      (hi : f.i < f.q.n) (ho : s.pi.readopen = true) (hk : s.killed p = false) :
      Step v s (.run p r) (s.goto p (.w .body f))
  | wEnd {p : P} {r : Copy} {f : WFrame} (hl : s.lock = some p) (hc : s.ctl p = .w .top f)
      (hi : ¬f.i < f.q.n) : Step v s (.run p r) (s.goto p (.w .leave f))
  | wFull {p : P} {r : Copy} {f : WFrame} (hl : s.lock = some p) (hc : s.ctl p = .w .body f)
      (hf : s.pi.full (pipeTotal v) = true) :
      Step v s (.run p r) ((s.wakeup .nread).goto p (.w .sleep f))
  | wPut {p : P} {r : Copy} {f : WFrame} (hl : s.lock = some p) (hc : s.ctl p = .w .body f)
      (hf : s.pi.full (pipeTotal v) = false) : Step v s (.run p r) (s.put v p f r)
  | wSleep {p : P} {r : Copy} {f : WFrame} (hl : s.lock = some p) (hc : s.ctl p = .w .sleep f) :
      Step v s (.run p r) ({ s with lock := none }.goto p (.w .asleep f))
  | wLeave {p : P} {r : Copy} {f : WFrame} (hl : s.lock = some p) (hc : s.ctl p = .w .leave f) :
      Step v s (.run p r) ((s.wakeReaders v f).ret p f.call f.i)
  | rWait {p : P} {r : Copy} {f : RFrame} (hl : s.lock = some p) (hc : s.ctl p = .r .wait f)
      (he : s.pi.empty = true) (ho : s.pi.writeopen = true) :
      Step v s (.run p r) (s.goto p (.r .killed f))
  | rStart {p : P} {r : Copy} {f : RFrame} (hl : s.lock = some p) (hc : s.ctl p = .r .wait f)
      (h : ¬(s.pi.empty = true ∧ s.pi.writeopen = true)) :
      Step v s (.run p r)
        (s.goto p (.r .loop { f with wasFull := lazyWakeup v && s.pi.full (pipeTotal v) }))
  | rFail {p : P} {r : Copy} {f : RFrame} (hl : s.lock = some p) (hc : s.ctl p = .r .killed f)
      (hk : s.killed p = true) : Step v s (.run p r) (s.ret p f.call (-1))
  | rTest {p : P} {r : Copy} {f : RFrame} (hl : s.lock = some p) (hc : s.ctl p = .r .killed f)
      (hk : s.killed p = false) : Step v s (.run p r) (s.goto p (.r .sleep f))
  | rSleep {p : P} {r : Copy} {f : RFrame} (hl : s.lock = some p) (hc : s.ctl p = .r .sleep f) :
      Step v s (.run p r) ({ s with lock := none }.goto p (.r .asleep f))
  | rGet {p : P} {r : Copy} {f : RFrame} (hl : s.lock = some p) (hc : s.ctl p = .r .loop f)
      (hi : f.i < f.q.n) (he : s.pi.empty = false) : Step v s (.run p r) (s.get v p f r)
  | rEnd {p : P} {r : Copy} {f : RFrame} (hl : s.lock = some p) (hc : s.ctl p = .r .loop f)
      (h : ¬(f.i < f.q.n ∧ s.pi.empty = false)) : Step v s (.run p r) (s.goto p (.r .leave f))
  | rLeave {p : P} {r : Copy} {f : RFrame} (hl : s.lock = some p) (hc : s.ctl p = .r .leave f) :
      Step v s (.run p r) ((s.wakeWriters v f).ret p f.call f.i)

theorem acquire_cases {v : Version} {s s' : Sys P} {p : P} (hl : s.lock = none)
    (h : s.acquire v p = some s') : Step v s (.acquire p) s' := by
  unfold Sys.acquire at h
  split at h
  next f hc => cases h; exact .wEnter hl hc
  next f hc => cases h; exact .wResume hl hc
  next f hc => cases h; exact .rEnter hl hc (.inl rfl)
  next f hc => cases h; exact .rEnter hl hc (.inr rfl)
  next => cases h

theorem run_cases {v : Version} {s s' : Sys P} {p : P} {r : Copy} (hl : s.lock = some p)
    (h : s.run v p r = some s') : Step v s (.run p r) s' := by
  unfold Sys.run at h
  split at h
  next f hc =>
    split at h
    next hi =>
      split at h
      next hstop => cases h; exact .wFail hl hc hi hstop
      next hstop =>
        simp only [not_or, Bool.not_eq_false, Bool.not_eq_true] at hstop
        cases h
        exact .wTest hl hc hi hstop.1 hstop.2
    next hi => cases h; exact .wEnd hl hc hi
  next f hc =>
    split at h
    next hf => cases h; exact .wFull hl hc hf
    next hf => cases h; exact .wPut hl hc (by simpa using hf)
  next f hc => cases h; exact .wSleep hl hc
  next f hc => cases h; exact .wLeave hl hc
  next f hc =>
    split at h
    next hw => cases h; exact .rWait hl hc hw.1 hw.2
    next hw => cases h; exact .rStart hl hc hw
  next f hc =>
    split at h
    next hk => cases h; exact .rFail hl hc hk
    next hk => cases h; exact .rTest hl hc (by simpa using hk)
  next f hc => cases h; exact .rSleep hl hc
  next f hc =>
    split at h
    next hi => cases h; exact .rGet hl hc hi.1 hi.2
    next hi => cases h; exact .rEnd hl hc hi
  next f hc => cases h; exact .rLeave hl hc
  next => cases h

/-- **Inversion of a step.** -/
theorem step_cases {v : Version} {s s' : Sys P} {a : Act P} (h : step v s a = some s') :
    Step v s a s' := by
  cases a with
  | kill p =>
    simp only [step, Option.some.injEq] at h
    subst h
    exact .kill
  | user p mem =>
    simp only [step, Option.ite_none_right_eq_some, Option.some.injEq] at h
    obtain ⟨hc, rfl⟩ := h
    exact .user hc
  | write p q =>
    simp only [step, Option.ite_none_right_eq_some, Option.some.injEq] at h
    obtain ⟨hc, rfl⟩ := h
    exact .write hc
  | read p q =>
    simp only [step, Option.ite_none_right_eq_some, Option.some.injEq] at h
    obtain ⟨hc, rfl⟩ := h
    exact .read hc
  | close writable =>
    simp only [step, Option.ite_none_right_eq_some, Option.some.injEq] at h
    obtain ⟨hl, rfl⟩ := h
    exact .close hl
  | acquire p =>
    simp only [step, Option.ite_none_right_eq_some] at h
    exact acquire_cases h.1 h.2
  | run p r =>
    simp only [step, Option.ite_none_right_eq_some] at h
    exact run_cases h.1 h.2

end Xv6.Pipe
