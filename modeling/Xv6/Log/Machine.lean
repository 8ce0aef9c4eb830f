import Xv6.Lib.Run
import Mathlib.Data.Fintype.Basic
import Mathlib.Data.Nat.ModEq

/-!
# `log.c` over `bio.c`: the logging machine

The buffer cache, the in-memory log and the disk, under any interleaving of
operations of any processes. Inside `begin_op`/`end_op` an operation is free to
`bread` blocks, change the data of buffers it has locked, `log_write` and
`brelse` them, in any order and as often as it likes; `bread` and `brelse` are
also open to processes outside an operation. The last `end_op` runs `commit`.

What a spinlock makes atomic is one step: each scan of `bget`, `log_write` with
its `bpin`, the two halves of `brelse`. So is a transfer between a locked buffer
and the disk, together with the `memmove` that prepares it: a step writes one
block at most, and a crash falls between two steps. `sleep` in `begin_op` and
`acquiresleep` is a step that is not enabled.

`crash p` loses everything but the disk. Process `p` then runs
`recover_from_log`, alone, as the first process does in `fsinit`, and the
machine is `ready` once that has returned. Until then no call is open to anyone,
and a crash may come again.

A device number stands in the buffers because the zeroed ones of `binit` hold
block 0 of device 0, which is not the disk. The fields from `op` on are
bookkeeping: who is inside which operation, what it has logged, how many entries
the current `install_trans` has unpinned, and the groups of logged writes whose
header reached the disk.
-/

namespace Xv6.Log

open Lib

def MAXOPBLOCKS : Nat := 10
def LOGBLOCKS : Nat := MAXOPBLOCKS * 3
def NBUF : Nat := MAXOPBLOCKS * 3
def ROOTDEV : Nat := 1

theorem NBUF_ne_zero : NBUF ≠ 0 := Nat.succ_ne_zero 29

instance : NeZero NBUF := ⟨NBUF_ne_zero⟩

/-- A buffer of `bcache.buf`. -/
abbrev BufId := Fin NBUF

/-- The words of a block, `BSIZE / sizeof(uint)`. -/
def NWORD : Nat := 256

/-- What a disk block holds. -/
abbrev Block := Fin NWORD → Nat

namespace Block

/-- A word of a block. -/
def word (d : Block) (k : Nat) : Nat := if h : k < NWORD then d ⟨k, h⟩ else 0

/-- The `struct logheader` at the start of a block: `block[0]` to `block[n-1]`. -/
def head (d : Block) : List Nat := (List.range (d.word 0)).map fun i => d.word (i + 1)

/-- A `struct logheader` stored into a block; words after `block[n-1]` stay. -/
def setHead (d : Block) (lh : List Nat) : Block := fun k =>
  if k.val = 0 then lh.length
  else if h : k.val - 1 < lh.length then lh.get ⟨k.val - 1, h⟩
  else d k

end Block

/-- `struct buf`. The lock names its holder; `dirty` says that the holder has
changed the data since it last called `log_write`, and is bookkeeping. -/
structure Buf (P : Type) where
  valid : Bool
  dev : Nat
  blockno : Nat
  lock : Option P
  refcnt : Nat
  data : Block
  dirty : Bool

/-- The test of `bget`. -/
def Buf.caches {P : Type} (x : Buf P) (b : Nat) : Bool := x.dev = ROOTDEV ∧ x.blockno = b

/-- Static data is zero. -/
def Buf.zero {P : Type} : Buf P := ⟨false, 0, 0, none, 0, fun _ => 0, false⟩

/-- The calls of `write_head`: the one that commits, the one that erases the
transaction, the one at the end of `recover_from_log`. -/
inductive Head
  | commit | clear | recover
  deriving DecidableEq, Repr

/-- Which call of `bread` is waiting for its buffer. -/
inductive Want
  | user
  | logTo (tail : Nat)
  | logFrom (tail : Nat) (tbuf : BufId)
  | head (w : Head)
  | instLog (recovering : Bool) (tail : Nat)
  | instDst (recovering : Bool) (tail : Nat) (lbuf : BufId)
  | readHead
  deriving DecidableEq, Repr

/-- What follows a `brelse`. -/
inductive After
  | user
  | logTo (tail : Nat) (tbuf : BufId)
  | logLoop (tail : Nat)
  | head (w : Head)
  | instDst (recovering : Bool) (tail : Nat) (dbuf : BufId)
  | instLoop (recovering : Bool) (tail : Nat)
  deriving DecidableEq, Repr

/-- Where a process is. -/
inductive Pc
  /-- Outside `log.c` and `bio.c`. -/
  | user
  | bget (b : Nat) (k : Want)
  | acquiresleep (i : BufId) (b : Nat) (k : Want)
  -- brelse, before `releasesleep` and before `refcnt--`
  | brelse (i : BufId) (k : After)
  | unref (i : BufId) (k : After)
  -- commit
  | commit
  | logLoop (tail : Nat)
  | writeLog (tail : Nat) (tbuf fbuf : BufId)
  | writeHead (w : Head) (i : BufId)
  | readHead (i : BufId)
  | instLoop (recovering : Bool) (tail : Nat)
  | install (recovering : Bool) (tail : Nat) (lbuf dbuf : BufId)
  | bunpin (tail : Nat) (lbuf dbuf : BufId)
  | endCommit
  deriving DecidableEq, Repr

inductive Panic
  /-- `bget: no buffers` -/
  | noBuffers
  /-- `too big a transaction` -/
  | tooBig
  /-- `log_write outside of trans` -/
  | outsideTrans
  /-- `log.committing` -/
  | committing
  deriving DecidableEq, Repr

/-- An operation in progress: the blocks it has called `log_write` on, and how
many entries of the log are its own. -/
structure Op where
  id : Nat
  logged : List Nat
  added : Nat
  deriving DecidableEq, Repr

/-- The entry `log_write` makes in the record of its operation. -/
def Op.log (o : Op) (b : Nat) : Op :=
  { o with logged := if b ∈ o.logged then o.logged else b :: o.logged }

/-- One `log_write`: the operation, the block and the data at that moment. -/
structure Write where
  op : Nat
  blockno : Nat
  data : Block

structure Sys (P : Type) where
  disk : Nat → Block
  buf : BufId → Buf P
  /-- `bcache.head`'s list, most recently used first. -/
  lru : List BufId
  /-- `log.lh.block[0]` to `log.lh.block[n-1]`. -/
  lh : List Nat
  outstanding : Nat
  committing : Bool
  pc : P → Pc
  ready : Bool
  panicked : Option Panic
  op : P → Option Op
  installed : Nat
  nextOp : Nat
  /-- Every write ever logged. -/
  trace : List Write
  /-- The writes logged since the last commit, or since the last crash. -/
  pend : List Write
  groups : List (List Write)

inductive Label (P : Type)
  | beginOp (p : P)
  | bread (p : P) (b : Nat)
  | modify (p : P) (i : BufId) (d : Block)
  | logWrite (p : P) (i : BufId)
  | brelse (p : P) (i : BufId)
  | endOp (p : P)
  | run (p : P)
  | crash (p : P)

/-- `brelse(b)` at the end of the use of a buffer, then `k`. -/
def After.pc : After → Pc
  | .user => .user
  | .logTo tail tbuf => .brelse tbuf (.logLoop (tail + 1))
  | .logLoop tail => .logLoop tail
  | .head .commit => .instLoop false 0
  | .head .clear => .endCommit
  | .head .recover => .user
  | .instDst recovering tail dbuf => .brelse dbuf (.instLoop recovering (tail + 1))
  | .instLoop recovering tail => .instLoop recovering tail

namespace Sys

variable {P : Type} [DecidableEq P]

def goto (s : Sys P) (p : P) (c : Pc) : Sys P := { s with pc := Function.update s.pc p c }

def setBuf (s : Sys P) (i : BufId) (x : Buf P) : Sys P :=
  { s with buf := Function.update s.buf i x }

@[simp] theorem goto_self (s : Sys P) (p : P) (c : Pc) : (s.goto p c).pc p = c := by
  simp [goto]

theorem goto_ne {p q : P} (s : Sys P) (c : Pc) (hq : q ≠ p) : (s.goto p c).pc q = s.pc q := by
  simp [goto, hq]

omit [DecidableEq P] in
@[simp] theorem setBuf_self (s : Sys P) (i : BufId) (x : Buf P) : (s.setBuf i x).buf i = x := by
  simp [setBuf]

omit [DecidableEq P] in
theorem setBuf_ne {i j : BufId} (s : Sys P) (x : Buf P) (hj : j ≠ i) :
    (s.setBuf i x).buf j = s.buf j := by
  simp [setBuf, hj]

def panic (s : Sys P) (m : Panic) : Sys P := { s with panicked := some m }

/-- The first scan of `bget`. -/
def cached (s : Sys P) (b : Nat) : Option BufId := s.lru.find? fun i => (s.buf i).caches b

/-- The second scan of `bget`. -/
def unused (s : Sys P) : Option BufId := s.lru.reverse.find? fun i => (s.buf i).refcnt = 0

/-- `bget(ROOTDEV, b)` up to `acquiresleep`, for the call `k` of process `p`. -/
def bget (s : Sys P) (p : P) (b : Nat) (k : Want) : Sys P :=
  match s.cached b with
  | some i =>
    (s.setBuf i { s.buf i with refcnt := (s.buf i).refcnt + 1 }).goto p (.acquiresleep i b k)
  | none =>
    match s.unused with
    | some i =>
      (s.setBuf i { s.buf i with
        dev := ROOTDEV, blockno := b, valid := false, refcnt := 1, dirty := false }).goto p
          (.acquiresleep i b k)
    | none => (s.goto p (.bget b k)).panic .noBuffers

/-- Where the call `k` goes on with its buffer `i`. -/
def resume (s : Sys P) (i : BufId) : Want → Pc
  | .user => .user
  | .logTo tail => .bget (s.lh.getD tail 0) (.logFrom tail i)
  | .logFrom tail tbuf => .writeLog tail tbuf i
  | .head w => .writeHead w i
  | .instLog recovering tail => .bget (s.lh.getD tail 0) (.instDst recovering tail i)
  | .instDst recovering tail lbuf => .install recovering tail lbuf i
  | .readHead => .readHead i

/-- The end of `bread`: the lock is free, and a buffer that is not valid is read. -/
def lockBuf (s : Sys P) (p : P) (i : BufId) : Sys P :=
  let x := s.buf i
  s.setBuf i { x with
    lock := some p, valid := true, data := if x.valid then x.data else s.disk x.blockno }

/-- `bwrite` of buffer `i` with new data. -/
def bwrite (s : Sys P) (i : BufId) (d : Block) : Sys P :=
  { s.setBuf i { s.buf i with data := d } with
    disk := Function.update s.disk (s.buf i).blockno d }

/-- `releasesleep(&b->lock)`. -/
def releasesleep (s : Sys P) (i : BufId) : Sys P := s.setBuf i { s.buf i with lock := none }

/-- The end of `brelse`. -/
def unref (s : Sys P) (i : BufId) : Sys P :=
  let r := (s.buf i).refcnt - 1
  let s' := s.setBuf i { s.buf i with refcnt := r }
  if r = 0 then { s' with lru := i :: s.lru.erase i } else s'

/-- `log_write(b)` by operation `o` of process `p`. -/
def logWrite (s : Sys P) (p : P) (o : Op) (i : BufId) : Sys P :=
  let x := s.buf i
  if LOGBLOCKS ≤ s.lh.length then s.panic .tooBig
  else if s.outstanding < 1 then s.panic .outsideTrans
  else
    let w : Write := ⟨o.id, x.blockno, x.data⟩
    let o' := o.log x.blockno
    let s' := { s with trace := s.trace ++ [w], pend := s.pend ++ [w] }
    if x.blockno ∈ s.lh then
      { s'.setBuf i { x with dirty := false } with op := Function.update s.op p (some o') }
    else
      { s'.setBuf i { x with dirty := false, refcnt := x.refcnt + 1 } with
        lh := s.lh ++ [x.blockno]
        op := Function.update s.op p (some { o' with added := o.added + 1 }) }

/-- `begin_op`, when it does not sleep. -/
def beginOp (s : Sys P) (p : P) : Option (Sys P) :=
  if s.committing then none
  else if LOGBLOCKS < s.lh.length + (s.outstanding + 1) * MAXOPBLOCKS then none
  else some { s with
    outstanding := s.outstanding + 1
    nextOp := s.nextOp + 1
    op := Function.update s.op p (some ⟨s.nextOp, [], 0⟩) }

/-- `end_op` up to `commit`. -/
def endOp (s : Sys P) (p : P) : Sys P :=
  let s' := { s with outstanding := s.outstanding - 1, op := Function.update s.op p none }
  if s.committing then s'.panic .committing
  else if s.outstanding - 1 = 0 then { s' with committing := true }.goto p .commit
  else s'

/-- One step of `commit`, of `recover_from_log`, or of a call of `bread` or
`brelse`. -/
def run (start : Nat) (s : Sys P) (p : P) : Option (Sys P) :=
  match s.pc p with
  | .user => none
  | .bget b k => some (s.bget p b k)
  | .acquiresleep i _ k =>
    if (s.buf i).lock = none then some ((s.lockBuf p i).goto p (s.resume i k)) else none
  | .brelse i k => some ((s.releasesleep i).goto p (.unref i k))
  | .unref i k =>
    let s' := (s.unref i).goto p k.pc
    some (if k = .head .recover then { s' with ready := true } else s')
  | .commit => some (s.goto p (if 0 < s.lh.length then .logLoop 0 else .endCommit))
  | .logLoop tail =>
    some (s.goto p (if tail < s.lh.length then .bget (start + tail + 1) (.logTo tail)
      else .bget start (.head .commit)))
  | .writeLog tail tbuf fbuf =>
    some ((s.bwrite tbuf (s.buf fbuf).data).goto p (.brelse fbuf (.logTo tail tbuf)))
  | .writeHead w i =>
    let s' := (s.bwrite i ((s.buf i).data.setHead s.lh)).goto p (.brelse i (.head w))
    some (if w = .commit then { s' with pend := [], groups := s.groups ++ [s.pend] } else s')
  | .readHead i =>
    some ({ s with lh := (s.buf i).data.head }.goto p (.brelse i (.instLoop true 0)))
  | .instLoop recovering tail =>
    if tail < s.lh.length then
      some (s.goto p (.bget (start + tail + 1) (.instLog recovering tail)))
    else
      some ({ s with lh := [], installed := 0 }.goto p
        (.bget start (.head (if recovering then .recover else .clear))))
  | .install recovering tail lbuf dbuf =>
    some ((s.bwrite dbuf (s.buf lbuf).data).goto p
      (if recovering then .brelse lbuf (.instDst true tail dbuf) else .bunpin tail lbuf dbuf))
  | .bunpin tail lbuf dbuf =>
    some ({ s.setBuf dbuf { s.buf dbuf with refcnt := (s.buf dbuf).refcnt - 1 } with
      installed := s.installed + 1 }.goto p (.brelse lbuf (.instDst false tail dbuf)))
  | .endCommit => some ({ s with committing := false }.goto p .user)

/-- Power-on: memory is zero, and process `p` starts `recover_from_log`. -/
def boot (start : Nat) (s : Sys P) (p : P) : Sys P :=
  { s with
    buf := fun _ => Buf.zero
    lru := (List.finRange NBUF).reverse
    lh := []
    outstanding := 0
    committing := false
    pc := Function.update (fun _ => .user) p (.bget start .readHead)
    ready := false
    panicked := none
    op := fun _ => none
    installed := 0
    pend := [] }

end Sys

variable {P : Type} [DecidableEq P]

/-- A call of a process that is at `user` and outside a panic. -/
def Sys.call (s : Sys P) : Label P → Option (Sys P)
  | .beginOp p => if s.op p = none then s.beginOp p else none
  | .bread p b => some (s.bget p b .user)
  | .modify p i d =>
    if (s.op p).isSome ∧ (s.buf i).lock = some p then
      some (s.setBuf i { s.buf i with data := d, dirty := true })
    else none
  | .logWrite p i =>
    match s.op p with
    | some o => if (s.buf i).lock = some p then some (s.logWrite p o i) else none
    | none => none
  | .brelse p i =>
    if (s.buf i).lock = some p then some ((s.releasesleep i).goto p (.unref i .user)) else none
  | .endOp p => if (s.op p).isSome then some (s.endOp p) else none
  | .run _ | .crash _ => none

def Label.proc : Label P → P
  | .beginOp p | .bread p _ | .modify p _ _ | .logWrite p _ | .brelse p _ | .endOp p | .run p
  | .crash p => p

/-- One step of the machine. -/
def step (start : Nat) (s : Sys P) (a : Label P) : Option (Sys P) :=
  match a with
  | .crash p => some (s.boot start p)
  | .run p => if s.panicked = none then s.run start p else none
  | a => if s.panicked = none ∧ s.ready = true ∧ s.pc a.proc = .user then s.call a else none

/-- A disk that is powered on for the first time, with process `p` to recover. -/
def powerOn (start : Nat) (disk : Nat → Block) (p : P) : Sys P :=
  Sys.boot start
    { disk, buf := fun _ => Buf.zero, lru := [], lh := [], outstanding := 0, committing := false,
      pc := fun _ => .user, ready := false, panicked := none, op := fun _ => none, installed := 0,
      nextOp := 0, trace := [], pend := [], groups := [] } p

/-! ## What a step can be -/

/-- The calls of processes, with what each of them finds. -/
inductive CallStep (s : Sys P) : Label P → Sys P → Prop
  | beginOp (p : P) : s.op p = none → s.committing = false →
      s.lh.length + (s.outstanding + 1) * MAXOPBLOCKS ≤ LOGBLOCKS →
      CallStep s (.beginOp p) { s with
        outstanding := s.outstanding + 1
        nextOp := s.nextOp + 1
        op := Function.update s.op p (some ⟨s.nextOp, [], 0⟩) }
  | bread (p : P) (b : Nat) : CallStep s (.bread p b) (s.bget p b .user)
  | modify (p : P) (i : BufId) (d : Block) : (s.op p).isSome = true → (s.buf i).lock = some p →
      CallStep s (.modify p i d) (s.setBuf i { s.buf i with data := d, dirty := true })
  | tooBig (p : P) (o : Op) (i : BufId) : s.op p = some o → (s.buf i).lock = some p →
      LOGBLOCKS ≤ s.lh.length → CallStep s (.logWrite p i) (s.panic .tooBig)
  | outside (p : P) (o : Op) (i : BufId) : s.op p = some o → s.outstanding < 1 →
      s.lh.length < LOGBLOCKS → CallStep s (.logWrite p i) (s.panic .outsideTrans)
  | absorb (p : P) (o : Op) (i : BufId) : s.op p = some o → (s.buf i).lock = some p →
      (s.buf i).blockno ∈ s.lh → s.lh.length < LOGBLOCKS →
      CallStep s (.logWrite p i) { s.setBuf i { s.buf i with dirty := false } with
        op := Function.update s.op p (some (o.log (s.buf i).blockno))
        trace := s.trace ++ [⟨o.id, (s.buf i).blockno, (s.buf i).data⟩]
        pend := s.pend ++ [⟨o.id, (s.buf i).blockno, (s.buf i).data⟩] }
  | add (p : P) (o : Op) (i : BufId) : s.op p = some o → (s.buf i).lock = some p →
      (s.buf i).blockno ∉ s.lh → s.lh.length < LOGBLOCKS →
      CallStep s (.logWrite p i)
        { s.setBuf i { s.buf i with dirty := false, refcnt := (s.buf i).refcnt + 1 } with
          lh := s.lh ++ [(s.buf i).blockno]
          op := Function.update s.op p
            (some { o.log (s.buf i).blockno with added := o.added + 1 })
          trace := s.trace ++ [⟨o.id, (s.buf i).blockno, (s.buf i).data⟩]
          pend := s.pend ++ [⟨o.id, (s.buf i).blockno, (s.buf i).data⟩] }
  | brelse (p : P) (i : BufId) : (s.buf i).lock = some p →
      CallStep s (.brelse p i) ((s.releasesleep i).goto p (.unref i .user))
  | endPanic (p : P) : (s.op p).isSome = true → s.committing = true →
      CallStep s (.endOp p) ({ s with
        outstanding := s.outstanding - 1, op := Function.update s.op p none }.panic .committing)
  | endLast (p : P) : (s.op p).isSome = true → s.committing = false → s.outstanding - 1 = 0 →
      CallStep s (.endOp p) ({ s with
        outstanding := s.outstanding - 1, op := Function.update s.op p none,
        committing := true }.goto p .commit)
  | endOther (p : P) : (s.op p).isSome = true → s.committing = false → s.outstanding - 1 ≠ 0 →
      CallStep s (.endOp p) { s with
        outstanding := s.outstanding - 1, op := Function.update s.op p none }

theorem call_cases {s s' : Sys P} {a : Label P} (hs : s.call a = some s') : CallStep s a s' := by
  cases a with
  | beginOp p =>
    simp only [Sys.call, Sys.beginOp] at hs
    split at hs
    next hop =>
      split at hs
      next => exact absurd hs.symm (Option.some_ne_none _)
      next hcom =>
        split at hs
        next => exact absurd hs.symm (Option.some_ne_none _)
        next hroom =>
          obtain rfl := Option.some.inj hs
          exact .beginOp p hop (by simpa using hcom) (Nat.le_of_not_lt hroom)
    next => exact absurd hs.symm (Option.some_ne_none _)
  | bread p b =>
    obtain rfl := Option.some.inj hs
    exact .bread p b
  | modify p i d =>
    simp only [Sys.call] at hs
    split at hs
    next h =>
      obtain rfl := Option.some.inj hs
      exact .modify p i d h.1 h.2
    next => exact absurd hs.symm (Option.some_ne_none _)
  | logWrite p i =>
    simp only [Sys.call] at hs
    split at hs
    next o ho =>
      split at hs
      next hl =>
        obtain rfl := Option.some.inj hs
        unfold Sys.logWrite
        simp only
        split
        next hbig => exact .tooBig p o i ho hl hbig
        next hroom =>
          have hroom : s.lh.length < LOGBLOCKS := Nat.lt_of_not_le hroom
          split
          next hout => exact .outside p o i ho hout hroom
          next =>
            split
            next hmem => exact .absorb p o i ho hl hmem hroom
            next hmem => exact .add p o i ho hl hmem hroom
      next => exact absurd hs.symm (Option.some_ne_none _)
    next => exact absurd hs.symm (Option.some_ne_none _)
  | brelse p i =>
    simp only [Sys.call] at hs
    split at hs
    next hl =>
      obtain rfl := Option.some.inj hs
      exact .brelse p i hl
    next => exact absurd hs.symm (Option.some_ne_none _)
  | endOp p =>
    simp only [Sys.call] at hs
    split at hs
    next hop =>
      obtain rfl := Option.some.inj hs
      unfold Sys.endOp
      simp only
      split
      next hcom => exact .endPanic p hop hcom
      next hcom =>
        have hcom : s.committing = false := by simpa using hcom
        split
        next hz => exact .endLast p hop hcom hz
        next hz => exact .endOther p hop hcom hz
    next => exact absurd hs.symm (Option.some_ne_none _)
  | run p => exact absurd hs.symm (Option.some_ne_none _)
  | crash p => exact absurd hs.symm (Option.some_ne_none _)

/-- **What a step can be**: a crash, a step inside `log.c` or `bio.c`, or a call. -/
theorem step_cases {start : Nat} {s s' : Sys P} {a : Label P} (hs : step start s a = some s') :
    (∃ p, a = .crash p ∧ s' = s.boot start p) ∨
    (∃ p, a = .run p ∧ s.panicked = none ∧ s.run start p = some s') ∨
    (s.panicked = none ∧ s.ready = true ∧ s.pc a.proc = .user ∧ CallStep s a s') := by
  unfold step at hs
  split at hs
  next p => exact .inl ⟨p, rfl, (Option.some.inj hs).symm⟩
  next p =>
    split at hs
    next hn => exact .inr (.inl ⟨p, rfl, hn, hs⟩)
    next => exact absurd hs.symm (Option.some_ne_none _)
  next =>
    split at hs
    next hg => exact .inr (.inr ⟨hg.1, hg.2.1, hg.2.2, call_cases hs⟩)
    next => exact absurd hs.symm (Option.some_ne_none _)

end Xv6.Log
