import Xv6.Lib.Run
import Mathlib.Data.Fintype.Basic
import Mathlib.Data.UInt

/-!
# `uart.c`: output, input and the interrupt

Any harts, and any processes in `consolewrite`, which hands what it copies in to `uartwrite`,
32 bytes at a time. Beside them harts print with `uartputc_sync` (`printf`, and the echo of
`consoleintr`), and take the interrupts of the UART and of the disk from the PLIC as `devintr`
does.

A hart that is in none of this is `other`; only then does it take an interrupt. A process that
holds `tx_lock` keeps its hart, as interrupts are off; `sleep` gives up the lock and marks the
process in one step. A turn of a loop that waits for the UART or for a lock and does not get it
changes nothing, and is no step.

The UART is a 16550 with its FIFOs enabled, and so are both its interrupts. `LSR_TX_IDLE` says
that the transmit FIFO is empty. The interrupt for it comes up when the FIFO runs empty and goes
with the next byte written, or with a read of `ISR` that finds nothing received. What is written
to a full FIFO is lost, and what comes in to one.

The PLIC takes the level of a line at any time; until a claim is completed it gives the interrupt
to nobody else. Both priorities are 1, so that the lower number goes first. No modelled code
panics.

What `consoleintr` echoes, `printf` prints, and whether `either_copyin` works, is left to the
label. The last fields of `Sys` are bookkeeping: what the line has sent and what was lost, with
who wrote it; what every writer was given to write, and what `consolewrite` returned in sum; what
came in, what was read of it, and what `consoleintr` was called with.
-/

namespace Xv6.Uart

open Lib

def UART0_IRQ : Nat := 10
def VIRTIO0_IRQ : Nat := 1

def LSR_RX_READY : UInt8 := 1
def LSR_TX_IDLE : UInt8 := 32

/-- What each of the two FIFOs has room for. -/
def FIFO : Nat := 16

def NCPU : Nat := 8

/-- `sizeof(buf)` in `consolewrite`. -/
def BATCH : Nat := 32

/-- Who writes to `THR`: `uartwrite`, called by a process, or `uartputc_sync` on a hart. -/
inductive Writer (C P : Type*)
  | proc (p : P)
  | hart (c : C)
  deriving DecidableEq

/-- The device: the transmit FIFO, the receive FIFO, and whether the interrupt of the former
is up. -/
structure Dev (C P : Type*) where
  fifo : List (Writer C P × UInt8)
  rx : List UInt8
  thri : Bool

structure Plic where
  pending : Nat → Bool
  claimed : Nat → Bool

/-- Locals of `consolewrite`. -/
structure Frame where
  n : Int
  i : Nat
  deriving DecidableEq

/-- Places in `uartwrite`: before `acquire`; at `while(i < n)`; at `while(tx_busy != 0)`; before
`WriteReg(THR, buf[i])`; asleep; made runnable, before the `acquire` at the end of `sleep`. -/
inductive Pc
  | enter | top | wait | write | asleep | woken
  deriving DecidableEq, Repr

inductive Ctl
  | user
  /-- At `while(i < n)` of `consolewrite`. -/
  | batch (f : Frame)
  /-- In `uartwrite(buf, nn)`. -/
  | uart (pc : Pc) (f : Frame) (buf : List UInt8) (i : Nat)
  deriving DecidableEq

/-- Places in `devintr`, `uartintr` and `uartgetc`. -/
inductive Stage
  /-- Before `plic_claim()`. -/
  | claim
  /-- Before `ReadReg(ISR)`. -/
  | isr
  /-- Before `acquire(&tx_lock)`. -/
  | acquire
  /-- Before `if(ReadReg(LSR) & LSR_TX_IDLE)`. -/
  | lsr
  /-- Before `tx_busy = 0`. -/
  | clear
  /-- Before `wakeup(&tx_chan)`. -/
  | wake
  /-- Before `release(&tx_lock)`. -/
  | release
  /-- `uartgetc`: before `if(ReadReg(LSR) & LSR_RX_READY)`. -/
  | getc
  /-- `uartgetc`: before `ReadReg(RHR)`. -/
  | rhr
  /-- Before `consoleintr(c)`. -/
  | got (c : UInt8)
  /-- Before `virtio_disk_intr()`. -/
  | disk
  /-- Before `plic_complete(irq)`. -/
  | complete (irq : Nat)
  deriving DecidableEq

/-- What a hart is doing. -/
inductive Hart (P : Type*)
  | other
  /-- It runs `p`, which holds `tx_lock` in `uartwrite`. -/
  | write (p : P)
  /-- `uartputc_sync(b)`, past its loop if `ready`, and then for each of `bs`; `back` if it is
  `consoleintr` that prints. -/
  | put (back ready : Bool) (b : UInt8) (bs : List UInt8)
  | intr (st : Stage)
  deriving DecidableEq

structure Sys (C P : Type*) where
  uart : Dev C P
  plic : Plic
  tx_lock : Option C
  tx_busy : Bool
  hart : C → Hart P
  ctl : P → Ctl
  out : List (Writer C P × UInt8)
  lost : List (Writer C P × UInt8)
  asked : Writer C P → List UInt8
  returned : P → Nat
  typed : List UInt8
  read : List UInt8
  got : List UInt8

/-- Labels: a process calls `consolewrite`, goes on there (with what `either_copyin` copies), is
killed, takes `tx_lock` on a hart; a hart prints, takes an interrupt, executes its next statement,
calls `consoleintr`, which echoes `bs`; the line takes a byte from the FIFO, or brings one in; the
PLIC sees the line of the UART, or that of the disk. -/
inductive Act (C P : Type*)
  | write (p : P) (n : Int)
  | batch (p : P) (bs : Option (List UInt8))
  | kill (p : P)
  | acquire (p : P) (c : C)
  | print (c : C) (bs : List UInt8)
  | trap (c : C)
  | run (c : C)
  | consoleintr (c : C) (bs : List UInt8)
  | send
  | input (b : UInt8)
  | gateway
  | raise

variable {C P : Type*}

/-- `ReadReg(LSR)`. -/
def Dev.lsr (u : Dev C P) : UInt8 :=
  (if u.rx.isEmpty then 0 else LSR_RX_READY) ||| (if u.fifo.isEmpty then LSR_TX_IDLE else 0)

/-- `ReadReg(ISR)`, which tells of received data first. -/
def Dev.readIsr (u : Dev C P) : Dev C P := if u.rx.isEmpty then { u with thri := false } else u

/-- The interrupt line. -/
def Dev.line (u : Dev C P) : Bool := u.thri || !u.rx.isEmpty

/-- What is enabled by `plicinithart`, in the order of service. -/
def enabled : List Nat := [VIRTIO0_IRQ, UART0_IRQ]

/-- The interrupt that the PLIC has for a hart. -/
def Plic.best (x : Plic) : Option Nat := enabled.find? fun irq => x.pending irq && !x.claimed irq

/-- `plic_claim()`. -/
def Plic.claim (x : Plic) : Nat × Plic :=
  match x.best with
  | none => (0, x)
  | some irq => (irq,
    { pending := Function.update x.pending irq false
      claimed := Function.update x.claimed irq true })

/-- `plic_complete(irq)`. -/
def Plic.complete (x : Plic) (irq : Nat) : Plic :=
  { x with claimed := Function.update x.claimed irq false }

def Plic.raise (x : Plic) (irq : Nat) : Plic :=
  { x with pending := Function.update x.pending irq true }

/-- SLEEPING becomes RUNNABLE. -/
def Ctl.wake : Ctl → Ctl
  | .uart .asleep f buf i => .uart .woken f buf i
  | c => c

/-- A hart that has `bs` to print. -/
def Hart.puts (back : Bool) : List UInt8 → Hart P
  | [] => if back then .intr .getc else .other
  | b :: bs => .put back false b bs

namespace Sys

variable [DecidableEq C] [DecidableEq P]

def goto (s : Sys C P) (p : P) (x : Ctl) : Sys C P := { s with ctl := Function.update s.ctl p x }

def setHart (s : Sys C P) (c : C) (h : Hart P) : Sys C P :=
  { s with hart := Function.update s.hart c h }

/-- `WriteReg(THR, b)`. -/
def put (s : Sys C P) (w : Writer C P) (b : UInt8) : Sys C P :=
  if s.uart.fifo.length < FIFO then
    { s with uart := { s.uart with fifo := s.uart.fifo ++ [(w, b)], thri := false } }
  else { s with uart := { s.uart with thri := false }, lost := s.lost ++ [(w, b)] }

/-- `wakeup(&tx_chan)`. -/
def wakeup (s : Sys C P) : Sys C P := { s with ctl := fun p => (s.ctl p).wake }

/-- `w` is given `bs` to write. -/
def ask (s : Sys C P) (w : Writer C P) (bs : List UInt8) : Sys C P :=
  { s with asked := Function.update s.asked w (s.asked w ++ bs) }

/-- `return i` of `consolewrite`. -/
def ret (s : Sys C P) (p : P) (f : Frame) : Sys C P :=
  { s with returned := Function.update s.returned p (s.returned p + f.i) }.goto p .user

/-- The loop of `consolewrite`. -/
def batch (s : Sys C P) (p : P) (bs : Option (List UInt8)) : Option (Sys C P) :=
  match s.ctl p with
  | .batch f =>
    if f.i < f.n then
      match bs with
      | none => some (s.ret p f)
      | some bs =>
        if bs.length = min BATCH (f.n - f.i).toNat then
          some ((s.ask (.proc p) bs).goto p (.uart .enter f bs 0))
        else none
    else some (s.ret p f)
  | _ => none

/-- The next statement of `uartwrite`, with the lock held. -/
def runWrite (s : Sys C P) (c : C) (p : P) : Option (Sys C P) :=
  match s.ctl p with
  | .uart .top f buf i =>
    if i < buf.length then some (s.goto p (.uart .wait f buf i))
    else some (({ s with tx_lock := none }.setHart c .other).goto p
      (.batch { f with i := f.i + buf.length }))
  | .uart .wait f buf i =>
    if s.tx_busy then
      some (({ s with tx_lock := none }.setHart c .other).goto p (.uart .asleep f buf i))
    else some (s.goto p (.uart .write f buf i))
  | .uart .write f buf i =>
    some ({ s.put (.proc p) (buf.getD i 0) with tx_busy := true }.goto p (.uart .top f buf (i + 1)))
  | _ => none

/-- The next statement of `uartputc_sync`. -/
def runPut (s : Sys C P) (c : C) (back ready : Bool) (b : UInt8) (bs : List UInt8) :
    Option (Sys C P) :=
  if ready then some ((s.put (.hart c) b).setHart c (.puts back bs))
  else if s.uart.lsr &&& LSR_TX_IDLE ≠ 0 then some (s.setHart c (.put back true b bs))
  else none

/-- The next statement of `devintr`, for a cause that is the PLIC. -/
def runIntr (s : Sys C P) (c : C) : Stage → Option (Sys C P)
  | .claim =>
    let irq := s.plic.claim.1
    let s := { s with plic := s.plic.claim.2 }
    if irq = UART0_IRQ then some (s.setHart c (.intr .isr))
    else if irq = VIRTIO0_IRQ then some (s.setHart c (.intr .disk))
    -- unexpected interrupt
    else if irq ≠ 0 then some (s.setHart c (.intr (.complete irq)))
    else some (s.setHart c .other)
  | .isr => some ({ s with uart := s.uart.readIsr }.setHart c (.intr .acquire))
  | .acquire =>
    if s.tx_lock = none then some ({ s with tx_lock := some c }.setHart c (.intr .lsr)) else none
  | .lsr =>
    if s.uart.lsr &&& LSR_TX_IDLE ≠ 0 then some (s.setHart c (.intr .clear))
    else some (s.setHart c (.intr .release))
  | .clear => some ({ s with tx_busy := false }.setHart c (.intr .wake))
  | .wake => some (s.wakeup.setHart c (.intr .release))
  | .release => some ({ s with tx_lock := none }.setHart c (.intr .getc))
  | .getc =>
    if s.uart.lsr &&& LSR_RX_READY ≠ 0 then some (s.setHart c (.intr .rhr))
    else some (s.setHart c (.intr (.complete UART0_IRQ)))
  | .rhr =>
    some ({ s with
      uart := { s.uart with rx := s.uart.rx.tail }
      read := s.read ++ [s.uart.rx.headD 0] }.setHart c (.intr (.got (s.uart.rx.headD 0))))
  | .got _ => none
  | .disk => some (s.setHart c (.intr (.complete VIRTIO0_IRQ)))
  | .complete irq => some ({ s with plic := s.plic.complete irq }.setHart c .other)

def run (s : Sys C P) (c : C) : Option (Sys C P) :=
  match s.hart c with
  | .other => none
  | .write p => s.runWrite c p
  | .put back ready b bs => s.runPut c back ready b bs
  | .intr st => s.runIntr c st

/-- The line takes a byte from the transmit FIFO. -/
def send (s : Sys C P) : Option (Sys C P) :=
  match s.uart.fifo with
  | [] => none
  | x :: fifo => some { s with
      uart := { s.uart with fifo := fifo, thri := s.uart.thri || fifo.isEmpty }
      out := s.out ++ [x] }

/-- A byte comes in. -/
def input (s : Sys C P) (b : UInt8) : Sys C P :=
  if s.uart.rx.length < FIFO then
    { s with uart := { s.uart with rx := s.uart.rx ++ [b] }, typed := s.typed ++ [b] }
  else s

end Sys

variable [DecidableEq C] [DecidableEq P]

/-- One step. -/
def step (s : Sys C P) : Act C P → Option (Sys C P)
  | .write p n => if s.ctl p = .user then some (s.goto p (.batch ⟨n, 0⟩)) else none
  | .batch p bs => s.batch p bs
  | .kill p => some (s.goto p (s.ctl p).wake)
  | .acquire p c =>
    if s.tx_lock = none ∧ s.hart c = .other then
      match s.ctl p with
      | .uart .enter f buf i =>
        some (({ s with tx_lock := some c }.setHart c (.write p)).goto p (.uart .top f buf i))
      | .uart .woken f buf i =>
        some (({ s with tx_lock := some c }.setHart c (.write p)).goto p (.uart .wait f buf i))
      | _ => none
    else none
  | .print c bs =>
    if s.hart c = .other then some ((s.ask (.hart c) bs).setHart c (.puts false bs)) else none
  | .trap c =>
    if s.hart c = .other ∧ s.plic.best ≠ none then some (s.setHart c (.intr .claim)) else none
  | .run c => s.run c
  | .consoleintr c bs =>
    match s.hart c with
    | .intr (.got b) =>
      some (({ s with got := s.got ++ [b] }.ask (.hart c) bs).setHart c (.puts true bs))
    | _ => none
  | .send => s.send
  | .input b => some (s.input b)
  | .gateway =>
    if s.uart.line = true ∧ s.plic.pending UART0_IRQ = false then
      some { s with plic := s.plic.raise UART0_IRQ }
    else none
  | .raise => some { s with plic := s.plic.raise VIRTIO0_IRQ }

/-- After `uartinit`, `plicinit` and `plicinithart`. -/
structure Init (s : Sys C P) : Prop where
  fifo : s.uart.fifo = []
  rx : s.uart.rx = []
  pending : ∀ irq ∉ enabled, s.plic.pending irq = false
  claimed : ∀ irq, s.plic.claimed irq = false
  tx_lock : s.tx_lock = none
  tx_busy : s.tx_busy = false
  hart : ∀ c, s.hart c = .other
  ctl : ∀ p, s.ctl p = .user
  out : s.out = []
  lost : s.lost = []
  asked : ∀ w, s.asked w = []
  returned : ∀ p, s.returned p = 0
  typed : s.typed = []
  read : s.read = []
  got : s.got = []

end Xv6.Uart
