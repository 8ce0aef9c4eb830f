import Xv6.Uart.Machine

/-!
# What a step of `uart.c` does

`Move` is the inversion of `step`: one constructor for each statement, with what its tests have
found.
-/

namespace Xv6.Uart

open Lib

variable {C P : Type*}

theorem lsr_idle {u : Dev C P} : u.lsr &&& LSR_TX_IDLE ≠ 0 ↔ u.fifo = [] := by
  unfold Dev.lsr
  rw [← List.isEmpty_iff]
  cases u.rx.isEmpty <;> cases u.fifo.isEmpty <;> decide

theorem lsr_ready {u : Dev C P} : u.lsr &&& LSR_RX_READY ≠ 0 ↔ u.rx ≠ [] := by
  unfold Dev.lsr
  rw [ne_eq u.rx, ← List.isEmpty_iff]
  cases u.rx.isEmpty <;> cases u.fifo.isEmpty <;> decide

theorem line_iff {u : Dev C P} : u.line = true ↔ u.thri = true ∨ u.rx ≠ [] := by
  unfold Dev.line
  rw [Bool.or_eq_true, Bool.not_eq_true', ne_eq, ← List.isEmpty_iff, Bool.not_eq_true]

theorem best_some {x : Plic} {irq : Nat} (h : x.best = some irq) :
    irq ∈ enabled ∧ x.pending irq = true ∧ x.claimed irq = false := by
  have hp := List.find?_some h
  rw [Bool.and_eq_true, Bool.not_eq_true'] at hp
  exact ⟨List.mem_of_find?_eq_some h, hp⟩

theorem best_none {x : Plic} (h : x.best = none) {irq : Nat} (hi : irq ∈ enabled)
    (hp : x.pending irq = true) : x.claimed irq = true := by
  have hn := List.find?_eq_none.mp h irq hi
  rw [hp, Bool.true_and, Bool.not_eq_true, Bool.not_eq_false'] at hn
  exact hn

theorem enabled_cases {irq : Nat} (h : irq ∈ enabled) : irq = UART0_IRQ ∨ irq = VIRTIO0_IRQ := by
  unfold enabled at h
  rcases List.mem_pair.mp h with rfl | rfl
  · exact Or.inr rfl
  · exact Or.inl rfl

/-- The handler of an enabled interrupt. -/
def serve (irq : Nat) : Stage := if irq = UART0_IRQ then .isr else .disk

variable [DecidableEq C] [DecidableEq P]

inductive Move (s : Sys C P) : Act C P → Sys C P → Prop
  | call {p : P} {n : Int} : s.ctl p = .user → Move s (.write p n) (s.goto p (.batch ⟨n, 0⟩))
  | copied {p : P} {f : Frame} {bs : List UInt8} : s.ctl p = .batch f → f.i < f.n →
      bs.length = min BATCH (f.n - f.i).toNat →
      Move s (.batch p (some bs)) ((s.ask (.proc p) bs).goto p (.uart .enter f bs 0))
  | ret {p : P} {f : Frame} {r : Option (List UInt8)} : s.ctl p = .batch f →
      Move s (.batch p r) (s.ret p f)
  | kill {p : P} : Move s (.kill p) (s.goto p (s.ctl p).wake)
  | acquire {p : P} {c : C} {pc pc' : Pc} {f : Frame} {buf : List UInt8} {i : Nat} :
      s.tx_lock = none → s.hart c = .other → s.ctl p = .uart pc f buf i →
      (pc = .enter ∧ pc' = .top) ∨ (pc = .woken ∧ pc' = .wait) →
      Move s (.acquire p c)
        (({ s with tx_lock := some c }.setHart c (.write p)).goto p (.uart pc' f buf i))
  | more {p : P} {c : C} {f : Frame} {buf : List UInt8} {i : Nat} : s.hart c = .write p →
      s.ctl p = .uart .top f buf i → i < buf.length →
      Move s (.run c) (s.goto p (.uart .wait f buf i))
  | leave {p : P} {c : C} {f : Frame} {buf : List UInt8} {i : Nat} : s.hart c = .write p →
      s.ctl p = .uart .top f buf i → buf.length ≤ i →
      Move s (.run c) (({ s with tx_lock := none }.setHart c .other).goto p
        (.batch { f with i := f.i + buf.length }))
  | sleep {p : P} {c : C} {f : Frame} {buf : List UInt8} {i : Nat} : s.hart c = .write p →
      s.ctl p = .uart .wait f buf i → s.tx_busy = true →
      Move s (.run c)
        (({ s with tx_lock := none }.setHart c .other).goto p (.uart .asleep f buf i))
  | free {p : P} {c : C} {f : Frame} {buf : List UInt8} {i : Nat} : s.hart c = .write p →
      s.ctl p = .uart .wait f buf i → s.tx_busy = false →
      Move s (.run c) (s.goto p (.uart .write f buf i))
  | thr {p : P} {c : C} {f : Frame} {buf : List UInt8} {i : Nat} : s.hart c = .write p →
      s.ctl p = .uart .write f buf i →
      Move s (.run c) ({ s.put (.proc p) (buf.getD i 0) with tx_busy := true }.goto p
        (.uart .top f buf (i + 1)))
  | print {c : C} {bs : List UInt8} : s.hart c = .other →
      Move s (.print c bs) ((s.ask (.hart c) bs).setHart c (.puts false bs))
  | ready {c : C} {back : Bool} {b : UInt8} {bs : List UInt8} :
      s.hart c = .put back false b bs → s.uart.fifo = [] →
      Move s (.run c) (s.setHart c (.put back true b bs))
  | putc {c : C} {back : Bool} {b : UInt8} {bs : List UInt8} : s.hart c = .put back true b bs →
      Move s (.run c) ((s.put (.hart c) b).setHart c (.puts back bs))
  | trap {c : C} : s.hart c = .other → s.plic.best ≠ none →
      Move s (.trap c) (s.setHart c (.intr .claim))
  | claim {c : C} {irq : Nat} : s.hart c = .intr .claim → s.plic.best = some irq →
      Move s (.run c) ({ s with plic := s.plic.claim.2 }.setHart c (.intr (serve irq)))
  | nothing {c : C} : s.hart c = .intr .claim → s.plic.best = none →
      Move s (.run c) (s.setHart c .other)
  | isr {c : C} : s.hart c = .intr .isr →
      Move s (.run c) ({ s with uart := s.uart.readIsr }.setHart c (.intr .acquire))
  | lock {c : C} : s.hart c = .intr .acquire → s.tx_lock = none →
      Move s (.run c) ({ s with tx_lock := some c }.setHart c (.intr .lsr))
  | idle {c : C} : s.hart c = .intr .lsr → s.uart.fifo = [] →
      Move s (.run c) (s.setHart c (.intr .clear))
  | sending {c : C} : s.hart c = .intr .lsr → s.uart.fifo ≠ [] →
      Move s (.run c) (s.setHart c (.intr .release))
  | clear {c : C} : s.hart c = .intr .clear →
      Move s (.run c) ({ s with tx_busy := false }.setHart c (.intr .wake))
  | wake {c : C} : s.hart c = .intr .wake →
      Move s (.run c) (s.wakeup.setHart c (.intr .release))
  | release {c : C} : s.hart c = .intr .release →
      Move s (.run c) ({ s with tx_lock := none }.setHart c (.intr .getc))
  | waiting {c : C} : s.hart c = .intr .getc → s.uart.rx ≠ [] →
      Move s (.run c) (s.setHart c (.intr .rhr))
  | empty {c : C} : s.hart c = .intr .getc → s.uart.rx = [] →
      Move s (.run c) (s.setHart c (.intr (.complete UART0_IRQ)))
  | rhr {c : C} : s.hart c = .intr .rhr →
      Move s (.run c) ({ s with
        uart := { s.uart with rx := s.uart.rx.tail }
        read := s.read ++ [s.uart.rx.headD 0] }.setHart c (.intr (.got (s.uart.rx.headD 0))))
  | disk {c : C} : s.hart c = .intr .disk →
      Move s (.run c) (s.setHart c (.intr (.complete VIRTIO0_IRQ)))
  | complete {c : C} {irq : Nat} : s.hart c = .intr (.complete irq) →
      Move s (.run c) ({ s with plic := s.plic.complete irq }.setHart c .other)
  | consoleintr {c : C} {b : UInt8} {bs : List UInt8} : s.hart c = .intr (.got b) →
      Move s (.consoleintr c bs)
        (({ s with got := s.got ++ [b] }.ask (.hart c) bs).setHart c (.puts true bs))
  | send {x : Writer C P × UInt8} {fifo : List (Writer C P × UInt8)} : s.uart.fifo = x :: fifo →
      Move s .send { s with
        uart := { s.uart with fifo := fifo, thri := s.uart.thri || fifo.isEmpty }
        out := s.out ++ [x] }
  | input {b : UInt8} : s.uart.rx.length < FIFO → Move s (.input b)
      { s with uart := { s.uart with rx := s.uart.rx ++ [b] }, typed := s.typed ++ [b] }
  | full {b : UInt8} : Move s (.input b) s
  | gateway : s.uart.line = true → s.plic.pending UART0_IRQ = false →
      Move s .gateway { s with plic := s.plic.raise UART0_IRQ }
  | raise : Move s .raise { s with plic := s.plic.raise VIRTIO0_IRQ }

variable {s s' : Sys C P} {c : C} {p : P}

theorem claim_fst {x : Plic} : x.claim.1 = x.best.getD 0 := by
  unfold Plic.claim
  cases x.best <;> rfl

theorem claim_none {x : Plic} (h : x.best = none) : x.claim.2 = x := by
  unfold Plic.claim
  rw [h]

theorem batch_move {r : Option (List UInt8)} (h : s.batch p r = some s') :
    Move s (.batch p r) s' := by
  unfold Sys.batch at h
  split at h
  next f hp =>
    split at h
    next hlt =>
      cases r with
      | none =>
        rw [← Option.some.inj h]
        exact .ret hp
      | some bs =>
        dsimp only at h
        split at h
        next hlen =>
          rw [← Option.some.inj h]
          exact .copied hp hlt hlen
        next => exact nomatch h
    next =>
      rw [← Option.some.inj h]
      exact .ret hp
  next => exact nomatch h

theorem runWrite_move (hc : s.hart c = .write p) (h : s.runWrite c p = some s') :
    Move s (.run c) s' := by
  unfold Sys.runWrite at h
  split at h
  next f buf i hp =>
    split at h
    next hi =>
      rw [← Option.some.inj h]
      exact .more hc hp hi
    next hi =>
      rw [← Option.some.inj h]
      exact .leave hc hp (Nat.not_lt.mp hi)
  next f buf i hp =>
    split at h
    next hb =>
      rw [← Option.some.inj h]
      exact .sleep hc hp hb
    next hb =>
      rw [← Option.some.inj h]
      exact .free hc hp (eq_false_of_ne_true hb)
  next f buf i hp =>
    rw [← Option.some.inj h]
    exact .thr hc hp
  next => exact nomatch h

theorem runPut_move {back ready : Bool} {b : UInt8} {bs : List UInt8}
    (hc : s.hart c = .put back ready b bs) (h : s.runPut c back ready b bs = some s') :
    Move s (.run c) s' := by
  unfold Sys.runPut at h
  split at h
  next hr =>
    subst hr
    rw [← Option.some.inj h]
    exact .putc hc
  next hr =>
    obtain rfl := eq_false_of_ne_true hr
    split at h
    next hl =>
      rw [← Option.some.inj h]
      exact .ready hc (lsr_idle.mp hl)
    next => exact nomatch h

theorem claim_move (hc : s.hart c = .intr .claim) (h : s.runIntr c .claim = some s') :
    Move s (.run c) s' := by
  unfold Sys.runIntr at h
  dsimp only at h
  rw [claim_fst] at h
  cases hb : s.plic.best with
  | none =>
    rw [hb, claim_none hb] at h
    rw [← Option.some.inj h]
    exact .nothing hc hb
  | some irq =>
    have hm := Move.claim hc hb
    rw [hb] at h
    rcases enabled_cases (best_some hb).1 with rfl | rfl
    · rw [← Option.some.inj h]
      exact hm
    · rw [← Option.some.inj h]
      exact hm

theorem runIntr_move {st : Stage} (hc : s.hart c = .intr st) (h : s.runIntr c st = some s') :
    Move s (.run c) s' := by
  cases st with
  | claim => exact claim_move hc h
  | isr => exact Option.some.inj h ▸ .isr hc
  | acquire =>
    unfold Sys.runIntr at h
    dsimp only at h
    split at h
    next hl => exact Option.some.inj h ▸ .lock hc hl
    next => exact nomatch h
  | lsr =>
    unfold Sys.runIntr at h
    dsimp only at h
    split at h
    next hl => exact Option.some.inj h ▸ .idle hc (lsr_idle.mp hl)
    next hl => exact Option.some.inj h ▸ .sending hc fun he => hl (lsr_idle.mpr he)
  | clear => exact Option.some.inj h ▸ .clear hc
  | wake => exact Option.some.inj h ▸ .wake hc
  | release => exact Option.some.inj h ▸ .release hc
  | getc =>
    unfold Sys.runIntr at h
    dsimp only at h
    split at h
    next hl => exact Option.some.inj h ▸ .waiting hc (lsr_ready.mp hl)
    next hl =>
      refine Option.some.inj h ▸ .empty hc ?_
      by_contra he
      exact hl (lsr_ready.mpr he)
  | rhr => exact Option.some.inj h ▸ .rhr hc
  | got b => exact nomatch h
  | disk => exact Option.some.inj h ▸ .disk hc
  | complete irq => exact Option.some.inj h ▸ .complete hc

theorem run_move (h : s.run c = some s') : Move s (.run c) s' := by
  unfold Sys.run at h
  split at h
  next => exact nomatch h
  next p hc => exact runWrite_move hc h
  next back ready b bs hc => exact runPut_move hc h
  next st hc => exact runIntr_move hc h

theorem step_move {a : Act C P} (h : step s a = some s') : Move s a s' := by
  cases a with
  | write p n =>
    unfold step at h
    dsimp only at h
    split at h
    next hp => exact Option.some.inj h ▸ .call hp
    next => exact nomatch h
  | batch p r => exact batch_move h
  | kill p => exact Option.some.inj h ▸ .kill
  | acquire p c =>
    unfold step at h
    dsimp only at h
    split at h
    next hl =>
      split at h
      next hp => exact Option.some.inj h ▸ .acquire hl.1 hl.2 hp (Or.inl ⟨rfl, rfl⟩)
      next hp => exact Option.some.inj h ▸ .acquire hl.1 hl.2 hp (Or.inr ⟨rfl, rfl⟩)
      next => exact nomatch h
    next => exact nomatch h
  | print c bs =>
    unfold step at h
    dsimp only at h
    split at h
    next hc => exact Option.some.inj h ▸ .print hc
    next => exact nomatch h
  | trap c =>
    unfold step at h
    dsimp only at h
    split at h
    next hc => exact Option.some.inj h ▸ .trap hc.1 hc.2
    next => exact nomatch h
  | run c => exact run_move h
  | consoleintr c bs =>
    unfold step at h
    dsimp only at h
    split at h
    next b hc => exact Option.some.inj h ▸ .consoleintr hc
    next => exact nomatch h
  | send =>
    unfold step Sys.send at h
    dsimp only at h
    split at h
    next => exact nomatch h
    next hf => exact Option.some.inj h ▸ .send hf
  | input b =>
    unfold step Sys.input at h
    dsimp only at h
    split at h
    next hr => exact Option.some.inj h ▸ .input hr
    next => exact Option.some.inj h ▸ .full
  | gateway =>
    unfold step at h
    dsimp only at h
    split at h
    next hl => exact Option.some.inj h ▸ .gateway hl.1 hl.2
    next => exact nomatch h
  | raise => exact Option.some.inj h ▸ .raise

end Xv6.Uart
