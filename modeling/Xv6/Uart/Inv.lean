import Xv6.Uart.Step
import Mathlib.Data.Fintype.Option
import Mathlib.Data.Fintype.EquivFin

/-!
# The invariant of `uart.c`

Four bundles. `LockInv`: who holds `tx_lock`, and which hart a process in `uartwrite` is on.
`PlicInv`: a claimed interrupt is served by one hart. `SendInv`: of `uartwrite` there is a byte in
the FIFO only while `tx_busy` is set, and of each hart at most the one it has written since it
last found the FIFO empty; so no more than one for each hart, and one. `WakeInv`: whoever sleeps
waits for `tx_busy`, and while `tx_busy` is set the UART has a byte to send, or its interrupt is
up, or a hart is on the way to the test. `ReadInv`: what has come in.
-/

namespace Xv6.Uart

open Lib

variable {C P : Type*}

/-- The places with `tx_lock`. -/
def Pc.holds : Pc → Bool
  | .top | .wait | .write => true
  | .enter | .asleep | .woken => false

def Ctl.holds : Ctl → Bool
  | .uart pc _ _ _ => pc.holds
  | .user | .batch _ => false

def Ctl.asleep : Ctl → Bool
  | .uart .asleep _ _ _ => true
  | _ => false

/-- What is left of the batch that a process is writing. -/
def Ctl.left : Ctl → List UInt8
  | .uart _ _ buf i => buf.drop i
  | .user | .batch _ => []

/-- How much of its `consolewrite` a process has copied in. -/
def Ctl.copied : Ctl → Nat
  | .user => 0
  | .batch f => f.i
  | .uart _ f buf _ => f.i + buf.length

def Stage.holds : Stage → Bool
  | .lsr | .clear | .wake | .release => true
  | _ => false

/-- The interrupt that a hart has claimed; 0 for none. -/
def Stage.irq : Stage → Nat
  | .claim => 0
  | .disk => VIRTIO0_IRQ
  | .complete irq => irq
  | _ => UART0_IRQ

namespace Hart

def holds : Hart P → Bool
  | .write _ => true
  | .intr st => st.holds
  | .other | .put _ _ _ _ => false

def irq : Hart P → Nat
  | .put true _ _ _ => UART0_IRQ
  | .intr st => st.irq
  | _ => 0

/-- It has found the FIFO empty, and is about to write. -/
def ready : Hart P → Bool
  | .put _ true _ _ => true
  | _ => false

/-- What it is going to print. -/
def left : Hart P → List UInt8
  | .put _ _ b bs => b :: bs
  | _ => []

/-- `uartintr` before `tx_busy = 0`. -/
def early : Hart P → Bool
  | .intr .acquire | .intr .lsr | .intr .clear => true
  | _ => false

end Hart

/-- One of the bytes that `uartwrite` writes, or one of a hart's. -/
def Writer.key : Writer C P → Option C
  | .proc _ => none
  | .hart c => some c

def keys (s : Sys C P) : List (Option C) := s.uart.fifo.map fun x => x.1.key

/-- What `w` has left to write. -/
def left (s : Sys C P) : Writer C P → List UInt8
  | .proc p => (s.ctl p).left
  | .hart c => (s.hart c).left

variable [DecidableEq C] [DecidableEq P]

/-- The bytes of `w`. -/
def ofWriter (w : Writer C P) (l : List (Writer C P × UInt8)) : List UInt8 :=
  (l.filter fun x => x.1 = w).map Prod.snd

/-- Every byte asked for is sent, in the FIFO, or left. -/
def Bytes (s : Sys C P) : Prop :=
  ∀ w, ofWriter w (s.out ++ s.uart.fifo) ++ left s w = s.asked w

structure LockInv (s : Sys C P) : Prop where
  lock : ∀ c, (s.hart c).holds = true ↔ s.tx_lock = some c
  write : ∀ p, (s.ctl p).holds = true ↔ ∃ c, s.hart c = .write p

structure PlicInv (s : Sys C P) : Prop where
  claimed : ∀ irq ≠ 0, s.plic.claimed irq = true ↔ ∃ c, (s.hart c).irq = irq
  alone : ∀ c c', (s.hart c).irq = (s.hart c').irq → (s.hart c).irq ≠ 0 → c = c'
  known : ∀ c irq, s.hart c = .intr (.complete irq) → irq ∈ enabled

structure FifoInv (s : Sys C P) : Prop where
  nodup : (keys s).Nodup
  ready : ∀ c, (s.hart c).ready = true → some c ∉ keys s
  sent : none ∈ keys s → s.tx_busy = true ∧ ∀ c, s.hart c ≠ .intr .clear
  write : ∀ p f buf i, s.ctl p = .uart .write f buf i → s.tx_busy = false

structure SendInv (s : Sys C P) : Prop where
  lost : s.lost = []
  index : ∀ p pc f buf i, s.ctl p = .uart pc f buf i → pc ≠ .enter → pc ≠ .top → i < buf.length
  bytes : Bytes s
  copied : ∀ p, (s.asked (.proc p)).length = s.returned p + (s.ctl p).copied

structure WakeInv (s : Sys C P) : Prop where
  asleep : ∀ p, (s.ctl p).asleep = true → s.tx_busy = true ∨ ∃ c, s.hart c = .intr .wake
  coming : s.tx_busy = true → s.uart.fifo ≠ [] ∨ s.uart.thri = true ∨ ∃ c, (s.hart c).early = true

structure ReadInv (s : Sys C P) : Prop where
  typed : s.typed = s.read ++ s.uart.rx
  rhr : ∀ c, s.hart c = .intr .rhr → s.uart.rx ≠ []
  got : ∀ c b, s.hart c = .intr (.got b) → s.read = s.got ++ [b]
  idle : (∀ c b, s.hart c ≠ .intr (.got b)) → s.read = s.got

/-- The invariant. -/
structure Inv (s : Sys C P) : Prop where
  lock : LockInv s
  plic : PlicInv s
  fifo : FifoInv s
  send : SendInv s
  wake : WakeInv s
  read : ReadInv s

variable {s s' : Sys C P} {c : C} {p : P} {x : Hart P} {a : Act C P}

/-! ## `tx_lock` -/

omit [DecidableEq C] [DecidableEq P] in
theorem LockInv.alone (h : LockInv s) {c c' : C} (hc : (s.hart c).holds = true)
    (hc' : (s.hart c').holds = true) : c = c' :=
  Option.some.inj (((h.lock c).mp hc).symm.trans ((h.lock c').mp hc'))

theorem holds_wake (x : Ctl) : x.wake.holds = x.holds := by
  unfold Ctl.wake
  split <;> rfl

omit [DecidableEq P] in
/-- What is to be shown when a hart goes on to `x`. -/
theorem LockInv.hart (h : LockInv s) (hhart : s'.hart = Function.update s.hart c x)
    (hlock : ∀ c', c' ≠ c → (s'.tx_lock = some c' ↔ s.tx_lock = some c'))
    (hx : x.holds = true ↔ s'.tx_lock = some c)
    (hctl : ∀ p, (s'.ctl p).holds = true ↔
      x = .write p ∨ (s.ctl p).holds = true ∧ s.hart c ≠ .write p) : LockInv s' where
  lock c' := by
    rw [hhart]
    by_cases hc : c' = c
    · rw [hc, Function.update_self]
      exact hx
    · rw [Function.update_of_ne hc, hlock c' hc]
      exact h.lock c'
  write p := by
    rw [hctl p, hhart, Function.exists_update_iff s.hart fun _ y => y = .write p, h.write p]
    refine or_congr_right ⟨fun ⟨⟨c', hc'⟩, hne⟩ => ⟨c', fun he => hne (he ▸ hc'), hc'⟩,
      fun ⟨c', hne, hc'⟩ => ⟨⟨c', hc'⟩, fun hc => hne ?_⟩⟩
    exact h.alone (by rw [hc']; rfl) (by rw [hc]; rfl)

omit [DecidableEq P] in
/-- A hart goes on, and the lock is as it was. -/
theorem LockInv.stay (h : LockInv s) (hhart : s'.hart = Function.update s.hart c x)
    (hlock : s'.tx_lock = s.tx_lock) (hctl : ∀ p, (s'.ctl p).holds = (s.ctl p).holds)
    (hx : x.holds = (s.hart c).holds) (hold : ∀ p, s.hart c ≠ .write p) (hnew : ∀ p, x ≠ .write p) :
    LockInv s' := by
  refine h.hart hhart (fun c' _ => by rw [hlock]) ?_ fun p => ?_
  · rw [hx, hlock]
    exact h.lock c
  · rw [hctl p]
    exact ⟨fun hp => Or.inr ⟨hp, hold p⟩, fun hp => (hp.resolve_left (hnew p)).1⟩

omit [DecidableEq C] [DecidableEq P] in
/-- Nothing has happened but to a process, and not to its lock. -/
theorem LockInv.ctl (h : LockInv s) (hhart : s'.hart = s.hart) (hlock : s'.tx_lock = s.tx_lock)
    (hctl : ∀ p, (s'.ctl p).holds = (s.ctl p).holds) : LockInv s' where
  lock c := by
    rw [hhart, hlock]
    exact h.lock c
  write p := by
    rw [hctl, hhart]
    exact h.write p

omit [DecidableEq C] in
theorem goto_holds {y : Ctl} (hy : y.holds = (s.ctl p).holds) (q : P) :
    (Function.update s.ctl p y q).holds = (s.ctl q).holds := by
  by_cases hq : q = p
  · rw [hq, Function.update_self]
    exact hy
  · rw [Function.update_of_ne hq]

omit [DecidableEq P] in
theorem puts_holds (back : Bool) (bs : List UInt8) :
    (Hart.puts back bs : Hart P).holds = false := by
  cases bs with
  | nil => cases back <;> rfl
  | cons b bs => rfl

omit [DecidableEq P] in
theorem puts_ne_write (back : Bool) (bs : List UInt8) (p : P) : Hart.puts back bs ≠ .write p := by
  intro h
  have hw := puts_holds (P := P) back bs
  rw [h] at hw
  cases hw

section

omit [DecidableEq C] [DecidableEq P]

@[simp] theorem put_hart (w : Writer C P) (b : UInt8) : (s.put w b).hart = s.hart := by
  unfold Sys.put
  split <;> rfl

@[simp] theorem put_lock (w : Writer C P) (b : UInt8) : (s.put w b).tx_lock = s.tx_lock := by
  unfold Sys.put
  split <;> rfl

@[simp] theorem put_ctl (w : Writer C P) (b : UInt8) : (s.put w b).ctl = s.ctl := by
  unfold Sys.put
  split <;> rfl

@[simp] theorem put_plic (w : Writer C P) (b : UInt8) : (s.put w b).plic = s.plic := by
  unfold Sys.put
  split <;> rfl

@[simp] theorem put_typed (w : Writer C P) (b : UInt8) : (s.put w b).typed = s.typed := by
  unfold Sys.put
  split <;> rfl

@[simp] theorem put_read (w : Writer C P) (b : UInt8) : (s.put w b).read = s.read := by
  unfold Sys.put
  split <;> rfl

@[simp] theorem put_got (w : Writer C P) (b : UInt8) : (s.put w b).got = s.got := by
  unfold Sys.put
  split <;> rfl

@[simp] theorem put_rx (w : Writer C P) (b : UInt8) : (s.put w b).uart.rx = s.uart.rx := by
  unfold Sys.put
  split <;> rfl

end

theorem LockInv.move (h : LockInv s) (hm : Move s a s') : LockInv s' := by
  have hstill : ∀ {t : Sys C P} {x y : Hart P} {c : C}, t.hart = Function.update s.hart c y →
      t.tx_lock = s.tx_lock → t.ctl = s.ctl → s.hart c = x → (∀ p, x ≠ .write p) →
      (∀ p, y ≠ .write p) → y.holds = x.holds → LockInv t := fun {t x y c} hh hl ht hc hx hy hxy =>
    h.stay hh hl (fun p => by rw [ht]) (hc ▸ hxy) (hc ▸ hx) hy
  have hgoto : ∀ {t : Sys C P} {p : P} {x y : Ctl}, t.hart = s.hart → t.tx_lock = s.tx_lock →
      t.ctl = Function.update s.ctl p y → s.ctl p = x → y.holds = x.holds → LockInv t :=
    fun {t p x y} hh hl ht hp hy => h.ctl hh hl fun q => by
      rw [ht]
      exact goto_holds (hy.trans (congrArg _ hp.symm)) q
  -- a process gives up the lock
  have hdrop : ∀ {p : P} {c : C} {y : Ctl}, s.hart c = .write p → y.holds = false →
      LockInv (({ s with tx_lock := none }.setHart c .other).goto p y) := fun {p c y} hc hy => by
    have hlock : s.tx_lock = some c := (h.lock c).mp (by rw [hc]; rfl)
    refine h.hart (c := c) (x := .other) rfl (fun c' hne => ⟨nofun, fun hc' => ?_⟩)
      ⟨nofun, nofun⟩ fun q => ?_
    · exact absurd (Option.some.inj (hc'.symm.trans hlock)) hne
    · show (Function.update s.ctl p y q).holds = true ↔ _
      by_cases hq : q = p
      · rw [hq, Function.update_self, hy, hc]
        exact ⟨nofun, fun hp => (hp.resolve_left nofun).2.elim rfl⟩
      · rw [Function.update_of_ne hq, hc]
        refine ⟨fun hw => Or.inr ⟨hw, fun he => hq (Hart.write.inj he).symm⟩,
          fun hw => (hw.resolve_left nofun).1⟩
  cases hm with
  | call hp => exact hgoto rfl rfl rfl hp rfl
  | copied hp => exact hgoto rfl rfl rfl hp rfl
  | ret hp => exact hgoto rfl rfl rfl hp rfl
  | kill => exact h.ctl rfl rfl (goto_holds (holds_wake _))
  | @acquire p c pc pc' f buf i hl hc hp hx =>
    refine h.hart (c := c) (x := .write p) rfl (fun c' hne => ⟨fun he => ?_, fun he => ?_⟩)
      ⟨fun _ => rfl, fun _ => rfl⟩ fun q => ?_
    · exact absurd (Option.some.inj he).symm hne
    · exact nomatch hl.symm.trans he
    · show (Function.update s.ctl p (.uart pc' f buf i) q).holds = true ↔ _
      by_cases hq : q = p
      · rw [hq, Function.update_self]
        refine ⟨fun _ => Or.inl rfl, fun _ => ?_⟩
        rcases hx with ⟨-, rfl⟩ | ⟨-, rfl⟩ <;> rfl
      · rw [Function.update_of_ne hq, hc]
        exact ⟨fun hw => Or.inr ⟨hw, nofun⟩,
          fun hw => (hw.resolve_left fun he => hq (Hart.write.inj he).symm).1⟩
  | more hc hp hi => exact hgoto rfl rfl rfl hp rfl
  | leave hc hp hi => exact hdrop hc rfl
  | sleep hc hp hb => exact hdrop hc rfl
  | free hc hp hb => exact hgoto rfl rfl rfl hp rfl
  | @thr p c f buf i hc hp =>
    refine hgoto (y := .uart .top f buf (i + 1)) (put_hart _ _) (put_lock _ _) ?_ hp rfl
    show Function.update (s.put _ _).ctl _ _ = _
    rw [put_ctl]
  | print hc => exact hstill rfl rfl rfl hc nofun (puts_ne_write _ _) (puts_holds _ _)
  | ready hc hf => exact hstill rfl rfl rfl hc nofun nofun rfl
  | @putc c back b bs hc =>
    refine hstill (y := .puts back bs) ?_ (put_lock _ _) (put_ctl _ _) hc nofun
      (puts_ne_write _ _) (puts_holds _ _)
    show Function.update (s.put _ _).hart _ _ = _
    rw [put_hart]
  | trap hc hb => exact hstill rfl rfl rfl hc nofun nofun rfl
  | @claim c irq hc hb =>
    refine hstill rfl rfl rfl hc nofun nofun ?_
    show (serve irq).holds = false
    unfold serve
    split <;> rfl
  | nothing hc hb => exact hstill rfl rfl rfl hc nofun nofun rfl
  | isr hc => exact hstill rfl rfl rfl hc nofun nofun rfl
  | @lock c hc hl =>
    refine h.hart (c := c) (x := .intr .lsr) rfl (fun c' hne => ⟨fun he => ?_, fun he => ?_⟩)
      ⟨fun _ => rfl, fun _ => rfl⟩ fun q => ?_
    · exact absurd (Option.some.inj he).symm hne
    · exact nomatch hl.symm.trans he
    · rw [hc]
      exact ⟨fun hw => Or.inr ⟨hw, nofun⟩, fun hw => (hw.resolve_left nofun).1⟩
  | idle hc hf => exact hstill rfl rfl rfl hc nofun nofun rfl
  | sending hc hf => exact hstill rfl rfl rfl hc nofun nofun rfl
  | clear hc => exact hstill rfl rfl rfl hc nofun nofun rfl
  | wake hc =>
    exact h.stay rfl rfl (fun _ => holds_wake _) (by rw [hc]; rfl) (by rw [hc]; exact nofun) nofun
  | @release c hc =>
    have hlock : s.tx_lock = some c := (h.lock c).mp (by rw [hc]; rfl)
    refine h.hart (c := c) (x := .intr .getc) rfl (fun c' hne => ⟨nofun, fun he => ?_⟩)
      ⟨nofun, nofun⟩ fun q => ?_
    · exact absurd (Option.some.inj (he.symm.trans hlock)) hne
    · rw [hc]
      exact ⟨fun hw => Or.inr ⟨hw, nofun⟩, fun hw => (hw.resolve_left nofun).1⟩
  | waiting hc hr => exact hstill rfl rfl rfl hc nofun nofun rfl
  | empty hc hr => exact hstill rfl rfl rfl hc nofun nofun rfl
  | rhr hc => exact hstill rfl rfl rfl hc nofun nofun rfl
  | disk hc => exact hstill rfl rfl rfl hc nofun nofun rfl
  | complete hc => exact hstill rfl rfl rfl hc nofun nofun rfl
  | consoleintr hc => exact hstill rfl rfl rfl hc nofun (puts_ne_write _ _) (puts_holds _ _)
  | send => exact ⟨h.lock, h.write⟩
  | input => exact ⟨h.lock, h.write⟩
  | full => exact h
  | gateway => exact ⟨h.lock, h.write⟩
  | raise => exact ⟨h.lock, h.write⟩

/-! ## The PLIC -/

omit [DecidableEq C] [DecidableEq P] in
theorem PlicInv.stay (h : PlicInv s) (hplic : s'.plic.claimed = s.plic.claimed)
    (hhart : ∀ c, (s'.hart c).irq = (s.hart c).irq)
    (hknown : ∀ c irq, s'.hart c = .intr (.complete irq) → irq ∈ enabled) : PlicInv s' where
  claimed irq hi := by
    rw [hplic, h.claimed irq hi]
    exact exists_congr fun c => by rw [hhart c]
  alone c c' := by
    rw [hhart c, hhart c']
    exact h.alone c c'
  known := hknown

section

omit [DecidableEq P]

theorem complete_update (h : PlicInv s) (hx : ∀ irq, x = .intr (.complete irq) → irq ∈ enabled)
    (c' : C) (irq : Nat) (hc : Function.update s.hart c x c' = .intr (.complete irq)) :
    irq ∈ enabled := by
  by_cases he : c' = c
  · rw [he, Function.update_self] at hc
    exact hx irq hc
  · rw [Function.update_of_ne he] at hc
    exact h.known c' irq hc

theorem puts_complete (back : Bool) (bs : List UInt8) (irq : Nat)
    (h : (Hart.puts back bs : Hart P) = .intr (.complete irq)) : irq ∈ enabled := by
  cases bs with
  | nil => cases back <;> cases h
  | cons b bs => cases h

theorem irq_update (hx : x.irq = (s.hart c).irq) (c' : C) :
    (Function.update s.hart c x c').irq = (s.hart c').irq := by
  by_cases hc : c' = c
  · rw [hc, Function.update_self]
    exact hx
  · rw [Function.update_of_ne hc]

theorem puts_irq (back : Bool) (bs : List UInt8) :
    (Hart.puts back bs : Hart P).irq = if back then UART0_IRQ else 0 := by
  cases bs with
  | nil => cases back <;> rfl
  | cons b bs => cases back <;> rfl

end

theorem serve_irq {irq : Nat} (h : irq ∈ enabled) : (serve irq).irq = irq := by
  rcases enabled_cases h with rfl | rfl <;> rfl

theorem enabled_ne_zero {irq : Nat} (h : irq ∈ enabled) : irq ≠ 0 := by
  rcases enabled_cases h with rfl | rfl <;> decide

theorem claim_claimed {y : Plic} {irq : Nat} (h : y.best = some irq) :
    y.claim.2.claimed = Function.update y.claimed irq true := by
  unfold Plic.claim
  rw [h]

theorem PlicInv.move (h : PlicInv s) (hm : Move s a s') : PlicInv s' := by
  have hstill : ∀ {t : Sys C P} {y : Hart P} {c : C}, t.plic.claimed = s.plic.claimed →
      t.hart = Function.update s.hart c y → (∀ irq, y = .intr (.complete irq) → irq ∈ enabled) →
      y.irq = (s.hart c).irq → PlicInv t := fun {t y c} hp hh hk hy => by
    refine h.stay hp (fun c' => ?_) fun c' irq => ?_
    · rw [hh]
      exact irq_update hy c'
    · rw [hh]
      exact complete_update h hk c' irq
  have hback : ∀ back : Bool, ∀ b bs ready, (if back then UART0_IRQ else 0) =
      (Hart.put back ready b bs : Hart P).irq := fun back b bs ready => by cases back <;> rfl
  cases hm with
  | acquire hl hc => exact hstill rfl rfl nofun (by rw [hc]; rfl)
  | leave hc => exact hstill rfl rfl nofun (by rw [hc]; rfl)
  | sleep hc => exact hstill rfl rfl nofun (by rw [hc]; rfl)
  | @thr p c f buf i hc =>
    have hp : (s.put (.proc p) (buf.getD i 0)).plic = s.plic := put_plic _ _
    have hh : (s.put (.proc p) (buf.getD i 0)).hart = s.hart := put_hart _ _
    refine h.stay (congrArg _ hp) (fun c' => congrArg (fun f => (f c').irq) hh) fun c' irq hc' => ?_
    exact h.known c' irq ((congrArg (fun f => f c') hh).symm.trans hc')
  | print hc => exact hstill rfl rfl (puts_complete _ _) (by rw [hc, puts_irq]; rfl)
  | ready hc => exact hstill rfl rfl nofun (by rw [hc, ← hback, ← hback])
  | @putc c back b bs hc =>
    refine hstill (y := .puts back bs) (congrArg _ (put_plic _ _)) ?_ (puts_complete _ _)
      (by rw [hc, puts_irq, ← hback])
    show Function.update (s.put _ _).hart _ _ = _
    rw [put_hart]
  | trap hc => exact hstill rfl rfl nofun (by rw [hc]; rfl)
  | @claim c irq hc hb =>
    obtain ⟨he, -, hfree⟩ := best_some hb
    have hno : ∀ c', (s.hart c').irq ≠ irq := fun c' hc' => by
      rw [(h.claimed irq (enabled_ne_zero he)).mpr ⟨c', hc'⟩] at hfree
      cases hfree
    refine ⟨fun i hi => ?_, fun c₁ c₂ => ?_, complete_update (s := s) h fun i hi => ?_⟩
    · show s.plic.claim.2.claimed i = true ↔
        ∃ c', (Function.update s.hart c (.intr (serve irq)) c').irq = i
      rw [claim_claimed hb, Function.exists_update_iff s.hart fun _ y => y.irq = i]
      by_cases hirq : i = irq
      · rw [hirq, Function.update_self]
        exact ⟨fun _ => Or.inl (serve_irq he), fun _ => rfl⟩
      · rw [Function.update_of_ne hirq, h.claimed i hi]
        refine ⟨fun ⟨c', hc'⟩ => Or.inr ⟨c', fun hcc => hi ?_, hc'⟩, fun hor => ?_⟩
        · rw [← hc', hcc, hc]
          rfl
        · rcases hor with hs | ⟨c', -, hc'⟩
          · exact absurd (hs.symm.trans (serve_irq he)) hirq
          · exact ⟨c', hc'⟩
    · show (Function.update s.hart c (.intr (serve irq)) c₁).irq =
        (Function.update s.hart c (.intr (serve irq)) c₂).irq →
          (Function.update s.hart c (.intr (serve irq)) c₁).irq ≠ 0 → c₁ = c₂
      have hs : (Hart.intr (serve irq) : Hart P).irq = irq := serve_irq he
      intro heq hne
      by_cases h₁ : c₁ = c
      · by_cases h₂ : c₂ = c
        · exact h₁.trans h₂.symm
        · rw [h₁, Function.update_self, Function.update_of_ne h₂, hs] at heq
          exact absurd heq.symm (hno c₂)
      · rw [Function.update_of_ne h₁] at heq hne
        by_cases h₂ : c₂ = c
        · rw [h₂, Function.update_self, hs] at heq
          exact absurd heq (hno c₁)
        · rw [Function.update_of_ne h₂] at heq
          exact h.alone c₁ c₂ heq hne
    · unfold serve at hi
      split at hi <;> cases hi
  | nothing hc => exact hstill rfl rfl nofun (by rw [hc]; rfl)
  | isr hc => exact hstill rfl rfl nofun (by rw [hc]; rfl)
  | lock hc => exact hstill rfl rfl nofun (by rw [hc]; rfl)
  | idle hc => exact hstill rfl rfl nofun (by rw [hc]; rfl)
  | sending hc => exact hstill rfl rfl nofun (by rw [hc]; rfl)
  | clear hc => exact hstill rfl rfl nofun (by rw [hc]; rfl)
  | wake hc => exact hstill rfl rfl nofun (by rw [hc]; rfl)
  | release hc => exact hstill rfl rfl nofun (by rw [hc]; rfl)
  | waiting hc => exact hstill rfl rfl nofun (by rw [hc]; rfl)
  | empty hc =>
    refine hstill rfl rfl (fun irq he => ?_) (by rw [hc]; rfl)
    rw [← Stage.complete.inj (Hart.intr.inj he)]
    exact List.mem_cons_of_mem _ List.mem_cons_self
  | rhr hc => exact hstill rfl rfl nofun (by rw [hc]; rfl)
  | disk hc =>
    refine hstill rfl rfl (fun irq he => ?_) (by rw [hc]; rfl)
    rw [← Stage.complete.inj (Hart.intr.inj he)]
    exact List.mem_cons_self
  | @complete c irq hc =>
    refine ⟨fun i hi => ?_, fun c₁ c₂ => ?_, complete_update (s := s) h nofun⟩
    · show Function.update s.plic.claimed irq false i = true ↔
        ∃ c', (Function.update s.hart c .other c').irq = i
      rw [Function.exists_update_iff s.hart fun _ y => y.irq = i]
      by_cases hirq : i = irq
      · rw [hirq, Function.update_self]
        refine ⟨nofun, fun hor => ?_⟩
        rcases hor with hz | ⟨c', hne, hc'⟩
        · exact absurd (hirq.trans hz.symm) hi
        · refine absurd (h.alone c' c ?_ ?_) hne
          · rw [hc', hc]
            rfl
          · rw [hc', ← hirq]
            exact hi
      · rw [Function.update_of_ne hirq, h.claimed i hi]
        refine ⟨fun ⟨c', hc'⟩ => Or.inr ⟨c', fun hcc => hirq ?_, hc'⟩, fun hor => ?_⟩
        · rw [← hc', hcc, hc]
          rfl
        · rcases hor with hz | ⟨c', -, hc'⟩
          · exact absurd hz.symm hi
          · exact ⟨c', hc'⟩
    · show (Function.update s.hart c .other c₁).irq =
        (Function.update s.hart c .other c₂).irq →
          (Function.update s.hart c .other c₁).irq ≠ 0 → c₁ = c₂
      intro heq hne
      by_cases h₁ : c₁ = c
      · rw [h₁, Function.update_self] at hne
        exact absurd rfl hne
      · by_cases h₂ : c₂ = c
        · rw [heq, h₂, Function.update_self] at hne
          exact absurd rfl hne
        · rw [Function.update_of_ne h₁] at heq hne
          rw [Function.update_of_ne h₂] at heq
          exact h.alone c₁ c₂ heq hne
  | consoleintr hc => exact hstill rfl rfl (puts_complete _ _) (by rw [hc, puts_irq]; rfl)
  | _ => exact ⟨h.claimed, h.alone, h.known⟩

end Xv6.Uart
