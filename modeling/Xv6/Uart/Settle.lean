import Xv6.Uart.Safe
import Xv6.Lib.Settle
import Xv6.Lib.Tally

/-!
# Output and input come to an end

What is done for those that have called and what has come in (`Internal`) is finite, and it does
not get stuck, in whatever order it is done: there is neither a lost wakeup nor an interrupt that
comes for ever.

> From every reachable state the run gets to one where all that was to be written has been sent,
> all that came in has been given to `consoleintr`, and every call has returned
> (`uart_settles`).

The rank has six places: what has come in, what is to be sent, whether the UART's interrupt is
up, how far the PLIC is with it (`epoch`), how far the handlers are, how far the processes are.
-/

namespace Xv6.Uart

open Lib

/-- No new call, no new input, no interrupt of another device, no `kkill`. -/
def Internal {C P : Type*} (_ : Sys C P) : Act C P → Prop
  | .batch _ _ | .acquire _ _ | .trap _ | .run _ | .consoleintr _ _ | .send | .gateway => True
  | .write _ _ | .kill _ | .print _ _ | .input _ | .raise => False

/-! ## The rank -/

/-- What is still to be copied in, and to be written. -/
def Ctl.cost : Ctl → Nat
  | .user => 0
  | .batch f => 3 * (f.n - f.i).toNat
  | .uart _ f buf i => 3 * (f.n - (f.i + buf.length : Nat)).toNat + 2 * (buf.length - i)

def Ctl.place : Ctl → Nat
  | .user | .uart .asleep _ _ _ => 0
  | .batch _ | .uart .write _ _ _ => 1
  | .uart .wait _ _ _ => 2
  | .uart .top _ _ _ | .uart .woken _ _ _ => 3
  | .uart .enter _ _ _ => 4

namespace Hart

variable {P : Type*}

/-- A byte that has been read. -/
def held : Hart P → Nat
  | .intr (.got _) => 1
  | _ => 0

/-- At the loop of `uartputc_sync`. -/
def spin : Hart P → Nat
  | .put _ false _ _ => 1
  | _ => 0

/-- How far the handler is; `best` says whether the PLIC has an interrupt to give. -/
def handler (best : Bool) : Hart P → Nat
  | .other | .write _ | .put _ _ _ _ => best.toNat
  | .intr .claim => (!best).toNat
  | .intr .isr => 8
  | .intr .acquire => 7
  | .intr .lsr => 6
  | .intr .clear => 5
  | .intr .wake => 4
  | .intr .release => 3
  | .intr .getc => 2
  | .intr .rhr | .intr .disk => 1
  | .intr (.got _) | .intr (.complete _) => 0

end Hart

/-- How far an interrupt that is being served is: its line may be up, with `rx` because of input,
and the PLIC may have it `pending` once more. -/
def served (thri rx pending : Bool) : Stage → Nat
  | .isr => if thri || rx then (if pending then 2 else 3) else if pending then 5 else 2
  | .complete _ => if thri || rx then (if pending then 6 else 7) else if pending then 4 else 1
  | _ =>
    if rx then (if pending then 0 else 1)
    else if thri then (if pending then 6 else 7)
    else if pending then 4 else 1

/-- How far an interrupt that is not being served is. -/
def unserved (line pending : Bool) : Nat :=
  if line then (if pending then 4 else 5) else if pending then 3 else 0

def Hart.epoch {P : Type*} (thri rx pending : Bool) (h : Hart P) : Nat :=
  if h.irq = UART0_IRQ then
    match h with
    | .intr st => served thri rx pending st
    | _ => served thri rx pending .getc
  else 0

variable {C P : Type*} [DecidableEq C] [DecidableEq P] [Fintype C] [Fintype P]
  {s s' : Sys C P} {c : C} {p : P} {x : Hart P} {a : Act C P}

def epoch (s : Sys C P) : Nat :=
  ∑ c, (s.hart c).epoch s.uart.thri (!s.uart.rx.isEmpty) (s.plic.pending UART0_IRQ) +
    if s.plic.claimed UART0_IRQ then 0 else unserved s.uart.line (s.plic.pending UART0_IRQ)

def inputs (s : Sys C P) : Nat := 2 * s.uart.rx.length + ∑ c, (s.hart c).held

def outputs (s : Sys C P) : Nat :=
  ∑ p, (s.ctl p).cost + 2 * ∑ c, (s.hart c).left.length + s.uart.fifo.length

def plics (s : Sys C P) : Nat :=
  epoch s + (2 * (s.plic.pending VIRTIO0_IRQ).toNat + (s.plic.claimed VIRTIO0_IRQ).toNat)

def handlers (s : Sys C P) : Nat := ∑ c, (s.hart c).handler s.plic.best.isSome

def places (s : Sys C P) : Nat := ∑ p, (s.ctl p).place + ∑ c, (s.hart c).spin

def rank (s : Sys C P) : List Nat :=
  [inputs s, outputs s, s.uart.thri.toNat, plics s, handlers s, places s]

omit [DecidableEq C] [DecidableEq P] [Fintype P] in
theorem epoch_served (h : PlicInv s) (hc : (s.hart c).irq = UART0_IRQ) : epoch s =
    (s.hart c).epoch s.uart.thri (!s.uart.rx.isEmpty) (s.plic.pending UART0_IRQ) := by
  have hcl : s.plic.claimed UART0_IRQ = true := (h.claimed UART0_IRQ (by decide)).mpr ⟨c, hc⟩
  unfold epoch
  rw [hcl, if_pos rfl, Nat.add_zero]
  refine Finset.sum_eq_single c (fun c' _ hne => if_neg fun hc' => hne ?_)
    fun hno => absurd (Finset.mem_univ c) hno
  refine h.alone c' c (hc'.trans hc.symm) ?_
  rw [hc']
  decide

omit [DecidableEq C] [DecidableEq P] [Fintype P] in
theorem epoch_unserved (h : PlicInv s) (hcl : s.plic.claimed UART0_IRQ = false) :
    epoch s = unserved s.uart.line (s.plic.pending UART0_IRQ) := by
  unfold epoch
  rw [hcl, if_neg Bool.false_ne_true]
  refine Nat.add_eq_right.mpr (Finset.sum_eq_zero fun c _ => if_neg fun hc => ?_)
  rw [(h.claimed UART0_IRQ (by decide)).mpr ⟨c, hc⟩] at hcl
  cases hcl

section

omit [DecidableEq C] [DecidableEq P]

theorem lower_outputs (h₀ : inputs s' ≤ inputs s) (h : outputs s' < outputs s) :
    Lower (rank s') (rank s) := lower_tail h₀ (lower_head h rfl) rfl

theorem lower_plics (h₀ : inputs s' ≤ inputs s) (h₁ : outputs s' ≤ outputs s)
    (h₂ : s'.uart.thri.toNat ≤ s.uart.thri.toNat) (h : plics s' < plics s) :
    Lower (rank s') (rank s) :=
  lower_tail h₀ (lower_tail h₁ (lower_tail h₂ (lower_head h rfl) rfl) rfl) rfl

theorem lower_handlers (h₀ : inputs s' ≤ inputs s) (h₁ : outputs s' ≤ outputs s)
    (h₂ : s'.uart.thri.toNat ≤ s.uart.thri.toNat) (h₃ : plics s' ≤ plics s)
    (h : handlers s' < handlers s) : Lower (rank s') (rank s) :=
  lower_tail h₀ (lower_tail h₁ (lower_tail h₂ (lower_tail h₃ (lower_head h rfl) rfl) rfl) rfl) rfl

theorem lower_places (h₀ : inputs s' ≤ inputs s) (h₁ : outputs s' ≤ outputs s)
    (h₂ : s'.uart.thri.toNat ≤ s.uart.thri.toNat) (h₃ : plics s' ≤ plics s)
    (h₄ : handlers s' ≤ handlers s) (h : places s' < places s) : Lower (rank s') (rank s) :=
  lower_tail h₀ (lower_tail h₁ (lower_tail h₂ (lower_tail h₃ (lower_tail h₄
    (lower_head h rfl) rfl) rfl) rfl) rfl) rfl

end

/-! ## A hart goes on -/

omit [DecidableEq P] [Fintype P] in
theorem sum_hart (F : Hart P → Nat) (hh : s'.hart = Function.update s.hart c x) :
    ∑ c, F (s'.hart c) + F (s.hart c) = ∑ c, F (s.hart c) + F x := by
  rw [hh]
  exact sum_update F s.hart c x

omit [DecidableEq P] [Fintype P] in
theorem inputs_hart (hrx : s'.uart.rx.length ≤ s.uart.rx.length)
    (hh : s'.hart = Function.update s.hart c x) (hx : x.held ≤ (s.hart c).held) :
    inputs s' ≤ inputs s := by
  have hsum := sum_hart Hart.held hh
  unfold inputs
  omega

omit [DecidableEq P] in
theorem outputs_hart (hf : s'.uart.fifo.length ≤ s.uart.fifo.length)
    (ht : ∀ p, (s'.ctl p).cost ≤ (s.ctl p).cost) (hh : s'.hart = Function.update s.hart c x)
    (hx : x.left.length ≤ (s.hart c).left.length) : outputs s' ≤ outputs s := by
  have hsum := sum_hart (fun x => x.left.length) hh
  have hcost := Finset.sum_le_sum (s := Finset.univ) fun p _ => ht p
  unfold outputs
  omega

omit [DecidableEq P] [Fintype P] in
theorem epoch_hart (hu : s'.uart = s.uart)
    (hp : s'.plic.pending UART0_IRQ = s.plic.pending UART0_IRQ)
    (hcl : s'.plic.claimed UART0_IRQ = s.plic.claimed UART0_IRQ)
    (hh : s'.hart = Function.update s.hart c x)
    (hx : x.epoch s.uart.thri (!s.uart.rx.isEmpty) (s.plic.pending UART0_IRQ) ≤
      (s.hart c).epoch s.uart.thri (!s.uart.rx.isEmpty) (s.plic.pending UART0_IRQ)) :
    epoch s' ≤ epoch s := by
  have hsum := sum_hart
    (Hart.epoch s.uart.thri (!s.uart.rx.isEmpty) (s.plic.pending UART0_IRQ)) hh
  unfold epoch
  rw [hu, hp, hcl]
  omega

omit [DecidableEq P] [Fintype P] in
theorem plics_hart (hu : s'.uart = s.uart) (hp : s'.plic = s.plic)
    (hh : s'.hart = Function.update s.hart c x)
    (hx : x.epoch s.uart.thri (!s.uart.rx.isEmpty) (s.plic.pending UART0_IRQ) ≤
      (s.hart c).epoch s.uart.thri (!s.uart.rx.isEmpty) (s.plic.pending UART0_IRQ)) :
    plics s' ≤ plics s := by
  have he := epoch_hart hu (by rw [hp]) (by rw [hp]) hh hx
  unfold plics
  rw [hp]
  exact Nat.add_le_add_right he _

omit [DecidableEq P] in
/-- A handler goes on, and neither the UART nor the PLIC notices. -/
theorem handler_lower (hu : s'.uart = s.uart) (hp : s'.plic = s.plic)
    (ht : ∀ p, (s'.ctl p).cost ≤ (s.ctl p).cost) (hh : s'.hart = Function.update s.hart c x)
    (hheld : x.held ≤ (s.hart c).held) (hleft : x.left.length ≤ (s.hart c).left.length)
    (hepoch : x.epoch s.uart.thri (!s.uart.rx.isEmpty) (s.plic.pending UART0_IRQ) ≤
      (s.hart c).epoch s.uart.thri (!s.uart.rx.isEmpty) (s.plic.pending UART0_IRQ))
    (hlow : x.handler s.plic.best.isSome < (s.hart c).handler s.plic.best.isSome) :
    Lower (rank s') (rank s) := by
  refine lower_handlers (inputs_hart ?_ hh hheld) (outputs_hart ?_ ht hh hleft) ?_
    (plics_hart hu hp hh hepoch) ?_
  · rw [hu]
  · rw [hu]
  · rw [hu]
  · have hsum := sum_hart (Hart.handler s.plic.best.isSome) hh
    unfold handlers
    rw [hp]
    omega

/-! ## A process goes on -/

omit [DecidableEq C] [Fintype C] in
theorem sum_ctl (F : Ctl → Nat) {y : Ctl} (ht : s'.ctl = Function.update s.ctl p y) :
    ∑ p, F (s'.ctl p) + F (s.ctl p) = ∑ p, F (s.ctl p) + F y := by
  rw [ht]
  exact sum_update F s.ctl p y

omit [DecidableEq C] in
/-- A process has less to do, by more than it puts into the FIFO. -/
theorem outputs_ctl {y : Ctl} {k : Nat} (hf : s'.uart.fifo.length ≤ s.uart.fifo.length + k)
    (hh : s'.hart = s.hart) (ht : s'.ctl = Function.update s.ctl p y)
    (hlow : y.cost + k < (s.ctl p).cost) : outputs s' < outputs s := by
  have hsum := sum_ctl Ctl.cost ht
  unfold outputs
  rw [hh]
  omega

omit [DecidableEq P] in
/-- So has a hart. -/
theorem outputs_left (hf : s'.uart.fifo.length ≤ s.uart.fifo.length + 1) (ht : s'.ctl = s.ctl)
    (hh : s'.hart = Function.update s.hart c x) (hlow : x.left.length < (s.hart c).left.length) :
    outputs s' < outputs s := by
  have hsum := sum_hart (fun x => x.left.length) hh
  unfold outputs
  rw [ht]
  omega

/-- A process goes on, and its hart with it: from what is none of this to `uartwrite`, or back. -/
theorem place_lower {y : Ctl} (hu : s'.uart = s.uart) (hp : s'.plic = s.plic)
    (hh : s'.hart = Function.update s.hart c x) (ht : s'.ctl = Function.update s.ctl p y)
    (hheld : x.held ≤ (s.hart c).held) (hleft : x.left.length ≤ (s.hart c).left.length)
    (hepoch : ∀ thri rx pending, x.epoch thri rx pending ≤ (s.hart c).epoch thri rx pending)
    (hhandler : ∀ best, x.handler best ≤ (s.hart c).handler best)
    (hspin : x.spin ≤ (s.hart c).spin) (hcost : y.cost ≤ (s.ctl p).cost)
    (hlow : y.place < (s.ctl p).place) : Lower (rank s') (rank s) := by
  have hsum := sum_ctl Ctl.place ht
  have hspins := sum_hart Hart.spin hh
  have hhandlers := sum_hart (Hart.handler s.plic.best.isSome) hh
  have hcosts : ∀ q, (s'.ctl q).cost ≤ (s.ctl q).cost := fun q => by
    rw [ht]
    by_cases hq : q = p
    · rw [hq, Function.update_self]
      exact hcost
    · rw [Function.update_of_ne hq]
  refine lower_places (inputs_hart ?_ hh hheld) (outputs_hart ?_ hcosts hh hleft) ?_
    (plics_hart hu hp hh (hepoch _ _ _)) ?_ ?_
  · rw [hu]
  · rw [hu]
  · rw [hu]
  · have hle := hhandler s.plic.best.isSome
    unfold handlers
    rw [hp]
    omega
  · unfold places
    omega

/-! ## The UART and the PLIC go on -/

theorem served_complete (thri pending : Bool) (irq : Nat) :
    served thri false pending (.complete irq) = served thri false pending .getc := by
  cases thri <;> cases pending <;> rfl

theorem served_pending {thri rx : Bool} (h : (thri || rx) = true) (st : Stage) :
    served thri rx true st < served thri rx false st := by
  unfold served
  cases rx with
  | true => split <;> simp
  | false =>
    rw [Bool.or_false] at h
    split <;> simp [h]

omit [DecidableEq C] [DecidableEq P] [Fintype C] [Fintype P] in
theorem put_length (w : Writer C P) (b : UInt8) :
    (s.put w b).uart.fifo.length ≤ s.uart.fifo.length + 1 := by
  unfold Sys.put
  split
  · exact Nat.le_of_eq List.length_append
  · exact Nat.le_succ _

omit [DecidableEq C] [DecidableEq P] [Fintype P] in
theorem put_inputs (w : Writer C P) (b : UInt8) : inputs (s.put w b) = inputs s := by
  unfold inputs
  rw [put_rx, put_hart]

theorem copied_cost {f : Frame} {bs : List UInt8} (hlt : f.i < f.n)
    (hlen : bs.length = min BATCH (f.n - f.i).toNat) :
    (Ctl.uart .enter f bs 0).cost < (Ctl.batch f).cost := by
  unfold BATCH at hlen
  unfold Ctl.cost
  dsimp only
  omega

theorem leave_cost {f : Frame} {buf : List UInt8} {i : Nat} (pc : Pc) :
    (Ctl.batch { f with i := f.i + buf.length }).cost ≤ (Ctl.uart pc f buf i).cost :=
  Nat.le_add_right _ _

theorem wake_cost (y : Ctl) : y.wake.cost = y.cost := by
  unfold Ctl.wake
  split <;> rfl

omit [DecidableEq P] [Fintype P] in
theorem puts_held (back : Bool) (bs : List UInt8) : (Hart.puts back bs : Hart P).held = 0 := by
  cases bs with
  | nil => cases back <;> rfl
  | cons b bs => rfl

omit [DecidableEq P] [Fintype P] in
theorem epoch_intr {st : Stage} (h : st.irq = UART0_IRQ) (thri rx pending : Bool) :
    (Hart.intr st : Hart P).epoch thri rx pending = served thri rx pending st := if_pos h

omit [DecidableEq C] [DecidableEq P] [Fintype C] [Fintype P] in
theorem readIsr_rx (u : Dev C P) : u.readIsr.rx = u.rx := by
  unfold Dev.readIsr
  split <;> rfl

omit [DecidableEq C] [DecidableEq P] [Fintype C] [Fintype P] in
theorem readIsr_fifo (u : Dev C P) : u.readIsr.fifo = u.fifo := by
  unfold Dev.readIsr
  split <;> rfl

omit [DecidableEq P] in
/-- `ReadReg(ISR)`. -/
theorem isr_lower (h : PlicInv s) (hc : s.hart c = .intr .isr) (hu : s'.uart = s.uart.readIsr)
    (ht : s'.ctl = s.ctl) (hplic : s'.plic = s.plic)
    (hh : s'.hart = Function.update s.hart c (.intr .acquire)) (h' : PlicInv s') :
    Lower (rank s') (rank s) := by
  have hin : inputs s' ≤ inputs s :=
    inputs_hart (by rw [hu, readIsr_rx]) hh (Nat.zero_le _)
  have hout : outputs s' ≤ outputs s :=
    outputs_hart (by rw [hu, readIsr_fifo]) (fun _ => by rw [ht]) hh (Nat.zero_le _)
  have hself : s'.hart c = .intr .acquire := by
    rw [hh, Function.update_self]
  -- the interrupt for a FIFO that has run empty goes, if nothing has come in
  by_cases hgone : s.uart.rx.isEmpty = true ∧ s.uart.thri = true
  · refine lower_tail hin (lower_tail hout (lower_head ?_ rfl) rfl) rfl
    rw [hu]
    unfold Dev.readIsr
    rw [if_pos hgone.1, hgone.2]
    exact Nat.one_pos
  · have hsame : s'.uart = s.uart := by
      rw [hu]
      unfold Dev.readIsr
      split
      next hrx =>
        have hthri : s.uart.thri = false := eq_false_of_ne_true fun ht => hgone ⟨hrx, ht⟩
        rw [← hthri]
      next => rfl
    have hlow : epoch s' < epoch s := by
      rw [epoch_served h' (c := c) (by rw [hself]; rfl), hself, epoch_intr rfl,
        epoch_served h (c := c) (by rw [hc]; rfl), hc, epoch_intr rfl, hsame, hplic]
      revert hgone
      cases s.uart.thri <;> cases s.uart.rx.isEmpty <;> cases s.plic.pending UART0_IRQ <;> decide
    refine lower_plics hin hout (by rw [hsame]) ?_
    unfold plics
    rw [hplic]
    exact Nat.add_lt_add_right hlow _

theorem claim_pending {y : Plic} {irq : Nat} (h : y.best = some irq) :
    y.claim.2.pending = Function.update y.pending irq false := by
  unfold Plic.claim
  rw [h]

omit [DecidableEq P] in
/-- `plic_claim()` with an interrupt to serve. -/
theorem claim_lower {irq : Nat} (h : PlicInv s) (hb : s.plic.best = some irq)
    (hu : s'.uart = s.uart) (ht : s'.ctl = s.ctl) (hplic : s'.plic = s.plic.claim.2)
    (hh : s'.hart = Function.update s.hart c (.intr (serve irq))) (h' : PlicInv s') :
    Lower (rank s') (rank s) := by
  obtain ⟨he, hpend, hfree⟩ := best_some hb
  have hheld : (Hart.intr (serve irq) : Hart P).held = 0 := by
    unfold serve
    split <;> rfl
  have hpending : s'.plic.pending = Function.update s.plic.pending irq false := by
    rw [hplic, claim_pending hb]
  have hclaimed : s'.plic.claimed = Function.update s.plic.claimed irq true := by
    rw [hplic, claim_claimed hb]
  refine lower_plics (inputs_hart (by rw [hu]) hh (hheld ▸ Nat.zero_le _))
    (outputs_hart (by rw [hu]) (fun _ => by rw [ht]) hh (Nat.zero_le _)) (by rw [hu]) ?_
  rcases enabled_cases he with rfl | rfl
  · have hc : s'.hart c = .intr .isr := by
      rw [hh]
      exact Function.update_self _ _ _
    have hlow : epoch s' < epoch s := by
      rw [epoch_served h' (c := c) (by rw [hc]; rfl), hc, epoch_intr rfl, epoch_unserved h hfree,
        hu, hpending, Function.update_self, hpend]
      unfold Dev.line
      cases s.uart.thri <;> cases s.uart.rx.isEmpty <;> decide
    unfold plics
    rw [hpending, hclaimed, Function.update_of_ne (by decide), Function.update_of_ne (by decide)]
    exact Nat.add_lt_add_right hlow _
  · have hle : epoch s' ≤ epoch s := by
      refine epoch_hart hu ?_ ?_ hh (Nat.zero_le _)
      · rw [hpending, Function.update_of_ne (by decide)]
      · rw [hclaimed, Function.update_of_ne (by decide)]
    unfold plics
    rw [hpending, hclaimed, Function.update_self, Function.update_self, hpend, hfree,
      Bool.toNat_false, Bool.toNat_true]
    omega

omit [DecidableEq P] in
/-- `plic_complete(irq)`. -/
theorem complete_lower {irq : Nat} (h : PlicInv s) (hc : s.hart c = .intr (.complete irq))
    (hu : s'.uart = s.uart) (ht : s'.ctl = s.ctl) (hplic : s'.plic = s.plic.complete irq)
    (hh : s'.hart = Function.update s.hart c .other) (h' : PlicInv s') :
    Lower (rank s') (rank s) := by
  have he := h.known c irq hc
  have hcl : s.plic.claimed irq = true :=
    (h.claimed irq (enabled_ne_zero he)).mpr ⟨c, by rw [hc]; rfl⟩
  have hpending : s'.plic.pending = s.plic.pending := by
    rw [hplic]
    rfl
  have hclaimed : s'.plic.claimed = Function.update s.plic.claimed irq false := by
    rw [hplic]
    rfl
  refine lower_plics (inputs_hart (by rw [hu]) hh (Nat.zero_le _))
    (outputs_hart (by rw [hu]) (fun _ => by rw [ht]) hh (Nat.zero_le _)) (by rw [hu]) ?_
  rcases enabled_cases he with rfl | rfl
  · have hlow : epoch s' < epoch s := by
      rw [epoch_served h (c := c) (by rw [hc]; rfl), hc, epoch_intr rfl,
        epoch_unserved h' (by rw [hclaimed, Function.update_self]), hu, hpending]
      unfold Dev.line
      cases s.uart.thri <;> cases s.uart.rx.isEmpty <;> cases s.plic.pending UART0_IRQ <;> decide
    unfold plics
    rw [hpending, hclaimed, Function.update_of_ne (by decide)]
    exact Nat.add_lt_add_right hlow _
  · have hle : epoch s' ≤ epoch s := by
      refine epoch_hart hu (by rw [hpending]) ?_ hh (Nat.zero_le _)
      rw [hclaimed, Function.update_of_ne (by decide)]
    unfold plics
    rw [hpending, hclaimed, Function.update_self, hcl, Bool.toNat_false, Bool.toNat_true]
    omega

omit [DecidableEq C] [DecidableEq P] in
/-- The PLIC sees that the line is up. -/
theorem gateway_lower (h : PlicInv s) (hl : s.uart.line = true)
    (hp : s.plic.pending UART0_IRQ = false) (hu : s'.uart = s.uart) (hh : s'.hart = s.hart)
    (ht : s'.ctl = s.ctl) (hplic : s'.plic = s.plic.raise UART0_IRQ) (h' : PlicInv s') :
    Lower (rank s') (rank s) := by
  have hclaimed : s'.plic.claimed = s.plic.claimed := by
    rw [hplic]
    rfl
  have hpending : s'.plic.pending = Function.update s.plic.pending UART0_IRQ true := by
    rw [hplic]
    rfl
  have hup : s'.plic.pending UART0_IRQ = true := by
    rw [hpending, Function.update_self]
  have hdisk : s'.plic.pending VIRTIO0_IRQ = s.plic.pending VIRTIO0_IRQ := by
    rw [hpending, Function.update_of_ne (by decide)]
  have hlow : epoch s' < epoch s := by
    cases hcl : s.plic.claimed UART0_IRQ with
    | false =>
      rw [epoch_unserved h' (hclaimed ▸ hcl), epoch_unserved h hcl, hu, hl, hp, hup]
      decide
    | true =>
      obtain ⟨c, hc⟩ := (h.claimed UART0_IRQ (by decide)).mp hcl
      rw [epoch_served h' (c := c) (by rw [hh]; exact hc), epoch_served h hc, hh, hu, hp, hup]
      unfold Hart.epoch
      rw [if_pos hc, if_pos hc]
      split
      · exact served_pending hl _
      · exact served_pending hl _
  refine lower_plics ?_ ?_ ?_ ?_
  · unfold inputs
    rw [hu, hh]
  · unfold outputs
    rw [hu, hh, ht]
  · rw [hu]
  · unfold plics
    rw [hdisk, hclaimed]
    exact Nat.add_lt_add_right hlow _

/-! ## Every step -/

/-- **The rank falls** with every step. -/
theorem Move.lower [Nonempty C] (h : Inv s) (ha : Internal s a) (h' : PlicInv s')
    (hm : Move s a s') : Lower (rank s') (rank s) := by
  -- a handler
  have hintr : ∀ {t : Sys C P} {c : C} {x y : Hart P}, t.uart = s.uart → t.plic = s.plic →
      t.ctl = s.ctl → t.hart = Function.update s.hart c y → s.hart c = x → y.held ≤ x.held →
      y.left.length ≤ x.left.length →
      y.epoch s.uart.thri (!s.uart.rx.isEmpty) (s.plic.pending UART0_IRQ) ≤
        x.epoch s.uart.thri (!s.uart.rx.isEmpty) (s.plic.pending UART0_IRQ) →
      y.handler s.plic.best.isSome < x.handler s.plic.best.isSome → Lower (rank t) (rank s) :=
    fun hu hp ht hh hc hheld hleft hepoch hlow =>
      handler_lower hu hp (fun p => by rw [ht]) hh (hc ▸ hheld) (hc ▸ hleft) (hc ▸ hepoch)
        (hc ▸ hlow)
  -- a process on a hart, or on none
  have hproc : ∀ {t : Sys C P} {c : C} {p : P} {x y : Hart P} {u v : Ctl}, t.uart = s.uart →
      t.plic = s.plic → t.hart = Function.update s.hart c y → s.hart c = x →
      t.ctl = Function.update s.ctl p v → s.ctl p = u → y.held ≤ x.held →
      y.left.length ≤ x.left.length → (∀ r b d, y.epoch r b d ≤ x.epoch r b d) →
      (∀ best, y.handler best ≤ x.handler best) → y.spin ≤ x.spin → v.cost ≤ u.cost →
      v.place < u.place → Lower (rank t) (rank s) :=
    fun hu hp hh hc ht hctl hheld hleft hepoch hhandler hspin hcost hlow =>
      place_lower hu hp hh ht (hc ▸ hheld) (hc ▸ hleft) (hc ▸ hepoch) (hc ▸ hhandler) (hc ▸ hspin)
        (hctl ▸ hcost) (hctl ▸ hlow)
  have hsame : ∀ {t : Sys C P} {p : P} {u v : Ctl} (c : C), t.uart = s.uart → t.plic = s.plic →
      t.hart = s.hart → t.ctl = Function.update s.ctl p v → s.ctl p = u → v.cost ≤ u.cost →
      v.place < u.place → Lower (rank t) (rank s) := fun c hu hp hh ht hctl hcost hlow =>
    hproc hu hp (hh.trans (Function.update_eq_self c s.hart).symm) rfl ht hctl (Nat.le_refl _)
      (Nat.le_refl _) (fun _ _ _ => Nat.le_refl _) (fun _ => Nat.le_refl _) (Nat.le_refl _) hcost
      hlow
  have hz : ∀ y : Hart P, y.irq = 0 → ∀ r b d, y.epoch r b d ≤ 0 := fun y hy r b d =>
    Nat.le_of_eq (if_neg fun he => absurd (hy.symm.trans he) (by decide))
  cases hm with
  | @copied p f bs hp hlt hlen =>
    refine lower_outputs (Nat.le_refl _) (outputs_ctl (k := 0) (Nat.le_refl _) rfl rfl ?_)
    rw [hp]
    exact copied_cost hlt hlen
  | ret hp =>
    exact hsame (Classical.arbitrary C) rfl rfl rfl rfl hp (Nat.zero_le _) Nat.zero_lt_one
  | acquire hl hc hp hx =>
    rcases hx with ⟨rfl, rfl⟩ | ⟨rfl, rfl⟩
    · exact hproc rfl rfl rfl hc rfl hp (Nat.le_refl _) (Nat.le_refl _) (hz _ rfl)
        (fun _ => Nat.le_refl _) (Nat.le_refl _) (Nat.le_refl _) (Nat.lt_succ_self _)
    · exact hproc rfl rfl rfl hc rfl hp (Nat.le_refl _) (Nat.le_refl _) (hz _ rfl)
        (fun _ => Nat.le_refl _) (Nat.le_refl _) (Nat.le_refl _) (Nat.lt_succ_self _)
  | @more p c f buf i hc hp hi =>
    exact hsame c rfl rfl rfl rfl hp (Nat.le_refl _) (Nat.lt_succ_self _)
  | leave hc hp hi =>
    exact hproc rfl rfl rfl hc rfl hp (Nat.le_refl _) (Nat.le_refl _) (hz _ rfl)
      (fun _ => Nat.le_refl _) (Nat.le_refl _) (leave_cost _)
      (show 1 < 3 by decide)
  | sleep hc hp hb =>
    exact hproc rfl rfl rfl hc rfl hp (Nat.le_refl _) (Nat.le_refl _) (hz _ rfl)
      (fun _ => Nat.le_refl _) (Nat.le_refl _) (Nat.le_refl _) Nat.zero_lt_two
  | @free p c f buf i hc hp hb =>
    exact hsame c rfl rfl rfl rfl hp (Nat.le_refl _) Nat.one_lt_two
  | @thr p c f buf i hc hp =>
    have hi := h.send.index p .write f buf i hp nofun nofun
    refine lower_outputs (Nat.le_of_eq (put_inputs (s := s) _ _))
      (outputs_ctl (s := s) (k := 1) (p := p) (y := .uart .top f buf (i + 1)) (put_length _ _)
        (put_hart _ _) ?_ ?_)
    · show Function.update (s.put _ _).ctl _ _ = _
      rw [put_ctl]
    · rw [hp]
      show _ + 2 * (buf.length - (i + 1)) + 1 < _ + 2 * (buf.length - i)
      omega
  | @ready c back b bs hc hf =>
    have hh : (s.setHart c (.put back true b bs)).hart =
      Function.update s.hart c (.put back true b bs) := rfl
    have hspins := sum_hart Hart.spin hh
    have hhandlers := sum_hart (Hart.handler s.plic.best.isSome) hh
    rw [hc] at hspins hhandlers
    refine lower_places (inputs_hart (Nat.le_refl _) hh ?_)
      (outputs_hart (Nat.le_refl _) (fun _ => Nat.le_refl _) hh ?_) (Nat.le_refl _)
      (plics_hart rfl rfl hh ?_) ?_ ?_
    · rw [hc]
      exact Nat.le_refl _
    · rw [hc]
      exact Nat.le_refl _
    · rw [hc]
      cases back <;> exact Nat.le_refl _
    · show ∑ c', ((s.setHart c (.put back true b bs)).hart c').handler s.plic.best.isSome ≤ _
      exact Nat.le_of_add_le_add_right (Nat.le_of_eq hhandlers)
    · have hspin : (Hart.put back true b bs : Hart P).spin = 0 := rfl
      have hspin' : (Hart.put back false b bs : Hart P).spin = 1 := rfl
      unfold places
      show ∑ p, (s.ctl p).place + _ < _
      omega
  | @putc c back b bs hc =>
    refine lower_outputs ?_ (outputs_left (s := s) (c := c) (x := .puts back bs) (put_length _ _)
      (put_ctl _ _) ?_ ?_)
    · refine inputs_hart (s := s) (c := c) (x := .puts back bs) ?_ ?_ ?_
      · exact Nat.le_of_eq (congrArg List.length (put_rx _ _))
      · show Function.update (s.put _ _).hart _ _ = _
        rw [put_hart]
      · rw [puts_held]
        exact Nat.zero_le _
    · show Function.update (s.put _ _).hart _ _ = _
      rw [put_hart]
    · rw [hc, puts_left]
      exact Nat.lt_succ_self _
  | trap hc hb =>
    have hbest := Option.isSome_iff_ne_none.mpr hb
    refine hintr rfl rfl rfl rfl hc (Nat.le_refl _) (Nat.le_refl _) (hz _ rfl _ _ _) ?_
    rw [hbest]
    exact Nat.zero_lt_one
  | claim hc hb => exact claim_lower h.plic hb rfl rfl rfl rfl h'
  | nothing hc hb =>
    refine hintr rfl rfl rfl rfl hc (Nat.le_refl _) (Nat.le_refl _) (hz _ rfl _ _ _) ?_
    rw [hb]
    exact Nat.zero_lt_one
  | isr hc => exact isr_lower h.plic hc rfl rfl rfl rfl h'
  | lock hc hl =>
    exact hintr rfl rfl rfl rfl hc (Nat.le_refl _) (Nat.le_refl _) (Nat.le_refl _)
      (Nat.lt_succ_self _)
  | idle hc hf =>
    exact hintr rfl rfl rfl rfl hc (Nat.le_refl _) (Nat.le_refl _) (Nat.le_refl _)
      (Nat.lt_succ_self _)
  | sending hc hf =>
    exact hintr rfl rfl rfl rfl hc (Nat.le_refl _) (Nat.le_refl _) (Nat.le_refl _)
      (show 3 < 6 by decide)
  | clear hc =>
    exact hintr rfl rfl rfl rfl hc (Nat.le_refl _) (Nat.le_refl _) (Nat.le_refl _)
      (Nat.lt_succ_self _)
  | wake hc =>
    refine handler_lower (x := .intr .release) rfl rfl (fun p => Nat.le_of_eq (wake_cost _)) rfl
      ?_ ?_ ?_ ?_
    · rw [hc]
      exact Nat.le_refl _
    · rw [hc]
      exact Nat.le_refl _
    · rw [hc]
      exact Nat.le_refl _
    · rw [hc]
      exact Nat.lt_succ_self _
  | release hc =>
    exact hintr rfl rfl rfl rfl hc (Nat.le_refl _) (Nat.le_refl _) (Nat.le_refl _)
      (Nat.lt_succ_self _)
  | waiting hc hr =>
    exact hintr rfl rfl rfl rfl hc (Nat.le_refl _) (Nat.le_refl _) (Nat.le_refl _)
      (Nat.lt_succ_self _)
  | empty hc hr =>
    refine hintr rfl rfl rfl rfl hc (Nat.le_refl _) (Nat.le_refl _) ?_ Nat.zero_lt_two
    rw [hr, epoch_intr rfl, epoch_intr rfl]
    exact Nat.le_of_eq (served_complete _ _ _)
  | @rhr c hc =>
    obtain ⟨b, rx, hrx⟩ := List.exists_cons_of_ne_nil (h.read.rhr c hc)
    refine lower_head ?_ rfl
    have hsum := sum_update Hart.held s.hart c (.intr (.got (s.uart.rx.headD 0)))
    have hheld : (Hart.intr (.got (s.uart.rx.headD 0)) : Hart P).held = 1 := rfl
    have hlen : s.uart.rx.length = s.uart.rx.tail.length + 1 := by
      rw [hrx]
      rfl
    show 2 * s.uart.rx.tail.length +
      ∑ c', (Function.update s.hart c (.intr (.got (s.uart.rx.headD 0))) c').held < inputs s
    unfold inputs
    omega
  | disk hc =>
    exact hintr rfl rfl rfl rfl hc (Nat.le_refl _) (Nat.le_refl _)
      (Nat.le_of_eq (if_neg (show VIRTIO0_IRQ ≠ UART0_IRQ by decide))) (Nat.lt_succ_self _)
  | complete hc => exact complete_lower h.plic hc rfl rfl rfl rfl h'
  | @consoleintr c b bs hc =>
    refine lower_head ?_ rfl
    have hsum := sum_update Hart.held s.hart c (.puts true bs)
    have hheld : (Hart.intr (.got b) : Hart P).held = 1 := rfl
    rw [hc, hheld, puts_held] at hsum
    show 2 * s.uart.rx.length + ∑ c', (Function.update s.hart c (.puts true bs) c').held < inputs s
    unfold inputs
    omega
  | @send x fifo hf =>
    refine lower_outputs (Nat.le_refl _) ?_
    unfold outputs
    rw [hf]
    exact Nat.lt_succ_self _
  | gateway hl hp => exact gateway_lower h.plic hl hp rfl rfl rfl rfl h'
  | call => exact ha.elim
  | kill => exact ha.elim
  | print => exact ha.elim
  | input => exact ha.elim
  | full => exact ha.elim
  | raise => exact ha.elim

/-! ## Where nothing is left to do -/

/-- All is sent, all is handed on, and nobody is in any of this code. -/
structure Done (s : Sys C P) : Prop where
  hart : ∀ c, s.hart c = .other
  ctl : ∀ p, s.ctl p = .user
  sent : ∀ w, ofWriter w s.out = s.asked w
  got : s.got = s.typed

omit [Fintype C] [Fintype P] in
theorem runWrite_enabled (hp : (s.ctl p).holds = true) : s.runWrite c p ≠ none := by
  cases hctl : s.ctl p with
  | uart pc f buf i =>
    rw [hctl] at hp
    unfold Sys.runWrite
    rw [hctl]
    cases pc with
    | top =>
      dsimp only
      split <;> exact Option.some_ne_none _
    | wait =>
      dsimp only
      split <;> exact Option.some_ne_none _
    | write => exact Option.some_ne_none _
    | enter | asleep | woken => cases hp
  | user | batch => rw [hctl] at hp; cases hp

omit [DecidableEq P] [Fintype C] [Fintype P] in
theorem runIntr_enabled {st : Stage} (hlock : s.tx_lock = none ∨ st ≠ .acquire)
    (hgot : ∀ b, st ≠ .got b) : s.runIntr c st ≠ none := by
  unfold Sys.runIntr
  cases st with
  | claim =>
    dsimp only
    split
    · exact Option.some_ne_none _
    · split
      · exact Option.some_ne_none _
      · split <;> exact Option.some_ne_none _
  | acquire =>
    dsimp only
    rw [if_pos (hlock.resolve_right fun hne => hne rfl)]
    exact Option.some_ne_none _
  | lsr | getc =>
    dsimp only
    split <;> exact Option.some_ne_none _
  | got b => exact absurd rfl (hgot b)
  | _ => exact Option.some_ne_none _

section

omit [Fintype C] [Fintype P]

theorem run_enabled (h : LockInv s) (hf : s.uart.fifo = []) (hc : s.hart c ≠ .other)
    (hlock : s.tx_lock = none ∨ s.hart c ≠ .intr .acquire)
    (hgot : ∀ b, s.hart c ≠ .intr (.got b)) : s.run c ≠ none := by
  unfold Sys.run
  cases hx : s.hart c with
  | other => exact absurd hx hc
  | write p => exact runWrite_enabled ((h.write p).mpr ⟨c, hx⟩)
  | put back ready b bs =>
    dsimp only
    unfold Sys.runPut
    rw [if_pos (lsr_idle.mpr hf)]
    split <;> exact Option.some_ne_none _
  | intr st =>
    rw [hx] at hlock hgot
    exact runIntr_enabled (hlock.imp_right fun hne he => hne (he ▸ rfl))
      fun b he => hgot b (he ▸ rfl)

theorem batch_enabled {f : Frame} (hp : s.ctl p = .batch f) : s.batch p none ≠ none := by
  unfold Sys.batch
  rw [hp]
  dsimp only
  split <;> exact Option.some_ne_none _

theorem acquire_enabled {pc : Pc} {f : Frame} {buf : List UInt8} {i : Nat}
    (hl : s.tx_lock = none) (hc : s.hart c = .other) (hp : s.ctl p = .uart pc f buf i)
    (hpc : pc = .enter ∨ pc = .woken) : step s (.acquire p c) ≠ none := by
  unfold step
  dsimp only
  rw [if_pos ⟨hl, hc⟩, hp]
  rcases hpc with rfl | rfl <;> exact Option.some_ne_none _

/-- **No deadlock.** Where nothing more can be done, there is nothing to do. -/
theorem Inv.stuck [Nonempty C] (h : Inv s) (hno : ∀ a, Internal s a → step s a = none) :
    Done s := by
  have hfifo : s.uart.fifo = [] := by
    have hsend := hno .send trivial
    unfold step Sys.send at hsend
    cases hf : s.uart.fifo with
    | nil => rfl
    | cons x fifo =>
      rw [hf] at hsend
      cases hsend
  have hgot : ∀ c b, s.hart c ≠ .intr (.got b) := fun c b hc => by
    have hcons := hno (.consoleintr c []) trivial
    unfold step at hcons
    dsimp only at hcons
    rw [hc] at hcons
    cases hcons
  -- whoever holds the lock can go on, so that it is free
  have hlock : s.tx_lock = none := by
    cases hl : s.tx_lock with
    | none => rfl
    | some c =>
      have hc := (h.lock.lock c).mpr hl
      refine absurd (hno (.run c) trivial) (run_enabled h.lock hfifo ?_ (Or.inr ?_) (hgot c))
      · intro he
        rw [he] at hc
        cases hc
      · intro he
        rw [he] at hc
        cases hc
  have hhart : ∀ c, s.hart c = .other := fun c => by
    by_contra hc
    exact run_enabled h.lock hfifo hc (Or.inl hlock) (hgot c) (hno (.run c) trivial)
  -- no interrupt is being served, and so none is up
  have hpending : s.plic.pending UART0_IRQ = false := by
    refine eq_false_of_ne_true fun hp => ?_
    have htrap := hno (.trap (Classical.arbitrary C)) trivial
    unfold step at htrap
    dsimp only at htrap
    have hbest : s.plic.best = none := by
      by_contra hb
      rw [if_pos ⟨hhart _, hb⟩] at htrap
      cases htrap
    obtain ⟨c, hc⟩ := (h.plic.claimed UART0_IRQ (by decide)).mp
      (best_none hbest (by decide) hp)
    rw [hhart c] at hc
    exact absurd hc (show 0 ≠ UART0_IRQ by decide)
  have hline : s.uart.line = false := by
    refine eq_false_of_ne_true fun hl => ?_
    have hgate := hno .gateway trivial
    unfold step at hgate
    dsimp only at hgate
    rw [if_pos ⟨hl, hpending⟩] at hgate
    cases hgate
  have hrx : s.uart.rx = [] := by
    by_contra hrx
    rw [line_iff.mpr (Or.inr hrx)] at hline
    cases hline
  have hbusy : s.tx_busy = false := by
    refine eq_false_of_ne_true fun hb => ?_
    rcases h.wake.coming hb with hf | ht | ⟨c, hc⟩
    · exact hf hfifo
    · rw [line_iff.mpr (Or.inl ht)] at hline
      cases hline
    · rw [hhart c] at hc
      cases hc
  have hctl : ∀ p, s.ctl p = .user := fun p => by
    have hholds : (s.ctl p).holds = false := by
      refine eq_false_of_ne_true fun hp => ?_
      obtain ⟨c, hc⟩ := (h.lock.write p).mp hp
      exact absurd ((hhart c).symm.trans hc) nofun
    cases hp : s.ctl p with
    | user => rfl
    | batch f => exact absurd (hno (.batch p none) trivial) (batch_enabled hp)
    | uart pc f buf i =>
      have hacquire := hno (.acquire p (Classical.arbitrary C)) trivial
      rw [hp] at hholds
      cases pc with
      | enter => exact absurd hacquire (acquire_enabled hlock (hhart _) hp (Or.inl rfl))
      | woken => exact absurd hacquire (acquire_enabled hlock (hhart _) hp (Or.inr rfl))
      | asleep =>
        rcases h.wake.asleep p (by rw [hp]; rfl) with hb | ⟨c, hc⟩
        · exact absurd (hbusy.symm.trans hb) Bool.false_ne_true
        · exact absurd ((hhart c).symm.trans hc) nofun
      | top | wait | write => cases hholds
  refine ⟨hhart, hctl, fun w => ?_, ?_⟩
  · have hleft : left s w = [] := by
      cases w with
      | proc p => exact congrArg Ctl.left (hctl p)
      | hart c => exact congrArg Hart.left (hhart c)
    have hbytes := h.send.bytes w
    rwa [hleft, hfifo, List.append_nil, List.append_nil] at hbytes
  · rw [h.read.typed, hrx, List.append_nil]
    exact (h.read.idle hgot).symm

end

/-- **Output and input come to an end**, whatever is done first. -/
theorem uart_settles [Nonempty C] (hC : Fintype.card C ≤ NCPU) (h : Reach step Any Init s) :
    Settles step Internal Done s := by
  have hkept : ∀ {s s' : Sys C P} {a : Act C P}, Inv s → Internal s a → step s a = some s' →
      Inv s' := fun hi _ hs => hi.move hC (step_move hs)
  refine Settles.of_rank rank hkept (fun hi ha hs => ?_) Inv.stuck (reach_inv hC h)
  exact (step_move hs).lower hi ha (hi.plic.move (step_move hs))

/-- A writer is asleep, and its byte has been sent; a byte has come in. -/
theorem uart_settles_half :
    ∃ s, runFrom step Sys.fresh (.input 97 :: halfWritten) = some s ∧
      (s.ctl false).asleep = true ∧ s.got ≠ s.typed ∧ Settles step Internal Done s := by
  have hobs : (runFrom step Sys.fresh (.input 97 :: halfWritten)).map
      (fun s => ((s.ctl false).asleep, s.got, s.typed)) = some (true, [], [97]) := by decide
  obtain ⟨s, hs, hobs⟩ := Option.map_eq_some_iff.mp hobs
  obtain ⟨hasleep, hbytes⟩ := Prod.mk.inj hobs
  obtain ⟨hgot, htyped⟩ := Prod.mk.inj hbytes
  have hreach : Reach step Any Init s :=
    .of_run (.input 97 :: halfWritten) (.start fresh_init) (RunOk.any _ _ _) hs
  refine ⟨s, hs, hasleep, ?_, uart_settles (by decide) hreach⟩
  rw [hgot, htyped]
  decide

end Xv6.Uart
