import Xv6.Uart.Bytes

/-!
# Output and input of the UART

> In every run, every byte given to `uartwrite` or `uartputc_sync` is written to the FIFO once,
> those of one writer in their order, and the FIFO is never full when a byte is written to it.
> When `consolewrite` has returned, what it says is what was written (`uart_output`).

> One hart at a time is in `uartintr`, and every byte that came in is given to `consoleintr`
> once, in order (`uart_input`).
-/

namespace Xv6.Uart

open Lib

section Safe

variable {C P : Type*} [DecidableEq C] [DecidableEq P] {s s' : Sys C P} {c : C} {p : P}
  {x : Hart P} {a : Act C P}

/-! ## Whoever sleeps is woken -/

omit [DecidableEq P] in
theorem exists_update {f : C → Hart P} {Q : Hart P → Prop} (h : ∃ c', Q (f c'))
    (hx : Q (f c) → Q x) : ∃ c', Q (Function.update f c x c') := by
  obtain ⟨c', hc'⟩ := h
  by_cases hc : c' = c
  · refine ⟨c, ?_⟩
    rw [Function.update_self]
    exact hx (hc ▸ hc')
  · refine ⟨c', ?_⟩
    rwa [Function.update_of_ne hc]

omit [DecidableEq C] in
theorem asleep_update {y : Ctl} (hy : y.asleep = false) (q : P)
    (h : (Function.update s.ctl p y q).asleep = true) : (s.ctl q).asleep = true := by
  by_cases hq : q = p
  · rw [hq, Function.update_self, hy] at h
    cases h
  · rwa [Function.update_of_ne hq] at h

theorem wake_asleep (y : Ctl) : y.wake.asleep = false := by
  unfold Ctl.wake
  split
  · rfl
  next hne =>
    cases y with
    | user => rfl
    | batch f => rfl
    | uart pc f buf i =>
      cases pc with
      | asleep => exact absurd rfl (hne f buf i)
      | enter => rfl
      | top => rfl
      | wait => rfl
      | write => rfl
      | woken => rfl

omit [DecidableEq C] [DecidableEq P] in
theorem put_ne_nil (w : Writer C P) (b : UInt8) : (s.put w b).uart.fifo ≠ [] := by
  unfold Sys.put
  split
  · exact List.append_ne_nil_of_right_ne_nil _ (List.cons_ne_nil _ _)
  next hroom =>
    intro he
    have he : s.uart.fifo = [] := he
    rw [he] at hroom
    exact hroom (Nat.zero_lt_succ 15)

omit [DecidableEq C] [DecidableEq P] in
theorem WakeInv.stay (h : WakeInv s) (hb : s'.tx_busy = s.tx_busy)
    (ha : ∀ p, (s'.ctl p).asleep = true → (s.ctl p).asleep = true)
    (hw : (∃ c, s.hart c = .intr .wake) → ∃ c, s'.hart c = .intr .wake)
    (hc : (s.uart.fifo ≠ [] ∨ s.uart.thri = true ∨ ∃ c, (s.hart c).early = true) →
      s'.uart.fifo ≠ [] ∨ s'.uart.thri = true ∨ ∃ c, (s'.hart c).early = true) : WakeInv s' where
  asleep p hp := by
    rw [hb]
    exact (h.asleep p (ha p hp)).imp_right hw
  coming hbusy := hc (h.coming (hb.symm.trans hbusy))

theorem WakeInv.move (h : WakeInv s) (hm : Move s a s') : WakeInv s' := by
  -- a hart goes on that is not at `wakeup`, nor between `ISR` and `tx_busy = 0`
  have hstill : ∀ {t : Sys C P} {x y : Hart P} {c : C}, t.tx_busy = s.tx_busy →
      t.uart.fifo = s.uart.fifo → t.uart.thri = s.uart.thri →
      (∀ p, (t.ctl p).asleep = true → (s.ctl p).asleep = true) →
      t.hart = Function.update s.hart c y → s.hart c = x → x ≠ .intr .wake →
      (x.early = true → y.early = true) → WakeInv t := fun {t x y c} hb hf ht ha hh hc hw he => by
    refine h.stay hb ha (fun hx => ?_) (Or.imp (by rw [hf]; exact id)
      (Or.imp (by rw [ht]; exact id) fun hx => ?_))
    · rw [hh]
      exact exists_update (Q := fun y => y = .intr .wake) hx fun hc' =>
        absurd (hc.symm.trans hc') hw
    · rw [hh]
      exact exists_update (Q := fun y => y.early = true) hx fun hc' => he (hc ▸ hc')
  have hgoto : ∀ {t : Sys C P} {p : P} {y : Ctl}, t.tx_busy = s.tx_busy → t.uart = s.uart →
      t.hart = s.hart → t.ctl = Function.update s.ctl p y → y.asleep = false → WakeInv t :=
    fun {t p y} hb hu hh ht hy => by
      refine h.stay hb (fun q hq => asleep_update hy q (ht ▸ hq)) ?_ ?_
      · rw [hh]
        exact id
      · rw [hu, hh]
        exact id
  cases hm with
  | call hp => exact hgoto rfl rfl rfl rfl rfl
  | copied hp => exact hgoto rfl rfl rfl rfl rfl
  | ret hp => exact hgoto rfl rfl rfl rfl rfl
  | kill => exact hgoto rfl rfl rfl rfl (wake_asleep _)
  | acquire hl hc hp hx =>
    refine hstill rfl rfl rfl (asleep_update ?_) rfl hc nofun nofun
    rcases hx with ⟨-, rfl⟩ | ⟨-, rfl⟩ <;> rfl
  | more hc hp hi => exact hgoto rfl rfl rfl rfl rfl
  | leave hc hp hi =>
    exact hstill rfl rfl rfl (asleep_update rfl) rfl hc nofun nofun
  | @sleep p c f buf i hc hp hb =>
    refine ⟨fun _ _ => Or.inl hb, fun _ => ?_⟩
    refine (h.coming hb).imp_right (Or.imp_right fun hx => ?_)
    exact exists_update (x := .other) (Q := fun y => y.early = true) hx (by rw [hc]; exact nofun)
  | free hc hp hb => exact hgoto rfl rfl rfl rfl rfl
  | thr hc hp => exact ⟨fun _ _ => Or.inl rfl, fun _ => Or.inl (put_ne_nil _ _)⟩
  | print hc => exact hstill rfl rfl rfl (fun _ => id) rfl hc nofun nofun
  | ready hc hf => exact hstill rfl rfl rfl (fun _ => id) rfl hc nofun nofun
  | @putc c back b bs hc =>
    refine h.stay (put_busy _ _) (fun p hp => ?_) (fun hx => ?_) fun _ => Or.inl (put_ne_nil _ _)
    · have hp : ((s.put (.hart c) b).ctl p).asleep = true := hp
      rwa [put_ctl] at hp
    · show ∃ c', Function.update (s.put (.hart c) b).hart c (.puts back bs) c' = _
      rw [put_hart]
      exact exists_update (Q := fun y => y = .intr .wake) hx (by rw [hc]; exact nofun)
  | trap hc hb => exact hstill rfl rfl rfl (fun _ => id) rfl hc nofun nofun
  | claim hc hb => exact hstill rfl rfl rfl (fun _ => id) rfl hc nofun nofun
  | nothing hc hb => exact hstill rfl rfl rfl (fun _ => id) rfl hc nofun nofun
  | @isr c hc =>
    refine h.stay rfl (fun _ => id) (fun hx => ?_) fun _ => Or.inr (Or.inr ⟨c, ?_⟩)
    · exact exists_update (x := .intr .acquire) (Q := fun y => y = .intr .wake) hx
        (by rw [hc]; exact nofun)
    · show (Function.update s.hart c (.intr .acquire) c).early = true
      rw [Function.update_self]
      rfl
  | lock hc hn => exact hstill rfl rfl rfl (fun _ => id) rfl hc nofun fun _ => rfl
  | idle hc hf => exact hstill rfl rfl rfl (fun _ => id) rfl hc nofun fun _ => rfl
  | sending hc hf =>
    refine h.stay rfl (fun _ => id) (fun hx => ?_) fun _ => Or.inl hf
    exact exists_update (x := .intr .release) (Q := fun y => y = .intr .wake) hx
      (by rw [hc]; exact nofun)
  | @clear c hc =>
    refine ⟨fun _ _ => Or.inr ⟨c, Function.update_self _ _ _⟩, nofun⟩
  | @wake c hc =>
    refine ⟨fun p hp => ?_, fun hb => ?_⟩
    · exact absurd ((wake_asleep (s.ctl p)).symm.trans hp) Bool.false_ne_true
    · refine (h.coming hb).imp_right (Or.imp_right fun hx => ?_)
      refine exists_update (x := .intr .release) (Q := fun y => y.early = true) hx fun hc' => ?_
      have hc' : (s.hart c).early = true := hc'
      rw [hc] at hc'
      cases hc'
  | release hc => exact hstill rfl rfl rfl (fun _ => id) rfl hc nofun nofun
  | waiting hc hr => exact hstill rfl rfl rfl (fun _ => id) rfl hc nofun nofun
  | empty hc hr => exact hstill rfl rfl rfl (fun _ => id) rfl hc nofun nofun
  | rhr hc => exact hstill rfl rfl rfl (fun _ => id) rfl hc nofun nofun
  | disk hc => exact hstill rfl rfl rfl (fun _ => id) rfl hc nofun nofun
  | complete hc => exact hstill rfl rfl rfl (fun _ => id) rfl hc nofun nofun
  | consoleintr hc => exact hstill rfl rfl rfl (fun _ => id) rfl hc nofun nofun
  | @send x fifo hf =>
    refine ⟨h.asleep, fun hb => ?_⟩
    show fifo ≠ [] ∨ (s.uart.thri || fifo.isEmpty) = true ∨ _
    cases fifo with
    | nil => exact Or.inr (Or.inl (Bool.or_true _))
    | cons y fifo => exact Or.inl (List.cons_ne_nil _ _)
  | _ => exact ⟨h.asleep, h.coming⟩

/-! ## Input -/

omit [DecidableEq P] in
theorem puts_ne_got (back : Bool) (bs : List UInt8) (b : UInt8) :
    (Hart.puts back bs : Hart P) ≠ .intr (.got b) := puts_ne_intr back bs nofun

omit [DecidableEq C] [DecidableEq P] in
theorem ReadInv.stay (h : ReadInv s) (ht : s'.typed = s.typed) (hr : s'.read = s.read)
    (hrx : s'.uart.rx = s.uart.rx) (hg : s'.got = s.got)
    (hrhr : ∀ c, s'.hart c = .intr .rhr → s.hart c = .intr .rhr)
    (hgot : ∀ c b, s'.hart c = .intr (.got b) ↔ s.hart c = .intr (.got b)) : ReadInv s' where
  typed := by
    rw [ht, hr, hrx]
    exact h.typed
  rhr c hc := by
    rw [hrx]
    exact h.rhr c (hrhr c hc)
  got c b hc := by
    rw [hr, hg]
    exact h.got c b ((hgot c b).mp hc)
  idle hno := by
    rw [hr, hg]
    exact h.idle fun c b hc => hno c b ((hgot c b).mpr hc)

omit [DecidableEq P] in
theorem hart_iff {y : Hart P} (hold : s.hart c ≠ y) (hnew : x ≠ y) (c' : C) :
    Function.update s.hart c x c' = y ↔ s.hart c' = y := by
  by_cases hc : c' = c
  · rw [hc, Function.update_self]
    exact ⟨fun he => absurd he hnew, fun he => absurd he hold⟩
  · rw [Function.update_of_ne hc]

theorem ReadInv.move (h : ReadInv s) (hp : PlicInv s) (hm : Move s a s') : ReadInv s' := by
  have hstill : ∀ {t : Sys C P} {x y : Hart P} {c : C}, t.typed = s.typed → t.read = s.read →
      t.uart.rx = s.uart.rx → t.got = s.got → t.hart = Function.update s.hart c y →
      s.hart c = x → (∀ b, x ≠ .intr (.got b)) → (∀ b, y ≠ .intr (.got b)) →
      y ≠ .intr .rhr → ReadInv t := fun {t x y c} ht hr hrx hg hh hc hx hy hrhr => by
    refine h.stay ht hr hrx hg (fun c' hc' => ?_) fun c' b => ?_
    · rw [hh] at hc'
      by_cases he : c' = c
      · rw [he, Function.update_self] at hc'
        exact absurd hc' hrhr
      · rwa [Function.update_of_ne he] at hc'
    · rw [hh]
      exact hart_iff (hc ▸ hx b) (hy b) c'
  -- a hart in `uartintr` is there alone
  have halone : ∀ {c c' : C} {st st' : Stage}, s.hart c = .intr st → s.hart c' = .intr st' →
      st.irq = UART0_IRQ → st'.irq = UART0_IRQ → c = c' := fun {c c' st st'} hc hc' hi hi' => by
    refine hp.alone c c' ?_ ?_
    · rw [hc, hc']
      exact hi.trans hi'.symm
    · rw [hc]
      exact fun hz => absurd (hi.symm.trans hz) (by decide)
  cases hm with
  | acquire hl hc hp hx => exact hstill rfl rfl rfl rfl rfl hc nofun nofun nofun
  | leave hc hp hi => exact hstill rfl rfl rfl rfl rfl hc nofun nofun nofun
  | sleep hc hp hb => exact hstill rfl rfl rfl rfl rfl hc nofun nofun nofun
  | @thr p c f buf i hc hp =>
    have hh : (s.put (.proc p) (buf.getD i 0)).hart = s.hart := put_hart _ _
    refine h.stay (put_typed _ _) (put_read _ _) (put_rx _ _) (put_got _ _) (fun c' => ?_)
      fun c' b => ?_
    · show (s.put (.proc p) (buf.getD i 0)).hart c' = _ → _
      rw [hh]
      exact id
    · show (s.put (.proc p) (buf.getD i 0)).hart c' = _ ↔ _
      rw [hh]
  | print hc =>
    exact hstill rfl rfl rfl rfl rfl hc nofun (puts_ne_got _ _) (puts_ne_intr _ _ nofun)
  | ready hc hf => exact hstill rfl rfl rfl rfl rfl hc nofun nofun nofun
  | @putc c back b bs hc =>
    refine hstill (y := .puts back bs) (put_typed _ _) (put_read _ _) (put_rx _ _) (put_got _ _)
      ?_ hc nofun (puts_ne_got _ _) (puts_ne_intr _ _ nofun)
    show Function.update (s.put (.hart c) b).hart c _ = _
    rw [put_hart]
  | trap hc hb => exact hstill rfl rfl rfl rfl rfl hc nofun nofun nofun
  | claim hc hb =>
    exact hstill rfl rfl rfl rfl rfl hc nofun
      (fun b he => serve_ne (.got b) nofun nofun (Hart.intr.inj he))
      fun he => serve_ne .rhr nofun nofun (Hart.intr.inj he)
  | nothing hc hb => exact hstill rfl rfl rfl rfl rfl hc nofun nofun nofun
  | isr hc =>
    refine hstill rfl rfl ?_ rfl rfl hc nofun nofun nofun
    show s.uart.readIsr.rx = _
    unfold Dev.readIsr
    split <;> rfl
  | lock hc hn => exact hstill rfl rfl rfl rfl rfl hc nofun nofun nofun
  | idle hc hf => exact hstill rfl rfl rfl rfl rfl hc nofun nofun nofun
  | sending hc hf => exact hstill rfl rfl rfl rfl rfl hc nofun nofun nofun
  | clear hc => exact hstill rfl rfl rfl rfl rfl hc nofun nofun nofun
  | wake hc => exact hstill rfl rfl rfl rfl rfl hc nofun nofun nofun
  | release hc => exact hstill rfl rfl rfl rfl rfl hc nofun nofun nofun
  | @waiting c hc hr =>
    have hiff : ∀ c' b, Function.update s.hart c (.intr .rhr) c' = .intr (.got b) ↔
        s.hart c' = .intr (.got b) := fun c' b => by
      refine hart_iff (x := .intr .rhr) (y := .intr (.got b)) ?_ nofun c'
      rw [hc]
      exact nofun
    exact ⟨h.typed, fun _ _ => hr, fun c' b hc' => h.got c' b ((hiff c' b).mp hc'),
      fun hno => h.idle fun c' b hc' => hno c' b ((hiff c' b).mpr hc')⟩
  | empty hc hr => exact hstill rfl rfl rfl rfl rfl hc nofun nofun nofun
  | @rhr c hc =>
    obtain ⟨b, rx, hrx⟩ := List.exists_cons_of_ne_nil (h.rhr c hc)
    have hidle : s.read = s.got := h.idle fun c' b' hc' => by
      obtain rfl := halone hc hc' rfl rfl
      exact nomatch hc.symm.trans hc'
    have hself : Function.update s.hart c (.intr (.got (s.uart.rx.headD 0))) c =
      .intr (.got (s.uart.rx.headD 0)) := Function.update_self _ _ _
    refine ⟨?_, fun c' hc' => ?_, fun c' b' hc' => ?_, fun hno => absurd hself (hno c _)⟩
    · show s.typed = s.read ++ [s.uart.rx.headD 0] ++ s.uart.rx.tail
      rw [h.typed, hrx, List.append_assoc]
      rfl
    · have hc' : Function.update s.hart c (.intr (.got (s.uart.rx.headD 0))) c' = _ := hc'
      by_cases he : c' = c
      · rw [he, Function.update_self] at hc'
        cases hc'
      · rw [Function.update_of_ne he] at hc'
        exact absurd (halone hc' hc rfl rfl) he
    · have hc' : Function.update s.hart c (.intr (.got (s.uart.rx.headD 0))) c' = _ := hc'
      show s.read ++ _ = s.got ++ [b']
      by_cases he : c' = c
      · rw [he, Function.update_self] at hc'
        rw [Stage.got.inj (Hart.intr.inj hc'), hidle]
      · rw [Function.update_of_ne he] at hc'
        exact absurd (halone hc' hc rfl rfl) he
  | disk hc => exact hstill rfl rfl rfl rfl rfl hc nofun nofun nofun
  | complete hc => exact hstill rfl rfl rfl rfl rfl hc nofun nofun nofun
  | @consoleintr c b bs hc =>
    have hread := h.got c b hc
    refine ⟨h.typed, fun c' hc' => ?_, fun c' b' hc' => ?_, fun _ => hread⟩
    · have hc' : Function.update s.hart c (.puts true bs) c' = _ := hc'
      by_cases he : c' = c
      · rw [he, Function.update_self] at hc'
        exact absurd hc' (puts_ne_intr _ _ nofun)
      · rw [Function.update_of_ne he] at hc'
        exact h.rhr c' hc'
    · have hc' : Function.update s.hart c (.puts true bs) c' = _ := hc'
      by_cases he : c' = c
      · rw [he, Function.update_self] at hc'
        exact absurd hc' (puts_ne_got _ _ _)
      · rw [Function.update_of_ne he] at hc'
        exact absurd (halone hc' hc rfl rfl) he
  | @input b hroom =>
    refine ⟨?_, fun _ _ => ?_, h.got, h.idle⟩
    · show s.typed ++ [b] = s.read ++ (s.uart.rx ++ [b])
      rw [h.typed, List.append_assoc]
    · exact List.append_ne_nil_of_right_ne_nil _ (List.cons_ne_nil _ _)
  | _ => exact ⟨h.typed, h.rhr, h.got, h.idle⟩

/-! ## Runs -/

theorem Inv.move [Fintype C] (h : Inv s) (hC : Fintype.card C ≤ NCPU) (hm : Move s a s') :
    Inv s' where
  lock := h.lock.move hm
  plic := h.plic.move hm
  fifo := h.fifo.move h.lock hm
  send := h.send.move h.fifo hC hm
  wake := h.wake.move hm
  read := h.read.move h.plic hm

theorem Init.inv (h : Init s) : Inv s where
  lock := by
    refine ⟨fun c => ?_, fun p => ?_⟩
    · rw [h.hart, h.tx_lock]
      exact ⟨nofun, nofun⟩
    · rw [h.ctl]
      refine ⟨nofun, fun ⟨c, hc⟩ => nomatch (h.hart c).symm.trans hc⟩
  plic := by
    refine ⟨fun irq hi => ?_, fun c c' _ hne => ?_,
      fun c irq hc => absurd ((h.hart c).symm.trans hc) nofun⟩
    · rw [h.claimed]
      refine ⟨nofun, fun ⟨c, hc⟩ => absurd ?_ hi⟩
      rw [← hc, h.hart]
      rfl
    · rw [h.hart] at hne
      exact absurd rfl hne
  fifo := by
    have hk : keys s = [] := by
      unfold keys
      rw [h.fifo]
      rfl
    refine ⟨?_, fun c _ => ?_, fun hn => ?_, fun _ _ _ _ _ => h.tx_busy⟩
    · rw [hk]
      exact List.nodup_nil
    · rw [hk]
      exact List.not_mem_nil
    · rw [hk] at hn
      exact absurd hn List.not_mem_nil
  send := by
    refine ⟨h.lost, fun p pc f buf i hp => absurd ((h.ctl p).symm.trans hp) nofun, fun w => ?_,
      fun p => ?_⟩
    · have hl : left s w = [] := by
        cases w with
        | proc p => exact congrArg Ctl.left (h.ctl p)
        | hart c => exact congrArg Hart.left (h.hart c)
      rw [h.out, h.fifo, h.asked, hl]
      rfl
    · rw [h.asked, h.returned, h.ctl]
      rfl
  wake := by
    refine ⟨fun p hp => ?_, fun hb => ?_⟩
    · rw [h.ctl] at hp
      cases hp
    · exact absurd (h.tx_busy.symm.trans hb) Bool.false_ne_true
  read := by
    refine ⟨?_, fun c hc => absurd ((h.hart c).symm.trans hc) nofun,
      fun c b hc => absurd ((h.hart c).symm.trans hc) nofun, fun _ => h.read.trans h.got.symm⟩
    rw [h.typed, h.read, h.rx]
    rfl

theorem reach_inv [Fintype C] (hC : Fintype.card C ≤ NCPU) (h : Reach step Any Init s) : Inv s :=
  h.inv (fun _ => Init.inv) fun hi _ hs => hi.move hC (step_move hs)

/-- What has become of what was to be written. -/
structure Output [Fintype C] (s : Sys C P) : Prop where
  lost : s.lost = []
  fifo : s.uart.fifo.length ≤ Fintype.card C + 1
  /-- In the order in which they were asked for, and each once. -/
  bytes : ∀ w, ofWriter w (s.out ++ s.uart.fifo) ++ left s w = s.asked w
  /-- The results of `consolewrite`, all calls together. -/
  returned : ∀ p, s.ctl p = .user →
    (ofWriter (.proc p) (s.out ++ s.uart.fifo)).length = s.returned p

/-- **Output is complete and in order.** -/
theorem uart_output [Fintype C] (hC : Fintype.card C ≤ NCPU) (h : Reach step Any Init s) :
    Output s := by
  have hi := reach_inv hC h
  refine ⟨hi.send.lost, ?_, hi.send.bytes, fun p hp => ?_⟩
  · have hle := hi.fifo.nodup.length_le_card
    rwa [Fintype.card_option, keys, List.length_map] at hle
  · have hb := hi.send.bytes (.proc p)
    have hl : left s (.proc p) = [] := congrArg Ctl.left hp
    rw [hl, List.append_nil] at hb
    rw [hb, hi.send.copied p, hp]
    rfl

/-- Two harts and two processes. -/
def Sys.fresh : Sys Bool Bool where
  uart := ⟨[], [], false⟩
  plic := ⟨fun _ => false, fun _ => false⟩
  tx_lock := none
  tx_busy := false
  hart _ := .other
  ctl _ := .user
  out := []
  lost := []
  asked _ := []
  returned _ := 0
  typed := []
  read := []
  got := []

theorem fresh_init : Init Sys.fresh := by
  constructor <;> intros <;> rfl

/-- A process writes `hi`, and sleeps after the first byte, which is then sent; a hart has found
the FIFO empty. -/
def halfWritten : List (Act Bool Bool) :=
  [.write false 2, .batch false (some [104, 105]), .acquire false false, .run false, .run false,
    .run false, .run false, .run false, .send, .print true [33], .run true]

theorem uart_output_half :
    ∃ s, runFrom step Sys.fresh halfWritten = some s ∧ left s (.proc false) = [105] ∧
      left s (.hart true) = [33] ∧ Output s := by
  have hobs : (runFrom step Sys.fresh halfWritten).map
      (fun s => (left s (.proc false), left s (.hart true))) = some ([105], [33]) := by decide
  obtain ⟨s, hs, hobs⟩ := Option.map_eq_some_iff.mp hobs
  obtain ⟨hproc, hhart⟩ := Prod.mk.inj hobs
  have hreach : Reach step Any Init s :=
    .of_run halfWritten (.start fresh_init) (RunOk.any _ _ _) hs
  exact ⟨s, hs, hproc, hhart, uart_output (by decide) hreach⟩

/-- What has become of what came in: `uartintr` has given it to `consoleintr`, is about to, or
finds it in the FIFO. -/
structure Input (s : Sys C P) : Prop where
  alone : ∀ c c', (s.hart c).irq = UART0_IRQ → (s.hart c').irq = UART0_IRQ → c = c'
  bytes : ∃ held, held.length ≤ 1 ∧ s.typed = s.got ++ held ++ s.uart.rx
  /-- `ReadReg(RHR)` finds a byte. -/
  rhr : ∀ c, s.hart c = .intr .rhr → s.uart.rx ≠ []

/-- **Input is complete and in order.** -/
theorem uart_input [Fintype C] (hC : Fintype.card C ≤ NCPU) (h : Reach step Any Init s) :
    Input s := by
  have hi := reach_inv hC h
  refine ⟨fun c c' hc hc' => hi.plic.alone c c' (hc.trans hc'.symm) ?_, ?_, hi.read.rhr⟩
  · rw [hc]
    decide
  · by_cases hg : ∃ c b, s.hart c = .intr (.got b)
    · obtain ⟨c, b, hc⟩ := hg
      exact ⟨[b], Nat.le_refl 1, hi.read.got c b hc ▸ hi.read.typed⟩
    · have hidle := hi.read.idle fun c b hc => hg ⟨c, b, hc⟩
      refine ⟨[], Nat.zero_le 1, ?_⟩
      rw [hi.read.typed, hidle, List.append_nil]

/-- Of two bytes that come in, the first has been read. -/
def halfRead : List (Act Bool Bool) :=
  [.input 97, .input 98, .gateway, .trap true, .run true, .run true, .run true, .run true,
    .run true, .run true, .run true, .run true, .run true]

theorem uart_input_half :
    ∃ s, runFrom step Sys.fresh halfRead = some s ∧ s.hart true = .intr (.got 97) ∧
      s.uart.rx = [98] ∧ Input s := by
  have hobs : (runFrom step Sys.fresh halfRead).map (fun s => (s.hart true, s.uart.rx)) =
      some (.intr (.got 97), [98]) := by decide
  obtain ⟨s, hs, hobs⟩ := Option.map_eq_some_iff.mp hobs
  obtain ⟨hhart, hrx⟩ := Prod.mk.inj hobs
  have hreach : Reach step Any Init s :=
    .of_run halfRead (.start fresh_init) (RunOk.any _ _ _) hs
  exact ⟨s, hs, hhart, hrx, uart_input (by decide) hreach⟩

end Safe

end Xv6.Uart
