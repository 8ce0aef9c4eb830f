import Xv6.Uart.Inv
import Mathlib.Data.List.GetD

/-!
# What is written to the UART

`FifoInv` keeps the bytes of the FIFO apart, so that there is room for the next one
(`FifoInv.room`) and none is lost; `SendInv` then follows every writer's bytes through the FIFO
to the line.
-/

namespace Xv6.Uart

open Lib

variable {C P : Type*} [DecidableEq C] [DecidableEq P] {s s' : Sys C P} {c : C} {p : P}
  {x : Hart P} {a : Act C P} {w : Writer C P} {b : UInt8}

/-! ## The FIFO -/

section

omit [DecidableEq C] [DecidableEq P]

theorem nodup_put (h : (keys s).Nodup) (hw : w.key ∉ keys s) : (keys (s.put w b)).Nodup := by
  unfold Sys.put
  split
  · show (List.map (fun x : Writer C P × UInt8 => x.1.key) (s.uart.fifo ++ [(w, b)])).Nodup
    rw [List.map_append]
    exact List.Nodup.append h (List.nodup_singleton _) (List.disjoint_singleton.mpr hw)
  · exact h

theorem mem_put {k : Option C} (h : k ∈ keys (s.put w b)) : k ∈ keys s ∨ k = w.key := by
  unfold Sys.put at h
  split at h
  · have h : k ∈ List.map (fun x : Writer C P × UInt8 => x.1.key) (s.uart.fifo ++ [(w, b)]) := h
    rw [List.map_append] at h
    exact (List.mem_append.mp h).imp_right List.mem_singleton.mp
  · exact Or.inl h

@[simp] theorem put_busy (w : Writer C P) (b : UInt8) : (s.put w b).tx_busy = s.tx_busy := by
  unfold Sys.put
  split <;> rfl

@[simp] theorem put_asked (w : Writer C P) (b : UInt8) : (s.put w b).asked = s.asked := by
  unfold Sys.put
  split <;> rfl

@[simp] theorem put_returned (w : Writer C P) (b : UInt8) :
    (s.put w b).returned = s.returned := by
  unfold Sys.put
  split <;> rfl

theorem FifoInv.stay (h : FifoInv s) (hf : s'.uart.fifo = s.uart.fifo)
    (hb : s'.tx_busy = s.tx_busy) (hr : ∀ c, (s'.hart c).ready = true → (s.hart c).ready = true)
    (hcl : ∀ c, s'.hart c = .intr .clear → s.hart c = .intr .clear)
    (hw : ∀ p f buf i, s'.ctl p = .uart .write f buf i → s.ctl p = .uart .write f buf i) :
    FifoInv s' := by
  have hk : keys s' = keys s := congrArg (List.map _) hf
  refine ⟨hk ▸ h.nodup, fun c hc => hk ▸ h.ready c (hr c hc), fun hn => ?_, fun p f buf i hp => ?_⟩
  · obtain ⟨hbusy, hno⟩ := h.sent (hk ▸ hn)
    exact ⟨hb.trans hbusy, fun c hc => hno c (hcl c hc)⟩
  · exact hb.trans (h.write p f buf i (hw p f buf i hp))

end

omit [DecidableEq P] in
theorem ready_update (hx : x.ready = false) (c' : C)
    (h : (Function.update s.hart c x c').ready = true) : (s.hart c').ready = true := by
  by_cases hc : c' = c
  · rw [hc, Function.update_self, hx] at h
    cases h
  · rwa [Function.update_of_ne hc] at h

omit [DecidableEq P] in
theorem clear_update (hx : x ≠ .intr .clear) (c' : C)
    (h : Function.update s.hart c x c' = .intr .clear) : s.hart c' = .intr .clear := by
  by_cases hc : c' = c
  · rw [hc, Function.update_self] at h
    exact absurd h hx
  · rwa [Function.update_of_ne hc] at h

omit [DecidableEq C] in
theorem write_update {y : Ctl} (hy : ∀ f buf i, y ≠ .uart .write f buf i) (q : P) (f : Frame)
    (buf : List UInt8) (i : Nat) (h : Function.update s.ctl p y q = .uart .write f buf i) :
    s.ctl q = .uart .write f buf i := by
  by_cases hq : q = p
  · rw [hq, Function.update_self] at h
    exact absurd h (hy f buf i)
  · rwa [Function.update_of_ne hq] at h

theorem write_wake {y : Ctl} {f : Frame} {buf : List UInt8} {i : Nat}
    (h : y.wake = .uart .write f buf i) : y = .uart .write f buf i := by
  unfold Ctl.wake at h
  split at h
  · cases h
  · exact h

omit [DecidableEq P] in
theorem puts_ready (back : Bool) (bs : List UInt8) :
    (Hart.puts back bs : Hart P).ready = false := by
  cases bs with
  | nil => cases back <;> rfl
  | cons b bs => rfl

omit [DecidableEq P] in
theorem puts_ne_intr (back : Bool) (bs : List UInt8) {st : Stage} (hst : st ≠ .getc) :
    (Hart.puts back bs : Hart P) ≠ .intr st := by
  cases bs with
  | nil =>
    cases back with
    | false => exact nofun
    | true => exact fun h => hst (Hart.intr.inj h).symm
  | cons b bs => exact nofun

theorem serve_ne {irq : Nat} (st : Stage) (h₁ : st ≠ .isr) (h₂ : st ≠ .disk) : serve irq ≠ st := by
  unfold serve
  split
  · exact h₁.symm
  · exact h₂.symm

theorem FifoInv.move (h : FifoInv s) (hl : LockInv s) (hm : Move s a s') : FifoInv s' := by
  have hstill : ∀ {t : Sys C P} {y : Hart P} {c : C}, t.uart.fifo = s.uart.fifo →
      t.tx_busy = s.tx_busy → t.hart = Function.update s.hart c y → t.ctl = s.ctl →
      y.ready = false → y ≠ .intr .clear → FifoInv t := fun {t y c} hf hb hh ht hr hc =>
    h.stay hf hb (fun c' => by rw [hh]; exact ready_update hr c')
      (fun c' => by rw [hh]; exact clear_update hc c') fun _ _ _ _ => by rw [ht]; exact id
  have hgoto : ∀ {t : Sys C P} {p : P} {y : Ctl}, t.uart.fifo = s.uart.fifo →
      t.tx_busy = s.tx_busy → t.hart = s.hart → t.ctl = Function.update s.ctl p y →
      (∀ f buf i, y ≠ .uart .write f buf i) → FifoInv t := fun {t p y} hf hb hh ht hy =>
    h.stay hf hb (fun c' => by rw [hh]; exact id) (fun c' => by rw [hh]; exact id)
      fun q f buf i => by rw [ht]; exact write_update hy q f buf i
  have hboth : ∀ {t : Sys C P} {p : P} {c : C} {x : Hart P} {y : Ctl},
      t.uart.fifo = s.uart.fifo → t.tx_busy = s.tx_busy → t.hart = Function.update s.hart c x →
      t.ctl = Function.update s.ctl p y → x.ready = false → x ≠ .intr .clear →
      (∀ f buf i, y ≠ .uart .write f buf i) → FifoInv t :=
    fun {t p c x y} hf hb hh ht hr hc hy =>
      h.stay hf hb (fun c' => by rw [hh]; exact ready_update hr c')
        (fun c' => by rw [hh]; exact clear_update hc c')
        fun q f buf i => by rw [ht]; exact write_update hy q f buf i
  cases hm with
  | call hp => exact hgoto rfl rfl rfl rfl nofun
  | copied hp => exact hgoto rfl rfl rfl rfl nofun
  | ret hp => exact hgoto rfl rfl rfl rfl nofun
  | @kill p =>
    refine h.stay rfl rfl (fun _ => id) (fun _ => id) fun q f buf i hq => ?_
    have hq : Function.update s.ctl p (s.ctl p).wake q = .uart .write f buf i := hq
    by_cases hqp : q = p
    · rw [hqp, Function.update_self] at hq
      exact hqp ▸ write_wake hq
    · rwa [Function.update_of_ne hqp] at hq
  | @acquire p c pc pc' f buf i hn hc hp hx =>
    refine hboth rfl rfl rfl rfl rfl nofun fun f' buf' i' he => ?_
    rcases hx with ⟨-, rfl⟩ | ⟨-, rfl⟩ <;> cases he
  | more hc hp hi => exact hgoto rfl rfl rfl rfl nofun
  | leave hc hp hi => exact hboth rfl rfl rfl rfl rfl nofun nofun
  | sleep hc hp hb => exact hboth rfl rfl rfl rfl rfl nofun nofun
  | @free p c f buf i hc hp hb =>
    refine ⟨h.nodup, h.ready, h.sent, fun q f' buf' i' hq => ?_⟩
    have hq : Function.update s.ctl p (.uart .write f buf i) q = _ := hq
    by_cases hqp : q = p
    · exact hb
    · rw [Function.update_of_ne hqp] at hq
      exact h.write q f' buf' i' hq
  | @thr p c f buf i hc hp =>
    have hbusy := h.write p f buf i hp
    have hno : none ∉ keys s := fun hn => Bool.false_ne_true (hbusy.symm.trans (h.sent hn).1)
    refine ⟨nodup_put h.nodup hno, fun c' hr hk => ?_, fun _ => ⟨rfl, fun c' hc' => ?_⟩,
      fun q f' buf' i' hq => ?_⟩
    · have hr : ((s.put (.proc p) (buf.getD i 0)).hart c').ready = true := hr
      rw [put_hart] at hr
      rcases mem_put hk with hk | hk
      · exact h.ready c' hr hk
      · exact nomatch hk
    · -- it would have the lock
      have hc' : (s.put (.proc p) (buf.getD i 0)).hart c' = .intr .clear := hc'
      rw [put_hart] at hc'
      obtain rfl : c = c' := hl.alone (by rw [hc]; rfl) (by rw [hc']; rfl)
      exact nomatch hc.symm.trans hc'
    · have hq : Function.update (s.put (.proc p) (buf.getD i 0)).ctl p
        (.uart .top f buf (i + 1)) q = .uart .write f' buf' i' := hq
      rw [put_ctl] at hq
      by_cases hqp : q = p
      · rw [hqp, Function.update_self] at hq
        cases hq
      · -- so would another process
        rw [Function.update_of_ne hqp] at hq
        obtain ⟨c', hc'⟩ := (hl.write q).mp (by rw [hq]; rfl)
        obtain rfl : c = c' := hl.alone (by rw [hc]; rfl) (by rw [hc']; rfl)
        exact absurd (Hart.write.inj (hc'.symm.trans hc)) hqp
  | print hc => exact hstill rfl rfl rfl rfl (puts_ready _ _) (puts_ne_intr _ _ nofun)
  | @ready c back b bs hc hf =>
    have hk : keys s = [] := by
      unfold keys
      rw [hf]
      rfl
    refine ⟨h.nodup, fun _ _ => ?_, fun hn => ?_, h.write⟩
    · show _ ∉ keys s
      rw [hk]
      exact List.not_mem_nil
    · have hn : none ∈ keys s := hn
      rw [hk] at hn
      exact absurd hn List.not_mem_nil
  | @putc c back b bs hc =>
    have hno : some c ∉ keys s := h.ready c (by rw [hc]; rfl)
    refine ⟨nodup_put h.nodup hno, fun c' hr hk => ?_, fun hn => ?_, fun q f buf i hq => ?_⟩
    · have hr : (Function.update (s.put (.hart c) b).hart c (.puts back bs) c').ready = true := hr
      rw [put_hart] at hr
      rcases mem_put hk with hk | hk
      · exact h.ready c' (ready_update (puts_ready _ _) c' hr) hk
      · rw [Option.some.inj hk, Function.update_self, puts_ready] at hr
        cases hr
    · obtain ⟨hb, hcl⟩ := h.sent ((mem_put hn).resolve_right nofun)
      refine ⟨(put_busy _ _).trans hb, fun c' hc' => hcl c' ?_⟩
      have hc' : Function.update (s.put (.hart c) b).hart c (.puts back bs) c' = _ := hc'
      rw [put_hart] at hc'
      exact clear_update (puts_ne_intr _ _ nofun) c' hc'
    · refine (put_busy _ _).trans (h.write q f buf i ?_)
      have hq : (s.put (.hart c) b).ctl q = _ := hq
      rwa [put_ctl] at hq
  | trap hc hb => exact hstill rfl rfl rfl rfl rfl nofun
  | claim hc hb =>
    exact hstill rfl rfl rfl rfl rfl fun he =>
      serve_ne .clear nofun nofun (Hart.intr.inj he)
  | nothing hc hb => exact hstill rfl rfl rfl rfl rfl nofun
  | isr hc =>
    refine hstill ?_ rfl rfl rfl rfl nofun
    show s.uart.readIsr.fifo = _
    unfold Dev.readIsr
    split <;> rfl
  | lock hc hn => exact hstill rfl rfl rfl rfl rfl nofun
  | idle hc hf =>
    have hk : keys s = [] := by
      unfold keys
      rw [hf]
      rfl
    refine ⟨h.nodup, fun c' hr => h.ready c' (ready_update rfl c' hr), fun hn => ?_, h.write⟩
    have hn : none ∈ keys s := hn
    rw [hk] at hn
    exact absurd hn List.not_mem_nil
  | sending hc hf => exact hstill rfl rfl rfl rfl rfl nofun
  | @clear c hc =>
    refine ⟨h.nodup, fun c' hr => h.ready c' (ready_update rfl c' hr),
      fun hn => absurd hc ((h.sent hn).2 c), fun _ _ _ _ _ => rfl⟩
  | wake hc =>
    exact h.stay rfl rfl (fun c' => ready_update (x := .intr .release) rfl c')
      (fun c' => clear_update (x := .intr .release) nofun c')
      fun _ _ _ _ => write_wake
  | release hc => exact hstill rfl rfl rfl rfl rfl nofun
  | waiting hc hr => exact hstill rfl rfl rfl rfl rfl nofun
  | empty hc hr => exact hstill rfl rfl rfl rfl rfl nofun
  | rhr hc => exact hstill rfl rfl rfl rfl rfl nofun
  | disk hc => exact hstill rfl rfl rfl rfl rfl nofun
  | complete hc => exact hstill rfl rfl rfl rfl rfl nofun
  | consoleintr hc => exact hstill rfl rfl rfl rfl (puts_ready _ _) (puts_ne_intr _ _ nofun)
  | @send x fifo hf =>
    have hk : keys s = x.1.key :: fifo.map fun x => x.1.key := by
      unfold keys
      rw [hf]
      rfl
    have hsub : ∀ k, k ∈ fifo.map (fun x => x.1.key) → k ∈ keys s := fun k hm => by
      rw [hk]
      exact List.mem_cons_of_mem _ hm
    have hnd := h.nodup
    rw [hk] at hnd
    exact ⟨(List.nodup_cons.mp hnd).2, fun c' hr hm => h.ready c' hr (hsub _ hm),
      fun hn => h.sent (hsub _ hn), h.write⟩
  | _ => exact ⟨h.nodup, h.ready, h.sent, h.write⟩

omit [DecidableEq C] [DecidableEq P] in
/-- There is room for the byte of a writer that has none in the FIFO. -/
theorem FifoInv.room [Fintype C] (h : FifoInv s) (hC : Fintype.card C ≤ NCPU) {k : Option C}
    (hk : k ∉ keys s) : s.uart.fifo.length < FIFO := by
  have hle := (List.nodup_cons.mpr ⟨hk, h.nodup⟩).length_le_card
  rw [List.length_cons, Fintype.card_option, keys, List.length_map] at hle
  unfold NCPU at hC
  unfold FIFO
  omega

/-! ## The bytes of a writer -/

theorem ofWriter_append (l l' : List (Writer C P × UInt8)) :
    ofWriter w (l ++ l') = ofWriter w l ++ ofWriter w l' := by
  unfold ofWriter
  rw [List.filter_append, List.map_append]

theorem ofWriter_self : ofWriter w [(w, b)] = [b] := by
  unfold ofWriter
  rw [List.filter_cons_of_pos (by exact decide_eq_true rfl)]
  rfl

theorem ofWriter_ne {w' : Writer C P} (h : w' ≠ w) : ofWriter w [(w', b)] = [] := by
  unfold ofWriter
  rw [List.filter_cons_of_neg (by exact fun hd => h (of_decide_eq_true hd))]
  rfl

theorem Bytes.stay (h : Bytes s) (hf : s'.uart.fifo = s.uart.fifo) (ho : s'.out = s.out)
    (ha : s'.asked = s.asked) (hl : ∀ w, left s' w = left s w) : Bytes s' := fun w => by
  rw [hf, ho, ha, hl w]
  exact h w

/-- A writer with nothing left is asked for more. -/
theorem Bytes.ask (h : Bytes s) (bs : List UInt8) (hf : s'.uart.fifo = s.uart.fifo)
    (ho : s'.out = s.out) (ha : s'.asked = Function.update s.asked w (s.asked w ++ bs))
    (hold : left s w = []) (hnew : left s' w = bs) (hl : ∀ w', w' ≠ w → left s' w' = left s w') :
    Bytes s' := fun w' => by
  rw [hf, ho, ha]
  by_cases hw : w' = w
  · rw [hw, Function.update_self, hnew, ← h w, hold, List.append_nil]
  · rw [Function.update_of_ne hw, hl w' hw]
    exact h w'

/-- A writer writes the first byte that is left. -/
theorem Bytes.put (h : Bytes s) (hf : s'.uart.fifo = s.uart.fifo ++ [(w, b)])
    (ho : s'.out = s.out) (ha : s'.asked = s.asked) (hw : left s w = b :: left s' w)
    (hl : ∀ w', w' ≠ w → left s' w' = left s w') : Bytes s' := fun w' => by
  rw [hf, ho, ha, ← List.append_assoc, ofWriter_append, ← h w']
  by_cases hw' : w' = w
  · rw [hw', ofWriter_self, hw, List.append_assoc]
    rfl
  · rw [ofWriter_ne (Ne.symm hw'), List.append_nil, hl w' hw']

omit [DecidableEq C] in
theorem left_goto {y : Ctl} (hh : ∀ c, (s'.hart c).left = (s.hart c).left)
    (ht : s'.ctl = Function.update s.ctl p y) (hy : y.left = (s.ctl p).left) (w : Writer C P) :
    left s' w = left s w := by
  cases w with
  | hart c => exact hh c
  | proc q =>
    show (s'.ctl q).left = (s.ctl q).left
    rw [ht]
    by_cases hq : q = p
    · rw [hq, Function.update_self, hy]
    · rw [Function.update_of_ne hq]

section

omit [DecidableEq P]

theorem hart_left (hx : x.left = (s.hart c).left) (c' : C) :
    (Function.update s.hart c x c').left = (s.hart c').left := by
  by_cases hc : c' = c
  · rw [hc, Function.update_self, hx]
  · rw [Function.update_of_ne hc]

theorem left_hart (hh : s'.hart = Function.update s.hart c x)
    (ht : ∀ p, (s'.ctl p).left = (s.ctl p).left) (hx : x.left = (s.hart c).left)
    (w : Writer C P) : left s' w = left s w := by
  cases w with
  | proc p => exact ht p
  | hart c' =>
    show (s'.hart c').left = (s.hart c').left
    rw [hh]
    exact hart_left hx c'

theorem puts_left (back : Bool) (bs : List UInt8) : (Hart.puts back bs : Hart P).left = bs := by
  cases bs with
  | nil => cases back <;> rfl
  | cons b bs => rfl

end

theorem wake_left (y : Ctl) : y.wake.left = y.left := by
  unfold Ctl.wake
  split <;> rfl

omit [DecidableEq C] [DecidableEq P] in
theorem put_room (h : s.uart.fifo.length < FIFO) (w : Writer C P) (b : UInt8) :
    s.put w b = { s with uart := { s.uart with fifo := s.uart.fifo ++ [(w, b)], thri := false } } :=
  if_pos h

theorem Bytes.move [Fintype C] (h : Bytes s) (hf : FifoInv s) (hC : Fintype.card C ≤ NCPU)
    (hindex : ∀ p f buf i, s.ctl p = .uart .write f buf i → i < buf.length)
    (hm : Move s a s') : Bytes s' := by
  have hstill : ∀ {t : Sys C P} {y : Hart P} {c : C}, t.uart.fifo = s.uart.fifo → t.out = s.out →
      t.asked = s.asked → t.hart = Function.update s.hart c y → t.ctl = s.ctl →
      y.left = (s.hart c).left → Bytes t := fun {t y c} hf ho ha hh ht hy =>
    h.stay hf ho ha (left_hart hh (fun p => by rw [ht]) hy)
  have hgoto : ∀ {t : Sys C P} {p : P} {y : Ctl}, t.uart.fifo = s.uart.fifo → t.out = s.out →
      t.asked = s.asked → (∀ c, (t.hart c).left = (s.hart c).left) →
      t.ctl = Function.update s.ctl p y → y.left = (s.ctl p).left → Bytes t :=
    fun {t p y} hf ho ha hh ht hy => h.stay hf ho ha (left_goto hh ht hy)
  have hother : ∀ {t : Sys C P} {y : Hart P} {c : C}, t.hart = Function.update s.hart c y →
      t.ctl = s.ctl → ∀ w', w' ≠ .hart c → left t w' = left s w' := fun {t y c} hh ht w' hw => by
    cases w' with
    | proc p => exact congrArg (fun f => (f p).left) ht
    | hart c' =>
      show (t.hart c').left = _
      rw [hh, Function.update_of_ne fun hc => hw (congrArg _ hc)]
      rfl
  cases hm with
  | call hp => exact hgoto rfl rfl rfl (fun _ => rfl) rfl (by rw [hp]; rfl)
  | @copied p f bs hp hlt hlen =>
    refine h.ask (w := .proc p) bs rfl rfl rfl ?_ ?_ fun w' hw => ?_
    · show (s.ctl p).left = []
      rw [hp]
      rfl
    · show (Function.update s.ctl p (.uart .enter f bs 0) p).left = bs
      rw [Function.update_self]
      rfl
    · cases w' with
      | hart c => rfl
      | proc q =>
        show (Function.update s.ctl p (.uart .enter f bs 0) q).left = _
        rw [Function.update_of_ne fun hq => hw (congrArg _ hq)]
        rfl
  | ret hp => exact hgoto rfl rfl rfl (fun _ => rfl) rfl (by rw [hp]; rfl)
  | kill => exact hgoto rfl rfl rfl (fun _ => rfl) rfl (wake_left _)
  | acquire hl hc hp hx =>
    exact hgoto rfl rfl rfl (hart_left (by rw [hc]; rfl)) rfl (by rw [hp]; rfl)
  | more hc hp hi => exact hgoto rfl rfl rfl (fun _ => rfl) rfl (by rw [hp]; rfl)
  | leave hc hp hi =>
    refine hgoto rfl rfl rfl (hart_left (by rw [hc]; rfl)) rfl ?_
    rw [hp]
    exact (List.drop_eq_nil_of_le hi).symm
  | sleep hc hp hb =>
    exact hgoto rfl rfl rfl (hart_left (by rw [hc]; rfl)) rfl (by rw [hp]; rfl)
  | free hc hp hb => exact hgoto rfl rfl rfl (fun _ => rfl) rfl (by rw [hp]; rfl)
  | @thr p c f buf i hc hp =>
    have hbusy := hf.write p f buf i hp
    have hno : none ∉ keys s := fun hn => Bool.false_ne_true (hbusy.symm.trans (hf.sent hn).1)
    have hi := hindex p f buf i hp
    rw [put_room (hf.room hC hno)]
    refine h.put (w := .proc p) (b := buf.getD i 0) rfl rfl rfl ?_ fun w' hw => ?_
    · show (s.ctl p).left = _ :: (Function.update s.ctl p (.uart .top f buf (i + 1)) p).left
      rw [hp, Function.update_self, List.getD_eq_getElem buf 0 hi]
      exact List.drop_eq_getElem_cons hi
    · cases w' with
      | hart c => rfl
      | proc q =>
        show (Function.update s.ctl p (.uart .top f buf (i + 1)) q).left = _
        rw [Function.update_of_ne fun hq => hw (congrArg _ hq)]
        rfl
  | @print c bs hc =>
    refine h.ask (w := .hart c) bs rfl rfl rfl ?_ ?_ (hother (y := .puts false bs) rfl rfl)
    · show (s.hart c).left = []
      rw [hc]
      rfl
    · show (Function.update s.hart c (.puts false bs) c).left = bs
      rw [Function.update_self, puts_left]
  | ready hc hf => exact hstill rfl rfl rfl rfl rfl (by rw [hc]; rfl)
  | @putc c back b bs hc =>
    rw [put_room (hf.room hC (hf.ready c (by rw [hc]; rfl)))]
    refine h.put (w := .hart c) (b := b) rfl rfl rfl ?_ (hother (y := .puts back bs) rfl rfl)
    show (s.hart c).left = b :: (Function.update s.hart c (.puts back bs) c).left
    rw [hc, Function.update_self, puts_left]
    rfl
  | trap hc hb => exact hstill rfl rfl rfl rfl rfl (by rw [hc]; rfl)
  | claim hc hb => exact hstill rfl rfl rfl rfl rfl (by rw [hc]; rfl)
  | nothing hc hb => exact hstill rfl rfl rfl rfl rfl (by rw [hc]; rfl)
  | isr hc =>
    refine hstill ?_ rfl rfl rfl rfl (by rw [hc]; rfl)
    show s.uart.readIsr.fifo = _
    unfold Dev.readIsr
    split <;> rfl
  | lock hc hn => exact hstill rfl rfl rfl rfl rfl (by rw [hc]; rfl)
  | idle hc hf => exact hstill rfl rfl rfl rfl rfl (by rw [hc]; rfl)
  | sending hc hf => exact hstill rfl rfl rfl rfl rfl (by rw [hc]; rfl)
  | clear hc => exact hstill rfl rfl rfl rfl rfl (by rw [hc]; rfl)
  | wake hc =>
    exact h.stay rfl rfl rfl (left_hart (x := .intr .release) rfl (fun _ => wake_left _)
      (by rw [hc]; rfl))
  | release hc => exact hstill rfl rfl rfl rfl rfl (by rw [hc]; rfl)
  | waiting hc hr => exact hstill rfl rfl rfl rfl rfl (by rw [hc]; rfl)
  | empty hc hr => exact hstill rfl rfl rfl rfl rfl (by rw [hc]; rfl)
  | rhr hc => exact hstill rfl rfl rfl rfl rfl (by rw [hc]; rfl)
  | disk hc => exact hstill rfl rfl rfl rfl rfl (by rw [hc]; rfl)
  | complete hc => exact hstill rfl rfl rfl rfl rfl (by rw [hc]; rfl)
  | @consoleintr c b bs hc =>
    refine h.ask (w := .hart c) bs rfl rfl rfl ?_ ?_ (hother (y := .puts true bs) rfl rfl)
    · show (s.hart c).left = []
      rw [hc]
      rfl
    · show (Function.update s.hart c (.puts true bs) c).left = bs
      rw [Function.update_self, puts_left]
  | @send x fifo hf =>
    intro w
    show ofWriter w (s.out ++ [x] ++ fifo) ++ left s w = s.asked w
    rw [List.append_assoc, List.singleton_append, ← hf]
    exact h w
  | input => exact h
  | full => exact h
  | gateway => exact h
  | raise => exact h

theorem wake_uart {y : Ctl} {pc : Pc} {f : Frame} {buf : List UInt8} {i : Nat}
    (h : y.wake = .uart pc f buf i) : y = .uart pc f buf i ∨
      pc = .woken ∧ y = .uart .asleep f buf i := by
  unfold Ctl.wake at h
  split at h
  · obtain ⟨rfl, rfl, rfl, rfl⟩ := Ctl.uart.inj h
    exact Or.inr ⟨rfl, rfl⟩
  · exact Or.inl h

theorem wake_copied (y : Ctl) : y.wake.copied = y.copied := by
  unfold Ctl.wake
  split <;> rfl

theorem SendInv.index_move (h : SendInv s) (hm : Move s a s') (q : P) {pc : Pc} {f : Frame}
    {buf : List UInt8} {i : Nat} (hq : s'.ctl q = .uart pc f buf i) (he : pc ≠ .enter)
    (ht : pc ≠ .top) : i < buf.length := by
  have hgoto : ∀ {p : P} {y : Ctl}, Function.update s.ctl p y q = .uart pc f buf i →
      (y = .uart pc f buf i → i < buf.length) → i < buf.length := fun {p y} hq hy => by
    by_cases hqp : q = p
    · rw [hqp, Function.update_self] at hq
      exact hy hq
    · rw [Function.update_of_ne hqp] at hq
      exact h.index q pc f buf i hq he ht
  have hwake : ∀ q, (s.ctl q).wake = .uart pc f buf i → i < buf.length := fun q hq => by
    rcases wake_uart hq with hq | ⟨-, hq⟩
    · exact h.index q pc f buf i hq he ht
    · exact h.index q .asleep f buf i hq nofun nofun
  cases hm with
  | call hp => exact hgoto hq nofun
  | copied hp => exact hgoto hq fun hy => absurd (Ctl.uart.inj hy).1.symm he
  | ret hp => exact hgoto hq nofun
  | @kill p => exact hgoto hq (hwake p)
  | @acquire p c pc₀ pc' f' buf' i' hl hc hp hx =>
    refine hgoto hq fun hy => ?_
    obtain ⟨rfl, rfl, rfl, rfl⟩ := Ctl.uart.inj hy
    rcases hx with ⟨-, rfl⟩ | ⟨rfl, -⟩
    · exact absurd rfl ht
    · exact h.index p .woken f' buf' i' hp nofun nofun
  | more hc hp hi =>
    refine hgoto hq fun hy => ?_
    obtain ⟨-, rfl, rfl, rfl⟩ := Ctl.uart.inj hy
    exact hi
  | leave hc hp hi => exact hgoto hq nofun
  | sleep hc hp hb =>
    refine hgoto hq fun hy => ?_
    obtain ⟨-, rfl, rfl, rfl⟩ := Ctl.uart.inj hy
    exact h.index _ .wait _ _ _ hp nofun nofun
  | free hc hp hb =>
    refine hgoto hq fun hy => ?_
    obtain ⟨-, rfl, rfl, rfl⟩ := Ctl.uart.inj hy
    exact h.index _ .wait _ _ _ hp nofun nofun
  | @thr p c f' buf' i' hc hp =>
    have hq : Function.update (s.put (.proc p) (buf'.getD i' 0)).ctl p
      (.uart .top f' buf' (i' + 1)) q = .uart pc f buf i := hq
    rw [put_ctl] at hq
    exact hgoto hq fun hy => absurd (Ctl.uart.inj hy).1.symm ht
  | @putc c back b bs hc =>
    have hq : (s.put (.hart c) b).ctl q = .uart pc f buf i := hq
    rw [put_ctl] at hq
    exact h.index q pc f buf i hq he ht
  | wake hc => exact hwake q hq
  | _ => exact h.index q pc f buf i hq he ht

/-- What was copied in of all calls is what was returned, and what is of the present one. -/
theorem SendInv.copied_move (h : SendInv s) (hm : Move s a s') (q : P) :
    (s'.asked (.proc q)).length = s'.returned q + (s'.ctl q).copied := by
  have hgoto : ∀ {p : P} {y : Ctl}, y.copied = (s.ctl p).copied →
      (s.asked (.proc q)).length = s.returned q + (Function.update s.ctl p y q).copied :=
    fun {p y} hy => by
      rw [h.copied q]
      by_cases hqp : q = p
      · rw [hqp, Function.update_self, hy]
      · rw [Function.update_of_ne hqp]
  cases hm with
  | call hp => exact hgoto (by rw [hp]; rfl)
  | @copied p f bs hp hlt hlen =>
    show (Function.update s.asked (.proc p) (s.asked (.proc p) ++ bs) (.proc q)).length =
      s.returned q + (Function.update s.ctl p (.uart .enter f bs 0) q).copied
    by_cases hqp : q = p
    · have hold := h.copied p
      rw [hp] at hold
      rw [hqp, Function.update_self, Function.update_self, List.length_append, hold]
      exact Nat.add_assoc _ _ _
    · rw [Function.update_of_ne fun he => hqp (Writer.proc.inj he), Function.update_of_ne hqp]
      exact h.copied q
  | @ret p f r hp =>
    show (s.asked (.proc q)).length = Function.update s.returned p (s.returned p + f.i) q +
      (Function.update s.ctl p .user q).copied
    by_cases hqp : q = p
    · rw [hqp, Function.update_self, Function.update_self, h.copied p, hp]
      rfl
    · rw [Function.update_of_ne hqp, Function.update_of_ne hqp]
      exact h.copied q
  | kill => exact hgoto (wake_copied _)
  | acquire hl hc hp hx => exact hgoto (by rw [hp]; rfl)
  | more hc hp hi => exact hgoto (by rw [hp]; rfl)
  | leave hc hp hi => exact hgoto (by rw [hp]; rfl)
  | sleep hc hp hb => exact hgoto (by rw [hp]; rfl)
  | free hc hp hb => exact hgoto (by rw [hp]; rfl)
  | @thr p c f buf i hc hp =>
    show ((s.put (.proc p) (buf.getD i 0)).asked (.proc q)).length =
      (s.put (.proc p) (buf.getD i 0)).returned q +
        (Function.update (s.put (.proc p) (buf.getD i 0)).ctl p _ q).copied
    rw [put_asked, put_returned, put_ctl]
    exact hgoto (by rw [hp]; rfl)
  | @putc c back b bs hc =>
    show ((s.put (.hart c) b).asked (.proc q)).length =
      (s.put (.hart c) b).returned q + ((s.put (.hart c) b).ctl q).copied
    rw [put_asked, put_returned, put_ctl]
    exact h.copied q
  | @print c bs hc =>
    show (Function.update s.asked (.hart c) (s.asked (.hart c) ++ bs) (.proc q)).length = _
    rw [Function.update_of_ne (show Writer.proc q ≠ .hart c from nofun)]
    exact h.copied q
  | @consoleintr c b bs hc =>
    show (Function.update s.asked (.hart c) (s.asked (.hart c) ++ bs) (.proc q)).length = _
    rw [Function.update_of_ne (show Writer.proc q ≠ .hart c from nofun)]
    exact h.copied q
  | wake hc =>
    show _ = s.returned q + (s.ctl q).wake.copied
    rw [wake_copied]
    exact h.copied q
  | _ => exact h.copied q

theorem SendInv.lost_move [Fintype C] (h : SendInv s) (hf : FifoInv s)
    (hC : Fintype.card C ≤ NCPU) (hm : Move s a s') : s'.lost = [] := by
  cases hm with
  | @thr p c f buf i hc hp =>
    have hbusy := hf.write p f buf i hp
    have hno : none ∉ keys s := fun hn => Bool.false_ne_true (hbusy.symm.trans (hf.sent hn).1)
    rw [put_room (hf.room hC hno)]
    exact h.lost
  | putc hc =>
    rw [put_room (hf.room hC (hf.ready _ (by rw [hc]; rfl)))]
    exact h.lost
  | _ => exact h.lost

theorem SendInv.move [Fintype C] (h : SendInv s) (hf : FifoInv s) (hC : Fintype.card C ≤ NCPU)
    (hm : Move s a s') : SendInv s' where
  lost := h.lost_move hf hC hm
  index q _ _ _ _ hq := h.index_move hm q hq
  bytes := h.bytes.move hf hC (fun p f buf i hp => h.index p .write f buf i hp nofun nofun) hm
  copied := h.copied_move hm

end Xv6.Uart
