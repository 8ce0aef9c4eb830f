import Xv6.Trap.Swtch

/-!
# Registers follow their thread

The invariant behind `registers_follow` and `kernelvec_transparent`: a thread that no hart
is executing has its callee-saved registers in its context (`parked`), and one that is
interrupted has the others where `kernelvec` has pushed them (`frame`). A thread is
executed by one hart (`Intr.Inv.on_inj`), so nobody else saves into its context, and the
thread that `swtch` goes to is on no hart (`fresh`).
-/

namespace Xv6.Swtch

open Lib Lib.Isa
open Trap (Word Reg Csr swtch kernelvec kernelret Moves Stays Hands Made on_congr)
open Intr (Thread)

section Runs

variable {C P L : Type*}

/-- The invariant. -/
structure Inv (e : Env C P) (s : Sys C P L) : Prop where
  intr : Intr.Inv s.k
  tp : ∀ c, (s.hart c).reg .tp = e.hartid c
  regs : ∀ c, ∀ x ∈ context, (s.hart c).reg x.1 = s.own (s.k.on c) x.1
  parked : ∀ t, (∀ c, s.k.on c ≠ t) → ∀ x ∈ context, s.mem (e.context t + x.2) = s.own t x.1
  frame : ∀ t r, s.found t = some r → ∀ x ∈ pushed, s.mem (slot r x.2) = r x.1
  apart : ∀ t r, s.found t = some r → ∀ x ∈ pushed, ∀ t', ∀ y ∈ context,
    slot r x.2 ≠ e.context t' + y.2
  below : ∀ t, (s.k.stack t).below = [] ↔ s.found t = none

variable {e : Env C P} {s s' : Sys C P L} {c : C}

theorem Init.inv (h : Init e s) : Inv e s := by
  have hon : ∀ c, s.k.on c = .sched c := fun c => Intr.on_sched (h.k.proc c)
  refine ⟨h.k.inv, h.tp, fun c x _ => ?_, fun t ht x hx => ?_, fun t r hr => ?_,
    fun t r hr => ?_, fun t => ?_⟩
  · rw [hon, h.own]
  · cases t with
    | proc p => exact (h.context p x hx).symm
    | sched c => exact absurd (hon c) (ht c)
  · exact nomatch (h.found t).symm.trans hr
  · exact nomatch (h.found t).symm.trans hr
  · have hb : (s.k.stack t).below = [] := by
      cases t with
      | proc p => rw [h.k.start]; rfl
      | sched c => rw [h.k.sched]
    exact ⟨fun _ => h.found t, fun _ => hb⟩

/-- Nothing has happened but in `Intr`, and the threads are where they were. -/
theorem Inv.still (h : Inv e s) {k : Intr.Kernel C P L} (hi : Intr.Inv k)
    (hon : ∀ c, k.on c = s.k.on c) (hb : ∀ t, (k.stack t).below = (s.k.stack t).below) :
    Inv e { s with k := k } where
  intr := hi
  tp := h.tp
  regs c := by
    show ∀ x ∈ context, (s.hart c).reg x.1 = s.own (k.on c) x.1
    rw [hon]
    exact h.regs c
  parked t ht := h.parked t fun c => hon c ▸ ht c
  frame := h.frame
  apart := h.apart
  below t := by
    show (k.stack t).below = [] ↔ _
    rw [hb]
    exact h.below t

/-- C code writes to memory. -/
theorem Inv.write (h : Inv e s) {a w : Word} (ha : ¬Kept e s a) :
    Inv e { s with mem := Function.update s.mem a w } where
  intr := h.intr
  tp := h.tp
  regs := h.regs
  parked t ht x hx := by
    show Function.update s.mem a w _ = _
    rw [Function.update_of_ne fun heq => ha (Or.inl ⟨t, x, hx, heq.symm⟩)]
    exact h.parked t ht x hx
  frame t r hr x hx := by
    show Function.update s.mem a w _ = _
    rw [Function.update_of_ne fun heq => ha (Or.inr ⟨t, r, hr, x, hx, heq.symm⟩)]
    exact h.frame t r hr x hx
  apart := h.apart
  below := h.below

/-- An interrupt has found registers. -/
theorem Inv.interrupted (h : Inv e s) {f : Intr.At P L} {fs : List (Intr.At P L)}
    (hb : (s.k.cur c).below = f :: fs) : fs = [] ∧ ∃ r, s.found (s.k.on c) = some r := by
  refine ⟨?_, Option.ne_none_iff_exists'.mp fun hn => ?_⟩
  · rcases (h.intr.on c).below with hnil | ⟨g, hg, -⟩
    · exact nomatch hnil.symm.trans hb
    · exact (List.cons.inj (hb.symm.trans hg)).2
  · exact nomatch ((h.below _).mpr hn).symm.trans hb

/-- What the interrupted code finds. -/
theorem Inv.taken (h : Inv e s) {r : Reg → Word} (hr : s.found (s.k.on c) = some r)
    (hback : GivenBack (s.own (s.k.on c)) (some r)) :
    ∃ x, run mmu e.page kernelret (s.hart c, s.mem) = some (x, s.mem) ∧
      ∀ reg, x.reg reg = if reg = .tp then e.hartid c else r reg := by
  obtain ⟨x, hrun, hpopped, hsp, hrest⟩ := kernelret_spec (e := e) (h := s.hart c) (m := s.mem)
  have hreg : ∀ y ∈ context, (s.hart c).reg y.1 = s.own (s.k.on c) y.1 := h.regs c
  have hstack : (s.hart c).reg .sp = r .sp + -256 :=
    (hreg (.sp, 8) (by decide)).trans hback.1
  refine ⟨x, hrun, fun reg => ?_⟩
  rcases reg_cases reg with rfl | rfl | hmem | ⟨hmem, hra, hnsp, hno⟩
  · rw [if_pos rfl, hrest .tp (by decide) (by decide)]
    exact h.tp c
  · rw [if_neg (by decide), hsp, hstack]
    bv_omega
  · obtain ⟨y, hy, rfl⟩ := List.mem_map.mp hmem
    have hntp : ∀ y ∈ popped, y.1 ≠ .tp := by decide
    rw [if_neg (hntp y hy), hpopped y hy, hstack]
    exact h.frame _ r hr y (popped_subset y hy)
  · obtain ⟨y, hy, rfl⟩ := List.mem_map.mp hmem
    have hntp : ∀ y ∈ context, y.1 ≠ .tp := by decide
    rw [if_neg (hntp y hy), hrest y.1 hnsp hno, hreg y hy]
    exact hback.2 y hy hra hnsp

/-- A thread that a hart takes up has been on none. -/
theorem Inv.fresh (h : Inv e s) {k : Intr.Kernel C P L} (hh : Hands s.k k c)
    (hne : k.on c ≠ s.k.on c) : ∀ c', s.k.on c' ≠ k.on c := by
  intro c' heq
  rcases hh with hp | ⟨p, hp, hp'⟩ | ⟨p, hp, hcur, hp'⟩
  · exact hne (on_congr hp)
  · rw [Intr.on_sched hp'] at heq
    unfold Intr.Kernel.on at heq
    split at heq
    next => exact nomatch heq
    next hnone =>
      rw [Thread.sched.inj heq] at hnone
      exact nomatch hp.symm.trans hnone
  · rw [Intr.on_proc hp'] at heq
    exact (h.intr.swtch c p hp hcur).2 c' (Trap.proc_of_on heq)

variable [DecidableEq C]

/-- The hart `c` and its thread have gone on, without touching what is kept. -/
theorem Inv.local (h : Inv e s) {k : Intr.Kernel C P L} (hi : Intr.Inv k)
    (hon : ∀ c, k.on c = s.k.on c)
    (hb : ∀ t, t ≠ s.k.on c → (k.stack t).below = (s.k.stack t).below)
    {x : Hart Reg Csr Word} {mem : Word → Word} {own : Thread C P → Reg → Word}
    {found : Thread C P → Option (Reg → Word)} (htp : x.reg .tp = e.hartid c)
    (hregs : ∀ y ∈ context, x.reg y.1 = own (s.k.on c) y.1)
    (hown : ∀ t, t ≠ s.k.on c → own t = s.own t)
    (hfound : ∀ t, t ≠ s.k.on c → found t = s.found t)
    (hmem : ∀ t, ∀ y ∈ context, mem (e.context t + y.2) = s.mem (e.context t + y.2))
    (hframe : ∀ t r, t ≠ s.k.on c → s.found t = some r → ∀ y ∈ pushed,
      mem (slot r y.2) = s.mem (slot r y.2))
    (hnew : ∀ r, found (s.k.on c) = some r → ∀ y ∈ pushed, mem (slot r y.2) = r y.1 ∧
      ∀ t, ∀ z ∈ context, slot r y.2 ≠ e.context t + z.2)
    (hbelow : (k.stack (s.k.on c)).below = [] ↔ found (s.k.on c) = none) :
    Inv e { s with
      k := k, hart := Function.update s.hart c x, mem := mem, own := own, found := found } where
  intr := hi
  tp c' := by
    show (Function.update s.hart c x c').reg .tp = _
    by_cases hc : c' = c
    · rw [hc, Function.update_self]
      exact htp
    · rw [Function.update_of_ne hc]
      exact h.tp c'
  regs c' y hy := by
    show (Function.update s.hart c x c').reg y.1 = own (k.on c') y.1
    rw [hon]
    by_cases hc : c' = c
    · rw [hc, Function.update_self]
      exact hregs y hy
    · rw [Function.update_of_ne hc, hown _ fun heq => hc (h.intr.on_inj heq)]
      exact h.regs c' y hy
  parked t ht y hy := by
    have hne : t ≠ s.k.on c := fun heq => ht c ((hon c).trans heq.symm)
    show mem _ = own t y.1
    rw [hmem t y hy, hown t hne]
    exact h.parked t (fun c' => hon c' ▸ ht c') y hy
  frame t r hr y hy := by
    by_cases ht : t = s.k.on c
    · exact (hnew r (ht ▸ hr) y hy).1
    · have hold : s.found t = some r := (hfound t ht).symm.trans hr
      show mem _ = _
      rw [hframe t r ht hold y hy]
      exact h.frame t r hold y hy
  apart t r hr y hy := by
    by_cases ht : t = s.k.on c
    · exact (hnew r (ht ▸ hr) y hy).2
    · exact h.apart t r ((hfound t ht).symm.trans hr) y hy
  below t := by
    by_cases ht : t = s.k.on c
    · rw [ht]
      exact hbelow
    · show (k.stack t).below = [] ↔ found t = none
      rw [hb t ht, hfound t ht]
      exact h.below t

/-- C code computes. -/
theorem Inv.work [DecidableEq P] (h : Inv e s) {reg : Reg → Word} (htp : reg .tp = e.hartid c) :
    Inv e { s with
      hart := Function.update s.hart c { s.hart c with reg := reg }
      own := Function.update s.own (s.k.on c) reg } := by
  have hself : Function.update s.own (s.k.on c) reg (s.k.on c) = reg := Function.update_self _ _ _
  exact h.local (c := c) (x := { s.hart c with reg := reg }) h.intr (fun _ => rfl) (fun _ _ => rfl)
    htp (fun y _ => by rw [hself]) (fun t ht => Function.update_of_ne ht _ _) (fun _ _ => rfl)
    (fun _ _ _ => rfl) (fun _ _ _ _ _ _ => rfl)
    (fun r hr y hy => ⟨h.frame _ r hr y hy, h.apart _ r hr y hy⟩) (h.below _)

/-- A step of a machine of one hart leaves the others where they are. -/
theorem put_on [DecidableEq P] {k : Intr.Kernel C P L} {x : Intr.Cpu P} {t : Intr.Stack P L}
    (hx : x.proc = (k.cpu c).proc) (c' : C) : (k.put c x t).on c' = k.on c' := by
  refine on_congr ?_
  show (Function.update k.cpu c x c').proc = _
  by_cases hc : c' = c
  · rw [hc, Function.update_self]
    exact hx
  · rw [Function.update_of_ne hc]

variable [DecidableEq P]

/-- **An interrupt**. -/
theorem Inv.enter (h : Inv e s) {k : Intr.Kernel C P L} (hi : Intr.Inv k)
    (hk : k = s.k.put c { s.k.cpu c with sie := false }
      { s.k.cur c with cur := .code .body, below := (s.k.cur c).cur :: (s.k.cur c).below })
    (hok : ∀ x ∈ pushed, ¬Kept e s (slot (s.hart c).reg x.2))
    (hs : enter e s c k = some s') : Inv e s' := by
  obtain ⟨mem', hrun, hsaved, hother⟩ := kernelvec_spec (e := e) (h := s.hart c) (m := s.mem)
  unfold Swtch.enter at hs
  rw [hrun] at hs
  rw [← Option.some.inj hs]
  show Inv e { s with
    k := k
    hart := Function.update s.hart c ((s.hart c).set .sp ((s.hart c).reg .sp + -256))
    mem := mem'
    own := Function.update s.own (s.k.on c) ((s.hart c).set .sp ((s.hart c).reg .sp + -256)).reg
    found := Function.update s.found (s.k.on c) (some (s.hart c).reg) }
  have hon : ∀ c', k.on c' = s.k.on c' := fun c' => by
    rw [hk]
    exact put_on (x := { s.k.cpu c with sie := false }) rfl c'
  have hself : Function.update s.found (s.k.on c) (some (s.hart c).reg) (s.k.on c) =
    some (s.hart c).reg := Function.update_self _ _ _
  have howned : Function.update s.own (s.k.on c)
      ((s.hart c).set .sp ((s.hart c).reg .sp + -256)).reg (s.k.on c) =
    ((s.hart c).set .sp ((s.hart c).reg .sp + -256)).reg := Function.update_self _ _ _
  refine h.local hi hon (fun t ht => ?_) ?_ (fun y _ => by rw [howned])
    (fun t ht => Function.update_of_ne ht _ _) (fun t ht => Function.update_of_ne ht _ _)
    (fun t y hy => hother _ fun x hx heq => hok x hx (Or.inl ⟨t, y, hy, heq⟩))
    (fun t r _ hr y hy => hother _ fun x hx heq => hok x hx (Or.inr ⟨t, r, hr, y, hy, heq⟩))
    (fun r hr y hy => ?_) ?_
  · rw [hk, Intr.put_stack ht]
  · rw [Hart.set_other _ (by decide)]
    exact h.tp c
  · rw [hself] at hr
    rw [← Option.some.inj hr]
    exact ⟨hsaved y hy, fun t z hz heq => hok y hy (Or.inl ⟨t, z, hz, heq⟩)⟩
  · have hstack : (k.stack (s.k.on c)).below = (s.k.cur c).cur :: (s.k.cur c).below := by
      rw [hk]
      exact congrArg Intr.Stack.below (if_pos rfl)
    rw [hstack, hself]
    exact ⟨fun hc => absurd hc (List.cons_ne_nil _ _), fun hc => absurd hc (Option.some_ne_none _)⟩

/-- **The return** from an interrupt. -/
theorem Inv.leave (h : Inv e s) {k : Intr.Kernel C P L} (hi : Intr.Inv k) {f : Intr.At P L}
    (hk : k = s.k.put c { s.k.cpu c with sie := true } { s.k.cur c with cur := f, below := [] })
    {r : Reg → Word} (hr : s.found (s.k.on c) = some r)
    (hback : GivenBack (s.own (s.k.on c)) (some r)) (hs : leave e s c k = some s') : Inv e s' := by
  obtain ⟨x, hrun, hreg⟩ := h.taken hr hback
  unfold Swtch.leave at hs
  rw [hrun] at hs
  rw [← Option.some.inj hs]
  show Inv e { s with
    k := k
    hart := Function.update s.hart c x
    own := Function.update s.own (s.k.on c) x.reg
    found := Function.update s.found (s.k.on c) none }
  have hon : ∀ c', k.on c' = s.k.on c' := fun c' => by
    rw [hk]
    exact put_on (x := { s.k.cpu c with sie := true }) rfl c'
  have hself : Function.update s.found (s.k.on c) none (s.k.on c) = none :=
    Function.update_self _ _ _
  have howned : Function.update s.own (s.k.on c) x.reg (s.k.on c) = x.reg :=
    Function.update_self _ _ _
  refine h.local hi hon (fun t ht => ?_) ?_ (fun y _ => by rw [howned])
    (fun t ht => Function.update_of_ne ht _ _) (fun t ht => Function.update_of_ne ht _ _)
    (fun _ _ _ => rfl) (fun _ _ _ _ _ _ => rfl) (fun r' hr' => ?_) ?_
  · rw [hk, Intr.put_stack ht]
  · rw [hreg, if_pos rfl]
  · exact nomatch hself.symm.trans hr'
  · have hstack : (k.stack (s.k.on c)).below = [] := by
      rw [hk]
      exact congrArg Intr.Stack.below (if_pos rfl)
    exact ⟨fun _ => hself, fun _ => hstack⟩

/-- **`swtch`**. -/
theorem Inv.switch (h : Inv e s) {k : Intr.Kernel C P L} {made : P → Prop} (hi : Intr.Inv k)
    (hm : Moves s.k k c made) (hne : k.on c ≠ s.k.on c)
    (hs : switch e s c (s.k.on c) (k.on c) k = some s') : Inv e s' := by
  have hfresh := h.fresh hm.hands hne
  have hon : ∀ c', c' ≠ c → k.on c' = s.k.on c' := fun c' hc =>
    on_congr (congrArg Intr.Cpu.proc (hm.cpu c' hc))
  have ha0 : ∀ a b : Word, (((s.hart c).set .a0 a).set .a1 b).reg .a0 = a := fun a b => by
    rw [Hart.set_other _ (by decide), Hart.set_self]
  have ha1 : ∀ a b : Word, (((s.hart c).set .a0 a).set .a1 b).reg .a1 = b := fun a b =>
    Hart.set_self _ _ _
  have hkeep : ∀ (a b : Word) (r : Reg), r ≠ .a0 → r ≠ .a1 →
      (((s.hart c).set .a0 a).set .a1 b).reg r = (s.hart c).reg r := fun a b r h0 h1 => by
    rw [Hart.set_other _ h1, Hart.set_other _ h0]
  obtain ⟨x, hrun, hloaded, htp⟩ := swtch_spec (e := e) (m := s.mem)
    (h := ((s.hart c).set .a0 (e.context (s.k.on c))).set .a1 (e.context (k.on c)))
    (by rw [ha0, ha1]; exact e.apart _ _ hne.symm)
  rw [ha0] at hrun
  rw [ha1] at hloaded
  unfold Swtch.switch at hs
  dsimp only at hs
  rw [hrun] at hs
  rw [← Option.some.inj hs]
  -- the saved registers
  have hargs : ∀ y ∈ context, y.1 ≠ .a0 ∧ y.1 ≠ .a1 := by decide
  have hsaved : ∀ y ∈ context, stored (e.context (s.k.on c) + ·)
      (((s.hart c).set .a0 (e.context (s.k.on c))).set .a1 (e.context (k.on c))).reg context s.mem
      (e.context (s.k.on c) + y.2) = s.own (s.k.on c) y.1 := fun y hy => by
    refine (stored_at (cells_nodup context_nodup.2 _) hy).trans ?_
    rw [hkeep _ _ _ (hargs y hy).1 (hargs y hy).2]
    exact h.regs c y hy
  have hother : ∀ a, (∀ y ∈ context, e.context (s.k.on c) + y.2 ≠ a) →
      stored (e.context (s.k.on c) + ·)
        (((s.hart c).set .a0 (e.context (s.k.on c))).set .a1 (e.context (k.on c))).reg context
        s.mem a = s.mem a := fun a ha => stored_other ha
  refine ⟨hi, fun c' => ?_, fun c' y hy => ?_, fun t ht y hy => ?_, fun t r hr y hy => ?_, h.apart,
    fun t => ?_⟩
  · show (Function.update s.hart c x c').reg .tp = _
    by_cases hc : c' = c
    · rw [hc, Function.update_self, htp, hkeep _ _ _ (by decide) (by decide)]
      exact h.tp c
    · rw [Function.update_of_ne hc]
      exact h.tp c'
  · show (Function.update s.hart c x c').reg y.1 = s.own (k.on c') y.1
    by_cases hc : c' = c
    · rw [hc, Function.update_self, hloaded y hy]
      exact h.parked _ hfresh y hy
    · rw [Function.update_of_ne hc, hon c' hc]
      exact h.regs c' y hy
  · by_cases hold : t = s.k.on c
    · rw [hold]
      exact hsaved y hy
    · have hmem := hother (e.context t + y.2) fun z hz => e.apart _ _ (Ne.symm hold) z hz y hy
      refine hmem.trans (h.parked t (fun c' heq => ?_) y hy)
      by_cases hc : c' = c
      · exact hold (hc ▸ heq.symm)
      · exact ht c' ((hon c' hc).trans heq)
  · have hmem := hother (slot r y.2) fun z hz heq => h.apart t r hr y hy _ z hz heq.symm
    exact hmem.trans (h.frame t r hr y hy)
  · show (k.stack t).below = [] ↔ s.found t = none
    by_cases hold : t = s.k.on c
    · rw [hold, hm.below]
      exact h.below _
    · rw [(hm.stack t hold).below]
      exact h.below t

/-- **`allocproc`**. -/
theorem Inv.start (h : Inv e s) {k : Intr.Kernel C P L} {q : P} (hi : Intr.Inv k)
    (hk : k = { s.k with stack := Function.update s.k.stack (.proc q) Intr.Stack.forkret })
    (hfree : ∀ c, s.k.on c ≠ .proc q) : Inv e (start e s q k) := by
  have hon : ∀ c, k.on c = s.k.on c := fun c => by rw [hk]; rfl
  have hother : ∀ a, (∀ y ∈ context, e.context (.proc q) + y.2 ≠ a) →
      (Swtch.start e s q k).mem a = s.mem a := fun a ha => stored_other ha
  have hown : ∀ t, t ≠ .proc q → (Swtch.start e s q k).own t = s.own t := fun t ht =>
    Function.update_of_ne ht _ _
  have hfound : ∀ t, t ≠ .proc q → (Swtch.start e s q k).found t = s.found t := fun t ht =>
    Function.update_of_ne ht _ _
  have hnone : (Swtch.start e s q k).found (.proc q) = none := Function.update_self _ _ _
  have hself : (Swtch.start e s q k).own (.proc q) = started e q := Function.update_self _ _ _
  have hold : ∀ t r, (Swtch.start e s q k).found t = some r → s.found t = some r := by
    intro t r hr
    by_cases ht : t = .proc q
    · rw [ht, hnone] at hr
      exact nomatch hr
    · exact (hfound t ht).symm.trans hr
  refine ⟨hi, h.tp, fun c y hy => ?_, fun t ht y hy => ?_, fun t r hr y hy => ?_,
    fun t r hr => h.apart t r (hold t r hr), fun t => ?_⟩
  · show (s.hart c).reg y.1 = (Swtch.start e s q k).own (k.on c) y.1
    rw [hon, hown _ (hfree c)]
    exact h.regs c y hy
  · by_cases htq : t = .proc q
    · rw [htq, hself]
      exact stored_at (cells_nodup context_nodup.2 _) hy
    · rw [hother _ fun z hz => e.apart _ _ (Ne.symm htq) z hz y hy, hown t htq]
      exact h.parked t (fun c => hon c ▸ ht c) y hy
  · rw [hother _ fun z hz heq => h.apart t r (hold t r hr) y hy _ z hz heq.symm]
    exact h.frame t r (hold t r hr) y hy
  · have hstack : k.stack = Function.update s.k.stack (.proc q) Intr.Stack.forkret := by rw [hk]
    show (k.stack t).below = [] ↔ _
    rw [hstack]
    by_cases htq : t = .proc q
    · rw [htq, Function.update_self]
      exact ⟨fun _ => hnone, fun _ => rfl⟩
    · rw [hfound t htq, Function.update_of_ne htq]
      exact h.below t

variable [DecidableEq L]

/-- Where `Intr` goes on, the thread goes on or is switched. -/
theorem Inv.move (h : Inv e s) {a : Intr.Act C P L} {k : Intr.Kernel C P L} {made : P → Prop}
    (hok : Intr.Matched s.k a) (hk : Intr.step s.k a = some k)
    (hm : Moves s.k k c made)
    (hs : (if k.on c = s.k.on c then some { s with k := k }
      else Swtch.switch e s c (s.k.on c) (k.on c) k) = some s') : Inv e s' := by
  have hi := h.intr.step hok hk
  split at hs
  next heq =>
    rw [← Option.some.inj hs]
    refine h.still hi (fun c' => ?_) fun t => ?_
    · by_cases hc : c' = c
      · rw [hc]
        exact heq
      · exact on_congr (congrArg Intr.Cpu.proc (hm.cpu c' hc))
    · by_cases ht : t = s.k.on c
      · rw [ht]
        exact hm.below
      · exact (hm.stack t ht).below
  next hne => exact h.switch hi hm hne hs

/-- **The step lemma.** -/
theorem Inv.step (h : Inv e s) {a : Act C P L} (hok : Promised e s a)
    (hs : step e s a = some s') : Inv e s' := by
  cases a with
  | work c reg =>
    rw [← Option.some.inj hs]
    refine h.work ?_
    rw [Function.update_self]
    exact h.tp c
  | write c a w =>
    rw [← Option.some.inj hs]
    exact h.write hok
  | step a =>
    obtain ⟨k, hk, hs⟩ := Option.bind_eq_some_iff.mp hs
    cases a with
    | intr c =>
      have hi := h.intr.step (a := .intr c) trivial hk
      have hk : (if (s.k.cpu c).sie = true then
          some (s.k.put c { s.k.cpu c with sie := false }
            { s.k.cur c with cur := .code .body, below := (s.k.cur c).cur :: (s.k.cur c).below })
        else none) = some k := hk
      split at hk
      next => exact h.enter hi (Option.some.inj hk).symm hok hs
      next => cases hk
    | sret c =>
      have hi := h.intr.step (a := .sret c) hok.1 hk
      obtain ⟨f, below, -, hb, hk⟩ := Trap.sret_cases hk
      obtain ⟨rfl, r, hr⟩ := h.interrupted hb
      exact h.leave hi hk hr (hr ▸ hok.2) hs
    | step c =>
      have hm : Moves s.k k c fun _ => False := .exec1 h.intr hk
      exact h.move (a := .step c) trivial hk hm hs
    | dispatch c p =>
      have hm : Moves s.k k c fun _ => False := .dispatch hk
      exact h.move (a := .dispatch c p) trivial hk hm hs
    | call c f =>
      have hcall : (∀ q, f ≠ .context q) →
          (if k.on c = s.k.on c then some { s with k := k }
            else Swtch.switch e s c (s.k.on c) (k.on c) k) = some s' → Inv e s' :=
        fun hf hs => h.move hok hk (.call hok hf hk) hs
      cases f with
      | context q =>
        have hi := h.intr.step (a := .call c (.context q)) hok hk
        have hk : (if (s.k.cur c).cur = .code .body then
            some { s.k with stack := Function.update s.k.stack (.proc q) Intr.Stack.forkret }
          else none) = some k := hk
        split at hk
        next =>
          rw [← Option.some.inj hs]
          refine h.start hi (Option.some.inj hk).symm fun c' hc => ?_
          -- whoever has left RUNNING keeps its lock
          have hq := Trap.proc_of_on hc
          have hl := h.intr.leaving c' q hq hok.2.1
          rw [Option.some.inj (hl.symm.trans hok.1)] at hq
          exact hok.2.2 hq
        next => cases hk
      | acquire l => exact hcall (fun _ hc => by cases hc) hs
      | release l => exact hcall (fun _ hc => by cases hc) hs
      | pushOff => exact hcall (fun _ hc => by cases hc) hs
      | popOff => exact hcall (fun _ hc => by cases hc) hs
      | intrOn => exact hcall (fun _ hc => by cases hc) hs
      | intrOff => exact hcall (fun _ hc => by cases hc) hs
      | setState q st => exact hcall (fun _ hc => by cases hc) hs
      | sched => exact hcall (fun _ hc => by cases hc) hs

/-- The run lemma. -/
theorem reach_inv (h : Reach (step e) (Promised e) (Init e) s) : Inv e s :=
  h.inv (fun _ => Init.inv) fun hi hok hs => hi.step hok hs

/-- **Registers follow their thread.** -/
theorem registers_follow (h : Reach (step e) (Promised e) (Init e) s) (c : C) :
    (s.hart c).reg .tp = e.hartid c ∧
      ∀ x ∈ context, (s.hart c).reg x.1 = s.own (s.k.on c) x.1 :=
  ⟨(reach_inv h).tp c, (reach_inv h).regs c⟩

/-- **`kernelvec` is not noticed.** -/
theorem kernelvec_transparent (h : Reach (step e) (Promised e) (Init e) s)
    (hok : Promised e s (.step (.sret c))) (hs : step e s (.step (.sret c)) = some s') :
    ∃ r, s.found (s.k.on c) = some r ∧
      ∀ reg, (s'.hart c).reg reg = if reg = .tp then e.hartid c else r reg := by
  have hi := reach_inv h
  obtain ⟨k, hk, hs⟩ := Option.bind_eq_some_iff.mp hs
  obtain ⟨f, below, -, hb, -⟩ := Trap.sret_cases hk
  obtain ⟨-, r, hr⟩ := hi.interrupted hb
  obtain ⟨x, hrun, hreg⟩ := hi.taken hr (hr ▸ hok.2)
  have hs : leave e s c k = some s' := hs
  unfold leave at hs
  rw [hrun] at hs
  rw [← Option.some.inj hs]
  refine ⟨r, hr, fun reg => ?_⟩
  show (Function.update s.hart c x c).reg reg = _
  rw [Function.update_self]
  exact hreg reg

end Runs

/-! ## A run -/

/-- Two harts and a process. -/
def threads : List (Thread Bool Unit) := [.proc (), .sched false, .sched true]

theorem mem_threads (t : Thread Bool Unit) : t ∈ threads := by
  cases t with
  | proc p => exact List.mem_cons_self
  | sched c => cases c <;> decide

def harts : Env Bool Unit where
  text := 0x80000000
  context
    | .proc _ => 0x80010000
    | .sched false => 0x80020000
    | .sched true => 0x80030000
  hartid c := if c then 1 else 0
  forkret := 0x80000200
  kstack _ := 0x3fffffd000
  apart t t' hne := by
    have hall : ∀ t ∈ threads, ∀ t' ∈ threads, t ≠ t' → ∀ x ∈ context, ∀ y ∈ context,
        (match t with
          | .proc _ => 0x80010000
          | .sched false => 0x80020000
          | .sched true => 0x80030000 : Word) + x.2 ≠
        (match t' with
          | .proc _ => 0x80010000
          | .sched false => 0x80020000
          | .sched true => 0x80030000) + y.2 := by decide +kernel
    exact hall t (mem_threads t) t' (mem_threads t') hne

instance (own : Reg → Word) : ∀ r, Decidable (GivenBack own r)
  | none => inferInstanceAs (Decidable True)
  | some r => inferInstanceAs (Decidable (own .sp = r .sp + -256 ∧
      ∀ x ∈ context, x.1 ≠ .ra → x.1 ≠ .sp → own x.1 = r x.1))

/-- What the labels of the run promise: it has one interrupt. -/
def Plain (s : Sys Bool Unit Unit) : Act Bool Unit Unit → Prop
  | .work _ _ => True
  | .write _ _ _ => False
  | .step (.intr c) => ∀ t ∈ threads, s.found t = none ∧
      ∀ x ∈ pushed, ∀ y ∈ context, slot (s.hart c).reg x.2 ≠ harts.context t + y.2
  | .step (.sret c) => Intr.Matched s.k (.sret c) ∧
      GivenBack (s.own (s.k.on c)) (s.found (s.k.on c))
  | .step a => Intr.Matched s.k a

instance (s : Sys Bool Unit Unit) : ∀ a, Decidable (Plain s a)
  | .work _ _ => inferInstanceAs (Decidable True)
  | .write _ _ _ => inferInstanceAs (Decidable False)
  | .step (.intr c) => inferInstanceAs (Decidable (∀ t ∈ threads, s.found t = none ∧
      ∀ x ∈ pushed, ∀ y ∈ context, slot (s.hart c).reg x.2 ≠ harts.context t + y.2))
  | .step (.sret c) => inferInstanceAs (Decidable (Intr.Matched s.k (.sret c) ∧
      GivenBack (s.own (s.k.on c)) (s.found (s.k.on c))))
  | .step (.step c) => inferInstanceAs (Decidable (Intr.Matched s.k (.step c)))
  | .step (.call c f) => inferInstanceAs (Decidable (Intr.Matched s.k (.call c f)))
  | .step (.dispatch c p) => inferInstanceAs (Decidable (Intr.Matched s.k (.dispatch c p)))

theorem Plain.promised {s : Sys Bool Unit Unit} (a : Act Bool Unit Unit) (h : Plain s a) :
    Promised harts s a := by
  cases a with
  | work c reg => exact trivial
  | write c a w => exact h.elim
  | step a =>
    cases a with
    | intr c =>
      intro x hx hkept
      rcases hkept with ⟨t, y, hy, heq⟩ | ⟨t, r, hr, -⟩
      · exact (h t (mem_threads t)).2 x hx y hy heq
      · exact nomatch (h t (mem_threads t)).1.symm.trans hr
    | sret c => exact h
    | step c => exact h
    | call c f => exact h
    | dispatch c p => exact h

def booted : Sys Bool Unit Unit where
  k := Intr.booted
  hart c := ⟨fun r => if r = .tp then harts.hartid c else 0, fun _ => 0, []⟩
  mem _ := 0
  own
    | .proc _ => fun _ => 0
    | .sched c => fun r => if r = .tp then harts.hartid c else 0
  found _ := none

theorem booted_init : Init harts booted where
  k := Intr.booted_init
  tp c := by
    show (if Reg.tp = .tp then harts.hartid c else 0) = _
    rw [if_pos rfl]
  own _ := rfl
  context _ _ _ := rfl
  found _ := rfl

/-- The registers of the process, and those of `kerneltrap`. -/
def program : Reg → Word
  | .sp => 0x3fffffdf00
  | .s3 => 77
  | .a5 => 5
  | _ => 1

def handler : Reg → Word
  | .sp => 0x3fffffde00
  | .s3 => 77
  | .a5 => 6
  | _ => 1

/-- The scheduler of `c` switches to the process. -/
def dispatched (c : Bool) : List (Act Bool Unit Unit) :=
  .step (.dispatch c ()) :: List.replicate 7 (.step (.step c))

/-- The process releases `p->lock`. -/
def released (c : Bool) : List (Act Bool Unit Unit) :=
  [.step (.call c (.release (.proc ()))), .step (.step c), .step (.step c)]

/-- `yield()`, up to `swtch`. -/
def yielded (c : Bool) : List (Act Bool Unit Unit) :=
  .step (.call c (.acquire (.proc ()))) :: List.replicate 5 (.step (.step c)) ++
    [.step (.call c (.setState () .RUNNABLE)), .step (.call c .sched)] ++
    List.replicate 4 (.step (.step c))

/-- The process is interrupted on the hart `false`, yields in the handler, and comes back on
`true`. -/
def interrupted : List (Act Bool Unit Unit) :=
  List.replicate 2 (.step (.step false)) ++ dispatched false ++ released false ++
    [.step (.call false .intrOn), .work false program, .step (.intr false), .work false handler] ++
    yielded false ++ List.replicate 2 (.step (.step true)) ++ dispatched true ++
    .step (.step true) :: released true

theorem interrupted_reach :
    ∃ s s', runFrom (step harts) booted interrupted = some s ∧
      step harts s (.step (.sret true)) = some s' ∧
      Reach (step harts) (Promised harts) (Init harts) s ∧
      Promised harts s (.step (.sret true)) ∧ (s.hart true).reg .a5 ≠ 5 ∧
      (s'.hart true).reg .a5 = 5 ∧ (s.hart true).reg .s3 = 77 := by
  have hobs : (runFrom (guarded (step harts) Plain) booted interrupted).any (fun s =>
      decide (Plain s (.step (.sret true))) && (step harts s (.step (.sret true))).any fun s' =>
        decide ((s.hart true).reg .a5 ≠ 5 ∧ (s'.hart true).reg .a5 = 5 ∧
          (s.hart true).reg .s3 = 77)) = true := by decide +kernel
  obtain ⟨s, hs, hobs⟩ := (Option.any_eq_true _ _).mp hobs
  obtain ⟨hplain, hobs⟩ := Bool.and_eq_true_iff.mp hobs
  obtain ⟨s', hs', hobs⟩ := (Option.any_eq_true _ _).mp hobs
  obtain ⟨hok, hrun⟩ := runFrom_guarded _ hs
  exact ⟨s, s', hrun, hs', .of_run _ (.start booted_init) (hok.imp fun _ => Plain.promised) hrun,
    Plain.promised _ (of_decide_eq_true hplain), of_decide_eq_true hobs⟩

theorem registers_follow_interrupted :
    ∃ s, runFrom (step harts) booted interrupted = some s ∧ (s.hart true).reg .s3 = 77 ∧
      (s.hart true).reg .tp = harts.hartid true ∧
      ∀ x ∈ context, (s.hart true).reg x.1 = s.own (s.k.on true) x.1 := by
  obtain ⟨s, s', hs, -, hr, -, -, -, hs3⟩ := interrupted_reach
  exact ⟨s, hs, hs3, registers_follow hr true⟩

theorem kernelvec_transparent_interrupted :
    ∃ s s', runFrom (step harts) booted interrupted = some s ∧
      step harts s (.step (.sret true)) = some s' ∧ (s.hart true).reg .a5 ≠ 5 ∧
      (s'.hart true).reg .a5 = 5 ∧ ∃ r, s.found (s.k.on true) = some r ∧
        ∀ reg, (s'.hart true).reg reg = if reg = .tp then harts.hartid true else r reg := by
  obtain ⟨s, s', hs, hs', hr, hok, hne, ha5, -⟩ := interrupted_reach
  exact ⟨s, s', hs, hs', hne, ha5, kernelvec_transparent hr hok hs'⟩

end Xv6.Swtch
