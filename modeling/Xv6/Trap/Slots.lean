import Xv6.Trap.Body

/-!
# What C code does to memory and to other processes

`kfork`, `allocproc` and `freeproc` change a process that no hart has and no scheduler
will choose; `kexec` changes the table of the process it runs in, which is in the kernel
then.
-/

namespace Xv6.Trap

open Lib Lib.Isa
open Intr (Thread)

section Slots

variable {C P L A : Type*} {e : Env C P A} {s s' : Sys C P L A} {c : C} {p q : P}

/-- Only the process `q`, which no hart has, has changed. -/
structure Remote (s s' : Sys C P L A) (q : P) : Prop where
  free : ∀ c, (s.k.cpu c).proc ≠ some q
  cpu : s'.k.cpu = s.k.cpu
  state : s'.k.state = s.k.state
  stack : ∀ t, t ≠ .proc q → s'.k.stack t = s.k.stack t
  core : s'.core = s.core
  handlers : ∀ t, t ≠ .proc q → s'.handlers t = s.handlers t
  task : ∀ p, p ≠ q → s'.task p = s.task p
  mem : ∀ p, p ≠ q → s.task p ≠ none → ∀ off < 4096, s'.mem (s.tf p off) = s.mem (s.tf p off)
  want : ∀ p, p ≠ q → s'.want p = s.want p
  satp : ∀ p, p ≠ q → s'.satp p = s.satp p
  tf : ∀ p, p ≠ q → s'.tf p = s.tf p
  gone : s'.task q = none → ¬Wanted s.k q ∧
    ∀ c, (s.k.cpu c).proc = none → (s.k.cur c).cur ≠ .code (.swtch q)
  returns : s'.returns = s.returns
  panic : s'.panic = s.panic

/-- **Frame**: a step on a process that no hart has. -/
theorem Inv.remote (h : Inv e s) (hr : Remote s s' q) (hi : Intr.Inv s'.k) (htab : Tables e s')
    (hthread : s'.task q ≠ none → ThreadOk s' (.proc q)) (haway : s'.task q ≠ none → Away s' q) :
    Inv e s' := by
  have hon : ∀ c, s'.k.on c = s.k.on c := fun c => on_congr (by rw [hr.cpu])
  have hne : ∀ c, s.k.on c ≠ .proc q := fun c hc => hr.free c (proc_of_on hc)
  have hpq : ∀ c p, (s.k.cpu c).proc = some p → p ≠ q := fun c p hp hq => hr.free c (hq ▸ hp)
  refine ⟨hi, htab, fun c => ?_, fun t ht => ?_, fun p hp hno => ?_, fun c p hp => ?_,
    fun c p hp hc => ?_, fun p hp => ?_, hr.returns ▸ h.returns, hr.panic ▸ h.panic⟩
  · have hold := h.core c
    unfold CoreOk at hold ⊢
    rw [hon, hr.handlers _ (hne c), hr.cpu, hr.core]
    split
    next hh =>
      rw [hh] at hold
      exact hold
    next hh hp =>
      rw [hh, hp] at hold
      exact hold
    next p hh hp =>
      rw [hh, hp] at hold
      have hqp := hpq c p hp
      rw [hr.satp p hqp, hr.want p hqp, hr.tf p hqp, hr.task p hqp]
      exact fun t ht => (hold t ht).congr (hr.mem p hqp (ht ▸ Option.some_ne_none t))
  · by_cases hq : t = .proc q
    · subst hq
      exact hthread ht
    · have hqp : ∀ p, t = .proc p → p ≠ q := fun p hp hc => hq (hc ▸ hp)
      have hst : Stays (s.k.stack t) (s'.k.stack t) := by
        rw [hr.stack t hq]
        exact Stays.refl _
      refine (h.thread t ?_).stays hst (hr.handlers t hq) (fun p hp => hr.task p (hqp p hp))
        fun p hp u hu => ⟨?_, hr.want p (hqp p hp)⟩
      · cases t with
        | proc p =>
          show s.task p ≠ none
          rw [← hr.task p (hqp p rfl)]
          exact ht
        | sched c => exact trivial
      · rw [hr.tf p (hqp p hp)]
        exact ctx_congr (hr.mem p (hqp p hp) (hu ▸ Option.some_ne_none u))
  · by_cases hq : p = q
    · rw [hq] at hp ⊢
      exact haway hp
    · have hold := h.away p (hr.task p hq ▸ hp) (hr.cpu ▸ hno)
      unfold Away at hold ⊢
      rw [hr.handlers _ fun hc => hq (Thread.proc.inj hc), hr.task p hq]
      exact hold
  · have hp' : (s.k.cpu c).proc = some p := hr.cpu ▸ hp
    rw [hr.task p (hpq c p hp')]
    exact h.runs c p hp'
  · have hp' : (s.k.cpu c).proc = none := hr.cpu ▸ hp
    have hcur : (s.k.cur c).cur = .code (.swtch p) := by
      unfold Intr.Kernel.cur at hc ⊢
      rw [hon, hr.stack _ (hne c)] at hc
      exact hc
    by_cases hq : p = q
    · rw [hq] at hcur ⊢
      exact fun hn => (hr.gone hn).2 c hp' hcur
    · rw [hr.task p hq]
      exact h.next c p hp' hcur
  · have hw : Wanted s.k p := by
      unfold Wanted at hp ⊢
      rw [hr.state] at hp
      exact hp
    by_cases hq : p = q
    · rw [hq] at hw ⊢
      exact fun hn => (hr.gone hn).1 hw
    · rw [hr.task p hq]
      exact h.wanted p hw

/-- A slot that somebody holds is on no hart, and nobody is about to run it. -/
theorem Inv.held (h : Inv e s) (hq : Held s c q) : (∀ c', (s.k.cpu c').proc ≠ some q) ∧
    ¬Wanted s.k q ∧ ((s.k.cur c).cur = .code .body → ∀ c', (s.k.cpu c').proc = none →
      (s.k.cur c').cur ≠ .code (.swtch q)) := by
  refine ⟨fun c' hc => ?_, fun hw => ?_, fun hbody c' hp hc => ?_⟩
  · have hl := h.intr.leaving c' q hc hq.running
    rw [Option.some.inj (hl.symm.trans hq.lock)] at hc
    exact hq.other hc
  · rcases hw with hw | hw
    · exact hq.runnable hw
    · exact hq.running hw
  · have hl := (h.intr.swtch c' q hp hc).1
    rw [Option.some.inj (hl.symm.trans hq.lock), hbody] at hc
    exact nomatch hc

/-- Page tables and memory change, but for what `Tables` says and the trapframes; a process's
own table changes while it is in C code. -/
theorem Inv.world (h : Inv e s) {look : Word → Access → Word → Option A} {mem : A → Word}
    {satp : P → Word} (htab : Tables e { s with look := look, mem := mem, satp := satp })
    (hmem : ∀ p, s.task p ≠ none → ∀ off < 4096, mem (s.tf p off) = s.mem (s.tf p off))
    (hsatp : ∀ c p, (s.k.cpu c).proc = some p → satp p = s.satp p ∨ Body s c) :
    Inv e { s with look := look, mem := mem, satp := satp } := by
  refine ⟨h.intr, htab, fun c => ?_, fun t ht => ?_, h.away, h.runs, h.next, h.wanted, h.returns,
    h.panic⟩
  · by_cases hb : Body s c
    · exact hb.coreOk h (hb.inside h) rfl rfl rfl fun p hp =>
        ⟨ctx_congr (hmem p (h.runs c p hp)), rfl⟩
    · have hold := h.core c
      unfold CoreOk at hold ⊢
      split
      next hh =>
        rw [hh] at hold
        exact hold
      next hh hp =>
        rw [hh, hp] at hold
        exact hold
      next p hh hp =>
        rw [hh, hp] at hold
        intro t ht
        show TaskOk e c p (s.core c) (s.k.cpu c).sie (satp p) (fun off => mem (s.tf p off))
          (s.want p) t
        rw [(hsatp c p hp).resolve_right hb]
        exact (hold t ht).congr (hmem p (h.runs c p hp))
  · exact (h.thread t ht).stays (Stays.refl _) rfl (fun _ _ => rfl) fun p _ u hu =>
      ⟨ctx_congr (hmem p (hu ▸ Option.some_ne_none u)), rfl⟩

section Table

variable [DecidableEq C] [DecidableEq P]

/-- **`freeproc`**. -/
theorem Inv.free (h : Inv e s) (hq : Held s c q) (hbody : (s.k.cur c).cur = .code .body) :
    Inv e { s with
      task := Function.update s.task q none
      handlers := Function.update s.handlers (.proc q) [] } := by
  obtain ⟨hfree, hw, hnext⟩ := h.held hq
  have hnone : Function.update s.task q none q = none := Function.update_self _ _ _
  refine h.remote (q := q) ⟨hfree, rfl, rfl, fun _ _ => rfl, rfl,
    fun t ht => Function.update_of_ne ht _ _, fun r hr => Function.update_of_ne hr _ _,
    fun _ _ _ _ _ => rfl, fun _ _ => rfl, fun _ _ => rfl, fun _ _ => rfl,
    fun _ => ⟨hw, hnext hbody⟩, rfl, rfl⟩ h.intr
    (h.tables.congr rfl rfl rfl fun r hr => ?_) (fun hc => absurd hnone hc)
    fun hc => absurd hnone hc
  by_cases hrq : r = q
  · rw [hrq] at hr
    exact absurd hnone hr
  · have hr : Function.update s.task q none r ≠ none := hr
    rw [Function.update_of_ne hrq] at hr
    exact hr

variable [DecidableEq L]

/-- **`allocproc`** makes a thread that begins in `forkret`. -/
theorem Inv.alloc (h : Inv e s) (hq : Held s c q) {k' : Intr.Kernel C P L} {satp : Word}
    {tf : Word → A} (hk : Intr.step s.k (.call c (.context q)) = some k')
    (htab : Tables e { (s.goto q (.code .forkret)).setHandlers (.proc q) [] with
      k := k'
      satp := Function.update s.satp q satp
      tf := Function.update s.tf q tf
      want := Function.update s.want q ⟨s.mem (tf epc), fun r => s.mem (tf (slot r))⟩ }) :
    Inv e { (s.goto q (.code .forkret)).setHandlers (.proc q) [] with
      k := k'
      satp := Function.update s.satp q satp
      tf := Function.update s.tf q tf
      want := Function.update s.want q ⟨s.mem (tf epc), fun r => s.mem (tf (slot r))⟩ } := by
  obtain ⟨hfree, -, -⟩ := h.held hq
  have hi := h.intr.step (a := .call c (.context q)) ⟨hq.lock, hq.running, hq.other⟩ hk
  have hk : (if (s.k.cur c).cur = .code .body then
      some { s.k with stack := Function.update s.k.stack (.proc q) Intr.Stack.forkret }
    else none) = some k' := hk
  split at hk
  case isFalse => cases hk
  case isTrue =>
    obtain rfl := Option.some.inj hk
    have htask : Function.update s.task q (some (.code .forkret)) q = some (.code .forkret) :=
      Function.update_self _ _ _
    have hnil : Function.update s.handlers (.proc q) [] (.proc q) = [] := Function.update_self _ _ _
    have hstack : Function.update s.k.stack (.proc q) Intr.Stack.forkret (.proc q) =
      Intr.Stack.forkret := Function.update_self _ _ _
    have heq : ∀ {r}, Thread.proc (C := C) q = .proc r → r = q := fun hr =>
      (Thread.proc.inj hr).symm
    refine h.remote (q := q) ⟨hfree, rfl, rfl, fun t ht => Function.update_of_ne ht _ _, rfl,
      fun t ht => Function.update_of_ne ht _ _, fun r hr => Function.update_of_ne hr _ _,
      fun _ _ _ _ _ => rfl, fun r hr => Function.update_of_ne hr _ _,
      fun r hr => Function.update_of_ne hr _ _, fun r hr => Function.update_of_ne hr _ _,
      fun hn => ?_, rfl, rfl⟩ hi htab (fun _ => ?_) fun _ => ?_
    · cases htask.symm.trans hn
    · refine ⟨?_, fun g hg => ?_,
        fun g gs hg => absurd (hnil.symm.trans hg) (List.cons_ne_nil _ _).symm,
        fun r u hr hu hcode => ?_, fun _ _ _ _ hc => absurd hnil hc, fun r u hr _ _ => ?_⟩
      · show (Function.update s.handlers (.proc q) [] (.proc q)).length =
          (Function.update s.k.stack (.proc q) Intr.Stack.forkret (.proc q)).below.length
        rw [hnil, hstack]
        rfl
      · have hg : g ∈ Function.update s.handlers (.proc q) [] (.proc q) := hg
        rw [hnil] at hg
        exact absurd hg List.not_mem_nil
      · rw [heq hr] at hu
        rw [Option.some.inj (hu.symm.trans htask)] at hcode
        cases hcode
      · rw [heq hr]
        show ctx (fun off => s.mem (Function.update s.tf q tf q off)) =
          Function.update s.want q _ q
        rw [Function.update_self, Function.update_self]
        rfl
    · refine (away_idle hnil).mpr fun u hu => ?_
      rw [← Option.some.inj (htask.symm.trans hu)]
      rfl

end Table

variable [DecidableEq A]

theorem words_lt {off : Word} (h : off ∈ words) : off < 4096 := by
  rcases List.mem_append.mp h with h | h
  · have hall :
        [kernel_satp, kernel_sp, kernel_trap, epc, kernel_hartid].all (· < 4096) = true := by
      decide
    exact of_decide_eq_true (List.all_eq_true.mp hall off h)
  · obtain ⟨r, -, rfl⟩ := List.mem_map.mp h
    exact (slot_bounds r).2

/-- A word of another page. -/
theorem copied_other {a : A} (h : ∀ off < 4096, a ≠ s.tf q off) : copied s p q a = s.mem a := by
  have hnone : (words.find? fun off => decide (s.tf q off = a)) = none := by
    refine List.find?_eq_none.mpr fun off hoff hc => ?_
    exact h off (words_lt hoff) (of_decide_eq_true hc).symm
  unfold copied
  rw [if_neg (h _ (slot_bounds .a0).2), hnone]

/-- A word that `kfork` copies. -/
theorem copied_word {off : Word} (hd : Distinct (s.tf q)) (hoff : off ∈ words)
    (hne : off ≠ slot .a0) : copied s p q (s.tf q off) = s.mem (s.tf p off) := by
  have hsome : (words.find? fun o => decide (s.tf q o = s.tf q off)) = some off := by
    cases hf : words.find? fun o => decide (s.tf q o = s.tf q off) with
    | none => exact absurd (decide_eq_true rfl) (List.find?_eq_none.mp hf off hoff)
    | some o =>
      have ho := List.find?_some hf
      rw [hd o (words_lt (List.mem_of_find?_eq_some hf)) off (words_lt hoff)
        (of_decide_eq_true ho)]
  unfold copied
  rw [if_neg fun hc => hne (hd off (words_lt hoff) _ (slot_bounds .a0).2 hc), hsome]

/-- The child's registers. -/
theorem ctx_copied (hd : Distinct (s.tf q)) :
    ctx (fun off => copied s p q (s.tf q off)) =
      (ctx fun off => s.mem (s.tf p off)).write (.a0 0) := by
  have hreg : ∀ r, slot r ∈ words := fun r => by
    refine List.mem_append_right _ (List.mem_map.mpr ⟨r, ?_, rfl⟩)
    by_cases hr : r = .a0
    · exact hr ▸ List.mem_cons_self
    · exact List.mem_cons_of_mem _ (mem_others.mpr hr)
  have hepc : copied s p q (s.tf q epc) = s.mem (s.tf p epc) :=
    copied_word hd (List.mem_append_left _ (by decide)) (by decide)
  show (⟨copied s p q (s.tf q epc), fun r => copied s p q (s.tf q (slot r))⟩ : Ctx) =
    ⟨s.mem (s.tf p epc), Function.update (fun r => s.mem (s.tf p (slot r))) .a0 0⟩
  rw [hepc]
  congr 1
  funext r
  by_cases hr : r = .a0
  · rw [hr, Function.update_self]
    exact if_pos rfl
  · rw [Function.update_of_ne hr]
    exact copied_word hd (hreg r) fun hc => hr (slot_inj hc)

variable [DecidableEq P]

/-- **`kfork`** gives the child its parent's registers, and 0 in `a0`. -/
theorem Inv.fork (h : Inv e s) {k : Kind} (hk : caller s c = some (p, k)) (hq : Held s c q)
    (ht : s.task q = some (.code .forkret)) :
    Inv e { s with
      mem := copied s p q
      want := Function.update s.want q ((s.want p).write (.a0 0)) } := by
  obtain ⟨hfree, -, -⟩ := h.held hq
  obtain ⟨-, hp, htp⟩ := caller_eq hk
  have hlive : s.task q ≠ none := ht ▸ Option.some_ne_none _
  have hold := h.thread (.proc q) hlive
  have hsaved := (h.thread_on c).saved p _ (Intr.on_proc hp) htp rfl
  refine h.remote (q := q) ⟨hfree, rfl, rfl, fun _ _ => rfl, rfl, fun _ _ => rfl, fun _ _ => rfl,
    fun r hr hr' off hoff => copied_other fun o ho => h.tables.apart r q hr' hlive hr off hoff o ho,
    fun r hr => Function.update_of_ne hr _ _, fun _ _ => rfl, fun _ _ => rfl,
    fun hn => absurd hn hlive, rfl, rfl⟩ h.intr (h.tables.congr rfl rfl rfl fun _ => id)
    (fun _ => ⟨hold.frames, hold.read, hold.top, hold.task, hold.base, fun r u hr _ _ => ?_⟩)
    fun _ => h.away q hlive hfree
  rw [← Thread.proc.inj hr]
  show ctx (fun off => copied s p q (s.tf q off)) = Function.update s.want q _ q
  rw [Function.update_self, ctx_copied (h.tables.words q hlive), hsaved]

end Slots

end Xv6.Trap
