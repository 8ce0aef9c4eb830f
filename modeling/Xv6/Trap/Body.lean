import Xv6.Trap.Handlers

/-!
# C code

C code keeps its hart on the kernel's page table, with `stvec` at `kernelvec` and the
number of the hart in `tp`; a thread that leaves a hart is in C code, and one that enters
it by `swtch` finds there all that it needs.
-/

namespace Xv6.Trap

open Lib Lib.Isa
open Intr (Thread)

section Body

variable {C P L A : Type*} {e : Env C P A} {s : Sys C P L A} {c : C} {p : P} {t : Stmt}

/-- What is on a hart whose thread is in C code. -/
inductive Body (s : Sys C P L A) (c : C) : Prop
  | handler (g : Handler) (gs : List Handler) (hh : s.handlers (s.k.on c) = g :: gs)
    (hn : g.next = .code)
  | sched (hh : s.handlers (s.k.on c) = []) (hp : (s.k.cpu c).proc = none)
  | task (p : P) (k : Kind) (hh : s.handlers (s.k.on c) = []) (hp : (s.k.cpu c).proc = some p)
    (ht : s.task p = some (.code k))

theorem Sys.inCode_body (h : s.inCode c = true) : Body s c := by
  unfold Sys.inCode at h
  split at h
  next g gs hh => exact .handler g gs hh (of_decide_eq_true h)
  next hh hp => exact .sched hh hp
  next p hh hp =>
    split at h
    next k ht => exact .task p k hh hp ht
    next => exact nomatch h

theorem caller_eq {k : Kind} (h : caller s c = some (p, k)) :
    s.handlers (s.k.on c) = [] ∧ (s.k.cpu c).proc = some p ∧ s.task p = some (.code k) := by
  unfold caller at h
  split at h
  next q hh hp =>
    split at h
    next k' ht =>
      obtain ⟨rfl, rfl⟩ := Prod.mk.inj (Option.some.inj h)
      exact ⟨hh, hp, ht⟩
    next => exact nomatch h
  next => exact nomatch h

theorem Body.inside (hb : Body s c) (h : Inv e s) : Inside e c (s.core c) .kernelvec := by
  cases hb with
  | handler g gs hh hn => exact ((coreOk_handler hh).mp (h.core c)).1
  | sched hh hp => exact (coreOk_sched hh hp).mp (h.core c)
  | task p k hh hp ht => exact ((coreOk_task hh hp ht).mp (h.core c)).1

/-- The page table, `stvec` and `tp` are all that C code needs. -/
theorem Body.coreOk (hb : Body s c) (h : Inv e s) {s' : Sys C P L A}
    (hin : Inside e c (s'.core c) .kernelvec) (hproc : (s'.k.cpu c).proc = (s.k.cpu c).proc)
    (hh : s'.handlers (s.k.on c) = s.handlers (s.k.on c)) (ht : s'.task = s.task)
    (hctx : ∀ p, (s.k.cpu c).proc = some p →
      ctx (fun off => s'.mem (s'.tf p off)) = ctx (fun off => s.mem (s.tf p off)) ∧
        s'.want p = s.want p) : CoreOk e s' c := by
  have hon := on_congr hproc
  cases hb with
  | handler g gs hg hn =>
    refine (coreOk_handler (h := g) (hon ▸ hh.trans hg)).mpr ⟨hin, ?_⟩
    unfold HandlerOk
    rw [hn]
    exact trivial
  | sched hg hp => exact (coreOk_sched (hon ▸ hh.trans hg) (hproc.trans hp)).mpr hin
  | task p k hg hp hk =>
    refine (coreOk_task (t := .code k) (hon ▸ hh.trans hg) (hproc.trans hp) (ht ▸ hk)).mpr
      ⟨hin, ?_⟩
    obtain ⟨hc, hw⟩ := hctx p hp
    rw [hc, hw]
    exact (h.thread_on c).saved p _ (Intr.on_proc hp) hk rfl

/-- C code does not read what is known of a thread before its other statements. -/
theorem Body.threadOk (hb : Body s c) (h : Inv e s) {s' : Sys C P L A}
    (hbelow : (s'.k.stack (s.k.on c)).below = (s.k.stack (s.k.on c)).below)
    (hh : s'.handlers (s.k.on c) = s.handlers (s.k.on c)) (ht : s'.task = s.task)
    (hctx : ∀ p, s.k.on c = .proc p →
      ctx (fun off => s'.mem (s'.tf p off)) = ctx (fun off => s.mem (s.tf p off)) ∧
        s'.want p = s.want p) : ThreadOk s' (s.k.on c) := by
  have hold := h.thread_on c
  refine ⟨?_, ?_, fun g gs hg hne => ?_, fun p u hp hu hcode hnil => ?_, fun p u hp hu hne => ?_,
    fun p u hp hu hsoft => ?_⟩
  · rw [hh, hbelow]
    exact hold.frames
  · rw [hh]
    exact hold.read
  · rw [hh] at hg
    cases hb with
    | handler g' gs' hg' hn =>
      rw [hg] at hg'
      exact absurd ((List.cons.inj hg').1 ▸ hn) hne
    | sched hn => exact nomatch hg.symm.trans hn
    | task _ _ hn => exact nomatch hg.symm.trans hn
  · rw [hh] at hnil
    rw [ht] at hu
    cases hb with
    | handler g' gs' hg' => exact nomatch hnil.symm.trans hg'
    | sched _ hp' => exact nomatch (proc_of_on hp).symm.trans hp'
    | task p' k _ hp' hk =>
      obtain rfl := Option.some.inj ((proc_of_on hp).symm.trans hp')
      rw [Option.some.inj (hu.symm.trans hk)] at hcode
      exact nomatch hcode
  · rw [hbelow]
    exact hold.base p u hp (ht ▸ hu) (hh ▸ hne)
  · obtain ⟨hc, hw⟩ := hctx p hp
    rw [hc, hw]
    exact hold.saved p u hp (ht ▸ hu) hsoft

/-- A scheduler that waits, or is about to `swtch`, has not been interrupted. -/
theorem Inv.sched_bare (h : Inv e s) (hb : (s.k.stack (.sched c)).below = []) :
    s.handlers (.sched c) = [] := by
  have hlen := (h.thread (.sched c) trivial).frames
  rw [hb] at hlen
  exact List.eq_nil_of_length_eq_zero hlen

/-- A thread that leaves its hart is in C code. -/
theorem Body.away (hb : Body s c) (hp : (s.k.cpu c).proc = some p) : Away s p := by
  have hon := Intr.on_proc hp
  unfold Away
  cases hb with
  | handler g gs hh hn =>
    rw [← hon, hh]
    exact hn
  | sched _ hp' => exact nomatch hp.symm.trans hp'
  | task p' k hh hp' hk =>
    obtain rfl := Option.some.inj (hp.symm.trans hp')
    rw [← hon, hh]
    intro u hu
    rw [Option.some.inj (hu.symm.trans hk)]
    rfl

/-- A thread that enters a hart finds all that it needs. -/
theorem Inv.enters (h : Inv e s) (hp : (s.k.cpu c).proc = none)
    (hc : (s.k.cur c).cur = .code (.swtch p)) {k' : Intr.Kernel C P L}
    (hp' : (k'.cpu c).proc = some p) : CoreOk e { s with k := k' } c := by
  have hne := h.next c p hp hc
  have hin : Inside e c (s.core c) .kernelvec := by
    refine (coreOk_sched ?_ hp).mp (h.core c)
    have hb : (s.k.cur c).below = [] := (h.intr.on c).base (by rw [hc]; exact nofun)
    unfold Intr.Kernel.cur at hb
    rw [Intr.on_sched hp] at hb ⊢
    exact h.sched_bare hb
  have haway := h.away p hne (h.intr.swtch c p hp hc).2
  have hon : k'.on c = .proc p := Intr.on_proc hp'
  unfold Away at haway
  split at haway
  next g gs hg =>
    refine (coreOk_handler (s := { s with k := k' }) (h := g) (hon ▸ hg)).mpr ⟨hin, ?_⟩
    unfold HandlerOk
    rw [haway]
    exact trivial
  next hg =>
    obtain ⟨u, hu⟩ := Option.ne_none_iff_exists'.mp hne
    have hsoft := haway u hu
    exact (coreOk_task (s := { s with k := k' }) (hon ▸ hg) hp' hu).mpr ((taskOk_soft hsoft).mpr
      ⟨hin, (h.thread (.proc p) hne).saved p u rfl hu hsoft⟩)

variable [DecidableEq C]

/-- C code computes. -/
theorem Inv.work (h : Inv e s) (hb : Body s c) {x : Core} (hin : Inside e c x .kernelvec) :
    Inv e (s.setCore c x) := by
  have hcore : (s.setCore c x).core c = x := Function.update_self _ _ _
  exact h.local (c := c) ⟨fun _ _ => rfl, rfl, fun _ _ => Stays.refl _, fun _ hq => hq,
    fun _ hq => hq, fun c' hc => Function.update_of_ne hc _ _, fun _ _ => rfl, fun _ _ => rfl,
    fun _ => Iff.rfl, fun _ _ _ _ _ => rfl, fun _ _ => rfl, rfl, rfl, rfl⟩ h.intr
    (hb.coreOk h (hcore.symm ▸ hin) rfl rfl rfl fun _ _ => ⟨rfl, rfl⟩)
    (hb.threadOk h rfl rfl rfl fun _ _ => ⟨rfl, rfl⟩) h.returns h.panic

variable [DecidableEq P]

/-- **A statement of C code**, as `Intr` has it. -/
theorem Inv.moves (h : Inv e s) (hb : Body s c) {k' : Intr.Kernel C P L} {made : P → Prop}
    (hm : Moves s.k k' c made) (hi : Intr.Inv k') (hmade : ∀ q, made q → s.task q ≠ none) :
    Inv e { s with k := k' } := by
  have hother : ∀ c', c' ≠ c → k'.on c' = s.k.on c' := fun c' hc =>
    on_congr (congrArg Intr.Cpu.proc (hm.cpu c' hc))
  have hin := hb.inside h
  refine ⟨hi, h.tables.congr rfl rfl rfl fun _ => id, fun c' => ?_, fun t ht => ?_,
    fun p hp hno => ?_, fun c' p hp => ?_, fun c' p hp hc => ?_, fun p hp => ?_, h.returns, h.panic⟩
  · by_cases hc : c' = c
    · subst hc
      rcases hm.hands with hp | ⟨p, hp, hp'⟩ | ⟨p, hp, hcur, hp'⟩
      · exact hb.coreOk h hin hp rfl rfl fun _ _ => ⟨rfl, rfl⟩
      · have hnil := h.sched_bare (h.intr.idle c' p hp).2.1
        exact (coreOk_sched (s := { s with k := k' }) ((Intr.on_sched hp').symm ▸ hnil) hp').mpr hin
      · exact h.enters hp hcur hp'
    · have hold := h.core c'
      unfold CoreOk at hold ⊢
      rw [hother c' hc, hm.cpu c' hc]
      exact hold
  · by_cases hc : t = s.k.on c
    · rw [hc]
      exact hb.threadOk h hm.below rfl rfl fun _ _ => ⟨rfl, rfl⟩
    · exact (h.thread t ht).stays (hm.stack t hc) rfl (fun _ _ => rfl) fun _ _ _ _ => ⟨rfl, rfl⟩
  · by_cases hold : ∀ c', (s.k.cpu c').proc ≠ some p
    · exact h.away p hp hold
    · obtain ⟨c', hc'⟩ := not_forall_not.mp hold
      have hc : c' = c := by
        by_contra hne
        exact hno c' ((congrArg Intr.Cpu.proc (hm.cpu c' hne)).trans hc')
      exact hb.away (hc ▸ hc')
  · by_cases hc : c' = c
    · subst hc
      rcases hm.hands with hs | ⟨p', -, hp'⟩ | ⟨p', hnone, hcur, hp'⟩
      · exact h.runs c' p (hs.symm.trans hp)
      · exact nomatch hp.symm.trans hp'
      · rw [Option.some.inj (hp.symm.trans hp')]
        exact h.next c' p' hnone hcur
    · exact h.runs c' p ((congrArg Intr.Cpu.proc (hm.cpu c' hc)).symm.trans hp)
  · have hcur : (k'.stack (k'.on c')).cur = .code (.swtch p) := hc
    by_cases hcc : c' = c
    · subst hcc
      rcases hm.hands with hs | ⟨p', hp', hout⟩ | ⟨p', -, -, hp'⟩
      · rw [on_congr hs] at hcur
        exact h.wanted p (hm.swtch p hcur)
      · -- the scheduler waits in its `swtch`
        obtain ⟨-, -, r, hr⟩ := h.intr.idle c' p' hp'
        have hon : Thread.sched c' ≠ s.k.on c' := by
          rw [Intr.on_proc hp']
          exact nofun
        rw [Intr.on_sched hout, (hm.stack _ hon).cur, hr] at hcur
        exact nomatch hcur
      · exact nomatch hp.symm.trans hp'
    · have hon : s.k.on c' ≠ s.k.on c := fun heq => hcc (h.intr.on_inj heq)
      rw [hother c' hcc, (hm.stack _ hon).cur] at hcur
      exact h.next c' p ((congrArg Intr.Cpu.proc (hm.cpu c' hcc)).symm.trans hp) hcur
  · rcases hm.wanted p hp with hw | hw
    · exact h.wanted p hw
    · exact hmade p hw

/-- A step of `p` that ends before the statement where it began. -/
theorem stay_after (ht : s.task p = some t) (c : C) (x : Core) (mem : A → Word) (w : Ctx) :
    { s.setCore c x with mem := mem, want := Function.update s.want p w } =
      s.after c p x t mem w := by
  have htask : Function.update s.task p (some t) = s.task := by
    rw [← ht, Function.update_eq_self]
  unfold Sys.after
  rw [htask]
  rfl

/-- A program executes an instruction. -/
theorem Inv.user (h : Inv e s) (huser : (s.core c).user = true) (hp : (s.k.cpu c).proc = some p)
    (x : Ctx) :
    Inv e { s.setCore c { s.core c with
        pc := x.pc, hart := { (s.core c).hart with reg := x.reg } } with
      want := Function.update s.want p x } := by
  obtain ⟨q, hq, hh, hu, hout, hsie, hready, -⟩ := h.inUser huser
  obtain rfl := Option.some.inj (hp.symm.trans hq)
  have hidle := (h.thread_on c).task p .user (Intr.on_proc hp) hu rfl hh
  have hafter := stay_after hu c { s.core c with
    pc := x.pc, hart := { (s.core c).hart with reg := x.reg } } s.mem x
  show Inv e { s.setCore c _ with mem := s.mem, want := Function.update s.want p x }
  rw [hafter]
  exact h.stmt hh hp hu _ .user (OnlyPage.refl s p) (fun _ => hidle)
    ⟨⟨hout.stvec, hout.satp, hout.stale⟩, huser, hsie, hready, rfl⟩

/-- A system call writes a register of its program. -/
theorem Inv.write [DecidableEq A] (h : Inv e s) {k : Kind} (hk : caller s c = some (p, k))
    (v : Write) :
    Inv e { s.poke p v.off v.word with
      want := Function.update s.want p ((s.want p).write v) } := by
  obtain ⟨hh, hp, ht⟩ := caller_eq hk
  obtain ⟨hin, hctx⟩ := (coreOk_task hh hp ht).mp (h.core c)
  have hafter := stay_after ht c (s.core c) (Function.update s.mem (s.tf p v.off) v.word)
    ((s.want p).write v)
  unfold Sys.setCore at hafter
  rw [Function.update_eq_self] at hafter
  show Inv e { s with
    mem := Function.update s.mem (s.tf p v.off) v.word
    want := Function.update s.want p ((s.want p).write v) }
  rw [hafter]
  refine h.stmt hh hp ht _ _ (OnlyPage.update v.off_lt) (fun hcode => nomatch hcode) ?_
  refine TaskOk.congr (t := .code k) ⟨hin, ?_⟩
    (update_page (h.tables.words p (ht ▸ Option.some_ne_none _)) v.off_lt)
  rw [ctx_write, ← hctx]

/-- C code that a process's thread is in returns. -/
theorem Inv.task_done (h : Inv e s) {k : Kind} (hk : caller s c = some (p, k)) {t' : Stmt}
    (ht' : t'.soft = true) (hidle : (s.k.cur c).cur = .code .body ∧ (s.k.cur c).depth = 0) :
    Inv e (s.goto p t') := by
  obtain ⟨hh, hp, ht⟩ := caller_eq hk
  have hok := (coreOk_task hh hp ht).mp (h.core c)
  rw [goto_after s c]
  exact h.stmt hh hp ht _ _ (OnlyPage.refl s p) (fun _ => hidle) ((taskOk_soft ht').mpr hok)

/-- C code that a handler is in returns. -/
theorem Inv.handler_done (h : Inv e s) {g : Handler} {gs : List Handler}
    (hh : s.handlers (s.k.on c) = g :: gs) (hn : g.next = .code)
    (hidle : (s.k.cur c).cur = .code .body ∧ (s.k.cur c).depth = 0) :
    Inv e (s.setHandlers (s.k.on c) ({ g with next := .wSepc } :: gs)) := by
  have hread := (h.thread_on c).read g (hh ▸ List.mem_cons_self) (by rw [hn]; decide)
    (by rw [hn]; decide)
  exact h.handler_next hh _ ((coreOk_handler hh).mp (h.core c)).1 trivial (fun _ _ => hread)
    fun _ => hidle

end Body

end Xv6.Trap
