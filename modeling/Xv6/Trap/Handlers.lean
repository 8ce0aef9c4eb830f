import Xv6.Trap.Steps

/-!
# Interrupts in the kernel

A trap in the kernel comes where interrupts are on, so at a statement that leaves nothing
in the hart, and `stvec` points to `kernelvec`. No handler is interrupted; it puts back
what it has read, whatever has happened on its hart, or the one it is on by then, in the
meantime.
-/

namespace Xv6.Trap

open Lib Lib.Isa
open Intr (Thread)

section Handlers

variable {C P L A : Type*} {e : Env C P A} {s s' : Sys C P L A} {c : C} {t : Stmt}
  {g : Handler} {gs : List Handler}

theorem Inv.live_on (h : Inv e s) (c : C) : Live s (s.k.on c) := by
  cases hp : (s.k.cpu c).proc with
  | none =>
    rw [Intr.on_sched hp]
    exact trivial
  | some p =>
    rw [Intr.on_proc hp]
    exact h.runs c p hp

theorem Inv.thread_on (h : Inv e s) (c : C) : ThreadOk s (s.k.on c) := h.thread _ (h.live_on c)

/-- A handler runs with interrupts off, over one frame. -/
theorem Inv.quiet (h : Inv e s) (hh : s.handlers (s.k.on c) = g :: gs) :
    (s.k.cpu c).sie = false ∧ gs = [] ∧ ∃ f, (s.k.cur c).below = [f] ∧ Intr.Waits f := by
  have hlen := (h.thread_on c).frames
  rw [hh] at hlen
  rcases (h.intr.on c).below with hb | ⟨f, hb, hw, hsie, -⟩
  · have hb : (s.k.stack (s.k.on c)).below = [] := hb
    rw [hb] at hlen
    exact absurd hlen (Nat.succ_ne_zero _)
  · have hb' : (s.k.stack (s.k.on c)).below = [f] := hb
    rw [hb'] at hlen
    exact ⟨hsie, List.eq_nil_of_length_eq_zero (Nat.succ.inj hlen), f, hb, hw⟩

/-- Where interrupts are on, nothing is in the hart. -/
theorem TaskOk.soft {x : Core} {satp : Word} {tf : Word → Word} {w : Ctx}
    (h : TaskOk e c p x true satp tf w t) : t.soft = true := by
  cases t
  case code => rfl
  case skip => rfl
  case intrOn => rfl
  case intrOff => rfl
  case user => exact nomatch h.2.2.1
  case uservec => exact nomatch h.2.2.1
  all_goals exact nomatch h.2.1

/-- Only a process in user space has its hart in user mode. -/
theorem TaskOk.user {x : Core} {sie : Bool} {satp : Word} {tf : Word → Word} {w : Ctx}
    (h : TaskOk e c p x sie satp tf w t) (hx : x.user = true) : t = .user := by
  cases t
  case user => rfl
  case uservec => exact absurd (h.2.1.symm.trans hx) Bool.false_ne_true
  all_goals exact absurd (h.1.user.symm.trans hx) Bool.false_ne_true

/-- A hart that takes an interrupt in the kernel. -/
theorem Inv.open (h : Inv e s) (hsie : (s.k.cpu c).sie = true) :
    s.handlers (s.k.on c) = [] ∧ Inside e c (s.core c) .kernelvec ∧ (s.k.cur c).depth = 0 ∧
      ∀ p u, (s.k.cpu c).proc = some p → s.task p = some u → u.soft = true := by
  have hd : (s.k.cur c).depth = 0 := by
    by_contra hne
    exact Bool.false_ne_true (((h.intr.on c).off (Nat.pos_of_ne_zero hne)).symm.trans hsie)
  cases hh : s.handlers (s.k.on c) with
  | cons g gs => exact absurd ((h.quiet hh).1.symm.trans hsie) Bool.false_ne_true
  | nil =>
    cases hp : (s.k.cpu c).proc with
    | none => exact ⟨rfl, (coreOk_sched hh hp).mp (h.core c), hd, fun p u hp' => nomatch hp'⟩
    | some p =>
      obtain ⟨u, hu⟩ := Option.ne_none_iff_exists'.mp (h.runs c p hp)
      have hok := (coreOk_task hh hp hu).mp (h.core c)
      have hsoft := TaskOk.soft (hsie ▸ hok)
      refine ⟨rfl, ((taskOk_soft hsoft).mp hok).1, hd, fun q v hq hv => ?_⟩
      rw [← Option.some.inj hq, hu] at hv
      exact Option.some.inj hv ▸ hsoft

/-- A hart in user mode. -/
theorem Inv.inUser (h : Inv e s) (huser : (s.core c).user = true) :
    ∃ p, (s.k.cpu c).proc = some p ∧ s.handlers (s.k.on c) = [] ∧ s.task p = some .user ∧
      Outside (s.core c) (s.satp p) ∧ (s.k.cpu c).sie = false ∧
      Ready e c p (fun off => s.mem (s.tf p off)) 4 ∧
      ⟨(s.core c).pc, (s.core c).hart.reg⟩ = s.want p := by
  cases hh : s.handlers (s.k.on c) with
  | cons g gs =>
    exact absurd (((coreOk_handler hh).mp (h.core c)).1.user.symm.trans huser) Bool.false_ne_true
  | nil =>
    cases hp : (s.k.cpu c).proc with
    | none =>
      exact absurd (((coreOk_sched hh hp).mp (h.core c)).user.symm.trans huser) Bool.false_ne_true
    | some p =>
      obtain ⟨u, hu⟩ := Option.ne_none_iff_exists'.mp (h.runs c p hp)
      have hok := (coreOk_task hh hp hu).mp (h.core c)
      obtain rfl := hok.user huser
      obtain ⟨hout, -, hsie, hready, hw⟩ := hok
      exact ⟨p, rfl, rfl, hu, hout, hsie, hready, hw⟩

variable [DecidableEq C] [DecidableEq P]

theorem setSie_self {k : Intr.Kernel C P L} {b : Bool} (h : (k.cpu c).sie = b) :
    k.put c { k.cpu c with sie := b } (k.cur c) = k := by
  have hself : ({ k.cpu c with sie := b } : Intr.Cpu P) = k.cpu c := by
    rw [← h]
  rw [hself]
  exact put_eq_self k c

/-- A statement of a handler, while `Intr` stands still. -/
theorem Inv.handler (h : Inv e s) (hh : s.handlers (s.k.on c) = g :: gs) (g' : Handler) (x : Core)
    (hin : Inside e c x .kernelvec) (hok : HandlerOk g' x)
    (hread : g'.next ≠ .locals → g'.next ≠ .usertrap → g'.Read)
    (htop : g'.next ≠ .code → (s.k.cur c).cur = .code .body ∧ (s.k.cur c).depth = 0) :
    Inv e ((s.setHandlers (s.k.on c) (g' :: gs)).setCore c x) := by
  have hold := h.thread_on c
  have hself : ((s.setHandlers (s.k.on c) (g' :: gs)).setCore c x).handlers (s.k.on c) = g' :: gs :=
    Function.update_self _ _ _
  have hcore : ((s.setHandlers (s.k.on c) (g' :: gs)).setCore c x).core c = x :=
    Function.update_self _ _ _
  have hne : s.handlers (s.k.on c) ≠ [] := by
    rw [hh]
    exact List.cons_ne_nil _ _
  refine h.local (c := c) ⟨fun _ _ => rfl, rfl, fun _ _ => Stays.refl _, fun _ hq => hq,
    fun _ hq => hq, fun c' hc => Function.update_of_ne hc _ _,
    fun t ht => Function.update_of_ne ht _ _, fun _ _ => rfl, fun _ => Iff.rfl,
    fun _ _ _ _ _ => rfl, fun _ _ => rfl, rfl, rfl, rfl⟩ h.intr ?_ ?_ h.returns h.panic
  · refine (coreOk_handler (s := (s.setHandlers (s.k.on c) (g' :: gs)).setCore c x) hself).mpr ?_
    rw [hcore]
    exact ⟨hin, hok⟩
  · refine ⟨?_, fun q hq => ?_, fun q qs hq hcode => ?_, fun _ _ _ _ _ hnil => ?_,
      fun q u hq hu _ => hold.base q u hq hu hne, hold.saved⟩
    · rw [hself]
      have hlen := hold.frames
      rw [hh] at hlen
      exact hlen
    · rw [hself] at hq
      rcases List.mem_cons.mp hq with rfl | hq
      · exact hread
      · exact hold.read q (hh ▸ List.mem_cons_of_mem g hq)
    · rw [hself] at hq
      exact htop ((List.cons.inj hq).1 ▸ hcode)
    · exact nomatch hself.symm.trans hnil

/-- The same, on the hart as it is. -/
theorem Inv.handler_next (h : Inv e s) (hh : s.handlers (s.k.on c) = g :: gs) (g' : Handler)
    (hin : Inside e c (s.core c) .kernelvec) (hok : HandlerOk g' (s.core c))
    (hread : g'.next ≠ .locals → g'.next ≠ .usertrap → g'.Read)
    (htop : g'.next ≠ .code → (s.k.cur c).cur = .code .body ∧ (s.k.cur c).depth = 0) :
    Inv e (s.setHandlers (s.k.on c) (g' :: gs)) := by
  have hset := h.handler hh g' (s.core c) hin hok hread htop
  unfold Sys.setCore at hset
  rw [show (s.setHandlers (s.k.on c) (g' :: gs)).core = s.core from rfl,
    Function.update_eq_self] at hset
  exact hset

/-- A trap in user space goes to `uservec`. -/
theorem Inv.trapUser (h : Inv e s) {cause : Cause} (huser : (s.core c).user = true) :
    Inv e (trapUser s c cause) := by
  obtain ⟨p, hp, hh, hu, hout, hsie, hready, hw⟩ := h.inUser huser
  have hidle := (h.thread_on c).task p .user (Intr.on_proc hp) hu rfl hh
  unfold Trap.trapUser
  rw [setSie_self hsie]
  dsimp only
  rw [hout.stvec, hp]
  show Inv e ((s.setCore c _).goto p .uservec)
  rw [setCore_after]
  exact h.stmt hh hp hu _ _ (OnlyPage.refl s p) (fun _ => hidle)
    ⟨⟨hout.stvec, hout.satp, hout.stale⟩, rfl, hsie, hready, hw, rfl⟩

variable [DecidableEq L]

/-- `sret` at the end of `kernelvec`. -/
theorem Inv.handler_ret (h : Inv e s) (hh : s.handlers (s.k.on c) = g :: gs)
    (hidle : (s.k.cur c).cur = .code .body ∧ (s.k.cur c).depth = 0)
    (hin : Inside e c (s.core c) .kernelvec) {k' : Intr.Kernel C P L}
    (hs : Intr.step s.k (.sret c) = some k') (hback : (s.core c).sepc = g.came) :
    Inv e { s.setHandlers (s.k.on c) gs with
      k := k', returns := s.returns ++ [(g.came, (s.core c).sepc)] } := by
  have hold := h.thread_on c
  obtain ⟨-, rfl, f, hb, hw⟩ := h.quiet hh
  have hi := h.intr.step (a := .sret c) hidle.2 hs
  have hne : s.handlers (s.k.on c) ≠ [] := by
    rw [hh]
    exact List.cons_ne_nil _ _
  have hk : k' = s.k.put c { s.k.cpu c with sie := true }
      { s.k.cur c with cur := f, below := [] } := by
    obtain ⟨f', below, -, hb', hk⟩ := sret_cases hs
    obtain ⟨rfl, rfl⟩ := List.cons.inj (hb.symm.trans hb')
    exact hk
  have hcpu : (k'.cpu c).proc = (s.k.cpu c).proc := by
    rw [hk]
    show (Function.update s.k.cpu c _ c).proc = _
    rw [Function.update_self]
  have hstack : k'.stack (s.k.on c) = { s.k.cur c with cur := f, below := [] } := by
    rw [hk]
    exact if_pos rfl
  have hself : ({ s.setHandlers (s.k.on c) [] with
      k := k', returns := s.returns ++ [(g.came, (s.core c).sepc)] } : Sys C P L A).handlers
        (s.k.on c) = [] := Function.update_self _ _ _
  refine h.local (c := c) ⟨fun c' hc => ?_, hcpu, fun t ht => ?_, fun q hq => ?_, fun q hq => ?_,
    fun _ _ => rfl, fun t ht => Function.update_of_ne ht _ _, fun _ _ => rfl, fun _ => Iff.rfl,
    fun _ _ _ _ _ => rfl, fun _ _ => rfl, rfl, rfl, rfl⟩ hi ?_ ?_ (fun r hr => ?_) h.panic
  · show k'.cpu c' = s.k.cpu c'
    rw [hk]
    exact Function.update_of_ne hc _ _
  · show Stays _ (k'.stack t)
    rw [hk, Intr.put_stack ht]
    exact Stays.refl _
  · have hq : Wanted k' q := hq
    rw [hk] at hq
    exact hq
  · -- the scheduler is not interrupted before its `swtch`
    have hq : (k'.stack (s.k.on c)).cur = .code (.swtch q) := hq
    rw [hstack] at hq
    have hq : f = .code (.swtch q) := hq
    rw [hq] at hw
    exact absurd (show 0 = 1 from hw) Nat.zero_ne_one
  · cases hp : (s.k.cpu c).proc with
    | none =>
      refine (coreOk_sched ?_ (hcpu.trans hp)).mpr hin
      show _ = []
      rw [on_congr hcpu]
      exact hself
    | some p =>
      obtain ⟨u, hu⟩ := Option.ne_none_iff_exists'.mp (h.runs c p hp)
      have hsoft := (hold.base p u (Intr.on_proc hp) hu hne).1
      refine (coreOk_task (s := { s.setHandlers (s.k.on c) [] with
        k := k', returns := s.returns ++ [(g.came, (s.core c).sepc)] }) ?_ (hcpu.trans hp)
          hu).mpr ?_
      · rw [on_congr hcpu]
        exact hself
      · exact (taskOk_soft hsoft).mpr ⟨hin, hold.saved p _ (Intr.on_proc hp) hu hsoft⟩
  · refine ⟨?_, fun q hq => ?_, fun q qs hq => ?_, fun q u hq hu hcode _ => ?_,
      fun q u _ _ hc => absurd hself hc, hold.saved⟩
    · rw [hself]
      show 0 = (k'.stack (s.k.on c)).below.length
      rw [hstack]
      rfl
    · rw [hself] at hq
      exact absurd hq List.not_mem_nil
    · exact nomatch hself.symm.trans hq
    · have hbelow := (hold.base q u hq hu hne).2 hcode
      have hf : f = .code .body := List.singleton_inj.mp (hb.symm.trans hbelow)
      show (k'.stack (s.k.on c)).cur = _ ∧ (k'.stack (s.k.on c)).depth = 0
      rw [hstack]
      exact ⟨hf, hidle.2⟩
  · rcases List.mem_append.mp hr with hr | hr
    · exact h.returns r hr
    · rw [List.mem_singleton.mp hr]
      exact hback.symm

/-- **A statement of `kerneltrap`.** -/
theorem Inv.goHandler (h : Inv e s) (hh : s.handlers (s.k.on c) = g :: gs)
    (hs : goHandler s c g gs = some s') : Inv e s' := by
  have hold := h.thread_on c
  obtain ⟨hin, hok⟩ := (coreOk_handler hh).mp (h.core c)
  obtain ⟨hsie, -⟩ := h.quiet hh
  have hread := hold.read g (hh ▸ List.mem_cons_self)
  have hidle : g.next ≠ .code → (s.k.cur c).cur = .code .body ∧ (s.k.cur c).depth = 0 :=
    hold.top g gs hh
  unfold HandlerOk at hok
  unfold Trap.goHandler at hs
  split at hs
  next hn =>
    rw [hn] at hok
    exact hok.elim
  next hn =>
    rw [hn] at hok
    obtain ⟨hback, hspp, hspie, htaken⟩ := hok
    rw [← Option.some.inj hs]
    exact h.handler_next hh _ hin htaken (fun _ _ => ⟨hback, hspp, hspie, hsie⟩)
      fun _ => hidle (by rw [hn]; decide)
  next hn =>
    rw [hn] at hok hread
    have hr := hread (by decide) (by decide)
    rw [← Option.some.inj hs, if_neg (by rw [hr.2.1]; exact Bool.noConfusion)]
    exact h.handler_next hh _ hin hok (fun _ _ => hr) fun _ => hidle (by rw [hn]; decide)
  next hn =>
    rw [hn] at hok hread
    rw [← Option.some.inj hs, if_neg (by rw [hsie]; exact Bool.false_ne_true)]
    exact h.handler_next hh _ hin hok (fun _ _ => hread (by decide) (by decide))
      fun _ => hidle (by rw [hn]; decide)
  next hn =>
    rw [hn] at hok hread
    have htaken : (s.core c).scause = .external ∨ (s.core c).scause = .timer := hok
    rw [← Option.some.inj hs, if_pos htaken]
    exact h.handler_next hh _ hin trivial (fun _ _ => hread (by decide) (by decide))
      fun _ => hidle (by rw [hn]; decide)
  next => exact nomatch hs
  next hn =>
    rw [hn] at hread
    have hr := hread (by decide) (by decide)
    rw [← Option.some.inj hs]
    exact h.handler hh _ _ ⟨hin.user, hin.stvec, hin.satp, hin.stale, hin.tp⟩ hr.1 (fun _ _ => hr)
      fun _ => hidle (by rw [hn]; decide)
  next hn =>
    rw [hn] at hok hread
    have hr := hread (by decide) (by decide)
    have hput : s.k.put c { s.k.cpu c with sie := g.sie } (s.k.cur c) = s.k :=
      setSie_self (hsie.trans hr.2.2.2.symm)
    rw [← Option.some.inj hs, hput]
    exact h.handler hh { g with next := .sret }
      { s.core c with spp := g.spp, spie := g.spie }
      ⟨hin.user, hin.stvec, hin.satp, hin.stale, hin.tp⟩ ⟨hok, hr.2.1, hr.2.2.1⟩ (fun _ _ => hr)
      fun _ => hidle (by rw [hn]; decide)
  next hn =>
    rw [hn] at hok
    rw [if_pos hok.2] at hs
    obtain ⟨k', hk', rfl⟩ := Option.map_eq_some_iff.mp hs
    exact h.handler_ret hh (hidle (by rw [hn]; decide)) hin hk' hok.1

/-- An interrupt in the kernel goes to `kerneltrap`. -/
theorem Inv.trapKernel (h : Inv e s) {cause : Cause} {pc : Word} {k' : Intr.Kernel C P L}
    (hcause : cause = .external ∨ cause = .timer) (hs : Intr.step s.k (.intr c) = some k') :
    Inv e (trapKernel s c cause pc k') := by
  have hi := h.intr.step (a := .intr c) trivial hs
  have hs : (if (s.k.cpu c).sie = true then
      some (s.k.put c { s.k.cpu c with sie := false }
        { s.k.cur c with cur := .code .body, below := (s.k.cur c).cur :: (s.k.cur c).below })
    else none) = some k' := hs
  split at hs
  case isFalse => exact nomatch hs
  case isTrue hsie =>
    obtain ⟨hh, hin, hd, hsoft⟩ := h.open hsie
    have hold := h.thread_on c
    have hbelow : (s.k.cur c).below = [] := by
      have hlen := hold.frames
      rw [hh] at hlen
      exact List.eq_nil_of_length_eq_zero hlen.symm
    rw [hbelow] at hs
    have hk := (Option.some.inj hs).symm
    have hcpu : (k'.cpu c).proc = (s.k.cpu c).proc := by
      rw [hk]
      show (Function.update s.k.cpu c _ c).proc = _
      rw [Function.update_self]
    have hstack : k'.stack (s.k.on c) =
        { s.k.cur c with cur := .code .body, below := [(s.k.cur c).cur] } := by
      rw [hk]
      exact if_pos rfl
    have hself : (Trap.trapKernel s c cause pc k').handlers (s.k.on c) =
        [Handler.enter .kernelvec pc] := by
      show Function.update s.handlers (s.k.on c)
        (Handler.enter (s.core c).stvec pc :: s.handlers (s.k.on c)) (s.k.on c) = _
      rw [Function.update_self, hin.stvec, hh]
    have hcore : (Trap.trapKernel s c cause pc k').core c =
        (s.core c).taken cause pc true (s.k.cpu c).sie := Function.update_self _ _ _
    refine h.local (c := c) ⟨fun c' hc => ?_, hcpu, fun t ht => ?_, fun q hq => ?_, fun q hq => ?_,
      fun c' hc => Function.update_of_ne hc _ _, fun t ht => Function.update_of_ne ht _ _,
      fun _ _ => rfl, fun _ => Iff.rfl, fun _ _ _ _ _ => rfl, fun _ _ => rfl, rfl, rfl, rfl⟩ hi
      ?_ ?_ h.returns h.panic
    · show k'.cpu c' = s.k.cpu c'
      rw [hk]
      exact Function.update_of_ne hc _ _
    · show Stays _ (k'.stack t)
      rw [hk, Intr.put_stack ht]
      exact Stays.refl _
    · have hq : Wanted k' q := hq
      rw [hk] at hq
      exact hq
    · have hq : (k'.stack (s.k.on c)).cur = .code (.swtch q) := hq
      rw [hstack] at hq
      exact nomatch hq
    · have hnew : (Trap.trapKernel s c cause pc k').handlers
          ((Trap.trapKernel s c cause pc k').k.on c) = [Handler.enter .kernelvec pc] := by
        rw [← hself]
        exact congrArg _ (on_congr hcpu)
      rw [coreOk_handler hnew, hcore]
      exact ⟨⟨rfl, hin.stvec, hin.satp, hin.stale, hin.tp⟩, rfl, rfl, hsie, hcause⟩
    · refine ⟨?_, fun g hg hne => ?_, fun g gs hg _ => ?_, fun q u hq hu _ hnil => ?_,
        fun q u hq hu _ => ⟨hsoft q u (proc_of_on hq) hu, fun hcode => ?_⟩, hold.saved⟩
      · rw [hself]
        show 1 = (k'.stack (s.k.on c)).below.length
        rw [hstack]
        rfl
      · rw [hself, List.mem_singleton] at hg
        exact absurd (hg ▸ rfl) hne
      · show (k'.stack (s.k.on c)).cur = _ ∧ (k'.stack (s.k.on c)).depth = 0
        rw [hstack]
        exact ⟨rfl, hd⟩
      · exact nomatch hself.symm.trans hnil
      · show (k'.stack (s.k.on c)).below = _
        rw [hstack]
        exact List.singleton_inj.mpr (hold.task q u hq hu hcode hh).1

/-- **A trap.** -/
theorem Inv.trap (h : Inv e s) {cause : Cause} {pc : Word} (hs : trap s c cause pc = some s') :
    Inv e s' := by
  unfold Trap.trap at hs
  split at hs
  next huser =>
    rw [← Option.some.inj hs]
    exact h.trapUser huser
  next =>
    split at hs
    next hcause =>
      obtain ⟨k', hk', rfl⟩ := Option.map_eq_some_iff.mp hs
      exact h.trapKernel hcause hk'
    next => exact nomatch hs

end Handlers

end Xv6.Trap
