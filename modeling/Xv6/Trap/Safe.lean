import Xv6.Trap.Slots

/-!
# Every trap and every return

> In every run in which the kernel's C code keeps its promises (`Promised`), no trap panics:
> none is taken by `usertrap` from the kernel or by `kerneltrap` from user space, with
> interrupts on or with another cause than a device, `uservec` and `userret` do not fault.
> C code always runs on the kernel's page table, with `stvec` at `kernelvec` and the number of its
> hart in `tp`, and interrupts are on only there (`trap_safe`).

> A program in user space has in its registers what its instructions and its system calls have
> put there, whatever harts it has been on (`program_resumes`).

> A `kerneltrap` goes back to where it was called from, whatever has run in the meantime
> (`kerneltrap_returns`).
-/

namespace Xv6.Trap

open Lib Lib.Isa
open Intr (Thread)

section Safe

variable {C P L A : Type*} {e : Env C P A} {s s' : Sys C P L A} {c : C} {p : P}

theorem Init.inv (h : Init e s) : Inv e s := by
  have hnone : ∀ c p, (s.k.cpu c).proc ≠ some p := fun c p hp => by
    rw [h.k.proc] at hp
    exact nomatch hp
  have hforkret : ∀ p u, s.task p = some u → u = .code .forkret := fun p u hu => by
    rcases h.task p with hp | hp
    · exact nomatch hu.symm.trans hp
    · exact Option.some.inj (hu.symm.trans hp)
  refine ⟨h.k.inv, h.tables, fun c => ?_, fun t _ => ?_, fun p hp _ => ?_,
    fun c p hp => absurd hp (hnone c p), fun c p hp hc => ?_, fun p hp hn => ?_, fun r hr => ?_,
    h.panic⟩
  · exact (coreOk_sched (h.handlers _) (h.k.proc c)).mpr
      ⟨h.user c, h.stvec c, h.satp c, h.stale c, h.tp c⟩
  · refine ⟨?_, fun g hg => ?_, fun g gs hg => absurd ((h.handlers t).symm.trans hg) nofun,
      fun p u hp hu hcode => ?_, fun _ _ _ _ hc => absurd (h.handlers t) hc,
      fun p u hp hu _ => ?_⟩
    · rw [h.handlers]
      cases t with
      | proc p => rw [h.k.start]; rfl
      | sched c => rw [h.k.sched]; rfl
    · rw [h.handlers] at hg
      exact absurd hg List.not_mem_nil
    · rw [hforkret p u hu] at hcode
      exact nomatch hcode
    · exact (h.want p (hu ▸ Option.some_ne_none u)).symm
  · unfold Away
    rw [h.handlers]
    intro u hu
    rw [hforkret p u hu]
    rfl
  · unfold Intr.Kernel.cur at hc
    rw [Intr.on_sched hp, h.k.sched] at hc
    exact nomatch hc
  · rcases hp with hp | hp
    · exact (h.free p hn).2 hp
    · exact (h.free p hn).1 hp
  · rw [h.returns] at hr
    exact absurd hr List.not_mem_nil

variable [DecidableEq C] [DecidableEq P] [DecidableEq L]

/-- C code goes on as `Intr` has it. -/
theorem Inv.move (h : Inv e s) (hb : Body s c) {m : Move P L}
    (hok : ∀ f, m = .call f → Intr.Matched s.k (.call c f) ∧
      ∀ q, f = .setState q .RUNNABLE → s.task q ≠ none)
    (hs : move s c m = some s') : Inv e s' := by
  cases m with
  | step =>
    obtain ⟨k', hk', rfl⟩ := Option.map_eq_some_iff.mp hs
    exact h.moves hb (.exec1 h.intr hk')
      (h.intr.step (a := .step c) trivial hk') fun _ => False.elim
  | dispatch p =>
    obtain ⟨k', hk', rfl⟩ := Option.map_eq_some_iff.mp hs
    exact h.moves hb (.dispatch hk')
      (h.intr.step (a := .dispatch c p) trivial hk') fun _ => False.elim
  | call f =>
    obtain ⟨hmatched, hlive⟩ := hok f rfl
    have hcall : (∀ q, f ≠ .context q) →
        (Intr.step s.k (.call c f)).map (fun k => { s with k := k }) = some s' → Inv e s' := by
      intro hf hm
      obtain ⟨k', hk', rfl⟩ := Option.map_eq_some_iff.mp hm
      exact h.moves hb (.call hmatched hf hk') (h.intr.step (a := .call c f) hmatched hk') hlive
    cases f with
    | intrOn => exact nomatch hs
    | intrOff => exact nomatch hs
    | context q => exact nomatch hs
    | acquire l => exact hcall (fun _ hc => nomatch hc) hs
    | release l => exact hcall (fun _ hc => nomatch hc) hs
    | pushOff => exact hcall (fun _ hc => nomatch hc) hs
    | popOff => exact hcall (fun _ hc => nomatch hc) hs
    | setState q st => exact hcall (fun _ hc => nomatch hc) hs
    | sched => exact hcall (fun _ hc => nomatch hc) hs

variable [DecidableEq A]

/-- Trap code goes on. -/
theorem Inv.go (h : Inv e s) (hs : step e s (.go c) = some s') : Inv e s' := by
  unfold step at hs
  dsimp only at hs
  split at hs
  next => exact nomatch hs
  next =>
    split at hs
    next g gs hh => exact h.goHandler hh hs
    next p hh hp =>
      obtain ⟨t, ht, hs⟩ := Option.bind_eq_some_iff.mp hs
      exact h.goTask hh hp ht hs
    next => exact nomatch hs

/-- **The step lemma.** -/
theorem Inv.step (h : Inv e s) {a : Act C P L A} (hok : Promised e s a)
    (hs : step e s a = some s') : Inv e s' := by
  cases a with
  | go c => exact h.go hs
  | trap c cause pc => exact h.trap hs
  | user c x =>
    unfold Trap.step at hs
    dsimp only at hs
    split at hs
    next p huser hp =>
      rw [← Option.some.inj hs]
      exact h.user huser hp x
    next => exact nomatch hs
  | move c m =>
    unfold Trap.step at hs
    dsimp only at hs
    split at hs
    next hc =>
      refine h.move (Sys.inCode_body hc) (fun f hf => ?_) hs
      subst hf
      exact hok
    next => exact nomatch hs
  | done c =>
    unfold Trap.step at hs
    dsimp only at hs
    split at hs
    next g gs hh =>
      split at hs
      next hn =>
        rw [← Option.some.inj hs]
        exact h.handler_done hh hn hok
      next => exact nomatch hs
    next p k hh hk =>
      rw [← Option.some.inj hs]
      exact h.task_done hk (by split <;> rfl) hok
    next => exact nomatch hs
  | work c reg spp spie =>
    unfold Trap.step at hs
    dsimp only at hs
    split at hs
    next hc =>
      have hb := Sys.inCode_body hc
      have hin := hb.inside h
      rw [← Option.some.inj hs]
      refine h.work hb ⟨hin.user, hin.stvec, hin.satp, hin.stale, ?_⟩
      show Function.update reg .tp ((s.core c).hart.reg .tp) .tp = _
      rw [Function.update_self]
      exact hin.tp
    next => exact nomatch hs
  | write c w =>
    unfold Trap.step at hs
    dsimp only at hs
    split at hs
    next p hk =>
      rw [← Option.some.inj hs]
      exact h.write hk w
    next p hk =>
      rw [← Option.some.inj hs]
      exact h.write hk w
    next => exact nomatch hs
  | fork c q =>
    unfold Trap.step at hs
    dsimp only at hs
    split at hs
    next p hk =>
      split at hs
      next ht =>
        rw [← Option.some.inj hs]
        exact h.fork hk hok ht
      next => exact nomatch hs
    next => exact nomatch hs
  | exec c satp =>
    have htab : ∀ p k, caller s c = some (p, k) →
        Tables e { s with satp := Function.update s.satp p satp } →
        Inv e { s with satp := Function.update s.satp p satp } := by
      intro p k hk ht
      obtain ⟨hh, hp, htask⟩ := caller_eq hk
      refine h.world ht (fun _ _ _ _ => rfl) fun c' p' hp' => ?_
      by_cases hc : c' = c
      · exact Or.inr (hc ▸ .task p k hh hp htask)
      · refine Or.inl (Function.update_of_ne (fun hpp => hc ?_) _ _)
        exact h.intr.one c' c p (hpp ▸ hp') hp
    have hok := hok s' hs
    unfold Trap.step at hs
    dsimp only at hs
    split at hs
    next p hk =>
      rw [← Option.some.inj hs] at hok ⊢
      exact htab p _ hk hok
    next p hk =>
      rw [← Option.some.inj hs] at hok ⊢
      exact htab p _ hk hok
    next => exact nomatch hs
  | alloc c q satp tf =>
    have htab := hok.2 s' hs
    unfold Trap.step at hs
    dsimp only at hs
    split at hs
    next =>
      obtain ⟨k', hk', rfl⟩ := Option.map_eq_some_iff.mp hs
      exact h.alloc hok.1 hk' htab
    next => exact nomatch hs
  | free c q =>
    unfold Trap.step at hs
    dsimp only at hs
    split at hs
    next hc =>
      rw [← Option.some.inj hs]
      exact h.free hok hc.2
    next => exact nomatch hs
  | memory look mem =>
    rw [← Option.some.inj hs]
    exact h.world hok.1 hok.2 fun _ _ _ => Or.inl rfl

/-- The run lemma. -/
theorem reach_inv (h : Reach (step e) (Promised e) (Init e) s) : Inv e s :=
  h.inv (fun _ => Init.inv) fun hi hok hs => hi.step hok hs

/-- What is true of the traps. -/
structure Safe (e : Env C P A) (s : Sys C P L A) : Prop where
  panic : s.panic = none
  code : ∀ c, s.inCode c = true → Inside e c (s.core c) .kernelvec
  interrupts : ∀ c, (s.k.cpu c).sie = true → Inside e c (s.core c) .kernelvec
  /-- In user space the next trap goes to `uservec`, on the table of the process. -/
  user : ∀ c, (s.core c).user = true → ∃ p, (s.k.cpu c).proc = some p ∧
    Outside (s.core c) (s.satp p) ∧ UserTable s.look e.home (s.tf p) (s.satp p) ∧
    s.mem (s.tf p kernel_satp) = e.kernel_pagetable ∧
    s.mem (s.tf p kernel_sp) = e.kstack p + 4096 ∧
    s.mem (s.tf p kernel_trap) = e.usertrap ∧
    s.mem (s.tf p kernel_hartid) = e.hartid c

/-- **Traps are safe.** -/
theorem trap_safe (h : Reach (step e) (Promised e) (Init e) s) : Safe e s := by
  have hi := reach_inv h
  refine ⟨hi.panic, fun c hc => (Sys.inCode_body hc).inside hi, fun c hc => (hi.open hc).2.1,
    fun c hc => ?_⟩
  obtain ⟨p, hp, -, -, hout, -, hready, -⟩ := hi.inUser hc
  exact ⟨p, hp, hout, hi.tables.user p (hi.runs c p hp), hready 0 (by decide),
    hready 1 (by decide), hready 2 (by decide), hready 3 (by decide)⟩

/-- **A program finds its registers.** -/
theorem program_resumes (h : Reach (step e) (Promised e) (Init e) s)
    (hu : (s.core c).user = true) (hp : (s.k.cpu c).proc = some p) :
    ⟨(s.core c).pc, (s.core c).hart.reg⟩ = s.want p := by
  obtain ⟨q, hq, -, -, -, -, -, hw⟩ := (reach_inv h).inUser hu
  rw [Option.some.inj (hp.symm.trans hq)]
  exact hw

/-- **`kerneltrap` returns.** -/
theorem kerneltrap_returns (h : Reach (step e) (Promised e) (Init e) s) :
    ∀ r ∈ s.returns, r.1 = r.2 :=
  (reach_inv h).returns

end Safe

section Plain

variable {C P L A : Type*} [DecidableEq C] [DecidableEq P] [DecidableEq L] {e : Env C P A}

/-- What there is to promise while no process is made or freed and no table changes. -/
def Plain (s : Sys C P L A) : Act C P L A → Prop
  | .user _ _ | .trap _ _ _ | .go _ | .move _ .step | .move _ (.dispatch _) | .work _ _ _ _
  | .write _ _ => True
  | .move c (.call f) => Intr.Matched s.k (.call c f) ∧ ∀ q, s.task q ≠ none
  | .done c => (s.k.cur c).cur = .code .body ∧ (s.k.cur c).depth = 0
  | .fork _ _ | .exec _ _ | .alloc _ _ _ _ | .free _ _ | .memory _ _ => False

instance [Fintype P] (s : Sys C P L A) : ∀ a : Act C P L A, Decidable (Plain s a)
  | .user _ _ | .trap _ _ _ | .go _ | .move _ .step | .move _ (.dispatch _) | .work _ _ _ _
  | .write _ _ => inferInstanceAs (Decidable True)
  | .move c (.call f) =>
    inferInstanceAs (Decidable (Intr.Matched s.k (.call c f) ∧ ∀ q, s.task q ≠ none))
  | .done c => inferInstanceAs (Decidable ((s.k.cur c).cur = .code .body ∧ (s.k.cur c).depth = 0))
  | .fork _ _ | .exec _ _ | .alloc _ _ _ _ | .free _ _ | .memory _ _ =>
    inferInstanceAs (Decidable False)

theorem Plain.promised [DecidableEq A] {s : Sys C P L A} (a : Act C P L A) (h : Plain s a) :
    Promised e s a := by
  cases a with
  | move c m =>
    cases m with
    | call f => exact ⟨h.1, fun q _ => h.2 q⟩
    | step => exact trivial
    | dispatch p => exact trivial
  | done c => exact h
  | user c x => exact trivial
  | trap c cause pc => exact trivial
  | go c => exact trivial
  | work c reg spp spie => exact trivial
  | write c w => exact trivial
  | fork c q => exact h.elim
  | exec c satp => exact h.elim
  | alloc c q satp tf => exact h.elim
  | free c q => exact h.elim
  | memory look mem => exact h.elim

end Plain

/-- Two harts and a process; the cells are the trampoline's code and one trapframe. -/
def harts : Env Bool Unit (Option Word) where
  home := none
  kernel_pagetable := 1
  usertrap := 0x80001000
  kstack _ := 0x3fffffd000
  hartid c := if c then 1 else 0

def booted : Sys Bool Unit Unit (Option Word) where
  k := Intr.booted
  core c := {
    hart := ⟨fun r => if r = .tp then harts.hartid c else 5, fun _ => 1, []⟩
    user := false
    pc := 0
    sie := false
    stvec := .kernelvec
    sepc := 0
    scause := .other
    spp := false
    spie := false }
  task _ := some (.code .forkret)
  handlers _ := []
  look _ acc va := match acc with
    | .fetch => if va = TRAMPOLINE then some none else none
    | .load | .store => if va - TRAPFRAME < 4096 then some (some (va - TRAPFRAME)) else none
  mem a := if a = some epc then 0 else 9
  satp _ := 2
  tf _ off := some off
  want _ := ⟨0, fun _ => 9⟩
  returns := []
  panic := none

theorem booted_code (t : Word) : booted.look t .fetch TRAMPOLINE = some none := by
  show (if TRAMPOLINE = TRAMPOLINE then some none else none) = some none
  rw [if_pos rfl]

theorem booted_page {off : Word} (h : off < 4096) :
    (if TRAPFRAME + off - TRAPFRAME < 4096 then some (some (TRAPFRAME + off - TRAPFRAME))
      else none) = some (some off) := by
  have hoff : TRAPFRAME + off - TRAPFRAME = off := by bv_omega
  rw [hoff, if_pos h]

theorem booted_init : Init harts booted where
  k := Intr.booted_init
  tables := {
    kernel := booted_code 1
    user := fun _ _ => ⟨booted_code 2, fun _ => booted_page, fun _ => booted_page⟩
    words := fun _ _ _ _ _ _ heq => Option.some.inj heq
    apart := fun _ _ _ _ hne => absurd rfl hne }
  user _ := rfl
  stvec _ := rfl
  satp _ := rfl
  stale _ := rfl
  tp c := by
    show (if Reg.tp = .tp then harts.hartid c else 5) = _
    rw [if_pos rfl]
  task _ := Or.inr rfl
  free _ hn := absurd hn (Option.some_ne_none _)
  handlers _ := rfl
  want _ _ := by
    have hslot : ∀ r, booted.mem (some (slot r)) = 9 := fun r => if_neg fun hc => by
      have hlo := (slot_bounds r).1
      rw [Option.some.inj hc] at hlo
      exact absurd hlo (by decide)
    show (⟨0, fun _ => 9⟩ : Ctx) = ⟨0, fun r => booted.mem (some (slot r))⟩
    rw [funext hslot]
  returns := rfl
  panic := rfl

/-- The scheduler of `c` switches to the process. -/
def dispatched (c : Bool) : List (Act Bool Unit Unit (Option Word)) :=
  .move c (.dispatch ()) :: List.replicate 7 (.move c .step)

/-- The process releases `p->lock` and goes to user space. -/
def resumed (c : Bool) : List (Act Bool Unit Unit (Option Word)) :=
  [.move c (.call (.release (.proc ()))), .move c .step, .move c .step, .done c] ++
    List.replicate 9 (.go c)

/-- A timer interrupt in user space, and `yield()`. -/
def preempted (c : Bool) : List (Act Bool Unit Unit (Option Word)) :=
  .trap c .timer 0 :: List.replicate 5 (.go c) ++
    .move c (.call (.acquire (.proc ()))) :: List.replicate 5 (.move c .step) ++
    [.move c (.call (.setState () .RUNNABLE)), .move c (.call .sched)] ++
    List.replicate 4 (.move c .step)

/-- The process loads `a5` on the hart `false` and goes on on `true`, which takes an interrupt in
its scheduler first. -/
def migrated : List (Act Bool Unit Unit (Option Word)) :=
  [.move false .step, .move false .step] ++ dispatched false ++ resumed false ++
  [.user false ⟨8, fun r => if r = .a5 then 77 else 9⟩] ++ preempted false ++
  [.move true .step, .trap true .external 0x80002000] ++ List.replicate 4 (.go true) ++
  .done true :: List.replicate 3 (.go true) ++
  .move true .step :: dispatched true ++ .move true .step :: resumed true

/-- The run that the witnesses share. -/
theorem migrated_reach :
    ∃ s, runFrom (step harts) booted migrated = some s ∧
      Reach (step harts) (Promised harts) (Init harts) s ∧
      (s.core true).user = true ∧ (s.k.cpu true).proc = some () ∧ (s.core true).pc = 8 ∧
      (s.core true).hart.reg .a5 = 77 ∧ s.returns = [(0x80002000, 0x80002000)] := by
  have hobs : (runFrom (guarded (step (L := Unit) harts) Plain) booted migrated).any (fun s =>
      decide ((s.core true).user = true ∧ (s.k.cpu true).proc = some () ∧ (s.core true).pc = 8 ∧
        (s.core true).hart.reg .a5 = 77 ∧ s.returns = [(0x80002000, 0x80002000)])) = true := by
    decide +kernel
  obtain ⟨s, hs, hobs⟩ := (Option.any_eq_true _ _).mp hobs
  obtain ⟨hok, hrun⟩ := runFrom_guarded _ hs
  exact ⟨s, hrun, .of_run _ (.start booted_init) (hok.imp fun _ => Plain.promised) hrun,
    of_decide_eq_true hobs⟩

theorem trap_safe_migrated :
    ∃ s, runFrom (step harts) booted migrated = some s ∧ (s.core true).user = true ∧
      Safe harts s := by
  obtain ⟨s, hs, hr, hu, -⟩ := migrated_reach
  exact ⟨s, hs, hu, trap_safe hr⟩

theorem program_resumes_migrated :
    ∃ s, runFrom (step harts) booted migrated = some s ∧ (s.core true).pc = 8 ∧
      (s.core true).hart.reg .a5 = 77 ∧
      ⟨(s.core true).pc, (s.core true).hart.reg⟩ = s.want () := by
  obtain ⟨s, hs, hr, hu, hp, hpc, ha5, -⟩ := migrated_reach
  exact ⟨s, hs, hpc, ha5, program_resumes hr hu hp⟩

theorem kerneltrap_returns_migrated :
    ∃ s, runFrom (step harts) booted migrated = some s ∧
      s.returns = [(0x80002000, 0x80002000)] ∧ ∀ r ∈ s.returns, r.1 = r.2 := by
  obtain ⟨s, hs, hr, -, -, -, -, hret⟩ := migrated_reach
  exact ⟨s, hs, hret, kerneltrap_returns hr⟩

end Xv6.Trap
