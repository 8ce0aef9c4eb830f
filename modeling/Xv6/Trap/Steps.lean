import Xv6.Trap.Inv

/-!
# The statements of the trap code

Every statement of `usertrap`, `prepare_return` and `kerneltrap` keeps the invariant.
-/

namespace Xv6.Trap

open Lib Lib.Isa
open Intr (Thread)

section Words

variable {C P A : Type*} {e : Env C P A} {c : C} {p : P} {tf : Word → Word} {a w : Word} {n : Nat}

/-- A word of the kernel is not one of the program's. -/
theorem ctx_update (ha : a < 40) (hepc : a ≠ epc) : ctx (Function.update tf a w) = ctx tf := by
  unfold ctx
  rw [Function.update_of_ne hepc.symm]
  congr 1
  funext r
  refine Function.update_of_ne (fun hc => ?_) _ _
  have hlo := (slot_bounds r).1
  rw [hc] at hlo
  bv_omega

theorem ctx_epc : ctx (Function.update tf epc w) = ⟨w, (ctx tf).reg⟩ := by
  unfold ctx
  rw [Function.update_self]
  congr 1
  funext r
  refine Function.update_of_ne (fun hc => ?_) _ _
  have hlo := (slot_bounds r).1
  rw [hc] at hlo
  exact absurd hlo (by decide)

/-- What the program's registers are after a system call has written one. -/
theorem ctx_write (v : Write) : ctx (Function.update tf v.off v.word) = (ctx tf).write v := by
  have hreg : ∀ (r : Reg) (w : Word), ctx (Function.update tf (slot r) w) =
      ⟨(ctx tf).pc, Function.update (ctx tf).reg r w⟩ := by
    intro r w
    unfold ctx
    have hepc : epc ≠ slot r := fun hc => by
      have hlo := (slot_bounds r).1
      rw [← hc] at hlo
      exact absurd hlo (by decide)
    rw [Function.update_of_ne hepc]
    congr 1
    funext r'
    by_cases hr : r' = r
    · rw [hr, Function.update_self, Function.update_self]
    · rw [Function.update_of_ne hr, Function.update_of_ne fun hc => hr (slot_inj hc)]
  cases v with
  | a0 w => exact hreg .a0 w
  | a1 w => exact hreg .a1 w
  | sp w => exact hreg .sp w
  | epc w => exact ctx_epc

theorem Write.off_lt (v : Write) : v.off < 4096 := by
  cases v with
  | a0 w => exact (slot_bounds .a0).2
  | a1 w => exact (slot_bounds .a1).2
  | sp w => exact (slot_bounds .sp).2
  | epc w => exact (by decide : Trap.epc < 4096)

/-- What is written to one word of a page. -/
theorem update_page {A : Type*} [DecidableEq A] {page : Word → A} {mem : A → Word}
    (hd : Distinct page) (ha : a < 4096) : ∀ off < 4096,
    Function.update mem (page a) w (page off) =
      Function.update (fun off => mem (page off)) a w off := by
  intro off hoff
  by_cases heq : off = a
  · rw [heq, Function.update_self, Function.update_self]
  · rw [Function.update_of_ne heq, Function.update_of_ne fun hc => heq (hd off hoff a ha hc)]

/-- The next word that `uservec` needs. -/
theorem Ready.next (i : Fin 4) (h : Ready e c p tf i) :
    Ready e c p (Function.update tf (place i) (needed e c p i)) (i + 1) := by
  intro j hj
  by_cases hji : j = i
  · rw [hji, Function.update_self]
  · rw [Function.update_of_ne fun hc => hji (place_inj j i hc)]
    exact h j (by omega)

end Words

section Statements

variable {C P L A : Type*} {e : Env C P A} {s s' : Sys C P L A} {c : C} {p : P} {t : Stmt}

/-- Nothing but the page of the trapframe of `p` has changed. -/
def OnlyPage (s : Sys C P L A) (p : P) (mem : A → Word) : Prop :=
  ∀ a, (∀ off < 4096, a ≠ s.tf p off) → mem a = s.mem a

theorem OnlyPage.refl (s : Sys C P L A) (p : P) : OnlyPage s p s.mem := fun _ _ => rfl

theorem OnlyPage.update [DecidableEq A] {off w : Word} (hoff : off < 4096) :
    OnlyPage s p (Function.update s.mem (s.tf p off) w) := fun _ ha =>
  Function.update_of_ne (ha off hoff) _ _

theorem OnlyPage.other {mem : A → Word} (h : OnlyPage s p mem) (ht : Tables e s) {q : P}
    (hp : s.task p ≠ none) (hq : s.task q ≠ none) (hne : q ≠ p) :
    ∀ off < 4096, mem (s.tf q off) = s.mem (s.tf q off) := fun off hoff =>
  h _ fun o ho => ht.apart q p hq hp hne off hoff o ho

variable [DecidableEq C] [DecidableEq P]

/-- The state after a statement of `p` on `c`. -/
def Sys.after (s : Sys C P L A) (c : C) (p : P) (x : Core) (t : Stmt) (mem : A → Word) (w : Ctx) :
    Sys C P L A :=
  { s with
    core := Function.update s.core c x
    task := Function.update s.task p (some t)
    mem := mem
    want := Function.update s.want p w }

theorem goto_after (s : Sys C P L A) (c : C) (p : P) (t : Stmt) :
    s.goto p t = s.after c p (s.core c) t s.mem (s.want p) := by
  unfold Sys.goto Sys.after
  rw [Function.update_eq_self, Function.update_eq_self]

theorem setCore_after (s : Sys C P L A) (c : C) (p : P) (x : Core) (t : Stmt) :
    (s.setCore c x).goto p t = s.after c p x t s.mem (s.want p) := by
  unfold Sys.setCore Sys.goto Sys.after
  rw [Function.update_eq_self]

theorem poke_after [DecidableEq A] (s : Sys C P L A) (c : C) (p : P) (off w : Word) (t : Stmt) :
    (s.poke p off w).goto p t =
      s.after c p (s.core c) t (Function.update s.mem (s.tf p off) w) (s.want p) := by
  unfold Sys.poke Sys.goto Sys.after
  rw [Function.update_eq_self, Function.update_eq_self]

/-- **A statement of a process's thread**, while `Intr` stands still. -/
theorem Inv.stmt (h : Inv e s) (hh : s.handlers (s.k.on c) = []) (hp : (s.k.cpu c).proc = some p)
    (ht : s.task p = some t) (x : Core) (t' : Stmt) {mem : A → Word} {w : Ctx}
    (hmem : OnlyPage s p mem)
    (hidle : t'.isCode = false → (s.k.cur c).cur = .code .body ∧ (s.k.cur c).depth = 0)
    (hok : TaskOk e c p x (s.k.cpu c).sie (s.satp p) (fun off => mem (s.tf p off)) w t') :
    Inv e (s.after c p x t' mem w) := by
  have hne : s.task p ≠ none := ht ▸ Option.some_ne_none t
  have hself : (s.after c p x t' mem w).task p = some t' := Function.update_self _ _ _
  have hwant : (s.after c p x t' mem w).want p = w := Function.update_self _ _ _
  have hcore : (s.after c p x t' mem w).core c = x := Function.update_self _ _ _
  have hqp : ∀ {q}, (s.k.cpu c).proc ≠ some q → q ≠ p := fun hq hc => hq (hc ▸ hp)
  have hon := Intr.on_proc hp
  have hold := h.thread (s.k.on c) (by rw [hon]; exact hne)
  have heq : ∀ {q}, s.k.on c = .proc q → q = p := fun hq => Thread.proc.inj (hq.symm.trans hon)
  refine h.local (c := c) ?_ h.intr ?_ ?_ h.returns h.panic
  · refine ⟨fun _ _ => rfl, rfl, fun _ _ => Stays.refl _, fun _ hq => hq, fun _ hq => hq,
      fun c' hc => Function.update_of_ne hc _ _, fun _ _ => rfl,
      fun q hq => Function.update_of_ne (hqp hq) _ _, fun q => ?_,
      fun q hq hq' => hmem.other h.tables hne hq (hqp hq'),
      fun q hq => Function.update_of_ne (hqp hq) _ _, rfl, rfl, rfl⟩
    by_cases hq : q = p
    · rw [hq, hself]
      exact ⟨fun _ => hne, fun _ => Option.some_ne_none t'⟩
    · show Function.update s.task p (some t') q ≠ none ↔ _
      rw [Function.update_of_ne hq]
  · rw [coreOk_task (s := s.after c p x t' mem w) hh hp hself, hwant, hcore]
    exact hok
  · refine ⟨hold.frames, fun g hg => ?_, fun g gs hg => ?_, fun q u hq hu hcode _ => ?_,
      fun q u _ _ hc => absurd hh hc, fun q u hq hu hsoft => ?_⟩
    · rw [show (s.after c p x t' mem w).handlers (s.k.on c) = [] from hh] at hg
      exact absurd hg List.not_mem_nil
    · exact nomatch hh.symm.trans hg
    · rw [heq hq, hself, Option.some.injEq] at hu
      exact hidle (hu ▸ hcode)
    · rw [heq hq] at hu ⊢
      rw [hself, Option.some.injEq] at hu
      rw [hwant]
      exact ((taskOk_soft (hu ▸ hsoft)).mp hok).2

/-- The thread on `c` is where it was. -/
theorem put_stack_eq (k : Intr.Kernel C P L) (c : C) (x : Intr.Cpu P) :
    (k.put c x (k.cur c)).stack = k.stack := by
  funext t
  show (if t = k.on c then k.cur c else k.stack t) = k.stack t
  split
  next ht => rw [ht]; rfl
  next => rfl

theorem put_eq_self (k : Intr.Kernel C P L) (c : C) : k.put c (k.cpu c) (k.cur c) = k := by
  show ({ k with
    cpu := Function.update k.cpu c (k.cpu c)
    stack := (k.put c (k.cpu c) (k.cur c)).stack } : Intr.Kernel C P L) = k
  rw [Function.update_eq_self, put_stack_eq]

/-- `intr_on()` and `intr_off()`. -/
theorem Inv.setSie (h : Inv e s) (hh : s.handlers (s.k.on c) = [])
    (hp : (s.k.cpu c).proc = some p) (ht : s.task p = some t) (hsoft : t.soft = true) {b : Bool}
    {t' : Stmt} {k' : Intr.Kernel C P L}
    (hk : k' = s.k.put c { s.k.cpu c with sie := b } (s.k.cur c))
    (hi : Intr.Inv k') (hidle : (s.k.cur c).cur = .code .body ∧ (s.k.cur c).depth = 0)
    (hok : Inside e c (s.core c) .kernelvec ∧ ctx (fun off => s.mem (s.tf p off)) = s.want p →
      TaskOk e c p (s.core c) b (s.satp p) (fun off => s.mem (s.tf p off)) (s.want p) t') :
    Inv e { s.goto p t' with k := k' } := by
  have hne : s.task p ≠ none := ht ▸ Option.some_ne_none t
  have hcpu : k'.cpu c = { s.k.cpu c with sie := b } := by
    rw [hk]
    exact Function.update_self _ _ _
  have hother : ∀ c', c' ≠ c → k'.cpu c' = s.k.cpu c' := by
    intro c' hc
    rw [hk]
    exact Function.update_of_ne hc _ _
  have hstack : k'.stack = s.k.stack := by
    rw [hk, put_stack_eq]
  have hwanted : ∀ q, Wanted k' q → Wanted s.k q := by
    intro q hq
    rw [hk] at hq
    exact hq
  have hproc : (k'.cpu c).proc = (s.k.cpu c).proc := by
    rw [hcpu]
  have hqp : ∀ {q}, (s.k.cpu c).proc ≠ some q → q ≠ p := fun hq hc => hq (hc ▸ hp)
  have hon := Intr.on_proc hp
  have hold := h.thread (s.k.on c) (by rw [hon]; exact hne)
  have hsaved := hold.saved p t hon ht hsoft
  have hcore := (taskOk_soft hsoft).mp ((coreOk_task hh hp ht).mp (h.core c))
  have hgo : ({ s.goto p t' with k := k' } : Sys C P L A).task p = some t' :=
    Function.update_self _ _ _
  have heq : ∀ {q}, s.k.on c = .proc q → q = p := fun hq => Thread.proc.inj (hq.symm.trans hon)
  refine h.local (c := c) ⟨hother, hproc, fun t _ => ?_, hwanted, fun q hq => ?_, fun _ _ => rfl,
    fun _ _ => rfl, fun q hq => Function.update_of_ne (hqp hq) _ _, fun q => ?_,
    fun _ _ _ _ _ => rfl, fun _ _ => rfl, rfl, rfl, rfl⟩ hi ?_ ?_ h.returns h.panic
  · show Stays _ (k'.stack t)
    rw [hstack]
    exact Stays.refl _
  · exact hstack ▸ hq
  · by_cases hq : q = p
    · rw [hq, hgo]
      exact ⟨fun _ => hne, fun _ => Option.some_ne_none t'⟩
    · show Function.update s.task p (some t') q ≠ none ↔ _
      rw [Function.update_of_ne hq]
  · refine (coreOk_task (p := p) (t := t') ?_ (hproc.trans hp) hgo).mpr ?_
    · show s.handlers (k'.on c) = []
      rw [on_congr hproc]
      exact hh
    · show TaskOk e c p (s.core c) (k'.cpu c).sie (s.satp p) (fun off => s.mem (s.tf p off))
        (s.want p) t'
      rw [hcpu]
      exact hok hcore
  · refine ⟨?_, fun g hg => ?_, fun g gs hg => ?_, fun q u hq hu hcode _ => ?_,
      fun q u _ _ hc => absurd hh hc, fun q u hq hu _ => ?_⟩
    · show (s.handlers (s.k.on c)).length = (k'.stack (s.k.on c)).below.length
      rw [hstack]
      exact hold.frames
    · have hg : g ∈ s.handlers (s.k.on c) := hg
      rw [hh] at hg
      exact absurd hg List.not_mem_nil
    · exact nomatch hh.symm.trans hg
    · show (k'.stack (s.k.on c)).cur = _ ∧ (k'.stack (s.k.on c)).depth = 0
      rw [hstack]
      exact hidle
    · rw [heq hq]
      exact hsaved

variable [DecidableEq A]

/-- **`uservec`** neither faults nor jumps to anything but `usertrap`. -/
theorem Inv.enter (h : Inv e s) (hh : s.handlers (s.k.on c) = []) (hp : (s.k.cpu c).proc = some p)
    (ht : s.task p = some .uservec) : Inv e (enter e s c p) := by
  have hne : s.task p ≠ none := ht ▸ Option.some_ne_none _
  have hidle := (h.thread (s.k.on c) (by rw [Intr.on_proc hp]; exact hne)).task p .uservec
    (Intr.on_proc hp) ht rfl hh
  obtain ⟨hout, huser, hsie, hready, hw, hspp⟩ := (coreOk_task hh hp ht).mp (h.core c)
  have hutable := h.tables.user p hne
  rw [← hout.satp] at hutable
  have hsatp : s.mem (s.tf p kernel_satp) = e.kernel_pagetable := hready 0 (by decide)
  have htrap : s.mem (s.tf p kernel_trap) = e.usertrap := hready 2 (by decide)
  have htp : s.mem (s.tf p kernel_hartid) = e.hartid c := hready 3 (by decide)
  have hkernel : s.look (s.mem (s.tf p kernel_satp)) .fetch TRAMPOLINE = some e.home :=
    hsatp.symm ▸ h.tables.kernel
  obtain ⟨h', mem', hrun, hin⟩ := uservec_spec hutable (h.tables.words p hne) hkernel hout.stale
  unfold Trap.enter
  rw [hrun]
  show Inv e (if h'.reg .t0 = e.usertrap then _ else _)
  rw [if_pos (hin.t0.trans htrap)]
  rw [setCore_after]
  refine h.stmt hh hp ht _ _ (fun a ha => hin.kept a fun r => ha _ (slot_bounds r).2)
    (fun _ => hidle) ⟨⟨huser, hout.stvec, hin.satp.trans hsatp, hin.fresh, hin.tp.trans htp⟩, hsie,
      ?_, hspp⟩
  rw [← hw]
  show (⟨(s.core c).sepc, fun r => mem' (s.tf p (slot r))⟩ : Ctx) = _
  congr 1
  exact funext hin.regs

/-- **`userret`** goes to user mode, and the program finds its registers. -/
theorem Inv.leave (h : Inv e s) (hh : s.handlers (s.k.on c) = []) (hp : (s.k.cpu c).proc = some p)
    (ht : s.task p = some .userret) : Inv e (leave e s c p) := by
  have hne : s.task p ≠ none := ht ▸ Option.some_ne_none _
  have hidle := (h.thread (s.k.on c) (by rw [Intr.on_proc hp]; exact hne)).task p .userret
    (Intr.on_proc hp) ht rfl hh
  obtain ⟨hin, hsie, hctx, hready, hspp, hspie, hsepc⟩ := (coreOk_task hh hp ht).mp (h.core c)
  have hutable := h.tables.user p hne
  have ha0 : ((s.core c).hart.set .a0 (s.satp p)).reg .a0 = s.satp p := by
    show Function.update (s.core c).hart.reg .a0 (s.satp p) .a0 = _
    rw [Function.update_self]
  obtain ⟨h', hrun, hleft⟩ := userret_spec (h := (s.core c).hart.set .a0 (s.satp p)) s.mem
    (by rw [ha0]; exact hutable)
    (by rw [Hart.set_csr, hin.satp]; exact h.tables.kernel) hin.stale
  rw [ha0] at hleft
  unfold Trap.leave
  dsimp only
  rw [hrun]
  show Inv e (if (s.core c).spp = true then _ else _)
  rw [if_neg (by rw [hspp]; exact Bool.false_ne_true)]
  rw [setCore_after]
  refine h.stmt hh hp ht _ _ (OnlyPage.refl s p) (fun _ => hidle)
    ⟨⟨hin.stvec, hleft.satp, hleft.fresh⟩, rfl, hsie, hready, ?_⟩
  show (⟨(s.core c).sepc, h'.reg⟩ : Ctx) = _
  rw [hsepc, ← hctx]
  show (⟨_, h'.reg⟩ : Ctx) = ⟨_, fun r => s.mem (s.tf p (slot r))⟩
  congr 1
  exact funext hleft.regs

/-- A word that `prepare_return` fills in. -/
theorem Inv.fill (h : Inv e s) (hh : s.handlers (s.k.on c) = []) (hp : (s.k.cpu c).proc = some p)
    (ht : s.task p = some t) (i : Fin 4) (t' : Stmt)
    (hidle : (s.k.cur c).cur = .code .body ∧ (s.k.cur c).depth = 0)
    (hctx : ctx (fun off => s.mem (s.tf p off)) = s.want p)
    (hready : Ready e c p (fun off => s.mem (s.tf p off)) i)
    (hnext : ∀ tf, ctx tf = s.want p → Ready e c p tf (i + 1) →
      TaskOk e c p (s.core c) (s.k.cpu c).sie (s.satp p) tf (s.want p) t') :
    Inv e ((s.poke p (place i) (needed e c p i)).goto p t') := by
  have hne : s.task p ≠ none := ht ▸ Option.some_ne_none t
  have hlt : place i < 4096 := BitVec.lt_trans (place_lt i).1 (by decide)
  rw [poke_after s c]
  refine h.stmt hh hp ht _ t' (OnlyPage.update hlt) (fun _ => hidle) ?_
  refine TaskOk.congr (hnext _ ?_ (Ready.next i hready)) (update_page (h.tables.words p hne) hlt)
  rw [ctx_update (place_lt i).1 (place_lt i).2]
  exact hctx

variable [DecidableEq L]

theorem call_eq {k : Intr.Kernel C P L} (hbody : (k.cur c).cur = .code .body)
    (f : Intr.Call P L) : Intr.step k (.call c f) = k.call c f := if_pos hbody

/-- **A statement of `usertrap` or `prepare_return`.** -/
theorem Inv.goTask (h : Inv e s) (hh : s.handlers (s.k.on c) = [])
    (hp : (s.k.cpu c).proc = some p) (ht : s.task p = some t) (hs : goTask e s c p t = some s') :
    Inv e s' := by
  have hne : s.task p ≠ none := ht ▸ Option.some_ne_none t
  have hidle : t.isCode = false → (s.k.cur c).cur = .code .body ∧ (s.k.cur c).depth = 0 :=
    fun hcode => (h.thread (s.k.on c) (by rw [Intr.on_proc hp]; exact hne)).task p t
      (Intr.on_proc hp) ht hcode hh
  have hbelow : (s.k.cur c).below = [] := by
    have hlen := (h.thread (s.k.on c) (by rw [Intr.on_proc hp]; exact hne)).frames
    rw [hh] at hlen
    exact List.eq_nil_of_length_eq_zero hlen.symm
  have hok := (coreOk_task hh hp ht).mp (h.core c)
  have hepc : epc < 4096 := by decide
  cases t with
  | user => exact nomatch hs
  | code k => exact nomatch hs
  | uservec =>
    rw [← Option.some.inj hs]
    exact h.enter hh hp ht
  | fromUser =>
    obtain ⟨hin, hsie, hw, hspp⟩ := hok
    rw [← Option.some.inj hs, if_neg (by rw [hspp]; exact Bool.false_ne_true), goto_after s c]
    exact h.stmt hh hp ht _ _ (OnlyPage.refl s p) (fun _ => hidle rfl) ⟨hin, hsie, hw⟩
  | toKernelvec =>
    obtain ⟨hin, hsie, hw⟩ := hok
    rw [← Option.some.inj hs, setCore_after]
    exact h.stmt hh hp ht _ _ (OnlyPage.refl s p) (fun _ => hidle rfl)
      ⟨⟨hin.user, rfl, hin.satp, hin.stale, hin.tp⟩, hsie, hw⟩
  | saveEpc =>
    obtain ⟨hin, hsie, hw⟩ := hok
    rw [← Option.some.inj hs, poke_after s c]
    refine h.stmt hh hp ht _ .cause (OnlyPage.update hepc) (fun _ => hidle rfl) ?_
    refine TaskOk.congr (t := .cause) ⟨hin, hsie, ?_⟩ (update_page (h.tables.words p hne) hepc)
    rw [ctx_epc]
    exact hw
  | cause =>
    obtain ⟨hin, -, hw⟩ := hok
    rw [← Option.some.inj hs, goto_after s c]
    exact h.stmt hh hp ht _ _ (OnlyPage.refl s p) (fun hc => nomatch hc) ⟨hin, hw⟩
  | skip =>
    obtain ⟨hin, hw⟩ := hok
    have hafter : Inv e (s.after c p (s.core c) .intrOn
        (Function.update s.mem (s.tf p epc) (s.mem (s.tf p epc) + 4))
        { s.want p with pc := (s.want p).pc + 4 }) := by
      refine h.stmt hh hp ht _ .intrOn (OnlyPage.update hepc) (fun _ => hidle rfl) ?_
      refine TaskOk.congr (t := .intrOn) ⟨hin, ?_⟩ (update_page (h.tables.words p hne) hepc)
      rw [ctx_epc, ← hw]
      rfl
    rw [← Option.some.inj hs]
    unfold Sys.after at hafter
    rw [Function.update_eq_self] at hafter
    exact hafter
  | intrOn =>
    obtain ⟨k', hk', rfl⟩ := Option.map_eq_some_iff.mp hs
    have hi := h.intr.step (a := .call c .intrOn) ⟨(hidle rfl).2, hbelow⟩ hk'
    rw [call_eq (hidle rfl).1] at hk'
    exact h.setSie hh hp ht rfl (Option.some.inj hk').symm hi (hidle rfl) id
  | intrOff =>
    obtain ⟨k', hk', rfl⟩ := Option.map_eq_some_iff.mp hs
    have hi := h.intr.step (a := .call c .intrOff) ⟨(hidle rfl).2, hbelow⟩ hk'
    rw [call_eq (hidle rfl).1] at hk'
    exact h.setSie hh hp ht rfl (Option.some.inj hk').symm hi (hidle rfl)
      fun hok => ⟨hok.1, rfl, hok.2⟩
  | toUservec =>
    obtain ⟨hin, hsie, hw⟩ := hok
    rw [← Option.some.inj hs, setCore_after]
    exact h.stmt hh hp ht _ _ (OnlyPage.refl s p) (fun _ => hidle rfl)
      ⟨⟨hin.user, rfl, hin.satp, hin.stale, hin.tp⟩, hsie, hw⟩
  | kernelSatp =>
    obtain ⟨hin, hsie, hw⟩ := hok
    rw [← Option.some.inj hs, hin.satp]
    exact h.fill hh hp ht 0 _ (hidle rfl) hw (fun i hi => absurd hi (Nat.not_lt_zero _))
      fun tf hc hr => ⟨hin, hsie, hc, hr⟩
  | kernelSp =>
    obtain ⟨hin, hsie, hw, hready⟩ := hok
    rw [← Option.some.inj hs]
    exact h.fill hh hp ht 1 _ (hidle rfl) hw hready
      fun tf hc hr => ⟨hin, hsie, hc, hr⟩
  | kernelTrap =>
    obtain ⟨hin, hsie, hw, hready⟩ := hok
    rw [← Option.some.inj hs]
    exact h.fill hh hp ht 2 _ (hidle rfl) hw hready
      fun tf hc hr => ⟨hin, hsie, hc, hr⟩
  | kernelHartid =>
    obtain ⟨hin, hsie, hw, hready⟩ := hok
    rw [← Option.some.inj hs, hin.tp]
    exact h.fill hh hp ht 3 _ (hidle rfl) hw hready
      fun tf hc hr => ⟨hin, hsie, hc, hr⟩
  | sstatus =>
    obtain ⟨hin, hsie, hw, hready⟩ := hok
    rw [← Option.some.inj hs, setCore_after]
    exact h.stmt hh hp ht _ _ (OnlyPage.refl s p) (fun _ => hidle rfl)
      ⟨⟨hin.user, hin.stvec, hin.satp, hin.stale, hin.tp⟩, hsie, hw, hready, rfl, rfl⟩
  | sepc =>
    obtain ⟨hin, hsie, hw, hready, hspp, hspie⟩ := hok
    rw [← Option.some.inj hs, setCore_after]
    exact h.stmt hh hp ht _ _ (OnlyPage.refl s p) (fun _ => hidle rfl)
      ⟨⟨hin.user, hin.stvec, hin.satp, hin.stale, hin.tp⟩, hsie, hw, hready, hspp, hspie,
        congrArg Ctx.pc hw⟩
  | userret =>
    rw [← Option.some.inj hs]
    exact h.leave hh hp ht

end Statements

end Xv6.Trap
