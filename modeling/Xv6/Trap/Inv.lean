import Xv6.Trap.Threads
import Mathlib.Data.Fin.VecNotation

/-!
# What holds between two statements

Where a thread is in the trap code says which page table its hart is on, where `stvec`
points, how much of the trapframe is filled, and where the registers of the program are
(`TaskOk`). Interrupts are on only where all of that is in memory (`Stmt.soft`): there a
handler finds nothing it could spoil, and a thread that yields in it can go on on another
hart.
-/

namespace Xv6.Trap

open Lib Lib.Isa
open Intr (Thread)

/-- A statement before which an interrupt may come. -/
def Stmt.soft : Stmt → Bool
  | .code _ | .skip | .intrOn | .intrOff => true
  | _ => false

def Stmt.isCode : Stmt → Bool
  | .code _ => true
  | _ => false

section Local

variable {C P A : Type*}

/-- On the user's page table. -/
structure Outside (x : Core) (satp : Word) : Prop where
  stvec : x.stvec = .uservec
  satp : x.hart.csr .satp = satp
  stale : x.hart.stale = []

/-- On the kernel's page table, with the number of the hart in `tp`. -/
structure Inside (e : Env C P A) (c : C) (x : Core) (v : Vec) : Prop where
  user : x.user = false
  stvec : x.stvec = v
  satp : x.hart.csr .satp = e.kernel_pagetable
  stale : x.hart.stale = []
  tp : x.hart.reg .tp = e.hartid c

/-- The words of the trapframe that `uservec` needs, in the order of `prepare_return`. -/
def place : Fin 4 → Word := ![kernel_satp, kernel_sp, kernel_trap, kernel_hartid]

/-- What they have to be. -/
def needed (e : Env C P A) (c : C) (p : P) : Fin 4 → Word :=
  ![e.kernel_pagetable, e.kstack p + 4096, e.usertrap, e.hartid c]

/-- The first `n` of them are in the trapframe. -/
def Ready (e : Env C P A) (c : C) (p : P) (tf : Word → Word) (n : Nat) : Prop :=
  ∀ i : Fin 4, i.val < n → tf (place i) = needed e c p i

/-- The program's registers in a trapframe. -/
def ctx (tf : Word → Word) : Ctx := ⟨tf epc, fun r => tf (slot r)⟩

/-- What holds of a hart before a statement of the process `p`, which has the trapframe
`tf`, and whose program is to find `w`. -/
def TaskOk (e : Env C P A) (c : C) (p : P) (x : Core) (sie : Bool) (satp : Word)
    (tf : Word → Word) (w : Ctx) : Stmt → Prop
  | .user => Outside x satp ∧ x.user = true ∧ sie = false ∧ Ready e c p tf 4 ∧
      ⟨x.pc, x.hart.reg⟩ = w
  | .uservec => Outside x satp ∧ x.user = false ∧ sie = false ∧ Ready e c p tf 4 ∧
      ⟨x.sepc, x.hart.reg⟩ = w ∧ x.spp = false
  | .fromUser => Inside e c x .uservec ∧ sie = false ∧ ⟨x.sepc, (ctx tf).reg⟩ = w ∧ x.spp = false
  | .toKernelvec => Inside e c x .uservec ∧ sie = false ∧ ⟨x.sepc, (ctx tf).reg⟩ = w
  | .saveEpc => Inside e c x .kernelvec ∧ sie = false ∧ ⟨x.sepc, (ctx tf).reg⟩ = w
  | .cause | .toUservec => Inside e c x .kernelvec ∧ sie = false ∧ ctx tf = w
  | .code _ | .skip | .intrOn | .intrOff => Inside e c x .kernelvec ∧ ctx tf = w
  | .kernelSatp => Inside e c x .uservec ∧ sie = false ∧ ctx tf = w
  | .kernelSp => Inside e c x .uservec ∧ sie = false ∧ ctx tf = w ∧ Ready e c p tf 1
  | .kernelTrap => Inside e c x .uservec ∧ sie = false ∧ ctx tf = w ∧ Ready e c p tf 2
  | .kernelHartid => Inside e c x .uservec ∧ sie = false ∧ ctx tf = w ∧ Ready e c p tf 3
  | .sstatus => Inside e c x .uservec ∧ sie = false ∧ ctx tf = w ∧ Ready e c p tf 4
  | .sepc => Inside e c x .uservec ∧ sie = false ∧ ctx tf = w ∧ Ready e c p tf 4 ∧
      x.spp = false ∧ x.spie = true
  | .userret => Inside e c x .uservec ∧ sie = false ∧ ctx tf = w ∧ Ready e c p tf 4 ∧
      x.spp = false ∧ x.spie = true ∧ x.sepc = w.pc

/-- An interrupt, as the hardware has left it. -/
def Taken (x : Core) : Prop := x.scause = .external ∨ x.scause = .timer

/-- The local variables of a handler, once it has them. -/
def Handler.Read (h : Handler) : Prop :=
  h.sepc = h.came ∧ h.spp = true ∧ h.spie = true ∧ h.sie = false

/-- What holds before a statement of a handler. -/
def HandlerOk (h : Handler) (x : Core) : Prop :=
  match h.next with
  | .usertrap => False
  | .locals => x.sepc = h.came ∧ x.spp = true ∧ x.spie = true ∧ Taken x
  | .fromKernel | .intrGet | .devintr => Taken x
  | .code | .wSepc => True
  | .wSstatus => x.sepc = h.came
  | .sret => x.sepc = h.came ∧ x.spp = true ∧ x.spie = true

variable {e : Env C P A} {c : C} {p : P} {x : Core} {sie : Bool} {satp : Word}
  {tf tf' : Word → Word} {w : Ctx} {t : Stmt} {n : Nat}

theorem ctx_congr (h : ∀ off < 4096, tf' off = tf off) : ctx tf' = ctx tf := by
  unfold ctx
  rw [h epc (by decide)]
  congr 1
  funext r
  exact h _ (slot_bounds r).2

theorem place_lt (i : Fin 4) : place i < 40 ∧ place i ≠ epc := by
  revert i
  decide

theorem place_inj : ∀ i j : Fin 4, place i = place j → i = j := by decide

theorem Ready.congr (h : Ready e c p tf n) (htf : ∀ off < 4096, tf' off = tf off) :
    Ready e c p tf' n := fun i hi =>
  (htf _ (BitVec.lt_trans (place_lt i).1 (by decide))).trans (h i hi)

/-- Only the words of the page count. -/
theorem TaskOk.congr (h : TaskOk e c p x sie satp tf w t) (htf : ∀ off < 4096, tf' off = tf off) :
    TaskOk e c p x sie satp tf' w t := by
  have hctx := ctx_congr htf
  cases t <;> simp only [TaskOk, hctx] at h ⊢
  case user => exact ⟨h.1, h.2.1, h.2.2.1, h.2.2.2.1.congr htf, h.2.2.2.2⟩
  case uservec => exact ⟨h.1, h.2.1, h.2.2.1, h.2.2.2.1.congr htf, h.2.2.2.2⟩
  case kernelSp => exact ⟨h.1, h.2.1, h.2.2.1, h.2.2.2.congr htf⟩
  case kernelTrap => exact ⟨h.1, h.2.1, h.2.2.1, h.2.2.2.congr htf⟩
  case kernelHartid => exact ⟨h.1, h.2.1, h.2.2.1, h.2.2.2.congr htf⟩
  case sstatus => exact ⟨h.1, h.2.1, h.2.2.1, h.2.2.2.congr htf⟩
  case sepc => exact ⟨h.1, h.2.1, h.2.2.1, h.2.2.2.1.congr htf, h.2.2.2.2⟩
  case userret => exact ⟨h.1, h.2.1, h.2.2.1, h.2.2.2.1.congr htf, h.2.2.2.2⟩
  all_goals exact h

/-- Where interrupts may come, nothing depends on the hart but that it is in the kernel. -/
theorem taskOk_soft (ht : t.soft = true) :
    TaskOk e c p x sie satp tf w t ↔ Inside e c x .kernelvec ∧ ctx tf = w := by
  cases t <;> first | exact Iff.rfl | exact nomatch ht

end Local

section Global

variable {C P L A : Type*}

/-- What holds of the hart `c`. -/
def CoreOk (e : Env C P A) (s : Sys C P L A) (c : C) : Prop :=
  match s.handlers (s.k.on c), (s.k.cpu c).proc with
  | h :: _, _ => Inside e c (s.core c) .kernelvec ∧ HandlerOk h (s.core c)
  | [], none => Inside e c (s.core c) .kernelvec
  | [], some p => ∀ t, s.task p = some t →
      TaskOk e c p (s.core c) (s.k.cpu c).sie (s.satp p) (fun off => s.mem (s.tf p off))
        (s.want p) t

/-- A thread that may run. -/
def Live (s : Sys C P L A) : Thread C P → Prop
  | .proc p => s.task p ≠ none
  | .sched _ => True

/-- What holds of a thread, wherever it is: `Intr` has a frame for every handler, and a
thread that is before a statement of the trap code is in no function there. -/
structure ThreadOk (s : Sys C P L A) (t : Thread C P) : Prop where
  frames : (s.handlers t).length = (s.k.stack t).below.length
  read : ∀ h ∈ s.handlers t, h.next ≠ .locals → h.next ≠ .usertrap → h.Read
  top : ∀ h hs, s.handlers t = h :: hs → h.next ≠ .code →
    (s.k.stack t).cur = .code .body ∧ (s.k.stack t).depth = 0
  task : ∀ p u, t = .proc p → s.task p = some u → u.isCode = false → s.handlers t = [] →
    (s.k.stack t).cur = .code .body ∧ (s.k.stack t).depth = 0
  base : ∀ p u, t = .proc p → s.task p = some u → s.handlers t ≠ [] →
    u.soft = true ∧ (u.isCode = false → (s.k.stack t).below = [.code .body])
  saved : ∀ p u, t = .proc p → s.task p = some u → u.soft = true →
    ctx (fun off => s.mem (s.tf p off)) = s.want p

/-- A thread that has left its hart is in C code. -/
def Away (s : Sys C P L A) (p : P) : Prop :=
  match s.handlers (.proc p) with
  | h :: _ => h.next = .code
  | [] => ∀ u, s.task p = some u → u.soft = true

/-- The invariant. -/
structure Inv (e : Env C P A) (s : Sys C P L A) : Prop where
  intr : Intr.Inv s.k
  tables : Tables e s
  core : ∀ c, CoreOk e s c
  thread : ∀ t, Live s t → ThreadOk s t
  away : ∀ p, s.task p ≠ none → (∀ c, (s.k.cpu c).proc ≠ some p) → Away s p
  runs : ∀ c p, (s.k.cpu c).proc = some p → s.task p ≠ none
  next : ∀ c p, (s.k.cpu c).proc = none → (s.k.cur c).cur = .code (.swtch p) → s.task p ≠ none
  wanted : ∀ p, Wanted s.k p → s.task p ≠ none
  returns : ∀ r ∈ s.returns, r.1 = r.2
  panic : s.panic = none

/-- Only the hart `c`, the thread on it and the trapframe of its process have changed. -/
structure Local (s s' : Sys C P L A) (c : C) : Prop where
  cpu : ∀ c', c' ≠ c → s'.k.cpu c' = s.k.cpu c'
  proc : (s'.k.cpu c).proc = (s.k.cpu c).proc
  stack : ∀ t, t ≠ s.k.on c → Stays (s.k.stack t) (s'.k.stack t)
  wanted : ∀ q, Wanted s'.k q → Wanted s.k q
  swtch : ∀ q, (s'.k.stack (s.k.on c)).cur = .code (.swtch q) →
    (s.k.stack (s.k.on c)).cur = .code (.swtch q)
  core : ∀ c', c' ≠ c → s'.core c' = s.core c'
  handlers : ∀ t, t ≠ s.k.on c → s'.handlers t = s.handlers t
  task : ∀ q, (s.k.cpu c).proc ≠ some q → s'.task q = s.task q
  live : ∀ q, s'.task q ≠ none ↔ s.task q ≠ none
  mem : ∀ q, s.task q ≠ none → (s.k.cpu c).proc ≠ some q →
    ∀ off < 4096, s'.mem (s.tf q off) = s.mem (s.tf q off)
  want : ∀ q, (s.k.cpu c).proc ≠ some q → s'.want q = s.want q
  look : s'.look = s.look
  satp : s'.satp = s.satp
  tf : s'.tf = s.tf

variable {e : Env C P A} {s s' : Sys C P L A} {c : C}

theorem Tables.congr (h : Tables e s) (hlook : s'.look = s.look) (hsatp : s'.satp = s.satp)
    (htf : s'.tf = s.tf) (hlive : ∀ q, s'.task q ≠ none → s.task q ≠ none) : Tables e s' where
  kernel := by
    rw [hlook]
    exact h.kernel
  user p hp := by
    rw [hlook, htf, hsatp]
    exact h.user p (hlive p hp)
  words p hp := by
    rw [htf]
    exact h.words p (hlive p hp)
  apart p q hp hq := by
    rw [htf]
    exact h.apart p q (hlive p hp) (hlive q hq)

theorem coreOk_handler {h : Handler} {hs : List Handler} (hh : s.handlers (s.k.on c) = h :: hs) :
    CoreOk e s c ↔ Inside e c (s.core c) .kernelvec ∧ HandlerOk h (s.core c) := by
  unfold CoreOk
  rw [hh]

theorem coreOk_task {p : P} {t : Stmt} (hh : s.handlers (s.k.on c) = [])
    (hp : (s.k.cpu c).proc = some p) (ht : s.task p = some t) :
    CoreOk e s c ↔ TaskOk e c p (s.core c) (s.k.cpu c).sie (s.satp p)
      (fun off => s.mem (s.tf p off)) (s.want p) t := by
  unfold CoreOk
  rw [hh, hp]
  refine ⟨fun hok => hok t ht, fun hok t' ht' => ?_⟩
  rw [← Option.some.inj (ht.symm.trans ht')]
  exact hok

theorem coreOk_sched (hh : s.handlers (s.k.on c) = []) (hp : (s.k.cpu c).proc = none) :
    CoreOk e s c ↔ Inside e c (s.core c) .kernelvec := by
  unfold CoreOk
  rw [hh, hp]

theorem away_idle {p : P} (hh : s.handlers (.proc p) = []) :
    Away s p ↔ ∀ u, s.task p = some u → u.soft = true := by
  unfold Away
  rw [hh]

/-- A thread that is where it was, with the same handlers. -/
theorem ThreadOk.stays {t : Thread C P} (h : ThreadOk s t)
    (hst : Stays (s.k.stack t) (s'.k.stack t))
    (hh : s'.handlers t = s.handlers t) (htask : ∀ p, t = .proc p → s'.task p = s.task p)
    (hctx : ∀ p, t = .proc p → ∀ u, s.task p = some u →
      ctx (fun off => s'.mem (s'.tf p off)) = ctx (fun off => s.mem (s.tf p off)) ∧
        s'.want p = s.want p) : ThreadOk s' t where
  frames := by
    rw [hh, hst.below]
    exact h.frames
  read := by
    rw [hh]
    exact h.read
  top h' hs hh' hne := by
    rw [hst.cur, hst.depth]
    exact h.top h' hs (hh ▸ hh') hne
  task p u hp hu hne hnil := by
    rw [hst.cur, hst.depth]
    exact h.task p u hp (htask p hp ▸ hu) hne (hh ▸ hnil)
  base p u hp hu hne := by
    rw [hst.below]
    exact h.base p u hp (htask p hp ▸ hu) (hh ▸ hne)
  saved p u hp hu hsoft := by
    obtain ⟨hc, hw⟩ := hctx p hp u (htask p hp ▸ hu)
    rw [hc, hw]
    exact h.saved p u hp (htask p hp ▸ hu) hsoft

/-- **Frame**: a step of one hart and the thread on it. -/
theorem Inv.local (h : Inv e s) (hl : Local s s' c) (hi : Intr.Inv s'.k) (hcore : CoreOk e s' c)
    (hthread : ThreadOk s' (s.k.on c)) (hret : ∀ r ∈ s'.returns, r.1 = r.2)
    (hpanic : s'.panic = none) : Inv e s' := by
  have hproc : ∀ c', (s'.k.cpu c').proc = (s.k.cpu c').proc := by
    intro c'
    by_cases hc : c' = c
    · rw [hc]
      exact hl.proc
    · rw [hl.cpu c' hc]
  have hon : ∀ c', s'.k.on c' = s.k.on c' := fun c' => on_congr (hproc c')
  have hother : ∀ c' p, c' ≠ c → (s.k.cpu c').proc = some p → (s.k.cpu c).proc ≠ some p :=
    fun c' p hne hp hp' => hne (h.intr.one c' c p hp hp')
  have hctx : ∀ p, s.task p ≠ none → (s.k.cpu c).proc ≠ some p →
      ctx (fun off => s'.mem (s'.tf p off)) = ctx (fun off => s.mem (s.tf p off)) := by
    intro p hp hne
    rw [hl.tf]
    exact ctx_congr (hl.mem p hp hne)
  refine ⟨hi, h.tables.congr hl.look hl.satp hl.tf fun q => (hl.live q).mp, fun c' => ?_,
    fun t ht => ?_, fun p hp hno => ?_, fun c' p hp => ?_, fun c' p hp hc => ?_, fun p hp => ?_,
    hret, hpanic⟩
  · by_cases hc : c' = c
    · rw [hc]
      exact hcore
    · have hold := h.core c'
      have hne : s.k.on c' ≠ s.k.on c := fun heq => hc (h.intr.on_inj heq)
      unfold CoreOk at hold ⊢
      rw [hon, hl.handlers _ hne, hl.cpu c' hc, hl.core c' hc]
      split
      next hh =>
        rw [hh] at hold
        exact hold
      next hh hp =>
        rw [hh, hp] at hold
        exact hold
      next p hh hp =>
        rw [hh, hp] at hold
        intro t ht
        have hne' := hother c' p hc hp
        have htask := hl.task p hne'
        rw [hl.satp, hl.want p hne', hl.tf]
        refine (hold t (htask ▸ ht)).congr (hl.mem p (fun hn => ?_) hne')
        rw [htask, hn] at ht
        exact nomatch ht
  · by_cases hc : t = s.k.on c
    · rw [hc]
      exact hthread
    · have hne : ∀ p, t = .proc p → (s.k.cpu c).proc ≠ some p := fun p hp hp' =>
        hc (hp.trans (Intr.on_proc hp').symm)
      refine (h.thread t ?_).stays (hl.stack t hc) (hl.handlers t hc)
        (fun p hp => hl.task p (hne p hp)) fun p hp u hu => ?_
      · cases t with
        | proc p => exact (hl.live p).mp ht
        | sched c' => exact trivial
      · refine ⟨hctx p (fun hn => ?_) (hne p hp), hl.want p (hne p hp)⟩
        rw [hn] at hu
        exact nomatch hu
  · have hno' : ∀ c', (s.k.cpu c').proc ≠ some p := fun c' => hproc c' ▸ hno c'
    have hold := h.away p ((hl.live p).mp hp) hno'
    have hne : Thread.proc p ≠ s.k.on c := fun heq => hno' c (proc_of_on heq.symm)
    unfold Away at hold ⊢
    rw [hl.handlers _ hne, hl.task p (hno' c)]
    exact hold
  · exact (hl.live p).mpr (h.runs c' p (hproc c' ▸ hp))
  · have hp' : (s.k.cpu c').proc = none := hproc c' ▸ hp
    refine (hl.live p).mpr (h.next c' p hp' ?_)
    unfold Intr.Kernel.cur at hc ⊢
    rw [hon] at hc
    by_cases heq : c' = c
    · subst heq
      exact hl.swtch p hc
    · rw [(hl.stack _ fun hx => heq (h.intr.on_inj hx)).cur] at hc
      exact hc
  · exact (hl.live p).mpr (h.wanted p (hl.wanted p hp))

end Global

end Xv6.Trap
