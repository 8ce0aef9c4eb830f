import Xv6.Trap.Code

/-!
# Through the trampoline

`uservec` and `userret` change the page table that they are fetched through. They run on
because the page `TRAMPOLINE` is the same in the user's table and in the kernel's,
whatever the hart still remembers of the other one.

> `uservec` puts all 31 registers of the user into the trapframe and starts on the
> kernel's own (`uservec_spec`); `userret` takes all 31 back (`userret_spec`).
-/

namespace Xv6.Trap

open Lib.Isa

variable {A : Type*} [DecidableEq A]

/-- What tables say, and that `satp` names one of them. -/
abbrev mmu (look : Word → Access → Word → Option A) : Mmu Csr Word A := ⟨.satp, look⟩

/-- The code of the trampoline. -/
abbrev trampoline (home : A) : Page Word A := ⟨TRAMPOLINE, home⟩

/-- A user's table has the trampoline's code, and the trapframe `tf` under it. -/
structure UserTable (look : Word → Access → Word → Option A) (home : A) (tf : Word → A)
    (satp : Word) : Prop where
  code : look satp .fetch TRAMPOLINE = some home
  load : ∀ off < 4096, look satp .load (TRAPFRAME + off) = some (tf off)
  store : ∀ off < 4096, look satp .store (TRAPFRAME + off) = some (tf off)

/-- The words of a page are different ones. -/
def Distinct (tf : Word → A) : Prop := ∀ o < 4096, ∀ o' < 4096, tf o = tf o' → o = o'

/-- What `uservec` leaves. -/
structure Entered (tf : Word → A) (h : Hart Reg Csr Word) (mem : A → Word)
    (h' : Hart Reg Csr Word) (mem' : A → Word) : Prop where
  regs : ∀ r, mem' (tf (slot r)) = h.reg r
  /-- Everything else is as it was. -/
  kept : ∀ a, (∀ r, a ≠ tf (slot r)) → mem' a = mem a
  sp : h'.reg .sp = mem (tf kernel_sp)
  tp : h'.reg .tp = mem (tf kernel_hartid)
  t0 : h'.reg .t0 = mem (tf kernel_trap)
  satp : h'.csr .satp = mem (tf kernel_satp)
  fresh : h'.stale = []

section Frame

variable {A : Type*} {tf : Word → A}

/-- The words of the kernel are not those of a register. -/
theorem Distinct.slot (hd : Distinct tf) {off : Word} (hoff : off < 40) (r : Reg) :
    tf off ≠ tf (slot r) := by
  intro hc
  obtain ⟨hlo, hhi⟩ := slot_bounds r
  have heq := hd off (by bv_omega) (Trap.slot r) hhi hc
  bv_omega

theorem Distinct.slot_inj (hd : Distinct tf) {r r' : Reg}
    (h : tf (Trap.slot r) = tf (Trap.slot r')) : r = r' :=
  Trap.slot_inj (hd _ (slot_bounds r).2 _ (slot_bounds r').2 h)

theorem Distinct.frame (hd : Distinct tf) : (frame.map fun s => tf s.2).Nodup := by
  have hfr : Trap.frame.Nodup := List.Nodup.of_map _ frame_nodup
  refine hfr.map_on fun s hs s' hs' heq => ?_
  obtain ⟨-, hs₂⟩ := frame_ne hs
  obtain ⟨-, hs₂'⟩ := frame_ne hs'
  rw [hs₂, hs₂'] at heq
  have hr := hd.slot_inj heq
  exact Prod.ext hr (by rw [hs₂, hs₂', hr])

end Frame

section Rules

variable {look : Word → Access → Word → Option A} {home : A} {tf : Word → A} {satp : Word}
  {h : Hart Reg Csr Word} {mem : A → Word}

/-- The code is there, with nothing else in the way. -/
theorem fetch_fresh (hcode : look satp .fetch TRAMPOLINE = some home) (hsatp : h.csr .satp = satp)
    (hstale : h.stale = []) : (mmu look).find h .fetch (trampoline home).page =
      some (trampoline home).home :=
  (Mmu.find_fresh hstale _ _).trans (hsatp ▸ hcode)

theorem UserTable.find_load (hu : UserTable look home tf satp) (hsatp : h.csr .satp = satp)
    (hstale : h.stale = []) {off : Word} (hoff : off < 4096) :
    (mmu look).find h .load (TRAPFRAME + off) = some (tf off) :=
  (Mmu.find_fresh hstale _ _).trans (hsatp ▸ hu.load off hoff)

theorem UserTable.find_store (hu : UserTable look home tf satp) (hsatp : h.csr .satp = satp)
    (hstale : h.stale = []) {off : Word} (hoff : off < 4096) :
    (mmu look).find h .store (TRAPFRAME + off) = some (tf off) :=
  (Mmu.find_fresh hstale _ _).trans (hsatp ▸ hu.store off hoff)

/-- The first half of `uservec`: all registers are in the trapframe. -/
theorem uservec_saves (hu : UserTable look home tf (h.csr .satp)) (hd : Distinct tf)
    (hstale : h.stale = []) (mem : A → Word) (rest : Code) : ∃ h' mem',
      run (mmu look) (trampoline home) ([.csrw .sscratch .a0, .li .a0 TRAPFRAME] ++
        (frame.map (fun s => .sd s.1 s.2 .a0) ++ .csrr .t0 .sscratch :: .sd .t0 (slot .a0) .a0 ::
          rest)) (h, mem) = run (mmu look) (trampoline home) rest (h', mem') ∧
      h'.csr .satp = h.csr .satp ∧ h'.stale = [] ∧ h'.reg .a0 = TRAPFRAME ∧
      (∀ r, mem' (tf (slot r)) = h.reg r) ∧ ∀ a, (∀ r, a ≠ tf (slot r)) → mem' a = mem a := by
  have hfetch : ∀ h' : Hart Reg Csr Word, h'.csr .satp = h.csr .satp → h'.stale = [] →
      (mmu look).find h' .fetch (trampoline home).page = some (trampoline home).home :=
    fun h' hc hs => fetch_fresh hu.code hc hs
  -- `a0` is in `sscratch` from here on
  let h₁ : Hart Reg Csr Word := { h with csr := Function.update h.csr .sscratch (h.reg .a0) }
  let h₂ := h₁.set .a0 TRAPFRAME
  have hsaves : run (mmu look) (trampoline home) (frame.map fun s => .sd s.1 s.2 .a0) (h₂, mem) =
      some (h₂, stored tf h₂.reg frame mem) := by
    refine run_saves (hfetch h₂ rfl hstale) fun s hs => ?_
    rw [(frame_ne hs).2]
    exact hu.find_store rfl hstale (slot_bounds s.1).2
  let h₃ := h₂.set .t0 (h.reg .a0)
  refine ⟨h₃, Function.update (stored tf h₂.reg frame mem) (tf (slot .a0)) (h.reg .a0), ?_, rfl,
    hstale, rfl, fun r => ?_, fun a ha => ?_⟩
  · rw [List.cons_append, run_cons (y := (h₁, mem)) (hfetch h rfl hstale) rfl, List.cons_append,
      run_cons (y := (h₂, mem)) (hfetch h₁ rfl hstale) rfl, List.nil_append, run_append hsaves,
      run_cons (y := (h₃, stored tf h₂.reg frame mem)) (hfetch h₂ rfl hstale) rfl]
    refine run_cons (hfetch h₃ rfl hstale) ?_
    show ((mmu look).find h₃ .store (TRAPFRAME + slot .a0)).map _ = _
    rw [hu.find_store (h := h₃) rfl hstale (slot_bounds .a0).2]
    rfl
  · by_cases hr : r = .a0
    · rw [hr, Function.update_self]
    · rw [Function.update_of_ne fun hc => hr (hd.slot_inj hc), stored_at hd.frame (mem_frame hr)]
      exact Function.update_of_ne hr _ _
  · rw [Function.update_of_ne (ha .a0)]
    refine stored_other fun s hs => ?_
    rw [(frame_ne hs).2]
    exact (ha s.1).symm

/-- A load from the trapframe. -/
theorem exec_load (hu : UserTable look home tf satp) (hsatp : h.csr .satp = satp)
    (hstale : h.stale = []) (ha0 : h.reg .a0 = TRAPFRAME) {off : Word} (hoff : off < 4096)
    (r : Reg) : exec1 (mmu look) (.ld r off .a0) (h, mem) = some (h.set r (mem (tf off)), mem) := by
  show ((mmu look).find h .load (h.reg .a0 + off)).map _ = _
  rw [ha0, hu.find_load hsatp hstale hoff]
  rfl

/-- **`uservec`.** -/
theorem uservec_spec (hu : UserTable look home tf (h.csr .satp)) (hd : Distinct tf)
    (hk : look (mem (tf kernel_satp)) .fetch TRAMPOLINE = some home) (hstale : h.stale = []) :
    ∃ h' mem', run (mmu look) (trampoline home) uservec (h, mem) = some (h', mem') ∧
      Entered tf h mem h' mem' := by
  rw [uservec_eq]
  obtain ⟨h₁, m, hrun, hc₁, hs₁, ha0, hregs, hkept⟩ := uservec_saves hu hd hstale mem
    [.ld .sp kernel_sp .a0, .ld .tp kernel_hartid .a0, .ld .t0 kernel_trap .a0,
      .ld .t1 kernel_satp .a0, .fence, .csrw .satp .t1, .fence]
  have hword : ∀ off < 40, m (tf off) = mem (tf off) := fun off hoff =>
    hkept _ fun r => hd.slot hoff r
  let h₂ := h₁.set .sp (m (tf kernel_sp))
  let h₃ := h₂.set .tp (m (tf kernel_hartid))
  let h₄ := h₃.set .t0 (m (tf kernel_trap))
  let h₅ := h₄.set .t1 (m (tf kernel_satp))
  let h₆ : Hart Reg Csr Word := { h₅ with stale := [] }
  -- the old table may still be remembered
  let h₇ : Hart Reg Csr Word := { h₆ with
    csr := Function.update h₆.csr .satp (m (tf kernel_satp))
    stale := [h₆.csr .satp] }
  have hfetch : ∀ h' : Hart Reg Csr Word, h'.csr .satp = h.csr .satp → h'.stale = [] →
      (mmu look).find h' .fetch (trampoline home).page = some (trampoline home).home :=
    fun h' hc hs => fetch_fresh hu.code hc hs
  have hfetch₇ : (mmu look).find h₇ .fetch (trampoline home).page =
      some (trampoline home).home := by
    refine Mmu.find_agree ?_ fun t ht => ?_
    · show look (m (tf kernel_satp)) .fetch TRAMPOLINE = some home
      rw [hword kernel_satp (by decide)]
      exact hk
    · obtain rfl := List.mem_singleton.mp ht
      exact hc₁ ▸ hu.code
  refine ⟨{ h₇ with stale := [] }, m, ?_, hregs, hkept, hword _ (by decide), hword _ (by decide),
    hword _ (by decide), hword _ (by decide), rfl⟩
  rw [hrun, run_cons (hfetch h₁ hc₁ hs₁) (exec_load hu hc₁ hs₁ ha0 (by decide) .sp),
    run_cons (hfetch h₂ hc₁ hs₁) (exec_load (h := h₂) hu hc₁ hs₁ ha0 (by decide) .tp),
    run_cons (hfetch h₃ hc₁ hs₁) (exec_load (h := h₃) hu hc₁ hs₁ ha0 (by decide) .t0),
    run_cons (hfetch h₄ hc₁ hs₁) (exec_load (h := h₄) hu hc₁ hs₁ ha0 (by decide) .t1),
    run_cons (y := (h₆, m)) (hfetch h₅ hc₁ hs₁) rfl,
    run_cons (y := (h₇, m)) (hfetch h₆ hc₁ rfl) rfl]
  exact run_cons hfetch₇ rfl

/-- What `userret` leaves. -/
structure Left (tf : Word → A) (satp : Word) (mem : A → Word) (h' : Hart Reg Csr Word) : Prop where
  regs : ∀ r, h'.reg r = mem (tf (slot r))
  satp : h'.csr .satp = satp
  fresh : h'.stale = []

/-- **`userret`.** -/
theorem userret_spec (mem : A → Word) (hu : UserTable look home tf (h.reg .a0))
    (hk : look (h.csr .satp) .fetch TRAMPOLINE = some home) (hstale : h.stale = []) :
    ∃ h', run (mmu look) (trampoline home) userret (h, mem) = some (h', mem) ∧
      Left tf (h.reg .a0) mem h' := by
  rw [userret_eq]
  let h₁ : Hart Reg Csr Word := { h with stale := [] }
  let h₂ : Hart Reg Csr Word := { h₁ with
    csr := Function.update h₁.csr .satp (h.reg .a0)
    stale := [h₁.csr .satp] }
  let h₃ : Hart Reg Csr Word := { h₂ with stale := [] }
  let h₄ := h₃.set .a0 TRAPFRAME
  let h₅ : Hart Reg Csr Word := { h₄ with reg := loaded tf mem frame h₄.reg }
  have hfetch₂ : (mmu look).find h₂ .fetch (trampoline home).page =
      some (trampoline home).home := by
    refine Mmu.find_agree hu.code fun t ht => ?_
    obtain rfl := List.mem_singleton.mp ht
    exact hk
  have hfetch : ∀ h' : Hart Reg Csr Word, h'.csr .satp = h.reg .a0 → h'.stale = [] →
      (mmu look).find h' .fetch (trampoline home).page = some (trampoline home).home :=
    fun h' hc hs => fetch_fresh hu.code hc hs
  have hloads : run (mmu look) (trampoline home) (frame.map fun s => .ld s.1 s.2 .a0) (h₄, mem) =
      some (h₅, mem) := by
    refine run_loads (hfetch h₄ rfl rfl) (fun s hs => (frame_ne hs).1) fun s hs => ?_
    rw [(frame_ne hs).2]
    exact hu.find_load rfl rfl (slot_bounds s.1).2
  have ha0 : h₅.reg .a0 = TRAPFRAME := loaded_other fun s hs => (frame_ne hs).1
  refine ⟨h₅.set .a0 (mem (tf (slot .a0))), ?_, fun r => ?_, rfl, rfl⟩
  · rw [List.cons_append, run_cons (y := (h₁, mem)) (fetch_fresh hk rfl hstale) rfl,
      List.cons_append, run_cons (y := (h₂, mem)) (fetch_fresh hk rfl rfl) rfl, List.cons_append,
      run_cons (y := (h₃, mem)) hfetch₂ rfl, List.cons_append,
      run_cons (y := (h₄, mem)) (hfetch h₃ rfl rfl) rfl, List.nil_append, run_append hloads]
    exact run_cons (hfetch h₅ rfl rfl) (exec_load hu rfl rfl ha0 (slot_bounds .a0).2 .a0)
  · by_cases hr : r = .a0
    · rw [hr]
      show Function.update h₅.reg .a0 (mem (tf (slot .a0))) .a0 = _
      exact Function.update_self _ _ _
    · have hload : loaded tf mem frame h₄.reg r = mem (tf (slot r)) :=
        loaded_at frame_nodup (mem_frame hr)
      exact (Function.update_of_ne hr _ _).trans hload

end Rules

end Xv6.Trap
