import Xv6.Vm.Lives

/-!
# The address spaces of a running machine

From `userinit` on, whatever the processes do and whenever there is no page to be had:

> `address_spaces`: no page has two owners, the pages of a process lie below its size,
> freeing an address space gives back each of its pages once, and no call panics.
-/

namespace Xv6.Vm

open Lib

variable {D : Frame → Prop} {m m' : Mach} {a : List Bool × Act}

/-! ## The start -/

/-- The pages there are. -/
def Mach.stock (m : Mach) (f : Frame) : Prop := f ∈ m.kernel ++ m.kmem.freelist

theorem Unbooted.sound (h : Unbooted m) : Sound m.stock m := by
  have hno : ∀ p, m.roots p = none := fun p => congrArg Proc.pagetable (h.proc p)
  have hno' : ∀ p, m.trapframes p = none := fun p => congrArg Proc.trapframe (h.proc p)
  have hworld : World m.stock m.kernel m.roots m.kmem := by
    refine ⟨(Owner.Split.of_list h.nodup).congr fun q => ownAt_of_none (hno q.1) q.2, h.ram,
      fun {i root} hr => ?_⟩
    rw [hno i] at hr
    exact absurd hr.symm (Option.some_ne_none root)
  have hpages : Owner.Split (· ∈ m.kernel) m.kernel m.trapframes :=
    (Owner.Split.of_list (List.nodup_append.mp h.nodup).1).congr hno'
  refine ⟨⟨m.kernel, hworld, hpages, fun {p root} hr => ?_, h.low, h.trampoline⟩, fun p => .inl ?_⟩
  · rw [hno p] at hr
    exact absurd hr.symm (Option.some_ne_none root)
  · rw [h.proc p]
    exact ⟨rfl, rfl, rfl, rfl⟩

/-- `userinit` either finds no page or makes the first process. -/
theorem userinit_spec (h : Sound D m) :
    wp userinit (fun _ m' => Sound D m') (fun e _ => e = .null) m := by
  unfold userinit
  refine ((allocproc_spec h).monoStop fun _ _ hf => hf.elim).andThen fun r m₁ h₁ => ?_
  cases r with
  | none => exact rfl
  | some p =>
    obtain ⟨_, x, k, held, rfl, hx, hs⟩ := h₁
    show wp (modify (fun m : Mach => { m with initproc := p }) >>= _) _ _ _
    rw [wp_bind, wp_modify, wp_setProc]
    have hsp : Spaces D held { m.put p x k with initproc := p } :=
      hs.fields (fun _ => ⟨rfl, rfl⟩) (fun _ => rfl) rfl rfl
    have hinit : Sound D { m with initproc := p } :=
      h.fields (fun _ => ⟨rfl, rfl⟩) (fun _ => rfl) rfl rfl fun _ => Iff.rfl
    have hself : ({ m.put p x k with initproc := p } : Mach).proc p = x := put_self m p x k
    rw [hself]
    have hput : ({ m.put p x k with initproc := p } : Mach).put p { x with state := .RUNNABLE } k =
        ({ m with initproc := p } : Mach).put p { x with state := .RUNNABLE } k :=
      put_put { m with initproc := p } p x _ k k
    have hrun : Spaces D held
        (({ m with initproc := p } : Mach).put p { x with state := .RUNNABLE } k) := by
      refine hput ▸ hsp.alter ?_ ?_ ?_
      · rw [hself]
      · rw [hself]
      · rw [hself]
    exact hput ▸ hinit.put hrun (.inr ⟨ProcState.noConfusion, hx.pagetable, hx.trapframe⟩)

theorem Booted.sound (h : Booted m) : ∃ D, Sound D m := by
  obtain ⟨m₀, h₀, hrun⟩ := h
  exact ⟨m₀.stock, (userinit_spec h₀.sound).of_ok hrun⟩

/-! ## The run -/

theorem Sound.oom (h : Sound D m) (oom : List Bool) : Sound D { m with kmem.oom := oom } := by
  obtain ⟨held, hsp⟩ := h.spaces
  refine ⟨⟨held, hsp.keep (fun _ => ⟨rfl, rfl⟩) (fun _ _ _ _ _ _ _ => rfl) rfl rfl ?_ hsp.pages⟩,
    h.whole⟩
  exact hsp.world.shuffle (fun _ _ _ _ _ _ _ => rfl) rfl (List.Perm.refl _)

theorem can_oom {oom : List Bool} {a : Act} : a.Can { m with kmem.oom := oom } ↔ a.Can m := by
  cases a <;> rfl

theorem Sound.step (h : Sound D m) (hs : step m a = some m') : Sound D m' := by
  unfold Vm.step at hs
  split at hs
  next hc =>
    have hrun := Act.run_spec (a := a.2) (h.oom a.1) (can_oom.mpr hc)
    split at hs
    next u m₁ he =>
      rw [Option.some.injEq] at hs
      exact hs ▸ hrun.of_ok he
    next => exact absurd hs.symm (Option.some_ne_none m')
  next => exact absurd hs.symm (Option.some_ne_none m')

/-- Only `init` may not exit. -/
theorem Sound.calls (h : Sound D m) {oom : List Bool} {b : Act} {e : Panic} (hc : b.Can m)
    (he : exec b.run { m with kmem.oom := oom } = (.error e, m')) : e = .initExiting :=
  (Act.run_spec (h.oom oom) (can_oom.mpr hc)).of_error he

theorem reach_sound (h : Reach step Any Booted m) : ∃ D, Sound D m :=
  h.inv (fun _ hb => hb.sound) fun ⟨D, hs⟩ _ hstep => ⟨D, hs.step hstep⟩

/-! ## What holds of every machine -/

/-- The page that a process has at a path: one of its page-table pages, or a page mapped as
its memory. -/
def Mach.owns (m : Mach) (p : Slot) (q : List (Fin 512)) : Option Frame :=
  m.kmem.ownAt m.roots (p, q)

/-- What every process has, and may rely on. -/
structure Isolated (m : Mach) : Prop where
  size : ∀ p, (m.proc p).state ≠ .UNUSED → (m.proc p).sz ≤ TRAPFRAME ∧
    ∃ root, (m.proc p).pagetable = some root ∧
    ∀ q w, q.length = 3 → m.kmem.leaf root q = some w → q ≠ way TRAMPOLINE → q ≠ way TRAPFRAME →
      pageOf q * PGSIZE < PGROUNDUP (m.proc p).sz
  owner : ∀ p p' q q' f, m.owns p q = some f → m.owns p' q' = some f → p = p' ∧ q = q'
  free : ∀ p q f, m.owns p q = some f → f ∉ m.kmem.freelist
  nodup : m.kmem.freelist.Nodup
  /-- `proc_freepagetable` does not panic, and gives back what the process has. -/
  freed : ∀ p root, (m.proc p).pagetable = some root → ∃ k',
    exec (proc_freepagetable root (m.proc p).sz) m.kmem = (.ok ⟨⟩, k') ∧ k'.freelist.Nodup ∧
      ∀ f, f ∈ k'.freelist ↔ f ∈ m.kmem.freelist ∨ ∃ q, m.owns p q = some f
  /-- Nothing that happens next panics, but for `init exiting`. -/
  calls : ∀ oom b e m', b.Can m → exec (Act.run b) { m with kmem.oom := oom } = (.error e, m') →
    e = .initExiting

theorem Sized.lt {root sz : Nat} {k : Kmem} {q : List (Fin 512)} {w : Pte} (h : Sized root sz k)
    (hq : q.length = 3)
    (hw : k.leaf root q = some w) (hne : q ≠ way TRAMPOLINE) (hne' : q ≠ way TRAPFRAME) :
    pageOf q * PGSIZE < PGROUNDUP sz := by
  have hlow : pageOf q < TRAPFRAME / PGSIZE := by
    refine Nat.lt_of_not_le fun hge => ?_
    exact (h.above q w hq hge hw).2.elim hne hne'
  have hlt : pageOf q < pages sz := by
    refine Nat.lt_of_not_le fun hge => ?_
    rw [h.below q hq hge hlow] at hw
    exact Option.some_ne_none w hw.symm
  exact Nat.lt_of_lt_of_le (Nat.mul_lt_mul_of_pos_right hlt (by decide))
    (Nat.le_of_eq (pages_mul sz))

theorem Sound.isolated (h : Sound D m) : Isolated m := by
  obtain ⟨held, hsp⟩ := h.spaces
  refine ⟨fun p hp => ?_, fun p p' q q' f hq hq' => ?_, fun p q f hq hc => ?_, hsp.world.rest.nodup,
    fun p root hr => ?_, fun oom b e m' hc he => h.calls hc he⟩
  · obtain ⟨root, hr⟩ := (h.full hp).pagetable
    have hsz := hsp.sized hr
    exact ⟨hsz.max, root, hr, fun q w hl hw => hsz.lt hl hw⟩
  · exact Prod.mk.inj (hsp.world.split.inj hq hq')
  · exact hsp.world.split.apart hq (List.mem_append_right _ hc)
  · obtain ⟨_, k', hrun, hpool, _⟩ :=
      (proc_freepagetable_space (hsp.space hr) (hsp.sized hr)).returns fun _ _ hc => hc
    exact ⟨k', hrun, hpool.nodup, fun f => (hpool.mem f).symm⟩

/-- **Every page has one owner**, every address space can be freed and nothing panics: in every
state that the machine can reach. -/
theorem address_spaces (h : Reach step Any Booted m) : Isolated m := by
  obtain ⟨D, hs⟩ := reach_sound h
  exact hs.isolated

/-- A machine with 33 pages. -/
def unbooted : Mach where
  kmem := ⟨fun _ _ => 0, (List.range 32).map (524289 + ·), [], 524288, 524287⟩
  proc _ := Proc.boot
  initproc := 0
  kernel := [524288]

theorem unbooted_fresh : Unbooted unbooted where
  proc _ := rfl
  nodup := by decide
  ram := by decide
  low := by decide
  trampoline := by decide

theorem userinit_unbooted : (exec userinit unbooted).1 = .ok ⟨⟩ := by decide +kernel

/-- The first process grows, by two pages at once and by one that it has to touch first; one
`fork` finds no page and one makes a child; the parent gives a page back, and the child
takes another and exits. -/
def family : List (List Bool × Act) :=
  [([], .sched 0 .RUNNING), ([], .sbrk 0 8192 1), ([], .sbrk 0 4096 2), ([], .fault 0 8192),
    ([true], .fork 0), ([], .fork 0), ([], .sbrk 0 (-4096) 1), ([], .sched 1 .RUNNING),
    ([], .sbrk 1 4096 1), ([], .exit 1 0)]

theorem address_spaces_family :
    ∃ m, Reach step Any Booted m ∧ ((m.proc 0).sz, (m.proc 1).sz, m.kmem.freelist.length) =
      (8192, 16384, 14) ∧ Isolated m := by
  have hobs : (runFrom step (exec userinit unbooted).2 family).map
      (fun m => ((m.proc 0).sz, (m.proc 1).sz, m.kmem.freelist.length)) =
      some (8192, 16384, 14) := by
    decide +kernel
  obtain ⟨m, hm, hobs⟩ := Option.map_eq_some_iff.mp hobs
  have hboot : Reach step Any Booted (exec userinit unbooted).2 :=
    .start ⟨unbooted, unbooted_fresh, Prod.ext userinit_unbooted rfl⟩
  have hreach := Reach.of_run family hboot (RunOk.any step family _) hm
  exact ⟨m, hreach, hobs, address_spaces hreach⟩

end Xv6.Vm
