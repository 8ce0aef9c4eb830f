import Xv6.Vm.Spaces

/-!
# Every call keeps the pages apart

One specification for each call. `freeproc` is used on a process at any stage of its
making; `fork` and `wait` work on two slots, one after the other.

> `Act.run_spec`: between two calls the machine is `Sound`, and no call panics, unless
> `init` exits.
-/

namespace Xv6.Vm

open Lib

variable {D : Frame → Prop} {held : List Frame} {m m' : Mach} {p pp np : Slot} {root f tf : Frame}
  {k k' : Kmem} {x y : Proc} {sz : Nat}

/-! ## `freeproc` -/

theorem freeTrapframe_spec (h : Spaces D held m) : wp (freeTrapframe p) (fun _ m' =>
    ∃ k held', m' = { m with kmem := k } ∧ Spaces D held'
      (m.put p { m.proc p with trapframe := none } k))
    NoFail m := by
  unfold freeTrapframe
  rw [wp_bind, wp_get]
  cases ht : (m.proc p).trapframe with
  | none =>
    refine ⟨m.kmem, held, rfl, ?_⟩
    rw [← ht, put_same]
    exact h
  | some tf =>
    have hf := h.held_trapframe ht
    refine (onKmem_wp (kfree_wp (h.ram_held hf))).mono fun _ m₁ h₁ => ?_
    obtain ⟨k, rfl, hg⟩ := h₁
    refine ⟨k, held.erase tf, rfl, h.give hf hg rfl (fun j => ?_) ?_⟩
    · by_cases hj : j = p
      · subst hj
        unfold Mach.roots
        rw [put_self]
        exact ⟨rfl, rfl⟩
      · unfold Mach.roots
        rw [put_ne hj]
        exact ⟨rfl, rfl⟩
    · rw [put_trapframes]
      have hrow : m.trapframes p = some tf := ht
      exact (h.pages.give hrow (List.Perm.refl _)).drop

theorem freePagetable_spec (h : Spaces D held m) : wp (freePagetable p) (fun _ m' =>
    ∃ k, m' = { m with kmem := k } ∧ ∀ x : Proc, x.pagetable = none → x.trapframe =
      (m.proc p).trapframe →
      Spaces D held (m.put p x k)) NoFail m := by
  have hput : ∀ k, Framed (Part m.roots p m.kmem) m.kmem k → Pool (Part m.roots p m.kmem) [] k →
      ∀ x : Proc, x.pagetable = none → x.trapframe = (m.proc p).trapframe →
      Spaces D held (m.put p x k) := by
    intro k hf hp x hx ht
    refine h.put hf ?_ (fun root hr => ?_) ht
    · rw [hx]
      exact hp
    · rw [hx] at hr
      exact absurd hr.symm (Option.some_ne_none root)
  unfold freePagetable
  rw [wp_bind, wp_get]
  cases hr : (m.proc p).pagetable with
  | none => exact ⟨m.kmem, rfl, hput m.kmem (Framed.refl _ _) (h.world.pool hr)⟩
  | some root =>
    refine (onKmem_wp (proc_freepagetable_space (h.space hr) (h.sized hr))).mono fun _ m₁ h₁ => ?_
    obtain ⟨k, rfl, hp, hf⟩ := h₁
    exact ⟨k, rfl, hput k hf hp⟩

/-- **`freeproc`**, of whatever the process has by now. -/
theorem freeproc_spec (h : Spaces D held m) : wp (freeproc p) (fun _ m' =>
    ∃ x k held', m' = m.put p x k ∧ x.Free ∧ Spaces D held' m') NoFail m := by
  unfold freeproc
  refine (freeTrapframe_spec h).andThen fun _ m₁ h₁ => ?_
  obtain ⟨k₁, held₁, rfl, hs₁⟩ := h₁
  rw [wp_bind, wp_setProc]
  have hput : { m with kmem := k₁ }.put p { m.proc p with trapframe := none } k₁ =
    m.put p { m.proc p with trapframe := none } k₁ := rfl
  show wp (freePagetable p >>= _) _ _
    ({ m with kmem := k₁ }.put p { m.proc p with trapframe := none } k₁)
  rw [hput]
  refine (freePagetable_spec hs₁).andThen fun _ m₂ h₂ => ?_
  obtain ⟨k₂, rfl, hs₂⟩ := h₂
  rw [wp_setProc]
  refine ⟨_, k₂, held₁, put_put m p _ _ k₂ k₂, ⟨rfl, rfl, ?_, rfl⟩, hs₂ _ rfl rfl⟩
  show ((m.put p _ k₁).proc p).trapframe = none
  rw [put_self]

/-! ## `allocproc` -/

theorem found_spec (h : found m = some p) : (m.proc p).state = .UNUSED :=
  of_decide_eq_true (List.find?_some h :)

theorem Sound.free (h : Sound D m) (hp : (m.proc p).state = .UNUSED) : (m.proc p).Free :=
  (h.whole p).resolve_right fun hf => hf.state hp

theorem Sound.full (h : Sound D m) (hp : (m.proc p).state ≠ .UNUSED) : (m.proc p).Full :=
  (h.whole p).resolve_left fun hf => hp hf.state

/-- What `allocproc` returns: without memory yet. -/
structure Proc.Born (x : Proc) : Prop where
  state : x.state = .USED
  pagetable : ∃ root, x.pagetable = some root
  trapframe : ∃ f, x.trapframe = some f
  sz : x.sz = 0

theorem Proc.Born.full (h : x.Born) : x.Full :=
  ⟨by rw [h.state]; exact ProcState.noConfusion, h.pagetable, h.trapframe⟩

theorem allocproc_spec (h : Sound D m) : wp allocproc (fun r m' =>
    match r with
    | none => Sound D m'
    | some p => (m.proc p).state = .UNUSED ∧ ∃ x k held, m' = m.put p x k ∧
      x.Born ∧ Spaces D held m')
    NoFail m := by
  obtain ⟨held, hs⟩ := h.spaces
  unfold allocproc
  rw [wp_bind, wp_get]
  cases hp : found m with
  | none => exact h
  | some p =>
    have hun := found_spec hp
    obtain ⟨_, hpt, htf, hsz⟩ := h.free hun
    have hbad : ∀ {x k held}, Spaces D held (m.put p x k) →
        wp (do freeproc p; pure none) (fun (r : Option Slot) m' => match r with
          | none => Sound D m'
          | some p => (m.proc p).state = .UNUSED ∧ ∃ x k held, m' = m.put p x k ∧
            x.Born ∧ Spaces D held m')
        NoFail (m.put p x k) := by
      intro x k held hs
      refine (freeproc_spec hs).andThen fun _ m₁ h₁ => ?_
      obtain ⟨y, k₁, held₁, rfl, hy, hs₁⟩ := h₁
      rw [put_put] at hs₁ ⊢
      exact h.put hs₁ (.inl hy)
    show wp (setProc p _ >>= _) _ _ _
    rw [wp_bind, wp_setProc]
    have hs₁ : Spaces D held (m.put p { m.proc p with state := .USED } m.kmem) :=
      hs.alter rfl rfl rfl
    refine (onKmem_put kalloc_wp).andThen fun r m₂ h₂ => ?_
    obtain ⟨k₂, rfl, h₂⟩ := h₂
    rcases h₂ with ⟨rfl, rfl⟩ | ⟨tf, rfl, htk⟩
    · refine hbad (hs₁.keep (fun _ => ⟨rfl, rfl⟩) (fun _ _ _ _ _ _ _ => rfl) rfl rfl ?_ hs₁.pages)
      exact hs₁.world.shuffle (fun _ _ _ _ _ _ _ => rfl) rfl (List.Perm.refl _)
    -- with a trapframe
    show wp (setProc p _ >>= _) _ _ _
    rw [wp_bind, setProc_put]
    have hs₂ : Spaces D (tf :: held)
        (m.put p { m.proc p with state := .USED, trapframe := some tf } k₂) := by
      refine hs₁.take htk rfl (fun j => ?_) ?_
      · by_cases hj : j = p
        · subst hj
          unfold Mach.roots
          rw [put_self, put_self]
          exact ⟨rfl, rfl⟩
        · unfold Mach.roots
          rw [put_ne hj, put_ne hj]
          exact ⟨rfl, rfl⟩
      · have hno : (m.put p { m.proc p with state := .USED } m.kmem).trapframes p = none := by
          unfold Mach.trapframes
          rw [put_self]
          exact htf
        have hsp := (hs₁.pages.add (hs₁.not_held htk)).put hno (List.Perm.refl _)
        rw [put_trapframes, Function.update_idem] at hsp
        rw [put_trapframes]
        exact hsp
    have hmem : PHYSTOP / PGSIZE < 2 ^ 52 := by decide
    have hpool := hs₂.world.pool (i := p) (by unfold Mach.roots; rw [put_self]; exact hpt)
    refine (onKmem_put (proc_pagetable_space hpool (Nat.lt_trans hs₂.trampoline hmem)
      (Nat.lt_trans (hs₂.ram_held List.mem_cons_self).2 hmem))).andThen fun r m₃ h₃ => ?_
    obtain ⟨k₃, rfl, hf₃, h₃⟩ := h₃
    have hput : ∀ {y : Proc}, Left
      (Part (m.put p { m.proc p with state := .USED, trapframe := some tf } k₂).roots
        p k₂) y.pagetable k₃ → (∀ root, y.pagetable = some root → Sized root y.sz k₃) →
        y.trapframe = some tf → Spaces D (tf :: held) (m.put p y k₃) := by
      intro y hl hsz ht
      have hs₃ := hs₂.put (x := y) hf₃ hl hsz (ht.trans (by rw [put_self]))
      rwa [put_put] at hs₃
    cases r with
    | none =>
      refine hbad (hput ?_ (fun root hr => ?_) rfl)
      · rw [show Proc.pagetable _ = none from hpt]
        exact h₃
      · rw [show Proc.pagetable _ = none from hpt] at hr
        exact absurd hr.symm (Option.some_ne_none root)
    | some root =>
      show wp (setProc p _ >>= _) _ _ _
      rw [wp_bind, setProc_put]
      refine ⟨hun, _, k₃, _, rfl, ⟨rfl, ⟨root, rfl⟩, ⟨tf, rfl⟩, hsz⟩,
        hput h₃.1 (fun r hr => ?_) rfl⟩
      have hr : some root = some r := hr
      rw [← Option.some.inj hr, show Proc.sz _ = 0 from hsz]
      exact h₃.2.sized

/-! ## `fork` -/

/-- The child's size, above the copies. -/
theorem Copied.sized {old new : Frame} {D : Frame → Prop} {held : List Frame}
    (h : Copied D held old new (PGROUNDUP sz) k k') (hs : Sized new 0 k) (hsz : sz ≤ TRAPFRAME) :
    Sized new sz k' where
  max := hsz
  below q hq hlo hu := (h.rest q hq hlo).trans (hs.below q hq (Nat.zero_le _) hu)
  above q w hq hu hw :=
    hs.above q w hq hu ((h.rest q hq (Nat.le_trans (pages_le hsz) hu)).symm.trans hw)

theorem copyTrapframe_spec {dst src : Frame} (h : Spaces D held (m.put p x k))
    (hx : x.trapframe = some dst) :
    wp (copyTrapframe dst src) (fun _ k' => Spaces D held (m.put p x k')) NoPanic k := by
  have hf : dst ∈ held :=
    h.held_trapframe (p := p) ((congrArg Proc.trapframe (put_self m p x k)).trans hx)
  unfold copyTrapframe Kmem.setField
  rw [wp_modify]
  have h₁ := h.write hf (Bytes.blit (k.mem dst) 0 (k.read src 0 trapframeSize))
  exact h₁.write hf _

theorem kfork_spec (h : Sound D m) (hp : (m.proc p).state ≠ .UNUSED) :
    wp (kfork p) (fun _ m' => Sound D m') NoFail m := by
  obtain ⟨old, hold⟩ := (h.full hp).pagetable
  obtain ⟨src, hsrc⟩ := (h.full hp).trapframe
  unfold kfork
  refine (allocproc_spec h).andThen fun r m₁ h₁ => ?_
  cases r with
  | none => exact h₁
  | some np =>
    obtain ⟨hun, x, k₁, held, rfl, hx, hs₁⟩ := h₁
    obtain ⟨new, hnew⟩ := hx.pagetable
    obtain ⟨dst, hdst⟩ := hx.trapframe
    have hne : p ≠ np := fun he => hp (he ▸ hun)
    have hself := put_self m np x k₁
    have hother := put_ne hne m x k₁
    show wp (get >>= fun m => _) _ _ _
    rw [wp_bind, wp_get, hother, hself, wp_bind, wp_pointer hold, wp_bind, wp_pointer hnew]
    have hroot : (m.put np x k₁).roots p = some old := (congrArg Proc.pagetable hother).trans hold
    have hroot' : (m.put np x k₁).roots np = some new := (congrArg Proc.pagetable hself).trans hnew
    have hsp := hs₁.space hroot'
    have hzero : Sized new 0 k₁ := by
      have hsz := hs₁.sized hroot'
      rwa [hself, hx.sz] at hsz
    have hmax : (m.proc p).sz ≤ TRAPFRAME := by
      have hsz := hs₁.sized hroot
      rw [hother] at hsz
      exact hsz.max
    have hout : ∀ q f, k₁.own old q = some f → ¬Part (m.put np x k₁).roots np k₁ f := fun q f hq =>
      hs₁.world.not_part hne (p := q) (by rw [ownAt_of_some hroot]; exact hq)
    refine (onKmem_put (uvmcopy_space hsp hout hzero.below hmax)).andThen fun ok m₂ h₂ => ?_
    obtain ⟨k₂, rfl, h₂⟩ := h₂
    have hkept : ∀ {y : Proc}, Kept (Part (m.put np x k₁).roots np k₁) [] new y.sz k₁ k₂ →
        y.pagetable = some new → y.trapframe = some dst → Spaces D held (m.put np y k₂) := by
      intro y hk hr ht
      have hs₂ := hs₁.kept hk hr rfl (ht.trans ((congrArg Proc.trapframe hself).trans hdst).symm)
      rwa [put_put] at hs₂
    rw [wp_ite]
    rcases h₂ with ⟨rfl, hu⟩ | ⟨rfl, hc⟩
    · refine ⟨fun _ => ?_, fun hc => absurd rfl hc⟩
      have hs₂ := hkept (hx.sz.symm ▸ hu.kept hsp hzero) hnew hdst
      refine (freeproc_spec hs₂).andThen fun _ m₃ h₃ => ?_
      obtain ⟨y, k₃, held₃, rfl, hy, hs₃⟩ := h₃
      rw [put_put] at hs₃ ⊢
      exact h.put hs₃ (.inl hy)
    · refine ⟨fun hc => absurd hc.symm Bool.false_ne_true, fun _ => ?_⟩
      have hs₂ : Spaces D held (m.put np { x with sz := (m.proc p).sz } k₂) :=
        hkept ⟨hc.space, hc.sized hzero hmax, hc.calm.framed hsp⟩ hnew hdst
      rw [wp_bind, setProc_put, wp_bind, wp_pointer hsrc, wp_bind, wp_pointer hdst]
      refine (onKmem_put (copyTrapframe_spec hs₂ hdst)).andThen fun _ m₃ h₃ => ?_
      obtain ⟨k₃, rfl, hs₃⟩ := h₃
      rw [wp_bind, setProc_put]
      exact h.put (hs₃.same rfl rfl rfl) (.inr ⟨ProcState.noConfusion, hx.pagetable, hx.trapframe⟩)

/-! ## `exit` -/

/-- The only panic: `init exiting`. -/
def OnlyInit : Panic → Mach → Prop := fun e _ => e = .initExiting

theorem NoFail.only {α : Type} {c : Sys α} {Q : α → Mach → Prop} (h : wp c Q NoFail m) :
    wp c Q OnlyInit m :=
  h.monoStop fun _ _ hf => hf.elim

/-- Nothing that holds pages changes. -/
theorem Sound.fields (h : Sound D m) (hr : ∀ p, m'.roots p = m.roots p ∧
    (m'.proc p).sz = (m.proc p).sz)
    (ht : ∀ p, m'.trapframes p = m.trapframes p) (hk : m'.kmem = m.kmem) (hn : m'.kernel = m.kernel)
    (hs : ∀ p, (m'.proc p).state = .UNUSED ↔ (m.proc p).state = .UNUSED) : Sound D m' where
  spaces := by
    obtain ⟨held, hsp⟩ := h.spaces
    exact ⟨held, hsp.fields hr ht hk hn⟩
  whole p := by
    have hr₁ : (m'.proc p).pagetable = (m.proc p).pagetable := (hr p).1
    have ht₁ : (m'.proc p).trapframe = (m.proc p).trapframe := ht p
    refine (h.whole p).imp
      (fun hf => ⟨(hs p).mpr hf.state, hr₁.trans hf.pagetable, ht₁.trans hf.trapframe,
      (hr p).2.trans hf.sz⟩) fun hf => ⟨mt (hs p).mp hf.state, ?_, ?_⟩
    · rw [hr₁]
      exact hf.pagetable
    · rw [ht₁]
      exact hf.trapframe

theorem Sound.alter (h : Sound D m) (hr : y.pagetable = (m.proc p).pagetable)
    (hs : y.sz = (m.proc p).sz)
    (ht : y.trapframe = (m.proc p).trapframe) (hu : (m.proc p).state ≠ .UNUSED)
    (hy : y.state ≠ .UNUSED) :
    Sound D (m.put p y m.kmem) := by
  obtain ⟨held, hsp⟩ := h.spaces
  have hf := h.full hu
  refine h.put (hsp.alter hr hs ht) (.inr ⟨hy, ?_, ?_⟩)
  · rw [hr]
    exact hf.pagetable
  · rw [ht]
    exact hf.trapframe

theorem reparent_spec (h : Sound D m) : wp (reparent p) (fun _ m' =>
    Sound D m' ∧ (m'.proc p).state = (m.proc p).state) NoFail m := by
  unfold reparent
  rw [wp_modify]
  have hsame : ∀ q, (if (m.proc q).parent = some p then { m.proc q with parent := some m.initproc }
      else m.proc q) = { m.proc q with parent := if (m.proc q).parent = some p then some m.initproc
        else (m.proc q).parent } := by
    intro q
    split
    next => rfl
    next => rfl
  have hproc : ({ m with proc := fun q => if (m.proc q).parent = some p then
      { m.proc q with parent := some m.initproc } else m.proc q } :
        Mach) = { m with proc := fun q =>
      { m.proc q with parent := if (m.proc q).parent = some p then some m.initproc else
        (m.proc q).parent } } := by
    rw [funext hsame]
  rw [hproc]
  exact ⟨h.fields (fun _ => ⟨rfl, rfl⟩) (fun _ => rfl) rfl rfl fun _ => Iff.rfl, rfl⟩

theorem kexit_spec {status : Int} (h : Sound D m) (hp : (m.proc p).state ≠ .UNUSED) :
    wp (kexit p status) (fun _ m' => Sound D m') OnlyInit m := by
  unfold kexit
  rw [wp_bind, wp_get, wp_ite]
  refine ⟨fun _ => rfl, fun _ => (NoFail.only (reparent_spec h)).andThen fun _ m₁ h₁ => ?_⟩
  obtain ⟨h₁, hst⟩ := h₁
  rw [wp_setProc]
  exact h₁.alter rfl rfl rfl (hst ▸ hp) ProcState.noConfusion

/-! ## Calls that work on the caller's memory -/

theorem wp_me {Q : Me → Mach → Prop} {E : Panic → Mach → Prop}
    (hr : (m.proc p).pagetable = some root) :
    wp (me p) Q E m ↔ Q ⟨(m.proc p).sz, root⟩ m := by
  unfold me
  rw [wp_bind, wp_get, wp_bind, wp_pointer hr]
  rfl

theorem Sound.kept (h : Sound D m) (hu : (m.proc p).state ≠ .UNUSED)
    (hk : Kept (Part m.roots p m.kmem) [] root sz m.kmem k') (hx : x.sz = sz)
    (hxr : x.pagetable = some root)
    (hxt : x.trapframe = (m.proc p).trapframe) (hxs : x.state ≠ .UNUSED) :
    Sound D (m.put p x k') := by
  obtain ⟨held, hsp⟩ := h.spaces
  refine h.put (hsp.kept hk hxr hx hxt) (.inr ⟨hxs, ⟨root, hxr⟩, ?_⟩)
  rw [hxt]
  exact (h.full hu).trapframe

/-- **A call that keeps an address space** keeps them all. -/
theorem memory_spec {α : Type} {c : Me → Kern α} (hc : ∀ {D : Frame → Prop} {k : Kmem} {my : Me},
      Space D [] my.pagetable k → Sized my.pagetable my.sz k →
      wp (c my) (fun _ k' => Kept D [] my.pagetable my.sz k k') NoPanic k)
    (h : Sound D m) (hp : (m.proc p).state ≠ .UNUSED) :
      wp (do let my ← me p; onKmem (c my)) (fun _ m' =>
      ∃ k, m' = { m with kmem := k } ∧ Sound D m') NoFail m := by
  obtain ⟨held, hsp⟩ := h.spaces
  obtain ⟨root, hr⟩ := (h.full hp).pagetable
  rw [wp_bind, wp_me hr]
  refine (onKmem_wp (@hc _ _ ⟨_, root⟩ (hsp.space hr) (hsp.sized hr))).mono fun _ m₁ h₁ => ?_
  obtain ⟨k, rfl, hk⟩ := h₁
  refine ⟨k, rfl, ?_⟩
  rw [← put_same m p k]
  exact h.kept hp hk rfl hr rfl hp

theorem putStatus_spec {addr : Nat} (h : Sound D m) (hp : (m.proc p).state ≠ .UNUSED) :
    wp (putStatus p pp addr) (fun _ m' => ∃ k, m' = { m with kmem := k } ∧
      Sound D m') NoFail m := by
  unfold putStatus
  rw [wp_bind, wp_get, wp_ite]
  exact ⟨fun _ => ⟨m.kmem, rfl, h⟩,
    fun _ => memory_spec (fun hs hz => copyout_kept _ (Nat.le_refl _) hs hz) h hp⟩

theorem kwait_spec {addr : Nat} (h : Sound D m) (hp : (m.proc p).state ≠ .UNUSED) :
    wp (kwait p addr) (fun _ m' => Sound D m') NoFail m := by
  unfold kwait
  rw [wp_bind, wp_get]
  cases hz : zombie m p with
  | none => exact h
  | some pp =>
    refine (putStatus_spec h hp).andThen fun ok m₁ h₁ => ?_
    obtain ⟨k, rfl, h₁⟩ := h₁
    rw [wp_ite]
    refine ⟨fun _ => h₁, fun _ => ?_⟩
    obtain ⟨held, hsp⟩ := h₁.spaces
    refine (freeproc_spec hsp).andThen fun _ m₂ h₂ => ?_
    obtain ⟨x, k₂, held₂, rfl, hx, hs₂⟩ := h₂
    exact h₁.put hs₂ (.inl hx)

theorem sbrk_spec {n t : Int} (h : Sound D m) (hp : (m.proc p).state ≠ .UNUSED) :
    wp (sbrk p n t) (fun _ m' => Sound D m') NoFail m := by
  obtain ⟨held, hsp⟩ := h.spaces
  obtain ⟨root, hr⟩ := (h.full hp).pagetable
  unfold sbrk
  rw [wp_bind, wp_me hr]
  refine (onKmem_wp (@sys_sbrk_kept _ _ _ ⟨_, root⟩ (hsp.space hr) (hsp.sized hr) n t)).andThen
    fun r m₁ h₁ => ?_
  obtain ⟨k, rfl, hk⟩ := h₁
  obtain ⟨r, sz⟩ := r
  show wp (setProc p _ >>= _) _ _ _
  rw [wp_bind, wp_setProc]
  exact h.kept hp hk rfl hr rfl hp

theorem userStore_kept {my : Me} {va : Nat} {g : Page} (h : Space D held my.pagetable k)
    (hs : Sized my.pagetable my.sz k) :
    wp (userStore my va g) (fun _ k' => Kept D held my.pagetable my.sz k k') NoPanic k := by
  unfold userStore
  refine (walkaddr_wp _ _).andThen fun r k₁ h₁ => ?_
  obtain ⟨rfl, rfl⟩ := h₁
  rw [wp_ite]
  exact ⟨fun _ => Kept.refl h hs, fun hne => (hs.mappedAt hne).store h hs g⟩

/-! ## `exec` -/

theorem Framed.mono {D' : Frame → Prop} (h : Framed D k k') (hD : ∀ f, D f → D' f) :
    Framed D' k k' :=
  ⟨fun f hf => h.mem f (mt (hD f) hf), h.low, h.trampoline⟩

/-- The call of `kexec` that `p` makes. -/
def Mach.calling (m : Mach) (p : Slot) (root tf : Frame) : Calling :=
  ⟨m.kmem, 0, 0, false, ⟨(m.proc p).sz, root, tf, (m.proc p).name⟩⟩

theorem Spaces.callable (h : Spaces D held m) (hr : (m.proc p).pagetable = some root)
    (ht : (m.proc p).trapframe = some tf) :
    Callable (Part m.roots p m.kmem) (m.calling p root tf) where
  space := h.space hr
  sized := h.sized hr
  low := h.low
  trapframe := h.world.held_not_part (h.held_trapframe ht)
  trapframe_lt := (h.ram_held (h.held_trapframe ht)).2
  trampoline_lt := h.trampoline
  unlocked := rfl

/-- The process has a new address space, and its trapframe is not in any. -/
theorem Spaces.replaced {s : Calling} {argv : List (List UInt8)} (h : Spaces D held m)
    (ht : (m.proc p).trapframe = some tf)
    (hrep : Replaced (Part m.roots p m.kmem) argv (m.calling p root tf) s) :
    Spaces D held (m.put p ((m.proc p).load s.proc) s.kmem) := by
  have hf := h.held_trapframe ht
  refine h.call (fun j r hj hr q t hq hn => ?_) hrep.kernel.2.1 hrep.kernel.2.2 hrep.space
    (fun r hr => ?_) rfl
  · -- another process's table
    have hown : m.kmem.ownAt m.roots (j, q) = some t := by rw [ownAt_of_some hr, own_table hq, hn]
    exact hrep.memory t (h.world.not_part hj hown) fun he =>
      h.world.split.apart hown (List.mem_append_left _ (he ▸ hf))
  · have hr : some s.proc.pagetable = some r := hr
    rw [← Option.some.inj hr]
    exact hrep.sized

theorem Spaces.unchanged {s : Calling} (h : Spaces D held m) (hr : (m.proc p).pagetable = some root)
    (hun : Unchanged (m.calling p root tf) s) :
    Kept (Part m.roots p m.kmem) [] root (m.proc p).sz m.kmem s.kmem := by
  have hsp := h.space hr
  have ht : TablesKept root m.kmem s.kmem := fun q t hq hn =>
    hun.framed.mem t (hsp.not_free_of_node (mine_table hq) hn)
  exact ⟨hsp.shuffle ht hun.framed.low hun.free, ht.leaves.sized (h.sized hr),
    hun.framed.mono fun f hf => .inl hf⟩

theorem runKexec_spec {file : Option (List UInt8)} {path : List UInt8} {argv : List (List UInt8)}
    (h : Sound D m) (hp : (m.proc p).state ≠ .UNUSED) (hargc : argv.length < MAXARG)
    (hlen : ∀ s ∈ argv, s.length < PGSIZE) :
    wp (runKexec p file path argv) (fun _ m' => Sound D m') NoFail m := by
  obtain ⟨held, hsp⟩ := h.spaces
  obtain ⟨root, hr⟩ := (h.full hp).pagetable
  obtain ⟨tf, ht⟩ := (h.full hp).trapframe
  have hlen : ∀ s ∈ argv, s.length + 1 < 2 ^ 31 := fun s hs => by
    have hs := hlen s hs
    rw [PGSIZE_eq] at hs
    omega
  unfold runKexec
  rw [wp_bind, wp_get, wp_bind, wp_pointer hr, wp_bind, wp_pointer ht, wp_zoom]
  refine (@kexec_all_or_nothing _ (m.calling p root tf) file path argv
    (hsp.callable hr ht) hargc hlen).mono
    fun r s hrs => ?_
  cases r with
  | none =>
    have hun : Unchanged (m.calling p root tf) s := hrs
    have hproc : s.proc = (m.calling p root tf).proc := (congrArg Calling.proc hun.rest :)
    refine h.kept hp (hsp.unchanged hr hun) ?_ ?_ rfl hp
    · exact congrArg Task.sz hproc
    · exact congrArg (fun t => some t.pagetable) hproc
  | some argc => exact h.put (hsp.replaced ht hrs.2) (.inr ⟨hp, ⟨_, rfl⟩, ⟨tf, ht⟩⟩)

/-! ## The rest of the kernel -/

theorem take_spec (h : Sound D m) : wp (Act.run .take) (fun _ m' => Sound D m') NoFail m := by
  obtain ⟨held, hsp⟩ := h.spaces
  unfold Act.run
  refine (onKmem_wp kalloc_wp).andThen fun r m₁ h₁ => ?_
  obtain ⟨k₁, rfl, h₁⟩ := h₁
  rcases h₁ with ⟨rfl, rfl⟩ | ⟨f, rfl, htk⟩
  · refine ⟨⟨held, hsp.keep (fun _ => ⟨rfl, rfl⟩) (fun _ _ _ _ _ _ _ => rfl) rfl rfl ?_ hsp.pages⟩,
      h.whole⟩
    exact hsp.world.shuffle (fun _ _ _ _ _ _ _ => rfl) rfl (List.Perm.refl _)
  · exact ⟨⟨f :: held, hsp.take htk rfl (fun _ => ⟨rfl, rfl⟩) (hsp.pages.add (hsp.not_held htk))⟩,
      h.whole⟩

theorem give_spec (h : Sound D m) (hf : f ∈ m.kernel) :
    wp (Act.run (.give f)) (fun _ m' => Sound D m') NoFail m := by
  obtain ⟨held, hsp⟩ := h.spaces
  have hheld := hsp.pages.of_mem hf
  unfold Act.run
  refine (onKmem_wp (kfree_wp (hsp.ram_held hheld))).andThen fun _ m₁ h₁ => ?_
  obtain ⟨k₁, rfl, hg⟩ := h₁
  refine ⟨⟨held.erase f, hsp.give hheld hg rfl (fun _ => ⟨rfl, rfl⟩) ?_⟩, h.whole⟩
  exact (hsp.pages.perm (List.perm_cons_erase hf).symm).drop

theorem write_spec {g : Page} (h : Sound D m)
    (hf : f ∈ m.kernel ∨ ∃ p, (m.proc p).trapframe = some f) :
    wp (Act.run (.write f g)) (fun _ m' => Sound D m') NoFail m := by
  obtain ⟨held, hsp⟩ := h.spaces
  have hheld : f ∈ held := hf.elim hsp.pages.of_mem fun ⟨_, ht⟩ => hsp.held_trapframe ht
  have hw : wp (modify (·.setPage f g) : Kern PUnit) (fun _ k => Spaces D held { m with kmem := k })
      NoPanic m.kmem := hsp.write hheld g
  unfold Act.run
  refine (onKmem_wp hw).mono fun _ m₁ h₁ => ?_
  obtain ⟨k₁, rfl, h₁⟩ := h₁
  exact ⟨⟨held, h₁⟩, h.whole⟩

/-! ## One step -/

theorem Awake.used {s : ProcState} (h : Awake s) : s ≠ .UNUSED := by
  rintro rfl
  exact absurd h (by decide)

/-- The value of a call is not used. -/
theorem wp_ignore {α : Type} {c : Sys α} {Q : Mach → Prop} {E : Panic → Mach → Prop}
    (h : wp c (fun _ m' => Q m') E m) : wp (do let _ ← c) (fun _ m' => Q m') E m :=
  h.andThen fun _ _ hq => hq

/-- A call on memory of which only the memory is kept. -/
theorem wp_memory {α : Type} {c : Me → Kern α} (hc : ∀ {D : Frame → Prop} {k : Kmem} {my : Me},
      Space D [] my.pagetable k → Sized my.pagetable my.sz k →
      wp (c my) (fun _ k' => Kept D [] my.pagetable my.sz k k') NoPanic k)
    (h : Sound D m) (hp : (m.proc p).state ≠ .UNUSED) :
    wp (do let my ← me p; let _ ← onKmem (c my)) (fun _ m' => Sound D m') NoFail m := by
  have hm := memory_spec hc h hp
  rw [wp_bind] at hm ⊢
  exact hm.mono fun my m₁ h₁ => wp_ignore (h₁.mono fun _ _ ⟨_, _, hs⟩ => hs)

/-- **Every call** leaves the machine sound. -/
theorem Act.run_spec {a : Act} (h : Sound D m) (hc : a.Can m) :
    wp a.run (fun _ m' => Sound D m') OnlyInit m := by
  have hrun : ∀ {p}, (m.proc p).state = .RUNNING → (m.proc p).state ≠ .UNUSED := fun hs => by
    rw [hs]
    exact ProcState.noConfusion
  cases a with
  | fork p => exact NoFail.only (wp_ignore (kfork_spec h (hrun hc)))
  | exec p file path argv =>
    exact NoFail.only (wp_ignore (runKexec_spec h (hrun hc.1) hc.2.1 hc.2.2))
  | exit p status => exact kexit_spec h (hrun hc)
  | wait p addr => exact NoFail.only (wp_ignore (kwait_spec h (hrun hc)))
  | sbrk p n t => exact NoFail.only (wp_ignore (sbrk_spec h (hrun hc)))
  | fault p va =>
    exact NoFail.only
      (wp_memory (fun hs hz => (vmfault_kept hs hz).mono fun _ _ hk => hk.1) h (hrun hc))
  | copyout p va src =>
    exact NoFail.only (wp_memory (fun hs hz => copyout_kept _ (Nat.le_refl _) hs hz) h (hrun hc))
  | copyin p va len =>
    exact NoFail.only (wp_memory (fun hs hz => copyin_kept _ (Nat.le_refl _) hs hz) h (hrun hc))
  | store p va g =>
    have hm := memory_spec (c := fun my => userStore my va g)
      (fun hs hz => userStore_kept hs hz) h (hrun hc)
    exact NoFail.only (hm.mono fun _ _ ⟨_, _, hs⟩ => hs)
  | sched p s => exact h.alter rfl rfl rfl hc.1.used hc.2.used
  | take => exact NoFail.only (take_spec h)
  | give f => exact NoFail.only (give_spec h hc)
  | write f g => exact NoFail.only (write_spec h hc)

end Xv6.Vm
