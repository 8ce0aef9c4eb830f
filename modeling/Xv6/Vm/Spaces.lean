import Xv6.Vm.Procs
import Xv6.Vm.Kexec

/-!
# Every page has one owner

`Spaces D held m` is what the table of processes and the memory have in common at any
time: the pages of `D` are divided between the free list, the address spaces, and what
the kernel holds, which is the trapframes and the pages of the rest of the kernel; and
the size of every process is above its pages. A process that is being made or freed has
lost or not yet got a part of what it needs; between two calls there are none of these
(`Sound`).

> A call changes one slot and the memory (`Mach.put`). `Spaces.put`: what a call has made
> of one address space is a state of the whole; `Spaces.keep`: nothing was done to the
> tables of any.
-/

namespace Xv6.Vm

open Lib

variable {D : Frame → Prop} {held held' : List Frame} {m m' : Mach} {p p' : Slot} {root f : Frame}
  {k k' : Kmem} {x y : Proc}

def Mach.roots (m : Mach) (p : Slot) : Option Frame := (m.proc p).pagetable

def Mach.trapframes (m : Mach) (p : Slot) : Option Frame := (m.proc p).trapframe

structure Spaces (D : Frame → Prop) (held : List Frame) (m : Mach) : Prop where
  world : World D held m.roots m.kmem
  pages : Owner.Split (· ∈ held) m.kernel m.trapframes
  sized : ∀ {p root}, m.roots p = some root → Sized root (m.proc p).sz m.kmem
  low : 0 < m.kmem.low
  trampoline : m.kmem.trampoline < PHYSTOP / PGSIZE

/-- A slot nobody uses. -/
structure Proc.Free (x : Proc) : Prop where
  state : x.state = .UNUSED
  pagetable : x.pagetable = none
  trapframe : x.trapframe = none
  sz : x.sz = 0

/-- A process has all it needs. -/
structure Proc.Full (x : Proc) : Prop where
  state : x.state ≠ .UNUSED
  pagetable : ∃ root, x.pagetable = some root
  trapframe : ∃ f, x.trapframe = some f

/-- What holds between two calls. -/
structure Sound (D : Frame → Prop) (m : Mach) : Prop where
  spaces : ∃ held, Spaces D held m
  whole : ∀ p, (m.proc p).Free ∨ (m.proc p).Full

/-! ## One slot -/

/-- The machine after a call that works on one slot. -/
def Mach.put (m : Mach) (p : Slot) (x : Proc) (k : Kmem) : Mach :=
  { m with kmem := k, proc := Function.update m.proc p x }

@[simp] theorem put_self (m : Mach) (p : Slot) (x : Proc) (k : Kmem) :
    (m.put p x k).proc p = x := by
  show Function.update m.proc p x p = x
  rw [Function.update_self]

theorem put_ne (h : p' ≠ p) (m : Mach) (x : Proc) (k : Kmem) :
    (m.put p x k).proc p' = m.proc p' := by
  show Function.update m.proc p x p' = m.proc p'
  rw [Function.update_of_ne h]

theorem put_put (m : Mach) (p : Slot) (x y : Proc) (k k' : Kmem) :
    (m.put p x k).put p y k' = m.put p y k' := by
  unfold Mach.put
  rw [Function.update_idem]

theorem put_same (m : Mach) (p : Slot) (k : Kmem) : m.put p (m.proc p) k =
    { m with kmem := k } := by
  unfold Mach.put
  rw [Function.update_eq_self]

theorem put_roots (m : Mach) (p : Slot) (x : Proc) (k : Kmem) :
    (m.put p x k).roots = Function.update m.roots p x.pagetable := by
  funext p'
  unfold Mach.roots
  by_cases hp : p' = p
  · rw [hp, put_self, Function.update_self]
  · rw [put_ne hp, Function.update_of_ne hp]

theorem put_trapframes (m : Mach) (p : Slot) (x : Proc) (k : Kmem) :
    (m.put p x k).trapframes = Function.update m.trapframes p x.trapframe := by
  funext p'
  unfold Mach.trapframes
  by_cases hp : p' = p
  · rw [hp, put_self, Function.update_self]
  · rw [put_ne hp, Function.update_of_ne hp]

theorem wp_setProc {g : Proc → Proc} {Q : PUnit → Mach → Prop} {E : Panic → Mach → Prop} :
    wp (setProc p g) Q E m ↔ Q ⟨⟩ (m.put p (g (m.proc p)) m.kmem) := Iff.rfl

/-- No call stops. -/
def NoFail : Panic → Mach → Prop := fun _ _ => False

theorem onKmem_wp {α : Type} {c : Kern α} {Q : α → Kmem → Prop} (h : wp c Q NoPanic m.kmem) :
    wp (onKmem c) (fun r m' => ∃ k, m' = { m with kmem := k } ∧ Q r k) NoFail m := by
  unfold onKmem
  rw [wp_zoom]
  exact h.mono fun r k hr => ⟨k, rfl, hr⟩

/-! One slot after the other: what was there before does not matter. -/

theorem setProc_put {g : Proc → Proc} {Q : PUnit → Mach → Prop} {E : Panic → Mach → Prop} :
    wp (setProc p g) Q E (m.put p x k) ↔ Q ⟨⟩ (m.put p (g x) k) := by
  rw [wp_setProc, put_self, put_put]
  rfl

theorem onKmem_put {α : Type} {c : Kern α} {Q : α → Kmem → Prop} (h : wp c Q NoPanic k) :
    wp (onKmem c) (fun r m' => ∃ k', m' = m.put p x k' ∧ Q r k') NoFail (m.put p x k) :=
  onKmem_wp (m := m.put p x k) h

theorem wp_pointer {o : Option Frame} {Q : Frame → Mach → Prop} {E : Panic → Mach → Prop}
    (h : o = some f) : wp (pointer o) Q E m ↔ Q f m := by
  subst h
  rfl

/-! ## Changes -/

namespace Spaces

theorem held_nodup (h : Spaces D held m) : held.Nodup :=
  (List.nodup_append.mp h.world.split.nodup).1

theorem ram_held (h : Spaces D held m) (hf : f ∈ held) : m.kmem.low ≤ f ∧ f < PHYSTOP / PGSIZE :=
  h.world.ram f (h.world.split.of_mem (List.mem_append_left _ hf))

theorem held_trapframe (h : Spaces D held m) (ht : (m.proc p).trapframe = some f) : f ∈ held :=
  h.pages.of_own (q := p) ht

/-- A page the kernel holds is in no address space. -/
theorem tables (h : Spaces D held m) (hf : f ∈ held) (hmem : ∀ g, g ≠ f → k'.mem g = m.kmem.mem g)
    (hr : m.roots p = some root) : TablesKept root m.kmem k' :=
  tablesKept_of_ne (fun _ hx => h.world.split.apart hx (List.mem_append_left _ hf)) hmem hr

/-- **Nothing is done to any address space.** -/
theorem keep (h : Spaces D held m) (hr : ∀ p, m'.roots p = m.roots p ∧
    (m'.proc p).sz = (m.proc p).sz)
    (hk : ∀ p root, m.roots p = some root → TablesKept root m.kmem m'.kmem)
    (hlow : m'.kmem.low = m.kmem.low) (htr : m'.kmem.trampoline = m.kmem.trampoline)
    (hw : World D held' m.roots m'.kmem) (hp : Owner.Split (· ∈ held') m'.kernel m'.trapframes) :
    Spaces D held' m' where
  world := by
    rw [show m'.roots = m.roots from funext fun p => (hr p).1]
    exact hw
  pages := hp
  sized {p root} hroot := by
    rw [(hr p).2]
    have hroot := (hr p).1.symm.trans hroot
    exact (hk p root hroot).leaves.sized (h.sized hroot)
  low := hlow ▸ h.low
  trampoline := htr ▸ h.trampoline

/-- Only fields of other kinds change. -/
theorem fields (h : Spaces D held m) (hr : ∀ p, m'.roots p = m.roots p ∧
    (m'.proc p).sz = (m.proc p).sz)
    (ht : ∀ p, m'.trapframes p = m.trapframes p) (hk : m'.kmem = m.kmem)
    (hn : m'.kernel = m.kernel) :
    Spaces D held m' := by
  refine h.keep hr (fun p root _ q t _ _ => by rw [hk]) (by rw [hk]) (by rw [hk])
    (hk.symm ▸ h.world) ?_
  rw [hn, show m'.trapframes = m.trapframes from funext ht]
  exact h.pages

/-- **One address space changes.** -/
theorem call (h : Spaces D held m) (hk : ∀ j root, j ≠ p → m.roots j = some root →
    TablesKept root m.kmem k')
    (hlow : k'.low = m.kmem.low) (htr : k'.trampoline = m.kmem.trampoline)
    (hx : Left (Part m.roots p m.kmem) x.pagetable k')
    (hs : ∀ root, x.pagetable = some root → Sized root x.sz k')
    (ht : x.trapframe = (m.proc p).trapframe) : Spaces D held (m.put p x k') where
  world := by
    rw [put_roots]
    exact h.world.update hk hlow hx
  pages := by
    rw [put_trapframes, ht]
    show Owner.Split _ m.kernel (Function.update m.trapframes p (m.trapframes p))
    rw [Function.update_eq_self]
    exact h.pages
  sized {j root} hr := by
    by_cases hj : j = p
    · subst hj
      unfold Mach.roots at hr
      rw [put_self] at hr ⊢
      exact hs root hr
    · unfold Mach.roots at hr
      rw [put_ne hj] at hr ⊢
      exact (hk j root hj hr).leaves.sized (h.sized hr)
  low := hlow ▸ h.low
  trampoline := htr ▸ h.trampoline

theorem put (h : Spaces D held m) (hf : Framed (Part m.roots p m.kmem) m.kmem k')
    (hx : Left (Part m.roots p m.kmem) x.pagetable k')
    (hs : ∀ root, x.pagetable = some root → Sized root x.sz k')
    (ht : x.trapframe = (m.proc p).trapframe) : Spaces D held (m.put p x k') :=
  h.call (fun _ _ hj hr => h.world.others hf hj hr) hf.low hf.trampoline hx hs ht

/-- The address space stays, at the size that the process has now. -/
theorem kept (h : Spaces D held m) {sz : Nat}
    (hk : Kept (Part m.roots p m.kmem) [] root sz m.kmem k')
    (hr : x.pagetable = some root) (hsz : x.sz = sz) (ht : x.trapframe = (m.proc p).trapframe) :
    Spaces D held (m.put p x k') := by
  refine h.put hk.framed ?_ (fun r hx => ?_) ht
  · rw [hr]
    exact hk.space
  · rw [hr, Option.some.injEq] at hx
    rw [← hx, hsz]
    exact hk.sized

theorem space (h : Spaces D held m) (hr : (m.proc p).pagetable = some root) :
    Space (Part m.roots p m.kmem) [] root m.kmem := h.world.space (i := p) hr

/-- A slot becomes like the one there was. -/
theorem same (h : Spaces D held (m.put p x k)) (hr : y.pagetable = x.pagetable) (hs : y.sz = x.sz)
    (ht : y.trapframe = x.trapframe) : Spaces D held (m.put p y k) := by
  refine h.fields (fun j => ?_) (fun j => ?_) rfl rfl
  · by_cases hj : j = p
    · subst hj
      unfold Mach.roots
      rw [put_self, put_self]
      exact ⟨hr, hs⟩
    · unfold Mach.roots
      rw [put_ne hj, put_ne hj]
      exact ⟨rfl, rfl⟩
  · rw [put_trapframes, put_trapframes, ht]

/-- Fields of other kinds are set. -/
theorem alter (h : Spaces D held m) (hr : y.pagetable = (m.proc p).pagetable)
    (hs : y.sz = (m.proc p).sz)
    (ht : y.trapframe = (m.proc p).trapframe) : Spaces D held (m.put p y m.kmem) := by
  refine Spaces.same (x := m.proc p) ?_ hr hs ht
  rw [put_same]
  exact h

/-! ## Pages of the kernel -/

/-- A page that the kernel holds is written. -/
theorem write (h : Spaces D held m) (hf : f ∈ held) (g : Page) :
    Spaces D held { m with kmem := m.kmem.setPage f g } :=
  h.keep (fun _ => ⟨rfl, rfl⟩)
    (fun _ _ hr => h.tables hf (fun _ hne => setPage_of_ne hne m.kmem g) hr)
    rfl rfl (h.world.shuffle
      (fun _ _ hr => h.tables hf (fun _ hne => setPage_of_ne hne m.kmem g) hr) rfl
      (List.Perm.refl _)) h.pages

theorem not_held (h : Spaces D held m) (htk : Taken f m.kmem k') : f ∉ held := fun hf =>
  (List.nodup_append.mp h.world.split.nodup).2.2 f hf f htk.mem_free rfl

theorem taken_tables (h : Spaces D held m) (htk : Taken f m.kmem k') (hr : m.roots p = some root) :
    TablesKept root m.kmem k' :=
  tablesKept_of_ne
    (fun _ hx => h.world.split.apart hx (List.mem_append_right _ htk.mem_free)) htk.mem hr

/-- **A page comes from the free list**, for the rest of the kernel or for a trapframe. -/
theorem take (h : Spaces D held m) (htk : Taken f m.kmem k') (hk : m'.kmem = k')
    (hr : ∀ p, m'.roots p = m.roots p ∧ (m'.proc p).sz = (m.proc p).sz)
    (hp : Owner.Split (fun g => g = f ∨ g ∈ held) m'.kernel m'.trapframes) :
    Spaces D (f :: held) m' := by
  subst hk
  exact h.keep hr (fun _ _ hr => h.taken_tables htk hr) htk.low htk.trampoline (h.world.take htk)
    (hp.of_iff fun _ => List.mem_cons)

/-- **A page goes back.** -/
theorem give (h : Spaces D held m) (hf : f ∈ held) (hg : Given f m.kmem k') (hk : m'.kmem = k')
    (hr : ∀ p, m'.roots p = m.roots p ∧ (m'.proc p).sz = (m.proc p).sz)
    (hp : Owner.Split (fun g => g ∈ held ∧ g ≠ f) m'.kernel m'.trapframes) :
    Spaces D (held.erase f) m' := by
  subst hk
  have hw : World D (f :: held.erase f) m.roots m.kmem :=
    h.world.shuffle (fun _ _ _ _ _ _ _ => rfl) rfl ((List.perm_cons_erase hf).symm.append_right _)
  refine h.keep hr (fun _ _ hr => h.tables hf hg.mem hr) hg.low hg.trampoline (hw.give hg)
    (hp.of_iff fun g => ?_)
  rw [h.held_nodup.mem_erase_iff, and_comm]

end Spaces

theorem Sound.put (h : Sound D m) (hs : Spaces D held (m.put p x k)) (hx : x.Free ∨ x.Full) :
    Sound D (m.put p x k) where
  spaces := ⟨held, hs⟩
  whole j := by
    by_cases hj : j = p
    · subst hj
      rw [put_self]
      exact hx
    · rw [put_ne hj]
      exact h.whole j

end Xv6.Vm
