import Xv6.Lib.Tally
import Xv6.Ftable.Machine

/-!
# A reference count is what the processes hold

`ref` of a file is not the number of descriptors at every moment: `sys_dup` sets
its new descriptor before `filedup`, `sys_close` clears its descriptor before
`fileclose`, `kexit` after it, and a file fresh from `filealloc` has a reference
and no descriptor. What does hold at every moment is a balance. A process *holds*

> the descriptors of its row, less the one its call has not paid for or has paid
> back already (`Pc.stale`), and the references its call has in hand (`Pc.carry`)

and `ref` is the sum of what all processes hold. One process changes what it
holds by as much as it changes `ref`; `kfork` fills the row of a child nobody
else writes to. Between two calls a process holds its descriptors.
-/

namespace Xv6.Ftable

open Lib

/-- The references that what follows a `fileclose` still has to close. -/
def After.carry : After → List FileId
  | .files fs => fs
  | .exitUnset _ _ => []

/-- The descriptor `kexit` has closed and not cleared. -/
def After.stale : After → Option Fd
  | .files _ => none
  | .exitUnset fd _ => some fd

/-- The references a call has in hand: no descriptor stands for them. -/
def Pc.carry : Pc → List FileId
  | .filealloc1 f0 => [f0]
  | .kallocMeta f0 f1 | .kallocData f0 f1 _ | .initPipe f0 f1 _ | .initRead f0 f1 _
  | .initWrite f0 f1 _ => [f0, f1]
  | .fdalloc0 rf wf => [rf, wf]
  | .fdalloc1 _ wf _ => [wf]
  | .unset0 _ wf _ none => [wf]
  | .unset1 rf _ _ => [rf]
  | .fileclose f k => f :: k.carry
  | .pipeclose _ _ k | .kfreeData _ k | .kfreeMeta _ k => k.carry
  | .openFd f => [f]
  | .forkSet _ f _ _ => [f]
  | _ => []

/-- The descriptor that stands for no reference: set before `filedup`, or not yet
cleared after `fileclose`. -/
def Pc.stale : Pc → Option Fd
  | .filedup _ fd => some fd
  | .fileclose _ k | .pipeclose _ _ k | .kfreeData _ k | .kfreeMeta _ k => k.stale
  | .exitUnset fd _ => some fd
  | _ => none

/-- How many references to `f` a process at `pc` with descriptors `row` holds. -/
def held (pc : Pc) (row : Fd → Option FileId) (f : FileId) : Nat :=
  entries row pc.stale f + pc.carry.count f

/-- The descriptors that `kexit` has gone past are closed; `o` is the one it is
at. -/
def Closed (row : Fd → Option FileId) (o : Option Fd) (fds : List Fd) : Prop :=
  ∀ fd, row fd ≠ none → o = some fd ∨ fd ∈ fds

def After.RowOk (row : Fd → Option FileId) : After → Prop
  | .files _ => True
  | .exitUnset fd fds => Closed row (some fd) fds

/-- What a process at `pc` knows about its own descriptors. -/
def Pc.RowOk (row : Fd → Option FileId) : Pc → Prop
  | .dead => Closed row none []
  | .fdalloc1 rf _ fd0 => row fd0 = some rf
  | .copyout rf wf fd0 fd1 => row fd0 = some rf ∧ row fd1 = some wf ∧ fd0 ≠ fd1
  | .unset0 rf _ fd0 none => row fd0 = some rf
  | .unset0 rf wf fd0 (some fd1) => row fd0 = some rf ∧ row fd1 = some wf ∧ fd0 ≠ fd1
  | .unset1 _ wf fd1 => row fd1 = some wf
  | .fileclose _ k | .pipeclose _ _ k | .kfreeData _ k | .kfreeMeta _ k => k.RowOk row
  | .openType f fd => row fd = some f
  | .filedup f fd => row fd = some f ∧ ∃ fd', fd' ≠ fd ∧ row fd' = some f
  | .exitLoop fds => Closed row none fds
  | .exitUnset fd fds => Closed row (some fd) fds
  | _ => True

/-- The child of a `kfork`, and its descriptors that are still to be set. -/
def Pc.child : Pc → Option (Slot × List Fd)
  | .forkLoop np fds => some (np, fds)
  | .forkSet np _ fd fds => some (np, fd :: fds)
  | _ => none

/-- The count of every file is what the processes hold. -/
structure CountInv (s : FS) : Prop where
  count : ∀ f, (s.file f).ref = ∑ p, held (s.pc p) (s.ofile p) f
  row : ∀ p, (s.pc p).RowOk (s.ofile p)
  child : ∀ p np fds, (s.pc p).child = some (np, fds) →
    s.pc np = .newborn ∧ fds.Nodup ∧ ∀ fd ∈ fds, s.ofile np fd = none
  parent : ∀ p q np fds fds', (s.pc p).child = some (np, fds) → (s.pc q).child = some (np, fds') →
    p = q

/-! ## What follows a `fileclose` -/

@[simp] theorem After.carry_pc (k : After) : k.pc.carry = k.carry := by
  match k with
  | .files [] => rfl
  | .files (_ :: _) => rfl
  | .exitUnset _ _ => rfl

@[simp] theorem After.stale_pc (k : After) : k.pc.stale = k.stale := by
  match k with
  | .files [] => rfl
  | .files (_ :: _) => rfl
  | .exitUnset _ _ => rfl

theorem After.rowOk_pc {k : After} {row : Fd → Option FileId} (h : k.RowOk row) :
    k.pc.RowOk row := by
  match k, h with
  | .files [], _ => trivial
  | .files (_ :: _), _ => trivial
  | .exitUnset _ _, h => exact h

@[simp] theorem After.child_pc (k : After) : k.pc.child = none := by
  match k with
  | .files [] => rfl
  | .files (_ :: _) => rfl
  | .exitUnset _ _ => rfl

/-! ## One process moves -/

/-- A process holds no more references than there are. -/
theorem CountInv.held_le {s : FS} (h : CountInv s) (p : Slot) (f : FileId) :
    held (s.pc p) (s.ofile p) f ≤ (s.file f).ref :=
  (h.count f).symm ▸ le_sum (fun p => held (s.pc p) (s.ofile p) f) p

/-- The only reference is held once. -/
theorem CountInv.sole {s : FS} (h : CountInv s) {f : FileId} (hf : (s.file f).ref = 1) {p q : Slot}
    (hp : 1 ≤ held (s.pc p) (s.ofile p) f) (hq : 1 ≤ held (s.pc q) (s.ofile q) f) : p = q := by
  by_contra hpq
  have h₂ := add_le_sum (f := fun p => held (s.pc p) (s.ofile p) f) hpq
  rw [← h.count f, hf] at h₂
  omega

/-- A process inside a call is nobody's child. -/
theorem CountInv.not_child {s : FS} (h : CountInv s) {p q np : Slot} {fds : List Fd}
    (hp : s.pc p ≠ .newborn) (hq : (s.pc q).child = some (np, fds)) : np ≠ p := by
  rintro rfl
  exact hp (h.child q np fds hq).1

/-- A child that is safe to have: nobody else writes to its row. -/
structure Nursed (s : FS) (p np : Slot) (fds : List Fd) : Prop where
  ne : np ≠ p
  newborn : s.pc np = .newborn
  nodup : fds.Nodup
  unset : ∀ fd ∈ fds, s.ofile np fd = none
  sole : ∀ q fds', q ≠ p → (s.pc q).child ≠ some (np, fds')

theorem CountInv.nursed {s : FS} (h : CountInv s) {p np : Slot} {fds fds' : List Fd}
    (hp : s.pc p ≠ .newborn) (hc : (s.pc p).child = some (np, fds')) (hsub : fds.Sublist fds') :
    Nursed s p np fds := by
  obtain ⟨hnew, hnd, hnone⟩ := h.child p np fds' hc
  exact ⟨h.not_child hp hc, hnew, hnd.sublist hsub, fun fd hfd => hnone fd (hsub.subset hfd),
    fun q fds'' hqp hq => hqp (h.parent q p np fds'' fds' hq hc)⟩

/-- One process goes on, touching its own row and the counts. -/
theorem CountInv.put {s s' : FS} (h : CountInv s) {p : Slot}
    (hp : ∀ q fds, (s.pc q).child ≠ some (p, fds))
    (hpc : ∀ q, q ≠ p → s'.pc q = s.pc q) (hof : ∀ q, q ≠ p → s'.ofile q = s.ofile q)
    (hcount : ∀ f, (s'.file f).ref + held (s.pc p) (s.ofile p) f
      = (s.file f).ref + held (s'.pc p) (s'.ofile p) f)
    (hrow : (s'.pc p).RowOk (s'.ofile p))
    (hchild : ∀ np fds, (s'.pc p).child = some (np, fds) → Nursed s p np fds) : CountInv s' := by
  refine ⟨fun f => ?_, fun q => ?_, fun q np fds hq => ?_, fun q r np fds fds' hq hr => ?_⟩
  · have hsum := sum_change (f := fun q => held (s.pc q) (s.ofile q) f)
      (g := fun q => held (s'.pc q) (s'.ofile q) f) p fun q hqp => by rw [hpc q hqp, hof q hqp]
    have hc := hcount f
    have hf := h.count f
    omega
  · by_cases hqp : q = p
    · subst hqp
      exact hrow
    · rw [hpc q hqp, hof q hqp]
      exact h.row q
  · by_cases hqp : q = p
    · subst hqp
      have hn := hchild np fds hq
      rw [hpc np hn.ne, hof np hn.ne]
      exact ⟨hn.newborn, hn.nodup, hn.unset⟩
    · rw [hpc q hqp] at hq
      have hnp : np ≠ p := by
        rintro rfl
        exact hp q fds hq
      rw [hpc np hnp, hof np hnp]
      exact h.child q np fds hq
  · by_cases hqp : q = p
    · by_cases hrp : r = p
      · exact hqp.trans hrp.symm
      · subst hqp
        rw [hpc r hrp] at hr
        exact absurd hr ((hchild np fds hq).sole r fds' hrp)
    · rw [hpc q hqp] at hq
      by_cases hrp : r = p
      · subst hrp
        exact absurd hq ((hchild np fds' hr).sole q fds hqp)
      · rw [hpc r hrp] at hr
        exact h.parent q r np fds fds' hq hr

/-- The same for a step that ends with `goto`. -/
theorem CountInv.go {s s₁ : FS} (h : CountInv s) {p : Slot} {c : Pc} {row : Fd → Option FileId}
    (hp : s.pc p ≠ .newborn) (hpc : s₁.pc = s.pc)
    (hof : s₁.ofile = Function.update s.ofile p row)
    (hcount : ∀ f, (s₁.file f).ref + held (s.pc p) (s.ofile p) f = (s.file f).ref + held c row f)
    (hrow : c.RowOk row)
    (hchild : ∀ np fds, c.child = some (np, fds) →
      ∃ fds', (s.pc p).child = some (np, fds') ∧ fds.Sublist fds') : CountInv (s₁.goto p c) := by
  have hself : (s₁.goto p c).ofile p = row := by
    show s₁.ofile p = row
    rw [hof, Function.update_self]
  refine h.put (fun q fds hq => h.not_child hp hq rfl) (fun q hq => ?_) (fun q hq => ?_) ?_ ?_ ?_
  · rw [FS.goto_pc_of_ne hq, hpc]
  · show s₁.ofile q = _
    rw [hof, Function.update_of_ne hq]
  · rw [FS.goto_pc_self, hself]
    exact hcount
  · rw [FS.goto_pc_self, hself]
    exact hrow
  · rw [FS.goto_pc_self]
    intro np fds hc
    obtain ⟨fds', hc', hsub⟩ := hchild np fds hc
    exact h.nursed hp hc' hsub

/-- No count, descriptor or place is different. -/
structure SameRefs (s s₁ : FS) : Prop where
  pc : s₁.pc = s.pc
  ofile : s₁.ofile = s.ofile
  ref : ∀ f, (s₁.file f).ref = (s.file f).ref

theorem SameRefs.refl (s : FS) : SameRefs s s := ⟨rfl, rfl, fun _ => rfl⟩

/-- A step that changes neither a count nor a descriptor. -/
theorem CountInv.quiet {s s₁ : FS} (h : CountInv s) {p : Slot} {c : Pc} (hp : s.pc p ≠ .newborn)
    (hs : SameRefs s s₁) (hheld : ∀ f, held c (s.ofile p) f = held (s.pc p) (s.ofile p) f)
    (hrow : c.RowOk (s.ofile p))
    (hchild : ∀ np fds, c.child = some (np, fds) →
      ∃ fds', (s.pc p).child = some (np, fds') ∧ fds.Sublist fds') : CountInv (s₁.goto p c) := by
  refine h.go hp hs.pc (hs.ofile.trans (Function.update_eq_self p s.ofile).symm) (fun f => ?_) hrow
    hchild
  rw [hs.ref, hheld]

theorem childless {c c' : Pc} (h : c.child = none) (np : Slot) (fds : List Fd)
    (hc : c.child = some (np, fds)) : ∃ fds', c'.child = some (np, fds') ∧ fds.Sublist fds' := by
  rw [h] at hc
  exact absurd hc.symm (Option.some_ne_none _)

/-- A step that moves on with the same references in hand. -/
theorem CountInv.move {s s₁ : FS} (h : CountInv s) {p : Slot} {c₀ c : Pc}
    (hpn : s.pc p ≠ .newborn) (hp : s.pc p = c₀) (hs : SameRefs s s₁) (hcarry : c.carry = c₀.carry)
    (hst : c.stale = c₀.stale) (hrow : c.RowOk (s.ofile p)) (hchild : c.child = none) :
    CountInv (s₁.goto p c) := by
  refine h.quiet hpn hs (fun f => ?_) hrow (childless hchild)
  unfold held
  rw [hp, hcarry, hst]

/-- A step that sets or clears a descriptor and puts the reference where it comes
from or goes to. -/
theorem CountInv.setFd {s : FS} (h : CountInv s) {p : Slot} {c : Pc} {fd : Fd} {o : Option FileId}
    (hp : s.pc p ≠ .newborn)
    (hheld : ∀ f, held c (Function.update (s.ofile p) fd o) f = held (s.pc p) (s.ofile p) f)
    (hrow : c.RowOk (Function.update (s.ofile p) fd o)) (hchild : c.child = none) :
    CountInv ((s.setFd p fd o).goto p c) := by
  refine h.go hp rfl rfl (fun f => ?_) hrow (fun np fds hc => ?_)
  · rw [hheld]
    rfl
  · rw [hchild] at hc
    exact absurd hc.symm (Option.some_ne_none _)

/-- A count and what its holder holds go up by one. -/
theorem CountInv.up {s : FS} (h : CountInv s) {p : Slot} {c : Pc} {f : FileId} {x : File}
    (hp : s.pc p ≠ .newborn) (hx : x.ref = (s.file f).ref + 1)
    (hheld : ∀ g, held c (s.ofile p) g = held (s.pc p) (s.ofile p) g + [f].count g)
    (hrow : c.RowOk (s.ofile p))
    (hchild : ∀ np fds, c.child = some (np, fds) →
      ∃ fds', (s.pc p).child = some (np, fds') ∧ fds.Sublist fds') :
    CountInv ((s.setFile f x).goto p c) := by
  refine h.go hp rfl (Function.update_eq_self p s.ofile).symm (fun g => ?_) hrow hchild
  rw [hheld]
  by_cases hg : g = f
  · subst hg
    rw [FS.setFile_self, hx, List.count_singleton_self]
    omega
  · rw [FS.setFile_of_ne hg, List.count_eq_zero_of_not_mem (by simpa using hg)]
    omega

/-- A count and what its holder holds go down by one. -/
theorem CountInv.down {s : FS} (h : CountInv s) {p : Slot} {c : Pc} {f : FileId} {x : File}
    (hp : s.pc p ≠ .newborn) (hx : x.ref + 1 = (s.file f).ref)
    (hheld : ∀ g, held c (s.ofile p) g + [f].count g = held (s.pc p) (s.ofile p) g)
    (hrow : c.RowOk (s.ofile p)) (hchild : c.child = none) :
    CountInv ((s.setFile f x).goto p c) := by
  refine h.go hp rfl (Function.update_eq_self p s.ofile).symm (fun g => ?_) hrow
    (fun np fds hc => ?_)
  · rw [← hheld]
    by_cases hg : g = f
    · subst hg
      rw [FS.setFile_self, List.count_singleton_self]
      omega
    · rw [FS.setFile_of_ne hg, List.count_eq_zero_of_not_mem (by simpa using hg)]
      omega
  · rw [hchild] at hc
    exact absurd hc.symm (Option.some_ne_none _)

/-! ## `kfork` -/

/-- `allocproc` found `np`, and the loop over the descriptors starts. -/
theorem CountInv.fork {s : FS} (h : CountInv s) {p np : Slot} (hp : s.pc p = .user)
    (hnp : s.pc np = .dead) :
    CountInv ((s.goto np .newborn).goto p (.forkLoop np (List.finRange NOFILE))) := by
  have hne : np ≠ p := by
    rintro rfl
    rw [hnp] at hp
    exact Pc.noConfusion hp
  have hempty : ∀ fd, s.ofile np fd = none := by
    intro fd
    by_contra hfd
    have hrow := h.row np
    rw [hnp] at hrow
    rcases hrow fd hfd with hfd | hfd
    · exact Option.some_ne_none fd hfd.symm
    · exact List.not_mem_nil hfd
  have hnone : ∀ q fds, (s.pc q).child ≠ some (np, fds) := fun q fds hq => by
    have hnew := (h.child q np fds hq).1
    rw [hnp] at hnew
    exact Pc.noConfusion hnew
  have h₁ : CountInv (s.goto np .newborn) := by
    exact h.move (by rw [hnp]; exact fun hc => Pc.noConfusion hc) hnp (.refl s) rfl rfl trivial rfl
  have hp₁ : (s.goto np .newborn).pc p = .user := (FS.goto_pc_of_ne hne.symm s _).trans hp
  have hnone₁ : ∀ q fds, ((s.goto np .newborn).pc q).child ≠ some (np, fds) := by
    intro q fds hq
    by_cases hqn : q = np
    · subst hqn
      rw [FS.goto_pc_self] at hq
      exact Option.some_ne_none _ hq.symm
    · rw [FS.goto_pc_of_ne hqn] at hq
      exact hnone q fds hq
  refine h₁.put (fun q fds hq => ?_) (fun q hq => FS.goto_pc_of_ne hq _ _) (fun _ _ => rfl)
    (fun f => ?_) ?_ (fun np' fds hc => ?_)
  · have hnew := (h₁.child q p fds hq).1
    rw [hp₁] at hnew
    exact Pc.noConfusion hnew
  · rw [FS.goto_pc_self, hp₁]
    rfl
  · rw [FS.goto_pc_self]
    trivial
  · rw [FS.goto_pc_self] at hc
    obtain ⟨rfl, rfl⟩ := Prod.mk.inj (Option.some.inj hc)
    exact ⟨hne, FS.goto_pc_self s np _, List.nodup_finRange NOFILE, fun fd _ => hempty fd,
      fun q fds' _ => hnone₁ q fds'⟩

/-- `np->ofile[i] = f`: the reference in hand becomes a descriptor of the child. -/
theorem CountInv.forkSet {s : FS} (h : CountInv s) {p np : Slot} {f : FileId} {fd : Fd}
    {fds : List Fd} (hp : s.pc p = .forkSet np f fd fds) :
    CountInv ((s.setFd np fd (some f)).goto p (.forkLoop np fds)) := by
  have hc : (s.pc p).child = some (np, fd :: fds) := by rw [hp]; rfl
  have hpn : s.pc p ≠ .newborn := by rw [hp]; exact fun hc => Pc.noConfusion hc
  have hn := h.nursed hpn hc (List.Sublist.refl _)
  have hpc : ∀ q, q ≠ p → ((s.setFd np fd (some f)).goto p (.forkLoop np fds)).pc q = s.pc q :=
    fun q hq => FS.goto_pc_of_ne hq _ _
  have hof : ∀ q, q ≠ np → (s.setFd np fd (some f)).ofile q = s.ofile q :=
    fun q hq => Function.update_of_ne hq _ _
  have hofn : (s.setFd np fd (some f)).ofile np = Function.update (s.ofile np) fd (some f) :=
    Function.update_self _ _ _
  -- Only `p` has children it did not have before, and it has one descriptor less to set.
  have hold : ∀ q np' fds', (((s.setFd np fd (some f)).goto p (.forkLoop np fds)).pc q).child
      = some (np', fds') → ∃ fds'', (s.pc q).child = some (np', fds'') ∧
        (q = p ∧ np' = np ∧ fds'' = fd :: fds' ∨ q ≠ p ∧ np' ≠ np ∧ fds'' = fds') := by
    intro q np' fds' hq
    by_cases hqp : q = p
    · subst hqp
      rw [FS.goto_pc_self] at hq
      obtain ⟨rfl, rfl⟩ := Prod.mk.inj (Option.some.inj hq)
      exact ⟨_, hc, .inl ⟨rfl, rfl, rfl⟩⟩
    · rw [hpc q hqp] at hq
      refine ⟨_, hq, .inr ⟨hqp, ?_, rfl⟩⟩
      rintro rfl
      exact hn.sole q fds' hqp hq
  refine ⟨fun g => ?_, fun q => ?_, fun q np' fds' hq => ?_, fun q r np' fds₁ fds₂ hq hr => ?_⟩
  · have hsum := sum_change_two (f := fun q => held (s.pc q) (s.ofile q) g)
      (g := fun q => held (((s.setFd np fd (some f)).goto p (.forkLoop np fds)).pc q)
        ((s.setFd np fd (some f)).ofile q) g) hn.ne fun q hqn hqp => by rw [hpc q hqp, hof q hqn]
    have hset := entries_set (hn.unset fd List.mem_cons_self)
      (Option.some_ne_none fd).symm f g
    have hg := h.count g
    have hp' : held (s.pc p) (s.ofile p) g = entries (s.ofile p) none g + [f].count g := by
      rw [hp]
      rfl
    rw [FS.goto_pc_self, hpc np hn.ne, hof p hn.ne.symm, hofn, hn.newborn, hp'] at hsum
    have hnp : ∀ row, held .newborn row g = entries row none g := fun _ => rfl
    have hloop : held (.forkLoop np fds) (s.ofile p) g = entries (s.ofile p) none g := rfl
    rw [hnp, hnp, hloop, hset] at hsum
    show (s.file g).ref = ∑ q, held (((s.setFd np fd (some f)).goto p (.forkLoop np fds)).pc q)
      ((s.setFd np fd (some f)).ofile q) g
    omega
  · show ((_ : FS).pc q).RowOk ((s.setFd np fd (some f)).ofile q)
    by_cases hqp : q = p
    · subst hqp
      rw [FS.goto_pc_self]
      trivial
    · rw [hpc q hqp]
      by_cases hqn : q = np
      · subst hqn
        rw [hn.newborn]
        trivial
      · rw [hof q hqn]
        exact h.row q
  · obtain ⟨fds'', hq', hcase⟩ := hold q np' fds' hq
    obtain ⟨hnew, hnd, hnone⟩ := h.child q np' fds'' hq'
    have hnp : np' ≠ p := h.not_child hpn hq'
    refine ⟨(hpc np' hnp).trans hnew, ?_, fun fd' hfd' => ?_⟩
    · rcases hcase with ⟨-, -, rfl⟩ | ⟨-, -, rfl⟩
      · exact (List.nodup_cons.mp hnd).2
      · exact hnd
    · show (s.setFd np fd (some f)).ofile np' fd' = none
      rcases hcase with ⟨-, rfl, rfl⟩ | ⟨-, hne, rfl⟩
      · have hne : fd' ≠ fd := by
          rintro rfl
          exact (List.nodup_cons.mp hnd).1 hfd'
        rw [hofn, Function.update_of_ne hne]
        exact hnone fd' (List.mem_cons_of_mem _ hfd')
      · rw [hof np' hne]
        exact hnone fd' hfd'
  · obtain ⟨fds₁', hq', -⟩ := hold q np' fds₁ hq
    obtain ⟨fds₂', hr', -⟩ := hold r np' fds₂ hr
    exact h.parent q r np' fds₁' fds₂' hq' hr'

/-- The end of `kfork`: parent and child go on. -/
theorem CountInv.forked {s : FS} (h : CountInv s) {p np : Slot} (hp : s.pc p = .forkLoop np []) :
    CountInv ((s.goto p .user).goto np .user) := by
  have hc : (s.pc p).child = some (np, []) := by rw [hp]; rfl
  have hpn : s.pc p ≠ .newborn := by rw [hp]; exact fun hc => Pc.noConfusion hc
  have hn := h.nursed hpn hc (List.Sublist.refl _)
  have h₁ : CountInv (s.goto p .user) := by
    exact h.move hpn hp (.refl s) rfl rfl trivial rfl
  have hnew : (s.goto p .user).pc np = .newborn := (FS.goto_pc_of_ne hn.ne s _).trans hn.newborn
  refine h₁.put (fun q fds hq => ?_) (fun q hq => FS.goto_pc_of_ne hq _ _) (fun _ _ => rfl)
    (fun f => ?_) ?_ (fun np' fds hc => ?_)
  · by_cases hqp : q = p
    · subst hqp
      rw [FS.goto_pc_self] at hq
      exact Option.some_ne_none _ hq.symm
    · rw [FS.goto_pc_of_ne hqp] at hq
      exact hn.sole q fds hqp hq
  · rw [FS.goto_pc_self, hnew]
    rfl
  · rw [FS.goto_pc_self]
    trivial
  · rw [FS.goto_pc_self] at hc
    exact absurd hc.symm (Option.some_ne_none _)

/-! ## Every step keeps the balance -/

/-- `fileclose(f)`, by a process that holds a reference to `f`. -/
theorem CountInv.fileclose {s : FS} (h : CountInv s) {p : Slot} {f : FileId} {k : After}
    (hp : s.pc p = .fileclose f k) : CountInv (s.fileclose p f k) := by
  have hpn : s.pc p ≠ .newborn := by rw [hp]; exact fun hc => Pc.noConfusion hc
  have hheld : ∀ g, held (s.pc p) (s.ofile p) g
      = entries (s.ofile p) k.stale g + k.carry.count g + [f].count g := by
    intro g
    rw [hp, held, Pc.stale, Pc.carry, List.count_cons, List.count_cons, List.count_nil]
    omega
  have hone : 1 ≤ (s.file f).ref := by
    have hle := h.held_le p f
    rw [hheld f, List.count_singleton_self] at hle
    omega
  have hrow : k.RowOk (s.ofile p) := by
    have hrow := h.row p
    rw [hp] at hrow
    exact hrow
  have hpc : ∀ g, held k.pc (s.ofile p) g + [f].count g = held (s.pc p) (s.ofile p) g := by
    intro g
    rw [hheld, held, k.stale_pc, k.carry_pc]
  unfold FS.fileclose
  dsimp only
  rw [if_neg (by omega)]
  split
  · exact h.down hpn (by show (s.file f).ref - 1 + 1 = _; omega) hpc (After.rowOk_pc hrow)
      k.child_pc
  · next hlast =>
    have hzero : (0 : Nat) + 1 = (s.file f).ref := by omega
    split
    · exact h.down hpn hzero (fun g => (hheld g).symm) hrow rfl
    · exact h.down hpn hzero hpc (After.rowOk_pc hrow) k.child_pc

/-- `filedup(f)`, by a process that holds a reference to `f`. -/
theorem CountInv.filedup {s : FS} (h : CountInv s) {p : Slot} {f : FileId} {c : Pc}
    (hp : s.pc p ≠ .newborn) (hf : 1 ≤ held (s.pc p) (s.ofile p) f)
    (hheld : ∀ g, held c (s.ofile p) g = held (s.pc p) (s.ofile p) g + [f].count g)
    (hrow : c.RowOk (s.ofile p))
    (hchild : ∀ np fds, c.child = some (np, fds) →
      ∃ fds', (s.pc p).child = some (np, fds') ∧ fds.Sublist fds') :
    CountInv ((s.filedup f).goto p c) := by
  have hone : 1 ≤ (s.file f).ref := hf.trans (h.held_le p f)
  unfold FS.filedup
  rw [if_neg (by omega)]
  exact h.up hp rfl hheld hrow hchild

/-- `filealloc()` found `f`. -/
theorem CountInv.filealloc {s : FS} (h : CountInv s) {p : Slot} {f : FileId} {c : Pc}
    (hf : s.freeFile = some f) (hp : s.pc p ≠ .newborn)
    (hheld : ∀ g, held c (s.ofile p) g = held (s.pc p) (s.ofile p) g + [f].count g)
    (hrow : c.RowOk (s.ofile p)) (hchild : c.child = none) :
    CountInv ((s.setFile f { s.file f with ref := 1 }).goto p c) :=
  h.up hp (by rw [FS.ref_of_freeFile hf]) hheld hrow (childless hchild)

/-- Changing the rest of a file changes no count. -/
theorem sameRefs_setFile {s : FS} {f : FileId} {x : File} (hx : x.ref = (s.file f).ref) :
    SameRefs s (s.setFile f x) := by
  refine ⟨rfl, rfl, fun g => ?_⟩
  by_cases hg : g = f
  · subst hg
    rw [FS.setFile_self, hx]
  · rw [FS.setFile_of_ne hg]

theorem kfree_same (s : FS) (pg : Page) (u : Use) :
    (s.kfree pg u).pc = s.pc ∧ (s.kfree pg u).ofile = s.ofile ∧ (s.kfree pg u).file = s.file := by
  unfold FS.kfree
  dsimp only
  split <;> exact ⟨rfl, rfl, rfl⟩

theorem sameRefs_kfree (s : FS) (pg : Page) (u : Use) : SameRefs s (s.kfree pg u) := by
  obtain ⟨hpc, hof, hfile⟩ := kfree_same s pg u
  exact ⟨hpc, hof, fun f => by rw [hfile]⟩

/-- `fdalloc(f)` found `fd`: a reference in hand becomes a descriptor. -/
theorem CountInv.fdalloc {s : FS} (h : CountInv s) {p : Slot} {f : FileId} {fd : Fd} {c : Pc}
    (hfd : s.freeFd p = some fd) (hp : s.pc p ≠ .newborn) (hst : (s.pc p).stale = none)
    (hst' : c.stale = none)
    (hcarry : ∀ g, c.carry.count g + [f].count g = (s.pc p).carry.count g)
    (hrow : c.RowOk (Function.update (s.ofile p) fd (some f))) (hchild : c.child = none) :
    CountInv ((s.setFd p fd (some f)).goto p c) := by
  refine h.setFd hp (fun g => ?_) hrow hchild
  have hset := entries_set (FS.ofile_of_freeFd hfd) (Option.some_ne_none fd).symm f g
  have hg := hcarry g
  unfold held
  rw [hst, hst', hset]
  omega

/-- `p->ofile[fd] = 0`: a descriptor becomes a reference in hand. -/
theorem CountInv.fdclear {s : FS} (h : CountInv s) {p : Slot} {f : FileId} {fd : Fd} {c : Pc}
    (hfd : s.ofile p fd = some f) (hp : s.pc p ≠ .newborn) (hst : (s.pc p).stale = none)
    (hst' : c.stale = none)
    (hcarry : ∀ g, c.carry.count g = (s.pc p).carry.count g + [f].count g)
    (hrow : c.RowOk (Function.update (s.ofile p) fd none)) (hchild : c.child = none) :
    CountInv ((s.setFd p fd none).goto p c) := by
  refine h.setFd hp (fun g => ?_) hrow hchild
  have hunset := entries_unset hfd (Option.some_ne_none fd).symm g
  have hg := hcarry g
  unfold held
  rw [hst, hst', ← hunset]
  omega

theorem count_two (f₀ f₁ g : FileId) : [f₀, f₁].count g = [f₀].count g + [f₁].count g := by
  rw [← List.count_append]
  rfl

/-- A descriptor that `kexit` has not gone past stays one when another is cleared. -/
theorem Closed.clear {row : Fd → Option FileId} {fd : Fd} {fds : List Fd}
    (h : Closed row (some fd) fds) : Closed (Function.update row fd none) none fds := by
  intro fd' hfd'
  by_cases hne : fd' = fd
  · subst hne
    rw [Function.update_self] at hfd'
    exact absurd rfl hfd'
  · rw [Function.update_of_ne hne] at hfd'
    rcases h fd' hfd' with heq | hmem
    · exact absurd (Option.some.inj heq).symm hne
    · exact .inr hmem

section

variable {v : Version} {s s' : FS} {p : Slot} {a : Choice}

theorem filealloc1_count (h : CountInv s) {f0 : FileId}
    (hp : s.pc p = .filealloc1 f0) (hs : s.run v p a = some s') : CountInv s' := by
  have hpn : s.pc p ≠ .newborn := by rw [hp]; exact Pc.noConfusion
  simp only [FS.run, hp] at hs
  split at hs
  · next f1 hf =>
    obtain rfl := Option.some.inj hs
    refine h.filealloc hf hpn (fun g => ?_) trivial rfl
    rw [hp]
    simp only [held, Pc.stale, Pc.carry, count_two]
    omega
  · obtain rfl := Option.some.inj hs
    exact h.move hpn hp (.refl s) rfl rfl trivial rfl

theorem kallocMeta_count (h : CountInv s) {f0 f1 : FileId}
    (hp : s.pc p = .kallocMeta f0 f1) (hs : s.run v p a = some s') : CountInv s' := by
  have hpn : s.pc p ≠ .newborn := by rw [hp]; exact Pc.noConfusion
  simp only [FS.run, hp] at hs
  split at hs
  · split at hs
    · obtain rfl := Option.some.inj hs
      cases dataPage v with
      | true =>
        exact h.move hpn hp ⟨rfl, rfl, fun _ => rfl⟩ rfl rfl trivial rfl
      | false =>
        exact h.move hpn hp ⟨rfl, rfl, fun _ => rfl⟩ rfl rfl trivial rfl
    · exact absurd hs.symm (Option.some_ne_none _)
  · obtain rfl := Option.some.inj hs
    exact h.move hpn hp (.refl s) rfl rfl trivial rfl

theorem kallocData_count (h : CountInv s) {f0 f1 : FileId} {pi : Page}
    (hp : s.pc p = .kallocData f0 f1 pi) (hs : s.run v p a = some s') : CountInv s' := by
  have hpn : s.pc p ≠ .newborn := by rw [hp]; exact Pc.noConfusion
  simp only [FS.run, hp] at hs
  split at hs
  · split at hs
    · obtain rfl := Option.some.inj hs
      exact h.move hpn hp ⟨rfl, rfl, fun _ => rfl⟩ rfl rfl trivial rfl
    · exact absurd hs.symm (Option.some_ne_none _)
  · obtain rfl := Option.some.inj hs
    exact h.move hpn hp (.refl s) rfl rfl trivial rfl

theorem fdalloc0_count (h : CountInv s) {rf wf : FileId}
    (hp : s.pc p = .fdalloc0 rf wf) (hs : s.run v p a = some s') : CountInv s' := by
  have hpn : s.pc p ≠ .newborn := by rw [hp]; exact Pc.noConfusion
  simp only [FS.run, hp] at hs
  split at hs
  · next fd0 hfd =>
    obtain rfl := Option.some.inj hs
    refine h.fdalloc hfd hpn (by rw [hp]; rfl) rfl (fun g => ?_) (Function.update_self _ _ _) rfl
    rw [hp]
    simp only [Pc.carry, count_two]
    omega
  · obtain rfl := Option.some.inj hs
    exact h.move hpn hp (.refl s) rfl rfl trivial rfl

/-- The two descriptors differ, as the first is in use by now. -/
theorem fdalloc1_count (h : CountInv s) {rf wf : FileId} {fd0 : Fd}
    (hp : s.pc p = .fdalloc1 rf wf fd0) (hs : s.run v p a = some s') : CountInv s' := by
  have hpn : s.pc p ≠ .newborn := by rw [hp]; exact Pc.noConfusion
  have hrow := h.row p
  simp only [FS.run, hp] at hs
  rw [hp] at hrow
  split at hs
  · next fd1 hfd =>
    obtain rfl := Option.some.inj hs
    have hne : fd0 ≠ fd1 := by
      rintro rfl
      exact Option.some_ne_none rf (hrow.symm.trans (FS.ofile_of_freeFd hfd))
    refine h.fdalloc hfd hpn (by rw [hp]; rfl) rfl (fun g => ?_)
      ⟨(Function.update_of_ne hne _ _).trans hrow, Function.update_self _ _ _, hne⟩ rfl
    rw [hp]
    simp only [Pc.carry, List.count_nil]
    omega
  · obtain rfl := Option.some.inj hs
    exact h.move hpn hp (.refl s) rfl rfl hrow rfl

theorem copyout_count (h : CountInv s) {rf wf : FileId} {fd0 fd1 : Fd}
    (hp : s.pc p = .copyout rf wf fd0 fd1) (hs : s.run v p a = some s') : CountInv s' := by
  have hpn : s.pc p ≠ .newborn := by rw [hp]; exact Pc.noConfusion
  have hrow := h.row p
  simp only [FS.run, hp] at hs
  rw [hp] at hrow
  obtain rfl := Option.some.inj hs
  cases a.ok with
  | true =>
    exact h.move hpn hp (.refl s) rfl rfl trivial rfl
  | false =>
    exact h.move hpn hp (.refl s) rfl rfl hrow rfl

/-- `bad`: descriptors that were set are cleared before the files are closed. -/
theorem unset0_count (h : CountInv s) {rf wf : FileId} {fd0 : Fd} {fd1 : Option Fd}
    (hp : s.pc p = .unset0 rf wf fd0 fd1) (hs : s.run v p a = some s') : CountInv s' := by
  have hpn : s.pc p ≠ .newborn := by rw [hp]; exact Pc.noConfusion
  have hrow := h.row p
  simp only [FS.run, hp] at hs
  rw [hp] at hrow
  obtain rfl := Option.some.inj hs
  cases fd1 with
  | none =>
    refine h.fdclear hrow hpn (by rw [hp]; rfl) rfl (fun g => ?_) trivial rfl
    rw [hp]
    simp only [Pc.carry, After.carry, count_two]
    omega
  | some fd1 =>
    refine h.fdclear hrow.1 hpn (by rw [hp]; rfl) rfl (fun g => ?_)
      ((Function.update_of_ne hrow.2.2.symm _ _).trans hrow.2.1) rfl
    rw [hp]
    simp only [Pc.carry, List.count_nil]
    omega

theorem unset1_count (h : CountInv s) {rf wf : FileId} {fd1 : Fd}
    (hp : s.pc p = .unset1 rf wf fd1) (hs : s.run v p a = some s') : CountInv s' := by
  have hpn : s.pc p ≠ .newborn := by rw [hp]; exact Pc.noConfusion
  have hrow := h.row p
  simp only [FS.run, hp] at hs
  rw [hp] at hrow
  obtain rfl := Option.some.inj hs
  refine h.fdclear hrow hpn (by rw [hp]; rfl) rfl (fun g => ?_) trivial rfl
  rw [hp]
  simp only [Pc.carry, After.carry, count_two]

theorem pipeclose_count (h : CountInv s) {pi : Page} {writable : Bool} {k : After}
    (hp : s.pc p = .pipeclose pi writable k) (hs : s.run v p a = some s') : CountInv s' := by
  have hpn : s.pc p ≠ .newborn := by rw [hp]; exact Pc.noConfusion
  have hrow := h.row p
  simp only [FS.run, hp] at hs
  rw [hp] at hrow
  obtain rfl := Option.some.inj hs
  unfold FS.pipeclose
  dsimp only
  split
  · cases dataPage v with
    | true =>
      exact h.move hpn hp ⟨rfl, rfl, fun _ => rfl⟩ rfl rfl hrow rfl
    | false =>
      exact h.move hpn hp ⟨rfl, rfl, fun _ => rfl⟩ rfl rfl hrow rfl
  · exact h.move hpn hp ⟨rfl, rfl, fun _ => rfl⟩ k.carry_pc k.stale_pc (After.rowOk_pc hrow)
      k.child_pc

theorem openFd_count (h : CountInv s) {f : FileId}
    (hp : s.pc p = .openFd f) (hs : s.run v p a = some s') : CountInv s' := by
  have hpn : s.pc p ≠ .newborn := by rw [hp]; exact Pc.noConfusion
  simp only [FS.run, hp] at hs
  split at hs
  · next fd hfd =>
    obtain rfl := Option.some.inj hs
    refine h.fdalloc hfd hpn (by rw [hp]; rfl) rfl (fun g => ?_) (Function.update_self _ _ _) rfl
    rw [hp]
    simp only [Pc.carry, List.count_nil]
    omega
  · obtain rfl := Option.some.inj hs
    exact h.move hpn hp (.refl s) rfl rfl trivial rfl

theorem filedup_count (h : CountInv s) {f : FileId} {fd : Fd}
    (hp : s.pc p = .filedup f fd) (hs : s.run v p a = some s') : CountInv s' := by
  have hpn : s.pc p ≠ .newborn := by rw [hp]; exact Pc.noConfusion
  have hrow := h.row p
  simp only [FS.run, hp] at hs
  rw [hp] at hrow
  obtain rfl := Option.some.inj hs
  obtain ⟨hfd, fd', hne, hfd'⟩ := hrow
  refine h.filedup hpn ?_ (fun g => ?_) trivial (childless rfl)
  · have hpos : 1 ≤ entries (s.ofile p) (some fd) f :=
      entries_pos hfd' fun he => hne (Option.some.inj he).symm
    rw [hp]
    exact Nat.le_add_right_of_le hpos
  · rw [hp]
    have hig := entries_ignore hfd g
    simp only [held, Pc.stale, Pc.carry, List.count_nil]
    omega

/-- A reference more for each open descriptor, then the row of the child. -/
theorem forkLoop_count (h : CountInv s) {np : Slot} {fds : List Fd}
    (hp : s.pc p = .forkLoop np fds) (hs : s.run v p a = some s') : CountInv s' := by
  have hpn : s.pc p ≠ .newborn := by rw [hp]; exact Pc.noConfusion
  simp only [FS.run, hp] at hs
  split at hs
  · next fd fds =>
    split at hs
    · next f hfd =>
      obtain rfl := Option.some.inj hs
      refine h.filedup hpn ?_ (fun g => by rw [hp]; rfl) trivial fun np' fds' hc => ?_
      · rw [hp]
        exact Nat.le_add_right_of_le (entries_pos hfd (Option.some_ne_none fd).symm)
      · rw [hp]
        exact ⟨fds', hc, List.Sublist.refl _⟩
    · obtain rfl := Option.some.inj hs
      refine h.quiet hpn (.refl s) (fun g => by rw [hp]; rfl) trivial fun np' fds' hc => ?_
      rw [hp]
      obtain ⟨rfl, rfl⟩ := Prod.mk.inj (Option.some.inj hc)
      exact ⟨_, rfl, List.sublist_cons_self _ _⟩
  · obtain rfl := Option.some.inj hs
    exact h.forked hp

/-- Descriptors behind the loop are closed, those before it are counted. -/
theorem exitLoop_count (h : CountInv s) {fds : List Fd}
    (hp : s.pc p = .exitLoop fds) (hs : s.run v p a = some s') : CountInv s' := by
  have hpn : s.pc p ≠ .newborn := by rw [hp]; exact Pc.noConfusion
  have hrow := h.row p
  simp only [FS.run, hp] at hs
  rw [hp] at hrow
  split at hs
  · next fd fds =>
    split at hs
    · next f hfd =>
      obtain rfl := Option.some.inj hs
      refine h.quiet hpn (.refl s) (fun g => ?_) (fun fd' hfd' => ?_) (childless rfl)
      · rw [hp]
        exact entries_ignore hfd g
      · rcases hrow fd' hfd' with heq | hmem
        · exact absurd heq.symm (Option.some_ne_none _)
        · rcases List.mem_cons.mp hmem with rfl | hmem
          · exact .inl rfl
          · exact .inr hmem
    · next hfd =>
      obtain rfl := Option.some.inj hs
      refine h.move hpn hp (.refl s) rfl rfl (fun fd' hfd' => ?_) rfl
      rcases hrow fd' hfd' with heq | hmem
      · exact absurd heq.symm (Option.some_ne_none _)
      · rcases List.mem_cons.mp hmem with rfl | hmem
        · exact absurd hfd hfd'
        · exact .inr hmem
  · obtain rfl := Option.some.inj hs
    exact h.move hpn hp (.refl s) rfl rfl hrow rfl

theorem run_count (h : CountInv s) (hs : s.run v p a = some s') : CountInv s' := by
  have hrow := h.row p
  -- A process that takes a step is inside a call.
  have hpn : s.pc p ≠ .newborn := by
    intro hp
    simp only [FS.run, hp] at hs
    exact Option.some_ne_none _ hs.symm
  cases hp : s.pc p with
  | dead | newborn | user =>
    simp only [FS.run, hp] at hs
    exact absurd hs.symm (Option.some_ne_none _)
  | filealloc0 =>
    simp only [FS.run, hp] at hs
    split at hs
    · next f0 hf =>
      obtain rfl := Option.some.inj hs
      exact h.filealloc hf hpn (fun g => by rw [hp]; rfl) trivial rfl
    · obtain rfl := Option.some.inj hs
      exact h.move hpn hp (.refl s) rfl rfl trivial rfl
  | filealloc1 f0 => exact filealloc1_count h hp hs
  | kallocMeta f0 f1 => exact kallocMeta_count h hp hs
  | kallocData f0 f1 pi => exact kallocData_count h hp hs
  | initPipe f0 f1 pi =>
    simp only [FS.run, hp] at hs
    obtain rfl := Option.some.inj hs
    exact h.move hpn hp ⟨rfl, rfl, fun _ => rfl⟩ rfl rfl trivial rfl
  | initRead f0 f1 pi =>
    simp only [FS.run, hp] at hs
    obtain rfl := Option.some.inj hs
    exact h.move hpn hp (sameRefs_setFile rfl) rfl rfl trivial rfl
  | initWrite f0 f1 pi =>
    simp only [FS.run, hp] at hs
    obtain rfl := Option.some.inj hs
    exact h.move hpn hp (sameRefs_setFile rfl) rfl rfl trivial rfl
  | fdalloc0 rf wf => exact fdalloc0_count h hp hs
  | fdalloc1 rf wf fd0 => exact fdalloc1_count h hp hs
  | copyout rf wf fd0 fd1 => exact copyout_count h hp hs
  | unset0 rf wf fd0 fd1 => exact unset0_count h hp hs
  | unset1 rf wf fd1 => exact unset1_count h hp hs
  | fileclose f k =>
    simp only [FS.run, hp] at hs
    obtain rfl := Option.some.inj hs
    exact h.fileclose hp
  | pipeclose pi writable k => exact pipeclose_count h hp hs
  | kfreeData pi k =>
    simp only [FS.run, hp] at hs
    rw [hp] at hrow
    obtain rfl := Option.some.inj hs
    exact h.move hpn hp (sameRefs_kfree s _ _) rfl rfl hrow rfl
  | kfreeMeta pi k =>
    simp only [FS.run, hp] at hs
    rw [hp] at hrow
    obtain rfl := Option.some.inj hs
    exact h.move hpn hp (sameRefs_kfree s _ _) k.carry_pc k.stale_pc (After.rowOk_pc hrow)
      k.child_pc
  | openAlloc =>
    simp only [FS.run, hp] at hs
    split at hs
    · next f hf =>
      obtain rfl := Option.some.inj hs
      exact h.filealloc hf hpn (fun g => by rw [hp]; rfl) trivial rfl
    · obtain rfl := Option.some.inj hs
      exact h.move hpn hp (.refl s) rfl rfl trivial rfl
  | openFd f => exact openFd_count h hp hs
  | openType f fd =>
    simp only [FS.run, hp] at hs
    obtain rfl := Option.some.inj hs
    exact h.move hpn hp (sameRefs_setFile rfl) rfl rfl trivial rfl
  | filedup f fd => exact filedup_count h hp hs
  | forkLoop np fds => exact forkLoop_count h hp hs
  | forkSet np f fd fds =>
    simp only [FS.run, hp] at hs
    obtain rfl := Option.some.inj hs
    exact h.forkSet hp
  | exitLoop fds => exact exitLoop_count h hp hs
  | exitUnset fd fds =>
    simp only [FS.run, hp] at hs
    rw [hp] at hrow
    obtain rfl := Option.some.inj hs
    refine h.setFd hpn (fun g => ?_) hrow.clear rfl
    rw [hp]
    simp only [held, Pc.stale, Pc.carry, List.count_nil, entries_none]

end

theorem enter_count {s s' : FS} {p : Slot} {f : Call} (h : CountInv s) (hp : s.pc p = .user)
    (hs : s.enter p f = some s') : CountInv s' := by
  have hpn : s.pc p ≠ .newborn := by rw [hp]; exact fun hc => Pc.noConfusion hc
  cases f with
  | sysPipe =>
    obtain rfl := Option.some.inj hs
    exact h.move hpn hp (.refl s) rfl rfl trivial rfl
  | sysOpen =>
    obtain rfl := Option.some.inj hs
    exact h.move hpn hp (.refl s) rfl rfl trivial rfl
  | sysDup fd =>
    simp only [FS.enter] at hs
    split at hs
    · next f hfd =>
      split at hs
      · next fd' hfree =>
        obtain rfl := Option.some.inj hs
        have hnone := FS.ofile_of_freeFd hfree
        have hne : fd ≠ fd' := by
          rintro rfl
          exact Option.some_ne_none f (hfd.symm.trans hnone)
        refine h.setFd hpn (fun g => ?_)
          ⟨Function.update_self _ _ _, fd, hne, (Function.update_of_ne hne _ _).trans hfd⟩ rfl
        -- The new descriptor is not counted until `filedup`, and was not there before.
        have hig := entries_none (s.ofile p) fd' g
        rw [← hnone, Function.update_eq_self] at hig
        rw [hp]
        simp only [held, Pc.stale, Pc.carry, List.count_nil, entries_stale, hig]
      · obtain rfl := Option.some.inj hs
        exact h
    · obtain rfl := Option.some.inj hs
      exact h
  | sysClose fd =>
    simp only [FS.enter] at hs
    split at hs
    · next f hfd =>
      obtain rfl := Option.some.inj hs
      refine h.fdclear hfd hpn (by rw [hp]; rfl) rfl (fun g => ?_) trivial rfl
      rw [hp]
      simp only [Pc.carry, After.carry, List.count_nil]
      omega
    · obtain rfl := Option.some.inj hs
      exact h
  | kfork np =>
    simp only [FS.enter] at hs
    split at hs
    · next hnp =>
      obtain rfl := Option.some.inj hs
      exact h.fork hp hnp
    · exact absurd hs.symm (Option.some_ne_none _)
  | kexit =>
    simp only [FS.enter] at hs
    split at hs
    · exact absurd hs.symm (Option.some_ne_none _)
    · obtain rfl := Option.some.inj hs
      exact h.move hpn hp (.refl s) rfl rfl (fun fd _ => .inr (List.mem_finRange fd)) rfl

/-- Every step keeps the balance. -/
theorem step_count {v : Version} {s s' : FS} {a : Act} (h : CountInv s)
    (hs : step v s a = some s') : CountInv s' := by
  cases a with
  | call p f =>
    simp only [step] at hs
    split at hs
    · next hp => exact enter_count h hp hs
    · exact absurd hs.symm (Option.some_ne_none _)
  | step p a => exact run_count h hs
  | take pg | give pg =>
    simp only [step] at hs
    split at hs
    · obtain rfl := Option.some.inj hs
      exact ⟨h.count, h.row, h.child, h.parent⟩
    · exact absurd hs.symm (Option.some_ne_none _)

theorem init_count {s : FS} (h : Init s) : CountInv s := by
  have hidle : ∀ p, (s.pc p).child = none ∧ (s.pc p).stale = none ∧ (s.pc p).carry = [] := by
    intro p
    rcases h.pc p with hp | hp <;> rw [hp] <;> exact ⟨rfl, rfl, rfl⟩
  refine ⟨fun f => ?_, fun p => ?_, fun p np fds hc => ?_, fun p q np fds fds' hc => ?_⟩
  · rw [(h.file f).1]
    refine (Finset.sum_eq_zero fun p _ => ?_).symm
    unfold held entries
    rw [(hidle p).2.2]
    simp [h.ofile]
  · rcases h.pc p with hp | hp
    · rw [hp]
      exact fun fd hfd => absurd (h.ofile p fd) hfd
    · rw [hp]
      trivial
  · rw [(hidle p).1] at hc
    exact absurd hc.symm (Option.some_ne_none _)
  · rw [(hidle p).1] at hc
    exact absurd hc.symm (Option.some_ne_none _)

end Xv6.Ftable
