import Xv6.Itable.Machine
import Xv6.Lib.Tally

/-!
# One slot of the inode table

What holds of a slot can be said of the slot alone: its fields, the inode on disk it
is the copy of, the references that were not put, and what each process has to do
with it.

> `SlotOk`: the references are those that were not put and those `iput` is about to
> drop; whoever uses the inode leaves one that was not put; and with the sleep-lock
> free, or held after an `iupdate`, a valid copy is what is on disk.

The users and `iput` keep out of each other's way by the count: `iput` goes on with
`ref` 1, so no reference is left that a user could be using, and none comes up until
it lets go of `itable.lock` (`Stage`). After that it has the sleep-lock. One lemma a
statement, for the process that runs it; what the others rely on is in the fields.
-/

namespace Xv6.Itable

open Lib

variable {P : Type} [Fintype P] [DecidableEq P]

/-- Holds `itable.lock`. -/
def Put.table : Put → Bool
  | .testRef | .testValid | .testNlink | .lock | .release | .drop => true
  | _ => false

def weight : Option Role → Nat
  | some (.put _) => 1
  | _ => 0

/-- The references that `iput` is about to drop. -/
def putting (role : P → Option Role) : Nat := ∑ p, weight (role p)

/-- What process `p` knows at a stage of `iput`. -/
def Stage (x : Inode P) (d : Dinode) (dirty : Bool) (p : P) : Put → Prop
  | .enter | .testRef | .again | .drop => True
  | .testValid => x.ref = 1
  | .testNlink => x.ref = 1 ∧ x.valid = true
  | .lock => x.ref = 1 ∧ x.valid = true ∧ x.data.nlink = 0
  | .release => x.ref = 1 ∧ x.valid = true ∧ x.data.nlink = 0 ∧ x.locked = some p
  | .trunc => x.valid = true ∧ x.data.nlink = 0 ∧ x.locked = some p
  | .truncUpdate => x.valid = true ∧ x.data.nlink = 0 ∧ x.locked = some p ∧ x.data.Empty
  | .zero => x.valid = true ∧ x.data.nlink = 0 ∧ x.locked = some p ∧ x.data.Empty ∧ d.Empty
  | .update =>
    x.valid = true ∧ x.data.nlink = 0 ∧ x.locked = some p ∧ x.data.Empty ∧ d.Empty ∧ x.data.type = 0
  | .invalid => x.valid = true ∧ x.data.nlink = 0 ∧ x.locked = some p ∧ dirty = false
  | .unlock => x.valid = false ∧ x.locked = some p ∧ dirty = false

structure SlotOk (x : Inode P) (d : Dinode) (live : Nat) (dirty halted : Bool)
    (role : P → Option Role) : Prop where
  count : x.ref = live + putting role
  users : ∀ p, Uses x role p → 1 ≤ live
  reader : ∀ p, role p = some .read → x.locked = some p
  held : ∀ p, x.locked = some p → role p ≠ some .read →
    (∀ st, role p = some (.put st) → st.locks = false) → x.valid = true
  stage : ∀ p st, role p = some (.put st) → Stage x d dirty p st
  clean : x.locked = none → dirty = false
  agree : 0 < x.ref → x.valid = true → dirty = false →
    (∀ p, role p ≠ some (.put .invalid)) → x.data = d
  onDisk : halted = false → 0 < x.ref → x.valid = true →
    (∀ p, role p ≠ some (.put .invalid)) → d.type ≠ 0
  inMem : halted = false → 0 < x.ref → x.valid = true →
    (∀ p, role p ≠ some (.put .update) ∧ role p ≠ some (.put .invalid)) → x.data.type ≠ 0

variable {x : Inode P} {d : Dinode} {live : Nat} {dirty halted : Bool} {role : P → Option Role}

/-! ## References -/

theorem weight_put {o : Option Role} {st : Put} (h : o = some (.put st)) : weight o = 1 := by
  rw [h]
  rfl

/-- A process changes its role. -/
theorem putting_update (role : P → Option Role) (p : P) (r : Option Role) :
    putting (Function.update role p r) + weight (role p) = putting role + weight r := by
  have h := sum_change (f := fun q => weight (role q))
    (g := fun q => weight (Function.update role p r q)) p fun q hq => by
      rw [Function.update_of_ne hq]
  rw [Function.update_self] at h
  exact h

theorem putting_same {p : P} {r : Option Role} (h : weight r = weight (role p)) :
    putting (Function.update role p r) = putting role := by
  have h' := putting_update role p r
  omega

omit [DecidableEq P] in
theorem one_le_putting {p : P} {st : Put} (h : role p = some (.put st)) : 1 ≤ putting role := by
  have hle := le_sum (fun q => weight (role q)) p
  rw [weight_put h] at hle
  exact hle

theorem two_le_putting {p q : P} {st st' : Put} (hpq : p ≠ q) (h : role p = some (.put st))
    (h' : role q = some (.put st')) : 2 ≤ putting role := by
  have hle := add_le_sum (f := fun q => weight (role q)) hpq
  rw [weight_put h, weight_put h'] at hle
  exact hle

/-- With `ref` 1, a process in `iput` has the only reference. -/
theorem SlotOk.alone (h : SlotOk x d live dirty halted role) {p : P} {st : Put}
    (hp : role p = some (.put st)) (hr : x.ref = 1) :
    live = 0 ∧ (∀ q, ¬Uses x role q) ∧ ∀ q st', role q = some (.put st') → q = p := by
  have hone := one_le_putting hp
  have hc := h.count
  refine ⟨by omega, ?_, ?_⟩
  · intro q hq
    have := h.users q hq
    omega
  · intro q st' hq
    by_contra hqp
    have := two_le_putting hqp hq hp
    omega

omit [DecidableEq P] in
/-- With `ref` 0 there is nobody. -/
theorem SlotOk.idle (h : SlotOk x d live dirty halted role) (hr : x.ref = 0) :
    live = 0 ∧ x.locked = none ∧ ∀ q, role q = none := by
  have hc := h.count
  have hput : ∀ q st, role q ≠ some (.put st) := by
    intro q st hq
    have := one_le_putting hq
    omega
  have huse : ∀ q, ¬Uses x role q := by
    intro q hq
    have := h.users q hq
    omega
  refine ⟨by omega, ?_, ?_⟩
  · by_contra hl
    obtain ⟨q, hq⟩ := Option.ne_none_iff_exists'.mp hl
    exact huse q (.inr (.inr ⟨hq, fun st hst => absurd hst (hput q st)⟩))
  · intro q
    cases hq : role q with
    | none => rfl
    | some r =>
      cases r with
      | acquire => exact absurd (.inl hq) (huse q)
      | read => exact absurd (.inr (.inl hq)) (huse q)
      | put st => exact absurd hq (hput q st)

/-- Nobody is in `iput` with the table's lock. -/
def NoTable (role : P → Option Role) : Prop := ∀ q st, role q = some (.put st) → st.table = false

omit [Fintype P] [DecidableEq P] in
/-- The stages that need `ref` 1 hold the table's lock. -/
theorem Stage.ref {p : P} {st : Put} (h : Stage x d dirty p st) (hst : st.table = false)
    (n : Nat) : Stage { x with ref := n } d dirty p st := by
  cases st with
  | testRef | testValid | testNlink | lock | release | drop => cases hst
  | enter | again => trivial
  | trunc | truncUpdate | zero | update | invalid | unlock => exact h

omit [DecidableEq P] in
/-- `ip->ref++`. -/
theorem SlotOk.up (h : SlotOk x d live dirty halted role) (hr : 0 < x.ref) (ht : NoTable role) :
    SlotOk { x with ref := x.ref + 1 } d (live + 1) dirty halted role where
  count := by
    show x.ref + 1 = live + 1 + putting role
    have := h.count
    omega
  users _ _ := Nat.le_add_left 1 live
  reader := h.reader
  held := h.held
  stage p st hp := (h.stage p st hp).ref (ht p st hp) _
  clean := h.clean
  agree _ := h.agree hr
  onDisk hh _ := h.onDisk hh hr
  inMem hh _ := h.inMem hh hr

omit [DecidableEq P] in
/-- A slot is recycled. -/
theorem SlotOk.recycle (h : SlotOk x d live dirty halted role) (hr : x.ref = 0) (dev inum : Nat)
    (d' : Dinode) :
    SlotOk ⟨dev, inum, 1, x.locked, false, x.data⟩ d' (live + 1) dirty halted role := by
  obtain ⟨-, hl, hrole⟩ := h.idle hr
  have hnone : ∀ {q r}, role q = some r → False := by
    intro q r hq
    rw [hrole q] at hq
    cases hq
  refine ⟨?_, fun _ _ => Nat.le_add_left 1 live, fun _ hq => (hnone hq).elim, ?_,
    fun _ _ hq => (hnone hq).elim, h.clean, ?_, ?_, ?_⟩
  · have := h.count
    show 1 = live + 1 + putting role
    omega
  · intro q hq
    rw [show x.locked = some q from hq] at hl
    cases hl
  · intro _ hv
    cases hv
  · intro _ _ hv
    cases hv
  · intro _ _ hv
    cases hv

/-! ## What the others see -/

omit [Fintype P] in
/-- Roles after one process changed its own. -/
theorem role_cases {p q : P} {r r' : Option Role} (h : Function.update role p r q = r') :
    (q = p ∧ r = r') ∨ (q ≠ p ∧ role q = r') := by
  by_cases hq : q = p
  · subst hq
    rw [Function.update_self] at h
    exact .inl ⟨rfl, h⟩
  · rw [Function.update_of_ne hq] at h
    exact .inr ⟨hq, h⟩

omit [Fintype P] in
/-- That nobody is at a stage, seen from before a role changed. -/
theorem none_at {p : P} {r : Option Role} {y : Role} (hp : role p ≠ some y)
    (h : ∀ q, Function.update role p r q ≠ some y) (q : P) : role q ≠ some y := by
  by_cases hq : q = p
  · rw [hq]
    exact hp
  · have hq' := h q
    rwa [Function.update_of_ne hq] at hq'

omit [Fintype P] [DecidableEq P] in
/-- A stage with the sleep-lock held by somebody else is not to be. -/
theorem Stage.locker {p : P} {st : Put} (h : Stage x d dirty p st) (hst : st.locks = true) :
    x.locked = some p := by
  cases st with
  | release => exact h.2.2.2
  | trunc => exact h.2.2
  | truncUpdate => exact h.2.2.1
  | zero => exact h.2.2.1
  | update => exact h.2.2.1
  | invalid => exact h.2.2.1
  | unlock => exact h.2.1
  | enter | testRef | testValid | testNlink | lock | again | drop => cases hst

omit [Fintype P] [DecidableEq P] in
/-- A stage without the sleep-lock, seen by somebody who changes what it protects. -/
theorem Stage.other {x' : Inode P} {d' : Dinode} {dirty' : Bool} {p : P} {st : Put}
    (h : Stage x d dirty p st) (hst : st.locks = false) (hr : x'.ref = x.ref)
    (h1 : x.ref ≠ 1) : Stage x' d' dirty' p st := by
  cases st with
  | enter | testRef | again | drop => trivial
  | testValid => exact hr.trans h
  | testNlink => exact absurd h.1 h1
  | lock => exact absurd h.1 h1
  | release | trunc | truncUpdate | zero | update | invalid | unlock => cases hst

end Xv6.Itable
