import Xv6.Itable.Steps

/-!
# The inode table

`SlotOk` for every slot, together with what is not about one slot: a slot in use is
the only one for its inode, and `itable.lock` is held where the places of the
processes say so. A step touches one slot, or one inode on disk, and `frame` is for
the rest.
-/

namespace Xv6.Itable

open Lib

variable {P : Type} [Fintype P] [DecidableEq P]

/-- The places at which a process holds `itable.lock`. -/
def Pc.table : Pc → Bool
  | .put st _ => st.table
  | _ => false

/-- What slot `i` is the copy of. -/
def Sys.onDisk (s : Sys P) (i : SlotId) : Dinode := s.dinode (s.inode i).dev (s.inode i).inum

def Sys.roles (s : Sys P) (i : SlotId) : P → Option Role := fun p => (s.pc p).role i

def Sys.halted (s : Sys P) : Bool := s.panicked.isSome

/-- Slot `i` is right. -/
def Sys.Ok (s : Sys P) (i : SlotId) : Prop :=
  SlotOk (s.inode i) (s.onDisk i) (s.live i) (s.dirty i) s.halted (s.roles i)

structure TableInv (s : Sys P) : Prop where
  unique : ∀ i j, 0 < (s.inode i).ref → 0 < (s.inode j).ref → (s.inode i).dev = (s.inode j).dev →
    (s.inode i).inum = (s.inode j).inum → i = j
  lock : ∀ p, (s.pc p).table = true ↔ s.lock = some p
  claim : ∀ p dev type inum, s.pc p = .scan dev type inum → type ≠ 0
  slot : ∀ i, s.Ok i

theorem role_put {c : Pc} {i : SlotId} {st : Put} (h : c.role i = some (.put st)) :
    c = .put st i := by
  unfold Pc.role at h
  split at h
  next => split at h <;> cases h
  next => split at h <;> cases h
  next st' j =>
    split at h
    next hj =>
      cases h
      rw [hj]
    next => cases h
  next => cases h

theorem role_self (st : Put) (i : SlotId) : (Pc.put st i).role i = some (.put st) := by
  unfold Pc.role
  exact if_pos rfl

theorem role_of_ne {st : Put} {i j : SlotId} (h : j ≠ i) : (Pc.put st i).role j = none := by
  unfold Pc.role
  exact if_neg h.symm

omit [Fintype P] in
/-- The roles at a slot after process `p` went to `c`. -/
theorem roles_goto (pc : P → Pc) (p : P) (c : Pc) (i : SlotId) :
    (fun q => (Function.update pc p c q).role i)
      = Function.update (fun q => (pc q).role i) p (c.role i) := by
  funext q
  by_cases hq : q = p
  · subst hq
    rw [Function.update_self, Function.update_self]
  · rw [Function.update_of_ne hq, Function.update_of_ne hq]

omit [Fintype P] in
/-- The roles stay at a slot that process `p` has as much to do with as before. -/
theorem roles_keep {pc : P → Pc} {p : P} {c : Pc} {i : SlotId} (h : c.role i = (pc p).role i) :
    (fun q => (Function.update pc p c q).role i) = fun q => (pc q).role i := by
  rw [roles_goto, h]
  exact Function.update_eq_self p fun q => (pc q).role i

omit [DecidableEq P] in
/-- Nobody is at a stage with the table's lock while it is free. -/
theorem TableInv.noTable {s : Sys P} (h : TableInv s) (hl : s.lock = none) (i : SlotId) :
    NoTable (s.roles i) := by
  intro q st hq
  have hpc := role_put hq
  by_contra hne
  have ht := (h.lock q).mp (by rw [hpc]; exact Bool.not_eq_false _ ▸ hne)
  rw [hl] at ht
  cases ht

omit [DecidableEq P] in
/-- Process `p` holds the table's lock, and nobody else. -/
theorem TableInv.otherTable {s : Sys P} (h : TableInv s) {p : P} (hp : (s.pc p).table = true)
    (i : SlotId) : ∀ q st, q ≠ p → s.roles i q = some (.put st) → st.table = false := by
  intro q st hqp hq
  have hpc := role_put hq
  by_contra hne
  have ht := (h.lock q).mp (by rw [hpc]; exact Bool.not_eq_false _ ▸ hne)
  rw [(h.lock p).mp hp, Option.some.injEq] at ht
  exact hqp ht.symm

omit [Fintype P] in
/-- The lock, after process `p` went to `c`. -/
theorem lock_goto {pc : P → Pc} {l l' : Option P} {p : P} {c : Pc}
    (h : ∀ q, (pc q).table = true ↔ l = some q) (hp : c.table = true ↔ l' = some p)
    (hl : ∀ q, q ≠ p → (l' = some q ↔ l = some q)) :
    ∀ q, (Function.update pc p c q).table = true ↔ l' = some q := by
  intro q
  by_cases hq : q = p
  · subst hq
    rw [Function.update_self]
    exact hp
  · rw [Function.update_of_ne hq, hl q hq]
    exact h q

/-- Process `p` holds the lock as before. -/
theorem TableInv.lock_same {s : Sys P} (h : TableInv s) {p : P} {c : Pc}
    (hc : c.table = (s.pc p).table) :
    ∀ q, (Function.update s.pc p c q).table = true ↔ s.lock = some q :=
  lock_goto h.lock (by rw [hc]; exact h.lock p) fun _ _ => Iff.rfl

/-- Process `p` takes the lock. -/
theorem TableInv.lock_take {s : Sys P} (h : TableInv s) {p : P} {c : Pc} (hl : s.lock = none)
    (hc : c.table = true) : ∀ q, (Function.update s.pc p c q).table = true ↔ some p = some q := by
  refine lock_goto h.lock ⟨fun _ => rfl, fun _ => hc⟩ fun q hq => ?_
  rw [hl]
  constructor
  · intro he
    cases he
    exact absurd rfl hq
  · intro he
    cases he

/-- Process `p` releases the lock. -/
theorem TableInv.lock_release {s : Sys P} (h : TableInv s) {p : P} {c : Pc}
    (hp : (s.pc p).table = true) (hc : c.table = false) :
    ∀ q, (Function.update s.pc p c q).table = true ↔ (none : Option P) = some q := by
  refine lock_goto h.lock ?_ fun q hq => ?_
  · rw [hc]
    exact ⟨fun he => (Bool.false_ne_true he).elim, fun he => absurd he.symm (Option.some_ne_none p)⟩
  · rw [(h.lock p).mp hp]
    constructor
    · intro he
      cases he
    · intro he
      cases he
      exact absurd rfl hq

theorem claim_goto {s : Sys P} (h : TableInv s) {p : P} {c : Pc}
    (hc : ∀ dev type inum, c = .scan dev type inum → type ≠ 0) :
    ∀ q dev type inum, Function.update s.pc p c q = .scan dev type inum → type ≠ 0 := by
  intro q dev type inum hq
  by_cases hqp : q = p
  · rw [hqp, Function.update_self] at hq
    exact hc dev type inum hq
  · rw [Function.update_of_ne hqp] at hq
    exact h.claim q dev type inum hq

theorem not_scan {c : Pc} (hc : ∀ dev type inum, c ≠ .scan dev type inum) :
    ∀ dev type inum, c = .scan dev type inum → type ≠ 0 :=
  fun dev type inum he => absurd he (hc dev type inum)

/-! ## The steps -/

/-- Inode `dev`, `inum` is the one slot `i` is the copy of. -/
def Sys.Copy (s : Sys P) (i : SlotId) (dev inum : Nat) : Prop :=
  0 < (s.inode i).ref ∧ (s.inode i).dev = dev ∧ (s.inode i).inum = inum

/-- The steps there are, with the invariant. -/
inductive Move (s : Sys P) : Act P → Sys P → Prop
  | halt {a : Act P} {e : Panic} : Move s a (s.panic e)
  | hit {a : Act P} {p : P} {i : SlotId} : s.lock = none → 0 < (s.inode i).ref →
      (∀ j, (s.pc p).role j = none) → (s.pc p).table = false →
      Move s a ((s.up i).goto p .user)
  | recycle {a : Act P} {p : P} {i : SlotId} {dev inum : Nat} : s.lock = none →
      (s.inode i).ref = 0 → (∀ j, ¬s.Copy j dev inum) →
      (∀ j, (s.pc p).role j = none) → (s.pc p).table = false →
      Move s a (((s.setInode i ⟨dev, inum, 1, (s.inode i).locked, false, (s.inode i).data⟩).setLive
        i (s.live i + 1)).goto p .user)
  | ilock {p : P} {i : SlotId} : s.pc p = .user → Move s (.ilock p i) (s.goto p (.acquire i))
  | acquire {p : P} {i : SlotId} : s.pc p = .acquire i → (s.inode i).locked = none →
      Move s (.run p) ((s.setInode i { s.inode i with locked := some p }).goto p (.read i))
  | cached {p : P} {i : SlotId} : s.pc p = .read i → (s.inode i).valid = true →
      Move s (.run p) (s.goto p .user)
  | load {p : P} {i : SlotId} : s.pc p = .read i → (s.onDisk i).type ≠ 0 → Move s (.run p)
      ((s.setInode i { s.inode i with data := s.onDisk i, valid := true }).goto p .user)
  | noType {p : P} {i : SlotId} : s.pc p = .read i → Move s (.run p)
      ((s.setInode i { s.inode i with data := s.onDisk i, valid := true }).panic .ilockNoType)
  | write {p : P} {i : SlotId} {d : Dinode} : s.pc p = .user → Move s (.write p i d)
      ((s.setInode i { s.inode i with data := { d with type := (s.inode i).data.type } }).setDirty
        i true)
  | iupdate {p : P} {i : SlotId} : s.pc p = .user → Move s (.iupdate p i) (s.update i)
  | iunlock {p : P} {i : SlotId} : s.pc p = .user → (s.inode i).locked = some p →
      Move s (.iunlock p i) (s.setInode i { s.inode i with locked := none })
  | iput {p : P} {i : SlotId} : s.pc p = .user →
      Move s (.iput p i) ((s.setLive i (s.live i - 1)).goto p (.put .enter i))
  | ialloc {p : P} {dev : Nat} {type : Int} : s.pc p = .user →
      Move s (.ialloc p dev type) (s.goto p (.scan dev type 1))
  | scan {p : P} {dev : Nat} {type : Int} {inum : Nat} {c : Pc} : s.pc p = .scan dev type inum →
      c = .user ∨ c = .scan dev type (inum + 1) → Move s (.run p) (s.goto p c)
  | claim {p : P} {dev : Nat} {type : Int} {inum : Nat} : s.pc p = .scan dev type inum →
      (s.dinode dev inum).type = 0 → Move s (.run p)
        ((s.setDinode dev inum { Dinode.zero with type := type }).goto p (.claimed dev inum))
  | put {p : P} {st : Put} {i : SlotId} {s' : Sys P} : s.pc p = .put st i → s.put p i st = some s' →
      Move s (.run p) s'

omit [Fintype P] in
theorem get_move {s : Sys P} {a : Act P} {p : P} (hl : s.lock = none)
    (hr : ∀ j, (s.pc p).role j = none) (ht : (s.pc p).table = false) (dev inum : Nat) :
    Move s a (s.get p dev inum) := by
  unfold Sys.get
  split
  next i hi =>
    have hc := List.find?_some hi
    simp only [decide_eq_true_eq] at hc
    exact .hit hl hc.1 hr ht
  next hnone =>
    split
    next => exact .halt
    next i hi =>
      have hz : (s.inode i).ref = 0 := by simpa using List.find?_some hi
      refine .recycle hl hz (fun j hj => ?_) hr ht
      have hn := List.find?_eq_none.mp hnone j (List.mem_finRange j)
      simp only [decide_eq_true_eq] at hn
      exact hn hj

/-- **Inversion**. -/
theorem step_move {s s' : Sys P} {a : Act P} (h : TableInv s) (hd : Proper s a)
    (hs : step s a = some s') : s.panicked = none ∧ Move s a s' := by
  unfold step at hs
  by_cases hp : s.panicked = none
  case neg =>
    rw [if_pos hp] at hs
    cases hs
  refine ⟨hp, ?_⟩
  rw [if_neg (fun hn => hn hp)] at hs
  have hnone : ∀ {p}, s.pc p = .user → (∀ j, (s.pc p).role j = none) ∧ (s.pc p).table = false := by
    intro p hu
    rw [hu]
    exact ⟨fun _ => rfl, rfl⟩
  cases a with
  | iget p dev inum =>
    dsimp only at hs
    split at hs
    next hc =>
      cases hs
      exact get_move hc.2 (hnone hc.1).1 (hnone hc.1).2 dev inum
    next => cases hs
  -- `idup` is a hit of `iget` that needs no search
  | idup p i =>
    dsimp only at hs
    split at hs
    next hc =>
      have hpos : 0 < (s.inode i).ref := by
        have hd : 1 ≤ s.live i := hd
        have := (h.slot i).count
        omega
      have hm : Move s (.idup p i) ((s.up i).goto p .user) :=
        .hit hc.2 hpos (hnone hc.1).1 (hnone hc.1).2
      have he : (s.up i).goto p .user = s.up i := by
        unfold Sys.goto
        rw [show (s.up i).pc = s.pc from rfl, ← hc.1, Function.update_eq_self]
        rfl
      rw [he] at hm
      cases hs
      exact hm
    next => cases hs
  | ilock p i =>
    dsimp only at hs
    split at hs
    next hu =>
      split at hs
      next =>
        cases hs
        exact .halt
      next =>
        cases hs
        exact .ilock hu
    next => cases hs
  | write p i d =>
    dsimp only at hs
    split at hs
    next hu =>
      cases hs
      exact .write hu
    next => cases hs
  | iupdate p i =>
    dsimp only at hs
    split at hs
    next hu =>
      cases hs
      exact .iupdate hu
    next => cases hs
  | iunlock p i =>
    dsimp only at hs
    split at hs
    next hu =>
      split at hs
      next =>
        cases hs
        exact .halt
      next hl =>
        cases hs
        exact .iunlock hu (by
          by_contra hne
          exact hl (.inl hne))
    next => cases hs
  | iput p i =>
    dsimp only at hs
    split at hs
    next hu =>
      cases hs
      exact .iput hu
    next => cases hs
  | ialloc p dev type =>
    dsimp only at hs
    split at hs
    next hu =>
      cases hs
      exact .ialloc hu
    next => cases hs
  | run p =>
    dsimp only [Sys.run] at hs
    split at hs
    next => cases hs
    next i hi =>
      split at hs
      next hl =>
        cases hs
        exact .acquire hi hl
      next => cases hs
    next i hi =>
      cases hs
      unfold Sys.load
      split
      next hv => exact .cached hi hv
      next =>
        dsimp only
        split
        next => exact .noType hi
        next ht => exact .load hi ht
    next dev type inum hi =>
      split at hs
      next =>
        split at hs
        next ht =>
          cases hs
          exact .claim hi ht
        next =>
          cases hs
          exact .scan hi (.inr rfl)
      next =>
        cases hs
        exact .scan hi (.inl rfl)
    next dev inum hi =>
      split at hs
      next hl =>
        cases hs
        exact get_move hl (by rw [hi]; exact fun _ => rfl) (by rw [hi]; rfl) dev inum
      next => cases hs
    next st i hi => exact .put hi hs

/-! ## The invariant -/

omit [DecidableEq P] in
/-- A step that touches slot `i`, and the disk only where no other slot in use has its
copy from. -/
theorem inv_at {s s' : Sys P} (h : TableInv s) (i : SlotId) (hi : s'.Ok i)
    (hlock : ∀ p, (s'.pc p).table = true ↔ s'.lock = some p)
    (hclaim : ∀ p dev type inum, s'.pc p = .scan dev type inum → type ≠ 0)
    (hkey : 0 < (s'.inode i).ref → ∀ j, j ≠ i → ¬s.Copy j (s'.inode i).dev (s'.inode i).inum)
    (hinode : ∀ j, j ≠ i → s'.inode j = s.inode j ∧ s'.live j = s.live j ∧ s'.dirty j = s.dirty j)
    (hrole : ∀ j, j ≠ i → s'.roles j = s.roles j)
    (hdisk : ∀ j, j ≠ i → s'.onDisk j = s.onDisk j ∨ (s.inode j).ref = 0)
    (hhalt : s'.halted = s.halted ∨ s'.halted = true) : TableInv s' := by
  refine ⟨?_, hlock, hclaim, ?_⟩
  · intro j k hj hk hdev hinum
    by_cases hji : j = i
    · by_cases hki : k = i
      · rw [hji, hki]
      · subst hji
        rw [(hinode k hki).1] at hk hdev hinum
        exact absurd ⟨hk, hdev.symm, hinum.symm⟩ (hkey hj k hki)
    · rw [(hinode j hji).1] at hj hdev hinum
      by_cases hki : k = i
      · subst hki
        exact absurd ⟨hj, hdev, hinum⟩ (hkey hk j hji)
      · rw [(hinode k hki).1] at hk hdev hinum
        exact h.unique j k hj hk hdev hinum
  · intro j
    by_cases hji : j = i
    · rw [hji]
      exact hi
    · obtain ⟨h1, h2, h3⟩ := hinode j hji
      have hok : SlotOk (s.inode j) (s'.onDisk j) (s.live j) (s.dirty j) s.halted (s.roles j) := by
        rcases hdisk j hji with he | hr
        · rw [he]
          exact h.slot j
        · exact (h.slot j).unused hr _
      show SlotOk (s'.inode j) (s'.onDisk j) (s'.live j) (s'.dirty j) s'.halted (s'.roles j)
      rw [h1, h2, h3, hrole j hji]
      rcases hhalt with he | he
      · rw [he]
        exact hok
      · rw [he]
        exact hok.halt

omit [DecidableEq P] in
/-- The slot is the copy of what it was before, so no other is. -/
theorem TableInv.key {s : Sys P} (h : TableInv s) {i : SlotId} (hr : 0 < (s.inode i).ref) :
    ∀ j, j ≠ i → ¬s.Copy j (s.inode i).dev (s.inode i).inum :=
  fun j hj hc => hj (h.unique j i hc.1 hr hc.2.1 hc.2.2)

section

omit [Fintype P] [DecidableEq P]

theorem setInode_self (s : Sys P) (i : SlotId) (x : Inode P) : (s.setInode i x).inode i = x :=
  Function.update_self _ _ _

theorem setInode_ne (s : Sys P) {i j : SlotId} (hj : j ≠ i) (x : Inode P) :
    (s.setInode i x).inode j = s.inode j := Function.update_of_ne hj _ _

theorem setLive_ne (s : Sys P) {i j : SlotId} (hj : j ≠ i) (n : Nat) :
    (s.setLive i n).live j = s.live j := Function.update_of_ne hj _ _

theorem setDirty_ne (s : Sys P) {i j : SlotId} (hj : j ≠ i) (b : Bool) :
    (s.setDirty i b).dirty j = s.dirty j := Function.update_of_ne hj _ _

/-- Writing one inode on disk. -/
theorem setDinode_self (s : Sys P) (dev inum : Nat) (d : Dinode) :
    (s.setDinode dev inum d).dinode dev inum = d := by
  unfold Sys.setDinode
  dsimp only
  rw [Function.update_self, Function.update_self]

theorem setDinode_ne (s : Sys P) {dev inum dev' inum' : Nat} (d : Dinode)
    (h : ¬(dev' = dev ∧ inum' = inum)) :
    (s.setDinode dev inum d).dinode dev' inum' = s.dinode dev' inum' := by
  unfold Sys.setDinode
  dsimp only
  by_cases hd : dev' = dev
  · rw [hd, Function.update_self]
    exact Function.update_of_ne (fun he => h ⟨hd, he⟩) _ _
  · rw [Function.update_of_ne hd]

end

section

omit [DecidableEq P]

/-- Writing the inode that slot `i` is the copy of leaves alone what the others are. -/
theorem TableInv.disk_ne {s : Sys P} (h : TableInv s) {i : SlotId} (hr : 0 < (s.inode i).ref)
    (d : Dinode) (j : SlotId) (hj : j ≠ i) :
    (s.setDinode (s.inode i).dev (s.inode i).inum d).dinode (s.inode j).dev (s.inode j).inum
      = s.onDisk j ∨ (s.inode j).ref = 0 := by
  rcases Nat.eq_zero_or_pos (s.inode j).ref with h0 | h0
  · exact .inr h0
  · exact .inl (setDinode_ne s d fun he => h.key hr j hj ⟨h0, he⟩)

/-- A process in `iput` of slot `i`, and somebody who uses it, have references. -/
theorem TableInv.put_pos {s : Sys P} (h : TableInv s) {p : P} {st : Put} {i : SlotId}
    (hp : s.pc p = .put st i) : 0 < (s.inode i).ref := by
  have hr : s.roles i p = some (.put st) := by
    show (s.pc p).role i = _
    rw [hp]
    exact role_self st i
  have := one_le_putting hr
  have := (h.slot i).count
  omega

theorem TableInv.use_pos {s : Sys P} (h : TableInv s) {p : P} {i : SlotId}
    (hp : Uses (s.inode i) (s.roles i) p) : 0 < (s.inode i).ref := by
  have := (h.slot i).users p hp
  have := (h.slot i).count
  omega

end

section

omit [Fintype P] [DecidableEq P]

theorem setInode_same (s : Sys P) (i : SlotId) : s.setInode i (s.inode i) = s := by
  unfold Sys.setInode
  rw [Function.update_eq_self]

theorem setLive_same {s : Sys P} {i : SlotId} {n : Nat} (h : s.live i = n) : s.setLive i n = s := by
  unfold Sys.setLive
  rw [← h, Function.update_eq_self]

theorem setDirty_same {s : Sys P} {i : SlotId} {b : Bool} (h : s.dirty i = b) :
    s.setDirty i b = s := by
  unfold Sys.setDirty
  rw [← h, Function.update_eq_self]

end

omit [Fintype P] in
theorem goto_same {s : Sys P} {p : P} {c : Pc} (h : s.pc p = c) : s.goto p c = s := by
  unfold Sys.goto
  rw [← h, Function.update_eq_self]

/-- A step of process `p` that touches slot `i`, and not the disk. -/
theorem inv_slot {s : Sys P} (h : TableInv s) {p : P} {i : SlotId} {c : Pc} {x : Inode P}
    {n : Nat} {b : Bool} {l : Option P} (hc : ∀ j, j ≠ i → c.role j = (s.pc p).role j)
    (hs : ∀ dev type inum, c = .scan dev type inum → type ≠ 0)
    (hkey : 0 < x.ref → ∀ j, j ≠ i → ¬s.Copy j x.dev x.inum)
    (hlock : ∀ q, (Function.update s.pc p c q).table = true ↔ l = some q)
    (hok : SlotOk x (s.dinode x.dev x.inum) n b s.halted
      (Function.update (s.roles i) p (c.role i))) :
    TableInv ({ ((s.setInode i x).setLive i n).setDirty i b with lock := l }.goto p c) := by
  refine inv_at h i ?_ hlock (claim_goto h hs) ?_ ?_ ?_ ?_ (.inl rfl)
  · show SlotOk ((s.setInode i x).inode i)
      (s.dinode ((s.setInode i x).inode i).dev ((s.setInode i x).inode i).inum)
      ((s.setLive i n).live i) ((s.setDirty i b).dirty i) s.halted
      fun q => (Function.update s.pc p c q).role i
    rw [roles_goto, setInode_self, show (s.setLive i n).live i = n from Function.update_self _ _ _,
      show (s.setDirty i b).dirty i = b from Function.update_self _ _ _]
    exact hok
  · show 0 < ((s.setInode i x).inode i).ref →
      ∀ j, j ≠ i → ¬s.Copy j ((s.setInode i x).inode i).dev ((s.setInode i x).inode i).inum
    rw [setInode_self]
    exact hkey
  · exact fun j hj => ⟨setInode_ne s hj x, setLive_ne s hj n, setDirty_ne s hj b⟩
  · exact fun j hj => roles_keep (hc j hj)
  · intro j hj
    left
    show s.dinode ((s.setInode i x).inode j).dev ((s.setInode i x).inode j).inum = _
    rw [setInode_ne s hj]
    rfl

/-- A step of process `p` that touches the fields of a slot in use. -/
theorem inv_inode {s : Sys P} (h : TableInv s) {p : P} {i : SlotId} {c : Pc} {x : Inode P}
    {b : Bool} {l : Option P} (hpos : 0 < (s.inode i).ref)
    (hc : ∀ j, j ≠ i → c.role j = (s.pc p).role j)
    (hs : ∀ dev type inum, c = .scan dev type inum → type ≠ 0)
    (hx : x.dev = (s.inode i).dev ∧ x.inum = (s.inode i).inum)
    (hlock : ∀ q, (Function.update s.pc p c q).table = true ↔ l = some q)
    (hok : SlotOk x (s.onDisk i) (s.live i) b s.halted
      (Function.update (s.roles i) p (c.role i))) :
    TableInv ({ (s.setInode i x).setDirty i b with lock := l }.goto p c) := by
  have hi := inv_slot h (n := s.live i) hc hs (fun _ => by rw [hx.1, hx.2]; exact h.key hpos) hlock
    (by rw [hx.1, hx.2]; exact hok)
  rw [setLive_same] at hi
  · exact hi
  · rfl

/-- A statement of `iput` that touches the slot only. -/
theorem inv_put_slot {s : Sys P} (h : TableInv s) {p : P} {st : Put} {i : SlotId} {c : Pc}
    (hp : s.pc p = .put st i) (hc : ∀ j, j ≠ i → c.role j = none)
    (hs : ∀ dev type inum, c ≠ .scan dev type inum) {x : Inode P} {b : Bool} {l : Option P}
    (hx : x.dev = (s.inode i).dev ∧ x.inum = (s.inode i).inum)
    (hlock : ∀ q, (Function.update s.pc p c q).table = true ↔ l = some q)
    (hok : SlotOk x (s.onDisk i) (s.live i) b s.halted
      (Function.update (s.roles i) p (c.role i))) :
    TableInv ({ (s.setInode i x).setDirty i b with lock := l }.goto p c) := by
  refine inv_inode h (h.put_pos hp) (fun j hj => ?_) (not_scan hs) hx hlock hok
  rw [hc j hj, hp, role_of_ne hj]

/-- `iupdate`, by a process that goes to `c`. -/
theorem inv_update {s : Sys P} (h : TableInv s) {p : P} {i : SlotId} {c : Pc}
    (hpos : 0 < (s.inode i).ref) (hc : ∀ j, j ≠ i → c.role j = (s.pc p).role j)
    (ht : c.table = (s.pc p).table) (hs : ∀ dev type inum, c = .scan dev type inum → type ≠ 0)
    (hok : SlotOk (s.inode i) (s.inode i).data (s.live i) false s.halted
      (Function.update (s.roles i) p (c.role i))) : TableInv ((s.update i).goto p c) := by
  refine inv_at h i ?_ (h.lock_same ht) (claim_goto h hs) (fun _ => h.key hpos) ?_ ?_ ?_ (.inl rfl)
  · show SlotOk (s.inode i) ((s.setDinode (s.inode i).dev (s.inode i).inum (s.inode i).data).dinode
      (s.inode i).dev (s.inode i).inum) (s.live i) ((s.update i).dirty i)
      s.halted fun q => (Function.update s.pc p c q).role i
    rw [roles_goto, setDinode_self, show (s.update i).dirty i =
      false from Function.update_self _ _ _]
    exact hok
  · exact fun j hj => ⟨rfl, rfl, setDirty_ne _ hj false⟩
  · exact fun j hj => roles_keep (hc j hj)
  · exact fun j hj => h.disk_ne hpos _ j hj

theorem inv_put_inode {s : Sys P} (h : TableInv s) {p : P} {st : Put} {i : SlotId} {c : Pc}
    (hp : s.pc p = .put st i) (hc : ∀ j, j ≠ i → c.role j = none)
    (hs : ∀ dev type inum, c ≠ .scan dev type inum) {x : Inode P} {l : Option P}
    (hx : x.dev = (s.inode i).dev ∧ x.inum = (s.inode i).inum)
    (hlock : ∀ q, (Function.update s.pc p c q).table = true ↔ l = some q)
    (hok : SlotOk x (s.onDisk i) (s.live i) (s.dirty i) s.halted
      (Function.update (s.roles i) p (c.role i))) :
    TableInv ({ s.setInode i x with lock := l }.goto p c) := by
  have hi := inv_put_slot h hp hc hs hx hlock hok
  rw [setDirty_same] at hi
  · exact hi
  · rfl

/-- A statement of `iput` from stage `st` to `st'` that changes nothing of the slot. -/
theorem inv_put_pass {s : Sys P} (h : TableInv s) {p : P} {st st' : Put} {i : SlotId}
    (hp : s.pc p = .put st i) {l : Option P}
    (hlock : ∀ q, (Function.update s.pc p (.put st' i) q).table = true ↔ l = some q)
    (hok : SlotOk (s.inode i) (s.onDisk i) (s.live i) (s.dirty i) s.halted
      (Function.update (s.roles i) p (some (.put st')))) :
    TableInv ({ s with lock := l }.goto p (.put st' i)) := by
  have hi := inv_put_inode h hp (fun j hj => role_of_ne hj) (fun _ _ _ he => Pc.noConfusion he)
    (x := s.inode i) ⟨rfl, rfl⟩ hlock (by rw [role_self]; exact hok)
  rwa [setInode_same] at hi

theorem put_inv {s s' : Sys P} (h : TableInv s) {p : P} {st : Put} {i : SlotId}
    (hp : s.pc p = .put st i) (hs : s.put p i st = some s') : TableInv s' := by
  have hok : SlotOk (s.inode i) (s.onDisk i) (s.live i) (s.dirty i) s.halted (s.roles i) := h.slot i
  have hr : s.roles i p = some (.put st) := by
    show (s.pc p).role i = _
    rw [hp]
    exact role_self st i
  have hstage := hok.stage p st hr
  have htable : (s.pc p).table = st.table := by rw [hp]; rfl
  have hne : ∀ {st' : Put} {j : SlotId}, j ≠ i → (Pc.put st' i).role j = none := fun hj =>
    role_of_ne hj
  have hns : ∀ {st' : Put} dev type inum, Pc.put st' i ≠ .scan dev type inum :=
    fun _ _ _ he => Pc.noConfusion he
  have hself : ∀ {st' : Put} {x : Inode P} {d : Dinode} {b : Bool},
      SlotOk x d (s.live i) b s.halted (Function.update (s.roles i) p (some (.put st'))) →
      SlotOk x d (s.live i) b s.halted
        (Function.update (s.roles i) p ((Pc.put st' i).role i)) := fun hk => by
    rw [role_self]
    exact hk
  -- one case for each statement of `iput`; the tests only narrow down what is known
  cases st with
  | enter =>
    dsimp only [Sys.put] at hs
    split at hs
    next hl =>
      cases hs
      exact inv_put_pass h hp (h.lock_take hl rfl)
        (hok.pass hr rfl trivial (fun he => Put.noConfusion he) fun he => Put.noConfusion he)
    next => cases hs
  | testRef =>
    cases hs
    split
    next h1 =>
      exact inv_put_pass h hp (h.lock_same htable.symm)
        (hok.pass hr rfl h1 (fun he => Put.noConfusion he) fun he => Put.noConfusion he)
    next =>
      exact inv_put_pass h hp (h.lock_same htable.symm)
        (hok.pass hr rfl trivial (fun he => Put.noConfusion he) fun he => Put.noConfusion he)
  | testValid =>
    cases hs
    split
    next hv =>
      exact inv_put_pass h hp (h.lock_same htable.symm)
        (hok.pass hr rfl ⟨hstage, hv⟩ (fun he => Put.noConfusion he) fun he => Put.noConfusion he)
    next =>
      exact inv_put_pass h hp (h.lock_same htable.symm)
        (hok.pass hr rfl trivial (fun he => Put.noConfusion he) fun he => Put.noConfusion he)
  | testNlink =>
    cases hs
    split
    next hn =>
      exact inv_put_pass h hp (h.lock_same htable.symm)
        (hok.pass hr rfl ⟨hstage.1, hstage.2, hn⟩ (fun he => Put.noConfusion he)
          fun he => Put.noConfusion he)
    next =>
      exact inv_put_pass h hp (h.lock_same htable.symm)
        (hok.pass hr rfl trivial (fun he => Put.noConfusion he) fun he => Put.noConfusion he)
  | lock =>
    dsimp only [Sys.put] at hs
    rw [if_pos (hok.lock_free hr)] at hs
    cases hs
    exact inv_put_inode h hp (fun j => hne) hns ⟨rfl, rfl⟩ (h.lock_same htable.symm)
      (hself (hok.putLock hr))
  | release =>
    cases hs
    exact inv_put_pass h hp (h.lock_release htable rfl)
      (hok.pass hr rfl ⟨hstage.2.1, hstage.2.2.1, hstage.2.2.2⟩ (fun he => Put.noConfusion he)
        fun he => Put.noConfusion he)
  | trunc =>
    cases hs
    exact inv_put_slot h hp (fun j => hne) hns ⟨rfl, rfl⟩ (h.lock_same htable.symm)
      (hself (hok.putTrunc hr))
  | truncUpdate =>
    cases hs
    refine inv_update h (h.put_pos hp) (fun j hj => ?_) htable.symm (not_scan hns)
      (hself (hok.putTruncUpdate hr))
    rw [hne hj, hp, hne hj]
  | zero =>
    cases hs
    exact inv_put_slot h hp (fun j => hne) hns ⟨rfl, rfl⟩ (h.lock_same htable.symm)
      (hself (hok.putZero hr))
  | update =>
    cases hs
    refine inv_update h (h.put_pos hp) (fun j hj => ?_) htable.symm (not_scan hns)
      (hself (hok.putUpdate hr))
    rw [hne hj, hp, hne hj]
  | invalid =>
    cases hs
    exact inv_put_inode h hp (fun j => hne) hns ⟨rfl, rfl⟩ (h.lock_same htable.symm)
      (hself (hok.putInvalid hr))
  | unlock =>
    cases hs
    exact inv_put_inode h hp (fun j => hne) hns ⟨rfl, rfl⟩ (h.lock_same htable.symm)
      (hself (hok.putUnlock hr))
  | again =>
    dsimp only [Sys.put] at hs
    split at hs
    next hl =>
      cases hs
      exact inv_put_pass h hp (h.lock_take hl rfl)
        (hok.pass hr rfl trivial (fun he => Put.noConfusion he) fun he => Put.noConfusion he)
    next => cases hs
  | drop =>
    cases hs
    exact inv_put_inode h hp (fun _ _ => rfl) (fun _ _ _ he => Pc.noConfusion he) ⟨rfl, rfl⟩
      (h.lock_release htable rfl) (hok.putDrop hr (h.otherTable (htable.trans rfl) i))

/-- A process goes somewhere that is about no slot it was not about. -/
theorem inv_goto {s : Sys P} (h : TableInv s) {p : P} {c : Pc} (i : SlotId)
    (hc : ∀ j, j ≠ i → c.role j = (s.pc p).role j) (ht : c.table = (s.pc p).table)
    (hs : ∀ dev type inum, c = .scan dev type inum → type ≠ 0)
    (hok : SlotOk (s.inode i) (s.onDisk i) (s.live i) (s.dirty i) s.halted
      (Function.update (s.roles i) p (c.role i))) : TableInv (s.goto p c) :=
  inv_at h i (by
      show SlotOk (s.inode i) (s.onDisk i) (s.live i) (s.dirty i) s.halted
        fun q => (Function.update s.pc p c q).role i
      rw [roles_goto]
      exact hok)
    (h.lock_same ht) (claim_goto h hs) h.key (fun _ _ => ⟨rfl, rfl, rfl⟩)
    (fun j hj => roles_keep (hc j hj)) (fun _ _ => .inl rfl) (.inl rfl)

/-- A process that is about no slot goes somewhere that is about none. -/
theorem inv_idle {s : Sys P} (h : TableInv s) {p : P} {c : Pc}
    (hp : ∀ j, (s.pc p).role j = none) (hc : ∀ j, c.role j = none)
    (ht : c.table = (s.pc p).table)
    (hs : ∀ dev type inum, c = .scan dev type inum → type ≠ 0) : TableInv (s.goto p c) := by
  have i : SlotId := ⟨0, by decide⟩
  refine inv_goto h i (fun j _ => (hc j).trans (hp j).symm) ht hs ?_
  rw [hc i, ← hp i, show (s.pc p).role i = s.roles i p from rfl, Function.update_eq_self]
  exact h.slot i

omit [DecidableEq P] in
theorem inv_halt {s : Sys P} (h : TableInv s) (e : Panic) : TableInv (s.panic e) :=
  ⟨h.unique, h.lock, h.claim, fun i => (h.slot i).halt⟩

theorem role_acquire {i j : SlotId} (hj : j ≠ i) : (Pc.acquire i).role j = none := if_neg hj.symm

theorem role_read {i j : SlotId} (hj : j ≠ i) : (Pc.read i).role j = none := if_neg hj.symm

omit [DecidableEq P] in
/-- The panic of `ilock`: the inode was read, and it is free. -/
theorem inv_noType {s : Sys P} (h : TableInv s) {p : P} {i : SlotId} (hp : s.pc p = .read i) :
    TableInv ((s.setInode i { s.inode i with
      data := s.onDisk i, valid := true }).panic .ilockNoType) := by
  have hr : s.roles i p = some .read := by
    show (s.pc p).role i = _
    rw [hp]
    exact if_pos rfl
  have hok : SlotOk ((s.setInode i { s.inode i with data := s.onDisk i, valid := true }).inode i)
      (s.onDisk i) (s.live i) (s.dirty i) true (s.roles i) := by
    rw [setInode_self]
    exact (h.slot i).load hr fun he => Bool.noConfusion he
  have hkeep : ∀ j, j ≠ i → (s.setInode i { s.inode i with
      data := s.onDisk i, valid := true }).inode j = s.inode j := fun j hj => setInode_ne s hj _
  refine inv_at h i ?_ h.lock h.claim ?_ (fun j hj => ⟨hkeep j hj, rfl, rfl⟩) (fun _ _ => rfl) ?_
    (.inr rfl)
  · unfold Sys.Ok Sys.onDisk
    show SlotOk ((s.setInode i _).inode i) (s.dinode ((s.setInode i _).inode i).dev
      ((s.setInode i _).inode i).inum) _ _ _ _
    rw [setInode_self] at hok ⊢
    exact hok
  · intro _
    show ∀ j, j ≠ i → ¬s.Copy j ((s.setInode i _).inode i).dev ((s.setInode i _).inode i).inum
    rw [setInode_self]
    exact h.key (h.use_pos (.inr (.inl hr)))
  · intro j hj
    left
    show s.dinode ((s.setInode i _).inode j).dev ((s.setInode i _).inode j).inum = _
    rw [setInode_ne s hj]
    rfl

/-- `ialloc` takes an inode that is free on the disk. -/
theorem inv_claim {s : Sys P} (h : TableInv s) (hhalt : s.halted = false) {p : P}
    {dev : Nat} {type : Int} {inum : Nat} (hp : s.pc p = .scan dev type inum)
    (ht : (s.dinode dev inum).type = 0) :
    TableInv ((s.setDinode dev inum { Dinode.zero with type := type }).goto p
      (.claimed dev inum)) := by
  have htype := h.claim p _ _ _ hp
  have hg : TableInv (s.goto p (.claimed dev inum)) :=
    inv_idle h (by rw [hp]; exact fun _ => rfl) (fun _ => rfl) (by rw [hp]; rfl)
      (not_scan fun _ _ _ he => Pc.noConfusion he)
  refine ⟨hg.unique, hg.lock, hg.claim, fun i => ?_⟩
  have hok := hg.slot i
  show SlotOk (s.inode i) ((s.setDinode dev inum _).dinode (s.inode i).dev (s.inode i).inum)
    (s.live i) (s.dirty i) s.halted ((s.goto p (.claimed dev inum)).roles i)
  by_cases hi : (s.inode i).dev = dev ∧ (s.inode i).inum = inum
  · rw [hi.1, hi.2, setDinode_self]
    refine SlotOk.claim hok hhalt ?_ htype
    show (s.dinode (s.inode i).dev (s.inode i).inum).type = 0
    rw [hi.1, hi.2]
    exact ht
  · rw [setDinode_ne s _ hi]
    exact hok

theorem Move.inv {s s' : Sys P} {a : Act P} (h : TableInv s) (hd : Proper s a)
    (hn : s.panicked = none) (hm : Move s a s') : TableInv s' := by
  have hhalt : s.halted = false := by
    unfold Sys.halted
    rw [hn]
    rfl
  have hrole : ∀ {p c i}, s.pc p = c → s.roles i p = c.role i := fun hp => by rw [← hp]; rfl
  cases hm with
  | halt => exact inv_halt h _
  -- one more reference to the same inode
  | @hit _ p i hl hpos hr ht =>
    have hi := inv_slot h (i := i) (c := .user) (b := s.dirty i) (l := s.lock)
      (x := { s.inode i with ref := (s.inode i).ref + 1 })
      (fun j _ => (hr j).symm) (not_scan fun _ _ _ he => Pc.noConfusion he) (fun _ => h.key hpos)
      (h.lock_same ht.symm) (by
        rw [show (Pc.user).role i = s.roles i p from (hr i).symm, Function.update_eq_self]
        exact (h.slot i).up hpos (h.noTable hl i))
    rw [setDirty_same] at hi
    · exact hi
    · rfl
  -- the slot had no reference, and no other has the new inode
  | @recycle _ p i dev inum hl hz hno hr ht =>
    have hi := inv_slot h (i := i) (c := .user) (b := s.dirty i) (l := s.lock)
      (fun j _ => (hr j).symm) (not_scan fun _ _ _ he => Pc.noConfusion he) (fun _ j _ => hno j)
      (h.lock_same ht.symm) (by
        rw [show (Pc.user).role i = s.roles i p from (hr i).symm, Function.update_eq_self]
        exact (h.slot i).recycle hz dev inum _)
    rw [setDirty_same] at hi
    · exact hi
    · rfl
  | @ilock p i hp =>
    refine inv_goto h i (fun j hj => ?_) (by rw [hp]; rfl)
      (not_scan fun _ _ _ he => Pc.noConfusion he) ?_
    · rw [hp, role_acquire hj]
      rfl
    · have hr : s.roles i p = none := hrole hp
      rw [show (Pc.acquire i).role i = some .acquire from if_pos rfl]
      refine (h.slot i).change (by rw [hr]; rfl) rfl (fun _ => hd)
        (fun he => by cases he) fun hl _ => (h.slot i).held p hl ?_ ?_
      · rw [hr]
        exact (Option.some_ne_none _).symm
      · intro st hst
        rw [hr] at hst
        cases hst
  | @acquire p i hp hl =>
    have hr : s.roles i p = some .acquire := (hrole hp).trans (if_pos rfl)
    have hi := inv_inode h (i := i) (c := .read i) (b := s.dirty i) (l := s.lock)
      (x := { s.inode i with locked := some p }) (h.use_pos (.inl hr))
      (fun j hj => by rw [hp, role_acquire hj, role_read hj])
      (not_scan fun _ _ _ he => Pc.noConfusion he) ⟨rfl, rfl⟩ (h.lock_same (by rw [hp]; rfl)) (by
        rw [show (Pc.read i).role i = some .read from if_pos rfl]
        exact (h.slot i).acquire hr hl)
    rw [setDirty_same] at hi
    · exact hi
    · rfl
  | @cached p i hp hv =>
    have hr : s.roles i p = some .read := (hrole hp).trans (if_pos rfl)
    refine inv_goto h i (fun j hj => ?_) (by rw [hp]; rfl)
      (not_scan fun _ _ _ he => Pc.noConfusion he) ?_
    · rw [hp, role_read hj]
      rfl
    · exact (h.slot i).change (by rw [hr]; rfl) rfl
        (fun _ => (h.slot i).users p (.inr (.inl hr)))
        (fun he => absurd he.symm (Option.some_ne_none _)) fun _ _ => hv
  | @load p i hp ht =>
    have hr : s.roles i p = some .read := (hrole hp).trans (if_pos rfl)
    have hok := (h.slot i).load hr (fun _ : s.halted = false => ht)
    have hi := inv_inode h (i := i) (c := .user) (b := s.dirty i) (l := s.lock)
      (x := { s.inode i with data := s.onDisk i, valid := true }) (h.use_pos (.inr (.inl hr)))
      (fun j hj => by rw [hp, role_read hj]; rfl)
      (not_scan fun _ _ _ he => Pc.noConfusion he) ⟨rfl, rfl⟩ (h.lock_same (by rw [hp]; rfl))
      (hok.change (by rw [hr]; rfl) rfl (fun _ => (h.slot i).users p (.inr (.inl hr)))
        (fun he => absurd he.symm (Option.some_ne_none _)) fun _ _ => rfl)
    rw [setDirty_same] at hi
    · exact hi
    · rfl
  | @noType p i hp => exact inv_noType h hp
  | @write p i d hp =>
    have hr : s.roles i p = none := hrole hp
    have hi := inv_inode h (i := i) (c := .user) (b := true) (l := s.lock)
      (x := { s.inode i with data := { d with type := (s.inode i).data.type } })
      (h.use_pos (.inr (.inr ⟨hd, fun st hst => by rw [hr] at hst; cases hst⟩)))
      (fun j _ => by rw [hp]) (not_scan fun _ _ _ he => Pc.noConfusion he) ⟨rfl, rfl⟩
      (h.lock_same (by rw [hp])) (by
        rw [show (Pc.user).role i = s.roles i p from hr.symm, Function.update_eq_self]
        exact (h.slot i).write hr hd d)
    rw [goto_same] at hi
    · exact hi
    · exact hp
  | @iupdate p i hp =>
    have hr : s.roles i p = none := hrole hp
    have hi := inv_update h (i := i) (p := p) (c := .user)
      (h.use_pos (.inr (.inr ⟨hd, fun st hst => by rw [hr] at hst; cases hst⟩)))
      (fun j _ => by rw [hp]) (by rw [hp]) (not_scan fun _ _ _ he => Pc.noConfusion he) (by
        rw [show (Pc.user).role i = s.roles i p from hr.symm, Function.update_eq_self]
        exact (h.slot i).update hr hd)
    rw [goto_same] at hi
    · exact hi
    · exact hp
  | @iunlock p i hp hl =>
    have hr : s.roles i p = none := hrole hp
    have hi := inv_inode h (i := i) (c := .user) (b := s.dirty i) (l := s.lock)
      (x := { s.inode i with locked := none })
      (h.use_pos (.inr (.inr ⟨hl, fun st hst => by rw [hr] at hst; cases hst⟩)))
      (fun j _ => by rw [hp]) (not_scan fun _ _ _ he => Pc.noConfusion he) ⟨rfl, rfl⟩
      (h.lock_same (by rw [hp])) (by
        rw [show (Pc.user).role i = s.roles i p from hr.symm, Function.update_eq_self]
        exact (h.slot i).unlock hr hl hd)
    rw [setDirty_same, goto_same] at hi
    · exact hi
    · exact hp
    · rfl
  | @iput p i hp =>
    have hr : s.roles i p = none := hrole hp
    have hpos : 0 < (s.inode i).ref := by
      have hlive := hd.1
      have := (h.slot i).count
      omega
    have hi := inv_slot h (i := i) (c := .put .enter i) (b := s.dirty i) (l := s.lock)
      (x := s.inode i) (fun j hj => by rw [hp, role_of_ne hj]; rfl)
      (not_scan fun _ _ _ he => Pc.noConfusion he) (fun _ => h.key hpos)
      (h.lock_same (by rw [hp]; rfl)) (by
        rw [role_self]
        exact (h.slot i).iput hr hd.1 hd.2)
    rw [setInode_same, setDirty_same] at hi
    · exact hi
    · rfl
  | @ialloc p dev type hp =>
    refine inv_idle h (by rw [hp]; exact fun _ => rfl) (fun _ => rfl) (by rw [hp]; rfl) ?_
    intro dev' type' inum' he
    cases he
    exact hd
  | @scan p dev type inum c hp hc =>
    refine inv_idle h (by rw [hp]; exact fun _ => rfl) ?_ ?_ ?_
    · rcases hc with rfl | rfl <;> exact fun _ => rfl
    · rw [hp]
      rcases hc with rfl | rfl <;> rfl
    · intro dev' type' inum' he
      rcases hc with rfl | rfl
      · cases he
      · cases he
        exact h.claim p _ _ _ hp
  | @claim p dev type inum hp ht => exact inv_claim h hhalt hp ht
  | put hp hs => exact put_inv h hp hs

end Xv6.Itable
