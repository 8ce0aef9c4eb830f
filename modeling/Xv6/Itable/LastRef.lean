import Xv6.Itable.Table

/-!
# The last reference

`iput` decides whether to free an inode when it has the table's lock the first time,
and drops its reference when it has it the second time. In between the inode is free
on disk and may be allocated again, to the same slot.

> A step that takes `ref` to 0 leaves no valid inode without links behind, provided
> that no `iput` finds the references other than its own all in the hands of `iput`s
> that have freed the inode already (`Overtaken`).

Such an `iput` does not free, for `ref` is not 1, and the one that has freed does not
look again.
-/

namespace Xv6.Itable

open Lib

variable {P : Type} [Fintype P] [DecidableEq P]

omit [DecidableEq P] in
theorem boot_inv {s : Sys P} (h : Boot s) : TableInv s := by
  have hrole : ∀ i, s.roles i = fun _ => none := by
    intro i
    funext p
    show (s.pc p).role i = none
    rw [h.pc p]
    rfl
  refine ⟨?_, ?_, ?_, ?_⟩
  · intro i j hi
    rw [h.ref i] at hi
    omega
  · intro p
    rw [h.pc p, h.lock]
    exact ⟨fun he => (Bool.false_ne_true he).elim, fun he => absurd he.symm (Option.some_ne_none p)⟩
  · intro p dev type inum hp
    rw [h.pc p] at hp
    cases hp
  · intro i
    refine ⟨?_, ?_, ?_, ?_, ?_, fun _ => h.dirty i, ?_, ?_, ?_⟩
    · rw [h.ref i, h.live i, hrole i]
      show 0 = 0 + ∑ _p : P, 0
      rw [Finset.sum_const_zero, Nat.add_zero]
    · rintro p (hp | hp | ⟨hp, -⟩)
      · rw [hrole i] at hp
        cases hp
      · rw [hrole i] at hp
        cases hp
      · rw [h.locked i] at hp
        cases hp
    · intro p hp
      rw [hrole i] at hp
      cases hp
    · intro p hp
      rw [h.locked i] at hp
      cases hp
    · intro p st hp
      rw [hrole i] at hp
      cases hp
    · intro h0
      rw [h.ref i] at h0
      omega
    · intro _ h0
      rw [h.ref i] at h0
      omega
    · intro _ h0
      rw [h.ref i] at h0
      omega

theorem reach_inv {s : Sys P} (h : Reach step Proper Boot s) : TableInv s :=
  h.inv (fun _ => boot_inv) fun hi hd hs =>
    (step_move hi hd hs).2.inv hi hd (step_move hi hd hs).1

/-! ## Recycling -/

omit [Fintype P] in
/-- A step changes one slot at most, and only `ref--` takes a reference away. -/
theorem Move.inode {s s' : Sys P} {a : Act P} (hm : Move s a s') :
    s'.inode = s.inode ∨ ∃ i x, s'.inode = Function.update s.inode i x ∧
      ((s.inode i).ref = 0 ∨ (x.dev = (s.inode i).dev ∧ x.inum = (s.inode i).inum)) ∧
      ((s.inode i).ref ≤ x.ref ∨ ∃ p, s.pc p = .put .drop i) := by
  cases hm with
  | recycle _ hz => exact .inr ⟨_, _, rfl, .inl hz, .inl (hz ▸ Nat.zero_le _)⟩
  | hit => exact .inr ⟨_, _, rfl, .inr ⟨rfl, rfl⟩, .inl (Nat.le_succ _)⟩
  | acquire | load | noType | write | iunlock =>
    exact .inr ⟨_, _, rfl, .inr ⟨rfl, rfl⟩, .inl (Nat.le_refl _)⟩
  | halt | ilock | cached | iupdate | iput | ialloc | scan | claim => exact .inl rfl
  | @put p st i s' hp hs =>
    cases st with
    | enter | again =>
      dsimp only [Sys.put] at hs
      split at hs
      · cases hs
        exact .inl rfl
      · cases hs
    | lock =>
      dsimp only [Sys.put] at hs
      split at hs
      · cases hs
        exact .inr ⟨_, _, rfl, .inr ⟨rfl, rfl⟩, .inl (Nat.le_refl _)⟩
      · cases hs
        exact .inl rfl
    | testRef | testValid | testNlink | release | truncUpdate | update =>
      cases hs
      exact .inl rfl
    | trunc | zero | invalid | unlock =>
      cases hs
      exact .inr ⟨_, _, rfl, .inr ⟨rfl, rfl⟩, .inl (Nat.le_refl _)⟩
    | drop =>
      cases hs
      exact .inr ⟨_, _, rfl, .inr ⟨rfl, rfl⟩, .inr ⟨p, hp⟩⟩

omit [Fintype P] in
/-- A slot becomes the copy of another inode only with `ref` 0. -/
theorem recycled {s s' : Sys P} {a : Act P} (hm : Move s a s') (j : SlotId)
    (hr : (s.inode j).ref ≠ 0) :
    (s'.inode j).dev = (s.inode j).dev ∧ (s'.inode j).inum = (s.inode j).inum := by
  rcases hm.inode with he | ⟨i, x, he, hx, -⟩
  · rw [he]
    exact ⟨rfl, rfl⟩
  · rw [he]
    by_cases hj : j = i
    · subst hj
      rw [Function.update_self]
      exact hx.resolve_left hr
    · rw [Function.update_of_ne hj]
      exact ⟨rfl, rfl⟩

/-! ## Freeing -/

omit [Fintype P] [DecidableEq P] in
/-- Writing the copy in slot `i` to disk, and what type comes of it. -/
theorem type_update {s : Sys P} {i : SlotId} {dev inum : Nat}
    (h0 : (s.dinode dev inum).type ≠ 0)
    (h1 : ((s.setDinode (s.inode i).dev (s.inode i).inum (s.inode i).data).dinode dev inum).type
      = 0) :
    (s.inode i).dev = dev ∧ (s.inode i).inum = inum ∧ (s.inode i).data.type = 0 := by
  by_cases hk : dev = (s.inode i).dev ∧ inum = (s.inode i).inum
  · rw [hk.1, hk.2, setDinode_self] at h1
    exact ⟨hk.1.symm, hk.2.symm, h1⟩
  · rw [setDinode_ne s _ hk] at h1
    exact absurd h1 h0

omit [DecidableEq P] in
/-- The type of an inode that is changed under the sleep-lock is not zero. -/
theorem SlotOk.used {x : Inode P} {d : Dinode} {live : Nat} {dirty : Bool} {role : P → Option Role}
    (h : SlotOk x d live dirty false role) {p : P} (hp : role p = none) (hl : x.locked = some p)
    (hr : 0 < x.ref) : x.data.type ≠ 0 := by
  have hv : x.valid = true := by
    refine h.held p hl ?_ fun st hst => ?_
    · rw [hp]
      exact (Option.some_ne_none _).symm
    · rw [hp] at hst
      cases hst
  have hno : ∀ {st : Put} (q : P), st.locks = true → role q ≠ some (.put st) := by
    intro st q hst hq
    obtain rfl := h.locker hl hq hst
    rw [hp] at hq
    cases hq
  exact h.inMem rfl hr hv fun q => ⟨hno q rfl, hno q rfl⟩

/-- The type of an inode on disk is zeroed by `iput`, and by nothing else. -/
theorem freed {s s' : Sys P} {a : Act P} (h : TableInv s) (hd : Proper s a)
    (hn : s.panicked = none) (hm : Move s a s') {dev inum : Nat}
    (h0 : (s.dinode dev inum).type ≠ 0) (h1 : (s'.dinode dev inum).type = 0) :
    ∃ p i, a = .run p ∧ s.pc p = .put .update i ∧ (s.inode i).dev = dev ∧
      (s.inode i).inum = inum := by
  have hhalt : s.halted = false := by
    unfold Sys.halted
    rw [hn]
    rfl
  have hok : ∀ i, SlotOk (s.inode i) (s.onDisk i) (s.live i) (s.dirty i) false (s.roles i) :=
    fun i => hhalt ▸ h.slot i
  cases hm with
  | @iupdate p i hp =>
    obtain ⟨-, -, ht⟩ := type_update h0 h1
    have hr : s.roles i p = none := by
      show (s.pc p).role i = none
      rw [hp]
      rfl
    have huse : Uses (s.inode i) (s.roles i) p :=
      .inr (.inr ⟨hd, fun st hst => by rw [hr] at hst; cases hst⟩)
    exact absurd ht ((hok i).used hr hd (h.use_pos huse))
  | @claim p d type n hp ht =>
    by_cases hk : dev = d ∧ inum = n
    · rw [hk.1, hk.2] at h0
      exact absurd ht h0
    · have he := setDinode_ne s { Dinode.zero with type := type } hk
      exact absurd (show (s.dinode dev inum).type = 0 by rw [← he]; exact h1) h0
  | @put p st i s' hp hs =>
    have hr : s.roles i p = some (.put st) := by
      show (s.pc p).role i = _
      rw [hp]
      exact role_self st i
    cases st with
    | update =>
      cases hs
      obtain ⟨hdev, hinum, -⟩ := type_update h0 h1
      exact ⟨p, i, rfl, hp, hdev, hinum⟩
    | truncUpdate =>
      cases hs
      obtain ⟨-, -, ht⟩ := type_update h0 h1
      have hv := ((hok i).stage p _ hr).1
      refine absurd ht ((hok i).inMem rfl (h.put_pos hp) hv fun q => ⟨?_, ?_⟩)
      · exact (hok i).none_else hr rfl rfl (by decide) q
      · exact (hok i).none_else hr rfl rfl (by decide) q
    | enter | lock | again =>
      dsimp only [Sys.put] at hs
      split at hs <;> cases hs
      all_goals exact absurd h1 h0
    | testRef | testValid | testNlink | release | trunc | zero | invalid | unlock | drop =>
      cases hs
      exact absurd h1 h0
  | _ => exact absurd h1 h0

/-- What is known when `iput` zeroes it: the inode is valid and has no links, and its
content is gone, in memory and on disk. -/
theorem freed_empty {s s' : Sys P} {p : P} {i : SlotId} (h : TableInv s) (hn : s.panicked = none)
    (hp : s.pc p = .put .update i) (hs : step s (.run p) = some s') :
    (s.inode i).valid = true ∧ (s.inode i).data.nlink = 0 ∧ (s.inode i).data.Empty ∧
      (s.onDisk i).Empty ∧ (s.onDisk i).type ≠ 0 ∧ (s'.onDisk i).type = 0 := by
  have hhalt : s.halted = false := by
    unfold Sys.halted
    rw [hn]
    rfl
  have hr : s.roles i p = some (.put .update) := by
    show (s.pc p).role i = _
    rw [hp]
    exact role_self _ i
  obtain ⟨hv, hl, -, he, hd, ht⟩ := (h.slot i).stage p _ hr
  refine ⟨hv, hl, he, hd, ?_, ?_⟩
  · exact (h.slot i).onDisk hhalt (h.put_pos hp) hv ((h.slot i).none_else hr rfl rfl (by decide))
  · unfold step at hs
    rw [if_neg (fun hne => hne hn)] at hs
    dsimp only [Sys.run] at hs
    rw [hp] at hs
    cases hs
    show ((s.setDinode _ _ _).dinode (s.inode i).dev (s.inode i).inum).type = 0
    rw [setDinode_self]
    exact ht

/-! ## The last reference -/

/-- `iput` is past `valid = 0`, or does not free. -/
def Put.past : Put → Bool
  | .unlock | .again | .drop => true
  | _ => false

/-- The process is at the test of `ref` for an inode that is valid and has no links,
with all references but its own in the hands of `iput`s past `valid = 0`. -/
def Overtaken (s : Sys P) : Act P → Prop
  | .run p => ∃ i, s.pc p = .put .testRef i ∧ (s.inode i).ref ≠ 1 ∧ (s.inode i).valid = true ∧
      (s.inode i).data.nlink = 0 ∧ s.live i = 0 ∧
      ∀ q, q ≠ p → ∀ st, (s.pc q).role i = some (.put st) → st.past = true
  | _ => False

/-- Somebody will free slot `i`, or the reference that is left is not being put. -/
def Due (s : Sys P) (i : SlotId) : Prop :=
  0 < (s.inode i).ref → (s.inode i).valid = true → (s.inode i).data.nlink = 0 →
    1 ≤ s.live i ∨ ∃ p st, s.pc p = .put st i ∧ st.past = false

omit [Fintype P] in
/-- A process that is in no `iput` before and after leaves the others there. -/
theorem Due.goto {s s' : Sys P} {i : SlotId} (h : Due s i) {p : P} {c : Pc}
    (hpc : s'.pc = Function.update s.pc p c)
    (hp : ∀ st, s.pc p = .put st i → st.past = false → ∃ st', c = .put st' i ∧ st'.past = false)
    (hx : 0 < (s'.inode i).ref → (s'.inode i).valid = true → (s'.inode i).data.nlink = 0 →
      0 < (s.inode i).ref ∧ (s.inode i).valid = true ∧ (s.inode i).data.nlink = 0)
    (hl : s.live i ≤ s'.live i) : Due s' i := by
  intro h1 h2 h3
  obtain ⟨h1, h2, h3⟩ := hx h1 h2 h3
  rcases h h1 h2 h3 with hlive | ⟨q, st, hq, hst⟩
  · exact .inl (Nat.le_trans hlive hl)
  · right
    by_cases hqp : q = p
    · subst hqp
      obtain ⟨st', hc, hst'⟩ := hp st hq hst
      exact ⟨q, st', by rw [hpc, Function.update_self]; exact hc, hst'⟩
    · exact ⟨q, st, by rw [hpc, Function.update_of_ne hqp]; exact hq, hst⟩

omit [Fintype P] [DecidableEq P] in
/-- What `Due` asks of a slot, after slot `i` became `x`. -/
theorem fields_set {s : Sys P} {i : SlotId} {x : Inode P}
    (hx : 0 < x.ref → x.valid = true → x.data.nlink = 0 →
      0 < (s.inode i).ref ∧ (s.inode i).valid = true ∧ (s.inode i).data.nlink = 0) (j : SlotId) :
    0 < (Function.update s.inode i x j).ref → (Function.update s.inode i x j).valid = true →
      (Function.update s.inode i x j).data.nlink = 0 →
      0 < (s.inode j).ref ∧ (s.inode j).valid = true ∧ (s.inode j).data.nlink = 0 := by
  by_cases hj : j = i
  · subst hj
    rw [Function.update_self]
    exact hx
  · rw [Function.update_of_ne hj]
    exact fun h1 h2 h3 => ⟨h1, h2, h3⟩

omit [Fintype P] in
/-- The same, for a step that makes slot `i` be `x`. -/
theorem Due.set {s s' : Sys P} {i j : SlotId} {x : Inode P} (h : Due s j) {p : P} {c : Pc}
    (hpc : s'.pc = Function.update s.pc p c) (hinode : s'.inode = Function.update s.inode i x)
    (hp : ∀ st, s.pc p = .put st j → st.past = false → ∃ st', c = .put st' j ∧ st'.past = false)
    (hl : s.live j ≤ s'.live j)
    (hx : 0 < x.ref → x.valid = true → x.data.nlink = 0 →
      0 < (s.inode i).ref ∧ (s.inode i).valid = true ∧ (s.inode i).data.nlink = 0) : Due s' j :=
  h.goto hpc hp (by rw [hinode]; exact fields_set hx j) hl

omit [Fintype P] [DecidableEq P] in
/-- A user may do anything to its slot. -/
theorem Due.used {s s' : Sys P} {i j : SlotId} {x : Inode P} (h : Due s j) (hlive : 1 ≤ s.live i)
    (hinode : s'.inode = Function.update s.inode i x) (hl : s'.live = s.live)
    (hpc : ∀ q st, s.pc q = .put st j → s'.pc q = .put st j) : Due s' j := by
  intro h1 h2 h3
  rw [hl]
  by_cases hj : j = i
  · exact .inl (hj ▸ hlive)
  · rw [hinode, Function.update_of_ne hj] at h1 h2 h3
    rcases h h1 h2 h3 with hd | ⟨q, st, hq, hst⟩
    · exact .inl hd
    · exact .inr ⟨q, st, hpc q st hq, hst⟩

omit [Fintype P] in
/-- `Due` over a statement of `iput`. -/
theorem put_due {s s' : Sys P} (h : ∀ j, Due s j) {p : P} {st : Put} {i : SlotId}
    (ho : ¬Overtaken s (.run p)) (hp : s.pc p = .put st i) (hs : s.put p i st = some s')
    (j : SlotId) : Due s' j := by
  -- from a stage before `past` to another, and from one after it to anywhere
  have hon : ∀ {st' : Put}, st'.past = false → ∀ st₁, s.pc p = .put st₁ j → st₁.past = false →
      ∃ st₂, Pc.put st' i = .put st₂ j ∧ st₂.past = false := by
    intro st' hst' st₁ h1 _
    rw [hp] at h1
    cases h1
    exact ⟨st', rfl, hst'⟩
  have hoff : ∀ {c : Pc}, st.past = true → ∀ st₁, s.pc p = .put st₁ j → st₁.past = false →
      ∃ st₂, c = .put st₂ j ∧ st₂.past = false := by
    intro c hst st₁ h1 h2
    rw [hp] at h1
    cases h1
    rw [hst] at h2
    cases h2
  -- to `drop`, with the slot not as `Due` has it
  have hdrop : (0 < (s.inode i).ref → (s.inode i).valid = true → (s.inode i).data.nlink = 0 →
      1 ≤ s.live i ∨ ∃ q st, q ≠ p ∧ s.pc q = .put st i ∧ st.past = false) →
      Due (s.goto p (.put .drop i)) j := by
    intro hi h1 h2 h3
    by_cases hj : j = i
    · subst hj
      rcases hi h1 h2 h3 with hl | ⟨q, st', hqp, hq, hst'⟩
      · exact .inl hl
      · exact .inr ⟨q, st', (Function.update_of_ne hqp _ _).trans hq, hst'⟩
    · rcases h j h1 h2 h3 with hl | ⟨q, st', hq, hst'⟩
      · exact .inl hl
      · refine .inr ⟨q, st', (Function.update_of_ne ?_ _ _).trans hq, hst'⟩
        rintro rfl
        rw [hp] at hq
        cases hq
        exact hj rfl
  cases st with
  | enter =>
    dsimp only [Sys.put] at hs
    split at hs <;> cases hs
    exact (h j).goto rfl (hon rfl) (fun h1 h2 h3 => ⟨h1, h2, h3⟩) (Nat.le_refl _)
  | testRef =>
    cases hs
    split
    next => exact (h j).goto rfl (hon rfl) (fun h1 h2 h3 => ⟨h1, h2, h3⟩) (Nat.le_refl _)
    next hr =>
      refine hdrop fun _ h2 h3 => ?_
      by_contra hno
      refine ho ⟨i, hp, hr, h2, h3, ?_, ?_⟩
      · by_contra hl
        exact hno (.inl (Nat.one_le_iff_ne_zero.mpr hl))
      · intro q hqp st' hq
        by_contra hst'
        exact hno (.inr ⟨q, st', hqp, role_put hq, Bool.not_eq_true _ ▸ hst'⟩)
  | testValid =>
    cases hs
    split
    next => exact (h j).goto rfl (hon rfl) (fun h1 h2 h3 => ⟨h1, h2, h3⟩) (Nat.le_refl _)
    next hv => exact hdrop fun _ h2 => absurd h2 hv
  | testNlink =>
    cases hs
    split
    next => exact (h j).goto rfl (hon rfl) (fun h1 h2 h3 => ⟨h1, h2, h3⟩) (Nat.le_refl _)
    next hn => exact hdrop fun _ _ h3 => absurd h3 hn
  | lock =>
    dsimp only [Sys.put] at hs
    split at hs <;> cases hs
    · exact (h j).set rfl rfl (hon rfl) (Nat.le_refl _) fun h1 h2 h3 => ⟨h1, h2, h3⟩
    · exact h j
  | release | truncUpdate | update =>
    cases hs
    exact (h j).goto rfl (hon rfl) (fun h1 h2 h3 => ⟨h1, h2, h3⟩) (Nat.le_refl _)
  | trunc | zero =>
    cases hs
    exact (h j).set rfl rfl (hon rfl) (Nat.le_refl _) fun h1 h2 h3 => ⟨h1, h2, h3⟩
  | invalid =>
    cases hs
    intro h1 h2 h3
    change 0 < (Function.update s.inode i _ j).ref at h1
    change (Function.update s.inode i _ j).valid = true at h2
    change (Function.update s.inode i _ j).data.nlink = 0 at h3
    by_cases hj : j = i
    · rw [hj, Function.update_self] at h2
      cases h2
    · rw [Function.update_of_ne hj] at h1 h2 h3
      rcases h j h1 h2 h3 with hl | ⟨q, st', hq, hst'⟩
      · exact .inl hl
      · refine .inr ⟨q, st', (Function.update_of_ne ?_ _ _).trans hq, hst'⟩
        rintro rfl
        rw [hp] at hq
        cases hq
        exact hj rfl
  | unlock =>
    cases hs
    exact (h j).set rfl rfl (hoff rfl) (Nat.le_refl _) fun h1 h2 h3 => ⟨h1, h2, h3⟩
  | again =>
    dsimp only [Sys.put] at hs
    split at hs <;> cases hs
    exact (h j).goto rfl (hoff rfl) (fun h1 h2 h3 => ⟨h1, h2, h3⟩) (Nat.le_refl _)
  | drop =>
    cases hs
    refine (h j).set rfl rfl (hoff rfl) (Nat.le_refl _) fun h1 h2 h3 => ⟨?_, h2, h3⟩
    have h1 : 0 < (s.inode i).ref - 1 := h1
    omega

theorem due_step {s s' : Sys P} {a : Act P} (h : TableInv s) (hd : Proper s a)
    (ho : ¬Overtaken s a) (hm : Move s a s') (hdue : ∀ j, Due s j) (j : SlotId) : Due s' j := by
  have hidle : ∀ {p : P} {c c' : Pc}, s.pc p = c → (∀ st, c ≠ .put st j) →
    ∀ st, s.pc p = .put st j →
      st.past = false → ∃ st', c' = .put st' j ∧ st'.past = false := by
    intro p c c' hp hc st hst
    exact absurd (hp.symm.trans hst) (hc st)
  have hrole : ∀ {p : P} {c' : Pc}, (∀ j, (s.pc p).role j = none) → ∀ st, s.pc p = .put st j →
      st.past = false → ∃ st', c' = .put st' j ∧ st'.past = false := by
    intro p c' hr st hst
    have := hr j
    rw [hst, role_self] at this
    cases this
  have huse : ∀ {p i}, Uses (s.inode i) (s.roles i) p → 1 ≤ s.live i := fun hu =>
    (h.slot _).users _ hu
  have hread : ∀ {p i}, s.pc p = .read i → Uses (s.inode i) (s.roles i) p := by
    intro p i hp
    refine .inr (.inl ?_)
    show (s.pc p).role i = _
    rw [hp]
    exact if_pos rfl
  cases hm with
  | halt => exact hdue j
  | @hit _ p i hl hpos hr ht =>
    by_cases hj : j = i
    · subst hj
      intro _ _ _
      left
      show 1 ≤ Function.update s.live j (s.live j + 1) j
      rw [Function.update_self]
      omega
    · exact (hdue j).set rfl rfl (hrole hr) (Nat.le_of_eq (setLive_ne s hj _).symm)
        fun _ h2 h3 => ⟨hpos, h2, h3⟩
  -- a slot that is recycled is not valid
  | @recycle _ p i dev inum hl hz hno hr ht =>
    refine (hdue j).set rfl rfl (hrole hr) ?_ fun _ h2 => Bool.noConfusion h2
    show s.live j ≤ Function.update s.live i (s.live i + 1) j
    by_cases hj : j = i
    · subst hj
      rw [Function.update_self]
      omega
    · rw [Function.update_of_ne hj]
  | ilock hp =>
    exact (hdue j).goto rfl (hidle hp fun _ he => Pc.noConfusion he) (fun h1 h2 h3 => ⟨h1, h2, h3⟩)
      (Nat.le_refl _)
  | acquire hp =>
    exact (hdue j).set rfl rfl (hidle hp fun _ he => Pc.noConfusion he) (Nat.le_refl _)
      fun h1 h2 h3 => ⟨h1, h2, h3⟩
  | cached hp =>
    exact (hdue j).goto rfl (hidle hp fun _ he => Pc.noConfusion he) (fun h1 h2 h3 => ⟨h1, h2, h3⟩)
      (Nat.le_refl _)
  | @load p i hp =>
    refine (hdue j).used (huse (hread hp)) rfl rfl fun q st hq => ?_
    refine (Function.update_of_ne ?_ _ _).trans hq
    rintro rfl
    rw [hp] at hq
    cases hq
  | @noType p i hp => exact (hdue j).used (huse (hread hp)) rfl rfl fun _ _ hq => hq
  | @write p i d hp =>
    refine (hdue j).used (huse (.inr (.inr ⟨hd, fun st hst => ?_⟩))) rfl rfl fun _ _ hq => hq
    have hst : (s.pc p).role i = some (.put st) := hst
    rw [hp] at hst
    cases hst
  | iupdate hp => exact hdue j
  | @iunlock p i hp =>
    have hpc : s.pc = Function.update s.pc p .user := by rw [← hp, Function.update_eq_self]
    exact (hdue j).set hpc rfl (hidle hp fun _ he => Pc.noConfusion he) (Nat.le_refl _)
      fun h1 h2 h3 => ⟨h1, h2, h3⟩
  -- from now on process `p` is on the way to the test
  | @iput p i hp =>
    by_cases hj : j = i
    · exact fun _ _ _ => .inr ⟨p, .enter, by rw [hj]; exact Function.update_self _ _ _, rfl⟩
    · exact (hdue j).goto rfl (hidle hp fun _ he => Pc.noConfusion he)
        (fun h1 h2 h3 => ⟨h1, h2, h3⟩) (Nat.le_of_eq (setLive_ne s hj _).symm)
  | ialloc hp =>
    exact (hdue j).goto rfl (hidle hp fun _ he => Pc.noConfusion he) (fun h1 h2 h3 => ⟨h1, h2, h3⟩)
      (Nat.le_refl _)
  | scan hp | claim hp =>
    exact (hdue j).goto rfl (hidle hp fun _ he => Pc.noConfusion he) (fun h1 h2 h3 => ⟨h1, h2, h3⟩)
      (Nat.le_refl _)
  | put hp hs => exact put_due hdue ho hp hs j

/-- The last reference to a valid inode without links is not dropped. -/
theorem dropped {s s' : Sys P} {a : Act P} (h : TableInv s) {i : SlotId} (hdue : Due s i)
    (hm : Move s a s') (h1 : (s.inode i).ref = 1) (h0 : (s'.inode i).ref = 0) :
    ¬((s.inode i).valid = true ∧ (s.inode i).data.nlink = 0) := by
  rintro ⟨hv, hn⟩
  rcases hm.inode with he | ⟨j, x, he, -, hx⟩
  · rw [he] at h0
    omega
  · by_cases hj : i = j
    · subst hj
      rw [he, Function.update_self] at h0
      rcases hx with hle | ⟨p, hp⟩
      · omega
      · have hr : s.roles i p = some (.put .drop) := by
          show (s.pc p).role i = _
          rw [hp]
          exact role_self _ i
        obtain ⟨hlive, -, hput⟩ := (h.slot i).alone hr h1
        rcases hdue (by omega) hv hn with hd | ⟨q, st, hq, hst⟩
        · omega
        · have hqr : s.roles i q = some (.put st) := by
            show (s.pc q).role i = _
            rw [hq]
            exact role_self _ i
          obtain rfl := hput q st hqr
          rw [hp] at hq
          cases hq
          cases hst
    · rw [he, Function.update_of_ne hj] at h0
      omega

omit [Fintype P] [DecidableEq P] in
theorem boot_due {s : Sys P} (h : Boot s) (i : SlotId) : Due s i := by
  intro h1
  rw [h.ref i] at h1
  omega

/-- The invariant of runs without an `Overtaken` step. -/
structure DueInv (s : Sys P) : Prop where
  table : TableInv s
  due : ∀ i, Due s i

theorem reach_due {s : Sys P} (h : Reach step (fun s a => Proper s a ∧ ¬Overtaken s a) Boot s) :
    DueInv s := by
  refine h.inv (fun _ hb => ⟨boot_inv hb, boot_due hb⟩) fun hi hd hs => ?_
  obtain ⟨hn, hm⟩ := step_move hi.table hd.1 hs
  exact ⟨hm.inv hi.table hd.1 hn, due_step hi.table hd.1 hd.2 hm hi.due⟩

/-- **The inode table**, in every reached state. An inode has one slot with references
at most; these are the ones that were not put and those `iput` is about to drop; with
its sleep-lock free, a valid slot in use is what is on disk. `iput` goes on to free an
inode only with its only reference, valid and without links. In every step, a slot in use
stays the copy of its inode; and the type of an inode on disk is zeroed exactly by an
`iput` that freed its content, while it was valid and had no links. In runs without an
`Overtaken` step, no last reference to a valid inode without links is dropped. -/
theorem inode_table {s : Sys P} (h : Reach step Proper Boot s) :
    (∀ i j, 0 < (s.inode i).ref → 0 < (s.inode j).ref → (s.inode i).dev = (s.inode j).dev →
      (s.inode i).inum = (s.inode j).inum → i = j) ∧
    (∀ i, (s.inode i).ref = s.live i + putting (s.roles i)) ∧
    (∀ i, 0 < (s.inode i).ref → (s.inode i).locked = none → (s.inode i).valid = true →
      (s.inode i).data = s.dinode (s.inode i).dev (s.inode i).inum) ∧
    (∀ p i, s.pc p = .put .lock i → (s.inode i).ref = 1 ∧ (s.inode i).valid = true ∧
      (s.inode i).data.nlink = 0 ∧ (s.inode i).locked = none) ∧
    (∀ a s', Proper s a → step s a = some s' →
      (∀ i, (s.inode i).ref ≠ 0 →
        (s'.inode i).dev = (s.inode i).dev ∧ (s'.inode i).inum = (s.inode i).inum) ∧
      (∀ dev inum, (s.dinode dev inum).type ≠ 0 ∧ (s'.dinode dev inum).type = 0 ↔
        ∃ p i, a = .run p ∧ s.pc p = .put .update i ∧ (s.inode i).dev = dev ∧
          (s.inode i).inum = inum) ∧
      (∀ p i, a = .run p → s.pc p = .put .update i → (s.inode i).valid = true ∧
        (s.inode i).data.nlink = 0 ∧ (s.inode i).data.Empty ∧
        (s.dinode (s.inode i).dev (s.inode i).inum).Empty)) ∧
    (Reach step (fun s a => Proper s a ∧ ¬Overtaken s a) Boot s →
      ∀ a s', Proper s a → step s a = some s' → ∀ i, (s.inode i).ref = 1 → (s'.inode i).ref = 0 →
        ¬((s.inode i).valid = true ∧ (s.inode i).data.nlink = 0)) := by
  have hi := reach_inv h
  refine ⟨hi.unique, fun i => (hi.slot i).count, ?_, ?_, ?_, ?_⟩
  · intro i hr hl hv
    refine (hi.slot i).agree hr hv ((hi.slot i).clean hl) fun p hp => ?_
    have := (hi.slot i).free hl hp
    cases this
  · intro p i hp
    have hr : s.roles i p = some (.put .lock) := by
      show (s.pc p).role i = _
      rw [hp]
      exact role_self _ i
    obtain ⟨h1, h2, h3⟩ := (hi.slot i).stage p _ hr
    exact ⟨h1, h2, h3, (hi.slot i).lock_free hr⟩
  · intro a s' hd hs
    obtain ⟨hn, hm⟩ := step_move hi hd hs
    refine ⟨recycled hm, ?_, ?_⟩
    · intro dev inum
      constructor
      · rintro ⟨h0, h1⟩
        exact freed hi hd hn hm h0 h1
      · rintro ⟨p, i, rfl, hp, rfl, rfl⟩
        obtain ⟨-, -, -, -, h0, h1⟩ := freed_empty hi hn hp hs
        obtain ⟨hdev, hinum⟩ := recycled hm i (Nat.pos_iff_ne_zero.mp (hi.put_pos hp))
        refine ⟨h0, ?_⟩
        rw [← hdev, ← hinum]
        exact h1
    · rintro p i rfl hp
      obtain ⟨hv, hl, he, hd, -⟩ := freed_empty hi hn hp hs
      exact ⟨hv, hl, he, hd⟩
  · intro hgood a s' hd hs i
    obtain ⟨-, hm⟩ := step_move hi hd hs
    exact dropped hi ((reach_due hgood).due i) hm

/-! ## Runs -/

/-- The table as it boots, with two inodes on disk, both free. -/
def Sys.fresh : Sys P where
  inode := fun _ => ⟨0, 0, 0, none, false, .zero⟩
  dinode := fun _ _ => .zero
  ninodes := 2
  lock := none
  pc := fun _ => .user
  panicked := none
  live := fun _ => 0
  dirty := fun _ => false

omit [Fintype P] [DecidableEq P] in
theorem fresh_boot : Boot (Sys.fresh : Sys P) :=
  ⟨fun _ => rfl, fun _ => rfl, rfl, fun _ => rfl, rfl, fun _ => rfl, fun _ => rfl⟩

instance (x : Inode Bool) (role : Bool → Option Role) (p : Bool) : Decidable (Uses x role p) :=
  decidable_of_iff (role p = some .acquire ∨ role p = some .read ∨ (x.locked = some p ∧
    (match role p with
      | some (.put st) => st.locks
      | _ => false) = false)) (by
    unfold Uses
    cases hr : role p with
    | none => simp
    | some r => cases r <;> simp)

instance (s : Sys Bool) : ∀ a, Decidable (Proper s a)
  | .idup _ i | .ilock _ i => inferInstanceAs (Decidable (1 ≤ s.live i))
  | .write p i _ => inferInstanceAs (Decidable ((s.inode i).locked = some p))
  | .iupdate p i => inferInstanceAs (Decidable ((s.inode i).locked = some p))
  | .iunlock _ i => inferInstanceAs (Decidable (s.dirty i = false))
  | .iput _ i => inferInstanceAs (Decidable (1 ≤ s.live i ∧
      ((∃ q, Uses (s.inode i) (fun q => (s.pc q).role i) q) → 2 ≤ s.live i)))
  | .ialloc _ _ type => inferInstanceAs (Decidable (type ≠ 0))
  | .iget _ _ _ | .run _ => isTrue trivial

instance : ∀ r : Option Role, Decidable (∀ st, r = some (.put st) → st.past = true)
  | some (.put st) => decidable_of_iff (st.past = true)
      ⟨fun h _ he => Role.put.inj (Option.some.inj he) ▸ h, fun h => h st rfl⟩
  | none | some .acquire | some .read => isTrue nofun

instance (s : Sys Bool) : ∀ a, Decidable (Overtaken s a)
  | .run p => inferInstanceAs (Decidable (∃ i, s.pc p = .put .testRef i ∧ (s.inode i).ref ≠ 1 ∧
      (s.inode i).valid = true ∧ (s.inode i).data.nlink = 0 ∧ s.live i = 0 ∧
      ∀ q, q ≠ p → ∀ st, (s.pc q).role i = some (.put st) → st.past = true))
  | .iget _ _ _ | .idup _ _ | .ilock _ _ | .write _ _ _ | .iupdate _ _ | .iunlock _ _ | .iput _ _
  | .ialloc _ _ _ => isFalse id

/-- `&itable.inode[0]`. -/
def slot0 : SlotId := ⟨0, by decide⟩

/-- Inode 1 is allocated, read and given up; `iput` frees it, up to `releasesleep`. -/
def freeing (p : Bool) : List (Act Bool) :=
  [.ialloc p 1 2, .run p, .run p, .ilock p slot0, .run p, .run p, .iunlock p slot0,
    .iput p slot0] ++
    List.replicate 12 (.run p)

/-- Then another process makes a directory that gets the same inode and the same slot,
and fails: `nlink` is 1 and 0 again. -/
def overtaking : List (Act Bool) :=
  freeing false ++
    [.ialloc true 1 1, .run true, .run true, .ilock true slot0, .run true, .run true,
      .write true slot0 { Dinode.zero with nlink := 1 }, .iupdate true slot0,
      .write true slot0 .zero, .iupdate true slot0, .iunlock true slot0, .iput true slot0,
      .run true, .run true, .run true, .run false]

/-- The first process drops the last reference to a valid inode that has no links, and
the inode stays allocated. -/
theorem inode_left : ∃ s s' : Sys Bool, RunOk step Proper Sys.fresh overtaking ∧
    runFrom step Sys.fresh overtaking = some s ∧ step s (.run false) = some s' ∧
    (s.inode slot0).ref = 1 ∧ (s'.inode slot0).ref = 0 ∧ (s.inode slot0).valid = true ∧
    (s.inode slot0).data.nlink = 0 ∧ (s'.dinode 1 1).type = 1 := by
  have hrun : (runFrom (guarded step Proper) Sys.fresh overtaking).bind (fun s =>
      (step s (.run false)).map fun s' => ((s.inode slot0).ref, (s'.inode slot0).ref,
        (s.inode slot0).valid, (s.inode slot0).data.nlink, (s'.dinode 1 1).type))
      = some (1, 0, true, 0, 1) := by decide +kernel
  obtain ⟨s, hs, hrun⟩ := Option.bind_eq_some_iff.mp hrun
  obtain ⟨s', hs', hb⟩ := Option.map_eq_some_iff.mp hrun
  simp only [Prod.mk.injEq] at hb
  obtain ⟨hok, hs⟩ := runFrom_guarded _ hs
  exact ⟨s, s', hok, hs, hs', hb⟩

/-- A run in which nobody comes in between: the reference that is dropped last is to a
slot that is not valid. -/
theorem inode_table_freeing : ∃ s s' : Sys Bool,
    runFrom step Sys.fresh (freeing false ++ [.run false]) = some s ∧
    step s (.run false) = some s' ∧ (s.inode slot0).ref = 1 ∧ (s'.inode slot0).ref = 0 ∧
    (s.inode slot0).ref = s.live slot0 + putting (s.roles slot0) ∧
    ¬((s.inode slot0).valid = true ∧ (s.inode slot0).data.nlink = 0) := by
  have hrun : (runFrom (guarded step fun s a => Proper s a ∧ ¬Overtaken s a) Sys.fresh
      (freeing false ++ [.run false])).bind
      (fun s => (step s (.run false)).map fun s' => ((s.inode slot0).ref, (s'.inode slot0).ref))
      = some (1, 0) := by decide +kernel
  obtain ⟨s, hs, hrun⟩ := Option.bind_eq_some_iff.mp hrun
  obtain ⟨s', hs', hb⟩ := Option.map_eq_some_iff.mp hrun
  simp only [Prod.mk.injEq] at hb
  obtain ⟨hok, hs⟩ := runFrom_guarded _ hs
  have hgood : Reach step (fun s a => Proper s a ∧ ¬Overtaken s a) Boot s :=
    .of_run _ (.start fresh_boot) hok hs
  have htable := inode_table (hgood.mono fun _ _ => And.left)
  exact ⟨s, s', hs, hs', hb.1, hb.2, htable.2.1 slot0,
    htable.2.2.2.2.2 hgood (.run false) s' trivial hs' slot0 hb.1 hb.2⟩

end Xv6.Itable
