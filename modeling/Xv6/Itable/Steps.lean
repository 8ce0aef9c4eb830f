import Xv6.Itable.Slot

/-!
# What each statement does to a slot

One lemma for each thing a process may do to a slot: to use it (`ilock` to
`iunlock`), or to put it. What the process itself needs is in its stage or comes
with the lock; what the others know is kept because a process that has the
sleep-lock is the only one at a stage with it (`SlotOk.stageOf`, `SlotOk.stageBy`).
-/

namespace Xv6.Itable

open Lib

variable {P : Type} [Fintype P] [DecidableEq P] {x : Inode P} {d : Dinode} {live : Nat}
  {dirty halted : Bool} {role : P → Option Role}

omit [DecidableEq P] in
/-- Only one process is at a stage with the sleep-lock. -/
theorem SlotOk.locker (h : SlotOk x d live dirty halted role) {p q : P} {st : Put}
    (hl : x.locked = some p) (hq : role q = some (.put st)) (hst : st.locks = true) : q = p := by
  have hlq := (h.stage q st hq).locker hst
  rw [hl, Option.some.injEq] at hlq
  exact hlq.symm

omit [DecidableEq P] in
/-- While a user changes the inode, the others in `iput` stay where they are. -/
theorem SlotOk.stageOf (h : SlotOk x d live dirty halted role) {x' : Inode P} {d' : Dinode}
    {dirty' : Bool} {p q : P} {st : Put} (hl : x.locked = some p)
    (hp : ∀ st, role p ≠ some (.put st))
    (hq : role q = some (.put st)) (hr : x'.ref = x.ref) : Stage x' d' dirty' q st := by
  have hst : st.locks = false := by
    by_contra hne
    obtain rfl := h.locker hl hq (Bool.not_eq_false _ ▸ hne)
    exact hp st hq
  have hlive := h.users p (.inr (.inr ⟨hl, fun st hst => absurd hst (hp st)⟩))
  have hput := one_le_putting hq
  have hc := h.count
  exact (h.stage q st hq).other hst hr (by omega)

/-- While a process in `iput` has the sleep-lock, the others there stay where they are. -/
theorem SlotOk.stageBy (h : SlotOk x d live dirty halted role) {x' : Inode P} {d' : Dinode}
    {dirty' : Bool} {p q : P} {st st' : Put} (hl : x.locked = some p)
    (hp : role p = some (.put st')) (hqp : q ≠ p) (hq : role q = some (.put st))
    (hr : x'.ref = x.ref) : Stage x' d' dirty' q st := by
  have hst : st.locks = false := by
    by_contra hne
    exact hqp (h.locker hl hq (Bool.not_eq_false _ ▸ hne))
  have hput := two_le_putting hqp hq hp
  have hc := h.count
  exact (h.stage q st hq).other hst hr (by omega)

omit [Fintype P] [DecidableEq P] in
/-- A stage without the sleep-lock does not ask who has it. -/
theorem Stage.unlocked {p : P} {st : Put} (h : Stage x d dirty p st) (hst : st.locks = false)
    (o : Option P) : Stage { x with locked := o } d dirty p st := by
  cases st with
  | enter | testRef | again | drop => trivial
  | testValid => exact h
  | testNlink => exact h
  | lock => exact h
  | release | trunc | truncUpdate | zero | update | invalid | unlock => cases hst

omit [DecidableEq P] in
/-- With the sleep-lock free nobody is at a stage with it. -/
theorem SlotOk.free (h : SlotOk x d live dirty halted role) {q : P} {st : Put}
    (hl : x.locked = none) (hq : role q = some (.put st)) : st.locks = false := by
  by_contra hne
  have hlq := (h.stage q st hq).locker (Bool.not_eq_false _ ▸ hne)
  rw [hl] at hlq
  cases hlq

/-! ## Users -/

/-- A process begins or ends to use the inode. -/
theorem SlotOk.change (h : SlotOk x d live dirty halted role) {p : P} {r : Option Role}
    (hp : weight (role p) = 0) (hr : weight r = 0)
    (huse : Uses x (Function.update role p r) p → 1 ≤ live)
    (hread : r = some .read → x.locked = some p)
    (hheld : x.locked = some p → r ≠ some .read → x.valid = true) :
    SlotOk x d live dirty halted (Function.update role p r) := by
  have hnot : ∀ st, role p ≠ some (.put st) := by
    intro st hst
    rw [weight_put hst] at hp
    cases hp
  have hput : ∀ {q st}, Function.update role p r q = some (.put st) →
      role q = some (.put st) := by
    intro q st hq
    rcases role_cases hq with ⟨-, he⟩ | ⟨-, hq⟩
    · rw [weight_put he] at hr
      cases hr
    · exact hq
  refine ⟨?_, ?_, ?_, ?_, ?_, h.clean, ?_, ?_, ?_⟩
  · rw [putting_same (hr.trans hp.symm)]
    exact h.count
  · intro q hq
    by_cases hqp : q = p
    · rw [hqp] at hq
      exact huse hq
    · refine h.users q ?_
      unfold Uses at hq
      rwa [Function.update_of_ne hqp] at hq
  · intro q hq
    rcases role_cases hq with ⟨rfl, he⟩ | ⟨-, hq⟩
    · exact hread he
    · exact h.reader q hq
  · intro q hl hq hst
    by_cases hqp : q = p
    · subst hqp
      rw [Function.update_self] at hq
      exact hheld hl hq
    · rw [Function.update_of_ne hqp] at hq hst
      exact h.held q hl hq hst
  · exact fun q st hq => h.stage q st (hput hq)
  · exact fun h1 h2 h3 h4 => h.agree h1 h2 h3 (none_at (hnot _) h4)
  · exact fun h1 h2 h3 h4 => h.onDisk h1 h2 h3 (none_at (hnot _) h4)
  · exact fun h1 h2 h3 h4 => h.inMem h1 h2 h3 fun q =>
      ⟨none_at (hnot _) (fun q => (h4 q).1) q, none_at (hnot _) (fun q => (h4 q).2) q⟩

/-- `acquiresleep` of `ilock`. -/
theorem SlotOk.acquire (h : SlotOk x d live dirty halted role) {p : P}
    (hp : role p = some .acquire) (hl : x.locked = none) :
    SlotOk { x with locked := some p } d live dirty halted
      (Function.update role p (some .read)) := by
  have hput : ∀ {q st}, Function.update role p (some .read) q = some (.put st) →
      role q = some (.put st) := by
    intro q st hq
    rcases role_cases hq with ⟨-, he⟩ | ⟨-, hq⟩
    · cases he
    · exact hq
  have hnot : ∀ st, role p ≠ some (.put st) := by
    intro st hst
    rw [hp] at hst
    cases hst
  have huse := h.users p (.inl hp)
  refine ⟨?_, fun _ _ => huse, ?_, ?_, ?_, ?_, ?_, ?_, ?_⟩
  · rw [putting_same (by rw [hp]; rfl)]
    exact h.count
  · intro q hq
    rcases role_cases hq with ⟨rfl, -⟩ | ⟨-, hq⟩
    · rfl
    · have := h.reader q hq
      rw [hl] at this
      cases this
  · intro q hlq hq
    have hpq : p = q := Option.some.inj hlq
    rw [hpq, Function.update_self] at hq
    exact absurd rfl hq
  · exact fun q st hq => (h.stage q st (hput hq)).unlocked (h.free hl (hput hq)) _
  · exact fun _ => h.clean hl
  · exact fun h1 h2 h3 h4 => h.agree h1 h2 h3 (none_at (hnot _) h4)
  · exact fun h1 h2 h3 h4 => h.onDisk h1 h2 h3 (none_at (hnot _) h4)
  · exact fun h1 h2 h3 h4 => h.inMem h1 h2 h3 fun q =>
      ⟨none_at (hnot _) (fun q => (h4 q).1) q, none_at (hnot _) (fun q => (h4 q).2) q⟩

section

omit [DecidableEq P]

/-- The inode is read from the disk; a free one stops the kernel. -/
theorem SlotOk.load (h : SlotOk x d live dirty halted role) {p : P} (hp : role p = some .read)
    {halted' : Bool} (hh : halted' = false → d.type ≠ 0) :
    SlotOk { x with data := d, valid := true } d live dirty halted' role := by
  have hl := h.reader p hp
  have hnot : ∀ st, role p ≠ some (.put st) := by
    intro st hst
    rw [hp] at hst
    cases hst
  exact ⟨h.count, h.users, h.reader, fun _ _ _ _ => rfl, fun q st hq => h.stageOf hl hnot hq rfl,
    h.clean, fun _ _ _ _ => rfl, fun h1 _ _ _ => hh h1, fun h1 _ _ _ => hh h1⟩

/-- A change to a locked inode. -/
theorem SlotOk.write (h : SlotOk x d live dirty halted role) {p : P} (hp : role p = none)
    (hl : x.locked = some p) (e : Dinode) :
    SlotOk { x with data := { e with type := x.data.type } } d live true halted role := by
  have hnot : ∀ st, role p ≠ some (.put st) := by
    intro st hst
    rw [hp] at hst
    cases hst
  refine ⟨h.count, h.users, h.reader, h.held, fun q st hq => h.stageOf hl hnot hq rfl, ?_, ?_,
    h.onDisk, h.inMem⟩
  · intro hn
    rw [hl] at hn
    cases hn
  · intro _ _ hd
    cases hd

/-- `iupdate`, by a process that has the inode locked. -/
theorem SlotOk.update (h : SlotOk x d live dirty halted role) {p : P} (hp : role p = none)
    (hl : x.locked = some p) : SlotOk x x.data live false halted role := by
  have hnot : ∀ st, role p ≠ some (.put st) := by
    intro st hst
    rw [hp] at hst
    cases hst
  refine ⟨h.count, h.users, h.reader, h.held, fun q st hq => h.stageOf hl hnot hq rfl,
    fun _ => rfl, fun _ _ _ _ => rfl, ?_, h.inMem⟩
  intro h1 h2 h3 h4
  refine h.inMem h1 h2 h3 fun q => ⟨fun hq => ?_, h4 q⟩
  -- it would have the sleep-lock
  obtain rfl := h.locker hl hq rfl
  exact hnot _ hq

/-- `releasesleep` of `iunlock`. -/
theorem SlotOk.unlock (h : SlotOk x d live dirty halted role) {p : P} (hp : role p = none)
    (hl : x.locked = some p) (hd : dirty = false) :
    SlotOk { x with locked := none } d live dirty halted role := by
  refine ⟨h.count, ?_, ?_, ?_, ?_, fun _ => hd, h.agree, h.onDisk, h.inMem⟩
  · rintro q (hq | hq | ⟨hq, -⟩)
    · exact h.users q (.inl hq)
    · exact h.users q (.inr (.inl hq))
    · cases hq
  · intro q hq
    have hlq := h.reader q hq
    rw [hl, Option.some.injEq] at hlq
    rw [← hlq, hp] at hq
    cases hq
  · intro q hq
    cases hq
  · intro q st hq
    refine (h.stage q st hq).unlocked ?_ none
    by_contra hne
    obtain rfl := h.locker hl hq (Bool.not_eq_false _ ▸ hne)
    rw [hp] at hq
    cases hq

end

/-! ## `iput` -/

/-- `iput` is called. -/
theorem SlotOk.iput (h : SlotOk x d live dirty halted role) {p : P} (hp : role p = none)
    (hlive : 1 ≤ live) (huse : (∃ q, Uses x role q) → 2 ≤ live) :
    SlotOk x d (live - 1) dirty halted (Function.update role p (some (.put .enter))) := by
  have hnot : ∀ st, role p ≠ some (.put st) := by
    intro st hst
    rw [hp] at hst
    cases hst
  refine ⟨?_, ?_, ?_, ?_, ?_, h.clean, ?_, ?_, ?_⟩
  · have hw := putting_update role p (some (.put .enter))
    have hc := h.count
    rw [hp] at hw
    have h1 : weight (some (.put .enter)) = 1 := rfl
    have h0 : weight none = 0 := rfl
    omega
  · intro q hq
    have hq' : Uses x role q := by
      by_cases hqp : q = p
      · subst hqp
        rcases hq with hq | hq | ⟨hq, -⟩
        · rw [Function.update_self] at hq
          cases hq
        · rw [Function.update_self] at hq
          cases hq
        · exact .inr (.inr ⟨hq, fun st hst => absurd hst (hnot st)⟩)
      · unfold Uses at hq
        rwa [Function.update_of_ne hqp] at hq
    have := huse ⟨q, hq'⟩
    omega
  · intro q hq
    rcases role_cases hq with ⟨-, he⟩ | ⟨-, hq⟩
    · cases he
    · exact h.reader q hq
  · intro q hl hq hst
    by_cases hqp : q = p
    · subst hqp
      exact h.held q hl (by rw [hp]; exact (Option.some_ne_none _).symm)
        fun st hst => absurd hst (hnot st)
    · rw [Function.update_of_ne hqp] at hq hst
      exact h.held q hl hq hst
  · intro q st hq
    rcases role_cases hq with ⟨-, he⟩ | ⟨-, hq⟩
    · cases he
      trivial
    · exact h.stage q st hq
  · exact fun h1 h2 h3 h4 => h.agree h1 h2 h3 (none_at (hnot _) h4)
  · exact fun h1 h2 h3 h4 => h.onDisk h1 h2 h3 (none_at (hnot _) h4)
  · exact fun h1 h2 h3 h4 => h.inMem h1 h2 h3 fun q =>
      ⟨none_at (hnot _) (fun q => (h4 q).1) q, none_at (hnot _) (fun q => (h4 q).2) q⟩

/-- What is left to show for a statement of `iput` that changes the slot. -/
theorem SlotOk.turn (h : SlotOk x d live dirty halted role) {x' : Inode P} {d' : Dinode}
    {dirty' : Bool} {p : P} {st st' : Put} (hp : role p = some (.put st)) (hr : x'.ref = x.ref)
    (huse : ∀ q, Uses x' (Function.update role p (some (.put st'))) q → Uses x role q)
    (hread : ∀ q, role q = some .read → x'.locked = some q)
    (hheld : ∀ q, x'.locked = some q → role q ≠ some .read →
      (∀ s, Function.update role p (some (.put st')) q = some (.put s) → s.locks = false) →
      x'.valid = true)
    (hstage : Stage x' d' dirty' p st')
    (hother : ∀ q st, q ≠ p → role q = some (.put st) → Stage x' d' dirty' q st)
    (hclean : x'.locked = none → dirty' = false)
    (hagree : 0 < x.ref → x'.valid = true → dirty' = false →
      (∀ q, Function.update role p (some (.put st')) q ≠ some (.put .invalid)) → x'.data = d')
    (hdisk : halted = false → 0 < x.ref → x'.valid = true →
      (∀ q, Function.update role p (some (.put st')) q ≠ some (.put .invalid)) → d'.type ≠ 0)
    (hmem : halted = false → 0 < x.ref → x'.valid = true →
      (∀ q, Function.update role p (some (.put st')) q ≠ some (.put .update) ∧
        Function.update role p (some (.put st')) q ≠ some (.put .invalid)) → x'.data.type ≠ 0) :
    SlotOk x' d' live dirty' halted (Function.update role p (some (.put st'))) := by
  refine ⟨?_, fun q hq => h.users q (huse q hq), ?_, ?_, ?_, hclean, hr ▸ hagree, hr ▸ hdisk,
    hr ▸ hmem⟩
  · rw [hr, putting_same (by rw [hp]; rfl)]
    exact h.count
  · intro q hq
    rcases role_cases hq with ⟨-, he⟩ | ⟨-, hq⟩
    · cases he
    · exact hread q hq
  · intro q hl hq hs
    refine hheld q hl (fun he => ?_) hs
    by_cases hqp : q = p
    · rw [hqp, hp] at he
      cases he
    · rw [Function.update_of_ne hqp] at hq
      exact hq he
  · intro q s hq
    rcases role_cases hq with ⟨rfl, he⟩ | ⟨hqp, hq⟩
    · cases he
      exact hstage
    · exact hother q s hqp hq

omit [Fintype P] in
/-- Who uses the inode is the same if only the stage of `p` changes, and not over
`acquiresleep` or `releasesleep`. -/
theorem uses_same {x' : Inode P} {p q : P} {st st' : Put} (hp : role p = some (.put st))
    (hl : x'.locked = x.locked) (hst : st'.locks = st.locks)
    (hq : Uses x' (Function.update role p (some (.put st'))) q) : Uses x role q := by
  unfold Uses at hq ⊢
  rw [hl] at hq
  by_cases hqp : q = p
  · subst hqp
    rw [Function.update_self] at hq
    rcases hq with hq | hq | ⟨hq, hs⟩
    · cases hq
    · cases hq
    · refine .inr (.inr ⟨hq, fun s hs' => ?_⟩)
      rw [hp] at hs'
      cases hs'
      exact hst.symm.trans (hs st' rfl)
  · rwa [Function.update_of_ne hqp] at hq

/-- A statement of `iput` that changes nothing of the slot. -/
theorem SlotOk.pass (h : SlotOk x d live dirty halted role) {p : P} {st st' : Put}
    (hp : role p = some (.put st)) (hst : st'.locks = st.locks) (hs : Stage x d dirty p st')
    (hup : st ≠ .update) (hin : st ≠ .invalid) :
    SlotOk x d live dirty halted (Function.update role p (some (.put st'))) := by
  have hu : role p ≠ some (.put .update) := by
    rw [hp]
    exact fun he => hup (by cases he; rfl)
  have hi : role p ≠ some (.put .invalid) := by
    rw [hp]
    exact fun he => hin (by cases he; rfl)
  have hheld : ∀ q, x.locked = some q → role q ≠ some .read →
      (∀ s, Function.update role p (some (.put st')) q = some (.put s) → s.locks = false) →
      x.valid = true := by
    intro q hl hq hs
    refine h.held q hl hq fun s hqs => ?_
    by_cases hqp : q = p
    · subst hqp
      rw [hp] at hqs
      cases hqs
      exact hst.symm.trans (hs st' (Function.update_self _ _ _))
    · exact hs s (by rwa [Function.update_of_ne hqp])
  exact h.turn hp rfl (fun q => uses_same hp rfl hst) h.reader hheld hs
    (fun q st _ hq => h.stage q st hq) h.clean (fun h1 h2 h3 h4 => h.agree h1 h2 h3 (none_at hi h4))
    (fun h1 h2 h3 h4 => h.onDisk h1 h2 h3 (none_at hi h4))
    fun h1 h2 h3 h4 => h.inMem h1 h2 h3 fun q =>
      ⟨none_at hu (fun q => (h4 q).1) q, none_at hi (fun q => (h4 q).2) q⟩

/-- `acquiresleep` of `iput`: the sleep-lock is free. -/
theorem SlotOk.lock_free (h : SlotOk x d live dirty halted role) {p : P}
    (hp : role p = some (.put .lock)) : x.locked = none := by
  obtain ⟨hr, -, -⟩ := h.stage p _ hp
  obtain ⟨-, huse, hput⟩ := h.alone hp hr
  by_contra hl
  obtain ⟨q, hq⟩ := Option.ne_none_iff_exists'.mp hl
  refine huse q (.inr (.inr ⟨hq, fun st hst => ?_⟩))
  obtain rfl := hput q st hst
  rw [hp] at hst
  cases hst
  rfl

theorem SlotOk.putLock (h : SlotOk x d live dirty halted role) {p : P}
    (hp : role p = some (.put .lock)) :
    SlotOk { x with locked := some p } d live dirty halted
      (Function.update role p (some (.put .release))) := by
  have hl := h.lock_free hp
  obtain ⟨hr, hv, hn⟩ := h.stage p _ hp
  obtain ⟨-, huse, hput⟩ := h.alone hp hr
  have hne : ∀ y, y ≠ Role.put .lock → role p ≠ some y := by
    intro y hy he
    rw [hp] at he
    cases he
    exact hy rfl
  refine h.turn hp rfl ?_ ?_ (fun _ _ _ _ => hv) ⟨hr, hv, hn, rfl⟩ ?_ ?_
    (fun h1 h2 h3 h4 => h.agree h1 h2 h3 (none_at (hne _ (by decide)) h4))
    (fun h1 h2 h3 h4 => h.onDisk h1 h2 h3 (none_at (hne _ (by decide)) h4)) ?_
  · intro q hq
    exfalso
    by_cases hqp : q = p
    · subst hqp
      rcases hq with hq | hq | ⟨-, hs⟩
      · rw [Function.update_self] at hq
        cases hq
      · rw [Function.update_self] at hq
        cases hq
      · exact absurd (hs .release (Function.update_self _ _ _)) (by decide)
    · unfold Uses at hq
      rw [Function.update_of_ne hqp] at hq
      rcases hq with hq | hq | ⟨hq, -⟩
      · exact huse q (.inl hq)
      · exact huse q (.inr (.inl hq))
      · exact hqp (Option.some.inj hq).symm
  · exact fun q hq => absurd (.inr (.inl hq)) (huse q)
  · exact fun q st hqp hq => absurd (hput q st hq) hqp
  · intro he
    cases he
  · exact fun h1 h2 h3 h4 => h.inMem h1 h2 h3 fun q =>
      ⟨none_at (hne _ (by decide)) (fun q => (h4 q).1) q,
        none_at (hne _ (by decide)) (fun q => (h4 q).2) q⟩

/-- A statement of `iput` with the sleep-lock held, before and after. -/
theorem SlotOk.body (h : SlotOk x d live dirty halted role) {x' : Inode P} {d' : Dinode}
    {dirty' : Bool} {p : P} {st st' : Put} (hp : role p = some (.put st))
    (hst : st.locks = true) (hst' : st'.locks = true) (hr : x'.ref = x.ref)
    (hl' : x'.locked = x.locked) (hstage : Stage x' d' dirty' p st')
    (hagree : x'.valid = true → dirty' = false → st' ≠ .invalid → x'.data = d')
    (hdisk : halted = false → 0 < x.ref → x'.valid = true → st' ≠ .invalid → d'.type ≠ 0)
    (hmem : halted = false → 0 < x.ref → x'.valid = true → st' ≠ .update → st' ≠ .invalid →
      x'.data.type ≠ 0) :
    SlotOk x' d' live dirty' halted (Function.update role p (some (.put st'))) := by
  have hl := (h.stage p st hp).locker hst
  have hnot : ∀ {st₁}, (∀ q, Function.update role p (some (.put st')) q ≠ some (.put st₁)) →
      st' ≠ st₁ := by
    rintro st₁ hq rfl
    exact hq p (Function.update_self _ _ _)
  have hheld : ∀ q, x'.locked = some q → role q ≠ some .read →
      (∀ s, Function.update role p (some (.put st')) q = some (.put s) → s.locks = false) →
      x'.valid = true := by
    intro q hlq _ hs
    rw [hl', hl, Option.some.injEq] at hlq
    have hf := hs st' (hlq ▸ Function.update_self _ _ _)
    rw [hst'] at hf
    cases hf
  refine h.turn hp hr (fun q => uses_same hp hl' (hst'.trans hst.symm)) ?_ hheld hstage ?_ ?_
    (fun _ h2 h3 h4 => hagree h2 h3 (hnot h4)) (fun h1 h2 h3 h4 => hdisk h1 h2 h3 (hnot h4))
    fun h1 h2 h3 h4 => hmem h1 h2 h3 (hnot fun q => (h4 q).1) (hnot fun q => (h4 q).2)
  · intro q hq
    have hlq := h.reader q hq
    rw [hl, Option.some.injEq] at hlq
    subst hlq
    rw [hp] at hq
    cases hq
  · exact fun q st₁ hqp hq => h.stageBy hl hp hqp hq hr
  · intro he
    rw [hl', hl] at he
    cases he

omit [DecidableEq P] in
/-- Who is at a stage with the sleep-lock is nowhere else, and nobody else is at one. -/
theorem SlotOk.none_else (h : SlotOk x d live dirty halted role) {p : P} {st st' : Put}
    (hp : role p = some (.put st)) (hst : st.locks = true) (hst' : st'.locks = true)
    (hne : st ≠ st') (q : P) : role q ≠ some (.put st') := by
  intro hq
  obtain rfl := h.locker ((h.stage p st hp).locker hst) hq hst'
  rw [hp] at hq
  cases hq
  exact hne rfl

theorem SlotOk.putTrunc (h : SlotOk x d live dirty halted role) {p : P}
    (hp : role p = some (.put .trunc)) :
    SlotOk { x with data := x.data.trunc } d live true halted
      (Function.update role p (some (.put .truncUpdate))) := by
  obtain ⟨hv, hn, hl⟩ := h.stage p _ hp
  refine h.body hp rfl rfl rfl rfl ⟨hv, hn, hl, rfl, rfl⟩ ?_ ?_ ?_
  · intro _ he
    cases he
  · intro h1 h2 _ _
    exact h.onDisk h1 h2 hv (h.none_else hp rfl rfl (by decide))
  · intro h1 h2 _ _ _
    exact h.inMem h1 h2 hv fun q =>
      ⟨h.none_else hp rfl rfl (by decide) q, h.none_else hp rfl rfl (by decide) q⟩

theorem SlotOk.putTruncUpdate (h : SlotOk x d live dirty halted role) {p : P}
    (hp : role p = some (.put .truncUpdate)) :
    SlotOk x x.data live false halted (Function.update role p (some (.put .zero))) := by
  obtain ⟨hv, hn, hl, he⟩ := h.stage p _ hp
  have hmem : halted = false → 0 < x.ref → x.data.type ≠ 0 := fun h1 h2 => h.inMem h1 h2 hv fun q =>
    ⟨h.none_else hp rfl rfl (by decide) q, h.none_else hp rfl rfl (by decide) q⟩
  exact h.body hp rfl rfl rfl rfl ⟨hv, hn, hl, he, he⟩ (fun _ _ _ => rfl)
    (fun h1 h2 _ _ => hmem h1 h2) fun h1 h2 _ _ _ => hmem h1 h2

theorem SlotOk.putZero (h : SlotOk x d live dirty halted role) {p : P}
    (hp : role p = some (.put .zero)) :
    SlotOk { x with data := { x.data with type := 0 } } d live true halted
      (Function.update role p (some (.put .update))) := by
  obtain ⟨hv, hn, hl, he, hd⟩ := h.stage p _ hp
  refine h.body hp rfl rfl rfl rfl ⟨hv, hn, hl, he, hd, rfl⟩ ?_ ?_ ?_
  · intro _ he
    cases he
  · intro h1 h2 _ _
    exact h.onDisk h1 h2 hv (h.none_else hp rfl rfl (by decide))
  · exact fun _ _ _ h4 => absurd rfl h4

theorem SlotOk.putUpdate (h : SlotOk x d live dirty halted role) {p : P}
    (hp : role p = some (.put .update)) :
    SlotOk x x.data live false halted (Function.update role p (some (.put .invalid))) := by
  obtain ⟨hv, hn, hl, -⟩ := h.stage p _ hp
  exact h.body hp rfl rfl rfl rfl ⟨hv, hn, hl, rfl⟩ (fun _ _ h3 => absurd rfl h3)
    (fun _ _ _ h4 => absurd rfl h4) fun _ _ _ _ h5 => absurd rfl h5

theorem SlotOk.putInvalid (h : SlotOk x d live dirty halted role) {p : P}
    (hp : role p = some (.put .invalid)) :
    SlotOk { x with valid := false } d live dirty halted
      (Function.update role p (some (.put .unlock))) := by
  obtain ⟨-, -, hl, hd⟩ := h.stage p _ hp
  refine h.body hp rfl rfl rfl rfl ⟨rfl, hl, hd⟩ ?_ ?_ ?_
  · intro he
    cases he
  · intro _ _ he
    cases he
  · intro _ _ he
    cases he

theorem SlotOk.putUnlock (h : SlotOk x d live dirty halted role) {p : P}
    (hp : role p = some (.put .unlock)) :
    SlotOk { x with locked := none } d live dirty halted
      (Function.update role p (some (.put .again))) := by
  obtain ⟨hv, hl, hd⟩ := h.stage p _ hp
  have hvf : x.valid = true → False := by
    intro he
    rw [hv] at he
    cases he
  refine h.turn hp rfl ?_ ?_ (fun _ he => absurd he.symm (Option.some_ne_none _)) trivial ?_
    (fun _ => hd) (fun _ h2 => (hvf h2).elim)
    (fun _ _ h3 => (hvf h3).elim) fun _ _ h3 => (hvf h3).elim
  · intro q hq
    rcases hq with hq | hq | ⟨hq, -⟩
    · rcases role_cases hq with ⟨-, he⟩ | ⟨-, hq⟩
      · cases he
      · exact .inl hq
    · rcases role_cases hq with ⟨-, he⟩ | ⟨-, hq⟩
      · cases he
      · exact .inr (.inl hq)
    · cases hq
  · intro q hq
    have hlq := h.reader q hq
    rw [hl, Option.some.injEq] at hlq
    subst hlq
    rw [hp] at hq
    cases hq
  · exact fun q st hqp hq => h.stageBy hl hp hqp hq rfl

/-- `ip->ref--`, with the table's lock. -/
theorem SlotOk.putDrop (h : SlotOk x d live dirty halted role) {p : P}
    (hp : role p = some (.put .drop))
    (ht : ∀ q st, q ≠ p → role q = some (.put st) → st.table = false) :
    SlotOk { x with ref := x.ref - 1 } d live dirty halted (Function.update role p none) := by
  have hne : ∀ y, y ≠ Role.put .drop → role p ≠ some y := by
    intro y hy he
    rw [hp] at he
    cases he
    exact hy rfl
  have hpos : ∀ {n}, 0 < n - 1 → 0 < n := fun h => by omega
  refine ⟨?_, ?_, ?_, ?_, ?_, h.clean,
    (fun h1 h2 h3 h4 => h.agree (hpos h1) h2 h3 (none_at (hne _ (by decide)) h4)),
    (fun h1 h2 h3 h4 => h.onDisk h1 (hpos h2) h3 (none_at (hne _ (by decide)) h4)), ?_⟩
  · have hw := putting_update role p none
    have hc := h.count
    rw [weight_put hp] at hw
    have h0 : weight none = 0 := rfl
    show x.ref - 1 = live + _
    omega
  · intro q hq
    refine h.users q ?_
    by_cases hqp : q = p
    · subst hqp
      rcases hq with hq | hq | ⟨hq, -⟩
      · rw [Function.update_self] at hq
        cases hq
      · rw [Function.update_self] at hq
        cases hq
      · refine .inr (.inr ⟨hq, fun st hst => ?_⟩)
        rw [hp] at hst
        cases hst
        rfl
    · unfold Uses at hq
      rwa [Function.update_of_ne hqp] at hq
  · intro q hq
    rcases role_cases hq with ⟨-, he⟩ | ⟨-, hq⟩
    · cases he
    · exact h.reader q hq
  · intro q hl hq hst
    by_cases hqp : q = p
    · subst hqp
      refine h.held q hl (hne _ (by decide)) fun st hs => ?_
      rw [hp] at hs
      cases hs
      rfl
    · rw [Function.update_of_ne hqp] at hq hst
      exact h.held q hl hq hst
  · intro q st hq
    rcases role_cases hq with ⟨-, he⟩ | ⟨hqp, hq⟩
    · cases he
    · exact (h.stage q st hq).ref (ht q st hqp hq) _
  · exact fun h1 h2 h3 h4 => h.inMem h1 (hpos h2) h3 fun q =>
      ⟨none_at (hne _ (by decide)) (fun q => (h4 q).1) q,
        none_at (hne _ (by decide)) (fun q => (h4 q).2) q⟩

/-! ## The disk -/

section

omit [DecidableEq P]

/-- A free inode is allocated: no slot has a valid copy, but for one about to lose it. -/
theorem SlotOk.claim (h : SlotOk x d live dirty halted role) (hh : halted = false)
    (hd : d.type = 0) {d' : Dinode} (hd' : d'.type ≠ 0) :
    SlotOk x d' live dirty halted role := by
  have hno : 0 < x.ref → x.valid = true → ¬∀ p, role p ≠ some (.put .invalid) :=
    fun h1 h2 h3 => h.onDisk hh h1 h2 h3 hd
  have hpos : ∀ {q st}, role q = some (.put st) → 0 < x.ref := by
    intro q st hq
    have := one_le_putting hq
    have := h.count
    omega
  refine ⟨h.count, h.users, h.reader, h.held, ?_, h.clean,
    fun h1 h2 _ h4 => absurd h4 (hno h1 h2), fun _ _ _ _ => hd', h.inMem⟩
  intro q st hq
  have hs := h.stage q st hq
  cases st with
  | zero => exact absurd (h.none_else hq rfl rfl (by decide)) (hno (hpos hq) hs.1)
  | update => exact absurd (h.none_else hq rfl rfl (by decide)) (hno (hpos hq) hs.1)
  | enter | testRef | testValid | testNlink | lock | release | trunc | truncUpdate | invalid
  | unlock | again | drop => exact hs

/-- The disk does not matter to a slot that is not in use. -/
theorem SlotOk.unused (h : SlotOk x d live dirty halted role) (hr : x.ref = 0) (d' : Dinode) :
    SlotOk x d' live dirty halted role := by
  obtain ⟨-, -, hrole⟩ := h.idle hr
  refine ⟨h.count, h.users, h.reader, h.held, ?_, h.clean, ?_, ?_, ?_⟩
  · intro q st hq
    rw [hrole q] at hq
    cases hq
  · intro h1
    omega
  · intro _ h1
    omega
  · intro _ h1
    omega

/-- A panic. -/
theorem SlotOk.halt (h : SlotOk x d live dirty halted role) : SlotOk x d live dirty true role :=
  ⟨h.count, h.users, h.reader, h.held, h.stage, h.clean, h.agree, fun he => Bool.noConfusion he,
    fun he => Bool.noConfusion he⟩

end

end Xv6.Itable
