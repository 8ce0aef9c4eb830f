import Xv6.Proc.Handover

/-!
# No lost wakeup

`sleep` drops `lk` before the process is marked SLEEPING. What protects it in
between is its own `p->lock`, taken before `lk` was dropped and held until the
scheduler drops it, on another stack. `WInv` says who waits, and where a process
that has found its condition false can be:

> under `lk`, or under its own lock, or SLEEPING on the channel it tested.

A `wakeup` under `lk` comes by every other slot, with that slot's lock. A process
it passes was in none of the three places then (`seen`), and cannot get there
again while `lk` is held, since a test needs `lk`. So at the end of a `wakeup`
nobody is left who tested before it.
-/

namespace Xv6.Proc

open Lib

variable {C : Type*} [DecidableEq C] {s s' : Kernel C} {Γ Γ' : Views C} {c : C} {q : Slot}

/-- Process `p` has tested its condition under `l`, and sleeps on `ch` or is on
its way there. -/
def Waits (s : Kernel C) (Γ : Views C) (p : Slot) (ch : WaitChan) (l : Lock) : Prop :=
  (Γ (.proc p)).tst = some (ch, l) ∧ ((s.proc p).state = .SLEEPING ∨ ∃ c, s.exec c = some p)

structure WInv (s : Kernel C) (Γ : Views C) : Prop where
  /-- Nobody who waits has missed a `wakeup`. -/
  book : ∀ {p ch l}, Waits s Γ p ch l → s.test p = some (ch, l) ∧ s.missed p = false
  place : ∀ {p ch l c}, (Γ (.proc p)).tst = some (ch, l) → s.exec c = some p →
    (Γ (.proc p)).lk = some l ∨ (Γ (.proc p)).mode.slot = some p
  asleep : ∀ {p}, (s.proc p).state = .SLEEPING →
    ∃ ch l, (Γ (.proc p)).tst = some (ch, l) ∧ (s.proc p).chan = some ch
  seen : ∀ {t l q ch}, (Γ t).lk = some l → (Γ t).seen q ch → ¬Waits s Γ q ch l

omit [DecidableEq C] in
/-- A step after which nobody waits who did not wait before. -/
theorem WInv.of (h : WInv s Γ) (htest : s'.test = s.test) (hmissed : s'.missed = s.missed)
    (hw : ∀ {p ch l}, Waits s' Γ' p ch l → Waits s Γ p ch l)
    (hplace : ∀ {p ch l c}, (Γ' (.proc p)).tst = some (ch, l) → s'.exec c = some p →
      (Γ' (.proc p)).lk = some l ∨ (Γ' (.proc p)).mode.slot = some p)
    (hasleep : ∀ {p}, (s'.proc p).state = .SLEEPING →
      ∃ ch l, (Γ' (.proc p)).tst = some (ch, l) ∧ (s'.proc p).chan = some ch)
    (hseen : ∀ {t l q ch}, (Γ' t).lk = some l → (Γ' t).seen q ch →
      (Γ t).lk = some l ∧ (Γ t).seen q ch) : WInv s' Γ' := by
  refine ⟨fun hp => ?_, hplace, hasleep, fun hl hs hp => ?_⟩
  · rw [htest, hmissed]
    exact h.book (hw hp)
  · obtain ⟨hl, hs⟩ := hseen hl hs
    exact h.seen hl hs (hw hp)

/-- A view that waits for the same, and holds the same. -/
structure SameTest (Γ₀ Γ₁ : Ctx) : Prop where
  tst : Γ₁.tst = Γ₀.tst
  lk : Γ₁.lk = Γ₀.lk
  seen : Γ₁.seen = Γ₀.seen
  slot : ∀ q, Γ₀.mode.slot = some q → Γ₁.mode.slot = some q

theorem SameTest.update {t₀ : Thread C} {Γ₁ : Ctx} (h : SameTest (Γ t₀) Γ₁) (t : Thread C) :
    SameTest (Γ t) (Function.update Γ t₀ Γ₁ t) :=
  update_views (P := fun _ => SameTest) h (fun _ => ⟨rfl, rfl, rfl, fun _ => id⟩) t

omit [DecidableEq C] in
/-- A step that changes no test, and makes nobody SLEEPING but the process that
runs it. -/
theorem WInv.same (h : WInv s Γ) (htest : s'.test = s.test) (hmissed : s'.missed = s.missed)
    (hexec : s'.exec = s.exec) (hv : ∀ t, SameTest (Γ t) (Γ' t))
    (hold : ∀ {p}, (s'.proc p).state = .SLEEPING →
      (s.proc p).state = .SLEEPING ∨ ∃ c, s.exec c = some p)
    (hasleep : ∀ {p}, (s'.proc p).state = .SLEEPING →
      ∃ ch l, (Γ (.proc p)).tst = some (ch, l) ∧ (s'.proc p).chan = some ch) : WInv s' Γ' := by
  refine h.of htest hmissed (fun {p ch l} hp => ?_) (fun {p ch l c} ht hx => ?_)
    (fun {p} hp => ?_) (fun {t l q ch} hl hs => ?_)
  · refine ⟨(hv _).tst ▸ hp.1, ?_⟩
    rcases hp.2 with hp | hp
    · exact hold hp
    · exact .inr (hexec ▸ hp)
  · rw [(hv _).tst] at ht
    rw [hexec] at hx
    exact (h.place ht hx).imp ((hv _).lk.trans ·) ((hv _).slot _)
  · obtain ⟨ch, l, ht, hc⟩ := hasleep hp
    exact ⟨ch, l, (hv _).tst.trans ht, hc⟩
  · exact ⟨(hv t).lk ▸ hl, (hv t).seen ▸ hs⟩

/-- A step that changes no test and no record. -/
theorem WInv.quiet (h : WInv s Γ) {Γ₁ : Ctx} (htest : s'.test = s.test)
    (hmissed : s'.missed = s.missed) (hexec : s'.exec = s.exec) (hproc : s'.proc = s.proc)
    (hv : SameTest (Γ (s.thread c)) Γ₁) : WInv s' (Function.update Γ (s.thread c) Γ₁) := by
  refine h.same htest hmissed hexec hv.update ?_ ?_
  · rw [hproc]
    exact .inl
  · rw [hproc]
    exact h.asleep

omit [DecidableEq C] in
/-- A process that runs without its own lock is RUNNING. -/
theorem KInv.running (h : KInv s Γ) {p : Slot} (hx : s.exec c = some p)
    (hm : (Γ (s.thread c)).mode.slot ≠ some p) : (s.proc p).state = .RUNNING := by
  have hstable : Stable s Γ p → (s.proc p).state = .RUNNING := by
    rintro (⟨hrun, _⟩ | ⟨_, hi, _⟩)
    · exact hrun
    · exact absurd (h.exec hx) (hi c)
  cases hl : s.lock (.proc p) with
  | none => exact hstable ((h.slot p).free hl)
  | some c' =>
    have hcc : c' ≠ c := fun he => hm (h.slot_of_lock (he ▸ hl))
    have hok := (h.slot p).held hl
    generalize (Γ (s.thread c')).mode = m at hok
    cases hok with
    | held _ hst => exact hstable hst
    | fresh _ _ hi => exact absurd (h.exec hx) (hi c)
    | leaving _ _ hx' => exact absurd (h.inj (h.exec hx') (h.exec hx)) hcc
    | left _ _ hx' => exact absurd (h.inj (h.exec hx') (h.exec hx)) hcc
    | picked _ _ hi => exact absurd (h.exec hx) (hi c)
    | placed _ _ _ hp => exact absurd hx (hp.off c)
    | ready _ _ _ hp => exact absurd hx (hp.off c)
    | back _ _ hp => exact absurd hx (hp.off c)

/-! ## The steps that matter -/

/-- A test under `l`: nobody else holds `l`, so nobody has passed this process
since. -/
theorem WInv.tested (h : WInv s Γ) (hi : KInv s Γ) {Γ₀ : Ctx} {p : Slot} {ch : WaitChan} {l : Lock}
    {k : Code} (h₀ : Γ (s.thread c) = Γ₀) (hme : s.exec c = some p) (hm : Γ₀.mode = .free)
    (hl : Γ₀.lk = some l) :
    WInv ((s.goOn c k).note (.tested p ch l)) (Function.update Γ (s.thread c)
      { Γ₀ with tst := some (ch, l), seen := fun _ _ => False }) := by
  have ht : s.thread c = .proc p := thread_of_exec hme
  have hrun : (s.proc p).state = .RUNNING := hi.running hme (by rw [h₀, hm]; exact nofun)
  set Γ₁ : Ctx := { Γ₀ with tst := some (ch, l), seen := fun _ _ => False } with hΓ₁
  rw [ht] at h₀ ⊢
  have hself : Function.update Γ (.proc p) Γ₁ (.proc p) = Γ₁ := Function.update_self _ _ _
  have hne : ∀ {q}, q ≠ p → Function.update Γ (.proc p) Γ₁ (.proc q) = Γ (.proc q) :=
    fun hq => Function.update_of_ne (fun he => hq (Thread.proc.inj he)) _ _
  constructor
  case book =>
    rintro q ch' l' ⟨htst, hq⟩
    by_cases hqp : q = p
    · subst hqp
      rw [hself] at htst
      exact ⟨(Function.update_self _ _ _).trans htst, Function.update_self _ _ _⟩
    · rw [hne hqp] at htst
      obtain ⟨h₁, h₂⟩ := h.book ⟨htst, hq⟩
      exact ⟨(Function.update_of_ne hqp _ _).trans h₁, (Function.update_of_ne hqp _ _).trans h₂⟩
  case place =>
    intro q ch' l' c' htst hx
    by_cases hqp : q = p
    · subst hqp
      rw [hself] at htst ⊢
      obtain ⟨rfl, rfl⟩ := Prod.mk.inj (Option.some.inj htst)
      exact .inl hl
    · rw [hne hqp] at htst ⊢
      exact h.place htst hx
  case asleep =>
    intro q hq
    have hqp : q ≠ p := by
      rintro rfl
      cases hrun.symm.trans hq
    rw [hne hqp]
    exact h.asleep hq
  case seen =>
    intro t l' q ch' hlt hs
    by_cases htp : t = .proc p
    · rw [htp, hself] at hs
      exact hs.elim
    rw [Function.update_of_ne htp] at hlt hs
    rintro ⟨htst, hq⟩
    by_cases hqp : q = p
    · -- `t` would hold the lock of the test, too
      subst hqp
      rw [hself] at htst
      obtain ⟨rfl, rfl⟩ := Prod.mk.inj (Option.some.inj htst)
      obtain ⟨c', hc', hlc'⟩ := hi.lk hlt
      have hlc : s.lock l = some c := hi.lock_of_lk (by rw [ht, h₀, hl])
      obtain rfl := Option.some.inj (hlc.symm.trans hlc')
      exact htp (hc'.symm.trans ht)
    · rw [hne hqp] at htst
      exact h.seen hlt hs ⟨htst, hq⟩

omit [DecidableEq C] in
/-- A complete `wakeup` has passed everybody. -/
theorem WInv.woken (h : WInv s Γ) {Γ₀ : Ctx} {ch : WaitChan} {l : Lock}
    (h₀ : Γ (s.thread c) = Γ₀) (hl : Γ₀.lk = some l) (ht : Γ₀.tst = none)
    (hseen : ∀ q, s.exec c = some q ∨ Γ₀.seen q ch) : WInv (s.note (.woken ch l)) Γ := by
  refine ⟨fun {p ch' l'} hp => ?_, h.place, h.asleep, h.seen⟩
  obtain ⟨h₁, h₂⟩ := h.book hp
  refine ⟨h₁, ?_⟩
  have hne : (ch', l') ≠ (ch, l) := by
    rintro ⟨⟩
    rcases hseen p with hx | hs
    · have hnone : (Γ (.proc p)).tst = none := by rw [← thread_of_exec hx, h₀, ht]
      cases hnone.symm.trans hp.1
    · exact h.seen (h₀ ▸ hl) (h₀ ▸ hs) hp
  show (s.missed p || s.test p == some (ch, l)) = false
  rw [h₁, h₂]
  simpa using hne

/-- A look at a slot under `l`: its process is not waiting, or it is SLEEPING on
another channel. -/
theorem WInv.releaseProc (h : WInv s Γ) (hi : KInv s Γ) {Γ₀ : Ctx}
    (h₀ : Γ (s.thread c) = Γ₀) (hm : Γ₀.mode = .held q (s.proc q)) (ht : Γ₀.tst = none)
    (htest : s'.test = s.test) (hmissed : s'.missed = s.missed) (hexec : s'.exec = s.exec)
    (hproc : s'.proc = s.proc) :
    WInv s' (Function.update Γ (s.thread c)
      { Γ₀ with mode := .free, seen := Γ₀.saw q (s.proc q), par := none, hit := False }) := by
  set Γ₁ : Ctx := { Γ₀ with mode := .free, seen := Γ₀.saw q (s.proc q), par := none, hit := False }
    with hΓ₁
  have hlock : s.lock (.proc q) = some c := hi.mode (by rw [h₀, hm]; rfl)
  have hself : Function.update Γ (s.thread c) Γ₁ (s.thread c) = Γ₁ := Function.update_self _ _ _
  have htst : ∀ p, (Function.update Γ (s.thread c) Γ₁ (.proc p)).tst = (Γ (.proc p)).tst :=
    fun p => update_views (P := fun _ Γt Γt' => Γt'.tst = Γt.tst) (by rw [h₀]) (fun _ => rfl) _
  -- nobody is made to wait
  have hw : ∀ {p ch l}, Waits s' (Function.update Γ (s.thread c) Γ₁) p ch l → Waits s Γ p ch l := by
    intro p ch l hp
    rw [Waits, htst, hproc, hexec] at hp
    exact hp
  refine ⟨fun hp => ?_, fun {p ch l c'} hp hx => ?_, fun {p} hp => ?_,
    fun {t l q' ch} hl hs hp => ?_⟩
  · rw [htest, hmissed]
    exact h.book (hw hp)
  · rw [hexec] at hx
    rw [htst] at hp
    have hne : Thread.proc p ≠ s.thread c := by
      intro he
      rw [he, h₀, ht] at hp
      cases hp
    rw [Function.update_of_ne hne]
    exact h.place hp hx
  · rw [hproc] at hp ⊢
    rw [htst]
    exact h.asleep hp
  · by_cases htc : t = s.thread c
    · subst htc
      rw [hself] at hl hs
      rcases hs.2 with hs | ⟨rfl, hs⟩
      · exact h.seen (h₀ ▸ hl) (h₀ ▸ hs) (hw hp)
      · obtain ⟨hpt, hp'⟩ := hw hp
        -- the thread that looked is not the one that waits
        have hne : Thread.proc q' ≠ s.thread c := by
          intro he
          rw [he, h₀, ht] at hpt
          cases hpt
        rcases hp' with hsl | ⟨c', hx⟩
        · obtain ⟨ch', l', htst', hc'⟩ := h.asleep hsl
          obtain ⟨rfl, rfl⟩ := Prod.mk.inj (Option.some.inj (hpt.symm.trans htst'))
          exact hs ⟨hsl, hc'⟩
        · have hthread := thread_of_exec hx
          have hcc : c' = c := by
            rcases h.place hpt hx with hlk | hslot
            · have hlc' : s.lock l = some c' := hi.lock_of_lk (hthread ▸ hlk)
              have hlc : s.lock l = some c := hi.lock_of_lk (h₀ ▸ hl)
              exact Option.some.inj (hlc'.symm.trans hlc)
            · have hqc' : s.lock (.proc q') = some c' := hi.mode (hthread ▸ hslot)
              exact Option.some.inj (hqc'.symm.trans hlock)
          exact hne (hcc ▸ hthread.symm)
    · rw [Function.update_of_ne htc] at hl hs
      exact h.seen hl hs (hw hp)

/-- A thread takes or drops a lock other than a `p->lock`, and forgets whom it has
passed. -/
theorem WInv.relock (h : WInv s Γ) {Γ₁ : Ctx} (htest : s'.test = s.test)
    (hmissed : s'.missed = s.missed) (hexec : s'.exec = s.exec) (hproc : s'.proc = s.proc)
    (ht : Γ₁.tst = (Γ (s.thread c)).tst) (hseen : ∀ q ch, ¬Γ₁.seen q ch)
    (hplace : ∀ {p ch l}, s.exec c = some p → Γ₁.tst = some (ch, l) →
      Γ₁.lk = some l ∨ Γ₁.mode.slot = some p) : WInv s' (Function.update Γ (s.thread c) Γ₁) := by
  have hself : Function.update Γ (s.thread c) Γ₁ (s.thread c) = Γ₁ := Function.update_self _ _ _
  have htst : ∀ p, (Function.update Γ (s.thread c) Γ₁ (.proc p)).tst = (Γ (.proc p)).tst :=
    fun p => update_views (P := fun _ Γt Γt' => Γt'.tst = Γt.tst) ht (fun _ => rfl) _
  refine h.of htest hmissed (fun {p ch l} hp => ?_) (fun {p ch l c'} hp hx => ?_) (fun {p} hp => ?_)
    (fun {t l q ch} hl hs => ?_)
  · rw [Waits, htst, hproc, hexec] at hp
    exact hp
  · rw [hexec] at hx
    by_cases hpc : Thread.proc p = s.thread c
    · rw [hpc, hself] at hp ⊢
      exact hplace (exec_of_thread hpc.symm) hp
    · rw [Function.update_of_ne hpc] at hp ⊢
      exact h.place hp hx
  · rw [hproc] at hp ⊢
    rw [htst]
    exact h.asleep hp
  · by_cases htc : t = s.thread c
    · rw [htc, hself] at hs
      exact absurd hs (hseen q ch)
    · rw [Function.update_of_ne htc] at hl hs
      exact ⟨hl, hs⟩

/-- An assignment: only a process itself goes to sleep, on what it tested. -/
theorem WInv.write (h : WInv s Γ) (hi : KInv s Γ) {Γ₁ : Ctx} {f : Proc → Proc}
    (hw : Assign (s.exec c) (Γ (s.thread c)) q f Γ₁) (htest : s'.test = s.test)
    (hmissed : s'.missed = s.missed) (hexec : s'.exec = s.exec)
    (hproc : s'.proc = Function.update s.proc q (f (s.proc q))) :
    WInv s' (Function.update Γ (s.thread c) Γ₁) := by
  have hsame : SameTest (Γ (s.thread c)) Γ₁ := by
    obtain ⟨hlk, hseen⟩ := hw.keeps
    refine ⟨?_, hlk, hseen, fun q' hq' => ?_⟩
    · cases hw <;> rfl
    · obtain rfl := Option.some.inj (hw.slot.symm.trans hq')
      cases hw <;> rfl
  have hrest : ∀ {p}, p ≠ q → s'.proc p = s.proc p := fun hp => by
    rw [hproc, Function.update_of_ne hp]
  -- who is SLEEPING in `q` afterwards: whoever was, or the process itself, now
  have hq : (f (s.proc q)).state = .SLEEPING →
      (s.proc q).state = .SLEEPING ∧ (f (s.proc q)).chan = (s.proc q).chan ∨
      s.exec c = some q ∧ ∃ ch l, (Γ (s.thread c)).tst = some (ch, l) ∧
        (f (s.proc q)).chan = some ch := by
    intro hs
    cases hw with
    | same hm hst _ hc =>
      obtain rfl := hi.record hm rfl rfl
      have hold := hst.symm.trans hs
      exact .inl ⟨hold, hc hold⟩
    | leave hme hm _ hl =>
      obtain rfl := hi.record hm rfl rfl
      cases hl with
      | yields hst => rw [hs] at hst; cases hst
      | sleeps _ ht hc => exact .inr ⟨hme, _, _, ht, hc⟩
      | exits hst => rw [hs] at hst; cases hst
    | wake hm _ hf => rw [← hi.record hm rfl rfl, hs] at hf; cases hf
    | pick _ hm _ hf => rw [← hi.record hm rfl rfl, hs] at hf; cases hf
    | claim _ hm _ hf => rw [← hi.record hm rfl rfl] at hf; rw [hf] at hs; cases hs
    | fresh hm hf =>
      obtain ⟨rfl, hu, _⟩ := hi.of_fresh hm
      rw [hf, hu] at hs
      cases hs
    | start _ hm _ hf => rw [← hi.record hm rfl rfl, hs] at hf; cases hf
    | reap _ _ hm _ hf =>
      have hst := hf.state
      rw [← hi.record hm rfl rfl, hs] at hst
      cases hst
    | drop _ _ hm _ hf =>
      have hst := hf.state
      rcases hm with hm | hm <;> rw [← hi.record hm rfl rfl, hs] at hst <;> cases hst
  refine h.same htest hmissed hexec hsame.update (fun {p} hp => ?_) (fun {p} hp => ?_)
  · by_cases hpq : p = q
    · subst hpq
      rw [hproc, Function.update_self] at hp
      exact (hq hp).imp And.left fun hx => ⟨c, hx.1⟩
    · rw [hrest hpq] at hp
      exact .inl hp
  · by_cases hpq : p = q
    · subst hpq
      rw [hproc, Function.update_self] at hp ⊢
      rcases hq hp with ⟨hold, hc⟩ | ⟨hx, ch, l, ht, hc⟩
      · rw [hc]
        exact h.asleep hold
      · rw [thread_of_exec hx] at ht
        exact ⟨ch, l, ht, hc⟩
    · rw [hrest hpq] at hp ⊢
      exact h.asleep hp

/-- A process that is not SLEEPING is started, or started again: whatever it had
tested is forgotten. -/
theorem WInv.forget (h : WInv s Γ) {Γ₁ : Ctx} (hst : (s.proc q).state ≠ .SLEEPING)
    (ht : Γ₁.tst = none)
    (hseen : ∀ {l q' ch}, Γ₁.lk = some l → Γ₁.seen q' ch →
      (Γ (.proc q)).lk = some l ∧ (Γ (.proc q)).seen q' ch)
    (htest : s'.test = s.test) (hmissed : s'.missed = s.missed) (hproc : s'.proc = s.proc)
    (hexec : ∀ {c p}, p ≠ q → s'.exec c = some p → s.exec c = some p) :
    WInv s' (Function.update Γ (.proc q) Γ₁) := by
  have hself : Function.update Γ (.proc q) Γ₁ (.proc q) = Γ₁ := Function.update_self _ _ _
  have hne : ∀ {p}, p ≠ q → Function.update Γ (.proc q) Γ₁ (.proc p) = Γ (.proc p) :=
    fun hp => Function.update_of_ne (fun he => hp (Thread.proc.inj he)) _ _
  -- `q` waits for nothing
  have hother : ∀ {p ch l}, (Function.update Γ (.proc q) Γ₁ (.proc p)).tst = some (ch, l) →
      p ≠ q := by
    rintro p ch l hp rfl
    rw [hself, ht] at hp
    cases hp
  refine h.of htest hmissed (fun {p ch l} hp => ?_) (fun {p ch l c'} hp hx => ?_) (fun {p} hp => ?_)
    (fun {t l q' ch} hl hs => ?_)
  · have hpq := hother hp.1
    rw [Waits, hne hpq, hproc] at hp
    exact ⟨hp.1, hp.2.imp_right fun ⟨c, hc⟩ => ⟨c, hexec hpq hc⟩⟩
  · have hpq := hother hp
    rw [hne hpq] at hp ⊢
    exact h.place hp (hexec hpq hx)
  · rw [hproc] at hp ⊢
    have hpq : p ≠ q := fun he => hst (he ▸ hp)
    rw [hne hpq]
    exact h.asleep hp
  · by_cases htq : t = .proc q
    · rw [htq, hself] at hl hs
      rw [htq]
      exact hseen hl hs
    · rw [Function.update_of_ne htq] at hl hs
      exact ⟨hl, hs⟩

/-- **One step** keeps the books. -/
theorem gstep_winv (hi : KInv s Γ) (h : WInv s Γ) (hg : GStep s Γ c s' Γ') : WInv s' Γ' := by
  have hgo : ∀ k, WInv (s.goOn c k) Γ := by
    intro k
    rw [← Function.update_eq_self (s.thread c) Γ]
    exact h.quiet rfl rfl rfl rfl ⟨rfl, rfl, rfl, fun _ => id⟩
  cases hg with
  | quiet h₀ =>
    subst h₀
    exact h.quiet rfl rfl rfl rfl ⟨rfl, rfl, rfl, fun _ => id⟩
  | setParent h₀ =>
    subst h₀
    exact h.quiet rfl rfl rfl rfl ⟨rfl, rfl, rfl, fun _ => id⟩
  | tested h₀ hme hm hl => exact h.tested hi h₀ hme hm hl
  | @woken Γ₀ ch l k h₀ hl ht hseen => exact (hgo k).woken h₀ hl ht hseen
  | @marked Γ₀ pid q k h₀ =>
    exact ⟨(hgo k).book, (hgo k).place, (hgo k).asleep, (hgo k).seen⟩
  | acquireProc h₀ hm =>
    subst h₀
    refine h.quiet rfl rfl rfl rfl ⟨rfl, rfl, rfl, fun q' hq' => ?_⟩
    rw [hm] at hq'
    cases hq'
  | acquireLk h₀ ho hm hn ht =>
    subst h₀
    exact h.relock rfl rfl rfl rfl rfl (fun _ _ => id) fun _ hp => nomatch ht.symm.trans hp
  | releaseProc h₀ hm ht => exact h.releaseProc hi h₀ hm ht rfl rfl rfl rfl
  | releaseLk h₀ ho hl ht =>
    subst h₀
    refine h.relock rfl rfl rfl rfl rfl (fun _ _ => id) fun hx hp => ?_
    -- in `sleep`, with its own lock
    rcases ht with ht | ⟨q, r, hme, hm⟩
    · cases ht.symm.trans hp
    · obtain rfl := Option.some.inj (hme.symm.trans hx)
      exact .inr (congrArg Mode.slot hm)
  | write h₀ hw => exact h.write hi (h₀ ▸ hw) rfl rfl rfl rfl
  | @context Γ₀ q k h₀ hm =>
    subst h₀
    obtain ⟨_, hs, _⟩ := hi.of_fresh hm
    have hstage : WInv (s.goOn c k) (Function.update Γ (s.thread c)
        { Γ (s.thread c) with mode := .held q (s.proc q) }) :=
      h.quiet rfl rfl rfl rfl ⟨rfl, rfl, rfl, fun q' hq' => by rw [hm] at hq'; exact hq'⟩
    exact hstage.forget (fun hsl => nomatch hs.symm.trans hsl) rfl (fun hl => nomatch hl) rfl rfl
      rfl fun _ => id
  | setProc h₀ _ hm =>
    subst h₀
    exact h.quiet rfl rfl rfl rfl ⟨rfl, rfl, rfl, fun q' hq' => by rw [hm] at hq'; exact hq'⟩
  | clearProc h₀ _ hm =>
    subst h₀
    exact h.quiet rfl rfl rfl rfl ⟨rfl, rfl, rfl, fun q' hq' => by rw [hm] at hq'; exact hq'⟩
  | saveOut h₀ _ hm =>
    subst h₀
    exact h.quiet rfl rfl rfl rfl ⟨rfl, rfl, rfl, fun q' hq' => by rw [hm] at hq'; exact hq'⟩
  | saveIn h₀ _ hm =>
    subst h₀
    exact h.quiet rfl rfl rfl rfl ⟨rfl, rfl, rfl, fun q' hq' => by rw [hm] at hq'; exact hq'⟩
  | loadOut h₀ hme hm hl =>
    have hexec : ∀ {c' p}, Function.update s.exec c none c' = some p → s.exec c' = some p := by
      intro c' p hx
      by_cases hcc : c' = c
      · rw [hcc, Function.update_self] at hx
        cases hx
      · rwa [Function.update_of_ne hcc] at hx
    refine h.of rfl rfl (fun hp => ⟨hp.1, hp.2.imp_right fun ⟨c', hc'⟩ => ⟨c', hexec hc'⟩⟩)
      (fun ht hx => h.place ht (hexec hx)) h.asleep fun hl hs => ⟨hl, hs⟩
  | @loadIn Γ₀ q k h₀ hme hm hl =>
    have ht : s.thread c = .sched c := thread_of_idle hme
    obtain ⟨_, hok⟩ := hi.heldOk (h₀ ▸ hm) (rfl : (Mode.ready q (s.proc q)).slot = some q)
    have hst : (s.proc q).state ≠ .SLEEPING := by
      cases hok with
      | ready _ hs => simp [hs]
    have hstage : WInv s (Function.update Γ (.sched c) { Γ₀ with mode := .back q }) := by
      rw [← ht]
      subst h₀
      exact h.quiet rfl rfl rfl rfl ⟨rfl, rfl, rfl, fun q' hq' => by rw [hm] at hq'; exact hq'⟩
    refine hstage.forget hst rfl (fun hl hs => ?_) rfl rfl rfl fun {c' p} hpq hx => ?_
    · rw [Function.update_of_ne (sched_ne_proc c q).symm]
      exact ⟨hl, hs⟩
    · by_cases hcc : c' = c
      · have hself : Function.update s.exec c (some q) c = some q := Function.update_self _ _ _
        exact absurd (Option.some.inj (hself.symm.trans (hcc ▸ hx))).symm hpq
      · exact (Function.update_of_ne hcc _ _).symm.trans hx

omit [DecidableEq C] in
theorem init_winv {cfg : Config} (h : Init cfg s) : WInv s fun _ => .user := by
  refine ⟨fun hp => (nomatch hp.1), nofun, fun {p} hp => ?_, nofun⟩
  by_cases hpi : p = cfg.initproc
  · rw [hpi, h.init] at hp
    cases hp
  · rw [h.other p hpi] at hp
    cases hp

/-- **No lost wakeup.** In every reachable state, whatever locks are held, a
process that is SLEEPING on a channel has tested its condition under some lock
before, and no `wakeup` of that channel under that lock has been completed since
then. -/
theorem no_lost_wakeup {cfg : Config} (h : Reach (step cfg) Any (Init cfg) s) {p : Slot}
    (hs : (s.proc p).state = .SLEEPING) :
    ∃ ch l, (s.proc p).chan = some ch ∧ s.test p = some (ch, l) ∧ s.missed p = false := by
  obtain ⟨Γ, _, hw⟩ := reach_views init_winv (fun hi hw _ hg => gstep_winv hi hw hg) h
  obtain ⟨ch, l, ht, hc⟩ := hw.asleep hs
  exact ⟨ch, l, hc, hw.book ⟨ht, .inl hs⟩⟩

/-! ## A scan that finds nobody -/

section Scan

variable (cfg : Config) {v : Version} {k : Code}

theorem goOn_goOn (s : Kernel C) (c : C) (k k' : Code) : (s.goOn c k).goOn c k' = s.goOn c k' := by
  show ({ s with code := Function.update (Function.update s.code (s.thread c) k) (s.thread c) k' } :
    Kernel C) = _
  rw [Function.update_idem]
  rfl

theorem goOn_cur (hc : s.cur c = k) : s.goOn c k = s := by
  unfold Kernel.goOn
  rw [← hc]
  show ({ s with code := Function.update s.code (s.thread c) (s.code (s.thread c)) } :
    Kernel C) = s
  rw [Function.update_eq_self]

/-- CPU `c` has `l`, and goes on with `k`. -/
def Kernel.locked (s : Kernel C) (c : C) (l : Lock) (k : Code) : Kernel C :=
  { s.goOn c k with
    lock := Function.update s.lock l (some c), noff := Function.update s.noff c (s.noff c + 1) }

theorem cur_locked (s : Kernel C) (c : C) (l : Lock) (k : Code) : (s.locked c l k).cur c = k := by
  show Function.update s.code (s.thread c) k (s.thread c) = k
  rw [Function.update_self]

theorem lock_locked {l l' : Lock} (hl : l' ≠ l) (k : Code) :
    (s.locked c l k).lock l' = s.lock l' := by
  show Function.update s.lock l (some c) l' = s.lock l'
  rw [Function.update_of_ne hl]

theorem goOn_locked (s : Kernel C) (c : C) (l : Lock) (k k' : Code) :
    (s.locked c l k).goOn c k' = s.locked c l k' := by
  show ({ s.locked c l k with
    code := Function.update (Function.update s.code (s.thread c) k) (s.thread c) k' } :
      Kernel C) = _
  rw [Function.update_idem]
  rfl

theorem locked_goOn (s : Kernel C) (c : C) (l : Lock) (k k' : Code) :
    (s.goOn c k).locked c l k' = s.locked c l k' := by
  unfold Kernel.locked
  rw [goOn_goOn]
  rfl

/-- A lock that is taken and given back. -/
theorem release_locked {l : Lock} (hl : s.lock l = none) (k k' : Code) :
    (s.locked c l k').release c l k = s.goOn c k := by
  unfold Kernel.release
  rw [if_pos (show (s.locked c l k').lock l = some c from Function.update_self ..), goOn_locked]
  show ({ s.goOn c k with
    lock := Function.update (Function.update s.lock l (some c)) l none
    noff := Function.update (Function.update s.noff c (s.noff c + 1)) c
      (Function.update s.noff c (s.noff c + 1) c - 1) } : Kernel C) = _
  rw [Function.update_idem, Function.update_idem, Function.update_self, Nat.add_sub_cancel,
    Function.update_eq_self, ← hl, Function.update_eq_self]
  rfl

theorem run_one {a : Choice} (hs : s.exec1 cfg c a = some s') :
    runFrom (step cfg) s [.step c a] = some s' := by
  show (s.exec1 cfg c a).bind some = _
  rw [hs]
  rfl

theorem run_acquire {l : Lock} (hc : s.cur c = .acquire l k) (hl : s.lock l = none) :
    runFrom (step cfg) s [.step c .no] = some (s.locked c l k) := by
  refine run_one cfg ?_
  unfold Kernel.exec1
  rw [hc]
  simp only [Kernel.acquire, hl]
  rfl

theorem run_release {l : Lock} (hc : s.cur c = .release l k) :
    runFrom (step cfg) s [.step c .no] = some (s.release c l k) :=
  run_one cfg (by unfold Kernel.exec1; rw [hc])

theorem run_read {f : Proc → Code} (hc : s.cur c = .read q f) :
    runFrom (step cfg) s [.step c .no] = some (s.goOn c (f (s.proc q))) :=
  run_one cfg (by unfold Kernel.exec1; rw [hc])

/-- A call that can be made. -/
theorem run_call {p : Slot} {f : Call} (hx : s.exec c = some p)
    (hcan : (step cfg s (.call c f)).isSome) :
    runFrom (step cfg) s [.call c f] = some (s.goOn c (f.code cfg p)) := by
  obtain ⟨s', hs'⟩ := Option.isSome_iff_exists.mp hcan
  rw [runFrom_cons, hs']
  unfold step at hs'
  simp only [hx] at hs'
  split at hs'
  · exact congrArg some (Option.some.inj hs').symm
  · cases hs'

theorem run_jump {l : Loop} (hc : s.cur c = .jump l) :
    runFrom (step cfg) s [.step c .no] = some (s.goOn c (Code.loop cfg.v l)) :=
  run_one cfg (by unfold Kernel.exec1; rw [hc])

theorem run_choose {f : Choice → Code} (a : Choice) (hc : s.cur c = .choose f) :
    runFrom (step cfg) s [.step c a] = some (s.goOn c (f a)) :=
  run_one cfg (by unfold Kernel.exec1; rw [hc])

theorem run_readParent {f : Option Slot → Code} (hc : s.cur c = .readParent q f) :
    runFrom (step cfg) s [.step c .no] = some (s.goOn c (f (s.parent q))) :=
  run_one cfg (by unfold Kernel.exec1; rw [hc])

/-- A process is looked at under its lock. -/
theorem glance {f : Proc → Code} (hc : s.cur c = .acquire (.proc q) (.read q f))
    (hl : s.lock (.proc q) = none) (hf : f (s.proc q) = .release (.proc q) k) :
    runFrom (step cfg) s [.step c .no, .step c .no, .step c .no] = some (s.goOn c k) := by
  have hread := run_read cfg (cur_locked s c (.proc q) (.read q f))
  rw [goOn_locked, show f ((s.locked c (.proc q) (.read q f)).proc q) = _ from hf] at hread
  have hrelease := run_release cfg (cur_locked s c (.proc q) (.release (.proc q) k))
  rw [release_locked hl] at hrelease
  exact runFrom_append (runFrom_append (run_acquire cfg hc hl) hread) hrelease

/-- `wakeup` finds nobody asleep on the channel. -/
theorem wakeup_passes (me : Option Slot) (ch : Option WaitChan) :
    ∀ (qs : List Slot) {s : Kernel C}, s.cur c = Code.wakeup v me ch qs k →
    (∀ q ∈ qs, s.lock (.proc q) = none ∧ ¬((s.proc q).state = .SLEEPING ∧ (s.proc q).chan = ch)) →
    ∃ as, runFrom (step cfg) s as = some (s.goOn c k) := by
  intro qs
  induction qs with
  | nil => exact fun {s} hc _ => ⟨[], congrArg some (goOn_cur hc).symm⟩
  | cons q qs ih =>
    intro s hc hq
    have hrest := fun q' hq' => hq q' (List.mem_cons_of_mem q hq')
    rw [Code.wakeup] at hc
    split at hc
    next => exact ih hc hrest
    next =>
      obtain ⟨hl, hst⟩ := hq q List.mem_cons_self
      have hround := glance cfg (k := Code.wakeup v me ch qs k) hc hl (if_neg hst)
      obtain ⟨as, has⟩ := @ih (s.goOn c (Code.wakeup v me ch qs k)) (cur_goOn _ _ _) hrest
      exact ⟨_, (runFrom_append hround has).trans (congrArg some (goOn_goOn _ _ _ _))⟩

/-- A process that takes lock `n` and wakes `ch`, on which nobody sleeps. -/
theorem wakes_early {p : Slot} {n : Nat} {ch : WaitChan} (hx : s.exec c = some p)
    (hcan : (step cfg s (.call c (.crit n))).isSome) (hn : s.lock (.obj n) = none)
    (hl : ∀ q, s.lock (.proc q) = none ∧
      ¬((s.proc q).state = .SLEEPING ∧ (s.proc q).chan = some ch)) :
    ∃ as, runFrom (step cfg) s as =
      some (s.locked c (.obj n) (.note (.woken ch (.obj n)) <| .jump (.crit p n))) := by
  have hcall := run_call cfg hx hcan
  have hlock := run_acquire cfg (cur_goOn s c (.crit p n)) hn
  rw [locked_goOn] at hlock
  have hjump := run_jump cfg (cur_locked s c (.obj n) (.jump (.crit p n)))
  rw [goOn_locked] at hjump
  have hwake := run_choose cfg (.wake ch) (cur_locked s c (.obj n) (Code.critBody cfg.v p n))
  rw [goOn_locked] at hwake
  obtain ⟨as, has⟩ := wakeup_passes cfg (v := cfg.v)
    (k := .note (.woken ch (.obj n)) <| .jump (.crit p n)) (some p) (some ch) Code.slots
    (cur_locked s c (.obj n) _) fun q _ =>
      ⟨(lock_locked Lock.noConfusion _).trans (hl q).1, (hl q).2⟩
  rw [goOn_locked] at has
  exact ⟨_, runFrom_append (runFrom_append (runFrom_append (runFrom_append hcall hlock) hjump)
    hwake) has⟩

end Scan

/-- `initproc` is dispatched. -/
def initRuns : List (Act (Fin 2)) :=
  .dispatch hart0 0 :: List.replicate 7 (.step hart0 .no)

def running : Kernel (Fin 2) :=
  (runFrom (step ⟨.v6, 0⟩) (Kernel.boot (Fin 2)) initRuns).getD (Kernel.boot (Fin 2))

/-- It has taken lock 5 and woken channel 7, where nobody sleeps yet. -/
def woken : Kernel (Fin 2) :=
  running.locked hart0 (.obj 5) (.note (.woken (.obj 7) (.obj 5)) <| .jump (.crit 0 5))

/-- It finds its condition false and sleeps on channel 7; CPU 0 is back in its scheduler. -/
def sleepRun : List (Act (Fin 2)) :=
  List.replicate 2 (.step hart0 .no) ++ .step hart0 (.wait (.obj 7)) ::
    List.replicate 10 (.step hart0 .no)

theorem woken_reach : Reach (step ⟨.v6, 0⟩) Any (Init ⟨.v6, 0⟩) woken := by
  have hsome : (runFrom (step ⟨.v6, 0⟩) (Kernel.boot (Fin 2)) initRuns).isSome := by
    decide +kernel
  have hrun : runFrom (step ⟨.v6, 0⟩) (Kernel.boot (Fin 2)) initRuns = some running :=
    Option.eq_some_iff_get_eq.mpr ⟨hsome, Option.get_eq_getD _⟩
  have hcan : running.exec hart0 = some 0 ∧
      (step ⟨.v6, 0⟩ running (.call hart0 (.crit 5))).isSome := by
    decide +kernel
  have hfree : running.lock (.obj 5) = none ∧ ∀ q, running.lock (.proc q) = none ∧
      ¬((running.proc q).state = .SLEEPING ∧ (running.proc q).chan = some (.obj 7)) := by
    decide +kernel
  obtain ⟨as, has⟩ := wakes_early ⟨.v6, 0⟩ hcan.1 hcan.2 hfree.1 hfree.2
  have hreach : Reach (step ⟨.v6, 0⟩) Any (Init ⟨.v6, 0⟩) running :=
    .of_run initRuns (.start (boot_init .v6)) (RunOk.any _ _ _) hrun
  exact .of_run _ hreach (RunOk.any _ _ _) has

theorem no_lost_wakeup_asleep :
    ∃ s : Kernel (Fin 2), runFrom (step ⟨.v6, 0⟩) woken sleepRun = some s ∧
      s.lock (.obj 5) = none ∧ (s.proc 0).state = .SLEEPING ∧
      ∃ ch l, (s.proc 0).chan = some ch ∧ s.test 0 = some (ch, l) ∧ s.missed 0 = false := by
  have hobs : (runFrom (step ⟨.v6, 0⟩) woken sleepRun).map
      (fun s => (s.lock (.obj 5), (s.proc 0).state)) = some (none, .SLEEPING) := by decide +kernel
  obtain ⟨s, hs, hobs⟩ := Option.map_eq_some_iff.mp hobs
  obtain ⟨hlock, hsleep⟩ := Prod.mk.inj hobs
  have hreach : Reach (step ⟨.v6, 0⟩) Any (Init ⟨.v6, 0⟩) s :=
    .of_run sleepRun woken_reach (RunOk.any _ _ _) hs
  exact ⟨s, hs, hlock, hsleep, no_lost_wakeup hreach hsleep⟩

end Xv6.Proc
