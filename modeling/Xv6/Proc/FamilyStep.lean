import Xv6.Proc.Family

/-!
# Births and deaths

The steps that change the family: assignments to a slot's state, assignments to a
parent, a context made for a child, and a CPU that switches to another stack. For
an assignment to a slot only that slot has to be looked at (`FamOk.put`,
`OwnOk.put`), and there is one lemma for each way a state may change. `fam_step`
puts the steps together.

> `FamInv` survives every step, and the exit status of a zombie changes hands
> only where a `kwait` returns it (`Turn`).
-/

namespace Xv6.Proc

open Lib

variable {C : Type*} [DecidableEq C]

section
variable {cfg : Config} {s s' : Kernel C} {Γ : Views C} {Δ : Kins C} {Δ₁ : Kin} {c : C} {q : Slot}
  {k : Code}

/-! ## Assignments to a slot -/

section
variable {f : Proc → Proc}

/-- The machine after `f` has been assigned to slot `q`. -/
abbrev Kernel.put (s : Kernel C) (c : C) (q : Slot) (f : Proc → Proc) (k : Code) : Kernel C :=
  { s.goOn c k with proc := Function.update s.proc q (f (s.proc q)) }

theorem put_self : ((s.put c q f k).proc q).state = (f (s.proc q)).state :=
  congrArg Proc.state (Function.update_self _ _ _)

theorem put_ne {x : Slot} (hx : x ≠ q) : ((s.put c q f k).proc x).state = (s.proc x).state :=
  congrArg Proc.state (Function.update_of_ne hx _ _)

/-- The family after an assignment: only slot `q` has to be looked at. -/
theorem FamOk.put {initproc : Slot} {Δ' : Kins C} (h : FamOk initproc s Δ)
    (halive : Alive (s.proc q).state → Alive (f (s.proc q)).state ∨
      (∀ x, s.parent x ≠ some q) ∧ q ≠ initproc)
    (hunused : (f (s.proc q)).state = .UNUSED → s.parent q = none)
    (hkid : q ≠ initproc → Alive (f (s.proc q)).state → s.parent q ≠ none)
    (hzomb : (f (s.proc q)).state = .ZOMBIE → ¬Freeing Δ' q → s.parent q ≠ none)
    (hheard : (f (s.proc q)).state = .ZOMBIE → ∀ {o}, s.parent q = some o →
      Told s o ∨ o = initproc ∧ Owes Δ')
    (hfree : ∀ {x}, x ≠ q → Freeing Δ x → Freeing Δ' x) (howes : Owes Δ → Owes Δ') :
    FamOk initproc (s.put c q f k) Δ' := by
  constructor
  case par =>
    intro x o hx
    by_cases ho : o = q
    · subst ho
      rw [put_self]
      exact (halive (h.par hx)).resolve_right fun hno => hno.1 x hx
    · rw [put_ne ho]
      exact h.par hx
  case free =>
    intro x hx
    by_cases hxq : x = q
    · subst hxq
      rw [put_self] at hx
      exact hunused hx
    · rw [put_ne hxq] at hx
      exact h.free hx
  case kid =>
    intro x hne hx
    by_cases hxq : x = q
    · subst hxq
      rw [put_self] at hx
      exact hkid hne hx
    · rw [put_ne hxq] at hx
      exact h.kid hne hx
  case zomb =>
    intro x hx hf
    by_cases hxq : x = q
    · subst hxq
      exact hzomb (put_self.symm.trans hx) hf
    · exact h.zomb ((put_ne hxq).symm.trans hx) fun hf' => hf (hfree hxq hf')
  case init =>
    by_cases hiq : initproc = q
    · subst hiq
      rw [put_self]
      exact (halive h.init).resolve_right fun hno => hno.2 rfl
    · rw [put_ne hiq]
      exact h.init
  case heard =>
    intro x o hx ho
    by_cases hxq : x = q
    · subst hxq
      exact hheard (put_self.symm.trans hx) ho
    · exact (h.heard ((put_ne hxq).symm.trans hx) ho).imp_right fun hor => ⟨hor.1, howes hor.2⟩

/-- No child is added to those that are being set up. -/
theorem OwnOk.put {t₀ : Thread C} (h : OwnOk s Δ)
    (hown : ∀ {x g}, Δ₁.own = some (x, g) → (Δ t₀).own = some (x, g))
    (hused : ∀ {t g}, (Function.update Δ t₀ Δ₁ t).own = some (q, g) → (f (s.proc q)).state = .USED)
    (halive : (Function.update Δ t₀ Δ₁ (.proc q)).own ≠ none → Alive (s.proc q).state →
      Alive (f (s.proc q)).state) :
    OwnOk (s.put c q f k) (Function.update Δ t₀ Δ₁) := by
  have hless : ∀ {t x g}, (Function.update Δ t₀ Δ₁ t).own = some (x, g) →
      (Δ t).own = some (x, g) := by
    intro t x g ht
    by_cases he : t = t₀
    · rw [he, Function.update_self] at ht
      exact he ▸ hown ht
    · rwa [Function.update_of_ne he] at ht
  refine ⟨fun {t x g} hx => ?_, fun hx => h.bare (hless hx), fun hx => h.linked (hless hx),
    fun hx hx' => h.inj (hless hx) (hless hx'), fun {p} hp => ?_⟩
  · by_cases hxq : x = q
    · subst hxq
      rw [put_self]
      exact hused hx
    · rw [put_ne hxq]
      exact h.used (hless hx)
  · obtain ⟨⟨x, g⟩, hx⟩ := Option.ne_none_iff_exists'.mp hp
    have ha := h.alive (p := p) (by rw [hless hx]; exact Option.some_ne_none _)
    by_cases hpq : p = q
    · subst hpq
      rw [put_self]
      exact halive hp ha
    · rw [put_ne hpq]
      exact ha

/-- **An assignment**, given what it does to the children being set up, to the
zombies and to the family. -/
theorem FamInv.put (h : FamInv cfg s Δ) (hi : KInv s Γ) {st : ProcState}
    (hq : (Δ (s.thread c)).has = some (q, st))
    (hk : Keeps cfg.initproc (s.exec c) k Δ₁) (hw : Δ₁.wait = (Δ (s.thread c)).wait)
    (hhas : Δ₁.has = some (q, (f (s.proc q)).state)) (htold : Δ₁.told = (Δ (s.thread c)).told)
    (hres : ∀ p, Resumable (s.put c q f k) (Function.update Δ (s.thread c) Δ₁) p → Resumable s Δ p)
    (hown : OwnOk (s.put c q f k) (Function.update Δ (s.thread c) Δ₁))
    (hknow : Δ₁.wait = true → Δ₁.know s.parent (zombies (s.put c q f k)))
    (hz : (Δ (s.thread c)).wait = false → zombies (s.put c q f k) = zombies s)
    (hfam : FamOk cfg.initproc (s.put c q f k) (Function.update Δ (s.thread c) Δ₁)) :
    FamInv cfg (s.put c q f k) (Function.update Δ (s.thread c) Δ₁) := by
  obtain ⟨hlq, -⟩ := h.hold.has hq
  refine ⟨h.code.goOn hi rfl rfl hk hres, ?_, hown, fun {t} hwt => ?_, hfam⟩
  · refine h.hold.goOn hi rfl (fun hw₁ => h.hold.lock_wait hi (hw ▸ hw₁)) (fun {x st'} hx => ?_)
      (fun _ hl => hl) fun {c' x} hc' hl => ⟨hl, put_ne fun hxq => ?_⟩
    · rw [hhas] at hx
      obtain ⟨rfl, rfl⟩ := Prod.mk.inj (Option.some.inj hx)
      exact ⟨hlq, put_self⟩
    · rw [hxq, hlq, Option.some.injEq] at hl
      exact hc' hl.symm
  · by_cases ht : t = s.thread c
    · rw [ht, Function.update_self] at hwt ⊢
      exact ⟨hknow hwt, fun hT => (h.know (hw ▸ hwt)).2 (htold ▸ hT)⟩
    · rw [Function.update_of_ne ht] at hwt ⊢
      have hfree : (Δ (s.thread c)).wait = false := by
        by_contra hne
        exact ht (h.hold.only hwt (by simpa using hne))
      refine ⟨?_, (h.know hwt).2⟩
      show (Δ t).know s.parent (zombies (s.put c q f k))
      rw [hz hfree]
      exact (h.know hwt).1

/-- The zombies are the same if `q` is none before and after. -/
theorem zombies_put (h : (s.proc q).state ≠ .ZOMBIE) (h' : (f (s.proc q)).state ≠ .ZOMBIE) :
    zombies (s.put c q f k) = zombies s := by
  funext x
  unfold zombies
  by_cases hx : x = q
  · subst hx
    rw [put_self]
    exact propext ⟨fun he => absurd he h', fun he => absurd he h⟩
  · rw [put_ne hx]

/-- Who can be resumed after the assignment could be before it. -/
theorem Resumable.of_put {t₀ : Thread C} {p : Slot}
    (h : Resumable (s.put c q f k) (Function.update Δ t₀ Δ₁) p)
    (hq : p = q → (s.proc q).state ≠ .UNUSED ∧ (s.proc q).state ≠ .ZOMBIE)
    (ho : ∀ x, (Δ t₀).own = some (x, .fresh) → Δ₁.own = some (x, .fresh) ∨ x = q)
    (hf : p = q → ∀ t, (Δ t).own ≠ some (q, .fresh)) : Resumable s Δ p := by
  by_cases hp : p = q
  · subst hp
    exact ⟨h.off, (hq rfl).1, (hq rfl).2, hf rfl⟩
  · have hst : ((s.put c q f k).proc p).state = (s.proc p).state := put_ne hp
    refine ⟨h.off, hst ▸ h.unused, hst ▸ h.zombie, fun t ht => ?_⟩
    have hfr := h.fresh t
    by_cases he : t = t₀
    · rw [he, Function.update_self] at hfr
      exact (ho p (he ▸ ht)).elim hfr hp
    · rw [Function.update_of_ne he] at hfr
      exact hfr ht

theorem FamInv.move (h : FamInv cfg s Δ) (hi : KInv s Γ) {st st' : ProcState}
    (hq : (Δ (s.thread c)).has = some (q, st)) (ha : Alive st) (ha' : Alive st')
    (hf : ∀ r, (f r).state = st')
    (hk : Keeps cfg.initproc (s.exec c) k { Δ (s.thread c) with has := some (q, st') }) :
    FamInv cfg (s.put c q f k)
      (Function.update Δ (s.thread c) { Δ (s.thread c) with has := some (q, st') }) := by
  obtain ⟨-, hst⟩ := h.hold.has hq
  have hold : ∀ x, (s.proc q).state = x → Alive x := fun x hx => by rw [← hx, hst]; exact ha
  have hnew : ∀ x, (f (s.proc q)).state = x → Alive x := fun x hx => by rw [← hx, hf]; exact ha'
  have hz : zombies (s.put c q f k) = zombies s :=
    zombies_put (fun he => hold _ he) fun he => hnew _ he
  have hnone : ∀ t g, (Δ t).own ≠ some (q, g) := fun t g ho => hold _ (h.own.used ho)
  have hown : ∀ t g, (Function.update Δ (s.thread c)
      { Δ (s.thread c) with has := some (q, st') } t).own ≠ some (q, g) :=
    fun t g => updated (P := fun _ Δ => Δ.own ≠ some (q, g)) (hnone _ g) fun _ => hnone t g
  refine h.put hi hq hk rfl (by rw [hf]) rfl (fun p hp => hp.of_put (fun _ => ⟨?_, ?_⟩) ?_ ?_)
    (h.own.put id (fun {t g} ho => absurd ho (hown t g)) fun _ _ => hnew _ rfl)
    (fun hw => ?_) (fun _ => hz) (h.fam.put ?_ ?_ ?_ ?_ ?_ (fun _ hfr => hfr.keep rfl rfl) ?_)
  · exact fun he => hold _ he
  · exact fun he => hold _ he
  · exact fun x hx => .inl hx
  · exact fun _ t => hnone t _
  · rw [hz]
    exact (h.know hw).1
  · exact fun _ => .inl (hnew _ rfl)
  · exact fun he => (hnew _ he).elim
  · exact fun hne _ => h.fam.kid hne (hold _ rfl)
  · exact fun he => (hnew _ he).elim
  · exact fun he => (hnew _ he).elim
  · exact fun ho => owes_update ho fun hw ho => ⟨hw, ho⟩

omit [DecidableEq C] in
/-- A process that holds another slot's lock is RUNNING. -/
theorem HoldOk.alive (h : HoldOk s Δ) (hi : KInv s Γ) {p : Slot} {st : ProcState}
    (hq : (Δ (s.thread c)).has = some (q, st)) (hx : s.exec c = some p) (hpq : p ≠ q) :
    Alive (s.proc p).state := by
  have hslot := hi.slot_of_lock (h.has hq).1
  rw [hi.running hx (by rw [hslot]; exact fun he => hpq (Option.some.inj he).symm)]
  trivial

omit [DecidableEq C] in
/-- A thread has `q` at stage `g₀`; the other children are where they were. -/
theorem OwnOk.staged {Δ' : Kins C} {t₀ : Thread C} {g₀ : Stage} (h : OwnOk s Δ)
    (hs : ∀ {t x g}, (Δ' t).own = some (x, g) →
      t = t₀ ∧ x = q ∧ g = g₀ ∨ x ≠ q ∧ (Δ t).own = some (x, g))
    (hst : (s'.proc q).state = .USED) (hproc : ∀ {x}, x ≠ q → (s'.proc x).state = (s.proc x).state)
    (hpar : ∀ {x}, x ≠ q → s'.parent x = s.parent x) (hbare : g₀ ≠ .linked → s'.parent q = none)
    (hlinked : g₀ = .linked → ∃ p, t₀ = .proc p ∧ s'.parent q = some p)
    (halive : ∀ {p}, (Δ' (.proc p)).own ≠ none → Alive (s'.proc p).state) : OwnOk s' Δ' := by
  refine ⟨fun {t x g} hx => ?_, fun {t x g} hx hg => ?_, fun {t x} hx => ?_,
    fun {t t' x g g'} hx hx' => ?_, halive⟩
  · rcases hs hx with ⟨-, rfl, -⟩ | ⟨hxq, hx⟩
    · exact hst
    · rw [hproc hxq]
      exact h.used hx
  · rcases hs hx with ⟨-, rfl, rfl⟩ | ⟨hxq, hx⟩
    · exact hbare hg
    · rw [hpar hxq]
      exact h.bare hx hg
  · rcases hs hx with ⟨rfl, rfl, hg⟩ | ⟨hxq, hx⟩
    · exact hlinked hg.symm
    · rw [hpar hxq]
      exact h.linked hx
  · rcases hs hx with ⟨rfl, rfl, -⟩ | ⟨hxq, hx⟩
    · rcases hs hx' with ⟨rfl, -, -⟩ | ⟨hxq, -⟩
      · rfl
      · exact absurd rfl hxq
    · rcases hs hx' with ⟨-, rfl, -⟩ | ⟨-, hx'⟩
      · exact absurd rfl hxq
      · exact h.inj hx hx'

/-- `allocproc` takes a free slot. -/
theorem FamInv.claim (h : FamInv cfg s Δ) (hi : KInv s Γ)
    (hq : (Δ (s.thread c)).has = some (q, .UNUSED)) (hme : s.exec c ≠ some q)
    (ho : (Δ (s.thread c)).own = none) (hf : ∀ r, (f r).state = .USED)
    (hk : Keeps cfg.initproc (s.exec c) k
      { Δ (s.thread c) with has := some (q, .USED), own := some (q, .fresh) }) :
    FamInv cfg (s.put c q f k) (Function.update Δ (s.thread c)
      { Δ (s.thread c) with has := some (q, .USED), own := some (q, .fresh) }) := by
  obtain ⟨-, hst⟩ := h.hold.has hq
  have hz : zombies (s.put c q f k) = zombies s :=
    zombies_put (by rw [hst]; decide) (by rw [hf]; decide)
  have hnone : ∀ t g, (Δ t).own ≠ some (q, g) := by
    intro t g hog
    have hu := h.own.used hog
    rw [hst] at hu
    cases hu
  -- a child of the new view is the slot just taken, or was one before
  have hcases : ∀ {t x g}, (Function.update Δ (s.thread c)
      { Δ (s.thread c) with has := some (q, .USED), own := some (q, .fresh) } t).own = some (x, g) →
      t = s.thread c ∧ x = q ∧ g = .fresh ∨ x ≠ q ∧ (Δ t).own = some (x, g) := by
    intro t x g hx
    by_cases ht : t = s.thread c
    · rw [ht, Function.update_self] at hx
      obtain ⟨rfl, rfl⟩ := Prod.mk.inj (Option.some.inj hx)
      exact .inl ⟨ht, rfl, rfl⟩
    · rw [Function.update_of_ne ht] at hx
      exact .inr ⟨fun hxq => hnone t g (hxq ▸ hx), hx⟩
  refine h.put hi hq hk rfl (by rw [hf]) rfl (fun p hp => hp.of_put (fun hpq => ?_) ?_ ?_)
    (h.own.staged hcases (by rw [put_self, hf]) put_ne (fun _ => rfl) (fun _ => h.fam.free hst)
      (fun hg => by cases hg) fun {p} hp => ?_)
    (fun hw => by rw [hz]; exact (h.know hw).1) (fun _ => hz)
    (h.fam.put ?_ ?_ ?_ ?_ ?_ (fun _ hfr => hfr.keep rfl rfl)
      fun ho => owes_update ho fun hw ho => ⟨hw, ho⟩)
  · -- the slot itself is owned, so nobody resumes it
    refine absurd ?_ (hp.fresh (s.thread c))
    rw [Function.update_self, hpq]
  · exact fun x hx => by rw [ho] at hx; cases hx
  · exact fun _ t => hnone t _
  · by_cases ht : Thread.proc p = s.thread c
    · have hx : s.exec c = some p := exec_of_thread ht.symm
      have hpq : p ≠ q := fun he => hme (he ▸ hx)
      rw [put_ne hpq]
      exact h.hold.alive hi hq hx hpq
    · rw [Function.update_of_ne ht] at hp
      have ha := h.own.alive hp
      have hpq : p ≠ q := by
        rintro rfl
        rw [hst] at ha
        exact ha
      rw [put_ne hpq]
      exact ha
  · intro ha
    rw [hst] at ha
    exact ha.elim
  · intro hu
    rw [hf] at hu
    cases hu
  · intro _ ha
    rw [hf] at ha
    exact ha.elim
  · intro hz'
    rw [hf] at hz'
    cases hz'
  · intro hz'
    rw [hf] at hz'
    cases hz'

/-- The child being set up leaves that stage: it becomes RUNNABLE, or is given
up. -/
theorem FamInv.leave (h : FamInv cfg s Δ) (hi : KInv s Γ) {g : Stage} {st' : ProcState}
    (hq : (Δ (s.thread c)).has = some (q, .USED)) (ho : (Δ (s.thread c)).own = some (q, g))
    (hf : ∀ r, (f r).state = st')
    (hst' : st' = .RUNNABLE ∧ g = .linked ∨ st' = .UNUSED ∧ g ≠ .linked)
    (hk : Keeps cfg.initproc (s.exec c) k
      { Δ (s.thread c) with has := some (q, st'), own := none }) :
    FamInv cfg (s.put c q f k) (Function.update Δ (s.thread c)
      { Δ (s.thread c) with has := some (q, st'), own := none }) := by
  obtain ⟨-, hst⟩ := h.hold.has hq
  have hnz : st' ≠ .ZOMBIE := by
    rintro rfl
    rcases hst' with ⟨he, -⟩ | ⟨he, -⟩ <;> cases he
  have hz : zombies (s.put c q f k) = zombies s :=
    zombies_put (by rw [hst]; decide) (by rw [hf]; exact hnz)
  -- nobody else was setting it up
  have hnone : ∀ {t g'}, (Function.update Δ (s.thread c)
      { Δ (s.thread c) with has := some (q, st'), own := none } t).own ≠ some (q, g') := by
    intro t g' hx
    by_cases ht : t = s.thread c
    · rw [ht, Function.update_self] at hx
      cases hx
    · rw [Function.update_of_ne ht] at hx
      exact ht (h.own.inj hx ho)
  refine h.put hi hq hk rfl (by rw [hf]) rfl (fun p hp => hp.of_put (fun _ => ?_) ?_ ?_)
    (h.own.put (fun hx => (by cases hx)) (fun hx => absurd hx hnone) fun _ ha => ?_)
    (fun hw => by rw [hz]; exact (h.know hw).1) (fun _ => hz)
    (h.fam.put ?_ ?_ ?_ ?_ ?_ (fun _ hfr => hfr.keep rfl rfl)
      fun ho => owes_update ho fun hw ho => ⟨hw, ho⟩)
  · rw [hst]
    exact ⟨by decide, by decide⟩
  · intro x hx
    rw [ho] at hx
    exact .inr (Prod.mk.inj (Option.some.inj hx)).1.symm
  · rintro rfl t ht
    have htc := h.own.inj ht ho
    subst htc
    rw [ho] at ht
    obtain ⟨-, rfl⟩ := Prod.mk.inj (Option.some.inj ht)
    rcases hst' with ⟨-, hg⟩ | ⟨hu, -⟩
    · cases hg
    · exact hp.unused (by rw [put_self, hf, hu])
  · rw [hst] at ha
    exact ha.elim
  · intro ha
    rw [hst] at ha
    exact ha.elim
  · intro hu
    rw [hf] at hu
    rcases hst' with ⟨he, -⟩ | ⟨-, hg⟩
    · rw [hu] at he
      cases he
    · exact h.own.bare ho hg
  · intro _ ha
    rw [hf] at ha
    rcases hst' with ⟨-, rfl⟩ | ⟨rfl, -⟩
    · obtain ⟨p, -, hp⟩ := h.own.linked ho
      rw [hp]
      exact Option.some_ne_none p
    · exact ha.elim
  · intro hz'
    rw [hf] at hz'
    exact absurd hz' hnz
  · intro hz'
    rw [hf] at hz'
    exact absurd hz' hnz

omit [DecidableEq C] in
/-- The holder of `wait_lock` changes the set of zombies: nobody else knows
anything about it. -/
theorem HoldOk.not_free (hw : (Δ (s.thread c)).wait = true) {Q : Prop} :
    (Δ (s.thread c)).wait = false → Q := by
  intro hw'
  rw [hw] at hw'
  cases hw'

/-- A process becomes a zombie. -/
theorem FamInv.exit (h : FamInv cfg s Δ) (hi : KInv s Γ) (hme : s.exec c = some q)
    (hq : (Δ (s.thread c)).has = some (q, .RUNNING)) (hinit : q ≠ cfg.initproc)
    (hw : (Δ (s.thread c)).wait = true) (ho : (Δ (s.thread c)).own = none)
    (hf : ∀ r, f r = { r with state := .ZOMBIE })
    (hkids : ∀ P Z, (Δ (s.thread c)).know P Z → ∀ x, P x ≠ some q)
    (htold : ∀ P Z, (Δ (s.thread c)).know P Z → ∀ o, P q = some o → (Δ (s.thread c)).told o)
    (hk : Keeps cfg.initproc (s.exec c) k
      { Δ (s.thread c) with has := some (q, .ZOMBIE), know := fun _ _ => True }) :
    FamInv cfg (s.put c q f k) (Function.update Δ (s.thread c)
      { Δ (s.thread c) with has := some (q, .ZOMBIE), know := fun _ _ => True }) := by
  obtain ⟨-, hst⟩ := h.hold.has hq
  have hfst : (f (s.proc q)).state = .ZOMBIE := by rw [hf]
  have hthread : s.thread c = .proc q := thread_of_exec hme
  have hnone : ∀ t g, (Δ t).own ≠ some (q, g) := by
    intro t g hog
    have hu := h.own.used hog
    rw [hst] at hu
    cases hu
  have hown : ∀ t g, (Function.update Δ (s.thread c) { Δ (s.thread c) with
      has := some (q, .ZOMBIE), know := fun _ _ => True } t).own ≠ some (q, g) :=
    fun t g => updated (P := fun _ Δ => Δ.own ≠ some (q, g)) (hnone _ g) fun _ => hnone t g
  refine h.put hi hq hk rfl (by rw [hfst]) rfl (fun p hp => hp.of_put (fun _ => ?_) ?_ ?_)
    (h.own.put id (fun {t g} hx => absurd hx (hown t g)) fun hp _ => ?_)
    (fun _ => trivial) (HoldOk.not_free hw)
    (h.fam.put ?_ ?_ ?_ ?_ ?_ (fun _ hfr => hfr.keep rfl rfl)
      fun ho => owes_update ho fun hw ho => ⟨hw, ho⟩)
  · rw [hst]
    exact ⟨by decide, by decide⟩
  · exact fun x hx => .inl hx
  · exact fun _ t => hnone t _
  · rw [hthread, Function.update_self, ← hthread, ho] at hp
    exact absurd rfl hp
  · exact fun _ => .inr ⟨hkids _ _ (h.know hw).1, hinit⟩
  · intro hu
    rw [hfst] at hu
    cases hu
  · intro _ ha
    rw [hfst] at ha
    exact ha.elim
  · intro _ _
    exact h.fam.kid hinit (by rw [hst]; trivial)
  · intro _ o hp
    exact .inl ((h.know hw).2 (htold _ _ (h.know hw).1 o hp))

/-- `kwait` has cleared a zombie away. -/
theorem FamInv.reap (h : FamInv cfg s Δ) (hi : KInv s Γ)
    (hq : (Δ (s.thread c)).has = some (q, .ZOMBIE)) (hw : (Δ (s.thread c)).wait = true)
    (hfr : (Δ (s.thread c)).freeing = some q)
    (hnone : ∀ P Z, (Δ (s.thread c)).know P Z → P q = none) (hf : ∀ r, (f r).state = .UNUSED)
    (hk : Keeps cfg.initproc (s.exec c) k { Δ (s.thread c) with
      has := some (q, .UNUSED), know := fun _ _ => True, freeing := none }) :
    FamInv cfg (s.put c q f k) (Function.update Δ (s.thread c) { Δ (s.thread c) with
      has := some (q, .UNUSED), know := fun _ _ => True, freeing := none }) := by
  obtain ⟨-, hst⟩ := h.hold.has hq
  have hno : ∀ t g, (Δ t).own ≠ some (q, g) := by
    intro t g hog
    have hu := h.own.used hog
    rw [hst] at hu
    cases hu
  have hown : ∀ t g, (Function.update Δ (s.thread c) { Δ (s.thread c) with
      has := some (q, .UNUSED), know := fun _ _ => True, freeing := none } t).own ≠ some (q, g) :=
    fun t g => updated (P := fun _ Δ => Δ.own ≠ some (q, g)) (hno _ g) fun _ => hno t g
  refine h.put hi hq hk rfl (by rw [hf]) rfl (fun p hp => hp.of_put (fun hpq => ?_) ?_ ?_)
    (h.own.put id (fun {t g} hx => absurd hx (hown t g)) fun _ ha => ?_)
    (fun _ => trivial) (HoldOk.not_free hw)
    (h.fam.put ?_ ?_ ?_ ?_ ?_ (fun {x} hxq hx => ?_)
      fun ho => owes_update ho fun hw ho => ⟨hw, ho⟩)
  · refine absurd ?_ hp.unused
    rw [hpq, put_self, hf]
  · exact fun x hx => .inl hx
  · exact fun _ t => hno t _
  · rw [hst] at ha
    exact ha.elim
  · intro ha
    rw [hst] at ha
    exact ha.elim
  · exact fun _ => hnone _ _ (h.know hw).1
  · intro _ ha
    rw [hf] at ha
    exact ha.elim
  · intro hz
    rw [hf] at hz
    cases hz
  · intro hz
    rw [hf] at hz
    cases hz
  · -- the only slot that was being cleared away is `q`
    obtain ⟨t, hwt, hft⟩ := hx
    rw [h.hold.only hwt hw, hfr] at hft
    exact absurd (Option.some.inj hft).symm hxq

end

/-! ## Assignments to a parent -/

/-- The machine after `q->parent = o`. -/
abbrev Kernel.adopt (s : Kernel C) (c : C) (q : Slot) (o : Option Slot) (k : Code) : Kernel C :=
  { s.goOn c k with parent := Function.update s.parent q o }

/-- **A new parent for `q`**, or none, given what that means for the children
being set up and for the family. -/
theorem FamInv.adopt (h : FamInv cfg s Δ) (hi : KInv s Γ) {o : Option Slot}
    (hk : Keeps cfg.initproc (s.exec c) k Δ₁) (hw : (Δ (s.thread c)).wait = true)
    (hhas : Δ₁.has = (Δ (s.thread c)).has)
    (htold : Δ₁.told = (Δ (s.thread c)).told)
    (hfresh : ∀ x, (Δ (s.thread c)).own = some (x, .fresh) → Δ₁.own = some (x, .fresh))
    (hown : OwnOk (s.adopt c q o k) (Function.update Δ (s.thread c) Δ₁))
    (hknow : Δ₁.know (Function.update s.parent q o) (zombies s))
    (hfam : FamOk cfg.initproc (s.adopt c q o k) (Function.update Δ (s.thread c) Δ₁)) :
    FamInv cfg (s.adopt c q o k) (Function.update Δ (s.thread c) Δ₁) := by
  refine ⟨h.code.goOn hi rfl rfl hk fun p hp => ⟨hp.off, hp.unused, hp.zombie, fun t ht => ?_⟩, ?_,
    hown, fun {t} hwt => ?_, hfam⟩
  · have hf := hp.fresh t
    by_cases he : t = s.thread c
    · rw [he, Function.update_self] at hf
      exact hf (hfresh p (he ▸ ht))
    · rw [Function.update_of_ne he] at hf
      exact hf ht
  · exact h.hold.goOn hi rfl (fun _ => h.hold.lock_wait hi hw) (fun hx => h.hold.has (hhas ▸ hx))
      (fun _ hl => hl) fun _ hl => ⟨hl, rfl⟩
  · by_cases ht : t = s.thread c
    · rw [ht, Function.update_self]
      exact ⟨hknow, fun hT => (h.know hw).2 (htold ▸ hT)⟩
    · rw [Function.update_of_ne ht] at hwt
      exact absurd (h.hold.only hwt hw) ht

/-- `kfork` gives the child its parent. -/
theorem FamInv.link (h : FamInv cfg s Δ) (hi : KInv s Γ) {p : Slot} (hme : s.exec c = some p)
    (hw : (Δ (s.thread c)).wait = true) (ho : (Δ (s.thread c)).own = some (q, .made))
    (hk : Keeps cfg.initproc (s.exec c) k
      { Δ (s.thread c) with own := some (q, .linked), know := fun _ _ => True }) :
    FamInv cfg (s.adopt c q (some p) k) (Function.update Δ (s.thread c)
      { Δ (s.thread c) with own := some (q, .linked), know := fun _ _ => True }) := by
  have hthread : s.thread c = .proc p := thread_of_exec hme
  have hst := h.own.used ho
  have halive : Alive (s.proc p).state :=
    h.own.alive (by rw [← hthread, ho]; exact Option.some_ne_none _)
  -- the parents of all others are as before
  have hpar : ∀ {x}, x ≠ q → (s.adopt c q (some p) k).parent x = s.parent x :=
    fun hx => Function.update_of_ne hx _ _
  have hself : (s.adopt c q (some p) k).parent q = some p := Function.update_self _ _ _
  have hcases : ∀ {t x g}, (Function.update Δ (s.thread c)
      { Δ (s.thread c) with own := some (q, .linked), know := fun _ _ => True }
      t).own = some (x, g) →
      t = s.thread c ∧ x = q ∧ g = .linked ∨ x ≠ q ∧ (Δ t).own = some (x, g) := by
    intro t x g hx
    by_cases ht : t = s.thread c
    · rw [ht, Function.update_self] at hx
      obtain ⟨rfl, rfl⟩ := Prod.mk.inj (Option.some.inj hx)
      exact .inl ⟨ht, rfl, rfl⟩
    · rw [Function.update_of_ne ht] at hx
      exact .inr ⟨fun hxq => ht (h.own.inj (hxq ▸ hx) ho), hx⟩
  refine h.adopt hi hk hw rfl rfl (fun x hx => ?_)
    (h.own.staged hcases hst (fun _ => rfl) hpar (fun hg => absurd rfl hg)
      (fun _ => ⟨p, hthread, hself⟩) fun {p'} hp => ?_) trivial ⟨fun {x o} hx => ?_,
        fun {x} hx => ?_, fun {x} hne hx => ?_,
      fun {x} hx hf => ?_, h.fam.init, fun {x o} hx hp => ?_⟩
  · rw [ho] at hx
    cases hx
  · refine h.own.alive (p := p') ?_
    by_cases ht : Thread.proc p' = s.thread c
    · rw [ht, ho]
      exact Option.some_ne_none _
    · rwa [Function.update_of_ne ht] at hp
  · by_cases hxq : x = q
    · rw [hxq, hself] at hx
      obtain rfl := Option.some.inj hx
      exact halive
    · rw [hpar hxq] at hx
      exact h.fam.par hx
  · have hxq : x ≠ q := by
      rintro rfl
      have hx' : (s.proc x).state = .UNUSED := hx
      rw [hst] at hx'
      cases hx'
    rw [hpar hxq]
    exact h.fam.free hx
  · by_cases hxq : x = q
    · rw [hxq, hself]
      exact Option.some_ne_none p
    · rw [hpar hxq]
      exact h.fam.kid hne hx
  · by_cases hxq : x = q
    · rw [hxq, hself]
      exact Option.some_ne_none p
    · rw [hpar hxq]
      exact h.fam.zomb hx fun hf' => hf (hf'.keep rfl rfl)
  · have hxq : x ≠ q := by
      rintro rfl
      have hx' : (s.proc x).state = .ZOMBIE := hx
      rw [hst] at hx'
      cases hx'
    rw [hpar hxq] at hp
    exact (h.fam.heard hx hp).imp_right fun hor =>
      ⟨hor.1, owes_update hor.2 fun hw ho => ⟨hw, ho⟩⟩

/-- `reparent` gives a child to `initproc`. -/
theorem FamInv.hand (h : FamInv cfg s Δ) (hi : KInv s Γ) {p : Slot} (hme : s.exec c = some p)
    (hw : (Δ (s.thread c)).wait = true) (ho : (Δ (s.thread c)).own = none)
    (hq : ∀ P Z, (Δ (s.thread c)).know P Z → P q = some p)
    (hk : Keeps cfg.initproc (s.exec c) k { Δ (s.thread c) with
      owes := true
      know := fun P Z => ∃ P₀, (Δ (s.thread c)).know P₀ Z ∧
        P = Function.update P₀ q (some cfg.initproc) }) :
    FamInv cfg (s.adopt c q (some cfg.initproc) k) (Function.update Δ (s.thread c)
      { Δ (s.thread c) with
        owes := true
        know := fun P Z => ∃ P₀, (Δ (s.thread c)).know P₀ Z ∧
          P = Function.update P₀ q (some cfg.initproc) }) := by
  have hqp : s.parent q = some p := hq _ _ (h.know hw).1
  have hpar : ∀ {x}, x ≠ q → (s.adopt c q (some cfg.initproc) k).parent x = s.parent x :=
    fun hx => Function.update_of_ne hx _ _
  have hself : (s.adopt c q (some cfg.initproc) k).parent q = some cfg.initproc :=
    Function.update_self _ _ _
  have hown : ∀ t, (Function.update Δ (s.thread c) { Δ (s.thread c) with
      owes := true
      know := fun P Z => ∃ P₀, (Δ (s.thread c)).know P₀ Z ∧
        P = Function.update P₀ q (some cfg.initproc) } t).own = (Δ t).own :=
    fun t => updated (P := fun t' Δ' => Δ'.own = (Δ t').own) rfl fun _ => rfl
  refine h.adopt hi hk hw rfl rfl (fun x hx => hx)
    ⟨fun {t x g} hx => ?_, fun {t x g} hx hg => ?_, fun {t x} hx => ?_,
      fun {t t' x g g'} hx hx' => ?_,
      fun {p'} hp => ?_⟩ ⟨s.parent, (h.know hw).1, rfl⟩
    ⟨fun {x o} hx => ?_, fun {x} hx => ?_, fun {x} hne hx => ?_, fun {x} hx hf => ?_, h.fam.init,
      fun {x o} hx hp => ?_⟩
  · exact h.own.used (hown t ▸ hx)
  · have hxq : x ≠ q := by
      rintro rfl
      rw [h.own.bare (hown t ▸ hx) hg] at hqp
      cases hqp
    rw [hpar hxq]
    exact h.own.bare (hown t ▸ hx) hg
  · obtain ⟨p', htp, hp'⟩ := h.own.linked (hown t ▸ hx)
    have hxq : x ≠ q := by
      rintro rfl
      rw [hqp, Option.some.injEq] at hp'
      have htc : t = s.thread c := by rw [htp, ← hp', thread_of_exec hme]
      rw [hown t, htc, ho] at hx
      cases hx
    rw [hpar hxq]
    exact ⟨p', htp, hp'⟩
  · exact h.own.inj (hown t ▸ hx) (hown t' ▸ hx')
  · exact h.own.alive (hown (.proc p') ▸ hp)
  · by_cases hxq : x = q
    · rw [hxq, hself] at hx
      obtain rfl := Option.some.inj hx
      exact h.fam.init
    · rw [hpar hxq] at hx
      exact h.fam.par hx
  · have hxq : x ≠ q := by
      rintro rfl
      rw [h.fam.free hx] at hqp
      cases hqp
    rw [hpar hxq]
    exact h.fam.free hx
  · by_cases hxq : x = q
    · rw [hxq, hself]
      exact Option.some_ne_none _
    · rw [hpar hxq]
      exact h.fam.kid hne hx
  · by_cases hxq : x = q
    · rw [hxq, hself]
      exact Option.some_ne_none _
    · rw [hpar hxq]
      exact h.fam.zomb hx fun hf' => hf (hf'.keep rfl rfl)
  · by_cases hxq : x = q
    · rw [hxq, hself] at hp
      refine .inr ⟨(Option.some.inj hp).symm, s.thread c, ?_⟩
      rw [Function.update_self]
      exact ⟨hw, rfl⟩
    · rw [hpar hxq] at hp
      exact (h.fam.heard hx hp).imp_right fun hor =>
        ⟨hor.1, owes_update hor.2 fun hw _ => ⟨hw, rfl⟩⟩

/-- `freeproc` takes a zombie out of the family. -/
theorem FamInv.clear (h : FamInv cfg s Δ) (hi : KInv s Γ) (hw : (Δ (s.thread c)).wait = true)
    (hq : (Δ (s.thread c)).has = some (q, .ZOMBIE)) (hfr : (Δ (s.thread c)).freeing = some q)
    (hk : Keeps cfg.initproc (s.exec c) k { Δ (s.thread c) with know := fun P _ => P q = none }) :
    FamInv cfg (s.adopt c q none k)
      (Function.update Δ (s.thread c) { Δ (s.thread c) with know := fun P _ => P q = none }) := by
  obtain ⟨-, hst⟩ := h.hold.has hq
  have hpar : ∀ {x}, x ≠ q → (s.adopt c q none k).parent x = s.parent x :=
    fun hx => Function.update_of_ne hx _ _
  have hself : (s.adopt c q none k).parent q = none := Function.update_self _ _ _
  have hown : ∀ t, (Function.update Δ (s.thread c)
      { Δ (s.thread c) with know := fun P _ => P q = none } t).own = (Δ t).own :=
    fun t => updated (P := fun t' Δ' => Δ'.own = (Δ t').own) rfl fun _ => rfl
  have hother : ∀ {t x g}, (Δ t).own = some (x, g) → x ≠ q := by
    rintro t x g hx rfl
    have hu := h.own.used hx
    rw [hst] at hu
    cases hu
  refine h.adopt hi hk hw rfl rfl (fun x hx => hx)
    ⟨fun {t x g} hx => ?_, fun {t x g} hx hg => ?_, fun {t x} hx => ?_,
      fun {t t' x g g'} hx hx' => ?_,
      fun {p'} hp => ?_⟩ hself
    ⟨fun {x o} hx => ?_, fun {x} hx => ?_, fun {x} hne hx => ?_, fun {x} hx hf => ?_, h.fam.init,
      fun {x o} hx hp => ?_⟩
  · exact h.own.used (hown t ▸ hx)
  · rw [hown t] at hx
    rw [hpar (hother hx)]
    exact h.own.bare hx hg
  · rw [hown t] at hx
    rw [hpar (hother hx)]
    exact h.own.linked hx
  · exact h.own.inj (hown t ▸ hx) (hown t' ▸ hx')
  · exact h.own.alive (hown (.proc p') ▸ hp)
  · have hxq : x ≠ q := by
      rintro rfl
      rw [hself] at hx
      cases hx
    rw [hpar hxq] at hx
    exact h.fam.par hx
  · by_cases hxq : x = q
    · rw [hxq]
      exact hself
    · rw [hpar hxq]
      exact h.fam.free hx
  · have hxq : x ≠ q := by
      rintro rfl
      have hx' : Alive (s.proc x).state := hx
      rw [hst] at hx'
      exact hx'
    rw [hpar hxq]
    exact h.fam.kid hne hx
  · have hxq : x ≠ q := by
      rintro rfl
      refine hf ⟨s.thread c, ?_⟩
      rw [Function.update_self]
      exact ⟨hw, hfr⟩
    rw [hpar hxq]
    exact h.fam.zomb hx fun hf' => hf (hf'.keep rfl rfl)
  · have hxq : x ≠ q := by
      rintro rfl
      rw [hself] at hp
      cases hp
    rw [hpar hxq] at hp
    exact (h.fam.heard hx hp).imp_right fun hor =>
      ⟨hor.1, owes_update hor.2 fun hw ho => ⟨hw, ho⟩⟩

/-- `freeproc` of a child that has no parent yet. -/
theorem FamInv.clearOwn (h : FamInv cfg s Δ) (hi : KInv s Γ) {g : Stage}
    (ho : (Δ (s.thread c)).own = some (q, g)) (hg : g ≠ .linked)
    (hk : Keeps cfg.initproc (s.exec c) k (Δ (s.thread c))) :
    FamInv cfg (s.adopt c q none k) (Function.update Δ (s.thread c) (Δ (s.thread c))) := by
  have hpar : Function.update s.parent q none = s.parent := by
    rw [← h.own.bare ho hg]
    exact Function.update_eq_self q s.parent
  exact h.plain hi rfl rfl rfl hpar (fun _ => rfl) rfl rfl hk rfl rfl rfl rfl rfl (fun _ hf => hf)
    fun hw => (h.know hw).1

/-! ## Stacks -/

/-- `allocproc` gives the child a context. -/
theorem FamInv.context (h : FamInv cfg s Δ) (hi : KInv s Γ) (hoff : ∀ c, s.exec c ≠ some q)
    (ho : (Δ (s.thread c)).own = some (q, .fresh)) {saved : Slot → Bool}
    {handed : List (Slot × Proc)}
    (hk : Keeps cfg.initproc (s.exec c) k { Δ (s.thread c) with own := some (q, .made) }) :
    FamInv cfg { s.goOn c k with
        code := Function.update (s.goOn c k).code (.proc q) (Code.forkret q)
        saved := saved
        handed := handed }
      (Function.update (Function.update Δ (s.thread c)
        { Δ (s.thread c) with own := some (q, .made) }) (.proc q) .user) := by
  have hst := h.own.used ho
  have hthread : ∀ c', s.thread c' ≠ .proc q := fun c' he => proc_ne_thread (hoff c') he.symm
  -- the slot's own thread knew nothing and goes on knowing nothing
  have hqwait : (Δ (.proc q)).wait = false := by
    by_contra hne
    obtain ⟨c', hc', -⟩ := h.hold.wait (t := .proc q) (by simpa using hne)
    exact hthread c' hc'
  have hqown : (Δ (.proc q)).own = none := by
    by_contra hne
    have ha := h.own.alive hne
    rw [hst] at ha
    exact ha
  generalize hΔ' : Function.update (Function.update Δ (s.thread c)
    { Δ (s.thread c) with own := some (q, .made) }) (.proc q) .user = Δ'
  have hq : Δ' (.proc q) = .user := by rw [← hΔ', Function.update_self]
  have hc : Δ' (s.thread c) = { Δ (s.thread c) with own := some (q, .made) } := by
    rw [← hΔ', Function.update_of_ne (hthread c), Function.update_self]
  have hne : ∀ {t}, t ≠ .proc q → t ≠ s.thread c → Δ' t = Δ t := by
    intro t h₁ h₂
    rw [← hΔ', Function.update_of_ne h₁, Function.update_of_ne h₂]
  -- in all but `own` the others know what they knew
  have hwait : ∀ {t}, (Δ' t).wait = true → (Δ t).wait = true ∧ (Δ' t).know = (Δ t).know ∧
      (Δ' t).told = (Δ t).told := by
    intro t hw
    by_cases h₁ : t = .proc q
    · rw [h₁, hq] at hw
      cases hw
    · by_cases h₂ : t = s.thread c
      · subst h₂
        rw [hc] at hw ⊢
        exact ⟨hw, rfl, rfl⟩
      · rw [hne h₁ h₂] at hw ⊢
        exact ⟨hw, rfl, rfl⟩
  have hback : ∀ {t}, (Δ t).wait = true → (Δ' t).wait = true ∧ (Δ' t).owes = (Δ t).owes ∧
      (Δ' t).freeing = (Δ t).freeing := by
    intro t hw
    by_cases h₁ : t = .proc q
    · rw [h₁, hqwait] at hw
      cases hw
    · by_cases h₂ : t = s.thread c
      · subst h₂
        rw [hc]
        exact ⟨hw, rfl, rfl⟩
      · rw [hne h₁ h₂]
        exact ⟨hw, rfl, rfl⟩
  have hown : ∀ {t x g}, (Δ' t).own = some (x, g) →
      (t = s.thread c ∧ x = q ∧ g = .made) ∨ x ≠ q ∧ (Δ t).own = some (x, g) := by
    intro t x g hx
    by_cases h₁ : t = .proc q
    · rw [h₁, hq] at hx
      cases hx
    · by_cases h₂ : t = s.thread c
      · rw [h₂, hc] at hx
        obtain ⟨rfl, rfl⟩ := Prod.mk.inj (Option.some.inj hx)
        exact .inl ⟨h₂, rfl, rfl⟩
      · rw [hne h₁ h₂] at hx
        exact .inr ⟨fun hxq => h₂ (h.own.inj (hxq ▸ hx) ho), hx⟩
  have hcpu : ∀ c', c' ≠ c → s.thread c' ≠ s.thread c := fun c' hcc he => hcc (hi.thread_inj he)
  refine ⟨⟨fun c' => ?_, fun {c' p} hx => ?_, fun {p} hp => ?_⟩,
    ⟨fun {t} hw => ?_, fun {c' x st} hx => ?_⟩,
    h.own.staged hown hst (fun _ => rfl) (fun _ => rfl) (fun _ => h.own.bare ho (by decide))
      (fun hg => by cases hg) fun {p} hp => ?_, fun {t} hw => ?_,
    ⟨h.fam.par, h.fam.free, h.fam.kid, fun {x} hx hf => h.fam.zomb hx fun ⟨t, hw, hft⟩ => hf ?_,
      h.fam.init, fun {x o} hx hp => (h.fam.heard hx hp).imp_right
        fun ⟨hin, t, hw, hot⟩ => ⟨hin, ?_⟩⟩⟩
  · show Keeps cfg.initproc (s.exec c')
      (Function.update (s.goOn c k).code (.proc q) (Code.forkret q) (s.thread c'))
      (Δ' (s.thread c'))
    rw [Function.update_of_ne (hthread c')]
    by_cases hcc : c' = c
    · rw [hcc, hc]
      show Keeps cfg.initproc (s.exec c) (Function.update s.code (s.thread c) k (s.thread c)) _
      rw [Function.update_self]
      exact hk
    · rw [hne (hthread c') (hcpu c' hcc)]
      show Keeps cfg.initproc (s.exec c') (Function.update s.code (s.thread c) k (s.thread c')) _
      rw [Function.update_of_ne (hcpu c' hcc)]
      exact h.code.cpu c'
  · have hs₁ : Thread.sched c' ≠ .proc q := sched_ne_proc c' q
    have hs₂ : Thread.sched c' ≠ s.thread c := sched_ne_thread (s := s) hx
    show Keeps cfg.initproc none
      (Function.update (s.goOn c k).code (.proc q) (Code.forkret q) (.sched c'))
      (Δ' (.sched c')) ∧ (Δ' (.sched c')).has = none
    rw [Function.update_of_ne hs₁, hne hs₁ hs₂]
    show Keeps cfg.initproc none (Function.update s.code (s.thread c) k (.sched c')) _ ∧ _
    rw [Function.update_of_ne hs₂]
    exact h.code.back hx
  · show Keeps cfg.initproc (some p)
      (Function.update (s.goOn c k).code (.proc q) (Code.forkret q) (.proc p))
      (Δ' (.proc p)) ∧ _
    by_cases hpq : p = q
    · subst hpq
      rw [Function.update_self, hq]
      exact ⟨keeps_forkret rfl rfl, .inl rfl⟩
    · have hp₁ : (Thread.proc p : Thread C) ≠ .proc q := by
        intro he
        cases he
        exact hpq rfl
      have hp₂ : Thread.proc p ≠ s.thread c := proc_ne_thread (hp.off c)
      rw [Function.update_of_ne hp₁, hne hp₁ hp₂]
      show Keeps cfg.initproc (some p) (Function.update s.code (s.thread c) k (.proc p)) _ ∧ _
      rw [Function.update_of_ne hp₂]
      refine h.code.park ⟨hp.off, hp.unused, hp.zombie, fun t ht => ?_⟩
      by_cases h₁ : t = .proc q
      · rw [h₁, hqown] at ht
        cases ht
      · by_cases h₂ : t = s.thread c
        · rw [h₂, ho] at ht
          exact hpq (Prod.mk.inj (Option.some.inj ht)).1.symm
        · exact hp.fresh t (by rw [hne h₁ h₂]; exact ht)
  · obtain ⟨c', hc', hl⟩ := h.hold.wait (hwait hw).1
    exact ⟨c', hc', hl⟩
  · have hx' : (Δ' (s.thread c')).has = some (x, st) := hx
    by_cases hcc : c' = c
    · subst hcc
      rw [hc] at hx'
      exact h.hold.has hx'
    · rw [hne (hthread c') (hcpu c' hcc)] at hx'
      exact h.hold.has hx'
  · obtain ⟨⟨x, g⟩, hx⟩ := Option.ne_none_iff_exists'.mp hp
    refine h.own.alive (p := p) ?_
    rcases hown hx with ⟨hpc, -, -⟩ | ⟨-, hx⟩
    · rw [hpc, ho]
      exact Option.some_ne_none _
    · rw [hx]
      exact Option.some_ne_none _
  · obtain ⟨hw, hkn, htl⟩ := hwait hw
    rw [hkn, htl]
    exact h.know hw
  · obtain ⟨hw', -, hf'⟩ := hback hw
    exact ⟨t, hw', hf'.trans hft⟩
  · obtain ⟨hw', ho', -⟩ := hback hw
    exact ⟨t, hw', ho'.trans hot⟩

/-- A child's stage, and all that depends on it, when only the CPUs move. -/
theorem OwnOk.same (h : OwnOk s Δ) {t₀ : Thread C} (hparent : s'.parent = s.parent)
    (hproc : s'.proc = s.proc) (ho : Δ₁.own = (Δ t₀).own) :
    OwnOk s' (Function.update Δ t₀ Δ₁) :=
  h.goOn hparent (fun q => by rw [hproc]) ho

/-- The family, when only the CPUs move. -/
theorem FamOk.same {initproc : Slot} (h : FamOk initproc s Δ) {t₀ : Thread C}
    (hparent : s'.parent = s.parent) (hproc : s'.proc = s.proc) (htest : s'.test = s.test)
    (hmissed : s'.missed = s.missed) (hw : Δ₁.wait = (Δ t₀).wait) (ho : Δ₁.owes = (Δ t₀).owes)
    (hf : Δ₁.freeing = (Δ t₀).freeing) : FamOk initproc s' (Function.update Δ t₀ Δ₁) := by
  have hz : zombies s' = zombies s := by
    unfold zombies
    rw [hproc]
  have hT : ∀ {o}, Told s o → Told s' o := by
    intro o ht
    unfold Told
    rw [htest, hmissed]
    exact ht
  constructor
  case par => rw [hparent, hproc]; exact h.par
  case free => rw [hparent, hproc]; exact h.free
  case kid => rw [hparent, hproc]; exact h.kid
  case zomb =>
    rw [hz, hparent]
    exact fun hx hnf => h.zomb hx fun hfr => hnf (hfr.keep hw hf)
  case init => rw [hproc]; exact h.init
  case heard =>
    rw [hz, hparent]
    exact fun hx hp => (h.heard hx hp).imp hT fun ⟨hin, hO⟩ =>
      ⟨hin, owes_update hO fun hw₀ ho₀ => ⟨hw.trans hw₀, ho.trans ho₀⟩⟩

/-- CPU `c` goes to another stack. `k` is left of the thread it was on. -/
structure Switch (s s' : Kernel C) (c : C) (k : Code) : Prop where
  code : s'.code = Function.update s.code (s.thread c) k
  exec : ∀ {c'}, c' ≠ c → s'.exec c' = s.exec c'
  lock : s'.lock = s.lock
  proc : s'.proc = s.proc
  parent : s'.parent = s.parent
  test : s'.test = s.test
  missed : s'.missed = s.missed

section Switch
variable {x : Option (Slot × ProcState)}

/-- A process that nobody was on before is none that anybody is on now. -/
theorem Switch.resumable (hs : Switch s s' c k) {p : Slot} (hp : Resumable s'
    (Function.update Δ (s.thread c) { Δ (s.thread c) with has := x }) p)
    (hoff : s.exec c ≠ some p) :
    Resumable s Δ p := by
  refine ⟨fun c' hc' => ?_, hs.proc ▸ hp.unused, hs.proc ▸ hp.zombie, fun t ht => ?_⟩
  · by_cases hcc : c' = c
    · exact hoff (hcc ▸ hc')
    · exact hp.off c' ((hs.exec hcc).trans hc')
  · refine hp.fresh t ?_
    by_cases htt : t = s.thread c
    · rw [htt, Function.update_self]
      exact htt ▸ ht
    · rw [Function.update_of_ne htt]
      exact ht

/-- **A switch** is about the two stacks: the other CPUs see nothing of it. -/
theorem FamInv.switch (h : FamInv cfg s Δ) (hi : KInv s Γ) (hs : Switch s s' c k)
    (hw : (Δ (s.thread c)).wait = false) {Δ' : Kins C}
    (hΔ : Δ' = Function.update Δ (s.thread c) { Δ (s.thread c) with has := x })
    (hcpu : Keeps cfg.initproc (s'.exec c) (s'.cur c) (Δ' (s'.thread c)))
    (hback : ∀ {p}, s'.exec c = some p →
      Keeps cfg.initproc none (s'.code (.sched c)) (Δ' (.sched c)) ∧ (Δ' (.sched c)).has = none)
    (hpark : ∀ {p}, Resumable s' Δ' p →
      Keeps cfg.initproc (some p) (s'.code (.proc p)) (Δ' (.proc p)) ∧
        ((Δ' (.proc p)).has = none ∨ (Δ' (.proc p)).has = some (p, .RUNNING)))
    (hhas : ∀ {p st}, (Δ' (s'.thread c)).has = some (p, st) →
      s.lock (.proc p) = some c ∧ (s.proc p).state = st) : FamInv cfg s' Δ' := by
  subst hΔ
  have ht : ∀ {c'}, c' ≠ c → s'.thread c' = s.thread c' := fun hcc => thread_congr (hs.exec hcc)
  have hne : ∀ {c'}, c' ≠ c → s.thread c' ≠ s.thread c := fun hcc he => hcc (hi.thread_inj he)
  -- whoever has `wait_lock` is another thread
  have hwait :
    ∀ {t}, (Function.update Δ (s.thread c) { Δ (s.thread c) with has := x } t).wait = true →
      t ≠ s.thread c := by
    rintro t hwt rfl
    rw [Function.update_self] at hwt
    exact Bool.false_ne_true (hw.symm.trans hwt)
  refine ⟨⟨fun c' => ?_, fun {c' p} hc' => ?_, hpark⟩, ⟨fun {t} hwt => ?_, fun {c' p st} hx => ?_⟩,
    h.own.same hs.parent hs.proc rfl, fun {t} hwt => ?_,
    h.fam.same hs.parent hs.proc hs.test hs.missed rfl rfl rfl⟩
  · by_cases hcc : c' = c
    · exact hcc ▸ hcpu
    · rw [Kernel.cur, ht hcc, hs.exec hcc, hs.code, Function.update_of_ne (hne hcc),
        Function.update_of_ne (hne hcc)]
      exact h.code.cpu c'
  · by_cases hcc : c' = c
    · exact hcc ▸ hback (hcc ▸ hc')
    · rw [hs.exec hcc] at hc'
      have hsched : Thread.sched c' ≠ s.thread c := sched_ne_thread hc'
      rw [hs.code, Function.update_of_ne hsched, Function.update_of_ne hsched]
      exact h.code.back hc'
  · have htt := hwait hwt
    rw [Function.update_of_ne htt] at hwt
    obtain ⟨c', hc', hl⟩ := h.hold.wait hwt
    have hcc : c' ≠ c := fun hcc => htt (by rw [← hc', hcc])
    exact ⟨c', by rw [ht hcc, hc'], by rw [hs.lock, hl]⟩
  · rw [hs.lock, hs.proc]
    by_cases hcc : c' = c
    · subst hcc
      exact hhas hx
    · rw [ht hcc, Function.update_of_ne (hne hcc)] at hx
      exact h.hold.has hx
  · have htt := hwait hwt
    rw [Function.update_of_ne htt] at hwt ⊢
    have hz : zombies s' = zombies s := by
      unfold zombies
      rw [hs.proc]
    rw [hs.parent, hz]
    refine ⟨(h.know hwt).1, fun {o} hT => ?_⟩
    unfold Told
    rw [hs.test, hs.missed]
    exact (h.know hwt).2 hT

/-- A process leaves its stack. -/
theorem FamInv.loadOut (h : FamInv cfg s Δ) (hi : KInv s Γ) {p : Slot} (hme : s.exec c = some p)
    (hw : (Δ (s.thread c)).wait = false)
    (hk : Keeps cfg.initproc (some p) k { Δ (s.thread c) with has := some (p, .RUNNING) }) :
    FamInv cfg { s.goOn c k with exec := Function.update s.exec c none }
      (Function.update Δ (s.thread c) { Δ (s.thread c) with has := some (p, .RUNNING) }) := by
  have hthread : s.thread c = .proc p := thread_of_exec hme
  have hsched : Thread.sched c ≠ s.thread c := sched_ne_thread hme
  have hs : Switch s { s.goOn c k with exec := Function.update s.exec c none } c k :=
    ⟨rfl, fun hcc => Function.update_of_ne hcc _ _, rfl, rfl, rfl, rfl, rfl⟩
  have hx : ({ s.goOn c k with exec := Function.update s.exec c none } : Kernel C).exec c = none :=
    Function.update_self _ _ _
  generalize ({ s.goOn c k with exec := Function.update s.exec c none } : Kernel C) = s' at hs hx
  have ht : s'.thread c = .sched c := thread_of_idle hx
  refine h.switch hi hs hw rfl ?_ (fun hc => ?_) (fun {p'} hp => ?_) fun {x st} hhas => ?_
  · rw [Kernel.cur, ht, hx, hs.code, Function.update_of_ne hsched, Function.update_of_ne hsched]
    exact (h.code.back hme).1
  · rw [hx] at hc
    cases hc
  · by_cases hpp : p' = p
    · subst hpp
      rw [hs.code, ← hthread, Function.update_self, Function.update_self]
      exact ⟨hk, .inr rfl⟩
    · have hpt : Thread.proc p' ≠ s.thread c := by
        rw [hthread]
        exact fun he => hpp (Thread.proc.inj he)
      rw [hs.code, Function.update_of_ne hpt, Function.update_of_ne hpt]
      refine h.code.park (hs.resumable hp ?_)
      rw [hme]
      exact fun he => hpp (Option.some.inj he).symm
  · rw [ht, Function.update_of_ne hsched, (h.code.back hme).2] at hhas
    cases hhas

/-- A scheduler switches to the process it has chosen. -/
theorem FamInv.loadIn (h : FamInv cfg s Δ) (hi : KInv s Γ) (hme : s.exec c = none)
    (hoff : ∀ c, s.exec c ≠ some q) (hrun : (s.proc q).state = .RUNNING)
    (hl : s.lock (.proc q) = some c) {saved : Slot → Bool}
    (hw : (Δ (s.thread c)).wait = false)
    (hk : Keeps cfg.initproc none k { Δ (s.thread c) with has := none }) :
    FamInv cfg { s.goOn c k with exec := Function.update s.exec c (some q), saved := saved }
      (Function.update Δ (s.thread c) { Δ (s.thread c) with has := none }) := by
  have hthread : s.thread c = .sched c := thread_of_idle hme
  have hpark : Keeps cfg.initproc (some q) (s.code (.proc q)) (Δ (.proc q)) ∧
      ((Δ (.proc q)).has = none ∨ (Δ (.proc q)).has = some (q, .RUNNING)) := by
    refine h.code.park ⟨hoff, by rw [hrun]; decide, by rw [hrun]; decide, fun t ht => ?_⟩
    have hu := h.own.used ht
    rw [hrun] at hu
    cases hu
  have hpc : ∀ {p}, Thread.proc p ≠ s.thread c := by
    intro p he
    rw [hthread] at he
    cases he
  have hs : Switch s { s.goOn c k with
      exec := Function.update s.exec c (some q)
      saved := saved } c k :=
    ⟨rfl, fun hcc => Function.update_of_ne hcc _ _, rfl, rfl, rfl, rfl, rfl⟩
  have hx : ({ s.goOn c k with
      exec := Function.update s.exec c (some q), saved := saved } : Kernel C).exec c = some q :=
    Function.update_self _ _ _
  generalize ({ s.goOn c k with
    exec := Function.update s.exec c (some q), saved := saved } : Kernel C) = s' at hs hx
  have ht : s'.thread c = .proc q := thread_of_exec hx
  refine h.switch hi hs hw rfl ?_ (fun _ => ?_) (fun {p} hp => ?_) fun {x st} hhas => ?_
  · rw [Kernel.cur, ht, hx, hs.code, Function.update_of_ne hpc, Function.update_of_ne hpc]
    exact hpark.1
  · rw [hs.code, ← hthread, Function.update_self, Function.update_self]
    exact ⟨hk, rfl⟩
  · rw [hs.code, Function.update_of_ne hpc, Function.update_of_ne hpc]
    refine h.code.park (hs.resumable hp ?_)
    rw [hme]
    exact (Option.some_ne_none p).symm
  · rw [ht, Function.update_of_ne hpc] at hhas
    rcases hpark.2 with hn | hn
    · rw [hn] at hhas
      cases hhas
    · rw [hn] at hhas
      obtain ⟨rfl, rfl⟩ := Prod.mk.inj (Option.some.inj hhas)
      exact ⟨hl, hrun⟩

end Switch

end

end Xv6.Proc
