import Xv6.Proc.Frame

/-!
# No process runs on two CPUs

`KInv` survives every step: the lock of a process is handed from the thread that
took it to the thread that drops it, across `swtch`, without the process ever
being on two stacks, or on none without a complete context. The stations of a
hand-over, and what moves a slot from one to the next:

> `held` —state→ `leaving` —save→ `left` —load→ `back` —`c->proc = 0`→ `held`
>
> `held` —state→ `picked` —`c->proc = best`→ `placed` —save→ `ready` —load→ `held`

Each arrow is a lemma below; the two `load`s, where a CPU changes threads and
takes the lock along, are the cases of `KInv.switch`.
-/

namespace Xv6.Proc

open Lib

variable {C : Type*} [DecidableEq C] {s s' : Kernel C} {Γ Γ' : Views C} {c : C} {q : Slot}

/-! ## The stations of a hand-over -/

section
omit [DecidableEq C]

theorem exec_of_thread {p : Slot} (h : s.thread c = .proc p) : s.exec c = some p := by
  unfold Kernel.thread at h
  split at h
  next p' hp =>
    cases h
    exact hp
  next => cases h

theorem Idle.off (hi : Idle s q) (h : KInv s Γ) (c : C) : s.exec c ≠ some q :=
  fun hc => hi c (h.exec hc)

/-- A thread that nobody runs holds no other lock. -/
theorem KInv.lk_of_off (h : KInv s Γ) (hoff : ∀ c, s.exec c ≠ some q) :
    (Γ (.proc q)).lk = none := by
  by_contra hne
  obtain ⟨l, hl⟩ := Option.ne_none_iff_exists'.mp hne
  obtain ⟨c, hc, _⟩ := h.lk hl
  exact hoff c (exec_of_thread hc)

end

/-- A context for a child that nobody runs yet. -/
theorem KInv.renew (h : KInv s Γ) (hm : (Γ (s.thread c)).mode = .fresh q (s.proc q)) :
    KInv { s with
        code := Function.update s.code (.proc q) (Code.forkret q)
        saved := Function.update s.saved q true
        handed := s.handed ++ [(q, s.proc q)] }
      (Function.update Γ (.proc q) .user) := by
  obtain ⟨hlock, hok⟩ := h.heldOk hm rfl
  obtain ⟨_, _, hidle⟩ := h.of_fresh hm
  have hne : ∀ c', s.thread c' ≠ .proc q := fun c' ht => hidle.off h c' (exec_of_thread ht)
  have hΓ : ∀ c', Function.update Γ (.proc q) .user (s.thread c') = Γ (s.thread c') :=
    fun c' => Function.update_of_ne (hne c') _ _
  constructor
  case inj => exact h.inj
  case exec => exact h.exec
  case safe =>
    intro c'
    have hcur : Function.update s.code (.proc q) (Code.forkret q) (s.thread c') = s.cur c' :=
      Function.update_of_ne (hne c') _ _
    show Safe (s.exec c') (Function.update Γ (.proc q) .user (s.thread c'))
      (Function.update s.code (.proc q) (Code.forkret q) (s.thread c'))
    rw [hΓ c', hcur]
    exact h.safe c'
  case back =>
    intro c' p hx
    rw [Function.update_of_ne (nofun : Thread.sched c' ≠ .proc q)]
    exact h.back hx
  case slot =>
    intro q'
    -- only the slot of the child looks different
    by_cases hq : q' = q
    · subst hq
      refine ⟨fun hf => ?_, fun {c'} hc' => ?_⟩
      · cases hlock.symm.trans hf
      · obtain rfl := Option.some.inj (hlock.symm.trans hc')
        refine Eq.mpr (congrArg (HeldOk _ _ c q') ((congrArg Ctx.mode (hΓ c)).trans hm)) ?_
        cases hok with
        | fresh hr hs hi => exact .fresh hr hs hi
    · have hpq : Thread.proc (C := C) q' ≠ .proc q := fun he => hq (Thread.proc.inj he)
      refine (h.slot q').frame ⟨rfl, Function.update_of_ne hq _ _, fun _ => Iff.rfl,
        fun _ => Iff.rfl, fun _ => ⟨Function.update_of_ne hpq _ _, Function.update_of_ne hpq _ _⟩⟩
        rfl fun c' _ => ?_
      exact congrArg Ctx.mode (hΓ c')
  case mode => exact fun {c' q'} hq' => h.mode (hΓ c' ▸ hq')
  case other =>
    intro t l hl
    by_cases ht : t = .proc q
    · rw [ht, Function.update_self] at hl
      cases hl
    · rw [Function.update_of_ne ht] at hl
      exact h.other hl
  case lk =>
    intro t l hl
    by_cases ht : t = .proc q
    · rw [ht, Function.update_self] at hl
      cases hl
    · rw [Function.update_of_ne ht] at hl
      exact h.lk hl
  case lock => exact fun {l c'} hlo hl => (congrArg Ctx.lk (hΓ c')).trans (h.lock hlo hl)
  case noff => exact fun c' => (h.noff c').trans (congrArg Ctx.count (hΓ c')).symm
  case own =>
    intro t q' ho
    by_cases ht : t = .proc q
    · rw [ht, Function.update_self] at ho
      cases ho
    · rw [Function.update_of_ne ht] at ho
      exact h.own ho
  case own_inj =>
    intro t t' q' ho ho'
    by_cases ht : t = .proc q
    · rw [ht, Function.update_self] at ho
      cases ho
    by_cases ht' : t' = .proc q
    · rw [ht', Function.update_self] at ho'
      cases ho'
    rw [Function.update_of_ne ht] at ho
    rw [Function.update_of_ne ht'] at ho'
    exact h.own_inj ho ho'
  case calm =>
    intro t
    by_cases ht : t = .proc q
    · rw [ht, Function.update_self]
      exact ⟨fun _ _ _ => id, fun _ => id, fun _ _ => ⟨rfl, rfl⟩⟩
    · rw [Function.update_of_ne ht]
      exact h.calm t

/-- A step that moves a slot to another station without touching its record. -/
theorem KInv.move (h : KInv s Γ) {Γ₀ : Ctx} {m : Mode} {k : Code} (h₀ : Γ (s.thread c) = Γ₀)
    (hb : Γ₀.mode.slot = some q) (hproc : s'.proc = s.proc)
    (hlock : s'.lock = s.lock) (hnoff : s'.noff = s.noff) (hexec : s'.exec = s.exec)
    (hcproc : ∀ c' ≠ c, s'.cproc c' = s.cproc c')
    (hrest : ∀ q' ≠ q, s'.saved q' = s.saved q' ∧ (s'.cproc c = some q' ↔ s.cproc c = some q'))
    (hcode : s'.code = Function.update s.code (s.thread c) k)
    (hk : Safe (s.exec c) { Γ₀ with mode := m } k)
    (hinj : ∀ {p c'}, s'.cproc c = some p → s'.cproc c' = some p → c = c')
    (hcur : ∀ {p}, s.exec c = some p → s'.cproc c = some p)
    (hok : HeldOk s' (Function.update Γ (s.thread c) { Γ₀ with mode := m }) c q m) :
    KInv s' (Function.update Γ (s.thread c) { Γ₀ with mode := m }) := by
  subst h₀
  refine h.touch hb rfl rfl hlock hnoff hexec hcproc ?_ hcode hk hinj hcur ?_ ?_ hok
  · exact fun q' hq' => ⟨by rw [hproc], hrest q' hq'⟩
  · exact fun hq' => ⟨hproc ▸ h.own hq', fun t ht ho => ht (h.own_inj ho hq')⟩
  · exact fun _ hq' => hproc ▸ h.own hq'

omit [DecidableEq C] in
theorem parked_of_forkret (hoff : ∀ c, s.exec c ≠ some q) (hsaved : s.saved q = true)
    (hΓ : Γ (.proc q) = .user) (hcode : s.code (.proc q) = Code.forkret q) : Parked s Γ q := by
  refine ⟨hoff, fun _ => hsaved, fun _ _ r _ => ?_⟩
  rw [hΓ, hcode]
  exact safe_forkret r

/-- `allocproc` returns a child that is ready to be started. -/
theorem KInv.context (h : KInv s Γ) {Γ₀ : Ctx} {k : Code} (h₀ : Γ (s.thread c) = Γ₀)
    (hm : Γ₀.mode = .fresh q (s.proc q))
    (hk : Safe (s.exec c) { Γ₀ with mode := .held q (s.proc q) } k) :
    KInv { s.goOn c k with
        code := Function.update (s.goOn c k).code (.proc q) (Code.forkret q)
        saved := Function.update s.saved q true
        handed := s.handed ++ [(q, s.proc q)] }
      (Function.update (Function.update Γ (s.thread c) { Γ₀ with mode := .held q (s.proc q) })
        (.proc q) .user) := by
  have hm' : (Γ (s.thread c)).mode = .fresh q (s.proc q) := by rw [h₀, hm]
  obtain ⟨_, hs, hidle⟩ := h.of_fresh hm'
  have hne : s.thread c ≠ .proc q := fun ht => hidle.off h c (exec_of_thread ht)
  have hcode : Function.update (s.goOn c k).code (.proc q) (Code.forkret q) =
      Function.update (Function.update s.code (.proc q) (Code.forkret q)) (s.thread c) k :=
    Function.update_comm hne _ _ _
  rw [Function.update_comm hne]
  refine (h.renew hm').move ((Function.update_of_ne hne _ _).trans h₀) (q := q) (by rw [hm]; rfl)
    rfl rfl rfl rfl (fun _ _ => rfl) (fun _ _ => ⟨rfl, Iff.rfl⟩) hcode hk
    (fun h₁ h₂ => h.inj h₁ h₂) h.exec ?_
  have hst : (s.proc q).state ≠ .RUNNING := by simp [hs]
  refine .held rfl (.inr ⟨hst, hidle, parked_of_forkret (hidle.off h) ?_ ?_ ?_⟩)
  · exact Function.update_self _ _ _
  · exact (Function.update_of_ne hne.symm _ _).trans (Function.update_self _ _ _)
  · exact Function.update_self _ _ _

omit [DecidableEq C] in
/-- A `c->proc` of a scheduler is the process it is on its way to or back
from. -/
theorem KInv.cproc_station (h : KInv s Γ) (hx : s.exec c = none) (hc : s.cproc c = some q) :
    (∃ r, (Γ (s.thread c)).mode = .placed q r) ∨ (∃ r, (Γ (s.thread c)).mode = .ready q r) ∨
    (Γ (s.thread c)).mode = .back q := by
  have hexec : ∀ c', s.exec c' ≠ some q := by
    intro c' hc'
    obtain rfl := h.inj hc (h.exec hc')
    rw [hx] at hc'
    cases hc'
  have hstable : ¬Stable s Γ q := by
    rintro (⟨_, c', hc'⟩ | ⟨_, hi, _⟩)
    · exact hexec c' hc'
    · exact hi c hc
  cases hl : s.lock (.proc q) with
  | none => exact absurd ((h.slot q).free hl) hstable
  | some c' =>
    have hok := (h.slot q).held hl
    generalize hm : (Γ (s.thread c')).mode = m at hok
    cases hok with
    | held _ hst => exact absurd hst hstable
    | fresh _ _ hi => exact absurd hc (hi c)
    | leaving _ _ hx' => exact absurd hx' (hexec c')
    | left _ _ hx' => exact absurd hx' (hexec c')
    | picked _ _ hi => exact absurd hc (hi c)
    | placed _ _ hc' =>
      obtain rfl := h.inj hc hc'
      exact .inl ⟨_, hm⟩
    | ready _ _ hc' =>
      obtain rfl := h.inj hc hc'
      exact .inr (.inl ⟨_, hm⟩)
    | back _ hc' =>
      obtain rfl := h.inj hc hc'
      exact .inr (.inr hm)

/-- A parked slot stays parked while its lock moves from station to station. -/
theorem Parked.goOn {Γ₁ : Ctx} {k : Code} (hp : Parked s Γ q) (hproc : s'.proc q = s.proc q)
    (hsaved : s'.saved q = s.saved q) (hexec : s'.exec = s.exec)
    (hcode : s'.code = Function.update s.code (s.thread c) k) :
    Parked s' (Function.update Γ (s.thread c) Γ₁) q := by
  have hne := proc_ne_thread (hp.off c)
  refine hp.frame (fun c' => by rw [hexec]; exact hp.off c') (by rw [hproc]; exact id)
    (by rw [hproc]; exact fun _ => id) hsaved (Function.update_of_ne hne _ _) ?_
  rw [hcode, Function.update_of_ne hne]

/-- `c->proc = best`. -/
theorem KInv.setProc (h : KInv s Γ) {Γ₀ : Ctx} {k : Code} (h₀ : Γ (s.thread c) = Γ₀)
    (hme : s.exec c = none) (hm : Γ₀.mode = .picked q (s.proc q))
    (hk : Safe (s.exec c) { Γ₀ with mode := .placed q (s.proc q) } k) :
    KInv { s.goOn c k with cproc := Function.update s.cproc c (some q) }
      (Function.update Γ (s.thread c) { Γ₀ with mode := .placed q (s.proc q) }) := by
  have hm' : (Γ (s.thread c)).mode = .picked q (s.proc q) := by rw [h₀, hm]
  have hnone : s.cproc c = none := by
    by_contra hne
    obtain ⟨p, hp⟩ := Option.ne_none_iff_exists'.mp hne
    rcases h.cproc_station hme hp with ⟨r, hr⟩ | ⟨r, hr⟩ | hr <;> cases hm'.symm.trans hr
  have hself : Function.update s.cproc c (some q) c = some q := Function.update_self _ _ _
  obtain ⟨_, hok⟩ := h.heldOk hm' rfl
  cases hok with
  | picked _ hs hi hp =>
    refine h.move h₀ (q := q) (by rw [hm]; rfl) rfl rfl rfl rfl
      (fun c' hc' => Function.update_of_ne hc' _ _) (fun q' hq' => ⟨rfl, ?_⟩) rfl hk ?_ ?_ ?_
    · rw [hnone]
      exact ⟨fun he => absurd (Option.some.inj (hself.symm.trans he)).symm hq', nofun⟩
    · intro p c' hp' hc'
      obtain rfl := Option.some.inj (hself.symm.trans hp')
      by_contra hne
      exact hi c' ((Function.update_of_ne (Ne.symm hne) _ _).symm.trans hc')
    · exact fun hx => nomatch hme.symm.trans hx
    · exact .placed rfl hs hself (hp.goOn rfl rfl rfl rfl)

/-- `c->proc = 0`. -/
theorem KInv.clearProc (h : KInv s Γ) {Γ₀ : Ctx} {k : Code} (h₀ : Γ (s.thread c) = Γ₀)
    (hme : s.exec c = none) (hm : Γ₀.mode = .back q)
    (hk : Safe (s.exec c) { Γ₀ with mode := .held q (s.proc q) } k) :
    KInv { s.goOn c k with cproc := Function.update s.cproc c none }
      (Function.update Γ (s.thread c) { Γ₀ with mode := .held q (s.proc q) }) := by
  have hself : Function.update s.cproc c none c = none := Function.update_self _ _ _
  obtain ⟨_, hok⟩ := h.heldOk (h₀ ▸ hm) rfl
  cases hok with
  | back hs hc hp =>
    refine h.move h₀ (q := q) (by rw [hm]; rfl) rfl rfl rfl rfl
      (fun c' hc' => Function.update_of_ne hc' _ _) (fun q' hq' => ⟨rfl, ?_⟩) rfl hk ?_ ?_ ?_
    · rw [hc]
      exact ⟨fun he => (nomatch hself.symm.trans he),
        fun he => absurd (Option.some.inj he).symm hq'⟩
    · exact fun hp' => nomatch hself.symm.trans hp'
    · exact fun hx => nomatch hme.symm.trans hx
    · refine .held rfl (.inr ⟨hs, fun c' hc' => ?_, hp.goOn rfl rfl rfl rfl⟩)
      by_cases hcc : c' = c
      · subst hcc
        cases hself.symm.trans hc'
      · exact hcc (h.inj ((Function.update_of_ne hcc _ _).symm.trans hc') hc)

/-- The context of a process that leaves is saved. -/
theorem KInv.saveOut (h : KInv s Γ) {Γ₀ : Ctx} {k : Code} (h₀ : Γ (s.thread c) = Γ₀)
    (hm : Γ₀.mode = .leaving q (s.proc q))
    (hk : Safe (s.exec c) { Γ₀ with mode := .left q (s.proc q) } k) :
    KInv { s.goOn c k with saved := Function.update s.saved q true }
      (Function.update Γ (s.thread c) { Γ₀ with mode := .left q (s.proc q) }) := by
  obtain ⟨_, hok⟩ := h.heldOk (h₀ ▸ hm) rfl
  cases hok with
  | leaving _ hs hx =>
    refine h.move h₀ (q := q) (by rw [hm]; rfl) rfl rfl rfl rfl (fun _ _ => rfl)
      (fun q' hq' => ⟨Function.update_of_ne hq' _ _, Iff.rfl⟩) rfl hk (fun h₁ h₂ => h.inj h₁ h₂)
      h.exec ?_
    exact .left rfl hs hx (Function.update_self _ _ _)

/-- The context of a scheduler that leaves is saved. -/
theorem KInv.saveIn (h : KInv s Γ) {Γ₀ : Ctx} {k : Code} (h₀ : Γ (s.thread c) = Γ₀)
    (hm : Γ₀.mode = .placed q (s.proc q))
    (hk : Safe (s.exec c) { Γ₀ with mode := .ready q (s.proc q) } k) :
    KInv (s.goOn c k) (Function.update Γ (s.thread c) { Γ₀ with mode := .ready q (s.proc q) }) := by
  obtain ⟨_, hok⟩ := h.heldOk (h₀ ▸ hm) rfl
  cases hok with
  | placed _ hs hc hp =>
    refine h.move h₀ (q := q) (by rw [hm]; rfl) rfl rfl rfl rfl (fun _ _ => rfl)
      (fun _ _ => ⟨rfl, Iff.rfl⟩) rfl hk (fun h₁ h₂ => h.inj h₁ h₂) h.exec ?_
    exact .ready rfl hs hc (hp.goOn rfl rfl rfl rfl)

/-- **The second half of a `swtch`.** CPU `c` goes over to another thread and takes
the lock of `q`, the only one it holds, with it. -/
theorem KInv.switch (h : KInv s Γ) (hb : (Γ (s.thread c)).mode.slot = some q)
    (hblk : (Γ (s.thread c)).lk = none) (hproc : s'.proc = s.proc) (hlock : s'.lock = s.lock)
    (hnoff : s'.noff = s.noff) (hcproc : s'.cproc = s.cproc)
    (hexec : ∀ c' ≠ c, s'.exec c' = s.exec c')
    (hthread : ∀ c' ≠ c, Γ' (s.thread c') = Γ (s.thread c') ∧
      s'.code (s.thread c') = s.code (s.thread c'))
    (hsched : ∀ c' ≠ c, Γ' (.sched c') = Γ (.sched c') ∧ s'.code (.sched c') = s.code (.sched c'))
    (hslot : ∀ q' ≠ q, s'.saved q' = s.saved q' ∧ (s'.exec c = some q' ↔ s.exec c = some q') ∧
      ((∀ c, s.exec c ≠ some q') → Γ' (.proc q') = Γ (.proc q') ∧
        s'.code (.proc q') = s.code (.proc q')))
    (hlks : ∀ {t l}, (Γ' t).lk = some l → (Γ t).lk = some l)
    (hown : ∀ t, (Γ' t).own = (Γ t).own) (hcalm : ∀ t, (Γ' t).Calm)
    (hcur : ∀ {p}, s'.exec c = some p → s.cproc c = some p)
    (hsafe : Safe (s'.exec c) (Γ' (s'.thread c)) (s'.cur c))
    (hback : ∀ {p}, s'.exec c = some p → (Γ' (.sched c)).mode = .back p ∧
      (Γ' (.sched c)).lk = none ∧ Safe none (Γ' (.sched c)) (s'.code (.sched c)))
    (hok : HeldOk s' Γ' c q (Γ' (s'.thread c)).mode) (hlk : (Γ' (s'.thread c)).lk = none) :
    KInv s' Γ' := by
  have hheld : s.lock (.proc q) = some c := h.mode hb
  have htho : ∀ c' ≠ c, s'.thread c' = s.thread c' := fun c' hcc => thread_congr (hexec c' hcc)
  have hΓo : ∀ c' ≠ c, Γ' (s'.thread c') = Γ (s.thread c') := by
    intro c' hcc
    rw [htho c' hcc, (hthread c' hcc).1]
  constructor
  case inj => exact fun h₁ h₂ => h.inj (hcproc ▸ h₁) (hcproc ▸ h₂)
  case exec =>
    intro c' p hx
    rw [hcproc]
    by_cases hcc : c' = c
    · subst hcc
      exact hcur hx
    · exact h.exec ((hexec c' hcc).symm.trans hx)
  case safe =>
    intro c'
    by_cases hcc : c' = c
    · subst hcc
      exact hsafe
    · rw [hexec c' hcc, hΓo c' hcc, Kernel.cur, htho c' hcc, (hthread c' hcc).2]
      exact h.safe c'
  case back =>
    intro c' p hx
    by_cases hcc : c' = c
    · subst hcc
      exact hback hx
    · rw [(hsched c' hcc).1, (hsched c' hcc).2]
      exact h.back ((hexec c' hcc).symm.trans hx)
  case slot =>
    intro q'
    by_cases hqq : q' = q
    · subst hqq
      refine ⟨fun hf => ?_, fun {c'} hc' => ?_⟩
      · rw [hlock, hheld] at hf
        cases hf
      · rw [hlock, hheld] at hc'
        obtain rfl := Option.some.inj hc'
        exact hok
    · obtain ⟨hsv, hex, hview⟩ := hslot q' hqq
      refine (h.slot q').frame ⟨by rw [hproc], hsv, fun _ => by rw [hcproc], fun c' => ?_, hview⟩
        (by rw [hlock]) fun c' hc' => ?_
      · by_cases hcc : c' = c
        · rw [hcc]
          exact hex
        · rw [hexec c' hcc]
      · -- the lock of another slot is the lock of another CPU
        have hcc : c' ≠ c := by
          rintro rfl
          exact hqq (Option.some.inj ((h.slot_of_lock hc').symm.trans hb))
        rw [hΓo c' hcc]
  case mode =>
    intro c' q' hq'
    rw [hlock]
    by_cases hcc : c' = c
    · subst hcc
      obtain rfl := Option.some.inj (hok.slot.symm.trans hq')
      exact hheld
    · rw [hΓo c' hcc] at hq'
      exact h.mode hq'
  case other => exact fun hl => h.other (hlks hl)
  case lk =>
    intro t l hl
    obtain ⟨c', hc', hl'⟩ := h.lk (hlks hl)
    have hcc : c' ≠ c := by
      rintro rfl
      have hl := hlks hl
      rw [← hc', hblk] at hl
      cases hl
    exact ⟨c', (htho c' hcc).trans hc', hlock ▸ hl'⟩
  case lock =>
    intro l c' hlo hl
    have hold := h.lock hlo (hlock ▸ hl)
    have hcc : c' ≠ c := by
      rintro rfl
      rw [hblk] at hold
      cases hold
    rw [hΓo c' hcc]
    exact hold
  case noff =>
    intro c'
    rw [hnoff, h.noff c']
    by_cases hcc : c' = c
    · subst hcc
      rw [Ctx.count, Ctx.count, hb, hblk, hok.slot, hlk]
    · rw [hΓo c' hcc]
  case own => exact fun ho => hproc ▸ h.own (hown _ ▸ ho)
  case own_inj => exact fun ho ho' => h.own_inj (hown _ ▸ ho) (hown _ ▸ ho')
  case calm => exact hcalm

omit [DecidableEq C] in
theorem sched_ne_proc (c : C) (q : Slot) : Thread.sched c ≠ .proc q := nofun

/-- `swtch` to the scheduler: it finds the process parked, and has its lock. -/
theorem KInv.loadOut (h : KInv s Γ) {Γ₀ : Ctx} {k : Code} (h₀ : Γ (s.thread c) = Γ₀)
    (hme : s.exec c = some q) (hm : Γ₀.mode = .left q (s.proc q)) (hl : Γ₀.lk = none)
    (hk : (s.proc q).state ≠ .ZOMBIE → ∀ r, r.state = .RUNNING →
      Safe (some q) { Γ₀ with mode := .held q r, tst := none } k) :
    KInv { s.goOn c k with exec := Function.update s.exec c none } Γ := by
  have ht : s.thread c = .proc q := thread_of_exec hme
  obtain ⟨_, hok⟩ := h.heldOk (h₀ ▸ hm) (rfl : (Mode.left q (s.proc q)).slot = some q)
  obtain ⟨hback, hblk, hbsafe⟩ := h.back hme
  set s' : Kernel C := { s.goOn c k with exec := Function.update s.exec c none } with hs'
  have hex : s'.exec c = none := Function.update_self _ _ _
  have hexo : ∀ c' ≠ c, s'.exec c' = s.exec c' := fun c' hc' => Function.update_of_ne hc' _ _
  have hth : s'.thread c = .sched c := thread_of_idle hex
  have hcode : s'.code = Function.update s.code (.proc q) k := by
    rw [hs', ← ht]
    rfl
  have hoff : ∀ c', s'.exec c' ≠ some q := by
    intro c' hc'
    by_cases hcc : c' = c
    · rw [hcc, hex] at hc'
      cases hc'
    · rw [hexo c' hcc] at hc'
      exact hcc (h.inj (h.exec hc') (h.exec hme))
  have hother : ∀ {t}, t ≠ .proc q → s'.code t = s.code t := by
    intro t htq
    rw [hcode, Function.update_of_ne htq]
  refine h.switch (by rw [h₀, hm]; rfl) (by rw [h₀, hl]) rfl rfl rfl rfl hexo ?_ ?_ ?_ id
    (fun _ => rfl) h.calm ?_ ?_ ?_ ?_ (by rw [hth, hblk])
  · exact fun c' hcc => ⟨rfl, hother fun he => hcc (h.thread_inj (he.trans ht.symm))⟩
  · exact fun c' _ => ⟨rfl, hother (sched_ne_proc c' q)⟩
  · refine fun q' hqq => ⟨rfl, ?_, fun _ => ⟨rfl, hother fun he => hqq (Thread.proc.inj he)⟩⟩
    rw [hex, hme]
    exact ⟨nofun, fun he => absurd (Option.some.inj he).symm hqq⟩
  · exact fun hx => nomatch hex.symm.trans hx
  · rw [hex, Kernel.cur, hth, hother (sched_ne_proc c q)]
    exact hbsafe
  · exact fun hx => nomatch hex.symm.trans hx
  · rw [hth, hback]
    cases hok with
    | left _ hst hx hsv =>
      refine .back hst (h.exec hx) ⟨hoff, fun _ => hsv, fun _ hz r hr => ?_⟩
      rw [← ht, h₀, hcode, ht, Function.update_self]
      exact hk hz r hr

/-- `swtch` to a process: it resumes where it left off, RUNNING and with its
lock. -/
theorem KInv.loadIn (h : KInv s Γ) {Γ₀ : Ctx} {k : Code} (h₀ : Γ (s.thread c) = Γ₀)
    (hme : s.exec c = none) (hm : Γ₀.mode = .ready q (s.proc q)) (hl : Γ₀.lk = none)
    (hk : Safe none { Γ₀ with mode := .back q } k) :
    KInv { s.goOn c k with
        exec := Function.update s.exec c (some q)
        saved := Function.update s.saved q false }
      (Function.update (Function.update Γ (.sched c) { Γ₀ with mode := .back q })
        (.proc q) { Γ (.proc q) with mode := .held q (s.proc q), tst := none }) := by
  have ht : s.thread c = .sched c := thread_of_idle hme
  obtain ⟨hst, hc, hp⟩ : (s.proc q).state = .RUNNING ∧ s.cproc c = some q ∧ Parked s Γ q := by
    obtain ⟨_, hok⟩ := h.heldOk (h₀ ▸ hm) (rfl : (Mode.ready q (s.proc q)).slot = some q)
    cases hok with
    | ready _ hs hc hp => exact ⟨hs, hc, hp⟩
  set s' : Kernel C := { s.goOn c k with
    exec := Function.update s.exec c (some q)
    saved := Function.update s.saved q false } with hs'
  set Γq : Ctx := { Γ (.proc q) with mode := .held q (s.proc q), tst := none } with hΓq
  set Γ' : Views C := Function.update (Function.update Γ (.sched c) { Γ₀ with mode := .back q })
    (.proc q) Γq with hΓ'
  have hex : s'.exec c = some q := Function.update_self _ _ _
  have hth : s'.thread c = .proc q := thread_of_exec hex
  have hcode : s'.code = Function.update s.code (.sched c) k := by
    rw [hs', ← ht]
    rfl
  have hq : Γ' (.proc q) = Γq := Function.update_self _ _ _
  have hsc : Γ' (.sched c) = { Γ₀ with mode := .back q } :=
    (Function.update_of_ne (sched_ne_proc c q) _ _).trans (Function.update_self _ _ _)
  have hother : ∀ {t}, t ≠ .proc q → t ≠ .sched c → Γ' t = Γ t ∧ s'.code t = s.code t := by
    intro t h₁ h₂
    rw [hcode, Function.update_of_ne h₂]
    exact ⟨(Function.update_of_ne h₁ _ _).trans (Function.update_of_ne h₂ _ _), rfl⟩
  have hlkq : Γq.lk = none := h.lk_of_off hp.off
  rw [ht] at h₀
  -- the two threads whose views change, and the others
  have hviews : ∀ {P : Thread C → Ctx → Prop}, P (.proc q) Γq →
      P (.sched c) { Γ₀ with mode := .back q } → (∀ t, P t (Γ t)) → ∀ t, P t (Γ' t) := by
    intro P h₁ h₂ h₃ t
    by_cases htq : t = .proc q
    · rw [htq, hq]
      exact h₁
    by_cases hts : t = .sched c
    · rw [hts, hsc]
      exact h₂
    · rw [(hother htq hts).1]
      exact h₃ t
  refine h.switch (q := q) (by rw [ht, h₀, hm]; rfl) (by rw [ht, h₀, hl]) rfl rfl rfl rfl
    (fun c' hcc => Function.update_of_ne hcc _ _) ?_ ?_ ?_ ?_ ?_ ?_ ?_ ?_ ?_ ?_
    (by rw [hth, hq, hlkq])
  · exact fun c' hcc => hother (fun he => hp.off c' (exec_of_thread he))
      fun he => hcc (h.thread_inj (he.trans ht.symm))
  · exact fun c' hcc => hother (sched_ne_proc c' q) fun he => hcc (Thread.sched.inj he)
  · refine fun q' hqq => ⟨Function.update_of_ne hqq _ _, ?_, fun _ =>
      hother (fun he => hqq (Thread.proc.inj he)) (sched_ne_proc c q').symm⟩
    rw [hex, hme]
    exact ⟨fun he => absurd (Option.some.inj he).symm hqq, nofun⟩
  · exact fun {t l} => hviews (P := fun t Γt => Γt.lk = some l → (Γ t).lk = some l) id
      (fun hlk => nomatch hl.symm.trans hlk) (fun _ => id) t
  · exact hviews (P := fun t Γt => Γt.own = (Γ t).own) rfl (by rw [h₀]) fun _ => rfl
  · refine hviews (P := fun _ Γt => Γt.Calm) ?_ ?_ h.calm
    · exact (h.calm (.proc q)).of_held (q := q) rfl rfl rfl
    · exact (h₀ ▸ h.calm (.sched c)).of_held (q := q) rfl rfl rfl
  · intro p hx
    obtain rfl := Option.some.inj (hex.symm.trans hx)
    exact hc
  · rw [hex, Kernel.cur, hth, hq, hcode, Function.update_of_ne (sched_ne_proc c q).symm]
    exact hp.resume (by simp [hst]) (by simp [hst]) _ hst
  · intro p hx
    obtain rfl := Option.some.inj (hex.symm.trans hx)
    rw [hsc, hcode, Function.update_self]
    exact ⟨rfl, hl, hk⟩
  · rw [hth, hq]
    exact .held rfl (.inl ⟨hst, c, hex⟩)

/-- Bookkeeping that changes no view. -/
theorem KInv.note (h : KInv s Γ) {k : Code} {e : Event} (hk : Safe (s.exec c) (Γ (s.thread c)) k) :
    KInv ((s.goOn c k).note e) Γ := by
  rw [← Function.update_eq_self (s.thread c) Γ]
  cases e with
  | tested =>
    exact h.quiet rfl rfl rfl rfl rfl rfl rfl hk rfl rfl rfl (h.calm _)
  | woken =>
    exact h.quiet rfl rfl rfl rfl rfl rfl rfl hk rfl rfl rfl (h.calm _)
  | marked =>
    exact h.quiet rfl rfl rfl rfl rfl rfl rfl hk rfl rfl rfl (h.calm _)

/-- **One step.** Whatever a CPU does, the machine stays as its threads see
it. -/
theorem gstep_kinv (h : KInv s Γ) (hg : GStep s Γ c s' Γ') : KInv s' Γ' := by
  cases hg with
  | quiet h₀ hpar hhit hk =>
    subst h₀
    refine h.quiet rfl rfl rfl rfl rfl rfl rfl hk rfl rfl rfl ⟨(h.calm _).seen, ?_, ?_⟩
    · intro hm hh
      rcases hhit hh with hh | ⟨hne, _⟩
      · exact (h.calm _).hit hm hh
      · exact hne hm
    · intro hm hl
      obtain ⟨hp, ht⟩ := (h.calm _).free hm hl
      rcases hpar with hpar | ⟨hw, _⟩
      · exact ⟨hpar.trans hp, ht⟩
      · cases hl.symm.trans hw
  | setParent h₀ ho hk =>
    subst h₀
    refine h.quiet rfl rfl rfl rfl rfl rfl rfl hk rfl rfl rfl
      ⟨(h.calm _).seen, (h.calm _).hit, fun hm hl => ?_⟩
    -- without `wait_lock` the caller has the child's lock
    rcases ho with ⟨hw, _⟩ | ⟨_, _, hp⟩
    · cases hl.symm.trans hw
    · cases ((h.calm _).free hm hl).1.symm.trans hp
  | tested h₀ hme hm hl hk =>
    subst h₀
    refine h.quiet rfl rfl rfl rfl rfl rfl rfl hk rfl rfl rfl
      ⟨fun _ _ _ => id, (h.calm _).hit, fun _ hn => ?_⟩
    cases hl.symm.trans hn
  | woken h₀ hl ht hseen hk => exact h.note (h₀ ▸ hk)
  | marked h₀ hm hp hb hk => exact h.note (h₀ ▸ hk)
  | acquireProc h₀ hm hl hk => exact h.acquireProc h₀ hm hl hk
  | acquireLk h₀ ho hm hn ht hl hk => exact h.acquireLk h₀ ho hm hn ht hl hk
  | releaseProc h₀ hm ht hk => exact h.releaseProc h₀ hm ht hk
  | releaseLk h₀ ho hl ht hk => exact h.releaseLk h₀ ho hl ht hk
  | write h₀ hw hk => exact h.write (h₀ ▸ hw) hk
  | context h₀ hm ho hk => exact h.context h₀ hm hk
  | setProc h₀ hme hm hk => exact h.setProc h₀ hme hm hk
  | clearProc h₀ hme hm hk => exact h.clearProc h₀ hme hm hk
  | saveOut h₀ hme hm hk => exact h.saveOut h₀ hm hk
  | saveIn h₀ hme hm hk => exact h.saveIn h₀ hm hk
  | loadOut h₀ hme hm hl hk => exact h.loadOut h₀ hme hm hl hk
  | loadIn h₀ hme hm hl hk => exact h.loadIn h₀ hme hm hl hk

/-! ## Whole runs -/

omit [DecidableEq C] in
/-- At boot everybody holds nothing. -/
theorem init_kinv {cfg : Config} (h : Init cfg s) : KInv s fun _ => .user := by
  have hthread : ∀ c, s.thread c = .sched c := fun c => thread_of_idle (h.exec c)
  have hparked : ∀ q, (s.proc q).state ≠ .RUNNING ∧ Parked s (fun _ => .user) q := by
    intro q
    have hoff : ∀ c, s.exec c ≠ some q := fun c => by simp [h.exec c]
    by_cases hq : q = cfg.initproc
    · subst hq
      exact ⟨by simp [h.init], parked_of_forkret hoff h.saved rfl h.start⟩
    · have hst : (s.proc q).state = .UNUSED := by rw [h.other q hq, Proc.boot]
      exact ⟨by simp [hst], hoff, fun hu => absurd hst hu, fun hu => absurd hst hu⟩
  constructor
  case inj => exact fun {c} _ _ hc => absurd (hc.symm.trans (h.cproc c)) (Option.some_ne_none _)
  case exec => exact fun {c} _ hx => absurd (hx.symm.trans (h.exec c)) (Option.some_ne_none _)
  case safe =>
    intro c
    rw [Kernel.cur, hthread, h.sched]
    exact .done rfl rfl rfl
  case back => exact fun {c} _ hx => absurd (hx.symm.trans (h.exec c)) (Option.some_ne_none _)
  case slot =>
    refine fun q => ⟨fun _ => .inr ⟨(hparked q).1, fun c => by simp [h.cproc c], (hparked q).2⟩,
      fun {c} hc => absurd (hc.symm.trans (h.lock _)) (Option.some_ne_none _)⟩
  case mode => exact fun hn => absurd hn.symm (Option.some_ne_none _)
  case other => exact fun hn => absurd hn.symm (Option.some_ne_none _)
  case lk => exact fun hn => absurd hn.symm (Option.some_ne_none _)
  case lock => exact fun {l _} _ hl => absurd (hl.symm.trans (h.lock l)) (Option.some_ne_none _)
  case noff => exact h.noff
  case own => exact fun hn => absurd hn.symm (Option.some_ne_none _)
  case own_inj => exact fun hn => absurd hn.symm (Option.some_ne_none _)
  case calm => exact fun _ => ⟨fun _ _ _ => id, fun _ => id, fun _ _ => ⟨rfl, rfl⟩⟩

/-- **Whole runs.** Every reachable state has views that fit it, and what else
holds of the views at boot and survives every step holds of them, too. -/
theorem reach_views {cfg : Config} {ok : Kernel C → Act C → Prop} {P : Kernel C → Views C → Prop}
    (h0 : ∀ {s}, Init cfg s → P s fun _ => .user)
    (hstep : ∀ {s s' Γ Γ' a}, KInv s Γ → P s Γ → ok s a → GStep s Γ a.cpu s' Γ' → P s' Γ')
    (h : Reach (step cfg) ok (Init cfg) s) : ∃ Γ : Views C, KInv s Γ ∧ P s Γ := by
  refine @Reach.ghost _ _ _ _ _ _ (fun s Γ => KInv s Γ ∧ P s Γ)
    (fun s hs => ⟨_, init_kinv hs, h0 hs⟩) (fun {s s' a Γ} hi hok hs => ?_) s h
  obtain ⟨Γ', hg⟩ := typed_step hi.1 hs
  exact ⟨Γ', gstep_kinv hi.1 hg, hstep hi.1 hi.2 hok hg⟩

/-! ## Who is being freed -/

/-- The thread has slot `q`, whose state is `st`, and is not in a hand-over. -/
def Ctx.Has (Γ : Ctx) (q : Slot) (st : ProcState) : Prop :=
  ∃ r, (Γ.mode = .held q r ∨ Γ.mode = .fresh q r) ∧ r.state = st

/-- An assignment that keeps the state keeps the slot. -/
theorem Safe.has_of_write {me : Option Slot} {Γ₀ : Ctx} {f : Proc → Proc} {k : Code}
    (h : Safe me Γ₀ (.write q f k)) (hf : ∀ r, (f r).state = r.state)
    (hk : ∀ Γ₁, Safe me Γ₁ k → ∃ st, Γ₁.Has q st ∧ st ≠ .RUNNING) :
    ∃ st, Γ₀.Has q st ∧ st ≠ .RUNNING := by
  cases h with
  | write hw hsafe =>
    obtain ⟨st, ⟨r', hm', hr'⟩, hst⟩ := hk _ hsafe
    cases hw with
    | @same r hm =>
      rcases hm' with hm' | hm' <;> cases hm'
      exact ⟨st, ⟨r, .inl hm, (hf r).symm.trans hr'⟩, hst⟩
    | @fresh r hm =>
      rcases hm' with hm' | hm' <;> cases hm'
      exact ⟨st, ⟨r, .inr hm, (hf r).symm.trans hr'⟩, hst⟩
    | wake _ hs hfr => rw [hf, hs] at hfr; cases hfr
    | leave _ _ hs hl => exact absurd ((hf _).trans hs) hl.ne_running
    | pick _ _ hs hfr => rw [hf, hs] at hfr; cases hfr
    | @claim r _ _ hs hfr =>
      have hst' := hf r
      rw [hfr, hs] at hst'
      cases hst'
    | start _ _ hs hfr => rw [hf, hs] at hfr; cases hfr
    | reap _ _ _ hs hc => have hu := hc.state; rw [hf, hs] at hu; cases hu
    | drop _ _ _ hs hc => have hu := hc.state; rw [hf, hs] at hu; cases hu

/-- What is freed is not RUNNING. -/
theorem Safe.has_of_free {me : Option Slot} {Γ₀ : Ctx} {k : Code}
    (h : Safe me Γ₀ (Code.setState q .UNUSED k)) : ∃ st, Γ₀.Has q st ∧ st ≠ .RUNNING := by
  cases h with
  | write hw hsafe =>
    cases hw with
    | @same r hm hs => exact ⟨_, ⟨r, .inl hm, rfl⟩, by simp [← hs]⟩
    | @fresh r hm hs => exact ⟨_, ⟨r, .inr hm, rfl⟩, by simp [← hs]⟩
    | wake _ _ hf => cases hf
    | leave _ _ _ hl => rcases hl with hl | hl | hl <;> cases hl
    | pick _ _ _ hf => cases hf
    | claim _ _ _ hf => cases congrArg Proc.state hf
    | start _ _ _ hf => cases hf
    | @reap r _ _ hm hs => exact ⟨_, ⟨r, .inl hm, hs⟩, by simp⟩
    | @drop r _ _ hm hs => exact ⟨_, ⟨r, hm, hs⟩, by simp⟩

theorem Safe.has_of_freeproc {me : Option Slot} {Γ₀ : Ctx} {k : Code}
    (h : Safe me Γ₀ (Code.freeproc q k)) : ∃ st, Γ₀.Has q st ∧ st ≠ .RUNNING := by
  refine h.has_of_write (fun _ => rfl) fun _ h => ?_
  refine h.has_of_write (fun _ => rfl) fun _ h => ?_
  refine h.has_of_write (fun _ => rfl) fun Γ₃ h => ?_
  -- `p->parent = 0` leaves the slot alone
  cases h with
  | clearParent _ h =>
    refine @Safe.has_of_write q _ { Γ₃ with par := some (q, none) } _ _ h (fun _ => rfl)
      fun _ h => ?_
    refine h.has_of_write (fun _ => rfl) fun _ h => ?_
    refine h.has_of_write (fun _ => rfl) fun _ h => ?_
    refine h.has_of_write (fun _ => rfl) fun _ h => ?_
    exact h.has_of_free

omit [DecidableEq C] in
/-- Nobody is on the stack of a slot that is being freed. -/
theorem KInv.freeproc_off (h : KInv s Γ) {k : Code} (hc : s.cur c = Code.freeproc q k) :
    Idle s q ∧ ((s.proc q).state = .ZOMBIE → s.saved q = true) := by
  obtain ⟨st, ⟨r, hm, hr⟩, hst⟩ := (hc ▸ h.safe c).has_of_freeproc
  rcases hm with hm | hm
  · obtain ⟨rfl, hstable⟩ := h.of_held hm
    obtain ⟨hidle, hp⟩ := hstable.parked (hr ▸ hst)
    exact ⟨hidle, fun hz => hp.saved (by simp [hz])⟩
  · obtain ⟨rfl, hu, hidle⟩ := h.of_fresh hm
    exact ⟨hidle, fun hz => by rw [hu] at hz; cases hz⟩

/-- **No process runs on two CPUs.** In every reachable state a process is the
`c->proc` of at most one CPU; with its lock free it is RUNNING exactly when it is
the `c->proc` of some CPU, and if it is not RUNNING no CPU is on its stack and its
saved context is complete. The same holds of a process whose `freeproc` is about
to begin, whoever has its lock. -/
theorem no_two_cpus {cfg : Config} (h : Reach (step cfg) Any (Init cfg) s) :
    (∀ c c' p, s.cproc c = some p → s.cproc c' = some p → c = c') ∧
    (∀ p, s.lock (.proc p) = none →
      ((s.proc p).state = .RUNNING ↔ ∃ c, s.cproc c = some p)) ∧
    (∀ p, s.lock (.proc p) = none → (s.proc p).state ≠ .RUNNING →
      (∀ c, s.exec c ≠ some p) ∧ ((s.proc p).state ≠ .UNUSED → s.saved p = true)) ∧
    (∀ c p k, s.cur c = Code.freeproc p k →
      (∀ c', s.cproc c' ≠ some p ∧ s.exec c' ≠ some p) ∧
      ((s.proc p).state = .ZOMBIE → s.saved p = true)) := by
  obtain ⟨Γ, hi, _⟩ := reach_views (P := fun _ _ => True) (fun _ => trivial)
    (fun _ _ _ _ => trivial) h
  refine ⟨fun _ _ _ h₁ h₂ => hi.inj h₁ h₂, fun p hl => ?_, fun p hl hst => ?_, fun c p k hc => ?_⟩
  · rcases (hi.slot p).free hl with ⟨hrun, c, hc⟩ | ⟨hst, hidle, _⟩
    · exact ⟨fun _ => ⟨c, hi.exec hc⟩, fun _ => hrun⟩
    · exact ⟨fun hrun => absurd hrun hst, fun ⟨c, hc⟩ => absurd hc (hidle c)⟩
  · obtain ⟨_, hp⟩ := ((hi.slot p).free hl).parked hst
    exact ⟨hp.off, hp.saved⟩
  · obtain ⟨hidle, hsaved⟩ := hi.freeproc_off hc
    exact ⟨fun c' => ⟨hidle c', hidle.off hi c'⟩, hsaved⟩

/-- CPU 0 of two dispatches `initproc`, while CPU 1 is still after the same
slot. -/
def dispatchRun : List (Act (Fin 2)) :=
  [.dispatch hart0 0, .dispatch hart1 0, .step hart0 .no, .step hart0 .no, .step hart0 .no,
    .step hart0 .no, .step hart0 .no, .step hart0 .no, .step hart0 .no, .step hart1 .no]

theorem no_two_cpus_dispatched :
    ∃ s : Kernel (Fin 2), runFrom (step ⟨.v6, 0⟩) (Kernel.boot (Fin 2)) dispatchRun = some s ∧
      s.cproc 0 = some 0 ∧ s.lock (.proc 0) = some 1 ∧
      ∀ c c' p, s.cproc c = some p → s.cproc c' = some p → c = c' := by
  have hobs : (runFrom (step ⟨.v6, 0⟩) (Kernel.boot (Fin 2)) dispatchRun).map
      (fun s => (s.cproc 0, s.lock (.proc 0))) = some (some 0, some 1) := by decide +kernel
  obtain ⟨s, hs, hobs⟩ := Option.map_eq_some_iff.mp hobs
  obtain ⟨hproc, hlock⟩ := Prod.mk.inj hobs
  have hreach : Reach (step ⟨.v6, 0⟩) Any (Init ⟨.v6, 0⟩) s :=
    .of_run dispatchRun (.start (boot_init .v6)) (RunOk.any _ _ _) hs
  exact ⟨s, hs, hproc, hlock, (no_two_cpus hreach).1⟩

end Xv6.Proc
