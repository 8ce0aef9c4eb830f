import Xv6.Proc.Views

/-!
# Steps that touch one slot

Most of what a CPU does touches one slot at most, the one whose lock it has, and
no other thread. `KInv.local` is the frame rule for such steps: `KInv` is kept if
it is kept for the slots whose lock the CPU has before or after, and a slot that
is not touched stays at its station (`SlotOk.frame`). From it follow the steps
that change no slot at all (`KInv.quiet`), those that keep the lock
(`KInv.touch`), the assignments (`KInv.write`) and the four lock operations.
-/

namespace Xv6.Proc

open Lib

variable {C : Type*} [DecidableEq C] {s s' : Kernel C} {Γ Γ' : Views C} {c : C} {q : Slot}

/-! ## Slots that keep their station -/

omit [DecidableEq C] in
theorem thread_congr (h : s'.exec c = s.exec c) : s'.thread c = s.thread c := by
  unfold Kernel.thread
  rw [h]

theorem cur_goOn (s : Kernel C) (c : C) (k : Code) : (s.goOn c k).cur c = k := by
  show Function.update s.code (s.thread c) k (s.thread c) = k
  rw [Function.update_self]

omit [DecidableEq C] in
theorem proc_ne_thread (h : s.exec c ≠ some q) : Thread.proc q ≠ s.thread c := by
  unfold Kernel.thread
  split
  next p hp =>
    rintro ⟨⟩
    exact h hp
  next => exact fun h => nomatch h

omit [DecidableEq C] in
theorem Parked.frame (h : Parked s Γ q) (hoff : ∀ c, s'.exec c ≠ some q)
    (hu : (s'.proc q).state ≠ .UNUSED → (s.proc q).state ≠ .UNUSED)
    (hz : (s'.proc q).state ≠ .UNUSED → (s'.proc q).state ≠ .ZOMBIE → (s.proc q).state ≠ .ZOMBIE)
    (hsv : s'.saved q = s.saved q) (hΓ : Γ' (.proc q) = Γ (.proc q))
    (hcode : s'.code (.proc q) = s.code (.proc q)) : Parked s' Γ' q := by
  refine ⟨hoff, fun h1 => hsv ▸ h.saved (hu h1), fun h1 h2 => ?_⟩
  rw [hΓ, hcode]
  exact h.resume (hu h1) (hz h1 h2)

/-- Nothing about slot `q` changes. -/
structure SameSlot (s : Kernel C) (Γ : Views C) (s' : Kernel C) (Γ' : Views C) (q : Slot) :
    Prop where
  proc : s'.proc q = s.proc q
  saved : s'.saved q = s.saved q
  cproc : ∀ c, s'.cproc c = some q ↔ s.cproc c = some q
  exec : ∀ c, s'.exec c = some q ↔ s.exec c = some q
  view : (∀ c, s.exec c ≠ some q) →
    Γ' (.proc q) = Γ (.proc q) ∧ s'.code (.proc q) = s.code (.proc q)

section
omit [DecidableEq C]

theorem SameSlot.parked (hq : SameSlot s Γ s' Γ' q) (h : Parked s Γ q) : Parked s' Γ' q := by
  obtain ⟨hΓ, hcode⟩ := hq.view h.off
  refine h.frame (fun c hc => h.off c ((hq.exec c).mp hc)) ?_ ?_ hq.saved hΓ hcode
  · rw [hq.proc]
    exact id
  · rw [hq.proc]
    exact fun _ => id

theorem SameSlot.idle (hq : SameSlot s Γ s' Γ' q) (h : Idle s q) : Idle s' q :=
  fun c hc => h c ((hq.cproc c).mp hc)

theorem SameSlot.stable (hq : SameSlot s Γ s' Γ' q) (h : Stable s Γ q) : Stable s' Γ' q := by
  rcases h with ⟨hrun, c, hc⟩ | ⟨hst, hi, hp⟩
  · exact .inl ⟨hq.proc ▸ hrun, c, (hq.exec c).mpr hc⟩
  · exact .inr ⟨hq.proc ▸ hst, hq.idle hi, hq.parked hp⟩

theorem SameSlot.heldOk (hq : SameSlot s Γ s' Γ' q) {m : Mode} (h : HeldOk s Γ c q m) :
    HeldOk s' Γ' c q m := by
  cases h with
  | held hr hs => exact .held (hq.proc.trans hr) (hq.stable hs)
  | fresh hr hs hi => exact .fresh (hq.proc.trans hr) hs (hq.idle hi)
  | leaving hr hs hx => exact .leaving (hq.proc.trans hr) hs ((hq.exec c).mpr hx)
  | left hr hs hx hsv =>
    exact .left (hq.proc.trans hr) hs ((hq.exec c).mpr hx) (hq.saved.trans hsv)
  | picked hr hs hi hp => exact .picked (hq.proc.trans hr) hs (hq.idle hi) (hq.parked hp)
  | placed hr hs hc hp => exact .placed (hq.proc.trans hr) hs ((hq.cproc c).mpr hc) (hq.parked hp)
  | ready hr hs hc hp => exact .ready (hq.proc.trans hr) hs ((hq.cproc c).mpr hc) (hq.parked hp)
  | back hs hc hp => exact .back (hq.proc ▸ hs) ((hq.cproc c).mpr hc) (hq.parked hp)

theorem SlotOk.frame (h : SlotOk s Γ q) (hq : SameSlot s Γ s' Γ' q)
    (hl : s'.lock (.proc q) = s.lock (.proc q))
    (hm : ∀ c, s.lock (.proc q) = some c → (Γ' (s'.thread c)).mode = (Γ (s.thread c)).mode) :
    SlotOk s' Γ' q := by
  refine ⟨fun hf => hq.stable (h.free (hl ▸ hf)), fun {c} hc => ?_⟩
  rw [hl] at hc
  rw [hm c hc]
  exact hq.heldOk (h.held hc)

end

/-! ## Steps that touch one slot -/

/-- What a step of `c` leaves alone whoever it touches: the other CPUs. -/
structure Others (s s' : Kernel C) (c : C) : Prop where
  exec : s'.exec = s.exec
  noff : ∀ c' ≠ c, s'.noff c' = s.noff c'
  lock : ∀ c' ≠ c, ∀ l, s'.lock l = some c' ↔ s.lock l = some c'
  cproc : ∀ c' ≠ c, s'.cproc c' = s.cproc c'
  proc : ∀ q, s.lock (.proc q) ≠ some c → s'.lock (.proc q) ≠ some c →
    s'.proc q = s.proc q ∧ s'.saved q = s.saved q ∧
      (s'.cproc c = some q ↔ s.cproc c = some q)

/-- What a thread must make true of its own view. -/
structure Mine (s' : Kernel C) (c : C) (Γ₁ : Ctx) : Prop where
  mode : ∀ {q}, Γ₁.mode.slot = some q → s'.lock (.proc q) = some c
  lk : ∀ {l}, Γ₁.lk = some l ↔ l.Other ∧ s'.lock l = some c
  noff : s'.noff c = Γ₁.count
  calm : Γ₁.Calm

/-- **The frame rule.** A step of `c` that stays on its thread keeps `KInv` if it
does so for the slots whose lock `c` has before or after. -/
theorem KInv.local (h : KInv s Γ) {Γ₁ : Ctx} {k : Code} (ho : Others s s' c)
    (hcode : s'.code = Function.update s.code (s.thread c) k) (hk : Safe (s.exec c) Γ₁ k)
    (hmine : Mine s' c Γ₁)
    (hinj : ∀ {p c'}, s'.cproc c = some p → s'.cproc c' = some p → c = c')
    (hexec : ∀ {p}, s.exec c = some p → s'.cproc c = some p)
    (hown : ∀ {q}, Γ₁.own = some q →
      (s'.proc q).state = .USED ∧ ∀ t, t ≠ s.thread c → (Γ t).own ≠ some q)
    (hown' : ∀ {t q}, t ≠ s.thread c → (Γ t).own = some q → (s'.proc q).state = .USED)
    (hslot : ∀ q, s.lock (.proc q) = some c ∨ s'.lock (.proc q) = some c →
      SlotOk s' (Function.update Γ (s.thread c) Γ₁) q) :
    KInv s' (Function.update Γ (s.thread c) Γ₁) := by
  have hthread : ∀ c', s'.thread c' = s.thread c' := fun c' => thread_congr (by rw [ho.exec])
  have hne : ∀ c', c' ≠ c → s.thread c' ≠ s.thread c := fun c' hc' ht => hc' (h.thread_inj ht)
  have hother : ∀ c', c' ≠ c →
      Function.update Γ (s.thread c) Γ₁ (s'.thread c') = Γ (s.thread c') := by
    intro c' hc'
    rw [hthread, Function.update_of_ne (hne c' hc')]
  have hself : Function.update Γ (s.thread c) Γ₁ (s'.thread c) = Γ₁ := by
    rw [hthread, Function.update_self]
  constructor
  case inj =>
    intro c₁ c₂ p h₁ h₂
    by_cases hc₁ : c₁ = c
    · exact hc₁ ▸ hinj (hc₁ ▸ h₁) h₂
    by_cases hc₂ : c₂ = c
    · exact hc₂ ▸ (hinj (hc₂ ▸ h₂) h₁).symm
    rw [ho.cproc _ hc₁] at h₁
    rw [ho.cproc _ hc₂] at h₂
    exact h.inj h₁ h₂
  case exec =>
    intro c' p hx
    rw [ho.exec] at hx
    by_cases hc : c' = c
    · subst hc
      exact hexec hx
    · rw [ho.cproc _ hc]
      exact h.exec hx
  case safe =>
    intro c'
    rw [ho.exec, Kernel.cur, hcode]
    by_cases hc : c' = c
    · subst hc
      rw [hself, hthread, Function.update_self]
      exact hk
    · rw [hother c' hc, hthread, Function.update_of_ne (hne c' hc)]
      exact h.safe c'
  case back =>
    intro c' p hx
    rw [ho.exec] at hx
    have hns : Thread.sched c' ≠ s.thread c := by
      intro ht
      unfold Kernel.thread at ht
      split at ht
      next => cases ht
      next hn =>
        cases ht
        rw [hn] at hx
        cases hx
    rw [hcode, Function.update_of_ne hns, Function.update_of_ne hns]
    exact h.back hx
  case slot =>
    intro q
    -- a slot whose lock `c` has neither before nor after is framed
    by_cases hb : s.lock (.proc q) = some c
    · exact hslot q (.inl hb)
    by_cases ha : s'.lock (.proc q) = some c
    · exact hslot q (.inr ha)
    obtain ⟨hp, hsv, hcp⟩ := ho.proc q hb ha
    have hl : s'.lock (.proc q) = s.lock (.proc q) := by
      cases hq : s.lock (.proc q) with
      | some c' =>
        have hc : c' ≠ c := fun hc => hb (hc ▸ hq)
        exact (ho.lock c' hc _).mpr hq
      | none =>
        cases hq' : s'.lock (.proc q) with
        | none => rfl
        | some c' =>
          have hc : c' ≠ c := fun hc => ha (hc ▸ hq')
          rw [(ho.lock c' hc _).mp hq'] at hq
          cases hq
    refine (h.slot q).frame ⟨hp, hsv, fun c' => ?_, fun c' => by rw [ho.exec], fun hoff => ?_⟩ hl
      fun c' hc' => ?_
    · by_cases hc : c' = c
      · rw [hc]
        exact hcp
      · rw [ho.cproc _ hc]
    · have hne := proc_ne_thread (hoff c)
      rw [hcode, Function.update_of_ne hne, Function.update_of_ne hne]
      exact ⟨rfl, rfl⟩
    · have hc : c' ≠ c := fun hc => hb (hc ▸ hc')
      rw [hother c' hc]
  case mode =>
    intro c' q hq
    by_cases hc : c' = c
    · subst hc
      rw [hself] at hq
      exact hmine.mode hq
    · rw [hother c' hc] at hq
      exact (ho.lock c' hc _).mpr (h.mode hq)
  case other =>
    intro t l hl
    by_cases ht : t = s.thread c
    · rw [ht, Function.update_self] at hl
      exact (hmine.lk.mp hl).1
    · rw [Function.update_of_ne ht] at hl
      exact h.other hl
  case lk =>
    intro t l hl
    by_cases ht : t = s.thread c
    · rw [ht, Function.update_self] at hl
      exact ⟨c, (hthread c).trans ht.symm, (hmine.lk.mp hl).2⟩
    · rw [Function.update_of_ne ht] at hl
      obtain ⟨c', hc', hl'⟩ := h.lk hl
      have hc : c' ≠ c := fun hc => ht (hc ▸ hc'.symm)
      exact ⟨c', (hthread c').trans hc', (ho.lock c' hc l).mpr hl'⟩
  case lock =>
    intro l c' hlo hl
    by_cases hc : c' = c
    · subst hc
      rw [hself]
      exact hmine.lk.mpr ⟨hlo, hl⟩
    · rw [hother c' hc]
      exact h.lock hlo ((ho.lock c' hc l).mp hl)
  case noff =>
    intro c'
    by_cases hc : c' = c
    · subst hc
      rw [hself]
      exact hmine.noff
    · rw [hother c' hc, ho.noff c' hc]
      exact h.noff c'
  case own =>
    intro t q ht
    by_cases htc : t = s.thread c
    · rw [htc, Function.update_self] at ht
      exact (hown ht).1
    · rw [Function.update_of_ne htc] at ht
      exact hown' htc ht
  case own_inj =>
    intro t t' q ht ht'
    -- the new child is nobody else's
    by_cases htc : t = s.thread c <;> by_cases htc' : t' = s.thread c
    · rw [htc, htc']
    · rw [htc, Function.update_self] at ht
      rw [Function.update_of_ne htc'] at ht'
      exact absurd ht' ((hown ht).2 t' htc')
    · rw [htc', Function.update_self] at ht'
      rw [Function.update_of_ne htc] at ht
      exact absurd ht ((hown ht').2 t htc)
    · rw [Function.update_of_ne htc] at ht
      rw [Function.update_of_ne htc'] at ht'
      exact h.own_inj ht ht'
  case calm =>
    intro t
    by_cases htc : t = s.thread c
    · rw [htc, Function.update_self]
      exact hmine.calm
    · rw [Function.update_of_ne htc]
      exact h.calm t

section
omit [DecidableEq C]

theorem Mode.ne_free {m : Mode} (h : m.slot = some q) : m ≠ .free := by
  rintro rfl
  cases h

theorem HeldOk.slot {m : Mode} (h : HeldOk s Γ c q m) : m.slot = some q := by
  cases h <;> rfl

/-- A CPU has the lock of at most one process. -/
theorem KInv.slot_of_lock (h : KInv s Γ) (hl : s.lock (.proc q) = some c) :
    (Γ (s.thread c)).mode.slot = some q :=
  ((h.slot q).held hl).slot

theorem Ctx.Calm.of_held {Γ₀ Γ₁ : Ctx} (h : Γ₀.Calm) (hq : Γ₁.mode.slot = some q)
    (hlk : Γ₁.lk = Γ₀.lk) (hseen : Γ₁.seen = Γ₀.seen) : Γ₁.Calm :=
  ⟨fun hl => hseen ▸ h.seen (hlk ▸ hl), fun hf => absurd hf (Mode.ne_free hq),
    fun hf => absurd hf (Mode.ne_free hq)⟩

/-- A view that knows of the same locks. -/
theorem KInv.mine (h : KInv s Γ) {Γ₁ : Ctx} (hlock : s'.lock = s.lock) (hnoff : s'.noff = s.noff)
    (hm : Γ₁.mode.slot = (Γ (s.thread c)).mode.slot) (hlk : Γ₁.lk = (Γ (s.thread c)).lk)
    (hcalm : Γ₁.Calm) : Mine s' c Γ₁ := by
  refine ⟨fun {q} hq => ?_, fun {l} => ⟨fun hl => ?_, fun hl => ?_⟩, ?_, hcalm⟩
  · rw [hlock]
    exact h.mode (hm ▸ hq)
  · rw [hlk] at hl
    exact ⟨h.other hl, hlock ▸ h.lock_of_lk hl⟩
  · rw [hlk]
    exact h.lock hl.1 (hlock ▸ hl.2)
  · rw [hnoff, h.noff c, Ctx.count, Ctx.count, hm, hlk]

end

/-- A slot whose record a step of `c` leaves alone. -/
theorem SameSlot.goOn {Γ₁ : Ctx} {k : Code} (hproc : s'.proc q = s.proc q)
    (hsaved : s'.saved q = s.saved q) (hexec : s'.exec = s.exec) (hcproc : s'.cproc = s.cproc)
    (hcode : s'.code = Function.update s.code (s.thread c) k) :
    SameSlot s Γ s' (Function.update Γ (s.thread c) Γ₁) q := by
  refine ⟨hproc, hsaved, fun _ => by rw [hcproc], fun _ => by rw [hexec], fun hoff => ?_⟩
  have hne := proc_ne_thread (hoff c)
  rw [hcode, Function.update_of_ne hne, Function.update_of_ne hne]
  exact ⟨rfl, rfl⟩

/-- A slot that a step of `c` leaves alone, lock and all. -/
theorem KInv.slot_goOn (h : KInv s Γ) {Γ₁ : Ctx} {k : Code} (hproc : s'.proc = s.proc)
    (hsaved : s'.saved = s.saved) (hexec : s'.exec = s.exec) (hcproc : s'.cproc = s.cproc)
    (hcode : s'.code = Function.update s.code (s.thread c) k)
    (hlock : s'.lock (.proc q) = s.lock (.proc q)) (hm : Γ₁.mode = (Γ (s.thread c)).mode) :
    SlotOk s' (Function.update Γ (s.thread c) Γ₁) q := by
  refine (h.slot q).frame (.goOn (by rw [hproc]) (by rw [hsaved]) hexec hcproc hcode) hlock
    fun c' _ => ?_
  have hthread : s'.thread c' = s.thread c' := thread_congr (by rw [hexec])
  rw [hthread]
  by_cases ht : s.thread c' = s.thread c
  · rw [ht, Function.update_self, hm]
  · rw [Function.update_of_ne ht]

/-- A step that changes no slot, no lock and no CPU. -/
theorem KInv.quiet (h : KInv s Γ) {Γ₁ : Ctx} {k : Code} (hproc : s'.proc = s.proc)
    (hlock : s'.lock = s.lock) (hnoff : s'.noff = s.noff) (hsaved : s'.saved = s.saved)
    (hexec : s'.exec = s.exec) (hcproc : s'.cproc = s.cproc)
    (hcode : s'.code = Function.update s.code (s.thread c) k) (hk : Safe (s.exec c) Γ₁ k)
    (hm : Γ₁.mode = (Γ (s.thread c)).mode) (hlk : Γ₁.lk = (Γ (s.thread c)).lk)
    (hown : Γ₁.own = (Γ (s.thread c)).own) (hcalm : Γ₁.Calm) :
    KInv s' (Function.update Γ (s.thread c) Γ₁) := by
  refine h.local ?_ hcode hk (h.mine hlock hnoff (by rw [hm]) hlk hcalm) ?_ ?_ ?_ ?_ ?_
  · refine ⟨hexec, fun _ _ => by rw [hnoff], fun _ _ _ => by rw [hlock],
      fun _ _ => by rw [hcproc], fun q _ _ => ?_⟩
    rw [hproc, hsaved, hcproc]
    exact ⟨rfl, rfl, Iff.rfl⟩
  · rw [hcproc]
    exact fun h₁ h₂ => h.inj h₁ h₂
  · rw [hcproc]
    exact h.exec
  · intro q hq
    rw [hown] at hq
    exact ⟨hproc ▸ h.own hq, fun t ht hq' => ht (h.own_inj hq' hq)⟩
  · exact fun _ hq => hproc ▸ h.own hq
  · exact fun q _ => h.slot_goOn hproc hsaved hexec hcproc hcode (by rw [hlock]) hm

/-- A step that touches the slot whose lock its CPU has, and keeps the lock. -/
theorem KInv.touch (h : KInv s Γ) {Γ₁ : Ctx} {k : Code}
    (hb : (Γ (s.thread c)).mode.slot = some q) (hlk : Γ₁.lk = (Γ (s.thread c)).lk)
    (hseen : Γ₁.seen = (Γ (s.thread c)).seen)
    (hlock : s'.lock = s.lock) (hnoff : s'.noff = s.noff) (hexec : s'.exec = s.exec)
    (hcproc : ∀ c' ≠ c, s'.cproc c' = s.cproc c')
    (hrest : ∀ q' ≠ q, s'.proc q' = s.proc q' ∧ s'.saved q' = s.saved q' ∧
      (s'.cproc c = some q' ↔ s.cproc c = some q'))
    (hcode : s'.code = Function.update s.code (s.thread c) k) (hk : Safe (s.exec c) Γ₁ k)
    (hinj : ∀ {p c'}, s'.cproc c = some p → s'.cproc c' = some p → c = c')
    (hcur : ∀ {p}, s.exec c = some p → s'.cproc c = some p)
    (hown : ∀ {q}, Γ₁.own = some q →
      (s'.proc q).state = .USED ∧ ∀ t, t ≠ s.thread c → (Γ t).own ≠ some q)
    (hown' : ∀ {t q}, t ≠ s.thread c → (Γ t).own = some q → (s'.proc q).state = .USED)
    (hok : HeldOk s' (Function.update Γ (s.thread c) Γ₁) c q Γ₁.mode) :
    KInv s' (Function.update Γ (s.thread c) Γ₁) := by
  have hcalm : Γ₁.Calm := (h.calm _).of_held hok.slot hlk hseen
  refine h.local ?_ hcode hk (h.mine hlock hnoff (hok.slot.trans hb.symm) hlk hcalm) hinj hcur
    hown hown' ?_
  · refine ⟨hexec, fun _ _ => by rw [hnoff], fun _ _ _ => by rw [hlock], hcproc, fun q' hq' _ => ?_⟩
    exact hrest q' fun he => hq' (he ▸ h.mode hb)
  · intro q' hq'
    have hq' : s.lock (.proc q') = some c := hq'.elim id (hlock ▸ ·)
    obtain rfl : q = q' := Option.some.inj (hb.symm.trans (h.slot_of_lock hq'))
    refine ⟨fun hf => ?_, fun {c'} hc' => ?_⟩
    · rw [hlock, hq'] at hf
      cases hf
    · rw [hlock, hq'] at hc'
      obtain rfl := Option.some.inj hc'
      have hthread : s'.thread c = s.thread c := thread_congr (by rw [hexec])
      rw [hthread, Function.update_self]
      exact hok

/-! ## Assignments -/

section
omit [DecidableEq C]

/-- A stable slot stays stable if its state changes in a harmless way. -/
theorem Stable.touch (h : Stable s Γ q) (hexec : s'.exec = s.exec) (hcproc : s'.cproc = s.cproc)
    (hsaved : s'.saved q = s.saved q)
    (hview : (∀ c, s.exec c ≠ some q) →
      Γ' (.proc q) = Γ (.proc q) ∧ s'.code (.proc q) = s.code (.proc q))
    (hrun : (s'.proc q).state = .RUNNING ↔ (s.proc q).state = .RUNNING)
    (hu : (s'.proc q).state ≠ .UNUSED → (s.proc q).state ≠ .UNUSED)
    (hz : (s'.proc q).state ≠ .UNUSED → (s'.proc q).state ≠ .ZOMBIE →
      (s.proc q).state ≠ .ZOMBIE) : Stable s' Γ' q := by
  rcases h with ⟨hst, c, hc⟩ | ⟨hst, hi, hp⟩
  · exact .inl ⟨hrun.mpr hst, c, by rw [hexec, hc]⟩
  · obtain ⟨hΓ, hcode⟩ := hview hp.off
    refine .inr ⟨fun hr => hst (hrun.mp hr), fun c => by rw [hcproc]; exact hi c, ?_⟩
    exact hp.frame (fun c => by rw [hexec]; exact hp.off c) hu hz hsaved hΓ hcode

theorem Stable.parked (h : Stable s Γ q) (hst : (s.proc q).state ≠ .RUNNING) :
    Idle s q ∧ Parked s Γ q := by
  rcases h with ⟨hrun, _⟩ | ⟨_, hi, hp⟩
  · exact absurd hrun hst
  · exact ⟨hi, hp⟩

theorem KInv.of_held (h : KInv s Γ) {r : Proc} (hm : (Γ (s.thread c)).mode = .held q r) :
    s.proc q = r ∧ Stable s Γ q := by
  obtain ⟨_, hok⟩ := h.heldOk hm rfl
  cases hok with
  | held hr hst => exact ⟨hr, hst⟩

theorem KInv.of_fresh (h : KInv s Γ) {r : Proc} (hm : (Γ (s.thread c)).mode = .fresh q r) :
    s.proc q = r ∧ r.state = .USED ∧ Idle s q := by
  obtain ⟨_, hok⟩ := h.heldOk hm rfl
  cases hok with
  | fresh hr hs hi => exact ⟨hr, hs, hi⟩

theorem Leave.ne_running {Γ₀ : Ctx} {r : Proc} (h : Leave Γ₀ r) : r.state ≠ .RUNNING := by
  cases h <;> simp [*]

theorem Assign.slot {me : Option Slot} {Γ₀ Γ₁ : Ctx} {f : Proc → Proc} (h : Assign me Γ₀ q f Γ₁) :
    Γ₀.mode.slot = some q := by
  cases h with
  | drop _ _ hm => rcases hm with hm | hm <;> rw [hm] <;> rfl
  | _ => simp [*, Mode.slot]

theorem Assign.keeps {me : Option Slot} {Γ₀ Γ₁ : Ctx} {f : Proc → Proc} (h : Assign me Γ₀ q f Γ₁) :
    Γ₁.lk = Γ₀.lk ∧ Γ₁.seen = Γ₀.seen := by
  cases h <;> exact ⟨rfl, rfl⟩

end

omit [DecidableEq C] in
/-- The slot after an assignment is at the station the new mode names. -/
theorem KInv.assign_heldOk (h : KInv s Γ) {Γ₁ : Ctx} {f : Proc → Proc}
    (hw : Assign (s.exec c) (Γ (s.thread c)) q f Γ₁) (hexec : s'.exec = s.exec)
    (hcproc : s'.cproc = s.cproc) (hsaved : s'.saved = s.saved)
    (hview : (∀ c, s.exec c ≠ some q) →
      Γ' (.proc q) = Γ (.proc q) ∧ s'.code (.proc q) = s.code (.proc q))
    (hr' : s'.proc q = f (s.proc q)) : HeldOk s' Γ' c q Γ₁.mode := by
  have hstable : Stable s Γ q → ((f (s.proc q)).state = .RUNNING ↔ (s.proc q).state = .RUNNING) →
      ((f (s.proc q)).state ≠ .UNUSED → (s.proc q).state ≠ .UNUSED) →
      ((f (s.proc q)).state ≠ .UNUSED → (f (s.proc q)).state ≠ .ZOMBIE →
        (s.proc q).state ≠ .ZOMBIE) → Stable s' Γ' q := by
    intro hst
    rw [← hr']
    exact hst.touch hexec hcproc (by rw [hsaved]) hview
  have hidle : Idle s q → Idle s' q := fun hi c => by rw [hcproc]; exact hi c
  cases hw with
  | same hm hs =>
    obtain ⟨rfl, hst⟩ := h.of_held hm
    exact .held hr'
      (hstable hst (by rw [hs]) (by rw [hs]; exact id) (by rw [hs]; exact fun _ => id))
  | wake hm hs hf =>
    obtain ⟨rfl, hst⟩ := h.of_held hm
    exact .held hr' (hstable hst (by simp [hs, hf]) (by simp [hs]) (by simp [hs]))
  | leave hme hm hs hf =>
    obtain ⟨rfl, _⟩ := h.of_held hm
    exact .leaving hr' hf.ne_running (by rw [hexec, hme])
  | pick hme hm hs hf =>
    obtain ⟨rfl, hst⟩ := h.of_held hm
    obtain ⟨hi, hp⟩ := hst.parked (by simp [hs])
    obtain ⟨hΓ, hcode⟩ := hview hp.off
    refine .picked hr' hf (hidle hi) ?_
    exact hp.frame (fun c => by rw [hexec]; exact hp.off c) (by simp [hs]) (by simp [hs])
      (by rw [hsaved]) hΓ hcode
  | claim ho hm hs hf =>
    obtain ⟨rfl, hst⟩ := h.of_held hm
    obtain ⟨hi, _⟩ := hst.parked (by simp [hs])
    exact .fresh hr' (by rw [hf]) (hidle hi)
  | fresh hm hf =>
    obtain ⟨rfl, hs, hi⟩ := h.of_fresh hm
    exact .fresh hr' (hf.trans hs) (hidle hi)
  | start ho hm hs hf =>
    obtain ⟨rfl, hst⟩ := h.of_held hm
    exact .held hr' (hstable hst (by simp [hs, hf]) (by simp [hs]) (by simp [hs]))
  | reap hl hp hm hs hf =>
    obtain ⟨rfl, hst⟩ := h.of_held hm
    exact .held hr' (hstable hst (by simp [hs, hf.state]) (by simp [hf.state]) (by simp [hf.state]))
  | drop ho hp hm hs hf =>
    rcases hm with hm | hm
    · obtain ⟨rfl, hst⟩ := h.of_held hm
      exact .held hr' (hstable hst (by simp [hs, hf.state]) (by simp [hf.state])
        (by simp [hf.state]))
    · -- a child without a context: nobody can be on its stack, and nothing is claimed of it
      obtain ⟨rfl, _, hi⟩ := h.of_fresh hm
      have hun : (s'.proc q).state = .UNUSED := by rw [hr', hf.state]
      refine .held hr' (.inr ⟨by simp [hun], hidle hi, ?_⟩)
      refine ⟨fun c' hc' => ?_, fun hu => absurd hun hu, fun hu => absurd hun hu⟩
      rw [hexec] at hc'
      exact hi c' (h.exec hc')

theorem KInv.write (h : KInv s Γ) {Γ₁ : Ctx} {f : Proc → Proc} {k : Code}
    (hw : Assign (s.exec c) (Γ (s.thread c)) q f Γ₁) (hk : Safe (s.exec c) Γ₁ k) :
    KInv { s.goOn c k with proc := Function.update s.proc q (f (s.proc q)) }
      (Function.update Γ (s.thread c) Γ₁) := by
  obtain ⟨hlk, hseen⟩ := hw.keeps
  have hview : (∀ c', s.exec c' ≠ some q) →
      Function.update Γ (s.thread c) Γ₁ (.proc q) = Γ (.proc q) ∧
      (s.goOn c k).code (.proc q) = s.code (.proc q) := fun hoff =>
    ⟨Function.update_of_ne (proc_ne_thread (hoff c)) _ _,
      Function.update_of_ne (proc_ne_thread (hoff c)) _ _⟩
  have hok : HeldOk { s.goOn c k with proc := Function.update s.proc q (f (s.proc q)) }
      (Function.update Γ (s.thread c) Γ₁) c q Γ₁.mode :=
    h.assign_heldOk hw rfl rfl rfl hview (Function.update_self _ _ _)
  -- the owner of another slot, or of `q` if it stays USED
  have hused : ∀ {q'}, (s.proc q').state = .USED → (q' = q → (f (s.proc q)).state = .USED) →
      (Function.update s.proc q (f (s.proc q)) q').state = .USED := by
    intro q' hq' hkeep
    by_cases he : q' = q
    · rw [he, Function.update_self]
      exact hkeep he
    · rw [Function.update_of_ne he]
      exact hq'
  -- a slot that is USED has one owner, which is the writer if it stops being USED
  have hkeep : (s.proc q).state = .USED → (f (s.proc q)).state = .USED ∨
      (Γ (s.thread c)).own = some q ∧ Γ₁.own = none := by
    intro hu
    cases hw with
    | same hm hs =>
      obtain rfl := h.record hm rfl rfl
      exact .inl (hs.trans hu)
    | wake hm hs => rw [h.record hm rfl rfl, hs] at hu; cases hu
    | leave _ hm hs => rw [h.record hm rfl rfl, hs] at hu; cases hu
    | pick _ hm hs => rw [h.record hm rfl rfl, hs] at hu; cases hu
    | claim _ hm hs => rw [h.record hm rfl rfl, hs] at hu; cases hu
    | fresh hm hs =>
      obtain rfl := h.record hm rfl rfl
      exact .inl (hs.trans hu)
    | start ho => exact .inr ⟨ho, rfl⟩
    | reap _ _ hm hs => rw [h.record hm rfl rfl, hs] at hu; cases hu
    | drop ho => exact .inr ⟨ho, rfl⟩
  refine h.touch hw.slot hlk hseen rfl rfl rfl (fun _ _ => rfl) ?_ rfl hk (fun h₁ h₂ => h.inj h₁ h₂)
    h.exec ?_ ?_ hok
  · exact fun q' hq' => ⟨Function.update_of_ne hq' _ _, rfl, Iff.rfl⟩
  · intro q' hq'
    have hcase : (Γ (s.thread c)).own = some q' ∨ q' = q ∧ (s.proc q).state = .UNUSED ∧
        (f (s.proc q)).state = .USED := by
      cases hw with
      | claim _ hm hs hf =>
        obtain rfl := h.record hm rfl rfl
        exact .inr ⟨(Option.some.inj hq').symm, hs, by rw [hf]⟩
      | start => cases hq'
      | drop => cases hq'
      | _ => exact .inl hq'
    rcases hcase with hold | ⟨rfl, hu, hf⟩
    · refine ⟨hused (h.own hold) fun he => ?_, fun t ht hq'' => ht (h.own_inj hq'' hold)⟩
      rcases hkeep (he ▸ h.own hold) with hu | ⟨_, hn⟩
      · exact hu
      · rw [hn] at hq'
        cases hq'
    · refine ⟨?_, fun t ht ho => ?_⟩
      · show (Function.update s.proc q' (f (s.proc q')) q').state = .USED
        rw [Function.update_self]
        exact hf
      · rw [h.own ho] at hu
        cases hu
  · intro t q' ht hq'
    refine hused (h.own hq') fun he => ?_
    rcases hkeep (he ▸ h.own hq') with hu | ⟨ho, _⟩
    · exact hu
    · exact absurd (h.own_inj (he ▸ hq') ho) ht

/-! ## Locks -/

theorem KInv.acquireProc (h : KInv s Γ) {Γ₀ : Ctx} {k : Code} (h₀ : Γ (s.thread c) = Γ₀)
    (hm : Γ₀.mode = .free) (hl : s.lock (.proc q) = none)
    (hk : Safe (s.exec c) { Γ₀ with mode := .held q (s.proc q) } k) :
    KInv { s.goOn c k with
        lock := Function.update s.lock (.proc q) (some c)
        noff := Function.update s.noff c (s.noff c + 1) }
      (Function.update Γ (s.thread c) { Γ₀ with mode := .held q (s.proc q) }) := by
  subst h₀
  refine h.local ?_ rfl hk ?_ (fun h₁ h₂ => h.inj h₁ h₂) h.exec ?_ (fun _ => h.own) ?_
  · refine ⟨rfl, fun c' hc' => Function.update_of_ne hc' _ _, fun c' hc' l => ?_, fun _ _ => rfl,
      fun _ _ _ => ⟨rfl, rfl, Iff.rfl⟩⟩
    by_cases hlq : l = .proc q
    · simp [hlq, hl, hc'.symm]
    · simp [Function.update_of_ne hlq]
  · refine ⟨fun {q'} hq' => ?_, fun {l} => ?_, ?_, (h.calm _).of_held rfl rfl rfl⟩
    · obtain rfl := Option.some.inj hq'
      exact Function.update_self _ _ _
    · refine ⟨fun hlk => ⟨h.other hlk, ?_⟩, fun hlk => h.lock hlk.1 ?_⟩
      · exact (Function.update_of_ne (h.other hlk q) _ _).trans (h.lock_of_lk hlk)
      · exact (Function.update_of_ne (hlk.1 q) _ _).symm.trans hlk.2
    · simp [h.noff c, Ctx.count, hm, Mode.slot, Nat.add_comm]
  · exact fun hq' => ⟨h.own hq', fun t ht ho => ht (h.own_inj ho hq')⟩
  · intro q' hq'
    rcases hq' with hq' | hq'
    · exact absurd hq' (h.lock_ne_of_free hm)
    obtain rfl : q' = q := by
      by_contra hne
      have hne' : Lock.proc q' ≠ .proc q := fun he => hne (Lock.proc.inj he)
      exact h.lock_ne_of_free hm ((Function.update_of_ne hne' _ _).symm.trans hq')
    refine ⟨fun hf => ?_, fun {c'} hc' => ?_⟩
    · cases hq'.symm.trans hf
    · obtain rfl := Option.some.inj (hq'.symm.trans hc')
      have hmode : (Function.update Γ (s.thread c)
          { Γ (s.thread c) with mode := .held q' (s.proc q') } (s.thread c)).mode
          = .held q' (s.proc q') := by rw [Function.update_self]
      refine Eq.mpr (congrArg (HeldOk _ _ c q') hmode) (.held rfl ?_)
      refine SameSlot.stable (s := s) (Γ := Γ) ?_ ((h.slot q').free hl)
      exact .goOn rfl rfl rfl rfl rfl

theorem KInv.acquireLk (h : KInv s Γ) {Γ₀ : Ctx} {l : Lock} {k : Code}
    (h₀ : Γ (s.thread c) = Γ₀) (hlo : l.Other) (hm : Γ₀.mode = .free) (hn : Γ₀.lk = none)
    (ht : Γ₀.tst = none) (hl : s.lock l = none)
    (hk : Safe (s.exec c) { Γ₀ with lk := some l, seen := fun _ _ => False, par := none } k) :
    KInv { s.goOn c k with
        lock := Function.update s.lock l (some c)
        noff := Function.update s.noff c (s.noff c + 1) }
      (Function.update Γ (s.thread c)
        { Γ₀ with lk := some l, seen := fun _ _ => False, par := none }) := by
  subst h₀
  refine h.local ?_ rfl hk ?_ (fun h₁ h₂ => h.inj h₁ h₂) h.exec ?_ (fun _ => h.own) ?_
  · refine ⟨rfl, fun c' hc' => Function.update_of_ne hc' _ _, fun c' hc' l' => ?_, fun _ _ => rfl,
      fun _ _ _ => ⟨rfl, rfl, Iff.rfl⟩⟩
    by_cases hll : l' = l
    · simp [hll, hl, hc'.symm]
    · simp [Function.update_of_ne hll]
  · refine ⟨fun {q'} hq' => ?_, fun {l'} => ?_, ?_, ?_⟩
    · rw [hm] at hq'
      cases hq'
    · refine ⟨fun hlk => ?_, fun hlk => ?_⟩
      · obtain rfl := Option.some.inj hlk
        exact ⟨hlo, Function.update_self _ _ _⟩
      · by_contra hne
        have hne' : l' ≠ l := fun he => hne (by rw [he])
        have hold := (Function.update_of_ne hne' _ _).symm.trans hlk.2
        rw [h.lock hlk.1 hold] at hn
        cases hn
    · simp [h.noff c, Ctx.count, hm, hn, Mode.slot]
    · exact ⟨fun _ _ _ hs => hs.elim, (h.calm _).hit, fun _ hn => absurd hn (Option.some_ne_none _)⟩
  · exact fun hq' => ⟨h.own hq', fun t ht ho => ht (h.own_inj ho hq')⟩
  · exact fun q' _ => h.slot_goOn rfl rfl rfl rfl rfl (Function.update_of_ne (hlo q').symm _ _) rfl

theorem KInv.releaseLk (h : KInv s Γ) {Γ₀ : Ctx} {l : Lock} {k : Code}
    (h₀ : Γ (s.thread c) = Γ₀) (hlo : l.Other) (hl : Γ₀.lk = some l)
    (ht : Γ₀.tst = none ∨ ∃ q r, s.exec c = some q ∧ Γ₀.mode = .held q r)
    (hk : Safe (s.exec c) { Γ₀ with lk := none, seen := fun _ _ => False, par := none } k) :
    KInv { s.goOn c k with
        lock := Function.update s.lock l none
        noff := Function.update s.noff c (s.noff c - 1) }
      (Function.update Γ (s.thread c)
        { Γ₀ with lk := none, seen := fun _ _ => False, par := none }) := by
  subst h₀
  have hlock := h.lock_of_lk hl
  refine h.local ?_ rfl hk ?_ (fun h₁ h₂ => h.inj h₁ h₂) h.exec ?_ (fun _ => h.own) ?_
  · refine ⟨rfl, fun c' hc' => Function.update_of_ne hc' _ _, fun c' hc' l' => ?_, fun _ _ => rfl,
      fun _ _ _ => ⟨rfl, rfl, Iff.rfl⟩⟩
    by_cases hll : l' = l
    · simp [hll, hlock, hc'.symm]
    · simp [Function.update_of_ne hll]
  · refine ⟨fun {q'} hq' => ?_, fun {l'} => ?_, ?_, ?_⟩
    · exact (Function.update_of_ne (hlo q').symm _ _).trans (h.mode hq')
    · refine ⟨nofun, fun hlk => ?_⟩
      by_cases hll : l' = l
      · have hnone := hlk.2
        simp [hll] at hnone
      · have hold := (Function.update_of_ne hll _ _).symm.trans hlk.2
        exact absurd (Option.some.inj ((h.lock hlk.1 hold).symm.trans hl)) hll
    · simp [h.noff c, Ctx.count, hl]
    · refine ⟨fun _ _ _ => id, (h.calm _).hit, fun hm _ => ⟨rfl, ?_⟩⟩
      rcases ht with ht | ⟨q, r, _, hheld⟩
      · exact ht
      · cases hm.symm.trans hheld
  · exact fun hq' => ⟨h.own hq', fun t ht ho => ht (h.own_inj ho hq')⟩
  · exact fun q' _ => h.slot_goOn rfl rfl rfl rfl rfl (Function.update_of_ne (hlo q').symm _ _) rfl

theorem KInv.releaseProc (h : KInv s Γ) {Γ₀ : Ctx} {k : Code} (h₀ : Γ (s.thread c) = Γ₀)
    (hm : Γ₀.mode = .held q (s.proc q)) (ht : Γ₀.tst = none)
    (hk : Safe (s.exec c)
      { Γ₀ with mode := .free, seen := Γ₀.saw q (s.proc q), par := none, hit := False } k) :
    KInv { s.goOn c k with
        lock := Function.update s.lock (.proc q) none
        noff := Function.update s.noff c (s.noff c - 1) }
      (Function.update Γ (s.thread c)
        { Γ₀ with mode := .free, seen := Γ₀.saw q (s.proc q), par := none, hit := False }) := by
  subst h₀
  obtain ⟨hlock, _⟩ := h.heldOk hm rfl
  obtain ⟨_, hst⟩ := h.of_held hm
  refine h.local ?_ rfl hk ?_ (fun h₁ h₂ => h.inj h₁ h₂) h.exec ?_ (fun _ => h.own) ?_
  · refine ⟨rfl, fun c' hc' => Function.update_of_ne hc' _ _, fun c' hc' l => ?_, fun _ _ => rfl,
      fun _ _ _ => ⟨rfl, rfl, Iff.rfl⟩⟩
    by_cases hlq : l = .proc q
    · simp [hlq, hlock, hc'.symm]
    · simp [Function.update_of_ne hlq]
  · refine ⟨nofun, fun {l} => ?_, ?_, ?_⟩
    · refine ⟨fun hlk => ⟨h.other hlk, ?_⟩, fun hlk => h.lock hlk.1 ?_⟩
      · exact (Function.update_of_ne (h.other hlk q) _ _).trans (h.lock_of_lk hlk)
      · exact (Function.update_of_ne (hlk.1 q) _ _).symm.trans hlk.2
    · simp [h.noff c, Ctx.count, hm, Mode.slot]
    · exact ⟨fun hl _ _ hs => hs.1 hl, fun _ => id, fun _ _ => ⟨rfl, ht⟩⟩
  · exact fun hq' => ⟨h.own hq', fun t ht ho => ht (h.own_inj ho hq')⟩
  · intro q' hq'
    have hold : s.lock (.proc q') = some c := by
      rcases hq' with hq' | hq'
      · exact hq'
      by_cases hne : q' = q
      · rw [hne, hlock]
      · have hne' : Lock.proc q' ≠ .proc q := fun he => hne (Lock.proc.inj he)
        exact (Function.update_of_ne hne' _ _).symm.trans hq'
    obtain rfl : q' = q := by
      have hslot := h.slot_of_lock hold
      rw [hm] at hslot
      exact (Option.some.inj hslot).symm
    refine ⟨fun _ => SameSlot.stable (s := s) (Γ := Γ) ?_ hst, fun {c'} hc' => ?_⟩
    · exact .goOn rfl rfl rfl rfl rfl
    · cases (Function.update_self _ _ _).symm.trans hc'

end Xv6.Proc
