import Xv6.Proc.Safe

/-!
# The machine together with its threads' views

`Views` gives every thread its view. `KInv` ties the views to the machine: what
a thread believes to hold it holds, and its code keeps the discipline from
there. Per slot there are two cases. A slot whose lock is free is `Stable`:
RUNNING on some CPU's stack, or else on nobody's, with a context to resume it
by. A slot whose lock is held is at the station its holder's mode names
(`HeldOk`).

A step of the machine is then a step of one view, and `GStep` lists what such
steps do, one constructor for each. `typed_step` is the only place where the
step function is taken apart: it says that from a state with views every step is
one of these. The invariants of the later files are proved over `GStep`.
-/

namespace Xv6.Proc

open Lib

variable {C : Type*} [DecidableEq C]

abbrev Views (C : Type*) := Thread C → Ctx

/-- What holding nothing means for the rest of a view. -/
structure Ctx.Calm (Γ : Ctx) : Prop where
  seen : Γ.lk = none → ∀ q ch, ¬Γ.seen q ch
  hit : Γ.mode = .free → ¬Γ.hit
  free : Γ.mode = .free → Γ.lk = none → Γ.par = none ∧ Γ.tst = none

theorem Ctx.Calm.eq_at {Γ : Ctx} (h : Γ.Calm) (hm : Γ.mode = .free) (hl : Γ.lk = none) :
    Γ = .at Γ.own := by
  obtain ⟨hp, ht⟩ := h.free hm hl
  have hseen : Γ.seen = fun _ _ => False := funext fun q => funext fun ch =>
    eq_false (h.seen hl q ch)
  have hhit : Γ.hit = False := eq_false (h.hit hm)
  cases Γ
  simp_all [Ctx.at, Ctx.user]

/-! ## The stations of a slot -/

/-- No CPU has `q` as its `c->proc`. -/
def Idle (s : Kernel C) (q : Slot) : Prop := ∀ c, s.cproc c ≠ some q

/-- No CPU is on `q`'s stack, and what `q` left behind is complete. -/
structure Parked (s : Kernel C) (Γ : Views C) (q : Slot) : Prop where
  off : ∀ c, s.exec c ≠ some q
  saved : (s.proc q).state ≠ .UNUSED → s.saved q = true
  resume : (s.proc q).state ≠ .UNUSED → (s.proc q).state ≠ .ZOMBIE → ∀ r, r.state = .RUNNING →
    Safe (some q) { Γ (.proc q) with mode := .held q r, tst := none } (s.code (.proc q))

/-- A slot nobody is in the middle of changing. -/
def Stable (s : Kernel C) (Γ : Views C) (q : Slot) : Prop :=
  (s.proc q).state = .RUNNING ∧ (∃ c, s.exec c = some q) ∨
  (s.proc q).state ≠ .RUNNING ∧ Idle s q ∧ Parked s Γ q

/-- Slot `q` while CPU `c` holds its lock, by the mode of the thread on `c`. -/
inductive HeldOk (s : Kernel C) (Γ : Views C) (c : C) (q : Slot) : Mode → Prop
  | held {r} (hr : s.proc q = r) (h : Stable s Γ q) : HeldOk s Γ c q (.held q r)
  | fresh {r} (hr : s.proc q = r) (hs : r.state = .USED) (hi : Idle s q) :
      HeldOk s Γ c q (.fresh q r)
  | leaving {r} (hr : s.proc q = r) (hs : r.state ≠ .RUNNING) (hx : s.exec c = some q) :
      HeldOk s Γ c q (.leaving q r)
  | left {r} (hr : s.proc q = r) (hs : r.state ≠ .RUNNING) (hx : s.exec c = some q)
      (hsv : s.saved q = true) : HeldOk s Γ c q (.left q r)
  | picked {r} (hr : s.proc q = r) (hs : r.state = .RUNNING) (hi : Idle s q)
      (hp : Parked s Γ q) : HeldOk s Γ c q (.picked q r)
  | placed {r} (hr : s.proc q = r) (hs : r.state = .RUNNING) (hc : s.cproc c = some q)
      (hp : Parked s Γ q) : HeldOk s Γ c q (.placed q r)
  | ready {r} (hr : s.proc q = r) (hs : r.state = .RUNNING) (hc : s.cproc c = some q)
      (hp : Parked s Γ q) : HeldOk s Γ c q (.ready q r)
  | back (hs : (s.proc q).state ≠ .RUNNING) (hc : s.cproc c = some q) (hp : Parked s Γ q) :
      HeldOk s Γ c q (.back q)

structure SlotOk (s : Kernel C) (Γ : Views C) (q : Slot) : Prop where
  free : s.lock (.proc q) = none → Stable s Γ q
  held : ∀ {c}, s.lock (.proc q) = some c → HeldOk s Γ c q (Γ (s.thread c)).mode

/-- **The machine is as its threads see it.** -/
structure KInv (s : Kernel C) (Γ : Views C) : Prop where
  inj : ∀ {c c' p}, s.cproc c = some p → s.cproc c' = some p → c = c'
  exec : ∀ {c p}, s.exec c = some p → s.cproc c = some p
  safe : ∀ c, Safe (s.exec c) (Γ (s.thread c)) (s.cur c)
  /-- While a process runs on `c`, the scheduler of `c` waits to be back from
  it. -/
  back : ∀ {c p}, s.exec c = some p → (Γ (.sched c)).mode = .back p ∧ (Γ (.sched c)).lk = none ∧
    Safe none (Γ (.sched c)) (s.code (.sched c))
  slot : ∀ q, SlotOk s Γ q
  mode : ∀ {c q}, (Γ (s.thread c)).mode.slot = some q → s.lock (.proc q) = some c
  other : ∀ {t l}, (Γ t).lk = some l → l.Other
  lk : ∀ {t l}, (Γ t).lk = some l → ∃ c, s.thread c = t ∧ s.lock l = some c
  lock : ∀ {l c}, l.Other → s.lock l = some c → (Γ (s.thread c)).lk = some l
  noff : ∀ c, s.noff c = (Γ (s.thread c)).count
  own : ∀ {t q}, (Γ t).own = some q → (s.proc q).state = .USED
  own_inj : ∀ {t t' q}, (Γ t).own = some q → (Γ t').own = some q → t = t'
  calm : ∀ t, (Γ t).Calm

/-- CPU `c`, in `kkill(pid)`, is about to test a slot that is UNUSED and has that
`pid`. -/
def Hits (s : Kernel C) (c : C) : Prop :=
  ∃ pid q qs k, Code.kkill pid (q :: qs) k = .acquire (.proc q) (s.cur c) ∧
    (s.proc q).state = .UNUSED ∧ (s.proc q).pid = pid

/-- What holds of every thread's old view holds of its new one. -/
theorem update_views {P : Thread C → Ctx → Ctx → Prop} {t₀ : Thread C} {Γ₁ : Ctx}
    (h₁ : P t₀ (Γ t₀) Γ₁) (h : ∀ t, P t (Γ t) (Γ t)) (t : Thread C) :
    P t (Γ t) (Function.update Γ t₀ Γ₁ t) := by
  by_cases ht : t = t₀
  · rw [ht, Function.update_self]
    exact h₁
  · rw [Function.update_of_ne ht]
    exact h t

/-! ## Steps with views -/

/-- The CPU a label is about. -/
def Act.cpu : Act C → C
  | .step c _ | .dispatch c _ | .call c _ | .intr c _ => c

/-- What a step of CPU `c` does to the machine and to the views. -/
inductive GStep (s : Kernel C) (Γ : Views C) (c : C) : Kernel C → Views C → Prop
  /-- Reading, choosing, starting a call or an interrupt: at most `par` and `hit`
  change. -/
  | quiet {Γ₀ k par hit pid} (h₀ : Γ (s.thread c) = Γ₀)
      (hpar : par = Γ₀.par ∨ Γ₀.lk = some .wait ∧ ∃ q, par = some (q, s.parent q))
      (hhit : hit → Γ₀.hit ∨ Γ₀.mode ≠ .free ∧ Hits s c)
      (hk : Safe (s.exec c) { Γ₀ with par := par, hit := hit } k) :
      GStep s Γ c { s.goOn c k with nextpid := pid }
        (Function.update Γ (s.thread c) { Γ₀ with par := par, hit := hit })
  | setParent {Γ₀ q o k} (h₀ : Γ (s.thread c) = Γ₀)
      (ho : Γ₀.lk = some .wait ∧ (Γ₀.own = some q ∨ o = none ∧ Γ₀.own = none ∨
          ∃ y, Γ₀.par = some (q, some y)) ∨
        o = none ∧ Γ₀.own = some q ∧ Γ₀.par = some (q, none))
      (hk : Safe (s.exec c) { Γ₀ with par := some (q, o) } k) :
      GStep s Γ c { s.goOn c k with parent := Function.update s.parent q o }
        (Function.update Γ (s.thread c) { Γ₀ with par := some (q, o) })
  | tested {Γ₀ p ch l k} (h₀ : Γ (s.thread c) = Γ₀) (hme : s.exec c = some p)
      (hm : Γ₀.mode = .free) (hl : Γ₀.lk = some l)
      (hk : Safe (s.exec c) { Γ₀ with tst := some (ch, l), seen := fun _ _ => False } k) :
      GStep s Γ c ((s.goOn c k).note (.tested p ch l))
        (Function.update Γ (s.thread c)
          { Γ₀ with tst := some (ch, l), seen := fun _ _ => False })
  | woken {Γ₀ ch l k} (h₀ : Γ (s.thread c) = Γ₀) (hl : Γ₀.lk = some l) (ht : Γ₀.tst = none)
      (hseen : ∀ q, s.exec c = some q ∨ Γ₀.seen q ch) (hk : Safe (s.exec c) Γ₀ k) :
      GStep s Γ c ((s.goOn c k).note (.woken ch l)) Γ
  | marked {Γ₀ pid q k} (h₀ : Γ (s.thread c) = Γ₀) (hm : Γ₀.mode = .held q (s.proc q))
      (hp : (s.proc q).pid = pid) (hb : (s.proc q).killed = true) (hk : Safe (s.exec c) Γ₀ k) :
      GStep s Γ c ((s.goOn c k).note (.marked pid q)) Γ
  | acquireProc {Γ₀ q k} (h₀ : Γ (s.thread c) = Γ₀) (hm : Γ₀.mode = .free)
      (hl : s.lock (.proc q) = none)
      (hk : Safe (s.exec c) { Γ₀ with mode := .held q (s.proc q) } k) :
      GStep s Γ c { s.goOn c k with
          lock := Function.update s.lock (.proc q) (some c)
          noff := Function.update s.noff c (s.noff c + 1) }
        (Function.update Γ (s.thread c) { Γ₀ with mode := .held q (s.proc q) })
  | acquireLk {Γ₀ l k} (h₀ : Γ (s.thread c) = Γ₀) (ho : l.Other) (hm : Γ₀.mode = .free)
      (hn : Γ₀.lk = none) (ht : Γ₀.tst = none) (hl : s.lock l = none)
      (hk : Safe (s.exec c) { Γ₀ with lk := some l, seen := fun _ _ => False, par := none } k) :
      GStep s Γ c { s.goOn c k with
          lock := Function.update s.lock l (some c)
          noff := Function.update s.noff c (s.noff c + 1) }
        (Function.update Γ (s.thread c)
          { Γ₀ with lk := some l, seen := fun _ _ => False, par := none })
  | releaseProc {Γ₀ q k} (h₀ : Γ (s.thread c) = Γ₀) (hm : Γ₀.mode = .held q (s.proc q))
      (ht : Γ₀.tst = none)
      (hk : Safe (s.exec c)
        { Γ₀ with mode := .free, seen := Γ₀.saw q (s.proc q), par := none, hit := False } k) :
      GStep s Γ c { s.goOn c k with
          lock := Function.update s.lock (.proc q) none
          noff := Function.update s.noff c (s.noff c - 1) }
        (Function.update Γ (s.thread c)
          { Γ₀ with mode := .free, seen := Γ₀.saw q (s.proc q), par := none, hit := False })
  | releaseLk {Γ₀ l k} (h₀ : Γ (s.thread c) = Γ₀) (ho : l.Other) (hl : Γ₀.lk = some l)
      (ht : Γ₀.tst = none ∨ ∃ q r, s.exec c = some q ∧ Γ₀.mode = .held q r)
      (hk : Safe (s.exec c) { Γ₀ with lk := none, seen := fun _ _ => False, par := none } k) :
      GStep s Γ c { s.goOn c k with
          lock := Function.update s.lock l none
          noff := Function.update s.noff c (s.noff c - 1) }
        (Function.update Γ (s.thread c)
          { Γ₀ with lk := none, seen := fun _ _ => False, par := none })
  | write {Γ₀ Γ₁ q f k} (h₀ : Γ (s.thread c) = Γ₀) (hw : Assign (s.exec c) Γ₀ q f Γ₁)
      (hk : Safe (s.exec c) Γ₁ k) :
      GStep s Γ c { s.goOn c k with proc := Function.update s.proc q (f (s.proc q)) }
        (Function.update Γ (s.thread c) Γ₁)
  | context {Γ₀ q k} (h₀ : Γ (s.thread c) = Γ₀) (hm : Γ₀.mode = .fresh q (s.proc q))
      (ho : Γ₀.own = some q) (hk : Safe (s.exec c) { Γ₀ with mode := .held q (s.proc q) } k) :
      GStep s Γ c { s.goOn c k with
          code := Function.update (s.goOn c k).code (.proc q) (Code.forkret q)
          saved := Function.update s.saved q true
          handed := s.handed ++ [(q, s.proc q)] }
        (Function.update (Function.update Γ (s.thread c) { Γ₀ with mode := .held q (s.proc q) })
          (.proc q) .user)
  | setProc {Γ₀ q k} (h₀ : Γ (s.thread c) = Γ₀) (hme : s.exec c = none)
      (hm : Γ₀.mode = .picked q (s.proc q))
      (hk : Safe (s.exec c) { Γ₀ with mode := .placed q (s.proc q) } k) :
      GStep s Γ c { s.goOn c k with cproc := Function.update s.cproc c (some q) }
        (Function.update Γ (s.thread c) { Γ₀ with mode := .placed q (s.proc q) })
  | clearProc {Γ₀ q k} (h₀ : Γ (s.thread c) = Γ₀) (hme : s.exec c = none)
      (hm : Γ₀.mode = .back q)
      (hk : Safe (s.exec c) { Γ₀ with mode := .held q (s.proc q) } k) :
      GStep s Γ c { s.goOn c k with cproc := Function.update s.cproc c none }
        (Function.update Γ (s.thread c) { Γ₀ with mode := .held q (s.proc q) })
  | saveOut {Γ₀ q k} (h₀ : Γ (s.thread c) = Γ₀) (hme : s.exec c = some q)
      (hm : Γ₀.mode = .leaving q (s.proc q))
      (hk : Safe (s.exec c) { Γ₀ with mode := .left q (s.proc q) } k) :
      GStep s Γ c { s.goOn c k with saved := Function.update s.saved q true }
        (Function.update Γ (s.thread c) { Γ₀ with mode := .left q (s.proc q) })
  | saveIn {Γ₀ q k} (h₀ : Γ (s.thread c) = Γ₀) (hme : s.exec c = none)
      (hm : Γ₀.mode = .placed q (s.proc q))
      (hk : Safe (s.exec c) { Γ₀ with mode := .ready q (s.proc q) } k) :
      GStep s Γ c (s.goOn c k)
        (Function.update Γ (s.thread c) { Γ₀ with mode := .ready q (s.proc q) })
  | loadOut {Γ₀ q k} (h₀ : Γ (s.thread c) = Γ₀) (hme : s.exec c = some q)
      (hm : Γ₀.mode = .left q (s.proc q)) (hl : Γ₀.lk = none)
      (hk : (s.proc q).state ≠ .ZOMBIE → ∀ r, r.state = .RUNNING →
        Safe (some q) { Γ₀ with mode := .held q r, tst := none } k) :
      GStep s Γ c { s.goOn c k with exec := Function.update s.exec c none } Γ
  | loadIn {Γ₀ q k} (h₀ : Γ (s.thread c) = Γ₀) (hme : s.exec c = none)
      (hm : Γ₀.mode = .ready q (s.proc q)) (hl : Γ₀.lk = none)
      (hk : Safe none { Γ₀ with mode := .back q } k) :
      GStep s Γ c { s.goOn c k with
          exec := Function.update s.exec c (some q)
          saved := Function.update s.saved q false }
        (Function.update (Function.update Γ (.sched c) { Γ₀ with mode := .back q })
          (.proc q) { Γ (.proc q) with mode := .held q (s.proc q), tst := none })

section
variable {cfg : Config} {s s' : Kernel C} {Γ : Views C} {c : C} {q : Slot}

omit [DecidableEq C] in
/-- Two CPUs are never on the same thread. -/
theorem KInv.thread_inj (h : KInv s Γ) {c' : C} (ht : s.thread c = s.thread c') : c = c' := by
  unfold Kernel.thread at ht
  split at ht
  next p hp =>
    split at ht
    next p' hp' =>
      cases ht
      exact h.inj (h.exec hp) (h.exec hp')
    next => cases ht
  next =>
    split at ht
    next => cases ht
    next => cases ht; rfl

omit [DecidableEq C] in
theorem KInv.heldOk (h : KInv s Γ) {m : Mode} (hm : (Γ (s.thread c)).mode = m)
    (hq : m.slot = some q) : s.lock (.proc q) = some c ∧ HeldOk s Γ c q m := by
  have hl : s.lock (.proc q) = some c := h.mode (by rw [hm, hq])
  exact ⟨hl, hm ▸ (h.slot q).held hl⟩

omit [DecidableEq C] in
/-- The record a holder knows is the record of the slot. -/
theorem KInv.record (h : KInv s Γ) {m : Mode} {r : Proc} (hm : (Γ (s.thread c)).mode = m)
    (hq : m.slot = some q) (hr : m.record = some r) : s.proc q = r := by
  obtain ⟨_, hok⟩ := h.heldOk hm hq
  cases hok <;> cases hr <;> assumption

omit [DecidableEq C] in
theorem KInv.lock_ne_of_free (h : KInv s Γ) (hm : (Γ (s.thread c)).mode = .free) :
    s.lock (.proc q) ≠ some c := by
  intro hl
  have hok := (h.slot q).held hl
  rw [hm] at hok
  cases hok

omit [DecidableEq C] in
theorem KInv.lock_of_lk (h : KInv s Γ) {l : Lock} (hl : (Γ (s.thread c)).lk = some l) :
    s.lock l = some c := by
  obtain ⟨c', hc', hl'⟩ := h.lk hl
  rw [← h.thread_inj hc', hl']

omit [DecidableEq C] in
/-- What the taker of a lock finds. -/
theorem KInv.entry (h : KInv s Γ) (hl : s.lock (.proc q) = none) :
    Entry (s.exec c) (Γ (s.thread c)) q (s.proc q) := by
  refine ⟨fun hx => ?_, h.own⟩
  rcases (h.slot q).free hl with ⟨hrun, _⟩ | ⟨_, hidle, _⟩
  · exact hrun
  · exact absurd (h.exec hx) (hidle c)

/-- A step that changes nothing but where its thread is. -/
theorem GStep.goOn {k : Code} (hk : Safe (s.exec c) (Γ (s.thread c)) k) :
    ∃ Γ', GStep s Γ c (s.goOn c k) Γ' :=
  ⟨_, .quiet rfl (.inl rfl) .inl hk⟩

/-- The steps of a thread's code. -/
theorem typed_exec (h : KInv s Γ) {a : Choice} (hs : s.exec1 cfg c a = some s') :
    ∃ Γ', GStep s Γ c s' Γ' := by
  have hsafe := h.safe c
  unfold Kernel.exec1 at hs
  generalize hcur : s.cur c = code at hs hsafe
  have h₀ : Γ (s.thread c) = Γ (s.thread c) := rfl
  cases hsafe with
  | done => simp at hs
  | halt => simp at hs
  | acquireProc hm hk =>
    simp only [Kernel.acquire] at hs
    split at hs
    next hl =>
      obtain rfl := Option.some.inj hs
      exact ⟨_, .acquireProc h₀ hm hl (hk _ (h.entry hl))⟩
    next c' hl =>
      split at hs
      next hc => exact absurd (hc ▸ hl) (h.lock_ne_of_free hm)
      next => cases hs
  | acquireLk ho hm hl ht hk =>
    simp only [Kernel.acquire] at hs
    split at hs
    next hfree =>
      obtain rfl := Option.some.inj hs
      exact ⟨_, .acquireLk h₀ ho hm hl ht hfree hk⟩
    next c' hheld =>
      split at hs
      next hc => exact absurd (h.lock ho (hc ▸ hheld)) (by simp [hl])
      next => cases hs
  | @releaseProc _ q r _ hm ht hk =>
    obtain rfl : s.proc q = r := h.record hm rfl rfl
    obtain ⟨hl, _⟩ := h.heldOk hm rfl
    simp only [Kernel.release, if_pos hl] at hs
    obtain rfl := Option.some.inj hs
    exact ⟨_, .releaseProc h₀ hm ht hk⟩
  | releaseLk ho hl ht hk =>
    simp only [Kernel.release, if_pos (h.lock_of_lk hl)] at hs
    obtain rfl := Option.some.inj hs
    exact ⟨_, .releaseLk h₀ ho hl ht hk⟩
  | @read _ q r _ hm hk =>
    obtain rfl : s.proc q = r := h.record hm rfl rfl
    obtain rfl := Option.some.inj hs
    exact GStep.goOn hk
  | @readKill _ q r _ pid qs k' hm hf hk =>
    obtain rfl : s.proc q = r := h.record hm rfl rfl
    obtain rfl := Option.some.inj hs
    refine ⟨_, .quiet h₀ (.inl rfl) (fun hh => .inr ⟨by simp [hm], ?_⟩) hk⟩
    exact ⟨pid, q, qs, k', by rw [hf, hcur], hh.1, hh.2⟩
  | write hw hk =>
    obtain rfl := Option.some.inj hs
    exact ⟨_, .write h₀ hw hk⟩
  | readParent hl hk =>
    obtain rfl := Option.some.inj hs
    exact ⟨_, .quiet h₀ (.inr ⟨hl, _, rfl⟩) .inl (hk _)⟩
  | linkParent hl ho hk =>
    obtain rfl := Option.some.inj hs
    refine ⟨_, .setParent h₀ (.inl ⟨hl, ?_⟩) hk⟩
    exact ho.imp_right .inr
  | clearParent ho hk =>
    obtain rfl := Option.some.inj hs
    refine ⟨_, .setParent h₀ ?_ hk⟩
    exact ho.imp (fun h => ⟨h.1, .inr (.inl ⟨rfl, h.2⟩)⟩) fun h => ⟨rfl, h⟩
  | allocpid hk =>
    obtain rfl := Option.some.inj hs
    exact ⟨_, .quiet h₀ (.inl rfl) .inl (hk _)⟩
  | @context _ q r _ hm ho hk =>
    obtain rfl : s.proc q = r := h.record hm rfl rfl
    obtain rfl := Option.some.inj hs
    exact ⟨_, .context h₀ hm ho hk⟩
  | @setProc _ q r _ hme hm hk =>
    obtain rfl : s.proc q = r := h.record hm rfl rfl
    obtain rfl := Option.some.inj hs
    exact ⟨_, .setProc h₀ hme hm hk⟩
  | @clearProc _ q _ hme hm hk =>
    obtain ⟨_, hok⟩ := h.heldOk hm rfl
    obtain rfl := Option.some.inj hs
    cases hok with
    | back hst => exact ⟨_, .clearProc h₀ hme hm (hk _ hst)⟩
  | @checkSched _ q r _ hm hl hk =>
    -- none of the panics of `sched` is reached
    obtain ⟨hlock, hok⟩ := h.heldOk hm rfl
    have hnoff : s.noff c = 1 := by rw [h.noff c, Ctx.count, hm, hl]; rfl
    have hst : (s.proc q).state ≠ .RUNNING := by
      cases hok with
      | leaving hr hst => exact hr ▸ hst
    simp only [if_pos (And.intro hlock (And.intro hnoff hst))] at hs
    obtain rfl := Option.some.inj hs
    exact GStep.goOn hk
  | @saveOut _ q r _ hme hm hk =>
    obtain rfl : s.proc q = r := h.record hm rfl rfl
    simp only [hme] at hs
    obtain rfl := Option.some.inj hs
    exact ⟨_, .saveOut h₀ hme hm hk⟩
  | @saveIn _ q r _ hme hm hk =>
    obtain rfl : s.proc q = r := h.record hm rfl rfl
    simp only [hme] at hs
    obtain rfl := Option.some.inj hs
    exact ⟨_, .saveIn h₀ hme hm hk⟩
  | @loadOut _ q r _ hme hm hl hk =>
    obtain rfl : s.proc q = r := h.record hm rfl rfl
    obtain rfl := Option.some.inj hs
    exact ⟨_, .loadOut h₀ hme hm hl (hme ▸ hk)⟩
  | @loadIn _ q r _ hme hm hl hk =>
    obtain rfl : s.proc q = r := h.record hm rfl rfl
    obtain rfl := Option.some.inj hs
    exact ⟨_, .loadIn h₀ hme hm hl (hme ▸ hk)⟩
  | choose hk =>
    obtain rfl := Option.some.inj hs
    exact GStep.goOn (hk a)
  | noteTested hme hm hl hk =>
    obtain rfl := Option.some.inj hs
    exact ⟨_, .tested h₀ hme hm hl hk⟩
  | noteWoken hl ht hseen hk =>
    obtain rfl := Option.some.inj hs
    exact ⟨_, .woken h₀ hl ht hseen hk⟩
  | @noteMarked _ pid q r _ hm hp hb hk =>
    obtain rfl : s.proc q = r := h.record hm rfl rfl
    obtain rfl := Option.some.inj hs
    exact ⟨_, .marked h₀ hm hp hb hk⟩
  | jumpKwait hme hm hl ho ht hh =>
    obtain rfl := Option.some.inj hs
    exact GStep.goOn (safe_loop (.jumpKwait hme hm hl ho ht hh))
  | jumpCrit hme hm hl ho ht hh =>
    obtain rfl := Option.some.inj hs
    exact GStep.goOn (safe_loop (.jumpCrit hme hm hl ho ht hh))

omit [DecidableEq C] in
theorem thread_of_exec {p : Slot} (hx : s.exec c = some p) : s.thread c = .proc p := by
  unfold Kernel.thread
  rw [hx]

omit [DecidableEq C] in
theorem thread_of_idle (hx : s.exec c = none) : s.thread c = .sched c := by
  unfold Kernel.thread
  rw [hx]

omit [DecidableEq C] in
/-- A thread that has nothing left to do holds nothing. -/
theorem KInv.user_of_done (h : KInv s Γ) (hd : s.cur c = .done) : Γ (s.thread c) = .user := by
  have hsafe := h.safe c
  rw [hd] at hsafe
  cases hsafe with
  | done hm hl ho =>
    rw [(h.calm _).eq_at hm hl, ho]
    rfl

omit [DecidableEq C] in
/-- A thread that can be interrupted holds no lock. -/
theorem KInv.at_of_noff (h : KInv s Γ) (hn : s.noff c = 0) :
    Γ (s.thread c) = .at (Γ (s.thread c)).own := by
  rw [h.noff c, Ctx.count] at hn
  refine (h.calm _).eq_at ?_ ?_
  · cases hm : (Γ (s.thread c)).mode <;> simp [hm, Mode.slot] at hn ⊢
  · by_contra hl
    simp [hl] at hn

/-- **Every step is a step with views.** -/
theorem typed_step (h : KInv s Γ) {a : Act C} (hs : step cfg s a = some s') :
    ∃ Γ', GStep s Γ a.cpu s' Γ' := by
  unfold step at hs
  split at hs
  next c a => exact typed_exec h hs
  next c best =>
    -- `dispatch`: the scheduler has a candidate
    split at hs
    next hx hd =>
      obtain rfl := Option.some.inj hs
      have huser := h.user_of_done (c := c) (by rw [Kernel.cur, thread_of_idle hx, hd])
      refine GStep.goOn ?_
      rw [Act.cpu, huser, hx]
      exact safe_scheduler best
    next => cases hs
  next c f =>
    split at hs
    next p hx =>
      split at hs
      next hd =>
        obtain rfl := Option.some.inj hs
        have huser := h.user_of_done (c := c) (by rw [Kernel.cur, thread_of_exec hx, hd])
        refine GStep.goOn ?_
        rw [Act.cpu, huser, hx]
        exact safe_call cfg f
      next => cases hs
    next => cases hs
  next c i =>
    split at hs
    next hn =>
      have hat := h.at_of_noff hn
      have hsafe := h.safe c
      unfold Kernel.cur at hsafe
      split at hs
      next p hx =>
        -- the timer: the process yields
        obtain rfl := Option.some.inj hs
        refine GStep.goOn ?_
        rw [Act.cpu, hat, hx]
        rw [hat, hx, congrArg s.code (thread_of_exec hx)] at hsafe
        exact safe_yield hsafe
      next p ch n hx =>
        obtain rfl := Option.some.inj hs
        refine GStep.goOn ?_
        rw [Act.cpu, hat, hx]
        rw [hat, hx, congrArg s.code (thread_of_exec hx)] at hsafe
        exact safe_handler hsafe
      next ch n hx =>
        split at hs
        next hd =>
          obtain rfl := Option.some.inj hs
          have huser := h.user_of_done (c := c) (by rw [Kernel.cur, thread_of_idle hx, hd])
          refine GStep.goOn ?_
          rw [Act.cpu, huser, hx]
          exact @safe_handler _ _ _ none _ _ (.done rfl rfl rfl)
        next => cases hs
      next => cases hs
    next => cases hs

end

end Xv6.Proc
