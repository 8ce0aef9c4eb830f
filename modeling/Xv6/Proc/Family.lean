import Xv6.Proc.Kin
import Xv6.Proc.LostWakeup

/-!
# The family stays in order

`Kin` gives every thread its knowledge of the family; here that knowledge is tied
to the machine and shown to survive every step of every CPU. There are four
things to keep.

* `CodeOk`: every thread that may still run treats the family properly from where
  it is (`Keeps`).
* `HoldOk`: who believes to have `wait_lock` or a `p->lock` has it.
* `OwnOk`: a child that is being set up is USED, belongs to one thread, and has
  no parent until `kfork` gives it one.
* `FamOk`: a parent is alive; everybody alive but `initproc`, and every zombie
  nobody is clearing away, has a parent; the parent of a zombie has been woken
  since it last looked (`Told`), or is `initproc` and about to be.

> `FamInv`: all of these, with what the holder of `wait_lock` has found out being
> true.

A thread without `wait_lock` cannot touch parents or make or clear zombies, so
what the holder knows stays true; that is the whole argument, and the lemmas
below say it once for each kind of step.
-/

namespace Xv6.Proc

open Lib

variable {C : Type*} [DecidableEq C]

abbrev Kins (C : Type*) := Thread C → Kin

/-- A `wakeup(o)` under `wait_lock` is complete since `o`, in `kwait`, last found
no zombie. -/
def Told (s : Kernel C) (o : Slot) : Prop := s.test o = some (.proc o, .wait) → s.missed o = true

def zombies (s : Kernel C) : Slot → Prop := fun q => (s.proc q).state = .ZOMBIE

/-- The holder of `wait_lock` has still to wake `initproc`. -/
def Owes (Δ : Kins C) : Prop := ∃ t, (Δ t).wait = true ∧ (Δ t).owes = true

/-- The holder of `wait_lock` has returned `q`'s exit status and is clearing the
slot. -/
def Freeing (Δ : Kins C) (q : Slot) : Prop := ∃ t, (Δ t).wait = true ∧ (Δ t).freeing = some q

/-- No CPU is on `p`'s stack, but one may be some day. -/
structure Resumable (s : Kernel C) (Δ : Kins C) (p : Slot) : Prop where
  off : ∀ c, s.exec c ≠ some p
  unused : (s.proc p).state ≠ .UNUSED
  zombie : (s.proc p).state ≠ .ZOMBIE
  fresh : ∀ t, (Δ t).own ≠ some (p, .fresh)

structure CodeOk (cfg : Config) (s : Kernel C) (Δ : Kins C) : Prop where
  cpu : ∀ c, Keeps cfg.initproc (s.exec c) (s.cur c) (Δ (s.thread c))
  back : ∀ {c p}, s.exec c = some p →
    Keeps cfg.initproc none (s.code (.sched c)) (Δ (.sched c)) ∧ (Δ (.sched c)).has = none
  park : ∀ {p}, Resumable s Δ p → Keeps cfg.initproc (some p) (s.code (.proc p)) (Δ (.proc p)) ∧
    ((Δ (.proc p)).has = none ∨ (Δ (.proc p)).has = some (p, .RUNNING))

structure HoldOk (s : Kernel C) (Δ : Kins C) : Prop where
  wait : ∀ {t}, (Δ t).wait = true → ∃ c, s.thread c = t ∧ s.lock .wait = some c
  has : ∀ {c q st}, (Δ (s.thread c)).has = some (q, st) →
    s.lock (.proc q) = some c ∧ (s.proc q).state = st

structure OwnOk (s : Kernel C) (Δ : Kins C) : Prop where
  used : ∀ {t q g}, (Δ t).own = some (q, g) → (s.proc q).state = .USED
  bare : ∀ {t q g}, (Δ t).own = some (q, g) → g ≠ .linked → s.parent q = none
  linked : ∀ {t q}, (Δ t).own = some (q, .linked) → ∃ p, t = .proc p ∧ s.parent q = some p
  inj : ∀ {t t' q g g'}, (Δ t).own = some (q, g) → (Δ t').own = some (q, g') → t = t'
  alive : ∀ {p}, (Δ (.proc p)).own ≠ none → Alive (s.proc p).state

structure FamOk (initproc : Slot) (s : Kernel C) (Δ : Kins C) : Prop where
  par : ∀ {x o}, s.parent x = some o → Alive (s.proc o).state
  free : ∀ {q}, (s.proc q).state = .UNUSED → s.parent q = none
  kid : ∀ {q}, q ≠ initproc → Alive (s.proc q).state → s.parent q ≠ none
  zomb : ∀ {q}, zombies s q → ¬Freeing Δ q → s.parent q ≠ none
  init : Alive (s.proc initproc).state
  heard : ∀ {x o}, zombies s x → s.parent x = some o → Told s o ∨ o = initproc ∧ Owes Δ

structure FamInv (cfg : Config) (s : Kernel C) (Δ : Kins C) : Prop where
  code : CodeOk cfg s Δ
  hold : HoldOk s Δ
  own : OwnOk s Δ
  know : ∀ {t}, (Δ t).wait = true → (Δ t).know s.parent (zombies s) ∧ ∀ {o}, (Δ t).told o → Told s o
  fam : FamOk cfg.initproc s Δ

section
variable {cfg : Config} {s s' : Kernel C} {Γ : Views C} {Δ : Kins C} {Δ₁ : Kin} {c : C} {q : Slot}
  {k : Code}

omit [DecidableEq C] in
/-- Only one thread has `wait_lock`. -/
theorem HoldOk.only (h : HoldOk s Δ) {t t' : Thread C} (hw : (Δ t).wait = true)
    (hw' : (Δ t').wait = true) : t = t' := by
  obtain ⟨c, hc, hl⟩ := h.wait hw
  obtain ⟨c', hc', hl'⟩ := h.wait hw'
  rw [hl, Option.some.injEq] at hl'
  rw [← hc, ← hc', hl']

omit [DecidableEq C] in
theorem HoldOk.lock_wait (h : HoldOk s Δ) (hi : KInv s Γ) (hw : (Δ (s.thread c)).wait = true) :
    s.lock .wait = some c := by
  obtain ⟨c', hc', hl⟩ := h.wait hw
  rw [← hi.thread_inj hc', hl]

/-- The knowledge of a thread changes. -/
theorem updated {t₀ t : Thread C} {P : Thread C → Kin → Prop} (h₁ : P t₀ Δ₁)
    (h : t ≠ t₀ → P t (Δ t)) : P t (Function.update Δ t₀ Δ₁ t) := by
  by_cases ht : t = t₀
  · rw [ht, Function.update_self]
    exact h₁
  · rw [Function.update_of_ne ht]
    exact h ht

theorem owes_update {t₀ : Thread C} (h : Owes Δ)
    (h₁ : (Δ t₀).wait = true → (Δ t₀).owes = true → Δ₁.wait = true ∧ Δ₁.owes = true) :
    Owes (Function.update Δ t₀ Δ₁) := by
  obtain ⟨t, hw, ho⟩ := h
  by_cases ht : t = t₀
  · subst ht
    exact ⟨t, by rw [Function.update_self]; exact h₁ hw ho⟩
  · exact ⟨t, by rw [Function.update_of_ne ht]; exact ⟨hw, ho⟩⟩

/-- Nothing but the steps of the holder of `wait_lock` decides who is being
cleared away. -/
theorem freeing_update {t₀ : Thread C}
    (h₁ : (Δ₁.wait = true ∧ Δ₁.freeing = some q) ↔ ((Δ t₀).wait = true ∧ (Δ t₀).freeing = some q)) :
    Freeing (Function.update Δ t₀ Δ₁) q ↔ Freeing Δ q := by
  have hpt : ∀ t, ((Function.update Δ t₀ Δ₁ t).wait = true ∧
      (Function.update Δ t₀ Δ₁ t).freeing = some q) ↔
      ((Δ t).wait = true ∧ (Δ t).freeing = some q) := by
    intro t
    by_cases ht : t = t₀
    · rw [ht, Function.update_self]
      exact h₁
    · rw [Function.update_of_ne ht]
  exact exists_congr hpt

theorem Freeing.keep {t₀ : Thread C} (h : Freeing Δ q) (hw : Δ₁.wait = (Δ t₀).wait)
    (hf : Δ₁.freeing = (Δ t₀).freeing) : Freeing (Function.update Δ t₀ Δ₁) q :=
  (freeing_update (by rw [hw, hf])).mpr h

theorem Freeing.back {t₀ : Thread C} (h : Freeing (Function.update Δ t₀ Δ₁) q)
    (hw : Δ₁.wait = (Δ t₀).wait) (hf : Δ₁.freeing = (Δ t₀).freeing) : Freeing Δ q :=
  (freeing_update (by rw [hw, hf])).mp h

omit [DecidableEq C] in
/-- A scheduler that waits for a process is on no CPU. -/
theorem sched_ne_thread {c' : C} {p : Slot} (hx : s.exec c' = some p) :
    Thread.sched c' ≠ s.thread c := by
  intro he
  cases hxc : s.exec c with
  | none =>
    rw [thread_of_idle hxc] at he
    cases he
    rw [hxc] at hx
    cases hx
  | some p' =>
    rw [thread_of_exec hxc] at he
    cases he

/-- The thread on `c` goes on with `k`, the CPUs stay where they are. -/
theorem CodeOk.goOn (h : CodeOk cfg s Δ) (hi : KInv s Γ) (hexec : s'.exec = s.exec)
    (hcode : s'.code = Function.update s.code (s.thread c) k)
    (hk : Keeps cfg.initproc (s.exec c) k Δ₁)
    (hres : ∀ p, Resumable s' (Function.update Δ (s.thread c) Δ₁) p → Resumable s Δ p) :
    CodeOk cfg s' (Function.update Δ (s.thread c) Δ₁) := by
  have hthread : ∀ c', s'.thread c' = s.thread c' := fun c' => thread_congr (congrFun hexec c')
  refine ⟨fun c' => ?_, fun {c' p} hx => ?_, fun {p} hp => ?_⟩
  · rw [Kernel.cur, hthread, hexec, hcode]
    by_cases hc : c' = c
    · rw [hc, Function.update_self, Function.update_self]
      exact hk
    · have hne : s.thread c' ≠ s.thread c := fun he => hc (hi.thread_inj he)
      rw [Function.update_of_ne hne, Function.update_of_ne hne]
      exact h.cpu c'
  · rw [hexec] at hx
    have hne : Thread.sched c' ≠ s.thread c := sched_ne_thread hx
    rw [hcode, Function.update_of_ne hne, Function.update_of_ne hne]
    exact h.back hx
  · have hne : Thread.proc p ≠ s.thread c := proc_ne_thread ((hres p hp).off c)
    rw [hcode, Function.update_of_ne hne, Function.update_of_ne hne]
    exact h.park (hres p hp)

/-- What the others hold stays with them. -/
theorem HoldOk.goOn (h : HoldOk s Δ) (hi : KInv s Γ) (hexec : s'.exec = s.exec)
    (hw : Δ₁.wait = true → s'.lock .wait = some c)
    (hh : ∀ {q st}, Δ₁.has = some (q, st) → s'.lock (.proc q) = some c ∧ (s'.proc q).state = st)
    (hwo : ∀ {c'}, c' ≠ c → s.lock .wait = some c' → s'.lock .wait = some c')
    (hho : ∀ {c' q}, c' ≠ c → s.lock (.proc q) = some c' →
      s'.lock (.proc q) = some c' ∧ (s'.proc q).state = (s.proc q).state) :
    HoldOk s' (Function.update Δ (s.thread c) Δ₁) := by
  have hthread : ∀ c', s'.thread c' = s.thread c' := fun c' => thread_congr (congrFun hexec c')
  refine ⟨fun {t} ht => ?_, fun {c' q st} hc' => ?_⟩
  · by_cases he : t = s.thread c
    · rw [he, Function.update_self] at ht
      exact ⟨c, by rw [hthread, he], hw ht⟩
    · rw [Function.update_of_ne he] at ht
      obtain ⟨c', hc', hl⟩ := h.wait ht
      exact ⟨c', by rw [hthread, hc'], hwo (fun hcc => he (by rw [← hc', hcc])) hl⟩
  · rw [hthread] at hc'
    by_cases hc : c' = c
    · rw [hc, Function.update_self] at hc'
      rw [hc]
      exact hh hc'
    · rw [Function.update_of_ne fun he => hc (hi.thread_inj he)] at hc'
      obtain ⟨hl, hst⟩ := h.has hc'
      obtain ⟨hl', hst'⟩ := hho hc hl
      exact ⟨hl', by rw [hst', hst]⟩

/-- Nothing happens to children that are being set up. -/
theorem OwnOk.goOn (h : OwnOk s Δ) {t₀ : Thread C} (hparent : s'.parent = s.parent)
    (hst : ∀ q, (s'.proc q).state = (s.proc q).state) (ho : Δ₁.own = (Δ t₀).own) :
    OwnOk s' (Function.update Δ t₀ Δ₁) := by
  have hown : ∀ t, (Function.update Δ t₀ Δ₁ t).own = (Δ t).own := by
    intro t
    by_cases ht : t = t₀
    · rw [ht, Function.update_self, ho]
    · rw [Function.update_of_ne ht]
  refine ⟨fun {t q g} hq => ?_, fun {t q g} hq => ?_, fun {t q} hq => ?_,
    fun {t t' q g g'} hq hq' => ?_,
    fun {p} hp => ?_⟩
  · rw [hst]
    exact h.used (hown t ▸ hq)
  · rw [hparent]
    exact h.bare (hown t ▸ hq)
  · rw [hparent]
    exact h.linked (hown t ▸ hq)
  · exact h.inj (hown t ▸ hq) (hown t' ▸ hq')
  · rw [hst]
    exact h.alive (hown (.proc p) ▸ hp)

/-- A step that changes neither parents nor states. `know'` and `told'` are what
the thread knows afterwards; if it does not have `wait_lock`, its step must not
undo what the holder has told others. -/
structure Control (initproc : Slot) (s s' : Kernel C) (Δ : Kins C) (Δ₁ : Kin) (c : C) (k : Code) :
    Prop where
  exec : s'.exec = s.exec
  code : s'.code = Function.update s.code (s.thread c) k
  parent : s'.parent = s.parent
  state : ∀ q, (s'.proc q).state = (s.proc q).state
  own : Δ₁.own = (Δ (s.thread c)).own
  know : Δ₁.wait = true → Δ₁.know s.parent (zombies s) ∧ ∀ {o}, Δ₁.told o → Told s' o
  told : (Δ (s.thread c)).wait = false → ∀ {o}, Told s o → Told s' o
  heard : ∀ {x o}, zombies s x → s.parent x = some o → Told s o ∨ o = initproc ∧ Owes Δ →
    Told s' o ∨ o = initproc ∧ Owes (Function.update Δ (s.thread c) Δ₁)

omit [DecidableEq C] in
/-- The same states, the same zombies. -/
theorem zombies_congr (h : ∀ q, (s'.proc q).state = (s.proc q).state) : zombies s' = zombies s := by
  funext q
  unfold zombies
  rw [h]

/-- With the same states and the same children, the same processes can be
resumed. -/
theorem Resumable.of (hexec : s'.exec = s.exec) (hst : ∀ q, (s'.proc q).state = (s.proc q).state)
    {t₀ : Thread C} (ho : Δ₁.own = (Δ t₀).own) {p : Slot}
    (h : Resumable s' (Function.update Δ t₀ Δ₁) p) : Resumable s Δ p := by
  refine ⟨fun c' hc' => h.off c' (by rw [hexec]; exact hc'), hst p ▸ h.unused, hst p ▸ h.zombie,
    fun t ht => ?_⟩
  have hf := h.fresh t
  by_cases he : t = t₀
  · rw [he, Function.update_self, ho] at hf
    exact hf (he ▸ ht)
  · rw [Function.update_of_ne he] at hf
    exact hf ht

/-- **Steps that leave parents and states alone.** -/
theorem FamInv.control (h : FamInv cfg s Δ) (hi : KInv s Γ)
    (hc : Control cfg.initproc s s' Δ Δ₁ c k) (hk : Keeps cfg.initproc (s.exec c) k Δ₁)
    (hold : HoldOk s' (Function.update Δ (s.thread c) Δ₁))
    (hfree : ∀ q, Freeing Δ q → Freeing (Function.update Δ (s.thread c) Δ₁) q) :
    FamInv cfg s' (Function.update Δ (s.thread c) Δ₁) := by
  have hz := zombies_congr hc.state
  refine ⟨h.code.goOn hi hc.exec hc.code hk fun p hp => hp.of hc.exec hc.state hc.own, hold,
    h.own.goOn hc.parent hc.state hc.own, fun {t} hw => ?_, ?_⟩
  · rw [hc.parent, hz]
    by_cases ht : t = s.thread c
    · rw [ht, Function.update_self] at hw ⊢
      exact hc.know hw
    · rw [Function.update_of_ne ht] at hw ⊢
      refine ⟨(h.know hw).1, fun ho => hc.told ?_ ((h.know hw).2 ho)⟩
      -- somebody else has `wait_lock`
      by_contra hne
      exact ht (h.hold.only hw (by simpa using hne))
  · constructor
    case par => exact fun hx => by rw [hc.state]; exact h.fam.par (hc.parent ▸ hx)
    case free => exact fun hx => by rw [hc.parent]; exact h.fam.free (hc.state _ ▸ hx)
    case kid => exact fun hq hx => by rw [hc.parent]; exact h.fam.kid hq (hc.state _ ▸ hx)
    case zomb =>
      intro q hq hf
      rw [hc.parent]
      exact h.fam.zomb (hz ▸ hq) fun hf' => hf (hfree q hf')
    case init => rw [hc.state]; exact h.fam.init
    case heard =>
      intro x o hx ho
      rw [hz] at hx
      rw [hc.parent] at ho
      exact hc.heard hx ho (h.fam.heard hx ho)

/-- Steps that change nothing but where the thread is and what it knows. -/
theorem FamInv.plain (h : FamInv cfg s Δ) (hi : KInv s Γ) (hexec : s'.exec = s.exec)
    (hcode : s'.code = Function.update s.code (s.thread c) k) (hlock : s'.lock = s.lock)
    (hparent : s'.parent = s.parent) (hst : ∀ q, (s'.proc q).state = (s.proc q).state)
    (htest : s'.test = s.test) (hmissed : s'.missed = s.missed)
    (hk : Keeps cfg.initproc (s.exec c) k Δ₁) (hw : Δ₁.wait = (Δ (s.thread c)).wait)
    (ho : Δ₁.own = (Δ (s.thread c)).own) (howes : Δ₁.owes = (Δ (s.thread c)).owes)
    (htold : Δ₁.told = (Δ (s.thread c)).told) (hhas : Δ₁.has = (Δ (s.thread c)).has)
    (hfree : ∀ q, (Δ (s.thread c)).freeing = some q → Δ₁.freeing = some q)
    (hknow : Δ₁.wait = true → Δ₁.know s.parent (zombies s)) :
    FamInv cfg s' (Function.update Δ (s.thread c) Δ₁) := by
  have htold' : ∀ {o}, Told s o → Told s' o := by
    intro o hT
    unfold Told
    rw [htest, hmissed]
    exact hT
  refine h.control hi ⟨hexec, hcode, hparent, hst, ho, fun hw₁ => ⟨hknow hw₁, fun hT => ?_⟩,
    fun _ => htold', fun hx hp hor => ?_⟩ hk ?_ fun q hf => ?_
  · exact htold' ((h.know (hw ▸ hw₁)).2 (htold ▸ hT))
  · refine hor.imp htold' fun ⟨hin, hOwes⟩ => ⟨hin, owes_update hOwes fun hw₀ ho₀ => ?_⟩
    rw [hw, howes]
    exact ⟨hw₀, ho₀⟩
  · refine h.hold.goOn hi hexec (fun hw₁ => ?_) (fun hq => ?_) (fun _ hl => ?_) fun _ hl => ?_
    · rw [hlock]
      exact h.hold.lock_wait hi (hw ▸ hw₁)
    · rw [hlock, hst]
      exact h.hold.has (hhas ▸ hq)
    · rw [hlock]
      exact hl
    · rw [hlock]
      exact ⟨hl, hst _⟩
  · obtain ⟨t, hwt, hft⟩ := hf
    refine ⟨t, ?_⟩
    by_cases ht : t = s.thread c
    · subst ht
      rw [Function.update_self]
      exact ⟨hw.trans hwt, hfree q hft⟩
    · rw [Function.update_of_ne ht]
      exact ⟨hwt, hft⟩

/-! ## Locks -/

/-- A slot lock changes hands; what is known of the family stays. -/
theorem FamInv.relock (h : FamInv cfg s Δ) (hi : KInv s Γ) {lock : Lock → Option C} {noff : C → Nat}
    (hk : Keeps cfg.initproc (s.exec c) k Δ₁) (hw : Δ₁.wait = (Δ (s.thread c)).wait)
    (ho : Δ₁.own = (Δ (s.thread c)).own) (howes : Δ₁.owes = (Δ (s.thread c)).owes)
    (htold : Δ₁.told = (Δ (s.thread c)).told) (hfree : Δ₁.freeing = (Δ (s.thread c)).freeing)
    (hknow : Δ₁.wait = true → Δ₁.know s.parent (zombies s))
    (hold : HoldOk { s.goOn c k with lock := lock, noff := noff }
      (Function.update Δ (s.thread c) Δ₁)) :
    FamInv cfg { s.goOn c k with lock := lock, noff := noff }
      (Function.update Δ (s.thread c) Δ₁) := by
  refine h.control hi ⟨rfl, rfl, rfl, fun _ => rfl, ho, fun hw₁ => ⟨hknow hw₁, fun hT => ?_⟩,
    fun _ _ hT => hT, fun hx hp hor => ?_⟩ hk hold fun q hf => ?_
  · exact (h.know (hw ▸ hw₁)).2 (htold ▸ hT)
  · refine hor.imp_right fun ⟨hin, hOwes⟩ => ⟨hin, owes_update hOwes fun hw₀ ho₀ => ?_⟩
    rw [hw, howes]
    exact ⟨hw₀, ho₀⟩
  · exact hf.keep hw hfree

theorem FamInv.acquireProc (h : FamInv cfg s Δ) (hi : KInv s Γ) (hl : s.lock (.proc q) = none)
    {noff : C → Nat}
    (hk : Keeps cfg.initproc (s.exec c) k
      { Δ (s.thread c) with has := some (q, (s.proc q).state) }) :
    FamInv cfg { s.goOn c k with lock := Function.update s.lock (.proc q) (some c), noff := noff }
      (Function.update Δ (s.thread c)
        { Δ (s.thread c) with has := some (q, (s.proc q).state) }) := by
  have hwait : Function.update s.lock (.proc q) (some c) .wait = s.lock .wait :=
    Function.update_of_ne (by simp) _ _
  refine h.relock hi hk rfl rfl rfl rfl rfl (fun hw => (h.know hw).1) ?_
  refine h.hold.goOn hi rfl (fun hw => ?_) (fun {q' st} hq' => ?_) (fun _ hl' => ?_)
    fun {c' q'} hc' hl' => ?_
  · exact hwait.trans (h.hold.lock_wait hi hw)
  · obtain ⟨rfl, rfl⟩ := Prod.mk.inj (Option.some.inj hq')
    exact ⟨Function.update_self _ _ _, rfl⟩
  · exact hwait.trans hl'
  · refine ⟨?_, rfl⟩
    have hne : Lock.proc q' ≠ .proc q := by
      intro he
      rw [he, hl] at hl'
      cases hl'
    show Function.update s.lock (.proc q) (some c) (.proc q') = some c'
    rw [Function.update_of_ne hne]
    exact hl'

omit [DecidableEq C] in
/-- What a thread that drops a `p->lock` goes on knowing is true. -/
theorem FamInv.know_drop (h : FamInv cfg s Δ) (hw : (Δ (s.thread c)).wait = true) :
    (Δ (s.thread c)).drop.know s.parent (zombies s) := by
  refine ⟨(h.know hw).1, fun _ q st hq => ?_⟩
  show (s.proc q).state = .ZOMBIE ↔ st = .ZOMBIE
  rw [(h.hold.has hq).2]

theorem FamInv.releaseProc (h : FamInv cfg s Δ) (hi : KInv s Γ) (hl : s.lock (.proc q) = some c)
    {noff : C → Nat} (hk : Keeps cfg.initproc (s.exec c) k (Δ (s.thread c)).drop) :
    FamInv cfg { s.goOn c k with lock := Function.update s.lock (.proc q) none, noff := noff }
      (Function.update Δ (s.thread c) (Δ (s.thread c)).drop) := by
  have hwait : Function.update s.lock (.proc q) none .wait = s.lock .wait :=
    Function.update_of_ne (by simp) _ _
  refine h.relock hi hk rfl rfl rfl rfl rfl (fun hw => h.know_drop hw) ?_
  refine h.hold.goOn hi rfl (fun hw => ?_) (fun {q' st} hq' => ?_) (fun _ hl' => ?_)
    fun {c' q'} hc' hl' => ?_
  · exact hwait.trans (h.hold.lock_wait hi hw)
  · cases hq'
  · exact hwait.trans hl'
  · refine ⟨?_, rfl⟩
    have hne : Lock.proc q' ≠ .proc q := by
      intro he
      rw [he, hl, Option.some.injEq] at hl'
      exact hc' hl'.symm
    show Function.update s.lock (.proc q) none (.proc q') = some c'
    rw [Function.update_of_ne hne]
    exact hl'

omit [DecidableEq C] in
/-- Nobody has `wait_lock`: nobody owes a `wakeup`, nobody is clearing a slot. -/
theorem HoldOk.nobody (h : HoldOk s Δ) (hl : s.lock .wait = none) (t : Thread C) :
    (Δ t).wait = false := by
  by_contra hw
  obtain ⟨c, -, hc⟩ := h.wait (t := t) (by simpa using hw)
  rw [hl] at hc
  cases hc

theorem FamInv.acquireWait (h : FamInv cfg s Δ) (hi : KInv s Γ) (hl : s.lock .wait = none)
    {noff : C → Nat} (hk : Keeps cfg.initproc (s.exec c) k (Δ (s.thread c)).lock) :
    FamInv cfg { s.goOn c k with lock := Function.update s.lock .wait (some c), noff := noff }
      (Function.update Δ (s.thread c) (Δ (s.thread c)).lock) := by
  have hno := h.hold.nobody hl
  have hproc : ∀ q, Function.update s.lock .wait (some c) (.proc q) = s.lock (.proc q) :=
    fun q => Function.update_of_ne (by simp) _ _
  have hself : Function.update s.lock .wait (some c) .wait = some c := Function.update_self _ _ _
  refine h.control hi ⟨rfl, rfl, rfl, fun _ => rfl, rfl, fun _ => ⟨trivial, False.elim⟩,
    fun _ _ hT => hT, fun hx hp hor => ?_⟩ hk ?_ fun q ⟨t, hwt, _⟩ => ?_
  · refine hor.imp_right fun ⟨_, t, hwt, _⟩ => ?_
    rw [hno t] at hwt
    cases hwt
  · refine h.hold.goOn hi rfl (fun _ => hself) (fun hq => ?_) (fun _ hl' => ?_)
      fun {c' q'} _ hl' => ?_
    · obtain ⟨hlq, hst⟩ := h.hold.has hq
      exact ⟨(hproc _).trans hlq, hst⟩
    · rw [hl] at hl'
      cases hl'
    · exact ⟨(hproc q').trans hl', rfl⟩
  · rw [hno t] at hwt
    cases hwt

theorem FamInv.releaseWait (h : FamInv cfg s Δ) (hi : KInv s Γ) (hl : s.lock .wait = some c)
    {noff : C → Nat} (hw : (Δ (s.thread c)).wait = true) (howes : (Δ (s.thread c)).owes = false)
    (hfree : (Δ (s.thread c)).freeing = none)
    (hk : Keeps cfg.initproc (s.exec c) k { Δ (s.thread c) with wait := false }) :
    FamInv cfg { s.goOn c k with lock := Function.update s.lock .wait none, noff := noff }
      (Function.update Δ (s.thread c) { Δ (s.thread c) with wait := false }) := by
  have hproc : ∀ q, Function.update s.lock .wait none (.proc q) = s.lock (.proc q) :=
    fun q => Function.update_of_ne (by simp) _ _
  refine h.control hi ⟨rfl, rfl, rfl, fun _ => rfl, rfl, fun hw₁ => (by cases hw₁),
    fun _ _ hT => hT, fun hx hp hor => ?_⟩ hk ?_ fun q ⟨t, hwt, hft⟩ => ?_
  · refine hor.imp_right fun ⟨_, t, hwt, hot⟩ => ?_
    rw [h.hold.only hwt hw, howes] at hot
    cases hot
  · refine h.hold.goOn hi rfl (fun hw₁ => (by cases hw₁)) (fun hq => ?_) (fun hc' hl' => ?_)
      fun {c' q'} _ hl' => ?_
    · obtain ⟨hlq, hst⟩ := h.hold.has hq
      exact ⟨(hproc _).trans hlq, hst⟩
    · rw [hl, Option.some.injEq] at hl'
      exact absurd hl'.symm hc'
    · exact ⟨(hproc q').trans hl', rfl⟩
  · rw [h.hold.only hwt hw, hfree] at hft
    cases hft

/-- The other spinlocks have nothing to do with the family. -/
theorem FamInv.relockObj (h : FamInv cfg s Δ) (hi : KInv s Γ) {n : Nat} {o : Option C}
    {noff : C → Nat} (hk : Keeps cfg.initproc (s.exec c) k (Δ (s.thread c))) :
    FamInv cfg { s.goOn c k with lock := Function.update s.lock (.obj n) o, noff := noff }
      (Function.update Δ (s.thread c) (Δ (s.thread c))) := by
  have hwait : Function.update s.lock (.obj n) o .wait = s.lock .wait :=
    Function.update_of_ne (by simp) _ _
  have hproc : ∀ q, Function.update s.lock (.obj n) o (.proc q) = s.lock (.proc q) :=
    fun q => Function.update_of_ne (by simp) _ _
  refine h.relock hi hk rfl rfl rfl rfl rfl (fun hw => (h.know hw).1) ?_
  refine h.hold.goOn hi rfl (fun hw => hwait.trans (h.hold.lock_wait hi hw)) (fun hq => ?_)
    (fun _ hl' => hwait.trans hl') fun {c' q'} _ hl' => ⟨(hproc q').trans hl', rfl⟩
  obtain ⟨hlq, hst⟩ := h.hold.has hq
  exact ⟨(hproc _).trans hlq, hst⟩

/-! ## Waking and looking -/

/-- A complete `wakeup(o)` under `wait_lock`. -/
theorem FamInv.woken (h : FamInv cfg s Δ) (hi : KInv s Γ) {o : Slot}
    (hk : Keeps cfg.initproc (s.exec c) k
      { Δ (s.thread c) with
        told := fun x => (Δ (s.thread c)).told x ∨ x = o
        owes := (Δ (s.thread c)).owes && (o != cfg.initproc) }) :
    FamInv cfg ((s.goOn c k).note (.woken (.proc o) .wait))
      (Function.update Δ (s.thread c)
        { Δ (s.thread c) with
          told := fun x => (Δ (s.thread c)).told x ∨ x = o
          owes := (Δ (s.thread c)).owes && (o != cfg.initproc) }) := by
  have hmono : ∀ {x}, Told s x → Told ((s.goOn c k).note (.woken (.proc o) .wait)) x := by
    intro x hT ht
    show (s.missed x || s.test x == some (.proc o, .wait)) = true
    rw [hT ht]
    rfl
  have hself : Told ((s.goOn c k).note (.woken (.proc o) .wait)) o := by
    intro ht
    show (s.missed o || s.test o == some (.proc o, .wait)) = true
    have ht' : s.test o = some (.proc o, .wait) := ht
    rw [ht']
    simp
  refine h.control hi ⟨rfl, rfl, rfl, fun _ => rfl, rfl, fun hw₁ => ⟨(h.know hw₁).1, fun hT => ?_⟩,
    fun _ _ => hmono, fun {x o'} hx hp hor => ?_⟩ hk ?_ fun q hf => ?_
  · rcases hT with hT | rfl
    · exact hmono ((h.know hw₁).2 hT)
    · exact hself
  · rcases hor with hT | ⟨hin, hOwes⟩
    · exact .inl (hmono hT)
    · by_cases ho : o = cfg.initproc
      · rw [hin, ← ho]
        exact .inl hself
      · refine .inr ⟨hin, owes_update hOwes fun hw₀ ho₀ => ⟨hw₀, ?_⟩⟩
        simp [ho₀, ho]
  · exact h.hold.goOn hi rfl (fun hw => h.hold.lock_wait hi hw) (fun hq => h.hold.has hq)
      (fun _ hl => hl) fun _ hl => ⟨hl, rfl⟩
  · exact hf.keep rfl rfl

/-- `kwait` has found no zombie among its children. -/
theorem FamInv.tested (h : FamInv cfg s Δ) (hi : KInv s Γ) {p : Slot} {ch : WaitChan}
    (hw : (Δ (s.thread c)).wait = true)
    (hkids : ∀ P Z, (Δ (s.thread c)).know P Z → ∀ x, ¬(P x = some p ∧ Z x))
    (hk : Keeps cfg.initproc (s.exec c) k { Δ (s.thread c) with told := fun _ => False }) :
    FamInv cfg ((s.goOn c k).note (.tested p ch .wait))
      (Function.update Δ (s.thread c) { Δ (s.thread c) with told := fun _ => False }) := by
  have hother : ∀ {x}, x ≠ p → Told s x → Told ((s.goOn c k).note (.tested p ch .wait)) x := by
    intro x hx hT ht
    have ht' : Function.update s.test p (some (ch, .wait)) x = some (.proc x, .wait) := ht
    rw [Function.update_of_ne hx] at ht'
    show Function.update s.missed p false x = true
    rw [Function.update_of_ne hx]
    exact hT ht'
  refine h.control hi ⟨rfl, rfl, rfl, fun _ => rfl, rfl, fun _ => ⟨(h.know hw).1, False.elim⟩,
    fun hw₀ => absurd (hw.symm.trans hw₀) (by decide),
    fun {x o} hx hp hor => ?_⟩ hk ?_ fun q hf => ?_
  · rcases hor with hT | ⟨hin, hOwes⟩
    · refine .inl (hother ?_ hT)
      rintro rfl
      exact hkids _ _ (h.know hw).1 x ⟨hp, hx⟩
    · exact .inr ⟨hin, owes_update hOwes fun hw₀ ho₀ => ⟨hw₀, ho₀⟩⟩
  · exact h.hold.goOn hi rfl (fun hw => h.hold.lock_wait hi hw) (fun hq => h.hold.has hq)
      (fun _ hl => hl) fun _ hl => ⟨hl, rfl⟩
  · exact hf.keep rfl rfl

/-- Events under another lock do not touch `kwait`'s. -/
theorem told_note {e : Event} {x : Slot}
    (he : (∃ p ch l, e = .tested p ch l ∧ l ≠ .wait) ∨ (∃ ch l, e = .woken ch l) ∨
      ∃ pid q, e = .marked pid q) (hT : Told s x) : Told ((s.goOn c k).note e) x := by
  rcases he with ⟨p, ch, l, rfl, hl⟩ | ⟨ch, l, rfl⟩ | ⟨pid, q, rfl⟩
  · intro ht
    have ht' : Function.update s.test p (some (ch, l)) x = some (.proc x, .wait) := ht
    by_cases hx : x = p
    · rw [hx, Function.update_self] at ht'
      exact absurd (Prod.mk.inj (Option.some.inj ht')).2 hl
    · rw [Function.update_of_ne hx] at ht'
      show Function.update s.missed p false x = true
      rw [Function.update_of_ne hx]
      exact hT ht'
  · intro ht
    show (s.missed x || s.test x == some (ch, l)) = true
    rw [hT ht]
    rfl
  · exact hT

theorem FamInv.note (h : FamInv cfg s Δ) (hi : KInv s Γ) {e : Event}
    (he : (∃ p ch l, e = .tested p ch l ∧ l ≠ .wait) ∨ (∃ ch l, e = .woken ch l) ∨
      ∃ pid q, e = .marked pid q)
    (hk : Keeps cfg.initproc (s.exec c) k (Δ (s.thread c))) :
    FamInv cfg ((s.goOn c k).note e) (Function.update Δ (s.thread c) (Δ (s.thread c))) := by
  have heq : ((s.goOn c k).note e).exec = s.exec ∧
      ((s.goOn c k).note e).code = Function.update s.code (s.thread c) k ∧
      ((s.goOn c k).note e).parent = s.parent ∧ ((s.goOn c k).note e).proc = s.proc ∧
      ((s.goOn c k).note e).lock = s.lock := by
    cases e <;> exact ⟨rfl, rfl, rfl, rfl, rfl⟩
  obtain ⟨hexec, hcode, hparent, hproc, hlock⟩ := heq
  refine h.control hi ⟨hexec, hcode, hparent, fun q => by rw [hproc], rfl,
    fun hw₁ => ⟨(h.know hw₁).1, fun hT => told_note he ((h.know hw₁).2 hT)⟩,
    fun _ _ => told_note he, fun hx hp hor => ?_⟩ hk ?_ fun q hf => ?_
  · exact hor.imp (told_note he) fun ⟨hin, hOwes⟩ =>
      ⟨hin, owes_update hOwes fun hw₀ ho₀ => ⟨hw₀, ho₀⟩⟩
  · refine h.hold.goOn hi hexec (fun hw => ?_) (fun hq => ?_) (fun _ hl => ?_) fun _ hl => ?_
    · rw [hlock]
      exact h.hold.lock_wait hi hw
    · rw [hlock, hproc]
      exact h.hold.has hq
    · rw [hlock]
      exact hl
    · rw [hlock, hproc]
      exact ⟨hl, rfl⟩
  · exact hf.keep rfl rfl

end

end Xv6.Proc
