import Xv6.Trap.Machine

/-!
# What C code does to the other harts

A statement of the kernel's C code changes its own hart, its own thread, and the locks
and states that `Intr` has; a thread that it leaves or enters by `swtch` is where it was
(`Moves`).
-/

namespace Xv6.Trap

open Lib
open Intr (Kernel Thread Stack Cpu At)

variable {C P L : Type*}

/-- A process that a scheduler may choose or has chosen. -/
def Wanted (k : Kernel C P L) (q : P) : Prop := k.state q = .RUNNABLE ∨ k.state q = .RUNNING

/-- The same thread, but for what it remembers of interrupts. -/
structure Stays (t t' : Stack P L) : Prop where
  cur : t'.cur = t.cur
  below : t'.below = t.below
  depth : t'.depth = t.depth

/-- Which process the hart has. -/
inductive Hands (k k' : Kernel C P L) (c : C) : Prop
  | same (h : (k'.cpu c).proc = (k.cpu c).proc)
  | out (p : P) (h : (k.cpu c).proc = some p) (h' : (k'.cpu c).proc = none)
  | inn (p : P) (h : (k.cpu c).proc = none) (hc : (k.cur c).cur = .code (.swtch p))
    (h' : (k'.cpu c).proc = some p)

/-- One statement of C code on `c`; `made` are the processes it makes RUNNABLE. -/
structure Moves (k k' : Kernel C P L) (c : C) (made : P → Prop) : Prop where
  cpu : ∀ c', c' ≠ c → k'.cpu c' = k.cpu c'
  stack : ∀ t, t ≠ k.on c → Stays (k.stack t) (k'.stack t)
  below : (k'.stack (k.on c)).below = (k.stack (k.on c)).below
  hands : Hands k k' c
  swtch : ∀ p, (k'.stack (k.on c)).cur = .code (.swtch p) → Wanted k p
  wanted : ∀ q, Wanted k' q → Wanted k q ∨ made q

section Moves

variable {k k' : Kernel C P L} {c : C} {made : P → Prop}

/-- The thread on a hart, by the process it has. -/
theorem on_congr (h : (k'.cpu c).proc = (k.cpu c).proc) :
    k'.on c = k.on c := by
  unfold Intr.Kernel.on
  rw [h]

theorem proc_of_on {p : P} (h : k.on c = .proc p) :
    (k.cpu c).proc = some p := by
  unfold Intr.Kernel.on at h
  split at h
  next q hq => rw [hq, Thread.proc.inj h]
  next => exact nomatch h

theorem Stays.refl (t : Stack P L) : Stays t t := ⟨rfl, rfl, rfl⟩

theorem advance_below {x x' : Cpu P} {t t' : Stack P L} (hs : t.advance x = some (x', t')) :
    t'.below = t.below := by
  unfold Stack.advance at hs
  split at hs
  case h_4 ret _ =>
    -- `pop_off` may panic
    split at hs
    next => exact (congrArg Stack.below (Prod.mk.inj (Option.some.inj hs)).2).symm
    next =>
      split at hs
      next => exact (congrArg Stack.below (Prod.mk.inj (Option.some.inj hs)).2).symm
      next => exact (congrArg Stack.below (Prod.mk.inj (Option.some.inj hs)).2).symm
  case h_10 => exact absurd hs.symm (Option.some_ne_none _)
  all_goals exact (congrArg Stack.below (Prod.mk.inj (Option.some.inj hs)).2).symm

variable [DecidableEq C] [DecidableEq P]

/-- The hart and its thread go on. -/
theorem Moves.put {x : Cpu P} {t : Stack P L} {lock : Intr.Lock P L → Option C}
    {state : P → ProcState} {closed : List (Intr.Closed P)} (hx : x.proc = (k.cpu c).proc)
    (hb : t.below = (k.cur c).below) (hs : ∀ p, t.cur = .code (.swtch p) → Wanted k p)
    (hw : ∀ q, state q = .RUNNABLE ∨ state q = .RUNNING → Wanted k q ∨ made q) :
    Moves k { k.put c x t with lock := lock, state := state, closed := closed } c made where
  cpu c' hne := Function.update_of_ne hne _ _
  stack t' hne := by
    show Stays _ ((k.put c x t).stack t')
    rw [Intr.put_stack hne]
    exact Stays.refl _
  below := by
    show (if k.on c = k.on c then t else k.stack (k.on c)).below = _
    rw [if_pos rfl]
    exact hb
  hands := by
    refine .same ?_
    show (Function.update k.cpu c x c).proc = _
    rw [Function.update_self]
    exact hx
  swtch p hp := by
    refine hs p ?_
    have hself : (k.put c x t).stack (k.on c) = t := if_pos rfl
    rw [← hself]
    exact hp
  wanted := hw

theorem Moves.goto {f : At P L} (hs : ∀ p, f ≠ .code (.swtch p)) : Moves k (k.goto c f) c made :=
  Moves.put rfl rfl (fun p hp => absurd hp (hs p)) fun _ hq => Or.inl hq

/-- A statement that touches one CPU. -/
theorem Moves.advance (hi : Intr.Inv k) {y : Cpu P × Stack P L}
    (hs : (k.cur c).advance (k.cpu c) = some y) : Moves k (k.put c y.1 y.2) c made := by
  obtain ⟨-, hproc, -, hswtch⟩ := (hi.on c).advance hs
  exact Moves.put hproc (advance_below hs) (fun p hp => absurd hp (hswtch p)) fun _ hq => Or.inl hq

/-- `sched`, which may panic. -/
theorem Moves.sched (p : P) : Moves k (k.sched c p) c made := by
  unfold Kernel.sched
  split
  next => exact Moves.goto fun p hp => nomatch hp
  next =>
    split
    next => exact Moves.goto fun p hp => nomatch hp
    next =>
      split
      next => exact Moves.goto fun p hp => nomatch hp
      next =>
        split
        next => exact Moves.goto fun p hp => nomatch hp
        next => exact Moves.goto fun p hp => nomatch hp

/-- `swtch` to the scheduler. -/
theorem Moves.swtchOut {intena : Bool} {p : P} (hp : (k.cpu c).proc = some p) :
    Moves k (k.swtchOut c intena) c made := by
  obtain ⟨hcpu, -⟩ := Intr.goto_self k c (.restore intena)
  have hgo : Moves k (k.goto c (.restore intena)) c made := Moves.goto fun p hp => nomatch hp
  have hon : k.on c ≠ .sched c := by
    rw [Intr.on_proc hp]
    exact fun hc => nomatch hc
  have hstack : ∀ t, t ≠ .sched c →
      (k.swtchOut c intena).stack t = (k.goto c (.restore intena)).stack t :=
    fun t ht => Function.update_of_ne ht _ _
  refine ⟨fun c' hne => ?_, fun t ht => ?_, ?_, .out p hp ?_, fun q hq => ?_,
    fun _ hq => Or.inl hq⟩
  · exact (Function.update_of_ne hne _ _).trans (hgo.cpu c' hne)
  · by_cases hsched : t = .sched c
    · have hself : (k.swtchOut c intena).stack (.sched c) =
          { (k.goto c (.restore intena)).stack (.sched c) with before := none } :=
        Function.update_self _ _ _
      have hst := hgo.stack (.sched c) hon.symm
      rw [hsched, hself]
      exact ⟨hst.cur, hst.below, hst.depth⟩
    · rw [hstack t hsched]
      exact hgo.stack t ht
  · rw [hstack _ hon]
    exact hgo.below
  · have hself : (k.swtchOut c intena).cpu c =
        { (k.goto c (.restore intena)).cpu c with proc := none } := Function.update_self _ _ _
    rw [hself]
  · rw [hstack _ hon] at hq
    exact hgo.swtch q hq

/-- `swtch` to a process. -/
theorem Moves.swtchIn {p : P} (hp : (k.cpu c).proc = none)
    (hc : (k.cur c).cur = .code (.swtch p)) : Moves k (k.swtchIn c p) c made := by
  have hgo : Moves k (k.goto c (.code (.back p))) c made := Moves.goto fun p hp => nomatch hp
  refine ⟨fun c' hne => ?_, hgo.stack, hgo.below, .inn p hp hc ?_, hgo.swtch,
    fun _ hq => Or.inl hq⟩
  · exact (Function.update_of_ne hne _ _).trans (hgo.cpu c' hne)
  · have hself : (k.swtchIn c p).cpu c =
        { (k.goto c (.code (.back p))).cpu c with proc := some p } := Function.update_self _ _ _
    rw [hself]

variable [DecidableEq L]

/-- `release`, which may panic. -/
theorem Moves.release {l : Intr.Lock P L} {ret : Intr.Pc P} :
    Moves k (k.release c l ret) c made := by
  unfold Kernel.release
  split
  next => exact Moves.put rfl rfl (fun p hp => nomatch hp) fun _ hq => Or.inl hq
  next => exact Moves.goto fun p hp => nomatch hp

/-- **A statement of the thread on `c`.** -/
theorem Moves.exec1 (hi : Intr.Inv k) (hs : k.exec1 c = some k') : Moves k k' c made := by
  have hadvance : ((k.cur c).advance (k.cpu c)).map (fun y => k.put c y.1 y.2) = some k' →
      Moves k k' c made := fun hm => by
    obtain ⟨y, hy, rfl⟩ := Option.map_eq_some_iff.mp hm
    exact Moves.advance hi hy
  have hcur := (hi.on c).cur
  unfold Kernel.exec1 at hs
  split at hs
  next l ret hc =>
    rw [← Option.some.inj hs]
    split
    next => exact Moves.goto fun p hp => by cases hp
    next => exact Moves.goto fun p hp => by cases hp
  next l ret hc =>
    rw [hc] at hcur
    split at hs
    next =>
      rw [← Option.some.inj hs]
      refine Moves.put rfl rfl (fun p hp => ?_) fun _ hq => Or.inl hq
      -- `acquire` does not return into the middle of the scheduler
      rcases hcur.2 with rfl | ⟨q, rfl, _⟩
      · cases hp
      · cases hp
    next => cases hs
  next was ret hc =>
    rw [← Option.some.inj hs]
    rw [hc] at hcur
    refine Moves.put rfl rfl (fun p hp => ?_) fun _ hq => Or.inl hq
    rcases hcur.2 with rfl | ⟨rfl, _⟩
    · cases hp
    · cases hp
  next intena hc =>
    obtain ⟨p, hp, rfl⟩ := Option.map_eq_some_iff.mp hs
    exact Moves.swtchOut hp
  next pc hc =>
    split at hs
    next s₁ hp hsched =>
      rw [← Option.some.inj hs]
      unfold Kernel.scheduler at hsched
      split at hsched
      next p =>
        split at hsched
        next hst =>
          rw [← Option.some.inj hsched]
          refine Moves.put rfl rfl (fun q hq => ?_) fun q hq => ?_
          · obtain rfl : p = q := by simpa [Stack.goto] using hq
            exact Or.inl hst
          · by_cases hqp : q = p
            · exact Or.inl (Or.inl (hqp ▸ hst))
            · rw [Function.update_of_ne hqp] at hq
              exact Or.inl hq
        next =>
          rw [← Option.some.inj hsched]
          exact Moves.goto fun p hp => by cases hp
      next p =>
        rw [← Option.some.inj hsched]
        exact Moves.swtchIn hp hc
      next p =>
        rw [← Option.some.inj hsched]
        exact Moves.release
      next => cases hsched
    next => exact hadvance hs
  next => exact hadvance hs

/-- A handler that returns. -/
theorem sret_cases (hs : Intr.step k (.sret c) = some k') : ∃ f below,
    (k.cur c).cur = .code .body ∧ (k.cur c).below = f :: below ∧
      k' = k.put c { k.cpu c with sie := true } { k.cur c with cur := f, below := below } := by
  unfold Intr.step at hs
  dsimp only at hs
  split at hs
  next f below hcur hb => exact ⟨f, below, hcur, hb, (Option.some.inj hs).symm⟩
  next => cases hs

/-- The scheduler goes to take `p->lock`. -/
theorem Moves.dispatch {p : P} (hs : Intr.step k (.dispatch c p) = some k') :
    Moves k k' c made := by
  have hs : (if (k.cpu c).proc = none ∧ (k.cur c).cur = .code .pick then
      some (k.goto c (.getOld (some (.proc p)) (k.cpu c).sie (.check p)))
    else none) = some k' := hs
  split at hs
  next =>
    rw [← Option.some.inj hs]
    exact Moves.goto fun p hp => nomatch hp
  next => exact nomatch hs

/-- The process that a call makes RUNNABLE. -/
def Made (f : Intr.Call P L) (q : P) : Prop := f = .setState q .RUNNABLE

/-- **A call from C code.** -/
theorem Moves.call {f : Intr.Call P L} (hok : Intr.Matched k (.call c f))
    (hf : ∀ q, f ≠ .context q) (hs : Intr.step k (.call c f) = some k') :
    Moves k k' c (Made f) := by
  have hs : (if (k.cur c).cur = .code .body then k.call c f else none) = some k' := hs
  split at hs
  case isFalse => exact nomatch hs
  case isTrue hbody =>
    have hnot : ∀ p, (k.cur c).cur ≠ .code (.swtch p) := fun p hp => by
      rw [hbody] at hp
      exact nomatch hp
    cases f with
    | acquire l =>
      rw [← Option.some.inj hs]
      exact Moves.goto fun p hp => nomatch hp
    | release l =>
      rw [← Option.some.inj hs]
      exact Moves.release
    | pushOff =>
      rw [← Option.some.inj hs]
      exact Moves.goto fun p hp => nomatch hp
    | popOff =>
      rw [← Option.some.inj hs]
      exact Moves.goto fun p hp => nomatch hp
    | intrOn =>
      rw [← Option.some.inj hs]
      exact Moves.put rfl rfl (fun p hp => absurd hp (hnot p)) fun _ hq => Or.inl hq
    | intrOff =>
      rw [← Option.some.inj hs]
      exact Moves.put rfl rfl (fun p hp => absurd hp (hnot p)) fun _ hq => Or.inl hq
    | setState q st =>
      rw [← Option.some.inj hs]
      refine ⟨fun _ _ => rfl, fun _ _ => Stays.refl _, rfl, .same rfl,
        fun p hp => absurd hp (hnot p), fun q' hq' => ?_⟩
      by_cases hqq : q' = q
      · subst hqq
        unfold Wanted at hq'
        simp only [Function.update_self] at hq'
        rcases hq' with rfl | hst
        · exact Or.inr rfl
        · exact absurd hst hok.2.1
      · unfold Wanted at hq'
        simp only [Function.update_of_ne hqq] at hq'
        exact Or.inl hq'
    | context q => exact absurd rfl (hf q)
    | sched =>
      obtain ⟨p, -, rfl⟩ := Option.map_eq_some_iff.mp hs
      exact Moves.sched p

end Moves

end Xv6.Trap
