import Xv6.Intr.Thread
import Mathlib.Data.Fintype.Basic

/-!
# Interrupts and nesting

> In a run of matched calls interrupts are off on every CPU whose `noff` is not 0,
> `pop_off` does not panic, and when it returns from undoing a process's outermost
> `push_off` interrupts are on just if they were on before it, whatever CPU that is by
> then (`interrupts_nest`).

Every CPU is executing one thread, to which its `noff` and its `intena` belong (`OnCpu`); a
process that no CPU is executing can be resumed by any (`Parked`), and a scheduler whose CPU a
process has waits with depth 1 (`Idle`). A scheduler does not restore `intena`: it is only
asked for `noff`, and `before` is forgotten for it.

That a process runs on one CPU at a time is due to `p->lock`: a process that is no longer
RUNNING keeps it until the scheduler has its stack (`leaving`), and a scheduler looks at
the state under it (`check`, `swtch`).
-/

namespace Xv6.Intr

open Lib

variable {C P L : Type*}

section Runs

/-- The invariant. -/
structure Inv (s : Kernel C P L) : Prop where
  on : ∀ c, OnCpu (s.cpu c) (s.cur c)
  parked : ∀ p, (∀ c, (s.cpu c).proc ≠ some p) → Parked (s.stack (.proc p))
  idle : ∀ c p, (s.cpu c).proc = some p → Idle (s.stack (.sched c))
  one : ∀ c c' p, (s.cpu c).proc = some p → (s.cpu c').proc = some p → c = c'
  leaving : ∀ c p, (s.cpu c).proc = some p → s.state p ≠ .RUNNING → s.lock (.proc p) = some c
  check : ∀ c p, (s.cpu c).proc = none → (s.cur c).cur = .code (.check p) →
    s.lock (.proc p) = some c
  swtch : ∀ c p, (s.cpu c).proc = none → (s.cur c).cur = .code (.swtch p) →
    s.lock (.proc p) = some c ∧ ∀ c', (s.cpu c').proc ≠ some p
  closed : ∀ e ∈ s.closed, e.after = e.before

variable {s s' : Kernel C P L} {c : C}

/-- A thread is executed by one CPU. -/
theorem Inv.on_inj (h : Inv s) {c c' : C} (heq : s.on c = s.on c') : c = c' := by
  unfold Kernel.on at heq
  split at heq
  next p hp =>
    split at heq
    next p' hp' => exact h.one c c' p hp (Thread.proc.inj heq ▸ hp')
    next => cases heq
  next =>
    split at heq
    next => cases heq
    next => exact Thread.sched.inj heq

theorem on_proc {p : P} (hp : (s.cpu c).proc = some p) : s.on c = .proc p := by
  unfold Kernel.on
  rw [hp]

theorem on_sched (hp : (s.cpu c).proc = none) : s.on c = .sched c := by
  unfold Kernel.on
  rw [hp]

theorem Init.inv (h : Init s) : Inv s := by
  have hcur : ∀ c, s.cur c = ⟨.code .intrOn, [], 0, none⟩ := fun c => by
    unfold Kernel.cur
    rw [on_sched (h.proc c), h.sched]
  have hproc : ∀ c p, (s.cpu c).proc ≠ some p := fun c p hp => by
    rw [h.proc] at hp
    cases hp
  refine ⟨fun c => ?_, fun p _ => ?_, fun c p hp => absurd hp (hproc c p),
    fun c _ p hp => absurd hp (hproc c p), fun c p hp => absurd hp (hproc c p),
    fun c p _ hc => ?_, fun c p _ hc => ?_, fun e he => ?_⟩
  · rw [hcur]
    exact ⟨h.noff c, fun hd => absurd hd (Nat.lt_irrefl 0), fun hd => absurd hd (Nat.lt_irrefl 0),
      rfl, .inl rfl⟩
  · rw [h.start]
    exact Parked.forkret
  · rw [hcur] at hc
    cases hc
  · rw [hcur] at hc
    cases hc
  · rw [h.closed] at he
    exact absurd he List.not_mem_nil

/-- What nesting is for. -/
structure Nested (s : Kernel C P L) : Prop where
  off : ∀ c, 0 < (s.cpu c).noff → (s.cpu c).sie = false
  popOff : ∀ t, ∀ f ∈ (s.stack t).cur :: (s.stack t).below,
    f ≠ .panic .popOff ∧ f ≠ .panic .popOffInterruptible
  restored : ∀ e ∈ s.closed, e.after = e.before

theorem Inv.nested (h : Inv s) : Nested s := by
  refine ⟨fun c hn => (h.on c).off ((h.on c).noff ▸ hn), fun t => ?_, h.closed⟩
  have hcur : ∀ c, s.on c = t → ∀ f ∈ (s.stack t).cur :: (s.stack t).below,
      f ≠ .panic .popOff ∧ f ≠ .panic .popOffInterruptible := by
    rintro c rfl
    exact (h.on c).noPanic
  cases t with
  | proc p =>
    by_cases hp : ∃ c, (s.cpu c).proc = some p
    · obtain ⟨c, hc⟩ := hp
      exact hcur c (on_proc hc)
    · exact (h.parked p (fun c hc => hp ⟨c, hc⟩) ⟨1, false, false, none⟩ rfl rfl).noPanic
  | sched c =>
    cases hp : (s.cpu c).proc with
    | none => exact hcur c (on_sched hp)
    | some p =>
      obtain ⟨_, hb, q, hq⟩ := h.idle c p hp
      rw [hb, hq]
      simp

variable [DecidableEq C]

/-- The CPU `c` takes up another thread. -/
theorem take_other {c c' : C} {x : Cpu P} (hne : c' ≠ c)
    {s' : Kernel C P L} (hs : s'.cpu = Function.update s.cpu c x) :
    s'.cpu c' = s.cpu c' ∧ s'.on c' = s.on c' := by
  have hcpu : s'.cpu c' = s.cpu c' := by rw [hs, Function.update_of_ne hne]
  refine ⟨hcpu, ?_⟩
  unfold Kernel.on
  rw [hcpu]

/-- **A scheduler hands its CPU to a process** that no other has. -/
theorem Inv.resume (h : Inv s) {p : P} (hp : (s.cpu c).proc = none)
    (hcur : (s.cur c).cur = .code (.back p)) (hbelow : (s.cur c).below = [])
    (hlock : s.lock (.proc p) = some c) (hno : ∀ c', (s.cpu c').proc ≠ some p) :
    Inv { s with cpu := Function.update s.cpu c { s.cpu c with proc := some p } } := by
  have hd : (s.cur c).depth = 1 := by
    have hok := (h.on c).cur
    rw [hcur] at hok
    exact hok
  have hsie := (h.on c).off (by rw [hd]; exact Nat.one_pos)
  generalize hs' : ({ s with
      cpu := Function.update s.cpu c { s.cpu c with proc := some p } } : Kernel C P L) = s'
  have hcpu : s'.cpu = Function.update s.cpu c { s.cpu c with proc := some p } := by rw [← hs']
  have hself : s'.cpu c = { s.cpu c with proc := some p } := by rw [hcpu, Function.update_self]
  have hstack : s'.stack = s.stack := by rw [← hs']
  have hcur' : ∀ c', c' ≠ c → s'.cur c' = s.cur c' := by
    intro c' hne
    unfold Kernel.cur
    rw [(take_other hne hcpu).2, hstack]
  have hlock' : s'.lock = s.lock := by rw [← hs']
  have hstate : s'.state = s.state := by rw [← hs']
  have hclosed : s'.closed = s.closed := by rw [← hs']
  -- the CPUs that run a process are those that did, and `c`
  have hnone : ∀ {c'}, (s'.cpu c').proc = none → c' ≠ c ∧ (s.cpu c').proc = none := by
    intro c' hc'
    have hne : c' ≠ c := by
      rintro rfl
      rw [hself] at hc'
      cases hc'
    exact ⟨hne, (take_other hne hcpu).1 ▸ hc'⟩
  have hproc : ∀ {c' p'}, (s'.cpu c').proc = some p' →
      c' = c ∧ p' = p ∨ c' ≠ c ∧ (s.cpu c').proc = some p' := by
    intro c' p' hc'
    by_cases heq : c' = c
    · rw [heq, hself] at hc'
      exact .inl ⟨heq, (Option.some.inj hc').symm⟩
    · exact .inr ⟨heq, (take_other heq hcpu).1 ▸ hc'⟩
  refine ⟨fun c' => ?_, fun p' hp' => ?_, fun c' p' hp' => ?_, fun c₁ c₂ p' h₁ h₂ => ?_,
    fun c' p' hp' hst => ?_, fun c' p' hp' hc => ?_, fun c' p' hp' hc => ?_, ?_⟩
  · by_cases hc : c' = c
    · have hon : s'.on c = .proc p := on_proc (by rw [hself])
      unfold Kernel.cur
      rw [hc, hself, hon, hstack]
      exact h.parked p hno _ ((h.on c).noff.trans hd) hsie
    · rw [(take_other hc hcpu).1, hcur' c' hc]
      exact h.on c'
  · rw [hstack]
    refine h.parked p' fun c' hc' => ?_
    by_cases hc : c' = c
    · rw [hc, hp] at hc'
      cases hc'
    · exact hp' c' ((take_other hc hcpu).1.symm ▸ hc')
  · rw [hstack]
    rcases hproc hp' with ⟨rfl, rfl⟩ | ⟨_, hp'⟩
    · have hidle : Idle (s.cur c') := ⟨hd, hbelow, p', hcur⟩
      unfold Kernel.cur at hidle
      rwa [on_sched hp] at hidle
    · exact h.idle c' p' hp'
  · rcases hproc h₁ with ⟨rfl, rfl⟩ | ⟨_, h₁⟩
    · rcases hproc h₂ with ⟨rfl, _⟩ | ⟨_, h₂⟩
      · rfl
      · exact absurd h₂ (hno c₂)
    · rcases hproc h₂ with ⟨_, rfl⟩ | ⟨_, h₂⟩
      · exact absurd h₁ (hno c₁)
      · exact h.one c₁ c₂ p' h₁ h₂
  · rw [hlock']
    rcases hproc hp' with ⟨rfl, rfl⟩ | ⟨_, hp'⟩
    · exact hlock
    · exact h.leaving c' p' hp' (hstate ▸ hst)
  · rw [hlock']
    obtain ⟨hne, hp'⟩ := hnone hp'
    exact h.check c' p' hp' (hcur' c' hne ▸ hc)
  · rw [hlock']
    obtain ⟨hne, hp'⟩ := hnone hp'
    obtain ⟨hl, hno'⟩ := h.swtch c' p' hp' (hcur' c' hne ▸ hc)
    refine ⟨hl, fun c₁ h₁ => ?_⟩
    rcases hproc h₁ with ⟨_, rfl⟩ | ⟨_, h₁⟩
    · exact hne (Option.some.inj (hl.symm.trans hlock))
    · exact hno' c₁ h₁
  · rw [hclosed]
    exact h.closed

variable [DecidableEq P]

/-- The stack of a thread that `c` is not executing. -/
theorem put_stack {x : Cpu P} {t : Stack P L} {th : Thread C P} (h : th ≠ s.on c) :
    (s.put c x t).stack th = s.stack th := if_neg h

/-- **Frame**: a step of the CPU `c` and the thread on it, with what it does to locks, states and
`closed`. -/
theorem Inv.put (h : Inv s) {x : Cpu P} {t : Stack P L} {lock : Lock P L → Option C}
    {state : P → ProcState} {closed : List (Closed P)}
    (hx : x.proc = (s.cpu c).proc) (ht : OnCpu x t)
    (hlock : ∀ c' p, c' ≠ c → s.lock (.proc p) = some c' → lock (.proc p) = some c')
    (hleaving : ∀ c' p, (s.cpu c').proc = some p → state p ≠ .RUNNING →
      lock (.proc p) = some c')
    (hcheck : (s.cpu c).proc = none → ∀ p, t.cur = .code (.check p) → lock (.proc p) = some c)
    (hswtch : (s.cpu c).proc = none → ∀ p, t.cur = .code (.swtch p) →
      lock (.proc p) = some c ∧ ∀ c', (s.cpu c').proc ≠ some p)
    (hclosed : ∀ e ∈ closed, e.after = e.before) :
    Inv { s.put c x t with lock := lock, state := state, closed := closed } := by
  have hcpu : ∀ c', c' ≠ c → (s.put c x t).cpu c' = s.cpu c' :=
    fun c' hne => Function.update_of_ne hne _ _
  have hself : (s.put c x t).cpu c = x := Function.update_self ..
  have hproc : ∀ c', ((s.put c x t).cpu c').proc = (s.cpu c').proc := by
    intro c'
    by_cases hc : c' = c
    · rw [hc, hself, hx]
    · rw [hcpu c' hc]
  have hon : ∀ c', (s.put c x t).on c' = s.on c' := by
    intro c'
    unfold Kernel.on
    rw [hproc]
  have hcur : (s.put c x t).cur c = t := by
    unfold Kernel.cur
    rw [hon]
    exact if_pos rfl
  have hcur' : ∀ c', c' ≠ c → (s.put c x t).cur c' = s.cur c' := by
    intro c' hne
    unfold Kernel.cur
    rw [hon]
    exact put_stack fun heq => hne (h.on_inj heq)
  -- only CPU `c` and the stack it is on differ
  refine ⟨fun c' => ?_, fun p hp => ?_, fun c' p hp => ?_, fun c₁ c₂ p h₁ h₂ => ?_,
    fun c' p hp hst => ?_, fun c' p hp hc => ?_, fun c' p hp hc => ?_, hclosed⟩
  · show OnCpu ((s.put c x t).cpu c') ((s.put c x t).cur c')
    by_cases hc : c' = c
    · rw [hc, hself, hcur]
      exact ht
    · rw [hcpu c' hc, hcur' c' hc]
      exact h.on c'
  · have hp' : ∀ c', (s.cpu c').proc ≠ some p := fun c' => hproc c' ▸ hp c'
    show Parked ((s.put c x t).stack (.proc p))
    rw [put_stack]
    · exact h.parked p hp'
    · intro heq
      unfold Kernel.on at heq
      split at heq
      next q hq => exact hp' c (Thread.proc.inj heq ▸ hq)
      next => cases heq
  · have hp' : (s.cpu c').proc = some p := hproc c' ▸ hp
    show Idle ((s.put c x t).stack (.sched c'))
    rw [put_stack]
    · exact h.idle c' p hp'
    · intro heq
      unfold Kernel.on at heq
      split at heq
      next => cases heq
      next hnone =>
        rw [Thread.sched.inj heq, hnone] at hp'
        exact absurd hp'.symm (Option.some_ne_none p)
  · exact h.one c₁ c₂ p (hproc c₁ ▸ h₁) (hproc c₂ ▸ h₂)
  · exact hleaving c' p (hproc c' ▸ hp) hst
  · have hp' : (s.cpu c').proc = none := hproc c' ▸ hp
    have hc' : ((s.put c x t).cur c').cur = .code (.check p) := hc
    by_cases heq : c' = c
    · subst heq
      rw [hcur] at hc'
      exact hcheck hp' p hc'
    · rw [hcur' c' heq] at hc'
      exact hlock c' p heq (h.check c' p hp' hc')
  · have hp' : (s.cpu c').proc = none := hproc c' ▸ hp
    have hc' : ((s.put c x t).cur c').cur = .code (.swtch p) := hc
    have hnone : ∀ c', ((s.put c x t).cpu c').proc ≠ some p ↔ (s.cpu c').proc ≠ some p :=
      fun c' => by rw [hproc]
    by_cases heq : c' = c
    · subst heq
      rw [hcur] at hc'
      obtain ⟨hl, hn⟩ := hswtch hp' p hc'
      exact ⟨hl, fun c₁ => (hnone c₁).mpr (hn c₁)⟩
    · rw [hcur' c' heq] at hc'
      obtain ⟨hl, hn⟩ := h.swtch c' p hp' hc'
      exact ⟨hlock c' p heq hl, fun c₁ => (hnone c₁).mpr (hn c₁)⟩

/-- The thread on `c` goes on, at a place where the scheduler has to know nothing. -/
theorem Inv.goto (h : Inv s) {f : At P L} (ht : OnCpu (s.cpu c) ((s.cur c).goto f))
    (hcheck : ∀ p, f ≠ .code (.check p)) (hswtch : ∀ p, f ≠ .code (.swtch p)) :
    Inv (s.goto c f) :=
  h.put rfl ht (fun _ _ _ hl => hl) h.leaving (fun _ p hp => absurd hp (hcheck p))
    (fun _ p hp => absurd hp (hswtch p)) h.closed

/-- `sched()` up to `swtch`. -/
theorem Inv.sched (h : Inv s) (hbody : (s.cur c).cur = .code .body) (p : P) :
    Inv (s.sched c p) := by
  have hpanic : ∀ e : Panic, e ≠ .popOff → e ≠ .popOffInterruptible →
      Inv (s.goto c (.panic e)) := fun e h₁ h₂ =>
    h.goto ((h.on c).enter hbody ⟨h₁, h₂⟩ fun _ => trivial) (by simp) (by simp)
  unfold Kernel.sched
  split
  next => exact hpanic _ (by simp) (by simp)
  next =>
    split
    next => exact hpanic _ (by simp) (by simp)
    next hn =>
      split
      next => exact hpanic _ (by simp) (by simp)
      next =>
        split
        next => exact hpanic _ (by simp) (by simp)
        next =>
          have hd : (s.cur c).depth = 1 := (h.on c).noff.symm.trans (not_not.mp hn)
          refine h.goto ((h.on c).enter hbody ⟨hd, fun b hb => ?_⟩ fun _ => trivial) (by simp)
            (by simp)
          exact (h.on c).intena (by rw [hd]; exact Nat.one_pos) (by simp [hbody]) b hb

/-- `pop_off` returns. -/
theorem Inv.returned (h : Inv s) {was : Option Bool} {ret : Pc P}
    (hc : (s.cur c).cur = .popped was ret) : Inv (s.returned c was ret) := by
  have hcur := (h.on c).cur
  rw [hc] at hcur
  obtain ⟨hwas, hret⟩ := hcur
  refine h.put rfl ((h.on c).goto ?_ (by simp [hc]) fun hq => ?_) (fun _ _ _ hl => hl) h.leaving
    (fun _ p hp => ?_) (fun _ p hp => ?_) fun e he => ?_
  · rcases hret with rfl | ⟨rfl, hd⟩
    · exact trivial
    · exact hd
  · rw [hc] at hq
    exact hq
  · rcases hret with rfl | ⟨rfl, _⟩ <;> simp [Stack.goto] at hp
  · rcases hret with rfl | ⟨rfl, _⟩ <;> simp [Stack.goto] at hp
  · rcases List.mem_append.mp he with he | he
    · exact h.closed e he
    · split at he
      next p b _ =>
        rw [List.mem_singleton] at he
        rw [he]
        exact hwas _ rfl
      next => exact absurd he List.not_mem_nil

/-- The statements that touch one CPU. -/
theorem Inv.advance (h : Inv s) {y : Cpu P × Stack P L}
    (hs : (s.cur c).advance (s.cpu c) = some y) : Inv (s.put c y.1 y.2) := by
  obtain ⟨hon, hproc, hcheck, hswtch⟩ := (h.on c).advance hs
  exact h.put hproc hon (fun _ _ _ hl => hl) h.leaving (fun _ p hp => absurd hp (hcheck p))
    (fun _ p hp => absurd hp (hswtch p)) h.closed

/-- **A process leaves its CPU**, and the scheduler goes on there. -/
theorem Inv.leave (h : Inv s) {p : P} (hp : (s.cpu c).proc = some p) (hn : (s.cpu c).noff = 1)
    (hr : ∃ b, (s.cur c).cur = .restore b) :
    Inv { s with
      cpu := Function.update s.cpu c { s.cpu c with proc := none }
      stack := Function.update s.stack (.sched c) { s.stack (.sched c) with before := none } } := by
  obtain ⟨hd, hb, q, hq⟩ := h.idle c p hp
  have hsie := (h.on c).off (by rw [← (h.on c).noff, hn]; exact Nat.one_pos)
  generalize hs' : ({ s with
      cpu := Function.update s.cpu c { s.cpu c with proc := none }
      stack := Function.update s.stack (.sched c)
        { s.stack (.sched c) with before := none } } : Kernel C P L) = s'
  have hcpu : s'.cpu = Function.update s.cpu c { s.cpu c with proc := none } := by rw [← hs']
  have hself : s'.cpu c = { s.cpu c with proc := none } := by rw [hcpu, Function.update_self]
  have hon : s'.on c = .sched c := on_sched (by rw [hself])
  have hcur : s'.cur c = { s.stack (.sched c) with before := none } := by
    unfold Kernel.cur
    rw [hon, ← hs']
    exact Function.update_self ..
  have hstack : ∀ th, th ≠ .sched c → s'.stack th = s.stack th := by
    intro th hne
    rw [← hs']
    exact Function.update_of_ne hne _ _
  have hcur' : ∀ c', c' ≠ c → s'.cur c' = s.cur c' := by
    intro c' hne
    unfold Kernel.cur
    rw [(take_other hne hcpu).2]
    refine hstack _ fun heq => ?_
    unfold Kernel.on at heq
    split at heq
    next => cases heq
    next => exact hne (Thread.sched.inj heq)
  have hlock : s'.lock = s.lock := by rw [← hs']
  have hstate : s'.state = s.state := by rw [← hs']
  have hclosed : s'.closed = s.closed := by rw [← hs']
  -- the CPUs that run a process are those that did, but for `c`
  have hproc : ∀ {c' p'}, (s'.cpu c').proc = some p' → c' ≠ c ∧ (s.cpu c').proc = some p' := by
    intro c' p' hp'
    have hne : c' ≠ c := by
      rintro rfl
      rw [hself] at hp'
      cases hp'
    exact ⟨hne, (take_other hne hcpu).1 ▸ hp'⟩
  refine ⟨fun c' => ?_, fun p' hp' => ?_, fun c' p' hp' => ?_, fun c₁ c₂ p' h₁ h₂ => ?_,
    fun c' p' hp' hst => ?_, fun c' p' hp' hc => ?_, fun c' p' hp' hc => ?_, ?_⟩
  · by_cases hc : c' = c
    · rw [hc, hself, hcur]
      refine ⟨hn.trans hd.symm, fun _ => hsie, fun _ _ _ hb => ?_, ?_, .inl hb⟩
      · exact absurd hb.symm (Option.some_ne_none _)
      · show CurOk _ _ none (s.stack (.sched c)).cur
        rw [hq]
        exact hd
    · rw [(take_other hc hcpu).1, hcur' c' hc]
      exact h.on c'
  · rw [hstack _ (by simp)]
    by_cases heq : p' = p
    · have hpark := (h.on c).parked hn hr
      unfold Kernel.cur at hpark
      rw [on_proc hp] at hpark
      exact heq ▸ hpark
    · refine h.parked p' fun c' hc' => ?_
      by_cases hc : c' = c
      · rw [hc, hp] at hc'
        exact heq (Option.some.inj hc').symm
      · exact hp' c' ((take_other hc hcpu).1 ▸ hc')
  · obtain ⟨hne, hp'⟩ := hproc hp'
    rw [hstack _ (by simpa using hne)]
    exact h.idle c' p' hp'
  · exact h.one c₁ c₂ p' (hproc h₁).2 (hproc h₂).2
  · rw [hlock]
    exact h.leaving c' p' (hproc hp').2 (hstate ▸ hst)
  · rw [hlock]
    by_cases heq : c' = c
    · rw [heq, hcur] at hc
      cases hq.symm.trans hc
    · exact h.check c' p' ((take_other heq hcpu).1 ▸ hp') (hcur' c' heq ▸ hc)
  · rw [hlock]
    by_cases heq : c' = c
    · rw [heq, hcur] at hc
      cases hq.symm.trans hc
    · obtain ⟨hl, hno⟩ := h.swtch c' p' ((take_other heq hcpu).1 ▸ hp') (hcur' c' heq ▸ hc)
      exact ⟨hl, fun c₁ h₁ => hno c₁ (hproc h₁).2⟩
  · rw [hclosed]
    exact h.closed

theorem goto_self (s : Kernel C P L) (c : C) (f : At P L) :
    (s.goto c f).cpu = s.cpu ∧ (s.goto c f).cur c = (s.cur c).goto f := by
  have hcpu : (s.goto c f).cpu = s.cpu := Function.update_eq_self ..
  refine ⟨hcpu, ?_⟩
  have hon : (s.goto c f).on c = s.on c := by
    unfold Kernel.on
    rw [hcpu]
  show (s.goto c f).stack ((s.goto c f).on c) = _
  rw [hon]
  exact if_pos rfl

/-- `swtch` in `sched`. -/
theorem Inv.swtchOut (h : Inv s) {intena : Bool} {p : P} (hp : (s.cpu c).proc = some p)
    (hc : (s.cur c).cur = .leaving intena) : Inv (s.swtchOut c intena) := by
  have hcur := (h.on c).cur
  rw [hc] at hcur
  have hstop : Inv (s.goto c (.restore intena)) := by
    refine h.goto ⟨(h.on c).noff, (h.on c).off, ?_, hcur, ?_⟩ (by simp) (by simp)
    · exact fun _ hne => absurd rfl (hne intena)
    · exact (h.on c).below.imp_right fun ⟨g, hb, hw, hs, hbefore, _⟩ =>
        ⟨g, hb, hw, hs, hbefore, trivial⟩
  obtain ⟨hcpu, hself⟩ := goto_self s c (.restore intena)
  refine hstop.leave (p := p) (by rw [hcpu, hp]) ?_ ⟨intena, by rw [hself]; rfl⟩
  rw [hcpu]
  exact (h.on c).noff.trans hcur.1

/-- `swtch` in `scheduler`. -/
theorem Inv.swtchIn (h : Inv s) {p : P} (hp : (s.cpu c).proc = none)
    (hc : (s.cur c).cur = .code (.swtch p)) : Inv (s.swtchIn c p) := by
  have hcur := (h.on c).cur
  rw [hc] at hcur
  have hbase : (s.cur c).below = [] := (h.on c).base fun hq => by
    rw [hc] at hq
    cases hq
  have hback : Inv (s.goto c (.code (.back p))) := by
    refine h.goto ((h.on c).goto hcur (by simp [hc]) fun hq => ?_) (by simp) (by simp)
    rw [hc] at hq
    cases hq
  obtain ⟨hlock, hno⟩ := h.swtch c p hp hc
  obtain ⟨hcpu, hself⟩ := goto_self s c (.code (.back p))
  refine hback.resume (by rw [hcpu, hp]) (by rw [hself]; rfl) (by rw [hself]; exact hbase) hlock ?_
  rw [hcpu]
  exact hno

/-- `q->context` and its kernel stack are made anew. -/
theorem Inv.context (h : Inv s) {q : P} (hq : ∀ c', (s.cpu c').proc ≠ some q) :
    Inv { s with stack := Function.update s.stack (.proc q) Stack.forkret } := by
  have hcur : ∀ c', ({ s with stack := Function.update s.stack (.proc q) Stack.forkret } :
      Kernel C P L).cur c' = s.cur c' := by
    intro c'
    refine Function.update_of_ne (fun heq : s.on c' = .proc q => ?_) _ _
    unfold Kernel.on at heq
    split at heq
    next p hp => exact hq c' (hp.trans (congrArg some (Thread.proc.inj heq)))
    next => cases heq
  refine ⟨fun c' => ?_, fun p hp => ?_, fun c' p hp => ?_, h.one, h.leaving, fun c' p hp hc => ?_,
    fun c' p hp hc => ?_, h.closed⟩
  · rw [hcur]
    exact h.on c'
  · show Parked (Function.update s.stack (.proc q) Stack.forkret (.proc p))
    by_cases hpq : p = q
    · rw [hpq, Function.update_self]
      exact Parked.forkret
    · rw [Function.update_of_ne (by simpa using hpq)]
      exact h.parked p hp
  · show Idle (Function.update s.stack (.proc q) Stack.forkret (.sched c'))
    rw [Function.update_of_ne (by simp)]
    exact h.idle c' p hp
  · exact h.check c' p hp (hcur c' ▸ hc)
  · exact h.swtch c' p hp (hcur c' ▸ hc)

/-- `q->state` changes, as it may under its lock. -/
theorem Inv.setState (h : Inv s) {q : P} {st : ProcState} (hl : s.lock (.proc q) = some c)
    (hrun : (s.cpu c).proc ≠ some q → s.state q ≠ .RUNNING) :
    Inv { s with state := Function.update s.state q st } := by
  refine ⟨h.on, h.parked, h.idle, h.one, fun c' p hp hst => ?_, h.check, h.swtch, h.closed⟩
  by_cases hpq : p = q
  · subst hpq
    by_cases hc : c' = c
    · rw [hc]
      exact hl
    · exact h.leaving c' p hp (hrun fun hp' => hc (h.one c' c p hp hp'))
  · refine h.leaving c' p hp fun hrunning => hst ?_
    show Function.update s.state q st p = .RUNNING
    rw [Function.update_of_ne hpq, hrunning]

/-- An interrupt is taken: nothing has to be undone, and no handler is running. -/
theorem Inv.intr (h : Inv s) (hsie : (s.cpu c).sie = true) :
    Inv (s.put c { s.cpu c with sie := false }
      { s.cur c with cur := .code .body, below := (s.cur c).cur :: (s.cur c).below }) := by
  have hon := h.on c
  have hd : (s.cur c).depth = 0 := by
    by_contra hne
    exact Bool.false_ne_true ((hon.off (Nat.pos_of_ne_zero hne)).symm.trans hsie)
  have hbelow : (s.cur c).below = [] := by
    rcases hon.below with hb | ⟨_, _, _, hoff, _⟩
    · exact hb
    · exact absurd (hoff.symm.trans hsie) Bool.false_ne_true
  have hcur := hon.cur
  rw [hsie, hd] at hcur
  have hpos : ¬0 < (s.cur c).depth := by rw [hd]; exact Nat.lt_irrefl 0
  refine h.put rfl ⟨hon.noff, fun _ => rfl, fun hd' => absurd hd' hpos, trivial, ?_⟩
    (fun _ _ _ hl => hl) h.leaving (fun _ p hp => by simp at hp) (fun _ p hp => by simp at hp)
    h.closed
  refine .inr ⟨(s.cur c).cur, ?_, hcur.idle, rfl, fun hd' => absurd hd' hpos, rfl⟩
  rw [hbelow]

/-- A handler returns. -/
theorem Inv.sret (h : Inv s) {f : At P L} {below : List (At P L)} (hd : (s.cur c).depth = 0)
    (hb : (s.cur c).below = f :: below) :
    Inv (s.put c { s.cpu c with sie := true } { s.cur c with cur := f, below := below }) := by
  have hon := h.on c
  have hpos : ¬0 < (s.cur c).depth := by rw [hd]; exact Nat.lt_irrefl 0
  rcases hon.below with hnil | ⟨g, hg, hw, _⟩
  · rw [hb] at hnil
    cases hnil
  · obtain ⟨rfl, rfl⟩ := List.cons.inj (hb.symm.trans hg)
    -- the scheduler has no lock in a frame that was interrupted
    have hne : ∀ p, f ≠ .code (.check p) ∧ f ≠ .code (.swtch p) := by
      intro p
      constructor
      · rintro rfl
        exact absurd (show 0 = 1 from hw) Nat.zero_ne_one
      · rintro rfl
        exact absurd (show 0 = 1 from hw) Nat.zero_ne_one
    refine h.put rfl ⟨hon.noff, fun hd' => absurd hd' hpos, fun hd' => absurd hd' hpos,
      ?_, .inl rfl⟩
      (fun _ _ _ hl => hl) h.leaving (fun _ p hp => absurd hp (hne p).1)
      (fun _ p hp => absurd hp (hne p).2) h.closed
    show CurOk true (s.cur c).depth (s.cur c).before f
    rw [hd]
    exact hw.idle

variable [DecidableEq L]

/-- `lk->cpu = 0`: no other CPU and no process that leaves loses its lock. -/
theorem Inv.release (h : Inv s) {l : Lock P L} {ret : Pc P}
    (ht : OnCpu (s.cpu c) ((s.cur c).goto (.popOff ret)))
    (hpanic : OnCpu (s.cpu c) ((s.cur c).goto (.panic .release)))
    (hrun : ∀ p, (s.cpu c).proc = some p → l = .proc p → s.state p = .RUNNING) :
    Inv (s.release c l ret) := by
  unfold Kernel.release
  split
  next hl =>
    refine h.put rfl ht (fun c' p hne hp => ?_) (fun c' p hp hst => ?_) ?_ ?_ h.closed
    · rwa [Function.update_of_ne]
      rintro rfl
      exact hne (Option.some.inj (hp.symm.trans hl))
    · have hp' := h.leaving c' p hp hst
      rwa [Function.update_of_ne]
      rintro rfl
      have hc : c' = c := Option.some.inj (hp'.symm.trans hl)
      exact hst (hrun p (hc ▸ hp) rfl)
    · exact fun _ p hp => by simp [Stack.goto] at hp
    · exact fun _ p hp => by simp [Stack.goto] at hp
  next => exact h.goto hpanic (by simp) (by simp)

/-- The swap in `acquire` has found the lock free. -/
theorem Inv.taken (h : Inv s) {l : Lock P L} {ret : Pc P} (hc : (s.cur c).cur = .spin l ret)
    (hl : s.lock l = none) :
    Inv { s.goto c (.code ret) with lock := Function.update s.lock l (some c) } := by
  have hother : ∀ c' p, s.lock (.proc p) = some c' →
      Function.update s.lock l (some c) (.proc p) = some c' := by
    intro c' p hp
    rwa [Function.update_of_ne]
    rintro rfl
    exact absurd (hp.symm.trans hl) (Option.some_ne_none c')
  have hcur := (h.on c).cur
  rw [hc] at hcur
  obtain ⟨hpos, hret⟩ := hcur
  refine h.put rfl ((h.on c).goto ?_ (by simp [hc]) fun hq => ?_) (fun c' p _ => hother c' p)
    (fun c' p hp hst => hother c' p (h.leaving c' p hp hst)) (fun _ p hp => ?_) (fun _ p hp => ?_)
    h.closed
  · rcases hret with rfl | ⟨p, rfl, _, hd⟩
    · exact trivial
    · exact hd
  · rw [hc] at hq
    exact hq
  · rcases hret with rfl | ⟨q, rfl, rfl, _⟩
    · simp [Stack.goto] at hp
    · obtain rfl : q = p := by simpa [Stack.goto] using hp
      exact Function.update_self ..
  · rcases hret with rfl | ⟨q, rfl, _⟩
    · simp [Stack.goto] at hp
    · simp [Stack.goto] at hp

/-- The scheduler's statements under `p->lock`. -/
theorem Inv.scheduler (h : Inv s) {pc : Pc P} (hp : (s.cpu c).proc = none)
    (hc : (s.cur c).cur = .code pc) (hs : s.scheduler c pc = some s') : Inv s' := by
  have hcur := (h.on c).cur
  have hon : ∀ {f : At P L}, pc ≠ .body → CurOk (s.cpu c).sie (s.cur c).depth (s.cur c).before f →
      OnCpu (s.cpu c) ((s.cur c).goto f) := fun hne hf =>
    (h.on c).goto hf (by simp [hc]) fun hq => by
      rw [hc] at hq
      exact absurd hq hne
  rw [hc] at hcur
  unfold Kernel.scheduler at hs
  split at hs
  next p =>
    have hlock := h.check c p hp hc
    split at hs
    next hst =>
      rw [← Option.some.inj hs]
      -- a process that is RUNNABLE and on a CPU would have kept its lock
      have hno : ∀ c', (s.cpu c').proc ≠ some p := by
        intro c' hc'
        have hl := h.leaving c' p hc' (by rw [hst]; simp)
        rw [Option.some.inj (hl.symm.trans hlock), hp] at hc'
        cases hc'
      refine h.put rfl (hon (by simp) hcur) (fun _ _ _ hl => hl) (fun c' q hq hne => ?_) ?_ ?_
        h.closed
      · refine h.leaving c' q hq fun hrun => ?_
        by_cases hqp : q = p
        · exact hno c' (hqp ▸ hq)
        · rw [Function.update_of_ne hqp] at hne
          exact hne hrun
      · exact fun _ q hq => by simp [Stack.goto] at hq
      · intro _ q hq
        obtain rfl : p = q := by simpa [Stack.goto] using hq
        exact ⟨hlock, hno⟩
    next =>
      rw [← Option.some.inj hs]
      exact h.goto (hon (by simp) hcur) (by simp) (by simp)
  next p =>
    rw [← Option.some.inj hs]
    exact h.swtchIn hp hc
  next p =>
    rw [← Option.some.inj hs]
    have hd : (s.cur c).depth = 1 := hcur
    refine h.release (hon (by simp) ⟨by rw [hd]; exact Nat.one_pos, .inr ⟨rfl, hd⟩⟩)
      (hon (by simp) ⟨by simp, by simp⟩) fun q hq => ?_
    rw [hp] at hq
    cases hq
  next => cases hs

/-- A statement of the thread on `c`. -/
theorem Inv.exec1 (h : Inv s) (hs : s.exec1 c = some s') : Inv s' := by
  have hadvance : ((s.cur c).advance (s.cpu c)).map (fun y => s.put c y.1 y.2) = some s' →
      Inv s' := fun hm => by
    obtain ⟨y, hy, rfl⟩ := Option.map_eq_some_iff.mp hm
    exact h.advance hy
  have hcur := (h.on c).cur
  unfold Kernel.exec1 at hs
  split at hs
  next l ret hc =>
    rw [← Option.some.inj hs]
    rw [hc] at hcur
    split
    next =>
      exact h.goto ((h.on c).goto ⟨by simp, by simp⟩ (by simp [hc]) fun _ => trivial) (by simp)
        (by simp)
    next =>
      refine h.goto ((h.on c).goto hcur (by simp [hc]) fun hq => ?_) (by simp) (by simp)
      rw [hc] at hq
      exact hq
  next l ret hc =>
    split at hs
    next hl =>
      rw [← Option.some.inj hs]
      exact h.taken hc hl
    next => cases hs
  next was ret hc =>
    rw [← Option.some.inj hs]
    exact h.returned hc
  next intena hc =>
    obtain ⟨p, hp, rfl⟩ := Option.map_eq_some_iff.mp hs
    exact h.swtchOut hp hc
  next pc hc =>
    split at hs
    next s₁ hp hsched =>
      rw [← Option.some.inj hs]
      exact h.scheduler hp hc hsched
    next => exact hadvance hs
  next => exact hadvance hs

/-- A call from kernel code. -/
theorem Inv.call (h : Inv s) {f : Call P L} (hbody : (s.cur c).cur = .code .body)
    (hok : Matched s (.call c f)) (hs : s.call c f = some s') : Inv s' := by
  have hon := h.on c
  have hsie : ∀ sie : Bool, (s.cur c).depth = 0 ∧ (s.cur c).below = [] →
      Inv (s.put c { s.cpu c with sie := sie } (s.cur c)) := by
    intro sie hd
    have hset := hon.setSie (f := .code .body) hd.1 hd.2 sie trivial
    rw [show (s.cur c).goto (.code .body) = s.cur c by rw [← hbody]; rfl] at hset
    exact h.put rfl hset (fun _ _ _ hl => hl) h.leaving (fun _ p hp => by simp [hbody] at hp)
      (fun _ p hp => by simp [hbody] at hp) h.closed
  cases f with
  | acquire l =>
    rw [← Option.some.inj hs]
    exact h.goto (hon.enter hbody ⟨rfl, trivial⟩ fun hf => ⟨hf, rfl⟩) (by simp) (by simp)
  | release l =>
    rw [← Option.some.inj hs]
    exact h.release (hon.enter hbody ⟨hok.1, .inl rfl⟩ fun _ => rfl)
      (hon.enter hbody ⟨by simp, by simp⟩ fun _ => trivial) hok.2
  | pushOff =>
    rw [← Option.some.inj hs]
    exact h.goto (hon.enter hbody ⟨rfl, trivial⟩ fun hf => ⟨hf, rfl⟩) (by simp) (by simp)
  | popOff =>
    rw [← Option.some.inj hs]
    exact h.goto (hon.enter hbody ⟨hok, .inl rfl⟩ fun _ => rfl) (by simp) (by simp)
  | intrOn =>
    rw [← Option.some.inj hs]
    exact hsie true hok
  | intrOff =>
    rw [← Option.some.inj hs]
    exact hsie false hok
  | setState q st =>
    rw [← Option.some.inj hs]
    exact h.setState hok.1 hok.2.2
  | context q =>
    rw [← Option.some.inj hs]
    refine h.context fun c' hc' => ?_
    obtain ⟨hl, hst, hne⟩ := hok
    have hc : c' = c := Option.some.inj ((h.leaving c' q hc' hst).symm.trans hl)
    exact hne (hc ▸ hc')
  | sched =>
    obtain ⟨p, _, rfl⟩ := Option.map_eq_some_iff.mp hs
    exact h.sched hbody p

/-- **One step.** -/
theorem Inv.step (h : Inv s) {a : Act C P L} (hok : Matched s a) (hs : step s a = some s') :
    Inv s' := by
  unfold Intr.step at hs
  split at hs
  next c => exact h.exec1 hs
  next c f =>
    split at hs
    next hbody => exact h.call hbody hok hs
    next => cases hs
  next c p =>
    split at hs
    next hc =>
      rw [← Option.some.inj hs]
      have hcur := (h.on c).cur
      rw [hc.2] at hcur
      refine h.goto ((h.on c).goto ⟨rfl, rfl, hcur⟩ (by simp [hc.2]) fun hq => ?_) (by simp)
        (by simp)
      rw [hc.2] at hq
      cases hq
    next => cases hs
  next c =>
    split at hs
    next hsie =>
      rw [← Option.some.inj hs]
      exact h.intr hsie
    next => cases hs
  next c =>
    split at hs
    next f below _ hb =>
      rw [← Option.some.inj hs]
      exact h.sret hok hb
    next => cases hs

/-- **Interrupts nest.** -/
theorem interrupts_nest (h : Reach step Matched Init s) : Nested s :=
  (h.inv (fun _ => Init.inv) fun hi hok hs => hi.step hok hs).nested

end Runs

instance [DecidableEq C] [DecidableEq P] [DecidableEq L] [Fintype P] (s : Kernel C P L) :
    ∀ a : Act C P L, Decidable (Matched s a)
  | .call c (.release l) => inferInstanceAs (Decidable (0 < (s.cur c).depth ∧
      ∀ p, (s.cpu c).proc = some p → l = .proc p → s.state p = .RUNNING))
  | .call c .popOff => inferInstanceAs (Decidable (0 < (s.cur c).depth))
  | .call c .intrOn | .call c .intrOff =>
    inferInstanceAs (Decidable ((s.cur c).depth = 0 ∧ (s.cur c).below = []))
  | .call c (.setState q st) => inferInstanceAs (Decidable (s.lock (.proc q) = some c ∧
      st ≠ .RUNNING ∧ ((s.cpu c).proc ≠ some q → s.state q ≠ .RUNNING)))
  | .call c (.context q) => inferInstanceAs (Decidable (s.lock (.proc q) = some c ∧
      s.state q ≠ .RUNNING ∧ (s.cpu c).proc ≠ some q))
  | .sret c => inferInstanceAs (Decidable ((s.cur c).depth = 0))
  | .step _ | .call _ (.acquire _) | .call _ .pushOff | .call _ .sched | .dispatch _ _ | .intr _ =>
    inferInstanceAs (Decidable True)

/-- Two CPUs, one process. -/
def booted : Kernel Bool Unit Unit where
  cpu _ := ⟨0, false, false, none⟩
  lock _ := none
  state _ := .RUNNABLE
  stack t := match t with
    | .proc _ => Stack.forkret
    | .sched _ => ⟨.code .intrOn, [], 0, none⟩
  closed := []

theorem booted_init : Init booted where
  noff _ := rfl
  sie _ := rfl
  proc _ := rfl
  lock _ := rfl
  sched _ := rfl
  start _ := rfl
  closed := rfl

/-- The scheduler of `c` finds the process and switches to it. -/
def dispatched (c : Bool) : List (Act Bool Unit Unit) :=
  [.step c, .step c, .dispatch c (), .step c, .step c, .step c, .step c, .step c, .step c, .step c]

/-- With interrupts on, the process takes `p->lock` on the CPU `false` and yields; it releases it
on `true`. -/
def migrated : List (Act Bool Unit Unit) :=
  dispatched false ++
    [.call false (.release (.proc ())), .step false, .step false, .call false .intrOn,
      .call false (.acquire (.proc ())), .step false, .step false, .step false, .step false,
      .step false, .call false (.setState () .RUNNABLE), .call false .sched, .step false,
      .step false, .step false, .step false] ++
  dispatched true ++
    [.step true, .call true (.release (.proc ())), .step true, .step true, .step true]

theorem interrupts_nest_migrated :
    ∃ s, runFrom step booted migrated = some s ∧ s.closed = [⟨(), true, true⟩] ∧
      (s.cpu true).proc = some () ∧ (s.cpu true).sie = true ∧ Nested s := by
  have hobs : (runFrom (guarded step Matched) booted migrated).map
      (fun s => (s.closed, (s.cpu true).proc, (s.cpu true).sie)) =
        some ([⟨(), true, true⟩], some (), true) := by decide +kernel
  obtain ⟨s, hs, hobs⟩ := Option.map_eq_some_iff.mp hobs
  obtain ⟨hclosed, hobs⟩ := Prod.mk.inj hobs
  obtain ⟨hproc, hsie⟩ := Prod.mk.inj hobs
  obtain ⟨hok, hrun⟩ := runFrom_guarded _ hs
  exact ⟨s, hrun, hclosed, hproc, hsie, interrupts_nest (.of_run _ (.start booted_init) hok hrun)⟩

end Xv6.Intr
