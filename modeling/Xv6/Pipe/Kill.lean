import Xv6.Pipe.Strand

/-!
# Kills that miss a process about to sleep

`kkill` sets `p->killed` and makes a SLEEPING process RUNNABLE, all under
`p->lock`. The target tests the flag with `killed(pr)`, which gives `p->lock`
back before it returns, and takes `p->lock` again only in `sleep`, which does
not look at the flag. `pi->lock` is held over the whole stretch but `kkill` does
not take it. A kill that lands in the stretch finds nobody asleep to wake, and
the process goes to sleep killed.

> `KillInv`, in the runs of `KillOutside`: a process that is past the test and
> about to sleep, or asleep, is not killed.

The condition is exact: a kill inside the stretch (`Between`) is followed, with
no further choice, by a sleep that leaves the pipe's lock free and the killed
process on its channel (`sleeps_killed`).
-/

namespace Xv6.Pipe

open Lib

variable {P : Type*} [DecidableEq P]

/-- Past a `killed(pr)` that gave 0, with `sleep` the next thing to happen: for a
writer that is so only if the ring is full. -/
def Between (v : Version) (pi : Pipe) : Ctl → Prop
  | .w .body _ => pi.full (pipeTotal v) = true
  | .w .sleep _ | .r .sleep _ => True
  | _ => False

/-- The step is not a `kkill` of a process between its test and its `sleep`. -/
def KillOutside (v : Version) (s : Sys P) (a : Act P) : Prop :=
  ∀ p, a = .kill p → ¬Between v s.pi (s.ctl p)

/-- With the locks free, no process SLEEPING on a channel of the pipe is killed. -/
def KillSeen (s : Sys P) : Prop :=
  s.lock = none → ∀ p ch, (s.ctl p).asleepOn = some ch → s.killed p = false

/-- About to sleep, or asleep. -/
def Due (v : Version) (pi : Pipe) (c : Ctl) : Prop :=
  Between v pi c ∨ c.asleepOn.isSome = true

structure KillInv (v : Version) (s : Sys P) : Prop where
  base : BaseInv v s
  due : ∀ p, Due v s.pi (s.ctl p) → s.killed p = false

omit [DecidableEq P] in
theorem init_kill {v : Version} {s : Sys P} (h : Init s) : KillInv v s := by
  refine ⟨init_base h, fun p hd => ?_⟩
  rw [h.ctl p] at hd
  rcases hd with hd | hd
  · exact hd.elim
  · cases hd

/-- Waking a process takes it off its channel. -/
theorem not_due_wake {v : Version} {pi : Pipe} {c : Ctl} (h : ¬Between v pi c) :
    ¬Due v pi c.wake := by
  rintro (hb | ha)
  · cases c with
    | user => exact hb
    | w pc f => cases pc <;> first | exact hb | exact h hb
    | r pc f => cases pc <;> first | exact hb | exact h hb
  · rw [asleepOn_wake] at ha
    cases ha

theorem due_wake {v : Version} {pi : Pipe} {c : Ctl} (h : Due v pi c.wake) : Due v pi c := by
  by_contra hn
  exact not_due_wake (fun hb => hn (.inl hb)) h

/-- Off the lock, being due does not depend on the ring. -/
theorem Due.of_ring {v : Version} {pi pi' : Pipe} {c : Ctl} (hc : c.holds = false)
    (h : Due v pi c) : Due v pi' c := by
  rcases h with hb | ha
  · cases c with
    | user => exact hb.elim
    | w pc f => cases pc <;> first | exact hb.elim | cases hc
    | r pc f => cases pc <;> first | exact hb.elim | cases hc
  · exact .inr ha

section

omit [DecidableEq P]

/-- `wakeup` leaves a process alone or wakes it. -/
theorem wakeup_ctl (s : Sys P) (ch : Chan) (q : P) :
    (s.wakeup ch).ctl q = s.ctl q ∨ (s.wakeup ch).ctl q = (s.ctl q).wake := by
  unfold Sys.wakeup
  dsimp only
  split
  · exact .inr rfl
  · exact .inl rfl

theorem wakeReaders_ctl (v : Version) (s : Sys P) (f : WFrame) (q : P) :
    (s.wakeReaders v f).ctl q = s.ctl q ∨ (s.wakeReaders v f).ctl q = (s.ctl q).wake := by
  unfold Sys.wakeReaders
  split
  · split
    · exact wakeup_ctl s _ q
    · exact .inl rfl
  · exact wakeup_ctl s _ q

theorem wakeWriters_ctl (v : Version) (s : Sys P) (f : RFrame) (q : P) :
    (s.wakeWriters v f).ctl q = s.ctl q ∨ (s.wakeWriters v f).ctl q = (s.ctl q).wake := by
  unfold Sys.wakeWriters
  split
  · split
    · exact wakeup_ctl s _ q
    · exact .inl rfl
  · exact wakeup_ctl s _ q

end

/-- A step moves one process `p` to a place `c` and may wake others; the ring
changes only if `p` holds the lock. Then only `p` has to be looked at. -/
theorem KillInv.move {v : Version} {s s' : Sys P} (h : KillInv v s) (hb : BaseInv v s') {p : P}
    {c : Ctl} (hk : s'.killed = s.killed) (hp : s'.ctl p = c)
    (hq : ∀ q, q ≠ p → s'.ctl q = s.ctl q ∨ s'.ctl q = (s.ctl q).wake)
    (hpi : s'.pi = s.pi ∨ s.lock = some p) (hc : Due v s'.pi c → s.killed p = false) :
    KillInv v s' := by
  refine ⟨hb, fun q hd => ?_⟩
  rw [hk]
  by_cases he : q = p
  · subst he
    exact hc (hp ▸ hd)
  · have hd' : Due v s'.pi (s.ctl q) := by
      rcases hq q he with heq | heq
      · exact heq ▸ hd
      · exact due_wake (heq ▸ hd)
    rcases hpi with hpi | hl
    · exact h.due q (hpi ▸ hd')
    · refine h.due q (hd'.of_ring ?_)
      cases hh : (s.ctl q).holds with
      | false => rfl
      | true =>
        have hlq := (h.base.lock q).mp hh
        rw [hl, Option.some.injEq] at hlq
        exact absurd hlq.symm he

/-- The common case: `p` goes to `c` and nobody else is touched. -/
theorem KillInv.goto {v : Version} {s s' : Sys P} (h : KillInv v s) (hb : BaseInv v s') {p : P}
    {c : Ctl} (hk : s'.killed = s.killed) (hctl : s'.ctl = Function.update s.ctl p c)
    (hpi : s'.pi = s.pi ∨ s.lock = some p) (hc : Due v s'.pi c → s.killed p = false) :
    KillInv v s' :=
  h.move hb hk (by rw [hctl, Function.update_self])
    (fun q hq => .inl (by rw [hctl, Function.update_of_ne hq])) hpi hc

/-- A place that is not before a `sleep`. -/
theorem not_due {v : Version} {pi : Pipe} {c : Ctl} {b : Prop} (hb : ¬Between v pi c)
    (ha : c.asleepOn = none) : Due v pi c → b := by
  intro hd
  rcases hd with hd | hd
  · exact absurd hd hb
  · rw [ha] at hd
    cases hd

/-- **Every step but a kill inside the stretch keeps the invariant.** -/
theorem kill_step {v : Version} {s s' : Sys P} {a : Act P} (h : KillInv v s)
    (hok : KillOutside v s a) (hs : step v s a = some s') : KillInv v s' := by
  have hb := base_step h.base hs
  cases step_cases hs with
  | @kill p =>
    refine ⟨hb, fun q hd => ?_⟩
    by_cases hq : q = p
    · subst hq
      change Due v s.pi (Function.update s.ctl q _ q) at hd
      rw [Function.update_self] at hd
      exact absurd hd (not_due_wake (hok q rfl))
    · change Due v s.pi (Function.update s.ctl p _ q) at hd
      rw [Function.update_of_ne hq] at hd
      show Function.update s.killed p true q = false
      rw [Function.update_of_ne hq]
      exact h.due q hd
  | user hc => exact ⟨hb, h.due⟩
  | write hc => exact h.goto hb rfl rfl (.inl rfl) (not_due id rfl)
  | read hc => exact h.goto hb rfl rfl (.inl rfl) (not_due id rfl)
  | @close writable hl =>
    -- nobody holds the lock, so nobody stands where the ring is looked at
    refine ⟨hb, fun q hd => ?_⟩
    have hk : (s.pipeclose writable).killed = s.killed := by cases writable <;> rfl
    have hw : (s.pipeclose writable).ctl q = s.ctl q ∨
        (s.pipeclose writable).ctl q = (s.ctl q).wake := by
      cases writable
      · exact wakeup_ctl { s with pi := { s.pi with readopen := false } } _ q
      · exact wakeup_ctl { s with pi := { s.pi with writeopen := false } } _ q
    have hd' : Due v (s.pipeclose writable).pi (s.ctl q) := by
      rcases hw with heq | heq
      · exact heq ▸ hd
      · exact due_wake (heq ▸ hd)
    rw [hk]
    refine h.due q (hd'.of_ring ?_)
    cases hh : (s.ctl q).holds with
    | false => rfl
    | true =>
      have hlq := (h.base.lock q).mp hh
      rw [hl] at hlq
      cases hlq
  | wEnter hl hc => exact h.goto hb rfl rfl (.inl rfl) (not_due id rfl)
  | wResume hl hc => exact h.goto hb rfl rfl (.inl rfl) (not_due id rfl)
  | rEnter hl hc hpc => exact h.goto hb rfl rfl (.inl rfl) (not_due id rfl)
  | wFail hl hc hi hstop => exact h.goto hb rfl rfl (.inl rfl) (not_due id rfl)
  | wTest hl hc hi ho hk => exact h.goto hb rfl rfl (.inl rfl) fun _ => hk
  | wEnd hl hc hi => exact h.goto hb rfl rfl (.inl rfl) (not_due id rfl)
  | @wFull p r f hl hc hf =>
    refine h.move hb rfl (Function.update_self _ _ _) (fun q hq => ?_) (.inl rfl)
      fun _ => h.due p (.inl (hc ▸ hf))
    show Function.update (s.wakeup .nread).ctl p _ q = _ ∨
      Function.update (s.wakeup .nread).ctl p _ q = _
    rw [Function.update_of_ne hq]
    exact wakeup_ctl s .nread q
  | @wPut p r f hl hc hf =>
    refine h.goto hb rfl rfl (.inr hl) (not_due ?_ ?_)
    · split <;> exact id
    · split <;> rfl
  | @wSleep p r f hl hc =>
    exact h.goto hb rfl rfl (.inl rfl) fun _ => h.due p (.inl (by rw [hc]; trivial))
  | @wLeave p r f hl hc =>
    refine h.move hb (killed_step (fun q hq => by cases hq) hs)
      (Function.update_self _ _ _) (fun q hq => ?_)
      (.inr hl) (not_due id rfl)
    show Function.update (s.wakeReaders v f).ctl p _ q = _ ∨
      Function.update (s.wakeReaders v f).ctl p _ q = _
    rw [Function.update_of_ne hq]
    exact wakeReaders_ctl v s f q
  | rWait hl hc he ho => exact h.goto hb rfl rfl (.inl rfl) (not_due id rfl)
  | rStart hl hc hw => exact h.goto hb rfl rfl (.inl rfl) (not_due id rfl)
  | rFail hl hc hk => exact h.goto hb rfl rfl (.inl rfl) (not_due id rfl)
  | rTest hl hc hk => exact h.goto hb rfl rfl (.inl rfl) fun _ => hk
  | @rSleep p r f hl hc =>
    exact h.goto hb rfl rfl (.inl rfl) fun _ => h.due p (.inl (by rw [hc]; trivial))
  | @rGet p r f hl hc hi he =>
    refine h.goto hb rfl rfl (.inr hl) (not_due ?_ ?_)
    · split <;> exact id
    · split <;> rfl
  | rEnd hl hc hi => exact h.goto hb rfl rfl (.inl rfl) (not_due id rfl)
  | @rLeave p r f hl hc =>
    refine h.move hb (killed_step (fun q hq => by cases hq) hs)
      (Function.update_self _ _ _) (fun q hq => ?_)
      (.inr hl) (not_due id rfl)
    show Function.update (s.wakeWriters v f).ctl p _ q = _ ∨
      Function.update (s.wakeWriters v f).ctl p _ q = _
    rw [Function.update_of_ne hq]
    exact wakeWriters_ctl v s f q

theorem reach_kill {v : Version} {s : Sys P} (h : Reach (step v) (KillOutside v) Init s) :
    KillInv v s :=
  h.inv (fun _ => init_kill) fun hi hok hs => kill_step hi hok hs

omit [DecidableEq P] in
theorem KillInv.killSeen {v : Version} {s : Sys P} (h : KillInv v s) : KillSeen s :=
  fun _ p _ ha => h.due p (.inr (by rw [ha]; rfl))

/-! ## The condition is exact -/

/-- From `sleep(chan, &pi->lock)` on, a killed holder of the lock ends up SLEEPING
with the lock free. -/
theorem sleep_killed {v : Version} {s : Sys P} {p : P} (hl : s.lock = some p)
    (hk : s.killed p = true)
    (hc : (∃ f, s.ctl p = .w .sleep f) ∨ ∃ f, s.ctl p = .r .sleep f) :
    ∃ s', step v s (.run p .ok) = some s' ∧ ¬KillSeen s' := by
  have hstep : step v s (.run p .ok) = s.run v p .ok := if_pos hl
  have hgo : ∀ c, (({ s with lock := none } : Sys P).goto p c).ctl p = c := by
    intro c
    simp only [Sys.goto, Function.update_self]
  rcases hc with ⟨f, hc⟩ | ⟨f, hc⟩
  · refine ⟨{ s with lock := none }.goto p (.w .asleep f), ?_, fun hseen => ?_⟩
    · rw [hstep]
      unfold Sys.run
      rw [hc]
    · have hks := hseen rfl p .nwrite (congrArg Ctl.asleepOn (hgo _))
      exact absurd (hk.symm.trans hks) (by decide)
  · refine ⟨{ s with lock := none }.goto p (.r .asleep f), ?_, fun hseen => ?_⟩
    · rw [hstep]
      unfold Sys.run
      rw [hc]
    · have hks := hseen rfl p .nread (congrArg Ctl.asleepOn (hgo _))
      exact absurd (hk.symm.trans hks) (by decide)

/-- A `kkill` inside the stretch, and then the target's own next steps, show it
SLEEPING and killed with the lock free. -/
theorem sleeps_killed {v : Version} {s : Sys P} {p : P} (h : BaseInv v s)
    (hbtw : Between v s.pi (s.ctl p)) :
    ∃ as s', (∀ a ∈ as, a = .run p .ok) ∧
      runFrom (step v) s (.kill p :: as) = some s' ∧ ¬KillSeen s' := by
  have hholds : (s.ctl p).holds = true := by
    cases hc : s.ctl p with
    | user => rw [hc] at hbtw; exact hbtw.elim
    | w pc f => rw [hc] at hbtw; cases pc <;> first | rfl | exact hbtw.elim
    | r pc f => rw [hc] at hbtw; cases pc <;> first | rfl | exact hbtw.elim
  have hl : (s.kkill p).lock = some p := (h.lock p).mp hholds
  have hk : (s.kkill p).killed p = true := Function.update_self _ _ _
  have hctl : (s.kkill p).ctl p = s.ctl p :=
    (Function.update_self _ _ _).trans (wake_of_holds hholds)
  have hkill : step v s (.kill p) = some (s.kkill p) := rfl
  have hone : ∀ s₁ : Sys P, s₁.lock = some p → s₁.killed p = true →
      ((∃ f, s₁.ctl p = .w .sleep f) ∨ ∃ f, s₁.ctl p = .r .sleep f) →
      ∃ s', runFrom (step v) s₁ [.run p .ok] = some s' ∧ ¬KillSeen s' := by
    intro s₁ hl₁ hk₁ hc₁
    obtain ⟨s', hs', hbad⟩ := sleep_killed (v := v) hl₁ hk₁ hc₁
    refine ⟨s', ?_, hbad⟩
    rw [runFrom_cons, hs']
    rfl
  cases hc : s.ctl p with
  | user => rw [hc] at hbtw; exact hbtw.elim
  | w pc f =>
    rw [hc] at hbtw
    cases pc with
    | sleep =>
      obtain ⟨s', hs', hbad⟩ := hone _ hl hk (.inl ⟨f, hctl.trans hc⟩)
      refine ⟨[.run p .ok], s', fun a ha => List.mem_singleton.mp ha, ?_, hbad⟩
      rw [runFrom_cons, hkill]
      exact hs'
    | body =>
      -- one more statement: the ring is full, so `wakeup(&pi->nread)` comes first
      let s₁ := ((s.kkill p).wakeup .nread).goto p (.w .sleep f)
      have hs₁ : step v (s.kkill p) (.run p .ok) = some s₁ := by
        show (if (s.kkill p).lock = some p then (s.kkill p).run v p .ok else none) = _
        rw [if_pos hl]
        unfold Sys.run
        rw [hctl.trans hc]
        exact if_pos hbtw
      obtain ⟨s', hs', hbad⟩ := hone s₁ hl hk (.inl ⟨f, Function.update_self _ _ _⟩)
      refine ⟨[.run p .ok, .run p .ok], s', fun a ha => ?_, ?_, hbad⟩
      · rcases List.mem_cons.mp ha with rfl | ha
        · rfl
        · exact List.mem_singleton.mp ha
      · rw [runFrom_cons, hkill, Option.bind_some, runFrom_cons, hs₁]
        exact hs'
    | _ => exact hbtw.elim
  | r pc f =>
    rw [hc] at hbtw
    cases pc with
    | sleep =>
      obtain ⟨s', hs', hbad⟩ := hone _ hl hk (.inr ⟨f, hctl.trans hc⟩)
      refine ⟨[.run p .ok], s', fun a ha => List.mem_singleton.mp ha, ?_, hbad⟩
      rw [runFrom_cons, hkill]
      exact hs'
    | _ => exact hbtw.elim

/-- **When a kill reaches a blocked pipe user.** In every version and every run
whose kills all miss the stretch between a target's `killed(pr)` and its `sleep`,
no state with the locks free has a killed process SLEEPING on the pipe; and in
whatever reachable state a kill does land in that stretch, the target's own next
steps lead to such a process. -/
theorem kill_reaches_sleeper (v : Version) :
    (∀ s : Sys P, Reach (step v) (KillOutside v) Init s → KillSeen s) ∧
    ∀ (s : Sys P) (p : P), Reach (step v) Any Init s → Between v s.pi (s.ctl p) →
      ∃ as s', (∀ a ∈ as, a = .run p .ok) ∧
        runFrom (step v) s (.kill p :: as) = some s' ∧ ¬KillSeen s' := by
  refine ⟨fun s hs => (reach_kill hs).killSeen, fun s p hs hbtw => ?_⟩
  have hb : BaseInv v s := hs.inv (fun _ => init_base) fun hi _ hst => base_step hi hst
  exact sleeps_killed hb hbtw

/-- `true` finds the pipe empty and itself alive, is killed, and goes to sleep. -/
def killBeforeSleep : List (Act Bool) :=
  [.read true (.of 0 1), .acquire true, .run true .ok, .run true .ok, .kill true, .run true .ok]

/-- What an observer sees of `true`: the lock, its channel and its flag. -/
def sleeperView (s : Sys Bool) : Option Bool × Option Chan × Bool :=
  (s.lock, (s.ctl true).asleepOn, s.killed true)

/-- In v7 the reader is SLEEPING on `&pi->nread` with `killed` set and no lock
held. -/
theorem killed_reader_sleeps :
    (runFrom (step .v7) (Sys.fresh fun _ _ => 0) killBeforeSleep).map sleeperView
      = some (none, some .nread, true) ∧
    ¬∀ (v : Version) (s : Sys Bool), Reach (step v) Any Init s → KillSeen s := by
  have hrun : (runFrom (step .v7) (Sys.fresh fun _ _ => 0) killBeforeSleep).map sleeperView
      = some (none, some .nread, true) := by decide
  refine ⟨hrun, fun hall => ?_⟩
  obtain ⟨s, hs, hv⟩ := Option.map_eq_some_iff.mp hrun
  obtain ⟨hl, hv⟩ := Prod.mk.inj hv
  obtain ⟨hr, hk⟩ := Prod.mk.inj hv
  have hreach : Reach (step .v7) Any Init s :=
    .of_run _ (.start (fresh_init _)) (RunOk.any _ _ _) hs
  have hf : s.killed true = false := hall .v7 s hreach hl true .nread hr
  exact absurd (hk.symm.trans hf) (by decide)

instance (v : Version) (pi : Pipe) (c : Ctl) : Decidable (Between v pi c) :=
  match c with
  | .user => inferInstanceAs (Decidable False)
  | .w pc _ =>
    match pc with
    | .body => inferInstanceAs (Decidable (pi.full (pipeTotal v) = true))
    | .sleep => inferInstanceAs (Decidable True)
    | .enter | .top | .asleep | .woken | .leave => inferInstanceAs (Decidable False)
  | .r pc _ =>
    match pc with
    | .sleep => inferInstanceAs (Decidable True)
    | .enter | .wait | .killed | .asleep | .woken | .loop | .leave =>
      inferInstanceAs (Decidable False)

instance (v : Version) (s : Sys P) (a : Act P) : Decidable (KillOutside v s a) :=
  match a with
  | .kill p => decidable_of_iff (¬Between v s.pi (s.ctl p))
      ⟨fun h q hq => by cases hq; exact h, fun h => h p rfl⟩
  | .user _ _ | .write _ _ | .read _ _ | .close _ | .acquire _ | .run _ _ =>
    .isTrue fun q hq => by cases hq

/-- The reader is killed once it is asleep: it is made RUNNABLE and the next
`killed(pr)` sends it home; the kill one statement earlier is the one that is
missed. -/
theorem kill_reaches_sleeper_woken :
    ∃ s s' : Sys Bool,
      runFrom (step .v7) (Sys.fresh fun _ _ => 0) (readerSleeps ++ [.kill true]) = some s ∧
      s.killed true = true ∧ (s.ctl true).asleepOn = none ∧ KillSeen s ∧
      runFrom (step .v7) (Sys.fresh fun _ _ => 0) (readerSleeps.take 4) = some s' ∧
      ∃ as t, runFrom (step .v7) s' (.kill true :: as) = some t ∧ ¬KillSeen t := by
  have hrun : (runFrom (guarded (step .v7) (KillOutside .v7)) (Sys.fresh fun _ _ => 0)
      (readerSleeps ++ [.kill true])).map sleeperView = some (none, none, true) := by decide
  obtain ⟨s, hs, hv⟩ := Option.map_eq_some_iff.mp hrun
  obtain ⟨hok, hs⟩ := runFrom_guarded _ hs
  obtain ⟨hl, hv⟩ := Prod.mk.inj hv
  obtain ⟨hr, hk⟩ := Prod.mk.inj hv
  have hreach : Reach (step .v7) (KillOutside .v7) Init s :=
    .of_run _ (.start (fresh_init _)) hok hs
  have hbtw : (runFrom (step .v7) (Sys.fresh fun _ _ => 0) (readerSleeps.take 4)).map
      (fun s : Sys Bool => decide (Between .v7 s.pi (s.ctl true))) = some true := by decide
  obtain ⟨s', hs', hb⟩ := Option.map_eq_some_iff.mp hbtw
  have hreach' : Reach (step .v7) Any Init s' :=
    .of_run _ (.start (fresh_init _)) (RunOk.any _ _ _) hs'
  obtain ⟨as, t, -, ht, hbad⟩ :=
    (kill_reaches_sleeper .v7).2 s' true hreach' (of_decide_eq_true hb)
  exact ⟨s, s', hs, hk, hr, (kill_reaches_sleeper .v7).1 s hreach, hs', as, t, ht, hbad⟩

end Xv6.Pipe
