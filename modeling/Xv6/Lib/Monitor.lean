import Xv6.Lib.Settle
import Xv6.Lib.Tally

/-!
# Monitors

Code that under one lock waits for something to become true, on one sleep channel, and then does
what it was called for:

    acquire; start; while(not act) { if(quits) return; sleep; }  act; if(wakes) wakeup; release

`act` is at once the test and what is done if it succeeds. `sleep` gives up the lock and marks the
process in one step, and takes the lock again at its end. `kill` may come at any time, without the
lock, and makes its process runnable.

> Seen from outside it is an atomic step that is not enabled while it would have to wait
> (`Kept.refines`). If whoever may enable another's step calls `wakeup` (`Keeps`), nobody sleeps
> whose step is enabled (`Well.blocked`), and all that are in the monitor get out of it or sleep
> so (`settles`).
-/

namespace Xv6.Lib

/-- The code; the calls are `O`. -/
structure Monitor (σ P O : Type*) where
  start : σ → P → O → O
  act : σ → P → O → Option σ
  wakes : σ → P → O → Bool
  quits : σ → P → O → Bool
  kill : σ → P → σ

/-- What it is to be. -/
inductive Deed (P O : Type*)
  | act (p : P) (o : O)
  | kill (p : P)

namespace Monitor

/-- Places: outside; before `acquire`; at the test; past `quits`; asleep; made runnable; before
`wakeup`. -/
inductive Place (O : Type*)
  | out
  | enter (o : O)
  | test (o : O)
  | sleep (o : O)
  | asleep (o : O)
  | woken (o : O)
  | wake
  deriving DecidableEq

structure Sys (σ P O : Type*) where
  shared : σ
  lock : Option P
  pc : P → Place O

inductive Act (P O : Type*)
  | call (p : P) (o : O)
  | acquire (p : P)
  | run (p : P)
  | kill (p : P)

namespace Place

variable {O : Type*}

def isOut : Place O → Bool
  | .out => true
  | _ => false

def holds : Place O → Bool
  | .test _ | .sleep _ | .wake => true
  | .out | .enter _ | .asleep _ | .woken _ => false

def waking : Place O → Bool
  | .wake => true
  | _ => false

/-- What a process sleeps for, or is about to. -/
def waits : Place O → Option O
  | .sleep o | .asleep o => some o
  | _ => none

/-- The call that has not done yet what it is for. -/
def calls : Place O → Option O
  | .enter o | .test o | .sleep o | .asleep o | .woken o => some o
  | .out | .wake => none

def wakeup : Place O → Place O
  | .asleep o => .woken o
  | c => c

/-- A call has been made, and what it does has not been done. -/
def cost : Place O → Nat
  | .out => 0
  | .wake => 1
  | _ => 2

/-- How far from falling asleep. -/
def awake : Place O → Nat
  | .enter _ | .woken _ => 3
  | .test _ => 2
  | .sleep _ => 1
  | .out | .asleep _ | .wake => 0

theorem holds_wakeup (c : Place O) : c.wakeup.holds = c.holds := by cases c <;> rfl

theorem calls_wakeup (c : Place O) : c.wakeup.calls = c.calls := by cases c <;> rfl

theorem waking_wakeup (c : Place O) : c.wakeup.waking = c.waking := by cases c <;> rfl

theorem cost_wakeup (c : Place O) : c.wakeup.cost = c.cost := by cases c <;> rfl

/-- Whoever waits after a `wakeup` is not asleep yet. -/
theorem waits_wakeup {c : Place O} {o : O} (h : c.wakeup.waits = some o) :
    c.holds = true ∧ c.waits = some o := by
  cases c with
  | sleep => exact ⟨rfl, h⟩
  | asleep | out | enter | test | woken | wake => cases h

end Place

variable {σ P O : Type*} [DecidableEq P]

def Sys.goto (t : Sys σ P O) (p : P) (c : Place O) : Sys σ P O :=
  { t with pc := Function.update t.pc p c }

/-- The next statement of the process with the lock. -/
def run (M : Monitor σ P O) (t : Sys σ P O) (p : P) : Option (Sys σ P O) :=
  match t.pc p with
  | .test o =>
    match M.act t.shared p o with
    | some x =>
      if M.wakes t.shared p o then some ({ t with shared := x }.goto p .wake)
      else some ({ t with shared := x, lock := none }.goto p .out)
    | none =>
      if M.quits t.shared p o then some ({ t with lock := none }.goto p .out)
      else some (t.goto p (.sleep o))
  | .sleep o => some ({ t with lock := none }.goto p (.asleep o))
  | .wake => some ({ t with lock := none, pc := fun q => (t.pc q).wakeup }.goto p .out)
  | _ => none

def step (M : Monitor σ P O) (t : Sys σ P O) : Act P O → Option (Sys σ P O)
  | .call p o => if (t.pc p).isOut then some (t.goto p (.enter o)) else none
  | .acquire p =>
    if t.lock = none then
      match t.pc p with
      | .enter o => some ({ t with lock := some p }.goto p (.test (M.start t.shared p o)))
      | .woken o => some ({ t with lock := some p }.goto p (.test o))
      | _ => none
    else none
  | .run p => M.run t p
  | .kill p => some ({ t with shared := M.kill t.shared p }.goto p (t.pc p).wakeup)

/-- The atomic steps. -/
def deed (M : Monitor σ P O) (s : σ) : Deed P O → Option σ
  | .act p o => M.act s p o
  | .kill p => some (M.kill s p)

/-- The atomic step that a step of the code is, if it is one. -/
def view (M : Monitor σ P O) (t : Sys σ P O) : Act P O → Option (Deed P O)
  | .run p =>
    match t.pc p with
    | .test o => if (M.act t.shared p o).isSome then some (.act p o) else none
    | _ => none
  | .kill p => some (.kill p)
  | .call _ _ | .acquire _ => none

/-- Calls are made where they may be. -/
def Ok (may : σ → P → O → Prop) (t : Sys σ P O) : Act P O → Prop
  | .call p o => may t.shared p o
  | .acquire _ | .run _ | .kill _ => True

instance (may : σ → P → O → Prop) [∀ s p o, Decidable (may s p o)] (t : Sys σ P O) :
    ∀ a, Decidable (Ok may t a)
  | .call p o => inferInstanceAs (Decidable (may t.shared p o))
  | .acquire _ | .run _ | .kill _ => .isTrue trivial

/-- The atomic steps of such calls. -/
def DeedOk (may : σ → P → O → Prop) (s : σ) : Deed P O → Prop
  | .act p o => may s p o
  | .kill _ => True

/-- Nobody is in the monitor. -/
structure Init (init : σ → Prop) (t : Sys σ P O) : Prop where
  shared : init t.shared
  lock : t.lock = none
  pc : ∀ p, t.pc p = .out

/-! ## What a step can be -/

inductive Move (M : Monitor σ P O) (t : Sys σ P O) : Act P O → Sys σ P O → Prop
  | call {p : P} {o : O} : t.pc p = .out → Move M t (.call p o) (t.goto p (.enter o))
  | enter {p : P} {o : O} : t.lock = none → t.pc p = .enter o →
      Move M t (.acquire p) ({ t with lock := some p }.goto p (.test (M.start t.shared p o)))
  | resume {p : P} {o : O} : t.lock = none → t.pc p = .woken o →
      Move M t (.acquire p) ({ t with lock := some p }.goto p (.test o))
  | tell {p : P} {o : O} {x : σ} : t.pc p = .test o → M.act t.shared p o = some x →
      M.wakes t.shared p o = true → Move M t (.run p) ({ t with shared := x }.goto p .wake)
  | done {p : P} {o : O} {x : σ} : t.pc p = .test o → M.act t.shared p o = some x →
      M.wakes t.shared p o = false →
      Move M t (.run p) ({ t with shared := x, lock := none }.goto p .out)
  | quit {p : P} {o : O} : t.pc p = .test o → M.act t.shared p o = none →
      Move M t (.run p) ({ t with lock := none }.goto p .out)
  | wait {p : P} {o : O} : t.pc p = .test o → M.act t.shared p o = none →
      Move M t (.run p) (t.goto p (.sleep o))
  | sleep {p : P} {o : O} : t.pc p = .sleep o →
      Move M t (.run p) ({ t with lock := none }.goto p (.asleep o))
  | wakeup {p : P} : t.pc p = .wake →
      Move M t (.run p) ({ t with lock := none, pc := fun q => (t.pc q).wakeup }.goto p .out)
  | kill {p : P} :
      Move M t (.kill p) ({ t with shared := M.kill t.shared p }.goto p (t.pc p).wakeup)

variable {M : Monitor σ P O} {t t' : Sys σ P O} {p : P} {a : Act P O}

omit [DecidableEq P] in
theorem out_of_isOut {c : Place O} (h : c.isOut = true) : c = .out := by
  cases c with
  | out => rfl
  | enter | test | sleep | asleep | woken | wake => cases h

theorem run_move (h : M.run t p = some t') : Move M t (.run p) t' := by
  unfold run at h
  split at h
  next o hp =>
    split at h
    next x hx =>
      split at h
      next hw => exact Option.some.inj h ▸ .tell hp hx hw
      next hw => exact Option.some.inj h ▸ .done hp hx (eq_false_of_ne_true hw)
    next hx =>
      split at h
      next => exact Option.some.inj h ▸ .quit hp hx
      next => exact Option.some.inj h ▸ .wait hp hx
  next o hp => exact Option.some.inj h ▸ .sleep hp
  next hp => exact Option.some.inj h ▸ .wakeup hp
  next => cases h

theorem step_move (h : M.step t a = some t') : Move M t a t' := by
  cases a with
  | call p o =>
    unfold step at h
    dsimp only at h
    split at h
    next hp => exact Option.some.inj h ▸ .call (out_of_isOut hp)
    next => cases h
  | acquire p =>
    unfold step at h
    dsimp only at h
    split at h
    next hl =>
      split at h
      next o hp => exact Option.some.inj h ▸ .enter hl hp
      next o hp => exact Option.some.inj h ▸ .resume hl hp
      next => cases h
    next => cases h
  | run p => exact run_move h
  | kill p => exact Option.some.inj h ▸ .kill

/-! ## From outside -/

omit [DecidableEq P] in
theorem view_test {o : O} {x : σ} (hp : t.pc p = .test o) (hx : M.act t.shared p o = some x) :
    M.view t (.run p) = some (.act p o) := by
  unfold view
  dsimp only
  rw [hp]
  dsimp only
  rw [hx]
  rfl

/-- A step of the code is an atomic step, or nothing. -/
theorem Move.deed (h : Move M t a t') :
    M.view t a = none ∧ t'.shared = t.shared ∨
      ∃ d, M.view t a = some d ∧ M.deed t.shared d = some t'.shared := by
  cases h with
  | tell hp hx hw => exact Or.inr ⟨_, view_test hp hx, hx⟩
  | done hp hx hw => exact Or.inr ⟨_, view_test hp hx, hx⟩
  | kill => exact Or.inr ⟨_, rfl, rfl⟩
  | quit hp hx | wait hp hx =>
    refine Or.inl ⟨?_, rfl⟩
    unfold view
    dsimp only
    rw [hp]
    dsimp only
    rw [hx]
    rfl
  | sleep hp | wakeup hp =>
    refine Or.inl ⟨?_, rfl⟩
    unfold view
    dsimp only
    rw [hp]
  | call | enter | resume => exact Or.inl ⟨rfl, rfl⟩

/-! ## Sleepers -/

/-- Where a step makes another one possible, there is a `wakeup`; and whoever may make a call still
may when others have made theirs. -/
structure Keeps (M : Monitor σ P O) (may : σ → P → O → Prop) (Inv : σ → Prop) : Prop where
  start : ∀ {s : σ} {p : P} {o : O}, Inv s → may s p o → may s p (M.start s p o)
  inv : ∀ {s s' : σ} {d : Deed P O}, Inv s → DeedOk may s d → M.deed s d = some s' → Inv s'
  act : ∀ {s s' : σ} {p q : P} {o o' : O}, Inv s → M.act s p o = some s' →
    M.wakes s p o = false → q ≠ p → M.act s q o' = none → M.act s' q o' = none
  kill : ∀ {s : σ} {p q : P} {o : O}, Inv s → M.act s q o = none → M.act (M.kill s p) q o = none
  others : ∀ {s s' : σ} {p q : P} {o o' : O}, Inv s → may s p o → M.act s p o = some s' → q ≠ p →
    may s q o' → may s' q o'
  killed : ∀ {s : σ} {p q : P} {o : O}, may s q o → may (M.kill s p) q o

/-- Who holds the lock, what the sleepers wait for, and that all the calls may be made. -/
structure Well (M : Monitor σ P O) (may : σ → P → O → Prop) (t : Sys σ P O) : Prop where
  lock : ∀ p, (t.pc p).holds = true ↔ t.lock = some p
  waits : ∀ p o, (t.pc p).waits = some o →
    M.act t.shared p o = none ∨ ∃ q, (t.pc q).waking = true
  may : ∀ p o, (t.pc p).calls = some o → may t.shared p o

/-- The process `p` has the lock, and goes on to `c`. -/
theorem lock_update (h : ∀ q, (t.pc q).holds = true ↔ t.lock = some q) {pc : P → Place O}
    (hpc : ∀ q, (pc q).holds = (t.pc q).holds) {l : Option P} {c : Place O}
    (hc : c.holds = true ↔ l = some p) (hl : ∀ q ≠ p, l = some q ↔ t.lock = some q) (q : P) :
    (Function.update pc p c q).holds = true ↔ l = some q := by
  by_cases hq : q = p
  · rw [hq, Function.update_self]
    exact hc
  · rw [Function.update_of_ne hq, hpc, hl q hq]
    exact h q

theorem waits_update {pc : P → Place O} {c : Place O} (hc : c.waits = none) {q : P} {o : O}
    (h : (Function.update pc p c q).waits = some o) : q ≠ p ∧ (pc q).waits = some o := by
  by_cases hq : q = p
  · rw [hq, Function.update_self, hc] at h
    cases h
  · rw [Function.update_of_ne hq] at h
    exact ⟨hq, h⟩

theorem calls_update {R : P → O → Prop} {pc : P → Place O} {c : Place O}
    (hp : ∀ o, c.calls = some o → R p o) (h : ∀ q ≠ p, ∀ o, (pc q).calls = some o → R q o) (q : P)
    (o : O) (hq : (Function.update pc p c q).calls = some o) : R q o := by
  by_cases hqp : q = p
  · subst hqp
    rw [Function.update_self] at hq
    exact hp o hq
  · rw [Function.update_of_ne hqp] at hq
    exact h q hqp o hq

theorem waking_update {pc : P → Place O} {c : Place O} (hp : (pc p).waking = false)
    (h : ∃ q, (pc q).waking = true) : ∃ q, (Function.update pc p c q).waking = true := by
  obtain ⟨q, hq⟩ := h
  refine ⟨q, ?_⟩
  rw [Function.update_of_ne]
  · exact hq
  · intro he
    rw [he, hp] at hq
    cases hq

theorem Well.move {Inv : σ → Prop} {may : σ → P → O → Prop} (hk : M.Keeps may Inv)
    (hi : Inv t.shared) (h : Well M may t) (hok : Ok may t a) (hm : Move M t a t') :
    Well M may t' := by
  have hleft : ∀ {p q : P}, t.lock = some p → q ≠ p →
      ((none : Option P) = some q ↔ t.lock = some q) :=
    fun {p q} hl hq => ⟨nofun, fun hq' => absurd (Option.some.inj (hl.symm.trans hq')).symm hq⟩
  have htaken : ∀ {p q : P}, t.lock = none → q ≠ p → (some p = some q ↔ t.lock = some q) :=
    fun {p q} hl hq =>
      ⟨fun he => absurd (Option.some.inj he).symm hq, fun he => nomatch hl.symm.trans he⟩
  have hheld : ∀ {p : P} {c : Place O}, t.pc p = c → c.holds = true → t.lock = some p :=
    fun {p c} hp hc => (h.lock p).mp (by rw [hp]; exact hc)
  have hcall : ∀ {p : P} {c : Place O}, t.pc p = c → ∀ o, c.calls = some o → may t.shared p o :=
    fun {p c} hp o hc => h.may p o (by rw [hp]; exact hc)
  -- a step that changes nothing for the others, and does not put its process to sleep
  have hquiet : ∀ {p : P} {c c' : Place O} {l : Option P}, t.pc p = c → c.waking = false →
      c'.waits = none → (∀ o, c'.calls = some o → may t.shared p o) →
      (c'.holds = true ↔ l = some p) → (∀ q ≠ p, l = some q ↔ t.lock = some q) →
      Well M may ({ t with lock := l }.goto p c') := fun {p c c' l} hp hc hw hmay hc' hl => by
    refine ⟨lock_update h.lock (fun _ => rfl) hc' hl, fun q o hq => ?_,
      calls_update hmay fun q _ => h.may q⟩
    obtain ⟨-, hq⟩ := waits_update hw hq
    exact (h.waits q o hq).imp_right (waking_update (by rw [hp]; exact hc))
  cases hm with
  | @call p o hp =>
    have hlock : t.lock ≠ some p := fun hl => by
      have hholds := (h.lock p).mpr hl
      rw [hp] at hholds
      cases hholds
    exact hquiet hp rfl rfl (fun o' he => Option.some.inj he ▸ hok)
      ⟨nofun, fun hl => absurd hl hlock⟩ fun _ _ => Iff.rfl
  | enter hl hp =>
    exact hquiet hp rfl rfl (fun o' he => Option.some.inj he ▸ hk.start hi (hcall hp _ rfl))
      ⟨fun _ => rfl, fun _ => rfl⟩ fun q => htaken hl
  | resume hl hp =>
    exact hquiet hp rfl rfl (fun o' he => hcall hp o' he) ⟨fun _ => rfl, fun _ => rfl⟩
      fun q => htaken hl
  | @tell p o x hp hx hw =>
    refine ⟨lock_update h.lock (fun _ => rfl) ⟨fun _ => hheld hp rfl, fun _ => rfl⟩
      fun _ _ => Iff.rfl, fun q o' hq => Or.inr ⟨p, ?_⟩, calls_update nofun fun q hne o' hq => ?_⟩
    · exact congrArg Place.waking (Function.update_self p Place.wake t.pc)
    · exact hk.others hi (hcall hp o rfl) hx hne (h.may q o' hq)
  | @done p o x hp hx hw =>
    refine ⟨lock_update h.lock (fun _ => rfl) ⟨nofun, nofun⟩ fun q => hleft (hheld hp rfl),
      fun q o' hq => ?_, calls_update nofun fun q hne o' hq => ?_⟩
    · obtain ⟨hne, hq⟩ := waits_update rfl hq
      rcases h.waits q o' hq with hb | hwake
      · exact Or.inl (hk.act hi hx hw hne hb)
      · exact Or.inr (waking_update (by rw [hp]; rfl) hwake)
    · exact hk.others hi (hcall hp o rfl) hx hne (h.may q o' hq)
  | quit hp hx =>
    exact hquiet hp rfl rfl nofun ⟨nofun, nofun⟩ fun q => hleft (hheld hp rfl)
  | @wait p o hp hx =>
    refine ⟨lock_update h.lock (fun _ => rfl) ⟨fun _ => hheld hp rfl, fun _ => rfl⟩
      fun _ _ => Iff.rfl, fun q o' hq => ?_,
      calls_update (fun o' he => hcall hp o' he) fun q _ => h.may q⟩
    have hq : (Function.update t.pc p (.sleep o) q).waits = some o' := hq
    by_cases hqp : q = p
    · rw [hqp, Function.update_self] at hq
      rw [← Option.some.inj hq, hqp]
      exact Or.inl hx
    · rw [Function.update_of_ne hqp] at hq
      exact (h.waits q o' hq).imp_right (waking_update (by rw [hp]; rfl))
  | @sleep p o hp =>
    refine ⟨lock_update h.lock (fun _ => rfl) ⟨nofun, nofun⟩ fun q => hleft (hheld hp rfl),
      fun q o' hq => ?_, calls_update (fun o' he => hcall hp o' he) fun q _ => h.may q⟩
    have hq : (Function.update t.pc p (.asleep o) q).waits = some o' := hq
    have hold : (t.pc q).waits = some o' := by
      by_cases hqp : q = p
      · rw [hqp, Function.update_self] at hq
        rw [hqp, hp]
        exact hq
      · rwa [Function.update_of_ne hqp] at hq
    exact (h.waits q o' hold).imp_right (waking_update (by rw [hp]; rfl))
  | @wakeup p hp =>
    have hl := hheld hp rfl
    refine ⟨lock_update h.lock (fun _ => Place.holds_wakeup _) ⟨nofun, nofun⟩ fun q => hleft hl,
      fun q o' hq => ?_, calls_update nofun fun q _ o' hq => h.may q o' ?_⟩
    · -- whoever is about to sleep has the lock
      obtain ⟨hne, hq⟩ := waits_update rfl hq
      have hq' := (h.lock q).mp (Place.waits_wakeup hq).1
      exact absurd (Option.some.inj (hq'.symm.trans hl)) hne
    · rwa [Place.calls_wakeup] at hq
  | @kill p =>
    refine ⟨lock_update h.lock (fun _ => rfl) ?_ fun _ _ => Iff.rfl, fun q o' hq => ?_,
      calls_update (fun o' he => hk.killed (h.may p o' ?_))
        fun q _ o' hq => hk.killed (h.may q o' hq)⟩
    · rw [Place.holds_wakeup]
      exact h.lock p
    · have hq : (Function.update t.pc p (t.pc p).wakeup q).waits = some o' := hq
      have hold : (t.pc q).waits = some o' := by
        by_cases hqp : q = p
        · rw [hqp, Function.update_self] at hq
          rw [hqp]
          exact (Place.waits_wakeup hq).2
        · rwa [Function.update_of_ne hqp] at hq
      refine (h.waits q o' hold).imp (hk.kill hi) fun ⟨r, hr⟩ => ⟨r, ?_⟩
      show (Function.update t.pc p (t.pc p).wakeup r).waking = true
      by_cases hrp : r = p
      · rw [hrp, Function.update_self, Place.waking_wakeup, ← hrp]
        exact hr
      · rw [Function.update_of_ne hrp]
        exact hr
    · rwa [Place.calls_wakeup] at he

omit [DecidableEq P] in
theorem init_well {init : σ → Prop} {may : σ → P → O → Prop} (hi : Init init t) :
    Well M may t := by
  refine ⟨fun p => ?_, fun p o hp => ?_, fun p o hp => ?_⟩
  · rw [hi.pc, hi.lock]
    exact ⟨nofun, nofun⟩
  · rw [hi.pc] at hp
    cases hp
  · rw [hi.pc] at hp
    cases hp

omit [DecidableEq P] in
/-- The atomic step is that of a call that may be made. -/
theorem Well.deed_ok {may : σ → P → O → Prop} (h : Well M may t) {d : Deed P O}
    (hd : M.view t a = some d) : DeedOk may t.shared d := by
  unfold view at hd
  cases a with
  | run p =>
    dsimp only at hd
    split at hd
    next o hp =>
      split at hd
      · rw [← Option.some.inj hd]
        exact h.may p o (by rw [hp]; rfl)
      · cases hd
    next => cases hd
  | kill p =>
    rw [← Option.some.inj hd]
    exact trivial
  | call | acquire => cases hd

/-- The invariant of the state, and that of the code. -/
structure Kept (M : Monitor σ P O) (may : σ → P → O → Prop) (Inv : σ → Prop) (t : Sys σ P O) :
    Prop where
  shared : Inv t.shared
  well : Well M may t

theorem Kept.step {Inv : σ → Prop} {may : σ → P → O → Prop} (hk : M.Keeps may Inv)
    (h : Kept M may Inv t) (hok : Ok may t a) (hs : M.step t a = some t') :
    Kept M may Inv t' := by
  have hm := step_move hs
  refine ⟨?_, h.well.move hk h.shared hok hm⟩
  rcases hm.deed with ⟨-, he⟩ | ⟨d, hd, hx⟩
  · rw [he]
    exact h.shared
  · exact hk.inv h.shared (h.well.deed_ok hd) hx

theorem kept {Inv init : σ → Prop} {may : σ → P → O → Prop} (hk : M.Keeps may Inv)
    (hinit : ∀ s, init s → Inv s) (h : Reach M.step (Ok may) (Init init) t) :
    Kept M may Inv t :=
  h.inv (fun _ hi => ⟨hinit _ hi.shared, init_well hi⟩) fun hi hok hs => hi.step hk hok hs

section See

variable {β τ : Type*} {Inv : σ → Prop} {may : σ → P → O → Prop} {step : τ → β → Option τ}
  {see : σ → Deed P O → Option β} {R : σ → τ → Prop}

/-- The system `step` makes the atomic steps of calls that may be made, of which `see` is seen. -/
def Makes (M : Monitor σ P O) (may : σ → P → O → Prop) (step : τ → β → Option τ)
    (see : σ → Deed P O → Option β) (R : σ → τ → Prop) : Prop :=
  ∀ {s s' : σ} {d : Deed P O} {x : τ}, R s x → DeedOk may s d → M.deed s d = some s' →
    see s d = none ∧ R s' x ∨ ∃ b x', see s d = some b ∧ step x b = some x' ∧ R s' x'

/-- What is seen of a step of the code. -/
def sees (M : Monitor σ P O) (see : σ → Deed P O → Option β) (t : Sys σ P O) (a : Act P O) :
    Option β := (M.view t a).bind (see t.shared)

theorem Kept.sees {x : τ} (hk : M.Keeps may Inv) (hm : M.Makes may step see R)
    (h : Kept M may Inv t ∧ R t.shared x) (hok : Ok may t a) (hs : M.step t a = some t') :
    M.sees see t a = none ∧ Kept M may Inv t' ∧ R t'.shared x ∨
      ∃ b x', M.sees see t a = some b ∧ step x b = some x' ∧ Kept M may Inv t' ∧
        R t'.shared x' := by
  have h' := h.1.step hk hok hs
  unfold Monitor.sees
  rcases (step_move hs).deed with ⟨hv, he⟩ | ⟨d, hv, hd⟩
  · rw [hv, he]
    exact Or.inl ⟨rfl, h', h.2⟩
  · rw [hv]
    rcases hm h.2 (h.1.well.deed_ok hv) hd with ⟨hn, hR'⟩ | ⟨b, x', hb, hx, hR'⟩
    · exact Or.inl ⟨hn, h', hR'⟩
    · exact Or.inr ⟨b, x', hb, hx, h', hR'⟩

/-- **Refinement**: what is seen of a run of the code is a run of that system. -/
theorem Kept.refines (hk : M.Keeps may Inv) (hm : M.Makes may step see R) (as : List (Act P O))
    {x : τ} (h : Kept M may Inv t) (hR : R t.shared x) (hok : RunOk M.step (Ok may) t as)
    (hs : runFrom M.step t as = some t') :
    ∃ x', runFrom step x (trace M.step (M.sees see) t as) = some x' ∧ R t'.shared x' := by
  obtain ⟨x', hx, -, hR'⟩ := runFrom_trace (fun t x => Kept M may Inv t ∧ R t.shared x)
    (fun h hok hs => Kept.sees hk hm h hok hs) as ⟨h, hR⟩ hok hs
  exact ⟨x', hx, hR'⟩

end See

omit [DecidableEq P] in
/-- **No lost wakeup**: whoever sleeps could do nothing. -/
theorem Well.blocked {may : σ → P → O → Prop} (h : Well M may t) {o : O} (hl : t.lock = none)
    (hp : t.pc p = .asleep o) : M.act t.shared p o = none := by
  refine (h.waits p o (by rw [hp]; rfl)).resolve_right fun ⟨q, hq⟩ => ?_
  have hholds : (t.pc q).holds = true := by
    cases hc : t.pc q with
    | wake => rfl
    | out | enter | test | sleep | asleep | woken => rw [hc] at hq; cases hq
  exact nomatch hl.symm.trans ((h.lock q).mp hholds)

/-! ## Coming to an end -/

/-- Those that are in the monitor go on. -/
def Internal (_ : Sys σ P O) : Act P O → Prop
  | .acquire _ | .run _ => True
  | .call _ _ | .kill _ => False

/-- Whoever has not got out of the monitor sleeps, and has to. -/
structure Quiet (M : Monitor σ P O) (t : Sys σ P O) : Prop where
  lock : t.lock = none
  pc : ∀ p, t.pc p = .out ∨ ∃ o, t.pc p = .asleep o ∧ M.act t.shared p o = none

theorem run_enabled (h : (t.pc p).holds = true) : M.run t p ≠ none := by
  unfold run
  cases hc : t.pc p with
  | test o =>
    dsimp only
    split
    · split <;> exact Option.some_ne_none _
    · split <;> exact Option.some_ne_none _
  | sleep o => exact Option.some_ne_none _
  | wake => exact Option.some_ne_none _
  | out | enter | asleep | woken => rw [hc] at h; cases h

theorem Well.stuck {may : σ → P → O → Prop} (h : Well M may t)
    (hno : ∀ a, Internal t a → M.step t a = none) : Quiet M t := by
  have hlock : t.lock = none := by
    cases hl : t.lock with
    | none => rfl
    | some p => exact absurd (hno (.run p) trivial) (run_enabled ((h.lock p).mpr hl))
  refine ⟨hlock, fun p => ?_⟩
  have hout : (t.pc p).holds ≠ true := fun hp => nomatch hlock.symm.trans ((h.lock p).mp hp)
  have hacq := hno (.acquire p) trivial
  unfold step at hacq
  dsimp only at hacq
  rw [if_pos hlock] at hacq
  cases hc : t.pc p with
  | out => exact Or.inl rfl
  | asleep o => exact Or.inr ⟨o, rfl, h.blocked hlock hc⟩
  | enter | woken => rw [hc] at hacq; cases hacq
  | test | sleep | wake => rw [hc] at hout; exact absurd rfl hout

section Rank

variable [Fintype P]

def rank (t : Sys σ P O) : List Nat := [∑ p, (t.pc p).cost, ∑ p, (t.pc p).awake]

variable {x : Sys σ P O} {c c' : Place O} {pc : P → Place O}

/-- A call is over, or what it does has been done. -/
theorem lower_cost (hx : x.pc = Function.update pc p c') (hpc : ∀ q, (pc q).cost = (t.pc q).cost)
    (hp : t.pc p = c) (hlt : c'.cost < c.cost) : Lower (rank x) (rank t) := by
  refine lower_head ?_ rfl
  rw [hx]
  exact sum_update_lt Place.cost hpc (hp ▸ hlt)

/-- A process is closer to its `sleep`. -/
theorem lower_awake (hx : x.pc = Function.update t.pc p c') (hp : t.pc p = c)
    (heq : c'.cost = c.cost) (hlt : c'.awake < c.awake) : Lower (rank x) (rank t) := by
  refine lower_tail ?_ (lower_head ?_ rfl) rfl
  · rw [hx]
    exact sum_update_le Place.cost (fun _ => rfl) (hp ▸ Nat.le_of_eq heq)
  · rw [hx]
    exact sum_update_lt Place.awake (fun _ => rfl) (hp ▸ hlt)

theorem Move.lower (ha : Internal t a) (h : Move M t a t') : Lower (rank t') (rank t) := by
  cases h with
  | call => exact ha.elim
  | enter hl hp | resume hl hp => exact lower_awake rfl hp rfl (Nat.lt_succ_self 2)
  | tell hp hx hw => exact lower_cost rfl (fun _ => rfl) hp Nat.one_lt_two
  | done hp hx hw => exact lower_cost rfl (fun _ => rfl) hp Nat.zero_lt_two
  | quit hp hx => exact lower_cost rfl (fun _ => rfl) hp Nat.zero_lt_two
  | wait hp hx => exact lower_awake rfl hp rfl Nat.one_lt_two
  | sleep hp => exact lower_awake rfl hp rfl Nat.zero_lt_one
  | wakeup hp => exact lower_cost rfl (fun _ => Place.cost_wakeup _) hp Nat.zero_lt_one
  | kill => exact ha.elim

/-- **Everyone gets out or sleeps**, whoever goes first. -/
theorem settles {Inv : σ → Prop} {may : σ → P → O → Prop} (hk : M.Keeps may Inv)
    (h : Kept M may Inv t) :
    Settles M.step Internal (fun t' => Kept M may Inv t' ∧ Quiet M t') t := by
  have hkept : ∀ {x x' : Sys σ P O} {a : Act P O}, Kept M may Inv x → Internal x a →
      M.step x a = some x' → Kept M may Inv x' := fun {x x' a} hx ha hs => by
    refine hx.step hk ?_ hs
    cases a with
    | acquire | run => exact trivial
    | call | kill => exact ha.elim
  exact Settles.of_rank rank hkept (fun _ ha hs => (step_move hs).lower ha)
    (fun hx hno => ⟨hx, hx.well.stuck hno⟩) h

end Rank

end Monitor

end Xv6.Lib
