import Xv6.Lib.Monitor

/-!
# Sleep locks

`sleeplock.c`: a lock that may be held for long, and across a `sleep`. Its two words are behind a
spin lock, so that each of its calls is one call of a monitor, which waits on the channel `lk`.

> What its callers see is a lock (`Lock`): nobody takes it from somebody else, and
> `holdingsleep` says who has it (`sleeplock_refines`). Whoever sleeps in `acquiresleep` when
> nothing is going on in this code does so because somebody has the lock (`sleeplock_settles`).

What callers promise is that `releasesleep` is called by whoever has the lock. `brelse` and
`iunlock` panic if `holdingsleep` says otherwise.
-/

namespace Xv6.Sync

open Lib

structure Sleeplock where
  locked : Bool
  pid : Nat

namespace Sleeplock

inductive Call
  | acquiresleep
  | releasesleep
  | holdingsleep
  deriving DecidableEq

/-- The lock; and whom `acquiresleep` has given it. -/
structure State (P : Type*) where
  lk : Sleeplock
  has : P → Bool

variable {P : Type*} [DecidableEq P]

namespace State

/-- `while(lk->locked) sleep(lk, &lk->lk); lk->locked = 1; lk->pid = myproc()->pid;` -/
def acquiresleep (s : State P) (p : P) (pid : Nat) : Option (State P) :=
  if s.lk.locked then none
  else some { lk := { locked := true, pid := pid }, has := Function.update s.has p true }

/-- `lk->locked = 0; lk->pid = 0; wakeup(lk);` -/
def releasesleep (s : State P) (p : P) : State P :=
  { lk := { locked := false, pid := 0 }, has := Function.update s.has p false }

/-- `r = lk->locked && (lk->pid == myproc()->pid);` -/
def holdingsleep (s : State P) (pid : Nat) : Bool := s.lk.locked && s.lk.pid == pid

/-- `initsleeplock` -/
def fresh : State P := { lk := { locked := false, pid := 0 }, has := fun _ => false }

end State

/-- The code. Each process has its `pid`. -/
def code (pid : P → Nat) : Monitor (State P) P Call where
  start _ _ o := o
  act s p
    | .acquiresleep => s.acquiresleep p (pid p)
    | .releasesleep => some (s.releasesleep p)
    | .holdingsleep => some s
  wakes _ _ o := o == .releasesleep
  quits _ _ _ := false
  kill s _ := s

/-- What the callers promise. -/
def May (s : State P) (p : P) (o : Call) : Prop := o = .releasesleep → s.has p = true

instance (s : State P) (p : P) (o : Call) : Decidable (May s p o) :=
  inferInstanceAs (Decidable (_ → _))

/-! ## A lock -/

namespace Lock

/-- What happens, with what it says. -/
inductive Event (P : Type*)
  | take (p : P)
  | give (p : P)
  | ask (p : P) (r : Bool)

/-- A lock is taken when it is free, and given back by its owner; it knows who that is. -/
def step (owner : Option P) : Event P → Option (Option P)
  | .take p => if owner = none then some (some p) else none
  | .give p => if owner = some p then some none else none
  | .ask p r => if r = true ↔ owner = some p then some owner else none

end Lock

/-- What the callers see of an atomic step. -/
def event (pid : P → Nat) (s : State P) : Deed P Call → Option (Lock.Event P)
  | .act p .acquiresleep => some (.take p)
  | .act p .releasesleep => some (.give p)
  | .act p .holdingsleep => some (.ask p (s.holdingsleep (pid p)))
  | .kill _ => none

/-! ## The two words say who has the lock -/

/-- The lock `owner` has is the one the words say. -/
structure Owned (pid : P → Nat) (s : State P) (owner : Option P) : Prop where
  locked : s.lk.locked = owner.isSome
  pid : ∀ p, owner = some p → s.lk.pid = pid p
  has : ∀ p, s.has p = true ↔ owner = some p

variable {pid : P → Nat} {s s' : State P} {owner : Option P} {p : P} {d : Deed P Call}

omit [DecidableEq P] in
theorem fresh_owned : Owned pid (State.fresh : State P) none :=
  ⟨rfl, nofun, fun _ => ⟨nofun, nofun⟩⟩

theorem update_has {has : P → Bool} {owner' : Option P} {b : Bool}
    (h : ∀ q, has q = true ↔ owner = some q) (hb : b = true ↔ owner' = some p)
    (hq : ∀ q ≠ p, owner = some q ↔ owner' = some q) (q : P) :
    Function.update has p b q = true ↔ owner' = some q := by
  by_cases hqp : q = p
  · rw [hqp, Function.update_self]
    exact hb
  · rw [Function.update_of_ne hqp, h q]
    exact hq q hqp

theorem Owned.acquiresleep (h : Owned pid s owner) (hs : s.acquiresleep p (pid p) = some s') :
    owner = none ∧ Owned pid s' (some p) := by
  unfold State.acquiresleep at hs
  split at hs
  next => cases hs
  next hl =>
    rw [h.locked, Option.not_isSome_iff_eq_none] at hl
    subst hl
    refine ⟨rfl, ?_⟩
    rw [← Option.some.inj hs]
    refine ⟨rfl, fun q hq => congrArg pid (Option.some.inj hq),
      update_has h.has ⟨fun _ => rfl, fun _ => rfl⟩ fun q hq => ⟨nofun, fun he => ?_⟩⟩
    exact absurd (Option.some.inj he).symm hq

theorem Owned.releasesleep (h : Owned pid s owner) (hp : s.has p = true) :
    owner = some p ∧ Owned pid (s.releasesleep p) none := by
  have ho := (h.has p).mp hp
  refine ⟨ho, rfl, nofun, update_has h.has ⟨nofun, nofun⟩ fun q hq => ⟨fun he => ?_, nofun⟩⟩
  exact absurd (Option.some.inj (he.symm.trans ho)) hq

omit [DecidableEq P] in
/-- Different processes have different pids. -/
theorem Owned.holdingsleep (hpid : Function.Injective pid) (h : Owned pid s owner) (p : P) :
    s.holdingsleep (pid p) = true ↔ owner = some p := by
  unfold State.holdingsleep
  rw [Bool.and_eq_true, beq_iff_eq, h.locked]
  constructor
  · rintro ⟨hl, hp⟩
    obtain ⟨q, rfl⟩ := Option.isSome_iff_exists.mp hl
    rw [hpid ((h.pid q rfl).symm.trans hp)]
  · rintro rfl
    exact ⟨rfl, h.pid p rfl⟩

/-- The atomic steps are those of the lock. -/
theorem Owned.deed (hpid : Function.Injective pid) (h : Owned pid s owner)
    (hok : Monitor.DeedOk May s d) (hs : (code pid).deed s d = some s') :
    event pid s d = none ∧ Owned pid s' owner ∨ ∃ e owner', event pid s d = some e ∧
      Lock.step owner e = some owner' ∧ Owned pid s' owner' := by
  cases d with
  | kill p => exact Or.inl ⟨rfl, Option.some.inj hs ▸ h⟩
  | act p o =>
    refine Or.inr ?_
    cases o with
    | acquiresleep =>
      obtain ⟨hfree, h'⟩ := h.acquiresleep hs
      exact ⟨.take p, some p, rfl, if_pos hfree, h'⟩
    | releasesleep =>
      obtain ⟨howner, h'⟩ := h.releasesleep (hok rfl)
      exact ⟨.give p, none, rfl, if_pos howner, Option.some.inj hs ▸ h'⟩
    | holdingsleep =>
      exact ⟨.ask p _, owner, rfl, if_pos (h.holdingsleep hpid p), Option.some.inj hs ▸ h⟩

/-- The lock's owner, whoever it is. -/
def Inv (pid : P → Nat) (s : State P) : Prop := ∃ owner, Owned pid s owner

theorem blocked_iff {o : Call} :
    (code pid).act s p o = none ↔ o = .acquiresleep ∧ s.lk.locked = true := by
  cases o with
  | acquiresleep =>
    show s.acquiresleep p (pid p) = none ↔ _
    unfold State.acquiresleep
    split
    next hl => exact ⟨fun _ => ⟨rfl, hl⟩, fun _ => rfl⟩
    next hl => exact ⟨nofun, fun h => absurd h.2 hl⟩
  | releasesleep | holdingsleep => exact ⟨nofun, nofun⟩

/-- Only the process itself is given the lock, or gives it back. -/
theorem has_act {o : Call} {q : P} (hs : (code pid).act s p o = some s') (hq : q ≠ p) :
    s'.has q = s.has q := by
  cases o with
  | acquiresleep =>
    have hs : s.acquiresleep p (pid p) = some s' := hs
    unfold State.acquiresleep at hs
    split at hs
    next => cases hs
    next => exact Option.some.inj hs ▸ Function.update_of_ne hq _ _
  | releasesleep => exact Option.some.inj hs ▸ Function.update_of_ne hq _ _
  | holdingsleep => rw [Option.some.inj hs]

theorem code_keeps (hpid : Function.Injective pid) :
    (code pid).Keeps May (Inv pid) where
  start _ hm := hm
  inv := by
    rintro s s' d ⟨owner, h⟩ hok hs
    rcases h.deed hpid hok hs with ⟨-, h'⟩ | ⟨e, owner', -, -, h'⟩
    · exact ⟨owner, h'⟩
    · exact ⟨owner', h'⟩
  act := by
    intro s s' p q o o' _ hs hw _ hb
    obtain ⟨rfl, hl⟩ := blocked_iff.mp hb
    refine blocked_iff.mpr ⟨rfl, ?_⟩
    cases o with
    | acquiresleep => exact absurd ((blocked_iff (p := p)).mpr ⟨rfl, hl⟩) (by rw [hs]; nofun)
    | releasesleep => cases hw
    | holdingsleep => exact Option.some.inj hs ▸ hl
  kill _ hb := hb
  others _ _ hs hq hm ho := by
    rw [has_act hs hq]
    exact hm ho
  killed hm := hm

/-! ## Its callers -/

/-- Where nobody has called yet. -/
def start : Monitor.Sys (State P) P Call := { shared := .fresh, lock := none, pc := fun _ => .out }

omit [DecidableEq P] in
theorem start_init : Monitor.Init (· = State.fresh) (start (P := P)) := ⟨rfl, rfl, fun _ => rfl⟩

theorem start_kept : Monitor.Kept (code pid) May (Inv pid) start :=
  ⟨⟨none, fresh_owned⟩, Monitor.init_well start_init⟩

/-- **A lock**: what the callers see, in the order in which it happens, is what a lock does, and at
the end the lock has been given to its owner and to nobody else. -/
theorem sleeplock_refines (hpid : Function.Injective pid)
    (as : List (Monitor.Act P Call)) {t : Monitor.Sys (State P) P Call}
    (hok : RunOk (code pid).step (Monitor.Ok May) start as)
    (hs : runFrom (code pid).step start as = some t) :
    ∃ owner, runFrom Lock.step none
        (trace (code pid).step ((code pid).sees (event pid)) start as) = some owner ∧
      ∀ p, t.shared.has p = true ↔ owner = some p := by
  have hmakes : (code pid).Makes May Lock.step (event pid) (Owned pid) :=
    fun h hok hs => h.deed hpid hok hs
  obtain ⟨owner, hrun, h⟩ :=
    start_kept.refines (code_keeps hpid) hmakes as fresh_owned hok hs
  exact ⟨owner, hrun, h.has⟩

def pids : Bool → Nat
  | true => 2
  | false => 1

/-- The lock goes from one process to the other, which has been waiting for it. -/
def handed : List (Monitor.Act Bool Call) :=
  [.call true .acquiresleep, .acquire true, .run true,
    .call false .acquiresleep, .acquire false, .run false, .run false,
    .call true .holdingsleep, .acquire true, .run true,
    .call true .releasesleep, .acquire true, .run true, .run true,
    .acquire false, .run false]

theorem sleeplock_refines_handed :
    ∃ t, runFrom (code pids).step start handed = some t ∧ t.shared.has false = true ∧
      ∃ owner, runFrom Lock.step none
          (trace (code pids).step ((code pids).sees (event pids)) start handed) =
            some owner ∧
        ∀ p, t.shared.has p = true ↔ owner = some p := by
  have hobs : (runFrom (guarded (code pids).step (Monitor.Ok May)) start handed).map
      (fun t => t.shared.has false) = some true := by decide
  obtain ⟨t, ht, hhas⟩ := Option.map_eq_some_iff.mp hobs
  obtain ⟨hok, hs⟩ := runFrom_guarded handed ht
  exact ⟨t, hs, hhas, sleeplock_refines (by decide) handed hok hs⟩

/-- Nobody is in this code but those that sleep in `acquiresleep`, and if there are any, somebody
has the lock. -/
structure Idle (t : Monitor.Sys (State P) P Call) : Prop where
  lock : t.lock = none
  pc : ∀ p, t.pc p = .out ∨ t.pc p = .asleep .acquiresleep ∧ ∃ q, t.shared.has q = true

theorem Quiet.idle {t : Monitor.Sys (State P) P Call} (h : Inv pid t.shared)
    (hq : Monitor.Quiet (code pid) t) : Idle t := by
  refine ⟨hq.lock, fun p => (hq.pc p).imp_right ?_⟩
  rintro ⟨o, hp, hb⟩
  obtain ⟨rfl, hl⟩ := blocked_iff.mp hb
  obtain ⟨owner, ho⟩ := h
  obtain ⟨q, rfl⟩ := Option.isSome_iff_exists.mp (ho.locked.symm.trans hl)
  exact ⟨hp, q, (ho.has q).mpr rfl⟩

/-- **No lost wakeup**, and no deadlock: whoever goes first, all calls come to an end but those
that wait for somebody who has the lock. -/
theorem sleeplock_settles [Fintype P] (hpid : Function.Injective pid)
    {t : Monitor.Sys (State P) P Call}
    (h : Reach (code pid).step (Monitor.Ok May) (Monitor.Init (· = .fresh)) t) :
    Settles (code pid).step Monitor.Internal Idle t := by
  have hinit : ∀ s : State P, s = .fresh → Inv pid s := fun s hs => hs ▸ ⟨none, fresh_owned⟩
  have hkept := Monitor.kept (code_keeps hpid) hinit h
  exact (Monitor.settles (code_keeps hpid) hkept).mono fun hk => Quiet.idle hk.1.shared hk.2

theorem sleeplock_settles_handed :
    ∃ t, runFrom (code pids).step start (handed.take 13) = some t ∧
      t.pc false = .asleep .acquiresleep ∧ t.shared.has true = false ∧
      Settles (code pids).step Monitor.Internal Idle t := by
  have hobs : (runFrom (guarded (code pids).step (Monitor.Ok May)) start
      (handed.take 13)).map (fun t => (t.pc false, t.shared.has true)) =
      some (.asleep .acquiresleep, false) := by decide
  obtain ⟨t, ht, hobs⟩ := Option.map_eq_some_iff.mp hobs
  obtain ⟨hasleep, hhas⟩ := Prod.mk.inj hobs
  obtain ⟨hok, hs⟩ := runFrom_guarded _ ht
  have hreach : Reach (code pids).step (Monitor.Ok May) (Monitor.Init (· = .fresh)) t :=
    .of_run _ (.start start_init) hok hs
  exact ⟨t, hs, hasleep, hhas, sleeplock_settles (by decide) hreach⟩

end Sleeplock

end Xv6.Sync
