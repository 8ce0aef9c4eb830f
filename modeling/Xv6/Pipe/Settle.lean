import Xv6.Lib.Settle
import Xv6.Lib.Tally
import Xv6.Pipe.Strand

/-!
# Reads and writes come to an end

Once no process makes a new call and nobody is killed or closes an end, what is left to be done on
a pipe is finite, in every version and in whatever order it is done. A copy that fails ends its
call, and one that does not moves on; a writer that is woken in vain goes back to sleep, and wakes
readers only on its way there; a reader that is woken in vain wakes nobody.

> Every run gets to a state where each call has returned or sleeps, and where a call sleeps there
> is no other way: writers on a full pipe that nobody is reading, readers on an empty one that
> nobody is writing (`pipe_settles`).

That the pipe is empty takes that no process has been killed (`Strand`); the rest holds in any
case.
-/

namespace Xv6.Pipe

open Lib

/-- What goes on without a new call, a `kkill` or a `pipeclose`. -/
def Internal {P : Type*} (_ : Sys P) : Act P → Prop
  | .acquire _ | .run _ _ => True
  | .user _ _ | .write _ _ | .read _ _ | .kill _ | .close _ => False

/-! ## The rank -/

namespace Ctl

/-- What a call has left to do at most. -/
def cost : Ctl → Nat
  | .user => 0
  | .w .leave _ | .r .leave _ => 1
  | .w _ f => 2 + (f.q.n - f.i).toNat
  | .r .loop f => 2 + (f.q.n - f.i).toNat
  | .r _ f => 3 + (f.q.n - f.i).toNat

/-- How far a writer is from falling asleep. -/
def writer : Ctl → Nat
  | .w .enter _ | .w .woken _ => 4
  | .w .top _ => 3
  | .w .body _ => 2
  | .w .sleep _ => 1
  | _ => 0

/-- How far a reader is from falling asleep. -/
def reader : Ctl → Nat
  | .r .enter _ | .r .woken _ => 4
  | .r .wait _ => 3
  | .r .killed _ => 2
  | .r .sleep _ => 1
  | _ => 0

theorem cost_wake (c : Ctl) : c.wake.cost = c.cost := by
  cases c with
  | user => rfl
  | w pc f => cases pc <;> rfl
  | r pc f => cases pc <;> rfl

theorem writer_wake {c : Ctl} (h : c.asleepOn = some .nread) : c.wake.writer = c.writer := by
  cases c with
  | user => rfl
  | w pc f => cases pc <;> cases h
  | r pc f => cases pc <;> rfl

end Ctl

variable {P : Type*} [DecidableEq P] [Fintype P] {v : Version} {s s' : Sys P} {p : P} {a : Act P}

def rank (s : Sys P) : List Nat :=
  [∑ p, (s.ctl p).cost, ∑ p, (s.ctl p).writer, ∑ p, (s.ctl p).reader]

variable {t : Sys P} {c c' : Ctl} {ctl : P → Ctl}

/-- A call has less left to do; of the others some are woken perhaps. -/
theorem lower_cost (ht : t.ctl = Function.update ctl p c')
    (hctl : ∀ q, (ctl q).cost = (s.ctl q).cost) (hc : s.ctl p = c) (hlt : c'.cost < c.cost) :
    Lower (rank t) (rank s) := by
  refine lower_head ?_ rfl
  rw [ht]
  exact sum_update_lt Ctl.cost hctl (hc ▸ hlt)

/-- A writer is closer to its `sleep`. -/
theorem lower_writer (ht : t.ctl = Function.update ctl p c')
    (hctl : ∀ q, (ctl q).cost = (s.ctl q).cost) (hw : ∀ q, (ctl q).writer = (s.ctl q).writer)
    (hc : s.ctl p = c) (hle : c'.cost ≤ c.cost) (hlt : c'.writer < c.writer) :
    Lower (rank t) (rank s) := by
  refine lower_tail ?_ (lower_head ?_ rfl) rfl
  · rw [ht]
    exact sum_update_le Ctl.cost hctl (hc ▸ hle)
  · rw [ht]
    exact sum_update_lt Ctl.writer hw (hc ▸ hlt)

/-- A reader is. -/
theorem lower_reader (ht : t.ctl = Function.update s.ctl p c') (hc : s.ctl p = c)
    (hle : c'.cost ≤ c.cost) (hw : c'.writer ≤ c.writer) (hlt : c'.reader < c.reader) :
    Lower (rank t) (rank s) := by
  refine lower_tail ?_ (lower_tail ?_ (lower_head ?_ rfl) rfl) rfl
  · rw [ht]
    exact sum_update_le Ctl.cost (fun _ => rfl) (hc ▸ hle)
  · rw [ht]
    exact sum_update_le Ctl.writer (fun _ => rfl) (hc ▸ hw)
  · rw [ht]
    exact sum_update_lt Ctl.reader (fun _ => rfl) (hc ▸ hlt)

section

omit [DecidableEq P] [Fintype P]

theorem wakeup_cost (ch : Chan) (q : P) : ((s.wakeup ch).ctl q).cost = (s.ctl q).cost := by
  unfold Sys.wakeup
  dsimp only
  split
  · exact Ctl.cost_wake _
  · rfl

theorem wakeup_writer (q : P) : ((s.wakeup .nread).ctl q).writer = (s.ctl q).writer := by
  unfold Sys.wakeup
  dsimp only
  split
  next h => exact Ctl.writer_wake h
  next => rfl

theorem wakeReaders_cost (f : WFrame) (q : P) :
    ((s.wakeReaders v f).ctl q).cost = (s.ctl q).cost := by
  unfold Sys.wakeReaders
  split
  · split
    · exact wakeup_cost _ q
    · rfl
  · exact wakeup_cost _ q

theorem wakeWriters_cost (f : RFrame) (q : P) :
    ((s.wakeWriters v f).ctl q).cost = (s.ctl q).cost := by
  unfold Sys.wakeWriters
  split
  · split
    · exact wakeup_cost _ q
    · rfl
  · exact wakeup_cost _ q

end

/-- **The rank falls** with every step. -/
theorem step_lower (h : BaseInv v s) (ha : Internal s a) (hs : step v s a = some s') :
    Lower (rank s') (rank s) := by
  cases step_cases hs with
  | user => exact ha.elim
  | write => exact ha.elim
  | read => exact ha.elim
  | kill => exact ha.elim
  | close => exact ha.elim
  | wEnter hl hc | wResume hl hc | wTest hl hc hi ho hk | wSleep hl hc =>
    exact lower_writer rfl (fun _ => rfl) (fun _ => rfl) hc (Nat.le_refl _) (Nat.lt_succ_self _)
  | wFull hl hc hf =>
    exact lower_writer rfl (wakeup_cost _) wakeup_writer hc (Nat.le_refl _) (Nat.lt_succ_self _)
  | @wFail p r f hl hc hi hstop =>
    exact lower_cost rfl (fun _ => rfl) hc (Nat.add_pos_left Nat.zero_lt_two _)
  | wEnd hl hc hi =>
    exact lower_cost rfl (fun _ => rfl) hc (Nat.lt_add_right _ Nat.one_lt_two)
  | @wPut p r f hl hc hf =>
    rcases put_cases h hc hf r with ⟨len, hpos, hrem, -, -, hput⟩ | ⟨data, -, hput⟩
    · rw [hput]
      refine lower_cost rfl (fun _ => rfl) hc ?_
      show 2 + (f.q.n - (f.i + len)).toNat < 2 + (f.q.n - f.i).toNat
      omega
    · rw [hput]
      exact lower_cost rfl (fun _ => rfl) hc (Nat.lt_add_right _ Nat.one_lt_two)
  | wLeave hl hc => exact lower_cost rfl (wakeReaders_cost _) hc Nat.zero_lt_one
  | rEnter hl hc hpc =>
    rcases hpc with rfl | rfl
    · exact lower_reader rfl hc (Nat.le_refl _) (Nat.le_refl _) (Nat.lt_succ_self _)
    · exact lower_reader rfl hc (Nat.le_refl _) (Nat.le_refl _) (Nat.lt_succ_self _)
  | rWait hl hc he ho | rTest hl hc hk | rSleep hl hc =>
    exact lower_reader rfl hc (Nat.le_refl _) (Nat.le_refl _) (Nat.lt_succ_self _)
  | rStart hl hc hw =>
    exact lower_cost rfl (fun _ => rfl) hc (Nat.add_lt_add_right (Nat.lt_succ_self 2) _)
  | rFail hl hc hk => exact lower_cost rfl (fun _ => rfl) hc (Nat.add_pos_left (Nat.zero_lt_succ 2) _)
  | @rGet p r f hl hc hi he =>
    rcases get_cases h hc hi he r with ⟨len, hpos, hrem, -, -, hget⟩ | ⟨len, -, hget⟩ |
      ⟨-, -, hget⟩
    · rw [hget]
      refine lower_cost rfl (fun _ => rfl) hc ?_
      show 2 + (f.q.n - (f.i + len)).toNat < 2 + (f.q.n - f.i).toNat
      omega
    · rw [hget]
      exact lower_cost rfl (fun _ => rfl) hc (Nat.lt_add_right _ Nat.one_lt_two)
    · rw [hget]
      exact lower_cost rfl (fun _ => rfl) hc (Nat.lt_add_right _ Nat.one_lt_two)
  | rEnd hl hc hi => exact lower_cost rfl (fun _ => rfl) hc (Nat.lt_add_right _ Nat.one_lt_two)
  | rLeave hl hc => exact lower_cost rfl (wakeWriters_cost _) hc Nat.zero_lt_one

/-! ## Where nothing is left to do -/

/-- Every call has returned or sleeps, and what it sleeps for is not there. -/
structure Quiet (v : Version) (s : Sys P) : Prop where
  lock : s.lock = none
  ctl : ∀ p, s.ctl p = .user ∨ ∃ ch, (s.ctl p).asleepOn = some ch
  writers : Asleep s.ctl .nwrite →
    s.pi.full (pipeTotal v) = true ∧ s.pi.readopen = true ∧ ¬Asleep s.ctl .nread
  readers : Asleep s.ctl .nread → s.pi.writeopen = true ∧ ¬Asleep s.ctl .nwrite
  empty : (∀ p, s.killed p = false) → Asleep s.ctl .nread → s.pi.empty = true

/-- Both bundles; that of `Strand` as long as nobody has been killed. -/
structure Inv (v : Version) (s : Sys P) : Prop where
  sleep : SleepInv v s
  strand : (∀ p, s.killed p = false) → StrandInv v s

section

omit [Fintype P]

theorem Inv.kept (h : Inv v s) (hs : step v s a = some s') : Inv v s' := by
  refine ⟨sleep_step h.sleep hs, fun hk => ?_⟩
  have hno : ∀ p, a ≠ .kill p := by
    intro p he
    subst he
    cases step_cases hs with
    | kill =>
      have hself : Function.update s.killed p true p = false := hk p
      rw [Function.update_self] at hself
      cases hself
  have hk : ∀ p, s.killed p = false := killed_step hno hs ▸ hk
  refine strand_step (h.strand hk) (fun p _ _ _ _ _ _ hkp => ?_) hs
  rw [hk p] at hkp
  cases hkp

theorem run_enabled {r : Copy} (h : (s.ctl p).holds = true) : s.run v p r ≠ none := by
  unfold Sys.run
  cases hc : s.ctl p with
  | user =>
    rw [hc] at h
    cases h
  | w pc f =>
    rw [hc] at h
    cases pc with
    | top =>
      dsimp only
      split
      · split <;> exact Option.some_ne_none _
      · exact Option.some_ne_none _
    | body =>
      dsimp only
      split <;> exact Option.some_ne_none _
    | sleep | leave => exact Option.some_ne_none _
    | enter | asleep | woken => cases h
  | r pc f =>
    rw [hc] at h
    cases pc with
    | wait | killed | loop =>
      dsimp only
      split <;> exact Option.some_ne_none _
    | sleep | leave => exact Option.some_ne_none _
    | enter | asleep | woken => cases h

/-- **No deadlock.** -/
theorem Inv.stuck (h : Inv v s) (hno : ∀ a, Internal s a → step v s a = none) :
    Quiet v s := by
  have hlock : s.lock = none := by
    cases hl : s.lock with
    | none => rfl
    | some p =>
      have hrun := hno (.run p .ok) trivial
      unfold step at hrun
      dsimp only at hrun
      rw [if_pos hl] at hrun
      exact absurd hrun (run_enabled ((h.sleep.base.lock p).mpr hl))
  have hout : ∀ p, (s.ctl p).holds = false := fun p =>
    h.sleep.base.lock.outside (by rw [hlock]; exact nofun)
  have hacquire : ∀ p, s.acquire v p = none := fun p => by
    have hacq := hno (.acquire p) trivial
    unfold step at hacq
    dsimp only at hacq
    rwa [if_pos hlock] at hacq
  refine ⟨hlock, fun p => ?_, fun hw => ⟨?_, h.sleep.wopen hw, fun hr => h.sleep.excl hr hw⟩,
    fun hr => ⟨h.sleep.ropen hr, h.sleep.excl hr⟩,
    fun hk hr => (h.strand hk).empty (held_none hlock) id hr⟩
  · have hp := hout p
    have hacq := hacquire p
    unfold Sys.acquire at hacq
    cases hc : s.ctl p with
    | user => exact Or.inl rfl
    | w pc f =>
      rw [hc] at hp hacq
      cases pc with
      | asleep => exact Or.inr ⟨.nwrite, rfl⟩
      | enter | woken => cases hacq
      | top | body | sleep | leave => cases hp
    | r pc f =>
      rw [hc] at hp hacq
      cases pc with
      | asleep => exact Or.inr ⟨.nread, rfl⟩
      | enter | woken => cases hacq
      | wait | killed | sleep | loop | leave => cases hp
  · rcases h.sleep.wfull hw with hf | hd
    · exact hf
    · rw [held_none hlock] at hd
      exact hd.elim

end

/-- **Reads and writes come to an end**, whoever goes first. -/
theorem pipe_settles (h : Reach (step v) Any Init s) :
    Settles (step v) Internal (Quiet v) s := by
  have hkept : ∀ {s s' : Sys P} {a : Act P}, Inv v s → Internal s a → step v s a = some s' →
      Inv v s' := fun hi _ hs => hi.kept hs
  have hinv : Inv v s :=
    h.inv (fun _ hi => ⟨init_sleep hi, fun _ => init_strand hi⟩) fun hi _ hs => hi.kept hs
  exact Settles.of_rank rank hkept (fun hi ha hs => step_lower hi.sleep.base ha hs) Inv.stuck hinv

/-- A writer has stored its byte, and has not yet woken the reader. -/
def stored : List (Act Bool) :=
  readerSleeps ++ [.write false (.of 0 1), .acquire false, .run false .ok, .run false .ok]

theorem pipe_settles_stored :
    ∃ s : Sys Bool, runFrom (step .v7) (Sys.fresh fun _ _ => 0) stored = some s ∧
      (s.ctl true).asleepOn = some .nread ∧ s.pi.used = 1 ∧
      Settles (step .v7) Internal (Quiet .v7) s := by
  have hrun : (runFrom (step .v7) (Sys.fresh fun _ _ => 0) stored).map
      (fun s => ((s.ctl true).asleepOn, s.pi.used)) = some (some .nread, 1) := by decide +kernel
  obtain ⟨s, hs, hd⟩ := Option.map_eq_some_iff.mp hrun
  obtain ⟨hr, hu⟩ := Prod.mk.inj hd
  have hreach : Reach (step .v7) Any Init s :=
    .of_run _ (.start (fresh_init _)) (RunOk.any _ _ _) hs
  exact ⟨s, hs, hr, hu, pipe_settles hreach⟩

end Xv6.Pipe
