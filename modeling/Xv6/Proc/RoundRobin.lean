import Xv6.Proc.Basic
import Mathlib.Order.Monotone.Basic
import Mathlib.Order.WellFounded
import Mathlib.Tactic.Push

/-!
# Who gets the CPU next: the two scheduler loops on one CPU

`scheduler()` of v1..v5 walks the table and goes on after the slot it ran; from
v6 on it scans the whole table for the highest priority (`scan`) and starts over
from slot 0. This file follows both loops through infinite runs in which every
process stays at `PRIORITY_BASE`, never sleeps and leaves the CPU only through
`yield()`. While it has the CPU a process may fork, and reap children, in any
pieces (`Op`): a timer tick can fall in the middle of `kfork`.

> `Fair`: between two consecutive dispatches of one process every process that
> stays RUNNABLE is dispatched, and no RUNNABLE process is passed over for ever.

The old loop is fair whatever happens (`roundRobin_fair`): each slot comes up
once in `NPROC` steps. The new loop is not. At equal priority `scan` is the
first RUNNABLE slot (`scan_first`), and the process that just yielded is
RUNNABLE again, so the first slot is picked over and over. The slots picked
never grow (`pick_antitone`); once they stop shrinking, everybody else starves.
`fair_iff` makes that exact: the run is fair only if there never is a second
RUNNABLE process.
-/

namespace Xv6.Proc

/-- What the running process may do to the table before it yields: `allocproc`,
the end of `kfork`, and `freeproc` (of a child it could not complete, or of a
zombie it reaped). -/
inductive Op
  | alloc
  | start (k : Slot)
  | free (k : Slot)

abbrev Table := Slot → Proc

/-- The first slot in a state, as the `for` loops of `proc.c` find it. -/
def firstIn (tbl : Table) (st : ProcState) : Option Slot :=
  (List.finRange NPROC).find? fun p => (tbl p).state == st

def Op.apply (tbl : Table) : Op → Table
  | .alloc =>
    match firstIn tbl .UNUSED with
    | some k => Function.update tbl k { tbl k with state := .USED, priority := PRIORITY_BASE }
    | none => tbl
  | .start k =>
    if (tbl k).state = .USED then Function.update tbl k { tbl k with state := .RUNNABLE } else tbl
  | .free k =>
    if (tbl k).state = .USED ∨ (tbl k).state = .ZOMBIE then
      Function.update tbl k { tbl k with state := .UNUSED, priority := PRIORITY_BASE }
    else tbl

/-- `p->state = RUNNING; swtch(..)`, then whatever `p` does, then its
`yield()`. -/
def dispatch (v : Version) (tbl : Table) (p : Slot) (ops : List Op) : Table :=
  let tbl := Function.update tbl p { tbl p with state := .RUNNING }
  let tbl := ops.foldl Op.apply tbl
  Function.update tbl p
    { tbl p with state := .RUNNABLE, priority := decay v (tbl p).priority }

/-- One round of phase 1: the best slot so far and its priority. -/
def better (tbl : Table) (b : Option Slot × Int) (p : Slot) : Option Slot × Int :=
  if (tbl p).state = .RUNNABLE ∧ b.2 < (tbl p).priority then (some p, (tbl p).priority) else b

/-- Phase 1 of the v6+ scheduler. -/
def scan (tbl : Table) : Option Slot :=
  ((List.finRange NPROC).foldl (better tbl) (none, -1)).1

/-- The scheduler between two steps: the table, and where the v1..v5 loop
stands. -/
structure Sched where
  tbl : Table
  pos : Slot

/-- The slot after `p`, back to the first at the end of the table. -/
def next (p : Slot) : Slot := ⟨(p.val + 1) % NPROC, Nat.mod_lt _ (by decide)⟩

/-- One step of the scheduler and the process it dispatched, if any: an
iteration of `for(;;)` from v6 on (phase 2 finds the state unchanged: nothing
else runs), an iteration of the inner `for` before. -/
def turn (v : Version) (s : Sched) (ops : List Op) : Sched × Option Slot :=
  if priorityBoost v then
    match scan s.tbl with
    | some p => (⟨dispatch v s.tbl p ops, s.pos⟩, some p)
    | none => (s, none)
  else if (s.tbl s.pos).state = .RUNNABLE then
    (⟨dispatch v s.tbl s.pos ops, next s.pos⟩, some s.pos)
  else (⟨s.tbl, next s.pos⟩, none)

/-- The run in which the process dispatched at time `t` does `env t`. -/
def run (v : Version) (s : Sched) (env : Nat → List Op) : Nat → Sched
  | 0 => s
  | t + 1 => (turn v (run v s env t) (env t)).1

/-- Who is dispatched at time `t`. -/
def dispatched (v : Version) (s : Sched) (env : Nat → List Op) (t : Nat) : Option Slot :=
  (turn v (run v s env t) (env t)).2

def Runnable (tbl : Table) (p : Slot) : Prop := (tbl p).state = .RUNNABLE

/-- The runs in question: nobody sleeps or runs on another CPU, and everybody
who can get the CPU is at the base priority. -/
structure AtBase (tbl : Table) : Prop where
  awake : ∀ p, (tbl p).state ≠ .SLEEPING ∧ (tbl p).state ≠ .RUNNING
  base : ∀ p, (tbl p).state = .RUNNABLE ∨ (tbl p).state = .USED →
    (tbl p).priority = PRIORITY_BASE

/-- The round-robin promise, for a sequence of tables and dispatches. -/
def Fair (tbl : Nat → Table) (d : Nat → Option Slot) : Prop :=
  (∀ i j p q, i < j → d i = some q → d j = some q → (∀ t, i < t → t < j → d t ≠ some q) →
    p ≠ q → (∀ t, i < t → t ≤ j → Runnable (tbl t) p) → ∃ t, i < t ∧ t < j ∧ d t = some p) ∧
  (∀ i p, (∀ t, i ≤ t → Runnable (tbl t) p) → ∃ t, i ≤ t ∧ d t = some p)

/-! ## What a turn does to the table -/

theorem firstIn_state {tbl : Table} {st : ProcState} {k : Slot} (h : firstIn tbl st = some k) :
    (tbl k).state = st := by
  have := List.find?_some h
  simpa using this

/-- An operation of the running process leaves every RUNNABLE and RUNNING slot
alone. -/
theorem apply_keeps (tbl : Table) (op : Op) {p : Slot}
    (hp : (tbl p).state = .RUNNABLE ∨ (tbl p).state = .RUNNING) : op.apply tbl p = tbl p := by
  -- the slot an operation writes is UNUSED, USED or a ZOMBIE, so it is not `p`
  have hne : ∀ {k : Slot}, (tbl k).state = .UNUSED ∨ (tbl k).state = .USED ∨
      (tbl k).state = .ZOMBIE → p ≠ k := by
    intro k hk he
    rw [← he] at hk
    rcases hp with hp | hp <;> rw [hp] at hk <;> rcases hk with hk | hk | hk <;> cases hk
  cases op with
  | alloc =>
    simp only [Op.apply]
    cases hk : firstIn tbl .UNUSED with
    | none => rfl
    | some k => exact Function.update_of_ne (hne (.inl (firstIn_state hk))) _ _
  | start k =>
    simp only [Op.apply]
    by_cases hs : (tbl k).state = .USED
    · rw [if_pos hs]
      exact Function.update_of_ne (hne (.inr (.inl hs))) _ _
    · rw [if_neg hs]
  | free k =>
    simp only [Op.apply]
    by_cases hs : (tbl k).state = .USED ∨ (tbl k).state = .ZOMBIE
    · rw [if_pos hs]
      exact Function.update_of_ne (hne (.inr hs)) _ _
    · rw [if_neg hs]

theorem foldl_keeps (ops : List Op) {tbl : Table} {p : Slot}
    (hp : (tbl p).state = .RUNNABLE ∨ (tbl p).state = .RUNNING) :
    ops.foldl Op.apply tbl p = tbl p := by
  induction ops generalizing tbl with
  | nil => rfl
  | cons op ops ih =>
    have hk := apply_keeps tbl op hp
    rw [List.foldl_cons, ih (by rw [hk]; exact hp), hk]

/-- A dispatch leaves every other RUNNABLE process RUNNABLE, and its own too. -/
theorem dispatch_runnable (v : Version) {tbl : Table} (p : Slot) (ops : List Op) {q : Slot}
    (hq : Runnable tbl q) : Runnable (dispatch v tbl p ops) q := by
  unfold dispatch Runnable
  by_cases hqp : q = p
  · subst hqp
    simp
  · simp only [Function.update_of_ne hqp]
    have hu : Function.update tbl p { tbl p with state := .RUNNING } q = tbl q :=
      Function.update_of_ne hqp _ _
    rw [foldl_keeps ops (.inl (by rw [hu]; exact hq)), hu]
    exact hq

/-- What the operations keep, the running process `p` apart. -/
def BaseBut (p : Slot) (tbl : Table) : Prop :=
  ∀ q, q ≠ p → ((tbl q).state ≠ .SLEEPING ∧ (tbl q).state ≠ .RUNNING) ∧
    ((tbl q).state = .RUNNABLE ∨ (tbl q).state = .USED → (tbl q).priority = PRIORITY_BASE)

theorem update_base {p : Slot} {tbl : Table} (h : BaseBut p tbl) {k : Slot} {r : Proc}
    (hs : r.state ≠ .SLEEPING ∧ r.state ≠ .RUNNING)
    (hr : r.state = .RUNNABLE ∨ r.state = .USED → r.priority = PRIORITY_BASE) :
    BaseBut p (Function.update tbl k r) := by
  intro q hq
  by_cases hk : q = k
  · subst hk
    rw [Function.update_self]
    exact ⟨hs, hr⟩
  · rw [Function.update_of_ne hk]
    exact h q hq

theorem apply_base {p : Slot} {tbl : Table} (h : BaseBut p tbl) (hp : (tbl p).state = .RUNNING)
    (op : Op) : BaseBut p (op.apply tbl) := by
  cases op with
  | alloc =>
    simp only [Op.apply]
    cases hk : firstIn tbl .UNUSED with
    | none => exact h
    | some k => exact update_base h (by simp) fun _ => rfl
  | start k =>
    simp only [Op.apply]
    split
    next hs =>
      have hkp : k ≠ p := by
        intro he
        rw [he, hp] at hs
        cases hs
      exact update_base h (by simp) fun _ => (h k hkp).2 (.inr hs)
    · exact h
  | free k =>
    simp only [Op.apply]
    split
    · exact update_base h (by simp) fun _ => rfl
    · exact h

theorem foldl_base {p : Slot} (ops : List Op) {tbl : Table} (h : BaseBut p tbl)
    (hp : (tbl p).state = .RUNNING) : BaseBut p (ops.foldl Op.apply tbl) := by
  induction ops generalizing tbl with
  | nil => exact h
  | cons op ops ih =>
    exact ih (apply_base h hp op) (by rw [apply_keeps tbl op (.inr hp)]; exact hp)

/-- **The turn of a process keeps the table at the base priority.** -/
theorem dispatch_base {v : Version} {tbl : Table} {p : Slot} (ops : List Op) (h : AtBase tbl)
    (hp : Runnable tbl p) : AtBase (dispatch v tbl p ops) := by
  have hbut : BaseBut p (Function.update tbl p { tbl p with state := .RUNNING }) := by
    intro q hq
    rw [Function.update_of_ne hq]
    exact ⟨h.awake q, h.base q⟩
  have hrun : (Function.update tbl p { tbl p with state := .RUNNING } p).state = .RUNNING := by
    rw [Function.update_self]
  have hend := foldl_base ops hbut hrun
  have hown : (ops.foldl Op.apply
      (Function.update tbl p { tbl p with state := .RUNNING }) p).priority = PRIORITY_BASE := by
    rw [foldl_keeps ops (.inr hrun), Function.update_self]
    exact h.base p (.inl hp)
  unfold dispatch
  refine ⟨fun q => ?_, fun q hq => ?_⟩
  · by_cases hqp : q = p
    · subst hqp
      simp
    · simp only [Function.update_of_ne hqp]
      exact (hend q hqp).1
  · by_cases hqp : q = p
    · subst hqp
      simp [decay, hown]
    · simp only [Function.update_of_ne hqp] at hq ⊢
      exact (hend q hqp).2 hq

/-! ## At equal priority the scan is the first RUNNABLE slot -/

theorem foldl_better_base {tbl : Table} (h : AtBase tbl) (q : Slot) (l : List Slot) :
    l.foldl (better tbl) (some q, PRIORITY_BASE) = (some q, PRIORITY_BASE) := by
  induction l with
  | nil => rfl
  | cons p l ih =>
    have hb : better tbl (some q, PRIORITY_BASE) p = (some q, PRIORITY_BASE) := by
      refine if_neg fun hp => ?_
      have hbase := h.base p (.inl hp.1)
      have hlt := hp.2
      rw [hbase] at hlt
      exact absurd hlt (lt_irrefl _)
    rw [List.foldl_cons, hb, ih]

theorem scan_eq_find {tbl : Table} (h : AtBase tbl) (l : List Slot) :
    (l.foldl (better tbl) (none, -1)).1 = l.find? fun p => (tbl p).state == .RUNNABLE := by
  induction l with
  | nil => rfl
  | cons p l ih =>
    rw [List.foldl_cons, List.find?_cons]
    by_cases hp : (tbl p).state = .RUNNABLE
    · have hb : better tbl (none, -1) p = (some p, PRIORITY_BASE) := by
        unfold better
        rw [h.base p (.inl hp), if_pos ⟨hp, by decide⟩]
      rw [hb, foldl_better_base h, show ((tbl p).state == .RUNNABLE) = true by simpa using hp]
    · have hb : better tbl (none, -1) p = (none, -1) := if_neg fun hc => hp hc.1
      rw [hb, ih, show ((tbl p).state == .RUNNABLE) = false by simpa using hp]

/-- **Ties go to the first slot**, every time. -/
theorem scan_first {tbl : Table} (h : AtBase tbl) : scan tbl = firstIn tbl .RUNNABLE :=
  scan_eq_find h _

theorem firstIn_le {tbl : Table} {st : ProcState} {k p : Slot} (h : firstIn tbl st = some k)
    (hp : (tbl p).state = st) : k ≤ p := by
  obtain ⟨-, as, bs, heq, hnot⟩ := List.find?_eq_some_iff_append.mp h
  have hsorted := List.pairwise_lt_finRange NPROC
  have hmem : p ∈ as ++ k :: bs := heq ▸ List.mem_finRange p
  rw [heq] at hsorted
  rcases List.mem_append.mp hmem with hin | hin
  · exact absurd (hnot p hin) (by simp [hp])
  · rcases List.mem_cons.mp hin with rfl | hin
    · exact le_refl _
    · exact le_of_lt ((List.pairwise_cons.mp (List.pairwise_append.mp hsorted).2.1).1 p hin)

theorem exists_firstIn {tbl : Table} {st : ProcState} {p : Slot} (hp : (tbl p).state = st) :
    ∃ k, firstIn tbl st = some k := by
  refine Option.isSome_iff_exists.mp (List.find?_isSome.mpr ⟨p, List.mem_finRange p, ?_⟩)
  simp [hp]

/-! ## Runs -/

section

variable {v : Version} {s : Sched} {env : Nat → List Op}

theorem run_succ (t : Nat) : run v s env (t + 1) = (turn v (run v s env t) (env t)).1 := rfl

/-- The one who is dispatched is RUNNABLE. -/
theorem scan_runnable {tbl : Table} (h : AtBase tbl) {p : Slot} (hp : scan tbl = some p) :
    Runnable tbl p :=
  firstIn_state (scan_first h ▸ hp)

theorem turn_base {s : Sched} (h : AtBase s.tbl) (ops : List Op) :
    AtBase (turn v s ops).1.tbl := by
  unfold turn
  split
  · cases hp : scan s.tbl with
    | none => exact h
    | some p => exact dispatch_base ops h (scan_runnable h hp)
  · split
    next hp => exact dispatch_base ops h hp
    · exact h

theorem run_base (h : AtBase s.tbl) (t : Nat) : AtBase (run v s env t).tbl := by
  induction t with
  | zero => exact h
  | succ t ih => exact turn_base ih (env t)

theorem turn_runnable {s : Sched} (ops : List Op) {q : Slot} (hq : Runnable s.tbl q) :
    Runnable (turn v s ops).1.tbl q := by
  unfold turn
  split
  · cases hp : scan s.tbl with
    | none => exact hq
    | some p => exact dispatch_runnable v p ops hq
  · split
    · exact dispatch_runnable v s.pos ops hq
    · exact hq

/-- Once RUNNABLE, always RUNNABLE at the scheduler's steps. -/
theorem run_runnable {i t : Nat} (hit : i ≤ t) {q : Slot}
    (hq : Runnable (run v s env i).tbl q) : Runnable (run v s env t).tbl q := by
  induction t, hit using Nat.le_induction with
  | base => exact hq
  | succ t _ ih => exact turn_runnable (env t) ih

/-! ## The old loop -/

/-- The v1..v5 loop looks at the slots one after the other. -/
theorem pos_run (hv : priorityBoost v = false) (t : Nat) :
    (run v s env t).pos.val = (s.pos.val + t) % NPROC := by
  induction t with
  | zero => exact (Nat.mod_eq_of_lt s.pos.isLt).symm
  | succ t ih =>
    have hnext : (run v s env (t + 1)).pos = next (run v s env t).pos := by
      rw [run_succ]
      unfold turn
      rw [hv]
      simp only [Bool.false_eq_true, if_false]
      split <;> rfl
    rw [hnext]
    show ((run v s env t).pos.val + 1) % NPROC = _
    rw [ih, Nat.mod_add_mod, Nat.add_assoc]

theorem dispatched_pos (hv : priorityBoost v = false) {t : Nat} {p : Slot} :
    dispatched v s env t = some p ↔
      (run v s env t).pos = p ∧ Runnable (run v s env t).tbl p := by
  unfold dispatched turn
  rw [hv]
  simp only [Bool.false_eq_true, if_false]
  split
  next h =>
    constructor
    · intro he
      obtain rfl := Option.some.inj he
      exact ⟨rfl, h⟩
    · rintro ⟨rfl, -⟩
      rfl
  next h =>
    constructor
    · intro he
      cases he
    · rintro ⟨rfl, hr⟩
      exact absurd hr h

/-- Every slot comes up within `NPROC` steps. -/
theorem exists_pos (hv : priorityBoost v = false) (i : Nat) (p : Slot) :
    ∃ t, i ≤ t ∧ t < i + NPROC ∧ (run v s env t).pos = p := by
  have hp : p.val < 64 := p.isLt
  have hs : s.pos.val < 64 := s.pos.isLt
  refine ⟨i + (p.val + 64 - (s.pos.val + i) % 64) % 64, Nat.le_add_right _ _, ?_, ?_⟩
  · exact Nat.add_lt_add_left (Nat.mod_lt _ (by decide)) i
  · apply Fin.ext
    rw [pos_run hv]
    show (s.pos.val + (i + (p.val + 64 - (s.pos.val + i) % 64) % 64)) % 64 = p.val
    omega

/-- **Round-robin is fair**, whoever forks when. -/
theorem roundRobin_fair (hv : priorityBoost v = false) :
    Fair (fun t => (run v s env t).tbl) (dispatched v s env) := by
  refine ⟨fun i j p q hij hi hj _ hpq hrun => ?_, fun i p hrun => ?_⟩
  · obtain ⟨hqi, -⟩ := (dispatched_pos hv).mp hi
    obtain ⟨hqj, -⟩ := (dispatched_pos hv).mp hj
    obtain ⟨t, h1, h2, hp⟩ := @exists_pos v s env hv i p
    -- `q` came up at `i` and at `j`, so a whole round lies between them
    have hround : i + NPROC ≤ j := by
      have h3 : q.val = (s.pos.val + i) % 64 := hqi ▸ pos_run hv i
      have h4 : q.val = (s.pos.val + j) % 64 := hqj ▸ pos_run hv j
      show i + 64 ≤ j
      omega
    have hne : t ≠ i := by
      rintro rfl
      exact hpq (hp.symm.trans hqi)
    exact ⟨t, by omega, by omega, (dispatched_pos hv).mpr ⟨hp, hrun t (by omega) (by omega)⟩⟩
  · obtain ⟨t, h1, -, hp⟩ := @exists_pos v s env hv i p
    exact ⟨t, h1, (dispatched_pos hv).mpr ⟨hp, hrun t h1⟩⟩

/-! ## The new loop -/

theorem dispatched_scan (hv : priorityBoost v = true) (t : Nat) :
    dispatched v s env t = scan (run v s env t).tbl := by
  unfold dispatched turn
  rw [if_pos hv]
  cases scan (run v s env t).tbl <;> rfl

/-- Who is picked at `t`, once somebody is RUNNABLE. -/
theorem exists_pick (hv : priorityBoost v = true) (hb : AtBase s.tbl) {i t : Nat} (hit : i ≤ t)
    {q : Slot} (hq : Runnable (run v s env i).tbl q) :
    ∃ k, dispatched v s env t = some k ∧ Runnable (run v s env t).tbl k ∧
      ∀ p, Runnable (run v s env t).tbl p → k ≤ p := by
  have hbt := @run_base v s env hb t
  obtain ⟨k, hk⟩ := exists_firstIn (run_runnable hit hq)
  exact ⟨k, by rw [dispatched_scan hv, scan_first hbt, hk], firstIn_state hk,
    fun p hp => firstIn_le hk hp⟩

/-- A sequence of numbers that never grows ends up constant. -/
theorem antitone_const {f : Nat → Nat} (h : ∀ t, f (t + 1) ≤ f t) :
    ∃ T, ∀ t, T ≤ t → f t = f T := by
  obtain ⟨m, ⟨T, hT⟩, hmin⟩ := WellFounded.has_min wellFounded_lt (Set.range f) ⟨f 0, 0, rfl⟩
  have hanti : Antitone f := antitone_nat_of_succ_le h
  refine ⟨T, fun t ht => le_antisymm (hanti ht) ?_⟩
  have := hmin (f t) ⟨t, rfl⟩
  omega

/-- **The new loop gets stuck on one process**: from some time on it dispatches
the same slot for ever. -/
theorem pick_stuck (hv : priorityBoost v = true) (hb : AtBase s.tbl) {i : Nat} {q : Slot}
    (hq : Runnable (run v s env i).tbl q) :
    ∃ T k, i ≤ T ∧ ∀ t, T ≤ t → dispatched v s env t = some k := by
  have hpick : ∀ n, ∃ k, dispatched v s env (i + n) = some k ∧
      Runnable (run v s env (i + n)).tbl k ∧
      ∀ p, Runnable (run v s env (i + n)).tbl p → k ≤ p :=
    fun n => exists_pick hv hb (Nat.le_add_right i n) hq
  choose pick hd hr hmin using hpick
  have hanti : ∀ n, (pick (n + 1)).val ≤ (pick n).val := fun n =>
    hmin (n + 1) (pick n) (run_runnable (Nat.le_succ (i + n)) (hr n))
  obtain ⟨N, hN⟩ := antitone_const (f := fun n => (pick n).val) hanti
  refine ⟨i + N, pick N, Nat.le_add_right i N, fun t ht => ?_⟩
  obtain ⟨m, rfl⟩ := Nat.exists_eq_add_of_le ht
  have hm := hN (N + m) (Nat.le_add_right N m)
  rw [Nat.add_assoc, hd (N + m), Fin.ext hm]

/-- **When the new loop is fair**: only if there never is a second RUNNABLE
process. -/
theorem priority_fair_iff (hv : priorityBoost v = true) (hb : AtBase s.tbl) :
    Fair (fun t => (run v s env t).tbl) (dispatched v s env) ↔
      ∀ t p q, Runnable (run v s env t).tbl p → Runnable (run v s env t).tbl q → p = q := by
  constructor
  · rintro ⟨-, hstarve⟩ t p q hp hq
    obtain ⟨T, k, hT, hk⟩ := pick_stuck hv hb hp
    -- both are dispatched some time after `T`, so both are `k`
    have hself : ∀ r, Runnable (run v s env t).tbl r → r = k := by
      intro r hr
      obtain ⟨u, hu, hd⟩ := hstarve T r fun u hu => run_runnable (le_trans hT hu) hr
      rw [hk u hu] at hd
      exact (Option.some.inj hd).symm
    rw [hself p hp, hself q hq]
  · intro hone
    refine ⟨fun i j p q hij hi hj _ hpq hrun => ?_, fun i p hrun => ?_⟩
    · refine absurd (hone j p q (hrun j hij (le_refl j)) ?_) hpq
      rw [dispatched_scan hv] at hj
      exact scan_runnable (run_base hb j) hj
    · obtain ⟨k, hd, hr, -⟩ := exists_pick hv hb (le_refl i) (hrun i (le_refl i))
      exact ⟨i, le_refl i, by rw [hd, hone i k p hr (hrun i (le_refl i))]⟩

end

/-- **Round-robin at equal priority.** On one CPU, with every process at the
base priority and giving up the CPU only by `yield`, the v1..v5 loop is fair in
every run; the v6+ loop is fair in exactly the runs in which no scan finds two
RUNNABLE processes. -/
theorem round_robin_compatible_iff {s : Sched} (hb : AtBase s.tbl) (env : Nat → List Op) :
    (∀ v, priorityBoost v = false →
      Fair (fun t => (run v s env t).tbl) (dispatched v s env)) ∧
    (∀ v, priorityBoost v = true →
      (Fair (fun t => (run v s env t).tbl) (dispatched v s env) ↔
        ∀ t p q, Runnable (run v s env t).tbl p → Runnable (run v s env t).tbl q → p = q)) :=
  ⟨fun _ hv => roundRobin_fair hv, fun _ hv => priority_fair_iff hv hb⟩

/-- A table with the first `n` slots RUNNABLE and the others never used. -/
def firstRunnable (n : Nat) : Table :=
  fun p => if p.val < n then { boot with state := .RUNNABLE } else boot

theorem firstRunnable_base (n : Nat) : AtBase (firstRunnable n) := by
  refine ⟨fun p => ?_, fun p _ => ?_⟩
  · unfold firstRunnable
    split <;> simp [boot]
  · unfold firstRunnable
    split <;> rfl

/-- A process that does nothing but compute leaves the table as it was. -/
theorem dispatch_idle {v : Version} {tbl : Table} (h : AtBase tbl) {p : Slot}
    (hp : Runnable tbl p) : dispatch v tbl p [] = tbl := by
  unfold dispatch
  funext q
  by_cases hq : q = p
  · subst hq
    have hbase := h.base q (.inl hp)
    have hstate : (tbl q).state = .RUNNABLE := hp
    rw [Function.update_self, List.foldl_nil, Function.update_self]
    simp only [decay, hbase, lt_irrefl, and_false, if_false, ← hstate]
    rw [← hbase]
  · rw [Function.update_of_ne hq, List.foldl_nil, Function.update_of_ne hq]

theorem run_idle {v : Version} (hv : priorityBoost v = true) {s : Sched} (h : AtBase s.tbl)
    (t : Nat) : run v s (fun _ => []) t = s := by
  induction t with
  | zero => rfl
  | succ t ih =>
    rw [run_succ, ih]
    unfold turn
    rw [if_pos hv]
    cases hp : scan s.tbl with
    | none => rfl
    | some p => simp only [dispatch_idle h (scan_runnable h hp)]

/-- One process alone: the new loop is fair. -/
theorem round_robin_compatible_alone :
    Fair (fun t => (run .v7 ⟨firstRunnable 1, 0⟩ (fun _ => []) t).tbl)
      (dispatched .v7 ⟨firstRunnable 1, 0⟩ fun _ => []) := by
  refine ((round_robin_compatible_iff (firstRunnable_base 1) fun _ => []).2 .v7 rfl).mpr ?_
  intro t p q hp hq
  rw [run_idle rfl (firstRunnable_base 1)] at hp hq
  have hzero : ∀ r : Slot, Runnable (firstRunnable 1) r → r.val = 0 := by
    intro r hr
    unfold Runnable firstRunnable at hr
    split at hr
    · omega
    · cases hr
  exact Fin.ext ((hzero p hp).trans (hzero q hq).symm)

/-- Two processes that only compute: slot `0` is dispatched every time, although
slot `1` stays RUNNABLE. -/
theorem second_process_starves :
    (∀ t, dispatched .v7 ⟨firstRunnable 2, 0⟩ (fun _ => []) t = some 0) ∧
    (∀ t, Runnable (run .v7 ⟨firstRunnable 2, 0⟩ (fun _ => []) t).tbl 1) ∧
    ¬Fair (fun t => (run .v7 ⟨firstRunnable 2, 0⟩ (fun _ => []) t).tbl)
      (dispatched .v7 ⟨firstRunnable 2, 0⟩ fun _ => []) := by
  have hrun := fun t => run_idle (v := .v7) rfl (s := ⟨firstRunnable 2, 0⟩)
    (firstRunnable_base 2) t
  have hd : ∀ t, dispatched .v7 ⟨firstRunnable 2, 0⟩ (fun _ => []) t = some 0 := by
    intro t
    rw [dispatched_scan rfl, hrun t, scan_first (firstRunnable_base 2)]
    rfl
  have hr : ∀ t, Runnable (run .v7 ⟨firstRunnable 2, 0⟩ (fun _ => []) t).tbl 1 := by
    intro t
    rw [hrun t]
    rfl
  refine ⟨hd, hr, fun hfair => ?_⟩
  obtain ⟨t, h1, h2, -⟩ := hfair.1 0 1 1 0 (by decide) (hd 0) (hd 1) (fun t h1 h2 => by omega)
    (by decide) fun t _ _ => hr t
  omega

end Xv6.Proc
