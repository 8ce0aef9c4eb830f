import Xv6.Lib.Run
import Xv6.Proc.RoundRobin

/-!
# Priorities of v6+

Every access to the state and the priority of a slot is made under its `p->lock`, phase
1 of the scheduler apart. So the steps here are what `proc.c` does to one slot while it
holds that lock: `wakeup` and `kkill`, which go through the table, are as many steps as
they look at slots, and others may come between.

The run keeps for every slot what it did for its priority (`account`): nothing since
`allocproc`, or the `yield`s since a `wakeup` last moved it.

> `priority_account`: the priority of a live process is what these give.

> `scan_spec`: with priorities that are never below `PRIORITY_BASE` the scan misses
> nobody, and comes up with the first slot of the highest priority.
-/

namespace Xv6.Proc

open Lib

/-- What is done to a slot under its lock. -/
inductive Locked
  /-- `allocproc` for the slot it found, and whether there are pages for the trapframe
  and the page table. -/
  | allocproc (q : Slot) (pid : BitVec 32) (trapframe pagetable : Bool)
  /-- The end of `kfork` and `userinit`: `p->state = RUNNABLE`. -/
  | start (q : Slot)
  | freeproc (q : Slot)
  /-- Phase 2 of `scheduler`. -/
  | dispatch (q : Slot)
  | yield (p : Slot)
  /-- `sleep(chan, lk)`, up to `sched()`. -/
  | sleep (p : Slot) (ch : WaitChan)
  /-- `p->chan = 0` at the end of `sleep`. -/
  | awake (p : Slot)
  /-- One turn of the loop of `wakeup(chan)`; `me` is `myproc()`. -/
  | wakeup (me : Option Slot) (ch : Option WaitChan) (q : Slot)
  /-- One turn of the loop of `kkill(pid)`. -/
  | kkill (pid : BitVec 32) (q : Slot)
  | setkilled (p : Slot)
  | kexit (p : Slot) (status : Int)

/-- `freeproc(p)`. -/
def freed (r : Proc) : Proc :=
  { r with
    trapframe := false
    pagetable := false
    pid := 0
    chan := none
    killed := false
    xstate := 0
    priority := PRIORITY_BASE
    state := .UNUSED }

/-- `allocproc()` from `found:` on. -/
def allocated (r : Proc) (pid : BitVec 32) (trapframe pagetable : Bool) : Proc :=
  let r := { r with pid := pid, state := .USED, priority := PRIORITY_BASE }
  if trapframe = false then freed r
  else if pagetable = false then freed { r with trapframe := true }
  else { r with trapframe := true, pagetable := true }

/-- Whether `wakeup(ch)` moves the slot. -/
def Moves (tbl : Table) (me : Option Slot) (ch : Option WaitChan) (q : Slot) : Prop :=
  some q ≠ me ∧ (tbl q).state = .SLEEPING ∧ (tbl q).chan = ch

instance (tbl : Table) (me : Option Slot) (ch : Option WaitChan) (q : Slot) :
    Decidable (Moves tbl me ch q) := by unfold Moves; infer_instance

/-- The slot a step is about. -/
def Locked.slot : Locked → Slot
  | .allocproc q .. | .start q | .freeproc q | .dispatch q | .yield q | .sleep q _ | .awake q
  | .wakeup _ _ q | .kkill _ q | .setkilled q | .kexit q _ => q

/-- What becomes of it, or `none` where the code does not get to that step: only a process
that has the CPU yields, sleeps, marks itself or exits, and only a slot that is held by a
half-made `kfork` or was found a ZOMBIE is freed. -/
def Locked.apply (v : Version) (tbl : Table) : Locked → Option Proc
  | .allocproc q pid trapframe pagetable =>
    if (tbl q).state = .UNUSED then some (allocated (tbl q) pid trapframe pagetable) else none
  | .start q => if (tbl q).state = .USED then some { tbl q with state := .RUNNABLE } else none
  | .freeproc q =>
    if (tbl q).state = .USED ∨ (tbl q).state = .ZOMBIE then some (freed (tbl q)) else none
  | .dispatch q =>
    some (if (tbl q).state = .RUNNABLE then { tbl q with state := .RUNNING } else tbl q)
  | .yield p =>
    if (tbl p).state = .RUNNING then
      some { tbl p with priority := decay v (tbl p).priority, state := .RUNNABLE }
    else none
  | .sleep p ch =>
    if (tbl p).state = .RUNNING then some { tbl p with chan := some ch, state := .SLEEPING }
    else none
  | .awake p => if (tbl p).state = .RUNNING then some { tbl p with chan := none } else none
  | .wakeup me ch q =>
    some (if Moves tbl me ch q then
      let r := { tbl q with state := .RUNNABLE }
      if priorityBoost v then { r with priority := PRIORITY_BOOST } else r
    else tbl q)
  | .kkill pid q =>
    some (if (tbl q).pid = pid then
      let r := { tbl q with killed := true }
      if r.state = .SLEEPING then { r with state := .RUNNABLE } else r
    else tbl q)
  | .setkilled p => if (tbl p).state = .RUNNING then some { tbl p with killed := true } else none
  | .kexit p status =>
    if (tbl p).state = .RUNNING then some { tbl p with xstate := status, state := .ZOMBIE }
    else none

/-- A step of the table. -/
def stepTable (v : Version) (tbl : Table) (a : Locked) : Option Table :=
  (a.apply v tbl).map fun r => Function.update tbl a.slot r

/-- `procinit()`. -/
def bootTable (tbl : Table) : Prop := ∀ q, tbl q = boot

/-! ## What a step does to a priority -/

/-- **The priorities a step leaves**: that of its own slot, and how. -/
inductive Priority (v : Version) (tbl : Table) : Locked → Int → Prop
  | alloc {q : Slot} {pid : BitVec 32} {t g : Bool} :
  Priority v tbl (.allocproc q pid t g) PRIORITY_BASE
  | free {q : Slot} : Priority v tbl (.freeproc q) PRIORITY_BASE
  | yield {p : Slot} : Priority v tbl (.yield p) (decay v (tbl p).priority)
  | boost {me : Option Slot} {ch : Option WaitChan} {q : Slot} : Moves tbl me ch q →
      priorityBoost v = true → Priority v tbl (.wakeup me ch q) PRIORITY_BOOST
  | keep {a : Locked} : (∀ q pid t g, a ≠ .allocproc q pid t g) → (∀ q, a ≠ .freeproc q) →
      (∀ p, a ≠ .yield p) →
      (∀ me ch q, priorityBoost v = true → a = .wakeup me ch q → ¬ Moves tbl me ch q) →
      Priority v tbl a (tbl a.slot).priority

theorem allocated_priority (r : Proc) (pid : BitVec 32) (t g : Bool) :
    (allocated r pid t g).priority = PRIORITY_BASE := by
  unfold allocated
  dsimp only
  split
  · rfl
  · split <;> rfl

theorem apply_priority {v : Version} {tbl : Table} {a : Locked} {r : Proc}
    (h : a.apply v tbl = some r) : Priority v tbl a r.priority := by
  cases a with
  | allocproc q pid t g =>
    obtain ⟨-, hr⟩ := Option.ite_none_right_eq_some.mp h
    rw [← Option.some.inj hr, allocated_priority]
    exact .alloc
  | freeproc q =>
    obtain ⟨-, hr⟩ := Option.ite_none_right_eq_some.mp h
    rw [← Option.some.inj hr]
    exact .free
  | yield p =>
    obtain ⟨-, hr⟩ := Option.ite_none_right_eq_some.mp h
    rw [← Option.some.inj hr]
    exact .yield
  | wakeup me ch q =>
    have hr := Option.some.inj h
    by_cases hm : Moves tbl me ch q
    · by_cases hv : priorityBoost v = true
      · rw [if_pos hm, if_pos hv] at hr
        rw [← hr]
        exact .boost hm hv
      · have hkeep : r.priority = (tbl q).priority := by
          rw [if_pos hm, if_neg hv] at hr
          rw [← hr]
        rw [hkeep]
        exact .keep (by simp) (by simp) (by simp) fun _ _ _ hv' => absurd hv' hv
    · rw [if_neg hm] at hr
      rw [← hr]
      refine .keep (by simp) (by simp) (by simp) fun _ _ _ _ he => ?_
      cases he
      exact hm
  | dispatch q =>
    have hr := Option.some.inj h
    have hkeep : r.priority = (tbl q).priority := by
      rw [← hr]
      split <;> rfl
    rw [hkeep]
    exact .keep (by simp) (by simp) (by simp) (by simp)
  | kkill pid q =>
    have hr := Option.some.inj h
    have hkeep : r.priority = (tbl q).priority := by
      rw [← hr]
      split
      · dsimp only
        split <;> rfl
      · rfl
    rw [hkeep]
    exact .keep (by simp) (by simp) (by simp) (by simp)
  | start q | sleep q _ | awake q | setkilled q | kexit q _ =>
    obtain ⟨-, hr⟩ := Option.ite_none_right_eq_some.mp h
    rw [← Option.some.inj hr]
    exact .keep (by simp) (by simp) (by simp) (by simp)

theorem stepTable_some {v : Version} {tbl tbl' : Table} {a : Locked}
    (h : stepTable v tbl a = some tbl') :
    ∃ r, a.apply v tbl = some r ∧ tbl' = Function.update tbl a.slot r := by
  obtain ⟨r, hr, rfl⟩ := Option.map_eq_some_iff.mp h
  exact ⟨r, hr, rfl⟩

/-! ## The bounds -/

/-- The priorities are between the two constants. -/
def Bounded (tbl : Table) : Prop :=
  ∀ q, PRIORITY_BASE ≤ (tbl q).priority ∧ (tbl q).priority ≤ PRIORITY_BOOST

theorem decay_bounds (v : Version) {x : Int} (h : PRIORITY_BASE ≤ x ∧ x ≤ PRIORITY_BOOST) :
    PRIORITY_BASE ≤ decay v x ∧ decay v x ≤ PRIORITY_BOOST := by
  unfold decay
  split
  next hd => omega
  next => exact h

theorem Bounded.step {v : Version} {tbl tbl' : Table} {a : Locked} (hb : Bounded tbl)
    (h : stepTable v tbl a = some tbl') : Bounded tbl' := by
  obtain ⟨r, hr, rfl⟩ := stepTable_some h
  have hlt : PRIORITY_BASE ≤ PRIORITY_BOOST := by decide
  intro q
  by_cases hq : q = a.slot
  · rw [hq, Function.update_self]
    have hp := apply_priority hr
    generalize r.priority = x at hp
    cases hp with
    | alloc => exact ⟨le_rfl, hlt⟩
    | free => exact ⟨le_rfl, hlt⟩
    | yield => exact decay_bounds v (hb _)
    | boost _ _ => exact ⟨hlt, le_rfl⟩
    | keep _ _ _ _ => exact hb _
  · rw [Function.update_of_ne hq]
    exact hb q

theorem reach_bounded {v : Version} {tbl : Table} (h : Reach (stepTable v) Any bootTable tbl) :
    Bounded tbl := by
  refine h.inv (fun s hs q => ?_) fun hi _ hs => Bounded.step hi hs
  rw [hs q]
  exact ⟨le_rfl, by decide⟩

/-! ## The scan -/

/-- What phase 1 has after the slots `l`. -/
structure Best (tbl : Table) (l : List Slot) (b : Option Slot × Int) : Prop where
  empty : b.1 = none → b.2 = -1 ∧ ∀ q, q ∈ l → (tbl q).state ≠ .RUNNABLE
  found : ∀ p, b.1 = some p → p ∈ l ∧ (tbl p).state = .RUNNABLE ∧ b.2 = (tbl p).priority
  top : ∀ q, q ∈ l → (tbl q).state = .RUNNABLE → (tbl q).priority ≤ b.2
  first : ∀ p q, b.1 = some p → q ∈ l → (tbl q).state = .RUNNABLE → (tbl q).priority = b.2 → p ≤ q

/-- **One round**: the slot `p` comes after those looked at. -/
theorem Best.step {tbl : Table} (hb : Bounded tbl) {l : List Slot}
    {b : Option Slot × Int} {p : Slot}
    (h : Best tbl l b) (hp : ∀ q, q ∈ l → q ≤ p) : Best tbl (l ++ [p]) (better tbl b p) := by
  have hin : ∀ {q}, q ∈ l ++ [p] → q ∈ l ∨ q = p := fun hq => by
    rcases List.mem_append.mp hq with hq | hq
    · exact .inl hq
    · exact .inr (List.mem_singleton.mp hq)
  have hpl : p ∈ l ++ [p] := List.mem_append_right _ (List.mem_singleton.mpr rfl)
  unfold better
  split
  next hlt =>
    refine ⟨fun hn => absurd hn (Option.some_ne_none p), fun p' hp' => ?_, fun q hq hr => ?_,
      fun p' q hp' hq hr heq => ?_⟩
    · cases hp'
      exact ⟨hpl, hlt.1, rfl⟩
    · rcases hin hq with hq | rfl
      · exact le_of_lt (lt_of_le_of_lt (h.top q hq hr) hlt.2)
      · exact le_rfl
    · cases hp'
      rcases hin hq with hq | rfl
      · -- a slot before has a lower priority
        have hle := h.top q hq hr
        have hlt := hlt.2
        dsimp only at heq
        omega
      · exact le_rfl
  next hge =>
    have hpr : (tbl p).state = .RUNNABLE → (tbl p).priority ≤ b.2 := fun hr => by
      by_contra hlt
      exact hge ⟨hr, by omega⟩
    refine ⟨fun hn => ?_, fun p' hp' => ?_, fun q hq hr => ?_, fun p' q hp' hq hr heq => ?_⟩
    · obtain ⟨hb2, hnone⟩ := h.empty hn
      refine ⟨hb2, fun q hq hr => ?_⟩
      rcases hin hq with hq | rfl
      · exact hnone q hq hr
      · have hle := hpr hr
        have hlo := (hb q).1
        have h0 : PRIORITY_BASE = 0 := rfl
        omega
    · obtain ⟨hmem, hr, heq⟩ := h.found p' hp'
      exact ⟨List.mem_append_left _ hmem, hr, heq⟩
    · rcases hin hq with hq | rfl
      · exact h.top q hq hr
      · exact hpr hr
    · rcases hin hq with hq | rfl
      · exact h.first p' q hp' hq hr heq
      · exact hp p' (h.found p' hp').1

/-- The loop, over slots in order. -/
theorem best_foldl {tbl : Table} (hb : Bounded tbl) (l : List Slot) :
    ∀ {done : List Slot} {b : Option Slot × Int}, Best tbl done b → (done ++ l).Pairwise (· < ·) →
      Best tbl (done ++ l) (l.foldl (better tbl) b) := by
  induction l with
  | nil =>
    intro done b h _
    rw [List.append_nil]
    exact h
  | cons p l ih =>
    intro done b h hs
    have hle : ∀ q, q ∈ done → q ≤ p := fun q hq =>
      le_of_lt ((List.pairwise_append.mp hs).2.2 q hq p List.mem_cons_self)
    have hnext := h.step hb hle
    rw [List.append_cons] at hs ⊢
    exact ih hnext hs

theorem scan_best {tbl : Table} (hb : Bounded tbl) :
    Best tbl (List.finRange NPROC) ((List.finRange NPROC).foldl (better tbl) (none, -1)) := by
  have h0 : Best tbl [] (none, -1) :=
    ⟨fun _ => ⟨rfl, fun q hq => absurd hq List.not_mem_nil⟩,
      fun p hp => absurd hp.symm (Option.some_ne_none p),
      fun q hq => absurd hq List.not_mem_nil, fun p q hp => absurd hp.symm (Option.some_ne_none p)⟩
  have hs := List.pairwise_lt_finRange NPROC
  exact best_foldl hb (List.finRange NPROC) h0 hs

/-- **Phase 1**: nobody when nobody is RUNNABLE, otherwise the first of those with the
highest priority. -/
theorem scan_spec {v : Version} {tbl : Table} (h : Reach (stepTable v) Any bootTable tbl) :
    (∀ q, PRIORITY_BASE ≤ (tbl q).priority ∧ (tbl q).priority ≤ PRIORITY_BOOST) ∧
    (scan tbl = none ↔ ∀ q, ¬ Runnable tbl q) ∧
    ∀ p, scan tbl = some p → Runnable tbl p ∧
      (∀ q, Runnable tbl q → (tbl q).priority ≤ (tbl p).priority) ∧
      ∀ q, Runnable tbl q → (tbl q).priority = (tbl p).priority → p ≤ q := by
  have hb := reach_bounded h
  have hbest := scan_best hb
  refine ⟨hb, ⟨fun hn q => ?_, fun hnone => ?_⟩, fun p hp => ?_⟩
  · exact (hbest.empty hn).2 q (List.mem_finRange q)
  · cases hs : scan tbl with
    | none => rfl
    | some p => exact absurd (hbest.found p hs).2.1 (hnone p)
  · obtain ⟨-, hr, heq⟩ := hbest.found p hp
    refine ⟨hr, fun q hq => ?_, fun q hq hpq => ?_⟩
    · exact heq ▸ hbest.top q (List.mem_finRange q) hq
    · exact hbest.first p q hp (List.mem_finRange q) hq (hpq.trans heq.symm)

/-- Two processes, of which the second was woken up. -/
def wokenRun : List Locked :=
  [.allocproc ⟨0, by decide⟩ 1 true true, .start ⟨0, by decide⟩,
    .allocproc ⟨1, by decide⟩ 2 true true,
    .start ⟨1, by decide⟩, .dispatch ⟨1, by decide⟩, .sleep ⟨1, by decide⟩ (.obj 0),
    .wakeup none (some (.obj 0)) ⟨1, by decide⟩]

theorem scan_spec_woken : ∃ tbl, Reach (stepTable .v7) Any bootTable tbl ∧
    scan tbl = some ⟨1, by decide⟩ ∧
    (tbl ⟨0, by decide⟩).priority ≤ (tbl ⟨1, by decide⟩).priority := by
  have hrun : ((runFrom (stepTable .v7) (fun _ => boot) wokenRun).map fun tbl =>
      (scan tbl, (tbl ⟨0, by decide⟩).state)) = some (some ⟨1, by decide⟩, .RUNNABLE) := by
    decide +kernel
  obtain ⟨tbl, htbl, hscan⟩ := Option.map_eq_some_iff.mp hrun
  rw [Prod.mk.injEq] at hscan
  have hreach : Reach (stepTable .v7) Any bootTable tbl :=
    Reach.of_run wokenRun (.start fun _ => rfl) (RunOk.any _ _ _) htbl
  exact ⟨tbl, hreach, hscan.1, ((scan_spec hreach).2.2 _ hscan.1).2.1 _ hscan.2⟩

/-! ## The account -/

/-- What a step adds to the account of a slot: `none` is no `wakeup` since `allocproc`,
`some k` is `k` calls of `yield` since the last one that moved it. -/
def account (tbl : Table) (g : Slot → Option Nat) (a : Locked) : Slot → Option Nat :=
  match a with
  | .allocproc q .. => Function.update g q none
  | .yield p => Function.update g p ((g p).map (· + 1))
  | .wakeup me ch q => if Moves tbl me ch q then Function.update g q (some 0) else g
  | _ => g

/-- A step of the table, with the accounts. -/
def stepAccount (v : Version) (s : Table × (Slot → Option Nat)) (a : Locked) :
    Option (Table × (Slot → Option Nat)) :=
  (stepTable v s.1 a).map fun tbl => (tbl, account s.1 s.2 a)

/-- The priority that an account comes to. -/
def due : Option Nat → Int
  | none => PRIORITY_BASE
  | some k => max PRIORITY_BASE (PRIORITY_BOOST - k)

/-- Every slot in use has its due. -/
def Accounted (s : Table × (Slot → Option Nat)) : Prop :=
  ∀ q, (s.1 q).state ≠ .UNUSED → (s.1 q).priority = due (s.2 q)

theorem decay_of_boost {v : Version} (hv : priorityBoost v = true) {x : Int}
    (hx : PRIORITY_BASE ≤ x) :
    decay v x = max PRIORITY_BASE (x - 1) := by
  unfold decay
  by_cases hlt : PRIORITY_BASE < x
  · rw [if_pos ⟨hv, hlt⟩]
    omega
  · rw [if_neg fun h => hlt h.2]
    omega

/-- A `yield` more. -/
theorem decay_due {v : Version} (hv : priorityBoost v = true) (g : Option Nat) :
    decay v (due g) = due (g.map (· + 1)) := by
  cases g with
  | none =>
    show decay v PRIORITY_BASE = PRIORITY_BASE
    rw [decay_of_boost hv le_rfl]
    rfl
  | some k =>
    show decay v (max PRIORITY_BASE (PRIORITY_BOOST - (k : Int)))
      = max PRIORITY_BASE (PRIORITY_BOOST - ((k + 1 : Nat) : Int))
    rw [decay_of_boost hv (le_max_left _ _)]
    omega

/-- No step makes a slot in use of a free one, `allocproc` apart. -/
theorem apply_unused {v : Version} {tbl : Table} {a : Locked} {r : Proc}
    (h : a.apply v tbl = some r)
    (hr : r.state ≠ .UNUSED) (ha : ∀ q pid t g, a ≠ .allocproc q pid t g) :
    (tbl a.slot).state ≠ .UNUSED := by
  intro hu
  cases a with
  | allocproc q pid t g => exact ha q pid t g rfl
  | dispatch q =>
    have he := Option.some.inj h
    rw [if_neg (by rw [show (tbl q).state = .UNUSED from hu]; exact ProcState.noConfusion)] at he
    exact hr (he ▸ hu)
  | wakeup me ch q =>
    have he := Option.some.inj h
    have hm : ¬ Moves tbl me ch q := fun hm => by
      have hs := hm.2.1
      rw [show (tbl q).state = .UNUSED from hu] at hs
      cases hs
    rw [if_neg hm] at he
    exact hr (he ▸ hu)
  | kkill pid q =>
    have he := Option.some.inj h
    have hu : (tbl q).state = .UNUSED := hu
    split at he
    · dsimp only at he
      rw [hu, if_neg ProcState.noConfusion] at he
      exact hr (by rw [← he])
    · exact hr (he ▸ hu)
  | freeproc q =>
    obtain ⟨-, he⟩ := Option.ite_none_right_eq_some.mp h
    exact hr (by rw [← Option.some.inj he]; rfl)
  | start q | yield q | sleep q _ | awake q | setkilled q | kexit q _ =>
    obtain ⟨hs, -⟩ := Option.ite_none_right_eq_some.mp h
    rw [show (tbl q).state = .UNUSED from hu] at hs
    cases hs

/-- An account is changed by steps about its slot only. -/
theorem account_of_ne (tbl : Table) (g : Slot → Option Nat) {a : Locked} {q : Slot}
    (h : q ≠ a.slot) :
    account tbl g a q = g q := by
  cases a with
  | allocproc q' _ _ _ => exact Function.update_of_ne h _ _
  | yield p => exact Function.update_of_ne h _ _
  | wakeup me ch q' =>
    show (if Moves tbl me ch q' then Function.update g q' (some 0) else g) q = g q
    split
    · exact Function.update_of_ne h _ _
    · rfl
  | start _ | freeproc _ | dispatch _ | sleep _ _ | awake _ | kkill _ _ | setkilled _ | kexit _ _ =>
    rfl

/-- **A step keeps the accounts.** -/
theorem Accounted.step {v : Version} (hv : priorityBoost v = true)
    {s s' : Table × (Slot → Option Nat)} {a : Locked} (hs : Accounted s)
    (h : stepAccount v s a = some s') : Accounted s' := by
  obtain ⟨tbl', ht, rfl⟩ := Option.map_eq_some_iff.mp h
  obtain ⟨r, hr, rfl⟩ := stepTable_some ht
  intro q hq
  dsimp only at hq ⊢
  by_cases hqa : q = a.slot
  · rw [hqa, Function.update_self] at hq ⊢
    have hp := apply_priority hr
    generalize r.priority = x at hp
    cases hp with
    | @alloc q' pid t g =>
      show PRIORITY_BASE = due (Function.update s.2 q' none q')
      rw [Function.update_self]
      rfl
    | @free q' =>
      obtain ⟨-, he⟩ := Option.ite_none_right_eq_some.mp hr
      exact absurd (by rw [← Option.some.inj he]; rfl) hq
    | @yield p =>
      have hold := hs p (apply_unused hr hq (by simp))
      show decay v (s.1 p).priority = due (Function.update s.2 p ((s.2 p).map (· + 1)) p)
      rw [Function.update_self, hold, decay_due hv]
    | @boost me ch q' hm _ =>
      show PRIORITY_BOOST =
        due ((if Moves s.1 me ch q' then Function.update s.2 q' (some 0) else s.2) q')
      rw [if_pos hm, Function.update_self]
      decide
    | keep h1 _ h3 h4 =>
      have hold := hs _ (apply_unused hr hq h1)
      rw [hold]
      refine congrArg due ?_
      cases a with
      | allocproc q' pid t g => exact absurd rfl (h1 q' pid t g)
      | yield p => exact absurd rfl (h3 p)
      | wakeup me ch q' =>
        show _ = (if Moves s.1 me ch q' then Function.update s.2 q' (some 0) else s.2) q'
        rw [if_neg (h4 me ch q' hv rfl)]
        rfl
      | start _ | freeproc _ | dispatch _ | sleep _ _ | awake _ | kkill _ _ | setkilled _
      | kexit _ _ => rfl
  · rw [Function.update_of_ne hqa] at hq ⊢
    rw [account_of_ne s.1 s.2 hqa]
    exact hs q hq

/-- **Boost and decay**: in every run the priority of a live process is its due, and a step
that is neither a `yield` nor a `wakeup` that moves it leaves it alone. -/
theorem priority_account {v : Version} (hv : priorityBoost v = true)
    {s : Table × (Slot → Option Nat)}
    (h : Reach (stepAccount v) Any (fun s => bootTable s.1 ∧ s.2 = fun _ => none) s) :
    (∀ q, (s.1 q).state ≠ .UNUSED → (s.1 q).priority =
      match s.2 q with
      | none => PRIORITY_BASE
      | some k => max PRIORITY_BASE (PRIORITY_BOOST - (k : Int))) ∧
    (∀ me ch q s', stepAccount v s (.wakeup me ch q) = some s' → ¬ Moves s.1 me ch q → s' = s) ∧
    ∀ pid q s', stepAccount v s (.kkill pid q) = some s' →
      (∀ p, (s'.1 p).priority = (s.1 p).priority) ∧ s'.2 = s.2 := by
  refine ⟨fun q hq => ?_, fun me ch q s' hs hm => ?_, fun pid q s' hs => ⟨fun p => ?_, ?_⟩⟩
  · have hacc : Accounted s := by
      refine h.inv (fun s hs q hq => ?_) fun hi _ hs => hi.step hv hs
      rw [hs.1 q] at hq
      exact absurd rfl hq
    have hdue := hacc q hq
    unfold due at hdue
    exact hdue
  · obtain ⟨tbl', ht, rfl⟩ := Option.map_eq_some_iff.mp hs
    obtain ⟨r, hr, rfl⟩ := stepTable_some ht
    have he := Option.some.inj hr
    rw [if_neg hm] at he
    have hacc : account s.1 s.2 (.wakeup me ch q) = s.2 := if_neg hm
    rw [hacc, ← he]
    exact Prod.ext (Function.update_eq_self _ _) rfl
  · obtain ⟨tbl', ht, rfl⟩ := Option.map_eq_some_iff.mp hs
    obtain ⟨r, hr, rfl⟩ := stepTable_some ht
    dsimp only
    by_cases hp : p = q
    · have he := Option.some.inj hr
      rw [hp]
      show (Function.update s.1 q r q).priority = _
      rw [Function.update_self, ← he]
      split
      · dsimp only
        split <;> rfl
      · rfl
    · have hne : p ≠ (Locked.kkill pid q).slot := hp
      rw [Function.update_of_ne hne]
  · obtain ⟨tbl', ht, rfl⟩ := Option.map_eq_some_iff.mp hs
    rfl

/-- A process that is woken up and then yields. -/
theorem priority_account_yield : ∃ s, Reach (stepAccount .v7) Any
      (fun s => bootTable s.1 ∧ s.2 = fun _ => none) s ∧
    s.2 ⟨1, by decide⟩ = some 1 ∧ (s.1 ⟨1, by decide⟩).priority = 9 := by
  have hrun : ((runFrom (stepAccount .v7) (fun _ => boot, fun _ => none)
      (wokenRun ++ [.dispatch ⟨1, by decide⟩, .yield ⟨1, by decide⟩])).map fun s =>
        (s.2 ⟨1, by decide⟩, (s.1 ⟨1, by decide⟩).state)) = some (some 1, .RUNNABLE) := by
    decide +kernel
  obtain ⟨s, hs, hval⟩ := Option.map_eq_some_iff.mp hrun
  rw [Prod.mk.injEq] at hval
  have hreach : Reach (stepAccount .v7) Any (fun s => bootTable s.1 ∧ s.2 = fun _ => none) s :=
    Reach.of_run _ (.start ⟨fun _ => rfl, rfl⟩) (RunOk.any _ _ _) hs
  have hdue := (priority_account (v := .v7) rfl hreach).1 ⟨1, by decide⟩
    (by rw [hval.2]; exact ProcState.noConfusion)
  rw [hval.1] at hdue
  exact ⟨s, hreach, hval.1, hdue⟩

end Xv6.Proc
