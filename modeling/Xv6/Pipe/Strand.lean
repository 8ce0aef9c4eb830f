import Xv6.Pipe.Sleepers

/-!
# Readers asleep on a pipe that holds data

A reader that sleeps should face an empty ring. One exit of `pipewrite` breaks
that: `if(pi->readopen == 0 || killed(pr))` stands inside the copy loop, and a
writer that is killed after it has stored bytes returns `-1` from there without
the `wakeup(&pi->nread)` that ends every other path. `kkill` takes `p->lock`
only, so it can land between two iterations of one critical section.

> `KillSafe`: no writer finds itself killed between two iterations of one
> critical section while a reader is asleep.

> `StrandInv`, in the runs of `KillSafe`: a sleeping reader faces an empty ring,
> or the holder of the lock is a writer that has put bytes in and will call
> `wakeup`.

The condition is exact: the first step that breaks it strands the reader
(`strand_of_kill`), and in v5..v8 a later writer that finds the ring non-empty
does not repair it (`stranded_reader`).
-/

namespace Xv6.Pipe

open Lib

variable {P : Type*} [DecidableEq P]

/-- A writer in the loop or past it that has stored bytes in this critical
section and will call `wakeup(&pi->nread)`. -/
def Fills (v : Version) : Ctl → Prop
  | .w .top f | .w .body f | .w .leave f => f.i0 < f.i ∧ (lazyWakeup v = true → f.need = true)
  | _ => False

/-- What the holder's place says about the ring being empty: as long as it is,
`need_wakeup` is set, and it is not once bytes were stored. -/
def NeedOk (v : Version) (pi : Pipe) : Ctl → Prop
  | .w .top f | .w .body f | .w .leave f =>
    (lazyWakeup v = true → pi.empty = true → f.need = true) ∧ (f.i0 < f.i → pi.empty = false)
  | _ => True

/-- The step is not the one that strands a reader: the holder is not at the test
of its loop, killed, with bytes stored since it took the lock and bytes left to
store, while a reader sleeps. -/
def KillSafe (s : Sys P) (a : Act P) : Prop :=
  ∀ p r f, a = .run p r → s.ctl p = .w .top f → f.i0 < f.i → f.i < f.q.n →
    s.killed p = true → ¬Asleep s.ctl .nread

structure StrandInv (v : Version) (s : Sys P) : Prop where
  sleep : SleepInv v s
  rempty : Asleep s.ctl .nread → s.pi.empty = true ∨ Fills v s.held
  need : NeedOk v s.pi s.held

section

omit [DecidableEq P]

theorem init_strand {v : Version} {s : Sys P} (h : Init s) : StrandInv v s := by
  refine ⟨init_sleep h, fun ha => absurd ha (init_asleep h _), ?_⟩
  rw [held_none h.lock]
  trivial

/-- The invariant, with the holder's place named. -/
theorem StrandInv.of {v : Version} {s : Sys P} {c : Ctl} (hh : s.held = c) (hs : SleepInv v s)
    (hr : Asleep s.ctl .nread → s.pi.empty = true ∨ Fills v c) (hn : NeedOk v s.pi c) :
    StrandInv v s := by
  subst hh
  exact ⟨hs, hr, hn⟩

/-- The quiet steps, as for `SleepInv.quiet`. -/
theorem StrandInv.quiet {v : Version} {s s' : Sys P} {c c' : Ctl} (h : StrandInv v s)
    (hh : s.held = c) (hh' : s'.held = c') (hs : SleepInv v s') (hpi : s'.pi.empty = s.pi.empty)
    (ha : Asleep s'.ctl .nread → Asleep s.ctl .nread)
    (hf : Asleep s'.ctl .nread → Fills v c → Fills v c')
    (hn : NeedOk v s.pi c → NeedOk v s'.pi c') : StrandInv v s' := by
  subst hh hh'
  refine ⟨hs, fun hr => ?_, hn h.need⟩
  rw [hpi]
  exact (h.rempty (ha hr)).imp_right (hf hr)

/-- With the lock free, or held by a process that stores nothing, a sleeping
reader faces an empty ring. -/
theorem StrandInv.empty {v : Version} {s : Sys P} {c : Ctl} (h : StrandInv v s) (hh : s.held = c)
    (hc : ¬Fills v c) (hr : Asleep s.ctl .nread) : s.pi.empty = true := by
  subst hh
  rcases h.rempty hr with he | hf
  · exact he
  · exact absurd hf hc

end

/-- A ring with bytes just stored in it. -/
theorem pushed_not_empty (total : Nat) (pi : Pipe) (src : Nat → UInt8) {len : Nat}
    (hpos : 0 < len) (hlt : pi.used + len < 2 ^ 32) :
    (pi.pushed total src len).empty = false := by
  rw [← Bool.not_eq_true]
  intro he
  have h0 := empty_iff.mp he
  have h1 := used_pushed total src hlt
  omega

theorem put_strand {v : Version} {s : Sys P} (h : StrandInv v s) {p : P} {f : WFrame}
    (hl : s.lock = some p) (hc : s.ctl p = .w .body f) (hf : s.pi.full (pipeTotal v) = false)
    (r : Copy) : StrandInv v (s.put v p f r) := by
  have hs := put_sleep h.sleep hl hc hf r
  obtain ⟨hi0, hi1, -⟩ := (hc ▸ h.sleep.base.ok p : (Ctl.w .body f).Ok)
  have hle := pipeTotal_le v
  have hneed := h.need
  have hre := h.rempty
  rw [held_some hl hc] at hneed hre
  rcases put_cases h.sleep.base hc hf r
    with ⟨len, hpos, hrem, hroom, hwrap, ho⟩ | ⟨data, hbytes, ho⟩
  · rw [ho] at hs ⊢
    refine .of (held_some hl (Function.update_self _ _ _)) hs (fun hr => .inr ⟨?_, fun hv => ?_⟩) ?_
    · show f.i0 < f.i + len
      omega
    · -- the ring was empty before the chunk, or the flag was already known to be set
      rcases hre (asleep_awake rfl hr) with he | hfill
      · exact hneed.1 hv he
      · exact hfill.2 hv
    · have hne := pushed_not_empty (pipeTotal v) s.pi (userBytes (s.umem p) f.q.addr f.i) hpos
        (by omega)
      exact ⟨fun _ he => absurd he (by rw [hne]; decide), fun _ => hne⟩
  · rw [ho] at hs ⊢
    exact h.quiet (held_some hl hc) (held_some hl (Function.update_self _ _ _)) hs rfl
      (asleep_awake rfl) (fun _ hfill => hfill) fun hn => hn

theorem get_strand {v : Version} {s : Sys P} (h : StrandInv v s) {p : P} {f : RFrame}
    (hl : s.lock = some p) (hc : s.ctl p = .r .loop f) (hi : f.i < f.q.n)
    (he : s.pi.empty = false) (r : Copy) : StrandInv v (s.get v p f r) := by
  have hs := get_sleep h.sleep hl hc hi he r
  have hnr : ¬Asleep s.ctl .nread := by
    intro hr
    rw [h.empty (held_some hl hc) id hr] at he
    cases he
  rcases get_cases h.sleep.base hc hi he r
    with ⟨len, hpos, hrem, hroom, hwrap, ho⟩ | ⟨len, hrem, ho⟩ | ⟨hv', _, ho⟩
  all_goals
    rw [ho] at hs ⊢
    exact .of (held_some hl (Function.update_self _ _ _)) hs
      (fun hr => absurd (asleep_awake rfl hr) hnr) trivial

omit [DecidableEq P] in
/-- The holder's place stays. -/
theorem StrandInv.quiet_held {v : Version} {s s' : Sys P} (h : StrandInv v s)
    (hs : SleepInv v s') (hpi : s'.pi = s.pi) (ha : Asleep s'.ctl .nread → Asleep s.ctl .nread)
    (hh : s'.held = s.held) : StrandInv v s' :=
  h.quiet rfl hh hs (by rw [hpi]) ha (fun _ hf => hf) fun hn => hpi ▸ hn

/-- **Every step but the stranding one keeps the invariant.** -/
theorem strand_step {v : Version} {s s' : Sys P} {a : Act P} (h : StrandInv v s)
    (hok : KillSafe s a) (hs : step v s a = some s') : StrandInv v s' := by
  have hsl := sleep_step h.sleep hs
  have hlock := h.sleep.base.lock
  have hplace := h.sleep.place
  cases step_cases hs with
  | user hc => exact h.quiet_held hsl rfl id rfl
  | write hc =>
    exact h.quiet_held hsl rfl (asleep_awake rfl) (held_away hlock (by rw [hc]; rfl) _)
  | read hc =>
    exact h.quiet_held hsl rfl (asleep_awake rfl) (held_away hlock (by rw [hc]; rfl) _)
  | kill => exact h.quiet_held hsl rfl (asleep_awake (asleepOn_wake _)) (held_kkill hlock _)
  | @close writable hl =>
    have hh : (s.pipeclose writable).held = .user := held_none (by cases writable <;> exact hl)
    cases writable with
    | true =>
      exact h.quiet (held_none hl) hh hsl rfl (fun ha => (asleep_wakeup ha).1)
        (fun _ hf => hf) fun hn => hn
    | false =>
      exact h.quiet (held_none hl) hh hsl rfl (fun ha => (asleep_wakeup ha).1)
        (fun _ hf => hf) fun hn => hn
  | wEnter hl hc =>
    refine h.quiet (held_none hl) (held_some rfl (Function.update_self _ _ _)) hsl rfl
      (asleep_awake rfl) (fun _ hf => hf.elim)
      fun _ => ⟨fun hv he => ?_, fun hlt => absurd hlt (Int.lt_irrefl _)⟩
    simp only [Bool.and_eq_true]
    exact ⟨hv, he⟩
  | wResume hl hc =>
    exact h.quiet (held_none hl) (held_some rfl (Function.update_self _ _ _)) hsl rfl
      (asleep_awake rfl) (fun _ hf => hf.elim)
      fun _ => ⟨fun hv _ => hv, fun hlt => absurd hlt (Int.lt_irrefl _)⟩
  | rEnter hl hc hpc =>
    exact h.quiet (held_none hl) (held_some rfl (Function.update_self _ _ _)) hsl rfl
      (asleep_awake rfl) (fun _ hf => hf.elim) fun _ => trivial
  | @wFail p r f hl hc hi hstop =>
    rw [held_some hl hc] at hplace
    refine h.quiet (held_some hl hc) (held_none rfl) hsl rfl (asleep_awake rfl)
      (fun hr hf => ?_) fun _ => trivial
    -- bytes were stored, so the read end is open and the writer was killed
    have hk : s.killed p = true := by
      rcases hstop with ho | hk
      · rw [hplace hf.1] at ho
        cases ho
      · exact hk
    exact hok p r f rfl hc hf.1 hi hk (asleep_awake rfl hr)
  | wTest hl hc hi ho hk =>
    exact h.quiet (held_some hl hc) (held_some hl (Function.update_self _ _ _)) hsl rfl
      (asleep_awake rfl) (fun _ hf => hf) fun hn => hn
  | wEnd hl hc hi =>
    exact h.quiet (held_some hl hc) (held_some hl (Function.update_self _ _ _)) hsl rfl
      (asleep_awake rfl) (fun _ hf => hf) fun hn => hn
  | wFull hl hc hf =>
    exact .of (held_some hl (Function.update_self _ _ _)) hsl
      (fun hr => absurd rfl (asleep_wakeup (asleep_awake rfl hr)).2) trivial
  | wPut hl hc hf => exact put_strand h hl hc hf _
  | wSleep hl hc =>
    refine h.quiet (held_some hl hc) (held_none rfl) hsl rfl (fun hr => ?_) (fun _ hf => hf.elim)
      fun _ => trivial
    rcases asleep_update hr with hr | hr
    · cases hr
    · exact hr
  | @wLeave p r f hl hc =>
    obtain ⟨hi0, -, -⟩ := (hc ▸ h.sleep.base.ok p : (Ctl.w .leave f).Ok)
    refine h.quiet (held_some hl hc) (held_none rfl) hsl
      (congrArg Pipe.empty (wakeReaders_pi v s f))
      (fun hr => (asleep_wakeReaders (asleep_awake rfl hr)).1) (fun hr hf => ?_) fun _ => trivial
    -- a writer that stored bytes has just woken every reader
    obtain ⟨hv, hskip⟩ := (asleep_wakeReaders (asleep_awake rfl hr)).2 rfl
    exact absurd ⟨hf.2 hv, by have := hf.1; omega⟩ hskip
  | rWait hl hc he ho | rStart hl hc hw | rTest hl hc hk | rEnd hl hc hi =>
    exact h.quiet (held_some hl hc) (held_some hl (Function.update_self _ _ _)) hsl rfl
      (asleep_awake rfl) (fun _ hf => hf.elim) fun _ => trivial
  | rFail hl hc hk =>
    exact h.quiet (held_some hl hc) (held_none rfl) hsl rfl (asleep_awake rfl)
      (fun _ hf => hf.elim) fun _ => trivial
  | rSleep hl hc =>
    rw [held_some hl hc] at hplace
    exact .of (held_none rfl) hsl (fun _ => .inl hplace.1) trivial
  | rGet hl hc hi he => exact get_strand h hl hc hi he _
  | rLeave hl hc =>
    exact h.quiet (held_some hl hc) (held_none rfl) hsl (congrArg Pipe.empty (wakeWriters_pi v s _))
      (fun hr => (asleep_wakeWriters (asleep_awake rfl hr)).1) (fun _ hf => hf.elim)
      fun _ => trivial

theorem reach_strand {v : Version} {s : Sys P} (h : Reach (step v) KillSafe Init s) :
    StrandInv v s :=
  h.inv (fun _ => init_strand) fun hi hok hs => strand_step hi hok hs

/-! ## The condition is exact -/

/-- With the lock free, a reader sleeps only on an empty pipe. -/
def NoStranded (s : Sys P) : Prop :=
  s.lock = none → Asleep s.ctl .nread → s.pi.empty = true

omit [DecidableEq P] in
theorem StrandInv.noStranded {v : Version} {s : Sys P} (h : StrandInv v s) : NoStranded s :=
  fun hl hr => h.empty (held_none hl) id hr

/-- A step that is not `KillSafe` leaves a reader asleep on a pipe that holds
data, with the lock free. -/
theorem strand_of_kill {v : Version} {s : Sys P} {a : Act P} (h : StrandInv v s)
    (hbad : ¬KillSafe s a) : ∃ s', step v s a = some s' ∧ ¬NoStranded s' := by
  unfold KillSafe at hbad
  push Not at hbad
  obtain ⟨p, r, f, rfl, hc, hi0, hi, hk, q, hq⟩ := hbad
  have hl : s.lock = some p := (h.sleep.base.lock p).mp (by rw [hc]; rfl)
  have hne : s.pi.empty = false := by
    have hneed := h.need
    rw [held_some hl hc] at hneed
    exact hneed.2 hi0
  refine ⟨s.ret p f.call (-1), ?_, fun hgood => ?_⟩
  · show (if s.lock = some p then s.run v p r else none) = _
    unfold Sys.run
    rw [if_pos hl, hc]
    simp only [if_pos hi, if_pos (Or.inr hk : s.pi.readopen = false ∨ s.killed p = true)]
  · have hqp : q ≠ p := by
      intro he
      rw [he, hc] at hq
      cases hq
    have hr : Asleep (s.ret p f.call (-1)).ctl .nread :=
      ⟨q, by rw [← hq]; exact congrArg _ (Function.update_of_ne hqp _ _)⟩
    have he : s.pi.empty = true := hgood rfl hr
    rw [hne] at he
    cases he

/-- **When a failing write strands no reader.** In every version, a run never
shows a reader asleep on a pipe that holds data while the lock is free exactly
when none of its steps is a writer finding itself killed between two iterations
of one critical section while a reader sleeps. -/
theorem no_stranded_reader_iff {v : Version} {s : Sys P} (hs : Init s) (as : List (Act P)) :
    RunOk (step v) KillSafe s as ↔
      ∀ bs, bs <+: as → ∀ s', runFrom (step v) s bs = some s' → NoStranded s' :=
  RunOk.iff_always (fun hi hok hs => strand_step hi hok hs) StrandInv.noStranded
    strand_of_kill as (init_strand hs)

/-- Reader `0`, writers `1` and `2`. Bring both counters to `4095`, let `0` fall
asleep, and kill `1` between the two chunks of its two bytes. -/
def killBetweenChunks : List (Act (Fin 3)) :=
  [.write 1 (.of 0 4095), .acquire 1, .run 1 .ok, .run 1 .ok, .run 1 .ok, .run 1 .ok,
    .read 0 (.of 0 4095), .acquire 0, .run 0 .ok, .run 0 .ok, .run 0 .ok, .run 0 .ok,
    .read 0 (.of 0 1), .acquire 0, .run 0 .ok, .run 0 .ok, .run 0 .ok,
    .write 1 (.of 0 2), .acquire 1, .run 1 .ok, .run 1 .ok, .kill 1, .run 1 .ok]

/-- Writer `2` then stores one byte and returns. -/
def laterWrite : List (Act (Fin 3)) :=
  [.write 2 (.of 0 1), .acquire 2, .run 2 .ok, .run 2 .ok, .run 2 .ok, .run 2 .ok]

/-- What an observer sees: the lock, reader `0`, and the bytes in the ring. -/
def readerView (s : Sys (Fin 3)) : Option (Fin 3) × Option Chan × Nat :=
  (s.lock, (s.ctl 0).asleepOn, s.pi.used)

/-- In v7 the killed writer leaves one byte and the sleeping reader behind, and
the next writer adds a second byte without waking it. -/
theorem stranded_reader :
    (runFrom (step .v7) (Sys.fresh fun _ _ => 0) killBetweenChunks).map readerView
      = some (none, some .nread, 1) ∧
    (runFrom (step .v7) (Sys.fresh fun _ _ => 0) (killBetweenChunks ++ laterWrite)).map readerView
      = some (none, some .nread, 2) ∧
    ¬∀ s : Sys (Fin 3), Reach (step .v7) Any Init s → NoStranded s := by
  have h1 : (runFrom (step .v7) (Sys.fresh fun _ _ => 0) killBetweenChunks).map readerView
      = some (none, some .nread, 1) := by decide +kernel
  refine ⟨h1, by decide +kernel, fun hall => ?_⟩
  obtain ⟨s, hs, hv⟩ := Option.map_eq_some_iff.mp h1
  obtain ⟨hl, hv⟩ := Prod.mk.inj hv
  obtain ⟨hr, hu⟩ := Prod.mk.inj hv
  have hreach : Reach (step .v7) Any Init s :=
    .of_run _ (.start (fresh_init _)) (RunOk.any _ _ _) hs
  have he := empty_iff.mp (hall s hreach hl ⟨0, hr⟩)
  omega

/-- Only `kkill` sets the flag. -/
theorem killed_step {v : Version} {s s' : Sys P} {a : Act P} (ha : ∀ p, a ≠ .kill p)
    (hs : step v s a = some s') : s'.killed = s.killed := by
  cases step_cases hs with
  | kill => exact absurd rfl (ha _)
  | @close writable hl => cases writable <;> rfl
  | wLeave hl hc =>
    show (s.wakeReaders v _).killed = _
    unfold Sys.wakeReaders
    split
    · split <;> rfl
    · rfl
  | rLeave hl hc =>
    show (s.wakeWriters v _).killed = _
    unfold Sys.wakeWriters
    split
    · split <;> rfl
    · rfl
  | _ => rfl

/-- A schedule without kills meets every condition that only kills can break. -/
theorem runOk_of_no_kill {v : Version} {ok : Sys P → Act P → Prop}
    (hok : ∀ s a, (∀ p, s.killed p = false) → ok s a) : ∀ (as : List (Act P)) {s : Sys P},
    (∀ p, s.killed p = false) → (∀ p, .kill p ∉ as) → RunOk (step v) ok s as := by
  intro as
  induction as with
  | nil => intro s _ _; exact trivial
  | cons a as ih =>
    intro s hk hno
    refine ⟨hok s a hk, fun s' hs => ih (fun p => ?_) fun p hp => ?_⟩
    · rw [killed_step (fun p he => hno p (he ▸ List.mem_cons_self)) hs]
      exact hk p
    · exact hno p (List.mem_cons_of_mem _ hp)

theorem no_stranded_reader_iff_asleep :
    ∃ s : Sys Bool, runFrom (step .v7) (Sys.fresh fun _ _ => 0) readerSleeps = some s ∧
      s.lock = none ∧ (s.ctl true).asleepOn = some .nread ∧ s.pi.empty = true := by
  have hrun : (runFrom (step .v7) (Sys.fresh fun _ _ => 0) readerSleeps).map
      (fun s => (s.lock, (s.ctl true).asleepOn)) = some (none, some .nread) := by decide
  obtain ⟨s, hs, hd⟩ := Option.map_eq_some_iff.mp hrun
  obtain ⟨hl, hr⟩ := Prod.mk.inj hd
  have hok : RunOk (step .v7) KillSafe (Sys.fresh fun _ _ => 0) readerSleeps :=
    runOk_of_no_kill (fun s a hk p r f _ _ _ _ hkp => by rw [hk p] at hkp; cases hkp) _
      (fun _ => rfl) (by simp [readerSleeps])
  have hgood := (no_stranded_reader_iff (fresh_init _) readerSleeps).mp hok _ List.prefix_rfl s hs
  exact ⟨s, hs, hl, hr, hgood hl ⟨true, hr⟩⟩

end Xv6.Pipe
