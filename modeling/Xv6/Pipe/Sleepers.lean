import Xv6.Pipe.LockInv

/-!
# Who can be asleep on a pipe

What holds of the processes SLEEPING on `&pi->nread` and `&pi->nwrite` in every
run of every version, kills included:

> `SleepInv`: a sleeping writer faces a full ring, or the holder of the lock is
> a reader that is taking bytes out and will call `wakeup`; a reader and a
> writer never sleep at once; nobody sleeps on a closed end.

The lazy versions decide at the end of `piperead` from `was_full`, sampled
before the copy. `Place` is what makes that enough: as long as the reader has
taken nothing the ring is as full as it was when the flag was set, and once it
has, the flag tells that a writer may be asleep.

The invariant speaks of the pipe, the set of sleepers and the holder's place
(`Sys.held`) only. All steps but the two `sleep`s shrink the set of sleepers, so
most cases are `SleepInv.quiet`: the pipe is untouched and nobody falls asleep.
The other half of the story, which sleeping readers do see bytes, is `Strand`.
-/

namespace Xv6.Pipe

open Lib

variable {P : Type*} [DecidableEq P]

/-! ## Sleepers and the holder -/

/-- Some process is SLEEPING on `ch`. -/
def Asleep (ctl : P → Ctl) (ch : Chan) : Prop := ∃ p, (ctl p).asleepOn = some ch

@[simp] theorem asleepOn_wake (c : Ctl) : c.wake.asleepOn = none := by
  cases c with
  | user => rfl
  | w pc f => cases pc <;> rfl
  | r pc f => cases pc <;> rfl

theorem wake_of_holds {c : Ctl} (h : c.holds = true) : c.wake = c := by
  cases c with
  | user => rfl
  | w pc f => cases pc <;> first | rfl | cases h
  | r pc f => cases pc <;> first | rfl | cases h

/-- Moving one process puts at most that one to sleep. -/
theorem asleep_update {ctl : P → Ctl} {p : P} {c : Ctl} {ch : Chan}
    (h : Asleep (Function.update ctl p c) ch) : c.asleepOn = some ch ∨ Asleep ctl ch := by
  obtain ⟨p', hp'⟩ := h
  by_cases he : p' = p
  · subst he
    rw [Function.update_self] at hp'
    exact .inl hp'
  · rw [Function.update_of_ne he] at hp'
    exact .inr ⟨p', hp'⟩

theorem asleep_awake {ctl : P → Ctl} {p : P} {c : Ctl} {ch : Chan} (hc : c.asleepOn = none)
    (h : Asleep (Function.update ctl p c) ch) : Asleep ctl ch := by
  rcases asleep_update h with h | h
  · rw [hc] at h
    cases h
  · exact h

omit [DecidableEq P] in
/-- After `wakeup(ch)` nobody sleeps on `ch`, and nobody new on another channel. -/
theorem asleep_wakeup {s : Sys P} {ch ch' : Chan} (h : Asleep (s.wakeup ch).ctl ch') :
    Asleep s.ctl ch' ∧ ch' ≠ ch := by
  obtain ⟨p, hp⟩ := h
  change (if (s.ctl p).asleepOn = some ch then (s.ctl p).wake else s.ctl p).asleepOn
    = some ch' at hp
  split at hp
  · rw [asleepOn_wake] at hp
    cases hp
  next hne => exact ⟨⟨p, hp⟩, fun he => hne (he ▸ hp)⟩

/-- Where the holder of the lock is; user space if there is none. -/
def Sys.held (s : Sys P) : Ctl :=
  match s.lock with
  | some p => s.ctl p
  | none => .user

omit [DecidableEq P] in
theorem held_some {s : Sys P} {p : P} {c : Ctl} (hl : s.lock = some p) (hc : s.ctl p = c) :
    s.held = c := by
  unfold Sys.held
  rw [hl]
  exact hc

omit [DecidableEq P] in
theorem held_none {s : Sys P} (hl : s.lock = none) : s.held = .user := by
  unfold Sys.held
  rw [hl]

/-- A process outside the critical section moved. -/
theorem held_away {s : Sys P} (hlock : LockOk s.lock s.ctl) {p : P}
    (hp : (s.ctl p).holds = false) (c : Ctl) :
    (match s.lock with | some p' => Function.update s.ctl p c p' | none => .user) = s.held := by
  unfold Sys.held
  cases hl : s.lock with
  | none => rfl
  | some p' =>
    have hne : p' ≠ p := by
      intro he
      rw [(hlock p).mpr (he ▸ hl)] at hp
      cases hp
    exact Function.update_of_ne hne _ _

theorem held_kkill {s : Sys P} (hlock : LockOk s.lock s.ctl) (p : P) :
    (s.kkill p).held = s.held := by
  by_cases hp : (s.ctl p).holds = true
  · show (match s.lock with | some p' => Function.update s.ctl p (s.ctl p).wake p' | none => _) = _
    rw [wake_of_holds hp, Function.update_eq_self]
    rfl
  · exact held_away hlock (by simpa using hp) _

/-! ## The unconditional invariant -/

/-- What the holder's place says about the pipe and about sleeping readers
(`sr`). -/
def Place (v : Version) (pi : Pipe) (sr : Prop) : Ctl → Prop
  | .w .top f => f.i0 < f.i → pi.readopen = true
  | .w .body _ => pi.readopen = true
  | .w .sleep _ => pi.readopen = true ∧ pi.full (pipeTotal v) = true ∧ ¬sr
  | .r .killed _ | .r .sleep _ => pi.empty = true ∧ pi.writeopen = true
  | .r .loop f | .r .leave f =>
    lazyWakeup v = true → pi.full (pipeTotal v) = true → f.wasFull = true
  | _ => True

/-- A reader past the wait that will call `wakeup(&pi->nwrite)`. -/
def Drains (v : Version) : Ctl → Prop
  | .r .loop f | .r .leave f => lazyWakeup v = true → f.wasFull = true ∧ 0 < f.i
  | _ => False

structure SleepInv (v : Version) (s : Sys P) : Prop where
  base : BaseInv v s
  ropen : Asleep s.ctl .nread → s.pi.writeopen = true
  wopen : Asleep s.ctl .nwrite → s.pi.readopen = true
  wfull : Asleep s.ctl .nwrite → s.pi.full (pipeTotal v) = true ∨ Drains v s.held
  excl : Asleep s.ctl .nread → ¬Asleep s.ctl .nwrite
  place : Place v s.pi (Asleep s.ctl .nread) s.held

section

omit [DecidableEq P]

theorem init_asleep {s : Sys P} (h : Init s) (ch : Chan) : ¬Asleep s.ctl ch := by
  rintro ⟨p, hp⟩
  rw [h.ctl p] at hp
  cases hp

theorem init_sleep {v : Version} {s : Sys P} (h : Init s) : SleepInv v s := by
  have hno := init_asleep h
  refine ⟨init_base h, fun ha => absurd ha (hno _), fun ha => absurd ha (hno _),
    fun ha => absurd ha (hno _), fun ha => absurd ha (hno _), ?_⟩
  rw [held_none h.lock]
  trivial

/-- The invariant, with the holder's place named. -/
theorem SleepInv.of {v : Version} {s : Sys P} {c : Ctl} (hh : s.held = c) (hb : BaseInv v s)
    (ropen : Asleep s.ctl .nread → s.pi.writeopen = true)
    (wopen : Asleep s.ctl .nwrite → s.pi.readopen = true)
    (wfull : Asleep s.ctl .nwrite → s.pi.full (pipeTotal v) = true ∨ Drains v c)
    (excl : Asleep s.ctl .nread → ¬Asleep s.ctl .nwrite)
    (place : Place v s.pi (Asleep s.ctl .nread) c) : SleepInv v s := by
  subst hh
  exact ⟨hb, ropen, wopen, wfull, excl, place⟩

/-- **The quiet steps**: the pipe is untouched and nobody falls asleep, while
the holder's place goes from `c` to `c'`. -/
theorem SleepInv.quiet {v : Version} {s s' : Sys P} {c c' : Ctl} (h : SleepInv v s)
    (hh : s.held = c) (hh' : s'.held = c') (hb : BaseInv v s')
    (hpi : s'.pi = s.pi) (ha : ∀ ch, Asleep s'.ctl ch → Asleep s.ctl ch)
    (hd : Asleep s'.ctl .nwrite → Drains v c → Drains v c')
    (hp : Place v s.pi (Asleep s'.ctl .nread) c') : SleepInv v s' := by
  subst hh hh'
  refine ⟨hb, ?_, ?_, ?_, ?_, hpi ▸ hp⟩
  · intro hr
    rw [hpi]
    exact h.ropen (ha _ hr)
  · intro hw
    rw [hpi]
    exact h.wopen (ha _ hw)
  · intro hw
    rw [hpi]
    exact (h.wfull (ha _ hw)).imp_right (hd hw)
  · intro hr hw
    exact h.excl (ha _ hr) (ha _ hw)

/-- The holder's place stays. -/
theorem SleepInv.quiet_held {v : Version} {s s' : Sys P} (h : SleepInv v s) (hb : BaseInv v s')
    (hpi : s'.pi = s.pi) (ha : ∀ ch, Asleep s'.ctl ch → Asleep s.ctl ch)
    (hh : s'.held = s.held) : SleepInv v s' := by
  refine h.quiet rfl hh hb hpi ha (fun _ hd => hd) ?_
  have hp := h.place
  revert hp
  cases s.held with
  | user => exact id
  | w pc f =>
    cases pc with
    | sleep => exact fun ⟨h1, h2, h3⟩ => ⟨h1, h2, fun hr => h3 (ha _ hr)⟩
    | _ => exact id
  | r pc f => cases pc <;> exact id

theorem asleep_wakeReaders {v : Version} {s : Sys P} {f : WFrame} {ch : Chan}
    (h : Asleep (s.wakeReaders v f).ctl ch) :
    Asleep s.ctl ch ∧ (ch = .nread → lazyWakeup v = true ∧ ¬(f.need = true ∧ 0 < f.i)) := by
  unfold Sys.wakeReaders at h
  split at h
  next hv =>
    split at h
    · obtain ⟨ha, hne⟩ := asleep_wakeup h
      exact ⟨ha, fun he => absurd he hne⟩
    next hskip => exact ⟨h, fun _ => ⟨hv, hskip⟩⟩
  · obtain ⟨ha, hne⟩ := asleep_wakeup h
    exact ⟨ha, fun he => absurd he hne⟩

theorem asleep_wakeWriters {v : Version} {s : Sys P} {f : RFrame} {ch : Chan}
    (h : Asleep (s.wakeWriters v f).ctl ch) :
    Asleep s.ctl ch ∧ (ch = .nwrite → lazyWakeup v = true ∧ ¬(f.wasFull = true ∧ 0 < f.i)) := by
  unfold Sys.wakeWriters at h
  split at h
  next hv =>
    split at h
    · obtain ⟨ha, hne⟩ := asleep_wakeup h
      exact ⟨ha, fun he => absurd he hne⟩
    next hskip => exact ⟨h, fun _ => ⟨hv, hskip⟩⟩
  · obtain ⟨ha, hne⟩ := asleep_wakeup h
    exact ⟨ha, fun he => absurd he hne⟩

@[simp] theorem wakeReaders_pi (v : Version) (s : Sys P) (f : WFrame) :
    (s.wakeReaders v f).pi = s.pi := by
  unfold Sys.wakeReaders
  split
  · split <;> rfl
  · rfl

@[simp] theorem wakeWriters_pi (v : Version) (s : Sys P) (f : RFrame) :
    (s.wakeWriters v f).pi = s.pi := by
  unfold Sys.wakeWriters
  split
  · split <;> rfl
  · rfl

end

theorem not_empty_full {v : Version} {pi : Pipe} (he : pi.empty = true)
    (hf : pi.full (pipeTotal v) = true) : False := by
  have hpos := pipeTotal_pos v
  have hle := pipeTotal_le v
  have h0 := empty_iff.mp he
  have h1 := (full_iff (by omega)).mp hf
  omega

/-- Taking bytes out of a ring leaves it short of full. -/
theorem popped_not_full {v : Version} {pi : Pipe} {len : Nat} (hused : pi.used ≤ pipeTotal v)
    (hpos : 0 < len) (hlen : len ≤ pi.used) : ¬(pi.popped len).full (pipeTotal v) = true := by
  have hle := pipeTotal_le v
  intro hf
  have h1 := (full_iff (by omega)).mp hf
  have h2 := used_popped hlen
  omega

omit [DecidableEq P] in
/-- A writer about to copy shares the pipe with no sleeping writer. -/
theorem SleepInv.no_writer {v : Version} {s : Sys P} (h : SleepInv v s) {p : P} {f : WFrame}
    (hl : s.lock = some p) (hc : s.ctl p = .w .body f) (hf : s.pi.full (pipeTotal v) = false) :
    ¬Asleep s.ctl .nwrite := by
  intro hw
  rcases h.wfull hw with hfull | hd
  · rw [hf] at hfull
    cases hfull
  · rw [held_some hl hc] at hd
    exact hd

theorem put_sleep {v : Version} {s : Sys P} (h : SleepInv v s) {p : P} {f : WFrame}
    (hl : s.lock = some p) (hc : s.ctl p = .w .body f) (hf : s.pi.full (pipeTotal v) = false)
    (r : Copy) : SleepInv v (s.put v p f r) := by
  have hb := put_base h.base hl hc hf r
  have hnw := h.no_writer hl hc hf
  have hplace := h.place
  rw [held_some hl hc] at hplace
  rcases put_cases h.base hc hf r with ⟨len, hpos, hrem, hroom, hwrap, ho⟩ | ⟨data, hbytes, ho⟩
  · rw [ho] at hb ⊢
    refine .of (held_some hl (Function.update_self _ _ _)) hb
      (fun hr => h.ropen (asleep_awake rfl hr))
      (fun hw => h.wopen (asleep_awake rfl hw))
      (fun hw => absurd (asleep_awake rfl hw) hnw) (fun _ hw => hnw (asleep_awake rfl hw)) ?_
    exact fun _ => hplace
  · rw [ho] at hb ⊢
    refine .of (held_some hl (Function.update_self _ _ _)) hb
      (fun hr => h.ropen (asleep_awake rfl hr))
      (fun hw => h.wopen (asleep_awake rfl hw))
      (fun hw => absurd (asleep_awake rfl hw) hnw) (fun _ hw => hnw (asleep_awake rfl hw)) ?_
    trivial

theorem get_sleep {v : Version} {s : Sys P} (h : SleepInv v s) {p : P} {f : RFrame}
    (hl : s.lock = some p) (hc : s.ctl p = .r .loop f) (hi : f.i < f.q.n)
    (he : s.pi.empty = false) (r : Copy) : SleepInv v (s.get v p f r) := by
  have hb := get_base h.base hl hc hi he r
  have hplace := h.place
  have hwf := h.wfull
  rw [held_some hl hc] at hplace hwf
  have hi0 : 0 ≤ f.i := by
    rcases (hc ▸ h.base.ok p : (Ctl.r .loop f).Ok).1 with h0 | ⟨_, hpc⟩
    · exact h0
    · exact absurd hpc (by decide)
  -- a sleeping writer slept before, so this reader found the ring full
  have hwas : Asleep s.ctl .nwrite → lazyWakeup v = true → f.wasFull = true := by
    intro hw hv
    rcases hwf hw with hfull | hd
    · exact hplace hv hfull
    · exact (hd hv).1
  rcases get_cases h.base hc hi he r
    with ⟨len, hpos, hrem, hroom, hwrap, ho⟩ | ⟨len, hrem, ho⟩ | ⟨hv', _, ho⟩
  · rw [ho] at hb ⊢
    refine .of (held_some hl (Function.update_self _ _ _)) hb
      (fun hr => h.ropen (asleep_awake rfl hr))
      (fun hw => h.wopen (asleep_awake rfl hw))
      (fun hw => .inr ?_) (fun hr hw => h.excl (asleep_awake rfl hr) (asleep_awake rfl hw)) ?_
    · intro hv
      exact ⟨hwas (asleep_awake rfl hw) hv, by show 0 < f.i + len; omega⟩
    · exact fun _ hf => absurd hf (popped_not_full h.base.used_le hpos hroom)
  · rw [ho] at hb ⊢
    refine .of (held_some hl (Function.update_self _ _ _)) hb
      (fun hr => h.ropen (asleep_awake rfl hr))
      (fun hw => h.wopen (asleep_awake rfl hw))
      (fun hw => ?_) (fun hr hw => h.excl (asleep_awake rfl hr) (asleep_awake rfl hw)) ?_
    · refine (hwf (asleep_awake rfl hw)).imp_right fun hd hv => ?_
      obtain ⟨h1, h2⟩ := hd hv
      refine ⟨h1, ?_⟩
      show 0 < if f.i = 0 then -1 else f.i
      rw [if_neg (by omega)]
      exact h2
    · exact hplace
  · -- v1 wakes writers in any case
    have hv : ¬lazyWakeup v = true := by
      cases v <;> first | decide | cases hv'
    rw [ho] at hb ⊢
    refine .of (held_some hl (Function.update_self _ _ _)) hb
      (fun hr => h.ropen (asleep_awake rfl hr))
      (fun hw => h.wopen (asleep_awake rfl hw))
      (fun hw => .inr ?_) (fun hr hw => h.excl (asleep_awake rfl hr) (asleep_awake rfl hw)) ?_
    · exact fun hv' => absurd hv' hv
    · exact fun hv' => absurd hv' hv

/-- **Every step keeps the sleepers' invariant**, whatever is killed when. -/
theorem sleep_step {v : Version} {s s' : Sys P} {a : Act P} (h : SleepInv v s)
    (hs : step v s a = some s') : SleepInv v s' := by
  have hb := base_step h.base hs
  have hlock := h.base.lock
  have hplace := h.place
  cases step_cases hs with
  | user hc => exact h.quiet_held hb rfl (fun _ ha => ha) rfl
  | write hc =>
    exact h.quiet_held hb rfl (fun _ ha => asleep_awake rfl ha)
      (held_away hlock (by rw [hc]; rfl) _)
  | read hc =>
    exact h.quiet_held hb rfl (fun _ ha => asleep_awake rfl ha)
      (held_away hlock (by rw [hc]; rfl) _)
  | kill =>
    exact h.quiet_held hb rfl (fun _ ha => asleep_awake (asleepOn_wake _) ha) (held_kkill hlock _)
  | @close writable hl =>
    have hh : (s.pipeclose writable).held = .user := held_none (by cases writable <;> exact hl)
    have hfull : Asleep s.ctl .nwrite → s.pi.full (pipeTotal v) = true := by
      intro hw
      rcases h.wfull hw with hf | hd
      · exact hf
      · rw [held_none hl] at hd
        exact hd.elim
    cases writable with
    | true =>
      refine ⟨hb, fun hr => absurd rfl (asleep_wakeup hr).2, fun hw => h.wopen (asleep_wakeup hw).1,
        fun hw => .inl (hfull (asleep_wakeup hw).1), fun hr => absurd rfl (asleep_wakeup hr).2, ?_⟩
      rw [hh]
      trivial
    | false =>
      refine ⟨hb, fun hr => h.ropen (asleep_wakeup hr).1, fun hw => absurd rfl (asleep_wakeup hw).2,
        fun hw => absurd rfl (asleep_wakeup hw).2, fun _ hw => (asleep_wakeup hw).2 rfl, ?_⟩
      rw [hh]
      trivial
  | wEnter hl hc | wResume hl hc =>
    refine h.quiet (held_none hl) (held_some rfl (Function.update_self _ _ _)) hb
      rfl (fun _ ha => asleep_awake rfl ha) ?_ ?_
    · exact fun _ hd => hd.elim
    · exact fun hlt => absurd hlt (Int.lt_irrefl _)
  | rEnter hl hc hpc =>
    refine h.quiet (held_none hl) (held_some rfl (Function.update_self _ _ _)) hb
      rfl (fun _ ha => asleep_awake rfl ha) ?_ ?_
    · exact fun _ hd => hd.elim
    · trivial
  | wFail hl hc hi hstop =>
    refine h.quiet (held_some hl hc) (held_none rfl) hb
      rfl (fun _ ha => asleep_awake rfl ha) ?_ ?_
    · exact fun _ hd => hd.elim
    · trivial
  | wTest hl hc hi ho hk =>
    refine h.quiet (held_some hl hc) (held_some hl (Function.update_self _ _ _)) hb
      rfl (fun _ ha => asleep_awake rfl ha) ?_ ?_
    · exact fun _ hd => hd.elim
    · exact ho
  | wEnd hl hc hi =>
    refine h.quiet (held_some hl hc) (held_some hl (Function.update_self _ _ _)) hb
      rfl (fun _ ha => asleep_awake rfl ha) ?_ ?_
    · exact fun _ hd => hd.elim
    · trivial
  | wFull hl hc hf =>
    rw [held_some hl hc] at hplace
    refine h.quiet (held_some hl hc) (held_some hl (Function.update_self _ _ _)) hb
      rfl (fun _ ha => (asleep_wakeup (asleep_awake rfl ha)).1) ?_ ?_
    · exact fun _ hd => hd.elim
    · exact ⟨hplace, hf, fun hr => (asleep_wakeup (asleep_awake rfl hr)).2 rfl⟩
  | wPut hl hc hf => exact put_sleep h hl hc hf _
  | wSleep hl hc =>
    rw [held_some hl hc] at hplace
    obtain ⟨ho, hf, hnr⟩ := hplace
    have hr : ∀ {ctl : P → Ctl} {p : P} {f : WFrame},
        Asleep (Function.update ctl p (.w .asleep f)) .nread → Asleep ctl .nread := by
      intro ctl p f hr
      rcases asleep_update hr with hr | hr
      · cases hr
      · exact hr
    refine ⟨hb, fun ha => absurd (hr ha) hnr, fun _ => ho, fun _ => .inl hf,
      fun ha => absurd (hr ha) hnr, ?_⟩
    rw [held_none rfl]
    trivial
  | wLeave hl hc =>
    refine h.quiet (held_some hl hc) (held_none rfl) hb
      (wakeReaders_pi v s _)
        (fun _ ha => (asleep_wakeReaders (asleep_awake rfl ha)).1) ?_ ?_
    · exact fun _ hd => hd.elim
    · trivial
  | rWait hl hc he ho =>
    refine h.quiet (held_some hl hc) (held_some hl (Function.update_self _ _ _)) hb
      rfl (fun _ ha => asleep_awake rfl ha) ?_ ?_
    · exact fun _ hd => hd.elim
    · exact ⟨he, ho⟩
  | rStart hl hc hw =>
    refine h.quiet (held_some hl hc) (held_some hl (Function.update_self _ _ _)) hb
      rfl (fun _ ha => asleep_awake rfl ha) ?_ ?_
    · exact fun _ hd => hd.elim
    · intro hv hf
      simp [hv, hf]
  | rFail hl hc hk =>
    refine h.quiet (held_some hl hc) (held_none rfl) hb
      rfl (fun _ ha => asleep_awake rfl ha) ?_ ?_
    · exact fun _ hd => hd.elim
    · trivial
  | rTest hl hc hk =>
    rw [held_some hl hc] at hplace
    refine h.quiet (held_some hl hc) (held_some hl (Function.update_self _ _ _)) hb
      rfl (fun _ ha => asleep_awake rfl ha) ?_ ?_
    · exact fun _ hd => hd.elim
    · exact hplace
  | rSleep hl hc =>
    rw [held_some hl hc] at hplace
    obtain ⟨he, ho⟩ := hplace
    -- a sleeping writer would face a full ring, and this one is empty
    have hnw : ¬Asleep s.ctl .nwrite := by
      intro hw
      rcases h.wfull hw with hf | hd
      · exact not_empty_full he hf
      · rw [held_some hl hc] at hd
        exact hd
    have hw : ∀ {ctl : P → Ctl} {p : P} {f : RFrame},
        Asleep (Function.update ctl p (.r .asleep f)) .nwrite → Asleep ctl .nwrite := by
      intro ctl p f hw
      rcases asleep_update hw with hw | hw
      · cases hw
      · exact hw
    refine ⟨hb, fun _ => ho, fun ha => absurd (hw ha) hnw, fun ha => absurd (hw ha) hnw,
      fun _ ha => hnw (hw ha), ?_⟩
    rw [held_none rfl]
    trivial
  | rGet hl hc hi he => exact get_sleep h hl hc hi he _
  | rEnd hl hc hi =>
    rw [held_some hl hc] at hplace
    refine h.quiet (held_some hl hc) (held_some hl (Function.update_self _ _ _)) hb
      rfl (fun _ ha => asleep_awake rfl ha) ?_ ?_
    · exact fun _ hd => hd
    · exact hplace
  | rLeave hl hc =>
    refine h.quiet (held_some hl hc) (held_none rfl) hb (wakeWriters_pi v s _)
      (fun _ ha => (asleep_wakeWriters (asleep_awake rfl ha)).1) ?_ ?_
    · -- a reader that drained the ring has just woken every writer
      intro hw hd
      obtain ⟨hv, hskip⟩ := (asleep_wakeWriters (asleep_awake rfl hw)).2 rfl
      exact absurd (hd hv) hskip
    · trivial

theorem reach_sleep {v : Version} {ok : Sys P → Act P → Prop} {s : Sys P}
    (h : Reach (step v) ok Init s) : SleepInv v s :=
  h.inv (fun _ => init_sleep) fun hi _ hs => sleep_step hi hs

/-- **No mutual sleep.** In no reachable state of any version do a reader and a
writer sleep on the same pipe, and nobody sleeps on an end that was closed. -/
theorem no_mutual_sleep {v : Version} {s : Sys P} (h : Reach (step v) Any Init s) :
    (s.lock = none → ∀ p p', (s.ctl p).asleepOn = some .nread →
      (s.ctl p').asleepOn ≠ some .nwrite) ∧
    (s.pi.writeopen = false → ∀ p, (s.ctl p).asleepOn ≠ some .nread) ∧
    (s.pi.readopen = false → ∀ p, (s.ctl p).asleepOn ≠ some .nwrite) := by
  have hi := reach_sleep h
  refine ⟨fun _ p p' hr hw => hi.excl ⟨p, hr⟩ ⟨p', hw⟩, fun ho p hr => ?_, fun ho p hw => ?_⟩
  · rw [hi.ropen ⟨p, hr⟩] at ho
    cases ho
  · rw [hi.wopen ⟨p, hw⟩] at ho
    cases ho

/-- `true` finds the pipe empty and goes to sleep. -/
def readerSleeps : List (Act Bool) :=
  [.read true (.of 0 1), .acquire true, .run true .ok, .run true .ok, .run true .ok]

theorem no_mutual_sleep_reader_sleeps :
    ∃ s : Sys Bool, runFrom (step .v7) (Sys.fresh fun _ _ => 0) readerSleeps = some s ∧
      (s.ctl true).asleepOn = some .nread ∧ (s.ctl false).asleepOn ≠ some .nwrite := by
  have hrun : (runFrom (step .v7) (Sys.fresh fun _ _ => 0) readerSleeps).map
      (fun s => ((s.ctl true).asleepOn, s.lock)) = some (some .nread, none) := by decide
  obtain ⟨s, hs, hd⟩ := Option.map_eq_some_iff.mp hrun
  obtain ⟨hr, hl⟩ := Prod.mk.inj hd
  have hreach : Reach (step .v7) Any Init s :=
    .of_run _ (.start (fresh_init _)) (RunOk.any _ _ _) hs
  exact ⟨s, hs, hr, (no_mutual_sleep hreach).1 hl true false hr⟩

end Xv6.Pipe
