import Xv6.Pipe.Machine

/-!
# The lock, the locals and the ring: what every version keeps

The facts about the pipe machine that need no argument about sleepers:

* `LockOk` — a process is at a place inside the critical section exactly when it
  holds `pi->lock`;
* `Ctl.Ok` — a process's locals are consistent with its place;
* the ring never holds more than `PIPE_TOTAL` bytes.

`base_step` carries the three through every step of every version; the stream
invariant (`Fifo`) and the sleeper invariants (`Sleepers`) build on it.
-/

namespace Xv6.Pipe

open Lib

variable {P : Type*} [DecidableEq P]

/-! ## Locals -/

/-- What a place says about the locals. A reader's `i` is `-1` only when its
first `copyout` failed, and `0` until the copy loop starts. -/
def Ctl.Ok : Ctl → Prop
  | .user => True
  | .w pc f => 0 ≤ f.i0 ∧ f.i0 ≤ f.i ∧ (pc = .body ∨ pc = .sleep → f.i < f.q.n)
  | .r pc f => (0 ≤ f.i ∨ f.i = -1 ∧ pc = .leave) ∧ (pc ≠ .loop → pc ≠ .leave → f.i = 0)

theorem Ctl.Ok.wake {c : Ctl} (h : c.Ok) : c.wake.Ok := by
  cases c with
  | user => exact h
  | w pc f =>
    cases pc with
    | asleep => exact ⟨h.1, h.2.1, fun hpc => by simp at hpc⟩
    | _ => exact h
  | r pc f =>
    cases pc with
    | asleep =>
      have h0 : f.i = 0 := h.2 (by decide) (by decide)
      exact ⟨.inl (by omega), fun _ _ => h0⟩
    | _ => exact h

omit [DecidableEq P] in
theorem wakeup_ok {s : Sys P} (h : ∀ p, (s.ctl p).Ok) (ch : Chan) :
    ∀ p, ((s.wakeup ch).ctl p).Ok := by
  intro p
  show (if (s.ctl p).asleepOn = some ch then (s.ctl p).wake else s.ctl p).Ok
  split
  · exact (h p).wake
  · exact h p

theorem update_ok {ctl : P → Ctl} (h : ∀ p, (ctl p).Ok) (p : P) {c : Ctl} (hc : c.Ok) :
    ∀ p', (Function.update ctl p c p').Ok :=
  (Function.forall_update_iff ctl fun _ c => c.Ok).mpr ⟨hc, fun p' _ => h p'⟩

/-! ## The lock -/

/-- Being inside the critical section is holding the lock. -/
def LockOk (lock : Option P) (ctl : P → Ctl) : Prop :=
  ∀ p, (ctl p).holds = true ↔ lock = some p

@[simp] theorem holds_wake (c : Ctl) : c.wake.holds = c.holds := by
  cases c with
  | user => rfl
  | w pc f => cases pc <;> rfl
  | r pc f => cases pc <;> rfl

omit [DecidableEq P] in
theorem LockOk.wakeup {s : Sys P} (h : LockOk s.lock s.ctl) (ch : Chan) :
    LockOk s.lock (s.wakeup ch).ctl := by
  intro p
  show (if (s.ctl p).asleepOn = some ch then (s.ctl p).wake else s.ctl p).holds = true ↔ _
  split
  · rw [holds_wake]; exact h p
  · exact h p

omit [DecidableEq P] in
/-- Whoever is not the holder is outside. -/
theorem LockOk.outside {lock : Option P} {ctl : P → Ctl} (h : LockOk lock ctl) {p : P}
    (hp : lock ≠ some p) : (ctl p).holds = false := by
  rw [← Bool.not_eq_true, h p]
  exact hp

/-- The holder moves on inside the critical section. -/
theorem LockOk.stay {ctl : P → Ctl} {p : P} (h : LockOk (some p) ctl) {c : Ctl}
    (hc : c.holds = true) : LockOk (some p) (Function.update ctl p c) := by
  intro p'
  by_cases hp : p' = p
  · subst hp
    simp [hc]
  · rw [Function.update_of_ne hp]
    exact h p'

/-- The holder gives the lock up. -/
theorem LockOk.release {ctl : P → Ctl} {p : P} (h : LockOk (some p) ctl) {c : Ctl}
    (hc : c.holds = false) : LockOk none (Function.update ctl p c) := by
  intro p'
  by_cases hp : p' = p
  · subst hp
    simp [hc]
  · rw [Function.update_of_ne hp, h.outside (by simpa using fun he => hp he.symm)]
    simp

/-- A process takes the free lock. -/
theorem LockOk.take {ctl : P → Ctl} {p : P} (h : LockOk none ctl) {c : Ctl}
    (hc : c.holds = true) : LockOk (some p) (Function.update ctl p c) := by
  intro p'
  by_cases hp : p' = p
  · subst hp
    simp [hc]
  · rw [Function.update_of_ne hp, h.outside (by simp)]
    simpa using fun he => hp he.symm

/-- A process outside the critical section moves outside it. -/
theorem LockOk.away {lock : Option P} {ctl : P → Ctl} (h : LockOk lock ctl) {p : P} {c : Ctl}
    (hp : (ctl p).holds = false) (hc : c.holds = false) :
    LockOk lock (Function.update ctl p c) := by
  intro p'
  by_cases he : p' = p
  · subst he
    rw [Function.update_self, hc, ← h p', hp]
  · rw [Function.update_of_ne he]
    exact h p'

/-! ## The base invariant -/

structure BaseInv (v : Version) (s : Sys P) : Prop where
  used_le : s.pi.used ≤ pipeTotal v
  lock : LockOk s.lock s.ctl
  ok : ∀ p, (s.ctl p).Ok

section

omit [DecidableEq P]

theorem init_base {v : Version} {s : Sys P} (h : Init s) : BaseInv v s := by
  refine ⟨?_, fun p => ?_, fun p => ?_⟩
  · unfold used
    rw [h.nread, h.nwrite]
    simp
  · rw [h.ctl p, h.lock]
    simp [Ctl.holds]
  · rw [h.ctl p]
    trivial

/-- The three clauses only read `pi`, `lock` and `ctl`. -/
theorem BaseInv.of_eq {v : Version} {s s' : Sys P} (h : BaseInv v s) (hpi : s'.pi.used = s.pi.used)
    (hl : s'.lock = s.lock) (hc : s'.ctl = s.ctl) : BaseInv v s' :=
  ⟨hpi ▸ h.used_le, hl ▸ hc ▸ h.lock, hc ▸ h.ok⟩

theorem BaseInv.wakeup {v : Version} {s : Sys P} (h : BaseInv v s) (ch : Chan) :
    BaseInv v (s.wakeup ch) :=
  ⟨h.used_le, h.lock.wakeup ch, wakeup_ok h.ok ch⟩

theorem BaseInv.wakeReaders {v : Version} {s : Sys P} (h : BaseInv v s) (f : WFrame) :
    BaseInv v (s.wakeReaders v f) := by
  unfold Sys.wakeReaders
  split
  · split
    · exact h.wakeup _
    · exact h
  · exact h.wakeup _

theorem BaseInv.wakeWriters {v : Version} {s : Sys P} (h : BaseInv v s) (f : RFrame) :
    BaseInv v (s.wakeWriters v f) := by
  unfold Sys.wakeWriters
  split
  · split
    · exact h.wakeup _
    · exact h
  · exact h.wakeup _

end

/-- A return: the holder leaves for user space. -/
theorem BaseInv.ret {v : Version} {s : Sys P} (h : BaseInv v s) {p : P} (hl : s.lock = some p)
    (k : Nat) (r : Int) : BaseInv v (s.ret p k r) :=
  ⟨h.used_le, (hl ▸ h.lock).release rfl, update_ok h.ok p trivial⟩

omit [DecidableEq P] in
@[simp] theorem wakeReaders_lock (v : Version) (s : Sys P) (f : WFrame) :
    (s.wakeReaders v f).lock = s.lock := by
  unfold Sys.wakeReaders
  split
  · split <;> rfl
  · rfl

omit [DecidableEq P] in
@[simp] theorem wakeWriters_lock (v : Version) (s : Sys P) (f : RFrame) :
    (s.wakeWriters v f).lock = s.lock := by
  unfold Sys.wakeWriters
  split
  · split <;> rfl
  · rfl

/-- The holder moves on inside the critical section, the ring unchanged. -/
theorem BaseInv.stay {v : Version} {s : Sys P} (h : BaseInv v s) {p : P} (hl : s.lock = some p)
    {c : Ctl} (hc : c.holds = true) (hok : c.Ok) : BaseInv v (s.goto p c) :=
  ⟨h.used_le, hl ▸ (hl ▸ h.lock : LockOk (some p) s.ctl).stay hc, update_ok h.ok p hok⟩

/-- **One iteration of a writer's copy**: it accepts the next `len` bytes of its
buffer, or leaves the loop with the FIFO view as it was. -/
theorem put_cases {v : Version} {s : Sys P} {p : P} {f : WFrame} (h : BaseInv v s)
    (hc : s.ctl p = .w .body f) (hf : s.pi.full (pipeTotal v) = false) (r : Copy) :
    (∃ len : Nat, 0 < len ∧ (len : Int) ≤ f.q.n - f.i ∧ s.pi.used + len ≤ pipeTotal v ∧
      s.pi.nwrite.toNat % pipeTotal v + len ≤ pipeTotal v ∧
      s.put v p f r = { s with
        pi := s.pi.pushed (pipeTotal v) (userBytes (s.umem p) f.q.addr f.i) len
        ctl := Function.update s.ctl p (.w .top { f with i := f.i + len })
        call := Function.update s.call f.call { s.call f.call with i := f.i + len }
        written := s.written ++ ((List.range len).map
          (userBytes (s.umem p) f.q.addr f.i)).map (Prod.mk f.call) }) ∨
    (∃ data, ({ s.pi with data := data } : Pipe).bytes (pipeTotal v) = s.pi.bytes (pipeTotal v) ∧
      s.put v p f r = { s with
        pi := { s.pi with data := data }
        ctl := Function.update s.ctl p (.w .leave f)
        call := Function.update s.call f.call { s.call f.call with i := f.i } }) := by
  obtain ⟨h0, h1, h2⟩ := (hc ▸ h.ok p : (Ctl.w .body f).Ok)
  have ht := pipeTotal_le v
  rcases writeIter_cases (s.umem p) f.q.addr h.used_le hf (h2 (.inl rfl)) (by omega) f.q.n_lt r
    with ⟨len, hpos, hrem, hroom, hwrap, ho⟩ | ⟨data, hbytes, ho⟩
  · refine .inl ⟨len, hpos, hrem, hroom, hwrap, ?_⟩
    -- the ring bytes `nwrite` moved over are the ones just stored
    have hnew : Ring.contents (pipeTotal v)
        (s.pi.pushed (pipeTotal v) (userBytes (s.umem p) f.q.addr f.i) len).data
        s.pi.nwrite.toNat
        ((s.pi.pushed (pipeTotal v) (userBytes (s.umem p) f.q.addr f.i) len).nwrite
          - s.pi.nwrite).toNat
        = (List.range len).map (userBytes (s.umem p) f.q.addr f.i) := by
      have hlen : ((s.pi.pushed (pipeTotal v) (userBytes (s.umem p) f.q.addr f.i) len).nwrite
          - s.pi.nwrite).toNat = len := by
        show (s.pi.nwrite + BitVec.ofNat 32 len - s.pi.nwrite).toNat = len
        rw [BitVec.add_comm, BitVec.add_sub_cancel, BitVec.toNat_ofNat,
          Nat.mod_eq_of_lt (by omega)]
      rw [hlen]
      exact Ring.contents_blit_run hwrap
    simp only [Sys.put, ho, hnew]
    rfl
  · refine .inr ⟨data, hbytes, ?_⟩
    simp only [Sys.put, ho, BitVec.sub_self, BitVec.toNat_zero, Ring.contents_zero, List.map_nil,
      List.append_nil]
    rfl

/-- **One iteration of a reader's copy**: it hands out the next `len` bytes, or
leaves the loop — in v2..v8 with the ring as it was, in v1 one byte poorer. -/
theorem get_cases {v : Version} {s : Sys P} {p : P} {f : RFrame} (h : BaseInv v s)
    (hc : s.ctl p = .r .loop f) (hi : f.i < f.q.n) (he : s.pi.empty = false) (r : Copy) :
    (∃ len : Nat, 0 < len ∧ (len : Int) ≤ f.q.n - f.i ∧ len ≤ s.pi.used ∧
      s.pi.nread.toNat % pipeTotal v + len ≤ pipeTotal v ∧
      s.get v p f r = { s with
        pi := s.pi.popped len
        umem := Function.update s.umem p (copyout (s.umem p)
          (f.q.addr + BitVec.ofInt 64 f.i) s.pi.data (s.pi.nread.toNat % pipeTotal v) len)
        ctl := Function.update s.ctl p (.r .loop { f with i := f.i + len })
        call := Function.update s.call f.call { s.call f.call with i := f.i + len }
        delivered := s.delivered ++ (Ring.contents (pipeTotal v) s.pi.data s.pi.nread.toNat
          len).map (Prod.mk f.call) }) ∨
    (∃ len : Nat, (len : Int) ≤ f.q.n - f.i ∧
      s.get v p f r = { s with
        umem := Function.update s.umem p (copyout (s.umem p)
          (f.q.addr + BitVec.ofInt 64 f.i) s.pi.data (s.pi.nread.toNat % pipeTotal v) len)
        ctl := Function.update s.ctl p (.r .leave { f with i := if f.i = 0 then -1 else f.i })
        call := Function.update s.call f.call
          { s.call f.call with i := if f.i = 0 then -1 else f.i } }) ∨
    (bulkCopy v = false ∧ r ≠ .ok ∧
      s.get v p f r = { s with
        pi := s.pi.popped 1
        ctl := Function.update s.ctl p (.r .leave f)
        call := Function.update s.call f.call { s.call f.call with i := f.i } }) := by
  have hok := (hc ▸ h.ok p : (Ctl.r .loop f).Ok)
  have hi0 : 0 ≤ f.i := by
    rcases hok.1 with h0 | ⟨_, hpc⟩
    · exact h0
    · exact absurd hpc (by decide)
  have ht := pipeTotal_le v
  rcases readIter_cases v (s.umem p) f.q.addr he hi hi0 f.q.n_lt r
    with ⟨len, hpos, hrem, hroom, hwrap, ho⟩ | ⟨len, hrem, ho⟩ | ⟨hv, hr, ho⟩
  · refine .inl ⟨len, hpos, hrem, hroom, hwrap, ?_⟩
    have hnew : (List.range len).map (userBytes
        (copyout (s.umem p) (f.q.addr + BitVec.ofInt 64 f.i) s.pi.data
          (s.pi.nread.toNat % pipeTotal v) len) f.q.addr f.i)
        = Ring.contents (pipeTotal v) s.pi.data s.pi.nread.toNat len :=
      userBytes_copyout hwrap (by omega)
    simp only [Sys.get, ho, add_sub_cancel_left, Int.toNat_natCast, hnew]
    rfl
  · refine .inr (.inl ⟨len, hrem, ?_⟩)
    have hnone : ((if f.i = 0 then -1 else f.i) - f.i).toNat = 0 := by
      split <;> omega
    simp only [Sys.get, ho, hnone, List.range_zero, List.map_nil, List.append_nil]
    rfl
  · refine .inr (.inr ⟨hv, hr, ?_⟩)
    simp only [Sys.get, ho, Int.sub_self, Int.toNat_zero, List.range_zero, List.map_nil,
      List.append_nil, Function.update_eq_self]
    rfl

theorem put_base {v : Version} {s : Sys P} {p : P} {f : WFrame} (h : BaseInv v s)
    (hl : s.lock = some p) (hc : s.ctl p = .w .body f) (hf : s.pi.full (pipeTotal v) = false)
    (r : Copy) : BaseInv v (s.put v p f r) := by
  obtain ⟨h0, h1, -⟩ := (hc ▸ h.ok p : (Ctl.w .body f).Ok)
  have hle := pipeTotal_le v
  have hlock : LockOk (some p) s.ctl := hl ▸ h.lock
  rcases put_cases h hc hf r with ⟨len, hpos, hrem, hroom, hwrap, ho⟩ | ⟨data, hbytes, ho⟩
  · rw [ho]
    refine ⟨(used_pushed _ _ (by omega)).trans_le hroom, ?_, update_ok h.ok p ⟨h0, ?_, by simp⟩⟩
    · exact hl ▸ hlock.stay rfl
    · show f.i0 ≤ f.i + len
      omega
  · rw [ho]
    exact ⟨h.used_le, hl ▸ hlock.stay rfl, update_ok h.ok p ⟨h0, h1, by simp⟩⟩

theorem get_base {v : Version} {s : Sys P} {p : P} {f : RFrame} (h : BaseInv v s)
    (hl : s.lock = some p) (hc : s.ctl p = .r .loop f) (hi : f.i < f.q.n)
    (he : s.pi.empty = false) (r : Copy) : BaseInv v (s.get v p f r) := by
  have hok := (hc ▸ h.ok p : (Ctl.r .loop f).Ok)
  have hi0 : 0 ≤ f.i := by
    rcases hok.1 with h0 | ⟨_, hpc⟩
    · exact h0
    · exact absurd hpc (by decide)
  have hused := h.used_le
  have hlock : LockOk (some p) s.ctl := hl ▸ h.lock
  rcases get_cases h hc hi he r
    with ⟨len, hpos, hrem, hroom, hwrap, ho⟩ | ⟨len, hrem, ho⟩ | ⟨_, _, ho⟩
  · rw [ho]
    have hu := used_popped hroom
    refine ⟨by show (s.pi.popped len).used ≤ _; omega, hl ▸ hlock.stay rfl,
      update_ok h.ok p ⟨.inl ?_, by simp⟩⟩
    show 0 ≤ f.i + len
    omega
  · rw [ho]
    refine ⟨hused, hl ▸ hlock.stay rfl, update_ok h.ok p ⟨?_, by simp⟩⟩
    show 0 ≤ (if f.i = 0 then -1 else f.i) ∨ (if f.i = 0 then -1 else f.i) = -1 ∧ RPc.leave = .leave
    split
    · exact .inr ⟨rfl, rfl⟩
    · exact .inl hi0
  · rw [ho]
    have hpos : 1 ≤ s.pi.used := by
      rcases Nat.eq_zero_or_pos s.pi.used with h0 | h0
      · rw [empty_iff.mpr h0] at he
        exact absurd he (by decide)
      · exact h0
    have hu := used_popped hpos
    exact ⟨by show (s.pi.popped 1).used ≤ _; omega, hl ▸ hlock.stay rfl,
      update_ok h.ok p ⟨.inl hi0, by simp⟩⟩

/-- **Every step keeps the base invariant.** -/
theorem base_step {v : Version} {s s' : Sys P} {a : Act P} (h : BaseInv v s)
    (hs : step v s a = some s') : BaseInv v s' := by
  have hok := h.ok
  cases step_cases hs with
  | user hc => exact h.of_eq rfl rfl rfl
  | @write p q hc =>
    exact ⟨h.used_le, h.lock.away (by rw [hc]; rfl) rfl,
      update_ok hok p ⟨Int.le_refl _, Int.le_refl _, by simp⟩⟩
  | @read p q hc =>
    exact ⟨h.used_le, h.lock.away (by rw [hc]; rfl) rfl,
      update_ok hok p ⟨.inl (Int.le_refl _), fun _ _ => rfl⟩⟩
  | @kill p =>
    refine ⟨h.used_le, fun p' => ?_, update_ok hok p (hok p).wake⟩
    show (Function.update s.ctl p (s.ctl p).wake p').holds = true ↔ _
    by_cases he : p' = p
    · subst he
      rw [Function.update_self, holds_wake]
      exact h.lock p'
    · rw [Function.update_of_ne he]
      exact h.lock p'
  | @close writable hl =>
    unfold Sys.pipeclose
    split
    · have h' : BaseInv v { s with pi := { s.pi with writeopen := false } } := h.of_eq rfl rfl rfl
      exact h'.wakeup .nread
    · have h' : BaseInv v { s with pi := { s.pi with readopen := false } } := h.of_eq rfl rfl rfl
      exact h'.wakeup .nwrite
  | @wEnter p f hl hc =>
    obtain ⟨h0, h1, -⟩ := (hc ▸ hok p : (Ctl.w .enter f).Ok)
    exact ⟨h.used_le, (hl ▸ h.lock : LockOk none s.ctl).take rfl,
      update_ok hok p ⟨Int.le_trans h0 h1, Int.le_refl _, by simp⟩⟩
  | @wResume p f hl hc =>
    obtain ⟨h0, h1, -⟩ := (hc ▸ hok p : (Ctl.w .woken f).Ok)
    exact ⟨h.used_le, (hl ▸ h.lock : LockOk none s.ctl).take rfl,
      update_ok hok p ⟨Int.le_trans h0 h1, Int.le_refl _, by simp⟩⟩
  | @rEnter p pc f hl hc hpc =>
    have h0 : f.i = 0 := by
      have := (hc ▸ hok p : (Ctl.r pc f).Ok).2
      rcases hpc with rfl | rfl
      · exact this (by decide) (by decide)
      · exact this (by decide) (by decide)
    exact ⟨h.used_le, (hl ▸ h.lock : LockOk none s.ctl).take rfl,
      update_ok hok p ⟨.inl (by omega), fun _ _ => h0⟩⟩
  | wFail hl hc hi hstop => exact h.ret hl _ _
  | @wTest p r f hl hc hi ho hk =>
    obtain ⟨h0, h1, -⟩ := (hc ▸ hok p : (Ctl.w .top f).Ok)
    exact h.stay hl rfl ⟨h0, h1, fun _ => hi⟩
  | @wEnd p r f hl hc hi =>
    obtain ⟨h0, h1, -⟩ := (hc ▸ hok p : (Ctl.w .top f).Ok)
    exact h.stay hl rfl ⟨h0, h1, by simp⟩
  | @wFull p r f hl hc hf =>
    obtain ⟨h0, h1, h2⟩ := (hc ▸ hok p : (Ctl.w .body f).Ok)
    exact (h.wakeup .nread).stay hl rfl ⟨h0, h1, fun _ => h2 (.inl rfl)⟩
  | wPut hl hc hf => exact put_base h hl hc hf _
  -- `sleep` releases the lock
  | @wSleep p r f hl hc =>
    obtain ⟨h0, h1, -⟩ := (hc ▸ hok p : (Ctl.w .sleep f).Ok)
    exact ⟨h.used_le, (hl ▸ h.lock).release rfl, update_ok hok p ⟨h0, h1, by simp⟩⟩
  | wLeave hl hc => exact (h.wakeReaders _).ret (by rw [wakeReaders_lock]; exact hl) _ _
  | @rWait p r f hl hc he ho =>
    have h0 : f.i = 0 := (hc ▸ hok p : (Ctl.r .wait f).Ok).2 (by decide) (by decide)
    exact h.stay hl rfl ⟨.inl (by omega), fun _ _ => h0⟩
  | @rStart p r f hl hc hw =>
    have h0 : f.i = 0 := (hc ▸ hok p : (Ctl.r .wait f).Ok).2 (by decide) (by decide)
    exact h.stay hl rfl ⟨.inl (by show 0 ≤ f.i; omega), by simp⟩
  | rFail hl hc hk => exact h.ret hl _ _
  | @rTest p r f hl hc hk =>
    have h0 : f.i = 0 := (hc ▸ hok p : (Ctl.r .killed f).Ok).2 (by decide) (by decide)
    exact h.stay hl rfl ⟨.inl (by omega), fun _ _ => h0⟩
  | @rSleep p r f hl hc =>
    have h0 : f.i = 0 := (hc ▸ hok p : (Ctl.r .sleep f).Ok).2 (by decide) (by decide)
    exact ⟨h.used_le, (hl ▸ h.lock).release rfl,
      update_ok hok p ⟨.inl (by omega), fun _ _ => h0⟩⟩
  | rGet hl hc hi he => exact get_base h hl hc hi he _
  | @rEnd p r f hl hc hi =>
    obtain ⟨h0, -⟩ := (hc ▸ hok p : (Ctl.r .loop f).Ok)
    refine h.stay hl rfl ⟨.inl ?_, by simp⟩
    rcases h0 with h0 | ⟨_, hpc⟩
    · exact h0
    · exact absurd hpc (by decide)
  | rLeave hl hc => exact (h.wakeWriters _).ret (by rw [wakeWriters_lock]; exact hl) _ _

end Xv6.Pipe
