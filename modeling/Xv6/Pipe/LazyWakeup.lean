import Xv6.Pipe.Strand

/-!
# Lazy wakeup against unconditional wakeup

v5..v8 are v4 with two wakeups made conditional. `Sys.strip` forgets the flags
they are decided from, and `step_strip` says that a step of a lazy version is,
up to those flags, the step of v4 — unless it skips a wakeup while somebody
sleeps on that channel.

When can that be? `skip_writer` and `skip_reader`: only when the returning call
has moved no byte at all (`i ≤ 0`: a zero-length request, or a copy that failed
at once). Then the ring is still as empty, or as full, as the sleepers left it,
and v4's wakeup sends them back to sleep; the lazy versions leave them alone.
That is the `i > 0` in `if(need_wakeup && i > 0)`. `Audible` excludes such calls,
and what is left agrees label by label (`lazy_refines_unconditional`).
-/

namespace Xv6.Pipe

open Lib

variable {P : Type*} [DecidableEq P]

/-- No writer finds itself killed between two iterations of one critical
section. -/
def NoKillInside (s : Sys P) (a : Act P) : Prop :=
  ∀ p r f, a = .run p r → s.ctl p = .w .top f → f.i0 < f.i → f.i < f.q.n → s.killed p = false

omit [DecidableEq P] in
theorem NoKillInside.killSafe {s : Sys P} {a : Act P} (h : NoKillInside s a) : KillSafe s a := by
  intro p r f ha hc hi0 hi hk
  rw [h p r f ha hc hi0 hi] at hk
  cases hk

/-- No call returns without having moved a byte while somebody sleeps on the
channel it would have signalled. -/
def Audible (s : Sys P) (a : Act P) : Prop :=
  ∀ p r, a = .run p r →
    (∀ f, s.ctl p = .w .leave f → f.i ≤ 0 → ¬Asleep s.ctl .nread) ∧
    (∀ f, s.ctl p = .r .leave f → f.i ≤ 0 → ¬Asleep s.ctl .nwrite)

/-! ## The points where a wakeup is skipped -/

omit [DecidableEq P] in
/-- A writer that skips its wakeup while a reader sleeps has stored nothing, and
the ring is still empty. -/
theorem skip_writer {v : Version} {s : Sys P} (hv : lazyWakeup v = true) (h : StrandInv v s) {p : P}
    {f : WFrame} (hl : s.lock = some p) (hc : s.ctl p = .w .leave f)
    (hskip : ¬(f.need = true ∧ 0 < f.i)) (hr : Asleep s.ctl .nread) :
    f.i = 0 ∧ s.pi.empty = true ∧ s.pi.writeopen = true := by
  obtain ⟨h0, h1, -⟩ := (hc ▸ h.sleep.base.ok p : (Ctl.w .leave f).Ok)
  have hneed := h.need
  rw [held_some hl hc] at hneed
  have hnf : ¬Fills v (.w .leave f) := by
    rintro ⟨hlt, hn⟩
    exact hskip ⟨hn hv, by omega⟩
  have he := h.empty (held_some hl hc) hnf hr
  refine ⟨?_, he, h.sleep.ropen hr⟩
  by_contra hi
  exact hskip ⟨hneed.1 hv he, by omega⟩

omit [DecidableEq P] in
/-- A reader that skips its wakeup while a writer sleeps has taken nothing, and
the ring is still full. -/
theorem skip_reader {v : Version} {s : Sys P} (hv : lazyWakeup v = true) (h : SleepInv v s) {p : P}
    {f : RFrame} (hl : s.lock = some p) (hc : s.ctl p = .r .leave f)
    (hskip : ¬(f.wasFull = true ∧ 0 < f.i)) (hw : Asleep s.ctl .nwrite) :
    f.i ≤ 0 ∧ s.pi.full (pipeTotal v) = true ∧ s.pi.readopen = true := by
  have hplace := h.place
  have hwf := h.wfull hw
  rw [held_some hl hc] at hplace hwf
  have hfull : s.pi.full (pipeTotal v) = true := by
    rcases hwf with hf | hd
    · exact hf
    · exact absurd (hd hv) hskip
  refine ⟨?_, hfull, h.wopen hw⟩
  by_contra hi
  exact hskip ⟨hplace hv hfull, by omega⟩

/-! ## Up to the flags -/

/-- Forget `need_wakeup` and `was_full`. -/
def Ctl.strip : Ctl → Ctl
  | .user => .user
  | .w pc f => .w pc { f with need := false }
  | .r pc f => .r pc { f with wasFull := false }

def Sys.strip (s : Sys P) : Sys P := { s with ctl := fun p => (s.ctl p).strip }

/-- The two systems agree: on the pipe, the lock, every process's place, locals,
memory and flags, and on both streams. -/
def Agree (s t : Sys P) : Prop := s.strip = t.strip

@[simp] theorem asleepOn_strip (c : Ctl) : c.strip.asleepOn = c.asleepOn := by
  cases c with
  | user => rfl
  | w pc f => cases pc <;> rfl
  | r pc f => cases pc <;> rfl

@[simp] theorem strip_wake (c : Ctl) : c.wake.strip = c.strip.wake := by
  cases c with
  | user => rfl
  | w pc f => cases pc <;> rfl
  | r pc f => cases pc <;> rfl

theorem strip_update (ctl : P → Ctl) (p : P) (c : Ctl) :
    (fun p' => (Function.update ctl p c p').strip)
      = Function.update (fun p' => (ctl p').strip) p c.strip := by
  funext p'
  by_cases hp : p' = p
  · subst hp
    rw [Function.update_self, Function.update_self]
  · rw [Function.update_of_ne hp, Function.update_of_ne hp]

theorem strip_goto (s : Sys P) (p : P) (c : Ctl) :
    (s.goto p c).strip = s.strip.goto p c.strip := by
  unfold Sys.strip Sys.goto
  simp only [strip_update]

theorem strip_ret (s : Sys P) (p : P) (k : Nat) (r : Int) :
    (s.ret p k r).strip = s.strip.ret p k r := by
  unfold Sys.strip Sys.ret
  simp only [strip_update]
  rfl

omit [DecidableEq P] in
theorem strip_wakeup (s : Sys P) (ch : Chan) : (s.wakeup ch).strip = s.strip.wakeup ch := by
  unfold Sys.strip Sys.wakeup
  simp only [asleepOn_strip]
  congr 1
  funext p
  split
  · exact strip_wake _
  · rfl

theorem strip_kkill (s : Sys P) (p : P) : (s.kkill p).strip = s.strip.kkill p := by
  unfold Sys.strip Sys.kkill
  simp only [strip_update, strip_wake]

omit [DecidableEq P] in
theorem strip_pipeclose (s : Sys P) (writable : Bool) :
    (s.pipeclose writable).strip = s.strip.pipeclose writable := by
  unfold Sys.pipeclose
  split
  · exact strip_wakeup _ _
  · exact strip_wakeup _ _

theorem strip_enter (s : Sys P) (p : P) (isWrite : Bool) (q : Req) :
    (s.enter p isWrite q).strip = s.strip.enter p isWrite q := by
  unfold Sys.strip Sys.enter
  simp only [strip_update]
  cases isWrite <;> rfl

omit [DecidableEq P] in
/-- A wakeup nobody waits for. -/
theorem wakeup_of_none {s : Sys P} {ch : Chan} (h : ¬Asleep s.ctl ch) : s.wakeup ch = s := by
  unfold Sys.wakeup
  have hctl : (fun p => if (s.ctl p).asleepOn = some ch then (s.ctl p).wake else s.ctl p)
      = s.ctl := by
    funext p
    exact if_neg fun hp => h ⟨p, hp⟩
  rw [hctl]

theorem strip_user_iff {c : Ctl} : c.strip = .user ↔ c = .user := by
  cases c with
  | user => exact Iff.rfl
  | w pc f => exact ⟨(fun h => nomatch h), fun h => nomatch h⟩
  | r pc f => exact ⟨(fun h => nomatch h), fun h => nomatch h⟩

/-- The versions compared: v4 and the lazy ones, all with one data page. -/
def Comparable (v : Version) : Prop := v = .v4 ∨ lazyWakeup v = true

theorem Comparable.total {v : Version} (h : Comparable v) : pipeTotal v = pipeTotal .v4 := by
  rcases h with rfl | h
  · rfl
  · cases v <;> first | rfl | cases h

theorem Comparable.bulk {v : Version} (h : Comparable v) : bulkCopy v = true := by
  rcases h with rfl | h
  · rfl
  · cases v <;> first | rfl | cases h

theorem Comparable.writeChunk {v : Version} (h : Comparable v) : writeChunk v = writeChunk .v4 := by
  rcases h with rfl | h
  · rfl
  · cases v <;> first | rfl | cases h

theorem Comparable.readChunk {v : Version} (h : Comparable v) : readChunk v = readChunk .v4 := by
  rcases h with rfl | h
  · rfl
  · cases v <;> first | rfl | cases h

theorem Comparable.writeIter {v : Version} (h : Comparable v) : writeIter v = writeIter .v4 := by
  funext pi mem addr n i r
  unfold Pipe.writeIter
  rw [if_pos h.bulk, if_pos (Comparable.bulk (.inl rfl))]
  cases r <;> simp only [bulkWrite, h.writeChunk]

theorem Comparable.readIter {v : Version} (h : Comparable v) : readIter v = readIter .v4 := by
  funext pi mem addr n i r
  unfold Pipe.readIter
  rw [if_pos h.bulk, if_pos (Comparable.bulk (.inl rfl))]
  cases r <;> simp only [bulkRead, h.readChunk]

theorem strip_put {v : Version} (hv : Comparable v) (s : Sys P) (p : P) (f : WFrame) (r : Copy) :
    (s.put v p f r).strip = s.strip.put .v4 p { f with need := false } r := by
  unfold Sys.strip Sys.put
  simp only [strip_update, hv.writeIter, hv.total]
  rfl

theorem strip_get {v : Version} (hv : Comparable v) (s : Sys P) (p : P) (f : RFrame) (r : Copy) :
    (s.get v p f r).strip = s.strip.get .v4 p { f with wasFull := false } r := by
  unfold Sys.strip Sys.get
  simp only [strip_update, hv.readIter]
  rfl

omit [DecidableEq P] in
/-- The wakeup at the end of `pipewrite` is v4's, if a skipped one was not
needed. -/
theorem strip_wakeReaders {v : Version} (s : Sys P) (f : WFrame)
    (hskip : lazyWakeup v = true → ¬(f.need = true ∧ 0 < f.i) → ¬Asleep s.ctl .nread) :
    (s.wakeReaders v f).strip = s.strip.wakeup .nread := by
  rw [← strip_wakeup]
  unfold Sys.wakeReaders
  split
  next hv =>
    split
    · rfl
    next hs => rw [wakeup_of_none (hskip hv hs)]
  · rfl

omit [DecidableEq P] in
theorem strip_wakeWriters {v : Version} (s : Sys P) (f : RFrame)
    (hskip : lazyWakeup v = true → ¬(f.wasFull = true ∧ 0 < f.i) → ¬Asleep s.ctl .nwrite) :
    (s.wakeWriters v f).strip = s.strip.wakeup .nwrite := by
  rw [← strip_wakeup]
  unfold Sys.wakeWriters
  split
  next hv =>
    split
    · rfl
    next hs => rw [wakeup_of_none (hskip hv hs)]
  · rfl

/-- Nobody sleeps where the step of process `p` skips a wakeup. -/
def SkipOk (v : Version) (s : Sys P) (p : P) : Prop :=
  lazyWakeup v = true →
    (∀ f, s.ctl p = .w .leave f → ¬(f.need = true ∧ 0 < f.i) → ¬Asleep s.ctl .nread) ∧
    (∀ f, s.ctl p = .r .leave f → ¬(f.wasFull = true ∧ 0 < f.i) → ¬Asleep s.ctl .nwrite)

theorem acquire_strip {v : Version} (s : Sys P) (p : P) :
    (s.acquire v p).map Sys.strip = s.strip.acquire .v4 p := by
  unfold Sys.acquire
  rw [show s.strip.ctl p = (s.ctl p).strip from rfl]
  cases s.ctl p with
  | user => rfl
  | w pc f =>
    cases pc with
    | enter | woken =>
      simp only [Ctl.strip, Option.map_some, strip_goto]
      rfl
    | _ => rfl
  | r pc f =>
    cases pc with
    | enter | woken =>
      simp only [Ctl.strip, Option.map_some, strip_goto]
      rfl
    | _ => rfl

theorem run_strip {v : Version} (hv : Comparable v) {s : Sys P} {p : P} (hskip : SkipOk v s p)
    (r : Copy) : (s.run v p r).map Sys.strip = s.strip.run .v4 p r := by
  unfold Sys.run
  rw [show s.strip.ctl p = (s.ctl p).strip from rfl]
  cases hc : s.ctl p with
  | user => rfl
  | w pc f =>
    cases pc with
    | enter | asleep | woken => rfl
    | top =>
      simp only [Ctl.strip]
      rw [show s.strip.pi = s.pi from rfl, show s.strip.killed = s.killed from rfl]
      split
      · split
        · rw [Option.map_some, strip_ret]
        · rw [Option.map_some, strip_goto]
          rfl
      · rw [Option.map_some, strip_goto]
        rfl
    | body =>
      simp only [Ctl.strip]
      rw [show s.strip.pi = s.pi from rfl, ← hv.total]
      split
      · rw [Option.map_some, strip_goto, strip_wakeup]
        rfl
      · rw [Option.map_some, strip_put hv]
    | sleep =>
      simp only [Ctl.strip, Option.map_some, strip_goto]
      rfl
    | leave =>
      -- a wakeup that is left out would find nobody asleep
      have hw := strip_wakeReaders s f fun h => (hskip h).1 f hc
      simp only [Ctl.strip, Option.map_some, strip_ret, hw]
      rfl
  | r pc f =>
    cases pc with
    | enter | asleep | woken => rfl
    | wait =>
      simp only [Ctl.strip]
      rw [show s.strip.pi = s.pi from rfl]
      split
      · rw [Option.map_some, strip_goto]
        rfl
      · rw [Option.map_some, strip_goto]
        rfl
    | killed =>
      simp only [Ctl.strip]
      rw [show s.strip.killed = s.killed from rfl]
      split
      · rw [Option.map_some, strip_ret]
      · rw [Option.map_some, strip_goto]
        rfl
    | sleep =>
      simp only [Ctl.strip, Option.map_some, strip_goto]
      rfl
    | loop =>
      simp only [Ctl.strip]
      rw [show s.strip.pi = s.pi from rfl]
      split
      · rw [Option.map_some, strip_get hv]
      · rw [Option.map_some, strip_goto]
        rfl
    | leave =>
      -- the same for writers
      have hw := strip_wakeWriters s f fun h => (hskip h).2 f hc
      simp only [Ctl.strip, Option.map_some, strip_ret, hw]
      rfl

/-- **A step of a lazy version is v4's step**, up to the flags, as long as no
wakeup is skipped that somebody waits for. -/
theorem step_strip {v : Version} (hv : Comparable v) {s : Sys P} {a : Act P}
    (hskip : ∀ p r, a = .run p r → s.lock = some p → SkipOk v s p) :
    (step v s a).map Sys.strip = step .v4 s.strip a := by
  have huser : ∀ p, (s.strip.ctl p = .user) = (s.ctl p = .user) := fun p =>
    propext strip_user_iff
  cases a with
  | user p mem =>
    simp only [step, huser]
    split <;> rfl
  | write p q =>
    simp only [step, huser]
    split
    · rw [Option.map_some, strip_enter]
    · rfl
  | read p q =>
    simp only [step, huser]
    split
    · rw [Option.map_some, strip_enter]
    · rfl
  | kill p => rw [step, step, Option.map_some, strip_kkill]
  | close writable =>
    simp only [step]
    rw [show s.strip.lock = s.lock from rfl]
    split
    · rw [Option.map_some, strip_pipeclose]
    · rfl
  | acquire p =>
    simp only [step]
    rw [show s.strip.lock = s.lock from rfl]
    split
    · exact acquire_strip s p
    · rfl
  | run p r =>
    simp only [step]
    rw [show s.strip.lock = s.lock from rfl]
    split
    next hl => exact run_strip hv (hskip p r rfl hl) r
    · rfl

/-! ## Whole runs -/

/-- What a sleeper is waiting for, with the lock free. -/
def Waiting (v : Version) (s : Sys P) : Prop :=
  s.lock = none →
    (Asleep s.ctl .nread → s.pi.empty = true ∧ s.pi.writeopen = true) ∧
    (Asleep s.ctl .nwrite → s.pi.full (pipeTotal v) = true ∧ s.pi.readopen = true)

omit [DecidableEq P] in
theorem StrandInv.waiting {v : Version} {s : Sys P} (h : StrandInv v s) : Waiting v s := by
  intro hl
  refine ⟨fun hr => ⟨h.noStranded hl hr, h.sleep.ropen hr⟩, fun hw => ⟨?_, h.sleep.wopen hw⟩⟩
  rcases h.sleep.wfull hw with hf | hd
  · exact hf
  · rw [held_none hl] at hd
    exact hd.elim

omit [DecidableEq P] in
/-- An audible step skips no wakeup that somebody waits for. -/
theorem Audible.skipOk {v : Version} {s : Sys P} {a : Act P} (h : StrandInv v s)
    (ha : Audible s a) : ∀ p r, a = .run p r → s.lock = some p → SkipOk v s p := by
  intro p r he hl hv
  refine ⟨fun f hc hskip hr => ?_, fun f hc hskip hw => ?_⟩
  · have hi := (skip_writer hv h hl hc hskip hr).1
    exact (ha p r he).1 f hc (by omega) hr
  · exact (ha p r he).2 f hc (skip_reader hv h.sleep hl hc hskip hw).1 hw

theorem agree_step {v : Version} (hv : lazyWakeup v = true) {s t : Sys P} {a : Act P}
    (h : StrandInv v s ∧ Agree s t) (hok : NoKillInside s a ∧ Audible s a) :
    Option.Rel (fun s t => StrandInv v s ∧ Agree s t) (step v s a) (step .v4 t a) := by
  obtain ⟨hi, hag⟩ := h
  have hs := step_strip (.inr hv) (hok.2.skipOk hi)
  have ht : (step .v4 t a).map Sys.strip = step .v4 t.strip a :=
    step_strip (.inl rfl) fun p r _ _ h4 => by cases h4
  rw [hag, ← ht] at hs
  cases h₁ : step v s a with
  | none =>
    cases h₂ : step .v4 t a with
    | none => exact .none
    | some t' => rw [h₁, h₂] at hs; cases hs
  | some s' =>
    cases h₂ : step .v4 t a with
    | none => rw [h₁, h₂] at hs; cases hs
    | some t' =>
      rw [h₁, h₂] at hs
      exact .some ⟨strand_step hi hok.1.killSafe h₁, Option.some.inj hs⟩

/-- **Lazy wakeup refines unconditional wakeup.** Provided no writer is killed
between two iterations of one critical section: where a lazy version skips a
wakeup that v4 makes and somebody sleeps on the channel, the returning call has
moved no byte and the sleeper still has to wait; a schedule without such a call
drives both versions through agreeing states; and with the lock free a reader
sleeps only on an empty pipe that is open for writing, a writer only on a full
one that is open for reading. -/
theorem lazy_refines_unconditional {v : Version} (hv : lazyWakeup v = true) {s : Sys P}
    (hs : Init s) :
    (∀ t : Sys P, Reach (step v) NoKillInside Init t →
      (∀ p f, t.lock = some p → t.ctl p = .w .leave f → ¬(f.need = true ∧ 0 < f.i) →
        Asleep t.ctl .nread → f.i = 0 ∧ t.pi.empty = true ∧ t.pi.writeopen = true) ∧
      (∀ p f, t.lock = some p → t.ctl p = .r .leave f → ¬(f.wasFull = true ∧ 0 < f.i) →
        Asleep t.ctl .nwrite →
          f.i ≤ 0 ∧ t.pi.full (pipeTotal v) = true ∧ t.pi.readopen = true) ∧
      Waiting v t) ∧
    (∀ t : Sys P, Reach (step .v4) NoKillInside Init t → Waiting .v4 t) ∧
    (∀ as, RunOk (step v) (fun s a => NoKillInside s a ∧ Audible s a) s as →
      ∀ bs, bs <+: as → Option.Rel Agree (runFrom (step v) s bs) (runFrom (step .v4) s bs)) := by
  have hreach : ∀ {w : Version} {t : Sys P}, Reach (step w) NoKillInside Init t →
      StrandInv w t := fun h => reach_strand (h.mono fun _ _ hok => hok.killSafe)
  refine ⟨fun t ht => ⟨?_, ?_, (hreach ht).waiting⟩, fun t ht => (hreach ht).waiting, ?_⟩
  · intro p f hl hc hskip hr
    exact skip_writer hv (hreach ht) hl hc hskip hr
  · intro p f hl hc hskip hw
    exact skip_reader hv (hreach ht).sleep hl hc hskip hw
  · intro as hok bs hbs
    have hrel := @runFrom_rel _ _ _ (step v) (step .v4) _ (fun s t => StrandInv v s ∧ Agree s t)
      (agree_step hv) bs s s ⟨init_strand hs, rfl⟩ (hok.of_prefix hbs)
    revert hrel
    generalize runFrom (step v) s bs = x
    generalize runFrom (step .v4) s bs = y
    rintro (h | -)
    · exact .some h.2
    · exact .none

omit [DecidableEq P] in
theorem noKillInside_of_none {s : Sys P} (a : Act P) (h : ∀ p, s.killed p = false) :
    NoKillInside s a :=
  fun p _ _ _ _ _ _ => h p

theorem lazy_refines_unconditional_reader_sleeps :
    (∀ s : Sys Bool, runFrom (step .v5) (Sys.fresh fun _ _ => 0) readerSleeps = some s →
      s.lock = none → (s.ctl true).asleepOn = some .nread → s.pi.empty = true) ∧
    Option.Rel Agree (runFrom (step .v5) (Sys.fresh fun _ _ => 0) [.read true (.of 0 1)])
      (runFrom (step .v4) (Sys.fresh fun _ _ => 0) [.read true (.of 0 1)]) := by
  obtain ⟨h1, -, h3⟩ := lazy_refines_unconditional (v := .v5) rfl
    (fresh_init fun (_ : Bool) _ => 0)
  refine ⟨fun s hs hl hr => ?_, ?_⟩
  · have hok : RunOk (step .v5) NoKillInside (Sys.fresh fun _ _ => 0) readerSleeps :=
      runOk_of_no_kill (fun _ => noKillInside_of_none) _ (fun _ => rfl) (by simp [readerSleeps])
    have hreach := Reach.of_run _ (.start (fresh_init _)) hok hs
    exact (((h1 s hreach).2.2 hl).1 ⟨true, hr⟩).1
  · refine h3 [.read true (.of 0 1)] ⟨⟨noKillInside_of_none _ fun _ => rfl, ?_⟩, fun _ _ => trivial⟩
      _ List.prefix_rfl
    intro p r he
    cases he

/-- `true` sleeps on the empty pipe, then `false` writes nothing. -/
def silentWrite : List (Act Bool) :=
  readerSleeps ++ [.write false (.of 0 0), .acquire false, .run false .ok, .run false .ok]

/-- The zero-length write of `silentWrite` wakes the reader in v4 and not in
v5. -/
theorem silent_write_disagrees :
    RunOk (step .v5) NoKillInside (Sys.fresh fun _ _ => 0) silentWrite ∧
    (runFrom (step .v5) (Sys.fresh fun _ _ => 0) silentWrite).map (fun s => (s.ctl true).asleepOn)
      = some (some .nread) ∧
    (runFrom (step .v4) (Sys.fresh fun _ _ => 0) silentWrite).map (fun s => (s.ctl true).asleepOn)
      = some none ∧
    ¬Option.Rel Agree (runFrom (step .v5) (Sys.fresh fun _ _ => 0) silentWrite)
      (runFrom (step .v4) (Sys.fresh fun _ _ => 0) silentWrite) := by
  have h5 : (runFrom (step .v5) (Sys.fresh fun _ _ => 0) silentWrite).map
      (fun s => (s.ctl true).asleepOn) = some (some .nread) := by decide
  have h4 : (runFrom (step .v4) (Sys.fresh fun _ _ => 0) silentWrite).map
      (fun s => (s.ctl true).asleepOn) = some none := by decide
  refine ⟨?_, h5, h4, fun hrel => ?_⟩
  · exact runOk_of_no_kill (fun _ => noKillInside_of_none) _ (fun _ => rfl)
      (by simp [silentWrite, readerSleeps])
  · obtain ⟨s, hs, hsa⟩ := Option.map_eq_some_iff.mp h5
    obtain ⟨t, ht, hta⟩ := Option.map_eq_some_iff.mp h4
    rw [hs, ht] at hrel
    cases hrel with
    | some hag =>
      have hc : (s.ctl true).strip = (t.ctl true).strip := congrFun (congrArg Sys.ctl hag) true
      rw [← asleepOn_strip, hc, asleepOn_strip, hta] at hsa
      cases hsa

end Xv6.Pipe
