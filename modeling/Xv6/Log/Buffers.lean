import Xv6.Log.Limits

/-!
# `bget: no buffers`

A logged block is pinned until it is installed, and `commit` needs a buffer for
the log block on top of that. There are as many buffers as the log has entries:
three operations that log ten blocks each pin them all, and the first `bread` of
the commit finds none. So does one that finds fewer of them pinned, when processes
that read outside of any operation (`fileread`, `filestat`) have the others.

> a commit finds a buffer for every `bread` if, whenever it asks empty-handed, the
> pinned blocks and the buffers otherwise in use are fewer than `NBUF`

The second `bread` of each round asks for a block of the log, which is pinned and
therefore cached. Where buffers are used inside operations only and given back
before `end_op`, nothing but the pins counts, and one block less than `NBUF` in
the log is enough: `spare_of_few`.
-/

namespace Xv6.Log

open Lib

variable {P : Type}

/-- The buffers `commit` or recovery has locked while it waits for another. -/
def Want.bufs : Want → List BufId
  | .logFrom _ i | .instDst _ _ i => [i]
  | _ => []

def After.bufs : After → List BufId
  | .logTo _ i | .instDst _ _ i => [i]
  | _ => []

def Pc.bufs : Pc → List BufId
  | .bget _ k | .acquiresleep _ _ k => k.bufs
  | .brelse i k => i :: k.bufs
  | .unref _ k => k.bufs
  | .writeLog _ i j | .install _ _ i j | .bunpin _ i j => [i, j]
  | .writeHead _ i | .readHead i => [i]
  | _ => []

/-- A call of `bread` with no buffer in hand. -/
def Pc.Asks : Pc → Prop
  | .bget _ k => k.bufs = []
  | _ => False

instance : ∀ c : Pc, Decidable c.Asks
  | .bget _ k => inferInstanceAs (Decidable (k.bufs = []))
  | .user | .acquiresleep _ _ _ | .brelse _ _ | .unref _ _ | .commit | .logLoop _
  | .writeLog _ _ _ | .writeHead _ _ | .readHead _ | .instLoop _ _ | .install _ _ _ _
  | .bunpin _ _ _ | .endCommit => .isFalse id

/-- The buffer holds a block of the log that is not installed yet. -/
def Sys.Pinned (s : Sys P) (i : BufId) : Prop :=
  (s.buf i).dev = ROOTDEV ∧ (s.buf i).blockno ∈ s.pinned

instance (s : Sys P) (i : BufId) : Decidable (s.Pinned i) := inferInstanceAs (Decidable (_ ∧ _))

/-- The others that a process has locked, waits for or has just let go. -/
def Sys.busy [Fintype P] (s : Sys P) : Finset BufId :=
  Finset.univ.filter fun i =>
    ¬s.Pinned i ∧ ((s.buf i).lock.isSome = true ∨ ∃ p, (s.pc p).ref = some i)

/-- Not all buffers are in use. -/
def Sys.Room [Fintype P] (s : Sys P) : Prop := s.pinned.length + s.busy.card < NBUF

instance [Fintype P] (s : Sys P) : Decidable s.Room := inferInstanceAs (Decidable (_ < _))

/-- While a commit goes on, no buffer is asked for empty-handed when all are in use: not
by the commit, and not by a process that reads meanwhile. -/
def Spare [Fintype P] (s : Sys P) : Label P → Prop
  | .run p => s.committing = true → (s.pc p).Asks → s.Room
  | .bread _ _ => s.committing = true → s.Room
  | _ => True

instance [Fintype P] (s : Sys P) : ∀ a, Decidable (Spare s a)
  | .run p => inferInstanceAs (Decidable (s.committing = true → (s.pc p).Asks → s.Room))
  | .bread _ _ => inferInstanceAs (Decidable (s.committing = true → s.Room))
  | .beginOp _ | .modify _ _ _ | .logWrite _ _ | .brelse _ _ | .endOp _ | .crash _ =>
    .isTrue trivial

/-- Buffers are given back before `end_op`. -/
def Returns (s : Sys P) : Label P → Prop
  | .endOp p => ∀ i, (s.buf i).lock ≠ some p
  | _ => True

instance (s : Sys Slot) : ∀ a, Decidable (Returns s a)
  | .endOp p => inferInstanceAs (Decidable (∀ i, (s.buf i).lock ≠ some p))
  | .beginOp _ | .bread _ _ | .modify _ _ _ | .logWrite _ _ | .brelse _ _ | .run _ | .crash _ =>
    .isTrue trivial

/-- Buffers are used inside operations. -/
def Inside (s : Sys P) : Label P → Prop
  | .bread p _ => (s.op p).isSome = true
  | _ => True

/-- The operation that starts a commit finds fewer than `NBUF` blocks in the log. -/
def Few (s : Sys P) : Label P → Prop
  | .endOp _ => s.outstanding = 1 → s.lh.length < NBUF
  | _ => True

/-- A call of `bread` stands still only after a panic, and a commit has had none for want of
buffers. -/
structure Calm (s : Sys P) : Prop where
  user : ∀ p b, s.pc p = .bget b .user → s.panicked ≠ none
  commit : s.committing = true → s.panicked ≠ some .noBuffers

/-- Whatever is locked or waited for belongs to an operation or to `log.c`. -/
structure TidyInv (s : Sys P) : Prop where
  lock : ∀ i p, (s.buf i).lock = some p →
    (s.op p).isSome = true ∨ ((s.pc p).stage ≠ .idle ∧ i ∈ (s.pc p).bufs)
  ref : ∀ p, (s.pc p).ref ≠ none → (s.op p).isSome = true ∨ (s.pc p).stage ≠ .idle
  few : s.committing = true → s.lh.length < NBUF

variable [Fintype P] [DecidableEq P] {start : Nat} {s s' : Sys P} {p : P}

/-! ## Finding a buffer -/

omit [DecidableEq P] in
/-- A buffer whose count is not zero is pinned or busy. -/
theorem pinned_or_busy (hb : BookInv start s) {i : BufId} (hi : (s.buf i).refcnt ≠ 0) :
    s.Pinned i ∨ i ∈ s.busy := by
  rw [or_iff_not_imp_left]
  intro hpin
  refine Finset.mem_filter.mpr ⟨Finset.mem_univ i, hpin, ?_⟩
  have hcount := hb.cache.count i
  have hpin0 : (s.buf i).pin s.pinned = 0 := if_neg hpin
  cases hl : (s.buf i).lock with
  | some q => exact .inl rfl
  | none =>
    rw [Buf.held_of_none hl] at hcount
    have hrefs : refs s.pc i ≠ 0 := by omega
    obtain ⟨q, -, hq⟩ := Finset.exists_ne_zero_of_sum_ne_zero hrefs
    exact .inr ⟨q, by_contra fun hne => hq (if_neg hne)⟩

omit [DecidableEq P] in
/-- Distinct buffers hold distinct blocks, so no more are pinned than blocks. -/
theorem card_pinned_le (hb : BookInv start s) :
    (Finset.univ.filter s.Pinned).card ≤ s.pinned.length := by
  have hinj : Set.InjOn (fun i : BufId => (s.buf i).blockno)
      (Finset.univ.filter s.Pinned : Finset BufId) := by
    intro i hi j hj hij
    have hi := (Finset.mem_filter.mp hi).2
    have hj := (Finset.mem_filter.mp hj).2
    exact hb.cache.uniq i j _ (Buf.caches_iff.mpr ⟨hi.1, hij⟩) (Buf.caches_iff.mpr ⟨hj.1, rfl⟩)
  have hsub : (Finset.univ.filter s.Pinned).image (fun i => (s.buf i).blockno) ⊆
      s.pinned.toFinset := by
    intro b hbm
    obtain ⟨i, hi, rfl⟩ := Finset.mem_image.mp hbm
    exact List.mem_toFinset.mpr (Finset.mem_filter.mp hi).2.2
  rw [← Finset.card_image_of_injOn hinj]
  exact (Finset.card_le_card hsub).trans (List.toFinset_card_le s.pinned)

omit [DecidableEq P] in
/-- Unless all are in use, a buffer is unused. -/
theorem exists_unused (hb : BookInv start s) (hroom : s.Room) : s.unused.isSome = true := by
  by_contra hnone
  have hall : ∀ i, (s.buf i).refcnt ≠ 0 := by
    intro i hi
    refine hnone (List.find?_isSome.mpr ⟨i, List.mem_reverse.mpr (hb.cache.lru i), ?_⟩)
    simpa using hi
  have hcover : (Finset.univ : Finset BufId) ⊆ Finset.univ.filter s.Pinned ∪ s.busy := by
    intro i _
    refine Finset.mem_union.mpr ((pinned_or_busy hb (hall i)).imp_left fun hi => ?_)
    exact Finset.mem_filter.mpr ⟨Finset.mem_univ i, hi⟩
  have hcard := (Finset.card_le_card hcover).trans (Finset.card_union_le _ _)
  rw [Finset.card_univ, Fintype.card_fin] at hcard
  have hpins := card_pinned_le hb
  unfold Sys.Room at hroom
  omega

omit [DecidableEq P] in
/-- A pinned block is cached. -/
theorem cached_of_pinned (hb : BookInv start s) {b : Nat} (h : b ∈ s.pinned) :
    (s.cached b).isSome = true := by
  obtain ⟨i, hi, -⟩ := hb.cache.pinned b h
  exact List.find?_isSome.mpr ⟨i, hb.cache.lru i, hi⟩

omit [DecidableEq P] in
theorem ready_of_committing (hb : BookInv start s) (hc : s.committing = true) : s.ready = true := by
  by_contra hr
  have := (hb.ctl.booting (by simpa using hr)).1
  exact absurd (hc.symm.trans this) Bool.noConfusion

omit [DecidableEq P] in
/-- **Every `bread` of a commit finds a buffer.** -/
theorem commit_finds (hb : BookInv start s) (hc : s.committing = true) {b : Nat} {k : Want}
    (hp : s.pc p = .bget b k) (hk : k ≠ .user) (hspare : Spare s (.run p)) :
    (s.cached b).isSome = true ∨ s.unused.isSome = true := by
  have hok := hb.pc p
  have hst := hb.ctl.stage p
  have hasks : (s.pc p).Asks → s.unused.isSome = true := fun ha => exists_unused hb (hspare hc ha)
  rw [hp] at hok hst hasks
  have hr := ready_of_committing hb hc
  have hpinned : ∀ t, t < s.lh.length → s.installed ≤ t → s.lh.getD t 0 ∈ s.pinned := by
    intro t ht hin
    have hpins : s.pinned = s.lh.drop s.installed := by simp [Sys.pinned, hr]
    rw [hpins, List.mem_drop_iff_getElem]
    refine ⟨t - s.installed, by omega, ?_⟩
    have he : s.installed + (t - s.installed) = t := by omega
    simp [he, ht]
  -- the second `bread` of a round asks for a pinned block; the others are made empty-handed
  cases k with
  | user => exact absurd rfl hk
  | logTo t => exact .inr (hasks rfl)
  | logFrom t i =>
    obtain ⟨ht, rfl, -⟩ := hok
    exact .inl (cached_of_pinned hb (hpinned t ht (hst.2.2.2 ▸ Nat.zero_le _)))
  | head w => exact .inr (hasks rfl)
  | instLog r t => exact .inr (hasks rfl)
  | instDst r t i =>
    obtain ⟨ht, rfl, -⟩ := hok
    cases r with
    | true => exact absurd (hr.symm.trans hst) Bool.noConfusion
    | false => exact .inl (cached_of_pinned hb (hpinned t ht (Nat.le_of_eq hst.2.2.2.2)))
  | readHead => exact absurd (hr.symm.trans hst) Bool.noConfusion

/-! ## No panic -/

omit [Fintype P] [DecidableEq P] in
theorem resume_ne_bget (s : Sys P) (i : BufId) (k : Want) (b : Nat) :
    s.resume i k ≠ .bget b .user := by
  cases k <;> simp [Sys.resume]

theorem After.pc_ne_bget (k : After) (b : Nat) : k.pc ≠ .bget b .user := by
  cases k with
  | head w => cases w <;> exact Pc.noConfusion
  | _ => exact Pc.noConfusion

omit [Fintype P] in
/-- A step of a process inside `log.c` or `bio.c` is a scan of `bget`, or takes it to a place
where it does not call `bread` for itself. -/
theorem run_moves (hs : s.run start p = some s') :
    (∃ b k, s.pc p = .bget b k ∧ s' = s.bget p b k) ∨
    (∃ c, s'.pc = Function.update s.pc p c ∧ (∀ b, c ≠ .bget b .user) ∧
      s'.panicked = s.panicked) := by
  cases hp : s.pc p with
  | bget b k =>
    simp only [Sys.run, hp] at hs
    exact .inl ⟨b, k, rfl, (Option.some.inj hs).symm⟩
  | user =>
    simp only [Sys.run, hp] at hs
    exact absurd hs.symm (Option.some_ne_none _)
  | acquiresleep i b k =>
    simp only [Sys.run, hp] at hs
    split at hs
    next =>
      obtain rfl := Option.some.inj hs
      exact .inr ⟨_, rfl, resume_ne_bget s i k, rfl⟩
    next => exact absurd hs.symm (Option.some_ne_none _)
  | unref i k =>
    simp only [Sys.run, hp] at hs
    obtain rfl := Option.some.inj hs
    obtain ⟨lru, -, hu⟩ := unref_eq s i
    rw [hu]
    split <;> exact .inr ⟨_, rfl, k.pc_ne_bget, rfl⟩
  | commit | logLoop t =>
    simp only [Sys.run, hp] at hs
    obtain rfl := Option.some.inj hs
    split <;> exact .inr ⟨_, rfl, fun _ => by simp, rfl⟩
  | writeHead w i =>
    simp only [Sys.run, hp] at hs
    obtain rfl := Option.some.inj hs
    split <;> exact .inr ⟨_, rfl, fun _ => Pc.noConfusion, rfl⟩
  | instLoop r t =>
    simp only [Sys.run, hp] at hs
    split at hs
    all_goals
      obtain rfl := Option.some.inj hs
      exact .inr ⟨_, rfl, fun _ => by simp, rfl⟩
  | install r t i j =>
    simp only [Sys.run, hp] at hs
    obtain rfl := Option.some.inj hs
    refine .inr ⟨_, rfl, fun _ => ?_, rfl⟩
    cases r <;> exact Pc.noConfusion
  | brelse i k | writeLog t i j | readHead i | bunpin t i j | endCommit =>
    simp only [Sys.run, hp] at hs
    obtain rfl := Option.some.inj hs
    exact .inr ⟨_, rfl, fun _ => Pc.noConfusion, rfl⟩

omit [Fintype P] [DecidableEq P] in
theorem Calm.next (h : Calm s) (hn : s.panicked = none)
    (hpc : ∀ q b, s'.pc q = .bget b .user → s.pc q = .bget b .user)
    (hpanic : s'.panicked ≠ some .noBuffers) : Calm s' :=
  ⟨fun q b hq => absurd hn (h.user q b (hpc q b hq)), fun _ => hpanic⟩

omit [Fintype P] in
theorem Calm.move (h : Calm s) (hn : s.panicked = none) {c : Pc}
    (hpc : s'.pc = Function.update s.pc p c) (hc : ∀ b, c ≠ .bget b .user)
    (hpanic : s'.panicked ≠ some .noBuffers) : Calm s' := by
  refine h.next hn (fun q b hq => ?_) hpanic
  rw [hpc] at hq
  by_cases hqp : q = p
  · subst hqp
    rw [Function.update_self] at hq
    exact absurd hq (hc b)
  · rwa [Function.update_of_ne hqp] at hq

omit [Fintype P] in
/-- `bget` panics only outside of commits. -/
theorem Calm.bget (h : Calm s) (hn : s.panicked = none) {b : Nat} {k : Want}
    (hfinds : s.committing = true → (s.cached b).isSome = true ∨ s.unused.isSome = true) :
    Calm (s.bget p b k) := by
  have hpanic : s.panicked ≠ some .noBuffers := by
    rw [hn]
    exact (Option.some_ne_none _).symm
  unfold Sys.bget
  split
  next i hi => exact h.move (p := p) hn rfl (fun _ => Pc.noConfusion) hpanic
  next hc =>
    split
    next i hi => exact h.move (p := p) hn rfl (fun _ => Pc.noConfusion) hpanic
    next hu =>
      refine ⟨fun _ _ _ => Option.some_ne_none _, fun hcom => ?_⟩
      rcases hfinds hcom with hf | hf
      · rw [hc] at hf
        exact Bool.noConfusion hf
      · rw [hu] at hf
        exact Bool.noConfusion hf

theorem run_calm (hb : BookInv start s) (h : Calm s) (hn : s.panicked = none)
    (hspare : Spare s (.run p)) (hs : s.run start p = some s') : Calm s' := by
  obtain ⟨b, k, hp, rfl⟩ | ⟨c, hpc, hc, hpanic⟩ := run_moves hs
  · refine h.bget hn fun hcom => commit_finds hb hcom hp ?_ hspare
    rintro rfl
    exact h.user p b hp hn
  · refine h.move hn hpc hc ?_
    rw [hpanic, hn]
    exact (Option.some_ne_none _).symm

theorem call_calm {a : Label P} (hb : BookInv start s) (h : Calm s) (hn : s.panicked = none)
    (hspare : Spare s a) (hs : CallStep s a s') : Calm s' := by
  have hpanic : s.panicked ≠ some .noBuffers := by
    rw [hn]
    exact (Option.some_ne_none _).symm
  cases hs with
  | bread p b => exact h.bget hn fun hcom => .inr (exists_unused hb (hspare hcom))
  | brelse p i => exact h.move (p := p) hn rfl (fun _ => Pc.noConfusion) hpanic
  | endLast p => exact h.move (p := p) hn rfl (fun _ => Pc.noConfusion) hpanic
  | tooBig | outside | endPanic =>
    exact h.next hn (fun _ _ hq => hq) fun he => Panic.noConfusion (Option.some.inj he)
  | beginOp | modify | absorb | add | endOther => exact h.next hn (fun _ _ hq => hq) hpanic

omit [Fintype P] in
theorem boot_calm (s : Sys P) (p : P) : Calm (s.boot start p) := by
  refine ⟨fun q b hq => ?_, fun hc => Bool.noConfusion hc⟩
  change Function.update (fun _ => Pc.user) p (.bget start .readHead) q = .bget b .user at hq
  by_cases hqp : q = p
  · subst hqp
    rw [Function.update_self] at hq
    exact Want.noConfusion (Pc.bget.inj hq).2
  · rw [Function.update_of_ne hqp] at hq
    exact Pc.noConfusion hq

theorem step_calm {a : Label P} (hb : BookInv start s) (h : Calm s) (hspare : Spare s a)
    (hs : step start s a = some s') : Calm s' := by
  obtain ⟨p, -, rfl⟩ | ⟨p, rfl, hn, hrun⟩ | ⟨hn, -, -, hcall⟩ := step_cases hs
  · exact boot_calm s p
  · exact run_calm hb h hn hspare hrun
  · exact call_calm hb h hn hspare hcall

/-- **A commit that is not out of buffers finds one for every `bread`.** In every run in
which no buffer is asked for empty-handed during a commit when the pinned blocks and the
buffers otherwise in use are `NBUF`, each `bread` of `write_log`, `write_head` and
`install_trans` finds its block cached or a buffer unused, and no commit panics. -/
theorem commit_finds_buffers (h : Reach (step start) Spare (PowerOn start) s)
    (hc : s.committing = true) :
    (∀ p b k, s.pc p = .bget b k → k ≠ .user → Spare s (.run p) →
      (s.cached b).isSome = true ∨ s.unused.isSome = true) ∧
    s.panicked ≠ some .noBuffers := by
  have h0 : ∀ s : Sys P, PowerOn start s → BookInv start s ∧ Calm s := by
    rintro _ ⟨disk, p, rfl⟩
    exact ⟨boot_book _ p, boot_calm _ p⟩
  obtain ⟨hb, hcalm⟩ := h.inv h0 fun hinv hspare hs =>
    ⟨step_book hinv.1 hs, step_calm hinv.1 hinv.2 hspare hs⟩
  exact ⟨fun p b k hp hk hspare => commit_finds hb hc hp hk hspare, hcalm.commit hc⟩

/-- Process 1 reads two blocks outside of any operation: it has one when the commit asks for
its first log block, and waits for the lock of the other. -/
def readerRun : List (Label Slot) :=
  recoverRun 0 ++ [.beginOp 0] ++ logBlock 0 100 1 ++
    [.bread 1 50, .run 1, .endOp 0, .run 0, .run 0, .bread 1 51]

theorem commit_finds_buffers_reader :
    ∃ s, Reach (step 2) Spare (PowerOn 2) (s : Sys Slot) ∧ s.pc 0 = .bget 3 (.logTo 0) ∧
      s.busy.card = 2 ∧ ((s.cached 3).isSome = true ∨ s.unused.isSome = true) := by
  have hobs : (runFrom (guarded (step 2) Spare) blank readerRun).map (fun s => (s.committing,
      s.pc 0, s.busy.card, decide (Spare s (.run 0)))) =
      some (true, .bget 3 (.logTo 0), 2, true) := by
    decide +kernel
  obtain ⟨s, hs, hobs⟩ := Option.map_eq_some_iff.mp hobs
  obtain ⟨hcom, hobs⟩ := Prod.mk.inj hobs
  obtain ⟨hpc, hobs⟩ := Prod.mk.inj hobs
  obtain ⟨hbusy, hspare⟩ := Prod.mk.inj hobs
  obtain ⟨hok, hrun⟩ := runFrom_guarded _ hs
  have hreach : Reach (step 2) Spare (PowerOn 2) s := .of_run _ (.start ⟨_, _, rfl⟩) hok hrun
  exact ⟨s, hreach, hpc, hbusy,
    (commit_finds_buffers hreach hcom).1 0 3 _ hpc Want.noConfusion (of_decide_eq_true hspare)⟩

/-- A full log: the commit asks for a buffer for its first log block. -/
theorem commit_out_of_buffers :
    ¬ ∀ s, Reach (step 2) (fun s a => Returns s a ∧ Distinct s a) (PowerOn 2) (s : Sys Slot) →
      s.committing = true → s.panicked ≠ some .noBuffers := by
  intro hall
  have hobs : (runFrom (guarded (step 2) fun s a => Returns s a ∧ Distinct s a) blank
      (fullLog ++ [.endOp 0, .endOp 1, .endOp 2, .run 2, .run 2, .run 2])).map
        (fun s => (s.committing, s.panicked)) = some (true, some .noBuffers) := by
    decide +kernel
  obtain ⟨s, hs, hobs⟩ := Option.map_eq_some_iff.mp hobs
  obtain ⟨hcom, hp⟩ := Prod.mk.inj hobs
  obtain ⟨hok, hrun⟩ := runFrom_guarded _ hs
  exact hall s (.of_run _ (.start ⟨_, _, rfl⟩) hok hrun) hcom hp

/-! ## Buffers are given back -/

omit [Fintype P] [DecidableEq P] in
/-- A step of `p` takes no lock from the others and gives them none. -/
theorem TidyInv.next (h : TidyInv s) (hop : s'.op = s.op)
    (hpc : ∀ q, q ≠ p → s'.pc q = s.pc q)
    (hlock : ∀ i q, q ≠ p → (s'.buf i).lock = some q → (s.buf i).lock = some q)
    (hp : ∀ i, (s'.buf i).lock = some p →
      (s.op p).isSome = true ∨ ((s'.pc p).stage ≠ .idle ∧ i ∈ (s'.pc p).bufs))
    (href : (s'.pc p).ref ≠ none → (s.op p).isSome = true ∨ (s'.pc p).stage ≠ .idle)
    (hfew : s'.committing = true → s'.lh.length < NBUF) : TidyInv s' := by
  refine ⟨fun i q hq => ?_, fun q hq => ?_, hfew⟩
  · rw [hop]
    by_cases hqp : q = p
    · subst hqp
      exact hp i hq
    · rw [hpc q hqp]
      exact h.lock i q (hlock i q hqp hq)
  · rw [hop]
    by_cases hqp : q = p
    · subst hqp
      exact href hq
    · rw [hpc q hqp] at hq ⊢
      exact h.ref q hq

omit [Fintype P] in
/-- The locks stay, and `p` moves with its buffers in hand. -/
theorem TidyInv.move (h : TidyInv s) {c : Pc}
    (hpc : s'.pc = Function.update s.pc p c) (hop : s'.op = s.op)
    (hlock : ∀ i, (s'.buf i).lock = (s.buf i).lock) (hbufs : ∀ i ∈ (s.pc p).bufs, i ∈ c.bufs)
    (hidle : c.stage = .idle → (s.pc p).bufs = []) (href : c.ref = none)
    (hfew : s'.committing = true → s'.lh.length < NBUF) : TidyInv s' := by
  have hself : s'.pc p = c := by rw [hpc, Function.update_self]
  refine h.next hop (fun q hq => by rw [hpc, Function.update_of_ne hq])
    (fun i q _ hq => (hlock i).symm.trans hq) (fun i hi => ?_) (fun hr => ?_) hfew
  · rw [hself]
    rcases h.lock i p ((hlock i).symm.trans hi) with hop | ⟨-, hi⟩
    · exact .inl hop
    · refine .inr ⟨fun hc => ?_, hbufs i hi⟩
      rw [hidle hc] at hi
      exact absurd hi List.not_mem_nil
  · rw [hself] at hr
    exact absurd href hr

omit [Fintype P] [DecidableEq P] in
/-- The buffer a call has waited for joins those it had. -/
theorem mem_bufs_resume (s : Sys P) (i j : BufId) {k : Want} (hk : k ≠ .user) :
    j ∈ (s.resume i k).bufs ↔ j ∈ k.bufs ∨ j = i := by
  cases k with
  | user => exact absurd rfl hk
  | _ => simp [Sys.resume, Pc.bufs, Want.bufs]

theorem After.mem_bufs_pc {k : After} {j : BufId} (h : j ∈ k.bufs) :
    k.pc.stage ≠ .idle ∧ j ∈ k.pc.bufs := by
  cases k with
  | logTo t i => exact ⟨Stage.noConfusion, h⟩
  | instDst r t i =>
    refine ⟨?_, h⟩
    cases r <;> exact Stage.noConfusion
  | _ => exact absurd h List.not_mem_nil

omit [Fintype P] [DecidableEq P] in
theorem setRefcnt_lock (s : Sys P) (i j : BufId) (n : Nat) :
    ((s.setBuf i { s.buf i with refcnt := n }).buf j).lock = (s.buf j).lock := by
  by_cases hj : j = i
  · subst hj
    rw [Sys.setBuf_self]
  · rw [Sys.setBuf_ne _ _ hj]

/-! ## The steps that lock -/

omit [Fintype P] in
/-- `bget` finds a buffer and waits for its lock. -/
theorem TidyInv.bget {b : Nat} {k : Want} (h : TidyInv s) (hp : s.pc p = .bget b k)
    (hk : k ≠ .user) : TidyInv (s.bget p b k) := by
  have hidle : k.stage ≠ .idle := fun hs => hk (Want.stage_eq_idle hs)
  have hlock : ∀ i, (s.buf i).lock = some p →
      (s.op p).isSome = true ∨ (k.stage ≠ .idle ∧ i ∈ k.bufs) := by
    intro i hi
    have := h.lock i p hi
    rwa [hp] at this
  have hset : ∀ (i j : BufId) (x : Buf P), x.lock = (s.buf i).lock →
      ((s.setBuf i x).buf j).lock = (s.buf j).lock := by
    intro i j x hx
    by_cases hj : j = i
    · subst hj
      rw [Sys.setBuf_self, hx]
    · rw [Sys.setBuf_ne _ _ hj]
  have hgot : ∀ (i : BufId) (x : Buf P), x.lock = (s.buf i).lock →
      TidyInv ((s.setBuf i x).goto p (.acquiresleep i b k)) := by
    intro i x hx
    refine h.next (p := p) rfl (fun q hq => Sys.goto_ne _ _ hq)
      (fun j q _ hq => (hset i j x hx).symm.trans hq) (fun j hj => ?_) (fun _ => ?_) h.few
    · rw [Sys.goto_self]
      exact hlock j ((hset i j x hx).symm.trans hj)
    · rw [Sys.goto_self]
      exact .inr hidle
  unfold Sys.bget
  split
  next i hi => exact hgot i _ rfl
  next =>
    split
    next i hi => exact hgot i _ rfl
    next =>
      refine h.next (p := p) rfl (fun q hq => Sys.goto_ne _ _ hq) (fun j q _ hq => hq)
        (fun j hj => ?_) (fun hr => ?_) h.few
      · show _ ∨ ((s.goto p (.bget b k)).pc p).stage ≠ .idle ∧
          j ∈ ((s.goto p (.bget b k)).pc p).bufs
        rw [Sys.goto_self]
        exact hlock j hj
      · change ((s.goto p (.bget b k)).pc p).ref ≠ none at hr
        rw [Sys.goto_self] at hr
        exact absurd rfl hr

omit [Fintype P] in
theorem TidyInv.lockBuf {i : BufId} {b : Nat} {k : Want} (h : TidyInv s)
    (hp : s.pc p = .acquiresleep i b k) :
    TidyInv ((s.lockBuf p i).goto p (s.resume i k)) := by
  have hother : ∀ j q, q ≠ p → ((s.lockBuf p i).buf j).lock = some q →
      (s.buf j).lock = some q := by
    intro j q hq hj
    by_cases hji : j = i
    · subst hji
      rw [Sys.lockBuf, Sys.setBuf_self] at hj
      exact absurd (Option.some.inj hj).symm hq
    · rwa [Sys.lockBuf, Sys.setBuf_ne _ _ hji] at hj
  have href := h.ref p (by rw [hp]; exact Option.some_ne_none i)
  rw [hp] at href
  refine h.next (p := p) rfl (fun q hq => Sys.goto_ne _ _ hq) hother (fun j hj => ?_)
    (fun hr => ?_) h.few
  · rw [Sys.goto_self]
    by_cases hk : k = .user
    · -- a caller of `bread` has an operation
      subst hk
      exact .inl (href.resolve_right fun hst => hst rfl)
    · have hst : (s.resume i k).stage ≠ .idle := by
        rw [resume_stage]
        exact fun hst => hk (Want.stage_eq_idle hst)
      by_cases hji : j = i
      · exact .inr ⟨hst, (mem_bufs_resume s i j hk).mpr (.inr hji)⟩
      · change ((s.lockBuf p i).buf j).lock = some p at hj
        rw [Sys.lockBuf, Sys.setBuf_ne _ _ hji] at hj
        have hold := h.lock j p hj
        rw [hp] at hold
        exact hold.imp_right fun hh => ⟨hst, (mem_bufs_resume s i j hk).mpr (.inl hh.2)⟩
  · rw [Sys.goto_self, resume_ref] at hr
    exact absurd rfl hr

theorem TidyInv.releasesleep {i : BufId} {k : After} (hb : BookInv start s) (h : TidyInv s)
    (hp : s.pc p = .brelse i k) :
    TidyInv ((s.releasesleep i).goto p (.unref i k)) := by
  have hok := hb.pc p
  rw [hp] at hok
  have hheld := h.lock i p hok.1
  rw [hp] at hheld
  have hkeep : ∀ j q, ((s.releasesleep i).buf j).lock = some q → j ≠ i ∧
      (s.buf j).lock = some q := by
    intro j q hj
    by_cases hji : j = i
    · subst hji
      rw [Sys.releasesleep, Sys.setBuf_self] at hj
      exact absurd hj.symm (Option.some_ne_none q)
    · rw [Sys.releasesleep, Sys.setBuf_ne _ _ hji] at hj
      exact ⟨hji, hj⟩
  refine h.next (p := p) rfl (fun q hq => Sys.goto_ne _ _ hq)
    (fun j q _ hq => (hkeep j q hq).2) (fun j hj => ?_) (fun _ => ?_) h.few
  · rw [Sys.goto_self]
    obtain ⟨hji, hj⟩ := hkeep j p hj
    have hold := h.lock j p hj
    rw [hp] at hold
    exact hold.imp_right fun hh => ⟨hh.1, (List.mem_cons.mp hh.2).resolve_left hji⟩
  · rw [Sys.goto_self]
    exact hheld.imp_right fun hh => hh.1

/-! ## All steps -/

theorem run_tidy (hb : BookInv start s) (hcalm : Calm s) (h : TidyInv s) (hn : s.panicked = none)
    (hs : s.run start p = some s') : TidyInv s' := by
  cases hp : s.pc p with
  | user =>
    simp only [Sys.run, hp] at hs
    exact absurd hs.symm (Option.some_ne_none _)
  | bget b k =>
    simp only [Sys.run, hp] at hs
    obtain rfl := Option.some.inj hs
    refine h.bget hp ?_
    rintro rfl
    exact hcalm.user p b hp hn
  | acquiresleep i b k =>
    simp only [Sys.run, hp] at hs
    split at hs
    next =>
      obtain rfl := Option.some.inj hs
      exact h.lockBuf hp
    next => exact absurd hs.symm (Option.some_ne_none _)
  | brelse i k =>
    simp only [Sys.run, hp] at hs
    obtain rfl := Option.some.inj hs
    exact h.releasesleep hb hp
  | unref i k =>
    simp only [Sys.run, hp] at hs
    obtain rfl := Option.some.inj hs
    obtain ⟨lru, -, hu⟩ := unref_eq s i
    rw [hu]
    have hlock := fun j => setRefcnt_lock s i j ((s.buf i).refcnt - 1)
    have hbufs : ∀ j ∈ (s.pc p).bufs, j ∈ k.pc.bufs := by
      rw [hp]
      exact fun j hj => (After.mem_bufs_pc hj).2
    have hidle : k.pc.stage = .idle → (s.pc p).bufs = [] := by
      rw [hp]
      intro hst
      exact List.eq_nil_iff_forall_not_mem.mpr fun j hj => (After.mem_bufs_pc hj).1 hst
    split
    · exact h.move rfl rfl hlock hbufs hidle k.ref_pc h.few
    · exact h.move rfl rfl hlock hbufs hidle k.ref_pc h.few
  | commit =>
    simp only [Sys.run, hp] at hs
    obtain rfl := Option.some.inj hs
    have hbufs : (s.pc p).bufs = [] := by rw [hp]; rfl
    split
    · exact h.move rfl rfl (fun _ => rfl) (hbufs ▸ List.forall_mem_nil _) (fun _ => hbufs) rfl h.few
    · exact h.move rfl rfl (fun _ => rfl) (hbufs ▸ List.forall_mem_nil _) (fun _ => hbufs) rfl h.few
  | logLoop t =>
    simp only [Sys.run, hp] at hs
    obtain rfl := Option.some.inj hs
    have hbufs : (s.pc p).bufs = [] := by rw [hp]; rfl
    split
    · exact h.move rfl rfl (fun _ => rfl) (hbufs ▸ List.forall_mem_nil _) (fun _ => hbufs) rfl h.few
    · exact h.move rfl rfl (fun _ => rfl) (hbufs ▸ List.forall_mem_nil _) (fun _ => hbufs) rfl h.few
  | writeLog t i j =>
    simp only [Sys.run, hp] at hs
    obtain rfl := Option.some.inj hs
    refine h.move rfl rfl (fun x => (setData_same s i _ _ x).2.2.1) (fun x hx => ?_)
      (fun hst => Stage.noConfusion hst) rfl h.few
    rw [hp] at hx
    simpa [Pc.bufs, After.bufs, or_comm] using hx
  | writeHead w i =>
    simp only [Sys.run, hp] at hs
    obtain rfl := Option.some.inj hs
    have hbufs : ∀ x ∈ (s.pc p).bufs, x ∈ (Pc.brelse i (.head w)).bufs := by
      rw [hp]
      exact fun x hx => hx
    have hst : (Pc.brelse i (.head w)).stage = .idle → (s.pc p).bufs = [] := by
      cases w <;> exact fun hst => Stage.noConfusion hst
    split
    · exact h.move rfl rfl (fun x => (setData_same s i _ _ x).2.2.1) hbufs hst rfl h.few
    · exact h.move rfl rfl (fun x => (setData_same s i _ _ x).2.2.1) hbufs hst rfl h.few
  | readHead i =>
    simp only [Sys.run, hp] at hs
    obtain rfl := Option.some.inj hs
    have hr : s.ready = false := by
      have hst := hb.ctl.stage p
      rw [hp] at hst
      exact hst
    refine h.move rfl rfl (fun x => rfl) (fun x hx => ?_) (fun hst => Stage.noConfusion hst) rfl
      fun hc => ?_
    · rw [hp] at hx
      exact hx
    · exact absurd ((hb.ctl.booting hr).1.symm.trans hc) Bool.noConfusion
  | instLoop r t =>
    simp only [Sys.run, hp] at hs
    have hbufs : (s.pc p).bufs = [] := by rw [hp]; rfl
    split at hs
    next =>
      obtain rfl := Option.some.inj hs
      exact h.move rfl rfl (fun _ => rfl) (hbufs ▸ List.forall_mem_nil _) (fun _ => hbufs) rfl h.few
    next =>
      obtain rfl := Option.some.inj hs
      exact h.move rfl rfl (fun _ => rfl) (hbufs ▸ List.forall_mem_nil _) (fun _ => hbufs) rfl
        fun _ => Nat.succ_pos 29
  | install r t i j =>
    simp only [Sys.run, hp] at hs
    obtain rfl := Option.some.inj hs
    cases r with
    | true =>
      refine h.move rfl rfl (fun x => (setData_same s j _ _ x).2.2.1) (fun x hx => ?_)
        (fun hst => Stage.noConfusion hst) rfl h.few
      rw [hp] at hx
      exact hx
    | false =>
      refine h.move rfl rfl (fun x => (setData_same s j _ _ x).2.2.1) (fun x hx => ?_)
        (fun hst => Stage.noConfusion hst) rfl h.few
      rw [hp] at hx
      exact hx
  | bunpin t i j =>
    simp only [Sys.run, hp] at hs
    obtain rfl := Option.some.inj hs
    refine h.move rfl rfl (fun x => setRefcnt_lock s j x _) (fun x hx => ?_)
      (fun hst => Stage.noConfusion hst) rfl h.few
    rw [hp] at hx
    exact hx
  | endCommit =>
    simp only [Sys.run, hp] at hs
    obtain rfl := Option.some.inj hs
    have hbufs : (s.pc p).bufs = [] := by rw [hp]; rfl
    exact h.move rfl rfl (fun _ => rfl) (hbufs ▸ List.forall_mem_nil _) (fun _ => hbufs) rfl
      fun hc => Bool.noConfusion hc

omit [Fintype P] [DecidableEq P] in
/-- A process at `user` has locked buffers inside an operation only. -/
theorem TidyInv.isSome (h : TidyInv s) (hu : s.pc p = .user) {i : BufId}
    (hi : (s.buf i).lock = some p) : (s.op p).isSome = true := by
  rcases h.lock i p hi with hop | ⟨-, hmem⟩
  · exact hop
  · rw [hu] at hmem
    exact absurd hmem List.not_mem_nil

omit [Fintype P] in
/-- `bread` inside an operation. -/
theorem TidyInv.bread (h : TidyInv s) (hop : (s.op p).isSome = true) (b : Nat) :
    TidyInv (s.bget p b .user) := by
  have hgot : ∀ (i : BufId) (x : Buf P), x.lock = (s.buf i).lock →
      TidyInv ((s.setBuf i x).goto p (.acquiresleep i b .user)) := by
    intro i x hx
    refine h.next (p := p) rfl (fun q hq => Sys.goto_ne _ _ hq) (fun j q _ hq => ?_)
      (fun _ _ => .inl hop) (fun _ => .inl hop) h.few
    by_cases hj : j = i
    · subst hj
      change ((s.setBuf j x).buf j).lock = some q at hq
      rwa [Sys.setBuf_self, hx] at hq
    · change ((s.setBuf i x).buf j).lock = some q at hq
      rwa [Sys.setBuf_ne _ _ hj] at hq
  unfold Sys.bget
  split
  next i hi => exact hgot i _ rfl
  next =>
    split
    next i hi => exact hgot i _ rfl
    next =>
      exact h.next (p := p) rfl (fun q hq => Sys.goto_ne _ _ hq) (fun j q _ hq => hq)
        (fun _ _ => .inl hop) (fun _ => .inl hop) h.few

omit [Fintype P] in
/-- `end_op` of a process that has given its buffers back. -/
theorem TidyInv.endOp (h : TidyInv s) (hu : s.pc p = .user) (hfree : ∀ i, (s.buf i).lock ≠ some p) :
    (∀ i q, (s.buf i).lock = some q → (Function.update s.op p none q).isSome = true ∨
      ((s.pc q).stage ≠ .idle ∧ i ∈ (s.pc q).bufs)) ∧
    ∀ q, (s.pc q).ref ≠ none → (Function.update s.op p none q).isSome = true ∨
      (s.pc q).stage ≠ .idle := by
  refine ⟨fun i q hq => ?_, fun q hq => ?_⟩
  · have hqp : q ≠ p := by
      rintro rfl
      exact hfree i hq
    rw [Function.update_of_ne hqp]
    exact h.lock i q hq
  · have hqp : q ≠ p := by
      rintro rfl
      rw [hu] at hq
      exact hq rfl
    rw [Function.update_of_ne hqp]
    exact h.ref q hq

omit [Fintype P] in
/-- An operation's record changes, and with it no lock. -/
theorem TidyInv.record (h : TidyInv s) (o : Op) {buf : BufId → Buf P}
    (hbuf : ∀ i, (buf i).lock = (s.buf i).lock) :
    (∀ i q, (buf i).lock = some q → (Function.update s.op p (some o) q).isSome = true ∨
      ((s.pc q).stage ≠ .idle ∧ i ∈ (s.pc q).bufs)) ∧
    ∀ q, (s.pc q).ref ≠ none → (Function.update s.op p (some o) q).isSome = true ∨
      (s.pc q).stage ≠ .idle := by
  have hop : ∀ q, (s.op q).isSome = true → (Function.update s.op p (some o) q).isSome = true := by
    intro q hq
    by_cases hqp : q = p
    · subst hqp
      rw [Function.update_self]
      rfl
    · rwa [Function.update_of_ne hqp]
  exact ⟨fun i q hq => (h.lock i q ((hbuf i).symm.trans hq)).imp_left (hop q),
    fun q hq => (h.ref q hq).imp_left (hop q)⟩

theorem call_tidy {a : Label P} (hb : BookInv start s) (h : TidyInv s) (hu : s.pc a.proc = .user)
    (hin : Inside s a) (hret : Returns s a) (hfew : Few s a) (hs : CallStep s a s') :
    TidyInv s' := by
  cases hs with
  | beginOp p hop hcom hroom =>
    obtain ⟨hlock, href⟩ := h.record (p := p) ⟨s.nextOp, [], 0⟩ fun _ => rfl
    exact ⟨hlock, href, h.few⟩
  | bread p b => exact h.bread hin b
  | modify p i d hop hl =>
    have hlock := fun j => (setData_same s i d true j).2.2.1
    exact ⟨fun j q hq => h.lock j q ((hlock j).symm.trans hq), h.ref, h.few⟩
  | tooBig | outside => exact ⟨h.lock, h.ref, h.few⟩
  | absorb p o i ho hl hmem hroom =>
    obtain ⟨hlock, href⟩ := h.record (p := p) (o.log (s.buf i).blockno)
      fun j => (setData_same s i (s.buf i).data false j).2.2.1
    exact ⟨hlock, href, h.few⟩
  | add p o i ho hl hmem hroom =>
    have hcom := hb.ctl.not_committing (p := p) (by rw [ho]; rfl)
    have hbuf : ∀ j, ((s.setBuf i { s.buf i with
        dirty := false, refcnt := (s.buf i).refcnt + 1 }).buf j).lock = (s.buf j).lock := by
      intro j
      by_cases hj : j = i
      · subst hj
        rw [Sys.setBuf_self]
      · rw [Sys.setBuf_ne _ _ hj]
    obtain ⟨hlock, href⟩ := h.record (p := p)
      { o.log (s.buf i).blockno with added := o.added + 1 } hbuf
    refine ⟨hlock, href, fun hc => ?_⟩
    exact absurd (hcom.symm.trans hc) Bool.noConfusion
  | brelse p i hl =>
    have hu : s.pc p = .user := hu
    have hop := h.isSome hu hl
    refine h.next (p := p) rfl (fun q hq => Sys.goto_ne _ _ hq) (fun j q _ hq => ?_)
      (fun _ _ => .inl hop) (fun _ => .inl hop) h.few
    change ((s.releasesleep i).buf j).lock = some q at hq
    by_cases hji : j = i
    · subst hji
      rw [Sys.releasesleep, Sys.setBuf_self] at hq
      exact absurd hq.symm (Option.some_ne_none q)
    · rwa [Sys.releasesleep, Sys.setBuf_ne _ _ hji] at hq
  | endPanic p hop hcom =>
    exact absurd (hcom.symm.trans (hb.ctl.not_committing hop)) Bool.noConfusion
  | endLast p hop hcom hz =>
    have hu : s.pc p = .user := hu
    obtain ⟨hlock, href⟩ := h.endOp hu hret
    have hone : s.outstanding = 1 := by
      have hle := le_sum (fun q => if (s.op q).isSome then 1 else 0) p
      have hcount := hb.ctl.count
      simp only [hop, if_true] at hle
      omega
    have hpc : ∀ q, q ≠ p → Function.update s.pc p .commit q = s.pc q :=
      fun q hq => Function.update_of_ne hq _ _
    refine ⟨fun i q hq => ?_, fun q hq => ?_, fun _ => hfew hone⟩
    · have hqp : q ≠ p := by
        rintro rfl
        exact hret i hq
      change _ ∨ (Function.update s.pc p .commit q).stage ≠ .idle ∧
        i ∈ (Function.update s.pc p .commit q).bufs
      rw [hpc q hqp]
      exact hlock i q hq
    · change (Function.update s.pc p .commit q).ref ≠ none at hq
      change _ ∨ (Function.update s.pc p .commit q).stage ≠ .idle
      by_cases hqp : q = p
      · subst hqp
        rw [Function.update_self] at hq
        exact absurd rfl hq
      · rw [hpc q hqp] at hq ⊢
        exact href q hq
  | endOther p hop hcom hz =>
    obtain ⟨hlock, href⟩ := h.endOp hu hret
    exact ⟨hlock, href, h.few⟩

omit [Fintype P] in
theorem boot_tidy (s : Sys P) (p : P) : TidyInv (s.boot start p) := by
  refine ⟨fun i q hq => absurd hq.symm (Option.some_ne_none q), fun q hq => ?_,
    fun hc => Bool.noConfusion hc⟩
  change (Function.update (fun _ => Pc.user) p (.bget start .readHead) q).ref ≠ none at hq
  by_cases hqp : q = p
  · subst hqp
    rw [Function.update_self] at hq
    exact absurd rfl hq
  · rw [Function.update_of_ne hqp] at hq
    exact absurd rfl hq

theorem step_tidy {a : Label P} (hb : BookInv start s) (hcalm : Calm s) (h : TidyInv s)
    (hin : Inside s a) (hret : Returns s a) (hfew : Few s a) (hs : step start s a = some s') :
    TidyInv s' := by
  obtain ⟨p, -, rfl⟩ | ⟨p, -, hn, hrun⟩ | ⟨-, -, hu, hcall⟩ := step_cases hs
  · exact boot_tidy s p
  · exact run_tidy hb hcalm h hn hrun
  · exact call_tidy hb h hu hin hret hfew hcall

omit [Fintype P] in
/-- A process that calls `bread` for itself stands still. -/
theorem Calm.not_idle (h : Calm s) (ha : (s.pc p).Asks) (hs : step start s (.run p) = some s') :
    (s.pc p).stage ≠ .idle := by
  intro hst
  obtain ⟨q, he, -⟩ | ⟨q, -, hn, -⟩ | ⟨-, -, -, hcall⟩ := step_cases hs
  · cases he
  · cases hp : s.pc p with
    | bget b k =>
      rw [hp] at hst
      obtain rfl := Want.stage_eq_idle hst
      exact h.user p b hp hn
    | _ =>
      rw [hp] at ha
      exact ha
  · cases hcall

omit [DecidableEq P] in
/-- When a commit asks empty-handed, nothing is in use but the pins. -/
theorem TidyInv.room (hb : BookInv start s) (h : TidyInv s) (hc : s.committing = true)
    (ha : (s.pc p).Asks) (hidle : (s.pc p).stage ≠ .idle) : s.Room := by
  have hop : ∀ q, (s.op q).isSome ≠ true := by
    intro q
    rw [hb.ctl.busy hc q]
    exact Bool.noConfusion
  obtain ⟨hbufs, href⟩ : (s.pc p).bufs = [] ∧ (s.pc p).ref = none := by
    cases hp : s.pc p with
    | bget b k =>
      rw [hp] at ha
      exact ⟨ha, rfl⟩
    | _ =>
      rw [hp] at ha
      exact ha.elim
  have hbusy : s.busy = ∅ := by
    refine Finset.filter_eq_empty_iff.mpr fun i _ hi => ?_
    rcases hi.2 with hl | ⟨q, hq⟩
    · obtain ⟨q, hq⟩ := Option.isSome_iff_exists.mp hl
      obtain ⟨hst, hmem⟩ := (h.lock i q hq).resolve_left (hop q)
      rw [hb.ctl.alone q p hst hidle, hbufs] at hmem
      exact List.not_mem_nil hmem
    · have hst := (h.ref q (by rw [hq]; exact Option.some_ne_none i)).resolve_left (hop q)
      rw [hb.ctl.alone q p hst hidle, href] at hq
      exact Option.some_ne_none i hq.symm
  have hfew := h.few hc
  unfold Sys.Room Sys.pinned
  rw [if_pos (ready_of_committing hb hc), hbusy, Finset.card_empty, List.length_drop]
  omega

/-- **Without other readers** one block less than `NBUF` in the log is enough: a run whose
operations keep their buffers to themselves is one in which a commit is not out of
buffers. -/
theorem spare_of_few
    (h : Reach (step start) (fun s a => Inside s a ∧ Returns s a ∧ Few s a) (PowerOn start) s) :
    Reach (step start) Spare (PowerOn start) s := by
  have h0 : ∀ s : Sys P, PowerOn start s →
      Reach (step start) Spare (PowerOn start) s ∧ BookInv start s ∧ Calm s ∧ TidyInv s := by
    rintro _ ⟨disk, p, rfl⟩
    exact ⟨.start ⟨disk, p, rfl⟩, boot_book _ p, boot_calm _ p, boot_tidy _ p⟩
  refine (h.inv h0 ?_).1
  rintro s s' a ⟨hreach, hb, hcalm, ht⟩ ⟨hin, hret, hfew⟩ hs
  have hspare : Spare s a := by
    cases a with
    | run p =>
      intro hc ha
      exact ht.room hb hc ha (hcalm.not_idle ha hs)
    | bread p b =>
      intro hc
      exact absurd (hc.symm.trans (hb.ctl.not_committing hin)) Bool.noConfusion
    | _ => exact trivial
  exact ⟨.next hreach hspare hs, step_book hb hs, step_calm hb hcalm hspare hs,
    step_tidy hb hcalm ht hin hret hfew hs⟩

end Xv6.Log
