import Xv6.Log.Budget

/-!
# `too big a transaction`

Three operations of ten blocks each fill the log, and may do so. They may also
log again the blocks they have logged. But `log_write` compares `lh.n` with
`LOGBLOCKS` before it looks for the entry of the block, and a full log makes it
panic over a block it would have absorbed. Short of that nothing goes wrong:

> with at most `MAXOPBLOCKS` distinct blocks an operation, `log_write` panics
> exactly when it is given a block that has its entry and the log is full
-/

namespace Xv6.Log

open Lib

variable {P : Type}

/-- Each operation calls `log_write` on at most `MAXOPBLOCKS` distinct blocks. -/
def Distinct (s : Sys P) : Label P → Prop
  | .logWrite p i => ∀ o ∈ s.op p, (s.buf i).blockno ∈ o.logged ∨ o.logged.length < MAXOPBLOCKS
  | _ => True

instance (s : Sys P) : ∀ a, Decidable (Distinct s a)
  | .logWrite p i => inferInstanceAs
    (Decidable (∀ o ∈ s.op p, (s.buf i).blockno ∈ o.logged ∨ o.logged.length < MAXOPBLOCKS))
  | .beginOp _ | .bread _ _ | .modify _ _ _ | .brelse _ _ | .endOp _ | .run _ | .crash _ =>
    .isTrue trivial

/-- A block that has its entry is logged again while the log is full. -/
def Relogs [DecidableEq P] (start : Nat) (s : Sys P) : Label P → Prop
  | .logWrite p i => (step start s (.logWrite p i)).isSome = true ∧ s.lh.length = LOGBLOCKS ∧
      (s.buf i).blockno ∈ s.lh
  | _ => False

/-- What an operation has logged has its entry until the operation ends. -/
def LoggedInv (s : Sys P) : Prop :=
  s.ready = true → ∀ p o, s.op p = some o →
    (∀ b ∈ o.logged, b ∈ s.lh) ∧ o.added ≤ o.logged.length

variable [Fintype P] [DecidableEq P] {start : Nat} {s s' : Sys P} {p : P}

theorem mem_log {o : Op} {b c : Nat} : c ∈ (o.log b).logged ↔ c = b ∨ c ∈ o.logged := by
  unfold Op.log
  simp only
  split
  next hb => exact ⟨.inr, fun h => h.elim (fun hc => hc ▸ hb) id⟩
  next => exact List.mem_cons

theorem length_log {o : Op} {b : Nat} (hb : b ∉ o.logged) :
    (o.log b).logged.length = o.logged.length + 1 := by
  unfold Op.log
  simp only [if_neg hb, List.length_cons]

theorem length_le_log (o : Op) (b : Nat) : o.logged.length ≤ (o.log b).logged.length := by
  unfold Op.log
  simp only
  split
  · exact Nat.le_refl _
  · exact Nat.le_succ _

theorem run_logged (hb : BookInv start s) (h : LoggedInv s) (hs : s.run start p = some s') :
    LoggedInv s' := by
  obtain ⟨hlog, hop, -⟩ := run_log hb hs
  intro hr'
  rw [hop]
  cases hlog with
  | same hlh _ hr =>
    rw [hlh]
    exact h (hr ▸ hr')
  | read _ hr => exact absurd (hr'.symm.trans hr) Bool.noConfusion
  | unpin t i j _ hlh _ hr =>
    rw [hlh]
    exact h (hr ▸ hr')
  | clear _ _ _ hnone =>
    intro q o ho
    rw [hnone q] at ho
    exact absurd ho.symm (Option.some_ne_none o)
  | ready hr _ =>
    intro q o ho
    rw [(hb.ctl.booting hr).2 q] at ho
    exact absurd ho.symm (Option.some_ne_none o)

omit [DecidableEq P] [Fintype P] in
/-- A list of entries that grows keeps what was in it. -/
theorem logged_mono {lh : List Nat} {o : Op}
    (h : (∀ b ∈ o.logged, b ∈ s.lh) ∧ o.added ≤ o.logged.length)
    (hsub : ∀ b ∈ s.lh, b ∈ lh) : (∀ b ∈ o.logged, b ∈ lh) ∧ o.added ≤ o.logged.length :=
  ⟨fun b hb => hsub b (h.1 b hb), h.2⟩

omit [Fintype P] in
theorem call_logged {a : Label P} (h : LoggedInv s) (hr : s.ready = true) (hs : CallStep s a s') :
    LoggedInv s' := by
  have h := h hr
  have hend : ∀ p, ∀ q o, Function.update s.op p none q = some o →
      (∀ b ∈ o.logged, b ∈ s.lh) ∧ o.added ≤ o.logged.length := by
    intro p q o ho
    by_cases hq : q = p
    · subst hq
      rw [Function.update_self] at ho
      exact absurd ho.symm (Option.some_ne_none o)
    · rw [Function.update_of_ne hq] at ho
      exact h q o ho
  cases hs with
  | beginOp p hop hcom hroom =>
    intro _ q o ho
    change Function.update s.op p _ q = some o at ho
    by_cases hq : q = p
    · subst hq
      rw [Function.update_self, Option.some.injEq] at ho
      subst ho
      exact ⟨fun b hb => absurd hb List.not_mem_nil, Nat.le_refl _⟩
    · rw [Function.update_of_ne hq] at ho
      exact h q o ho
  | bread p b =>
    intro _
    unfold Sys.bget
    split
    · exact h
    · split
      · exact h
      · exact h
  | modify p i d hop hl => exact fun _ => h
  | tooBig p o i ho hl hbig => exact fun _ => h
  | outside p o i ho hout hroom => exact fun _ => h
  | absorb p o i ho hl hmem hroom =>
    intro _ q o' ho'
    change Function.update s.op p _ q = some o' at ho'
    by_cases hq : q = p
    · subst hq
      rw [Function.update_self, Option.some.injEq] at ho'
      subst ho'
      refine ⟨fun b hb => ?_, (h q o ho).2.trans (length_le_log o _)⟩
      rcases mem_log.mp hb with rfl | hb
      · exact hmem
      · exact (h q o ho).1 b hb
    · rw [Function.update_of_ne hq] at ho'
      exact h q o' ho'
  | add p o i ho hl hmem hroom =>
    intro _ q o' ho'
    change Function.update s.op p _ q = some o' at ho'
    change (∀ b ∈ o'.logged, b ∈ s.lh ++ [(s.buf i).blockno]) ∧ o'.added ≤ o'.logged.length
    by_cases hq : q = p
    · subst hq
      rw [Function.update_self, Option.some.injEq] at ho'
      subst ho'
      -- the block had no entry, so this operation has not logged it before
      have hnew : (s.buf i).blockno ∉ o.logged := fun hb => hmem ((h q o ho).1 _ hb)
      refine ⟨fun b hb => ?_, ?_⟩
      · rcases mem_log.mp hb with rfl | hb
        · exact List.mem_append_right _ List.mem_cons_self
        · exact List.mem_append_left _ ((h q o ho).1 b hb)
      · change o.added + 1 ≤ (o.log (s.buf i).blockno).logged.length
        rw [length_log hnew]
        exact Nat.succ_le_succ (h q o ho).2
    · rw [Function.update_of_ne hq] at ho'
      exact logged_mono (h q o' ho') fun b hb => List.mem_append_left _ hb
  | brelse p i hl => exact fun _ => h
  | endPanic p hop hcom => exact fun _ => hend p
  | endLast p hop hcom hz => exact fun _ => hend p
  | endOther p hop hcom hz => exact fun _ => hend p

theorem step_logged {a : Label P} (hb : BookInv start s) (h : LoggedInv s)
    (hs : step start s a = some s') : LoggedInv s' := by
  obtain ⟨p, -, rfl⟩ | ⟨p, -, -, hrun⟩ | ⟨-, hr, -, hcall⟩ := step_cases hs
  · exact fun hr => Bool.noConfusion hr
  · exact run_logged hb h hrun
  · exact call_logged h hr hcall

omit [Fintype P] [DecidableEq P] in
/-- Few distinct blocks make few entries. -/
theorem Distinct.within {a : Label P} (h : LoggedInv s) (hr : s.ready = true) (hd : Distinct s a) :
    Within s a := by
  cases a with
  | logWrite p i =>
    intro o ho
    by_cases hmem : (s.buf i).blockno ∈ s.lh
    · exact .inl hmem
    · have hlog := h hr p o ho
      have hlt := (hd o ho).resolve_left fun hb => hmem (hlog.1 _ hb)
      exact .inr (lt_of_le_of_lt hlog.2 hlt)
  | _ => exact trivial

omit [Fintype P] in
/-- Inside `log.c` and `bio.c` there is one panic to run into. -/
theorem run_panicked (hs : s.run start p = some s') :
    s'.panicked = s.panicked ∨ s'.panicked = some .noBuffers := by
  cases hp : s.pc p with
  | user =>
    simp only [Sys.run, hp] at hs
    exact absurd hs.symm (Option.some_ne_none _)
  | bget b k =>
    simp only [Sys.run, hp] at hs
    obtain rfl := Option.some.inj hs
    unfold Sys.bget
    split
    · exact .inl rfl
    · split
      · exact .inl rfl
      · exact .inr rfl
  | acquiresleep i b k =>
    simp only [Sys.run, hp] at hs
    split at hs
    · obtain rfl := Option.some.inj hs
      exact .inl rfl
    · exact absurd hs.symm (Option.some_ne_none _)
  | unref i k =>
    simp only [Sys.run, hp] at hs
    obtain rfl := Option.some.inj hs
    obtain ⟨lru, -, hu⟩ := unref_eq s i
    rw [hu]
    split
    · exact .inl rfl
    · exact .inl rfl
  | writeHead w i =>
    simp only [Sys.run, hp] at hs
    obtain rfl := Option.some.inj hs
    split
    · exact .inl rfl
    · exact .inl rfl
  | instLoop r t =>
    simp only [Sys.run, hp] at hs
    split at hs
    · obtain rfl := Option.some.inj hs
      exact .inl rfl
    · obtain rfl := Option.some.inj hs
      exact .inl rfl
  | _ =>
    simp only [Sys.run, hp] at hs
    obtain rfl := Option.some.inj hs
    exact .inl rfl

/-- **The panic, exactly.** With every operation within its budget, a step panics
over the size of the transaction if it logs a block again in a full log, and only
then. -/
theorem step_tooBig_iff {a : Label P} (hb : BookInv start s) (hres : Reserved s)
    (hlog : LoggedInv s)
    (hd : Distinct s a) (hn : s.panicked ≠ some .tooBig) (hs : step start s a = some s') :
    s'.panicked = some .tooBig ↔ Relogs start s a := by
  have hsome : (step start s a).isSome = true := by rw [hs]; rfl
  have hpanic : ∀ {m : Panic}, m ≠ .tooBig → (some m : Option Panic) ≠ some .tooBig :=
    fun hm h => hm (Option.some.inj h)
  obtain ⟨p, rfl, rfl⟩ | ⟨p, rfl, hp, hrun⟩ | ⟨hnone, hr, hu, hcall⟩ := step_cases hs
  · exact ⟨fun h => absurd h.symm (Option.some_ne_none _), False.elim⟩
  · refine ⟨fun h => ?_, False.elim⟩
    rcases run_panicked hrun with heq | heq
    · exact absurd (heq.symm.trans h) hn
    · exact absurd (heq.symm.trans h) (hpanic Panic.noConfusion)
  · cases hcall with
    | tooBig p o i ho hl hbig =>
      refine ⟨fun _ => ⟨hsome, Nat.le_antisymm (hb.ctl.room hr) hbig, ?_⟩, fun _ => rfl⟩
      -- a new block would still have its reservation
      by_contra hmem
      have hadd : o.added < MAXOPBLOCKS := (Distinct.within hlog hr hd o ho).resolve_left hmem
      have hle := le_sum (fun q => reserve (s.op q)) p
      simp only [ho, reserve_some] at hle
      have := hres hr
      omega
    | outside p o i ho hout hroom =>
      exact ⟨fun h => absurd h (hpanic Panic.noConfusion),
        fun h => absurd h.2.1 (Nat.ne_of_lt hroom)⟩
    | absorb p o i ho hl hmem hroom =>
      exact ⟨fun h => absurd h hn, fun h => absurd h.2.1 (Nat.ne_of_lt hroom)⟩
    | add p o i ho hl hmem hroom =>
      exact ⟨fun h => absurd h hn, fun h => absurd h.2.1 (Nat.ne_of_lt hroom)⟩
    | bread p b =>
      refine ⟨fun h => absurd h ?_, False.elim⟩
      unfold Sys.bget
      split
      · exact hn
      · split
        · exact hn
        · exact hpanic Panic.noConfusion
    | endPanic p hop hcom => exact ⟨fun h => absurd h (hpanic Panic.noConfusion), False.elim⟩
    | _ => exact ⟨fun h => absurd h hn, False.elim⟩

/-- What holds until the log overflows. -/
structure FitInv (start : Nat) (s : Sys P) : Prop where
  book : BookInv start s
  reserved : Reserved s
  logged : LoggedInv s
  fits : s.panicked ≠ some .tooBig

theorem FitInv.step {a : Label P} (h : FitInv start s) (hd : Distinct s a)
    (hok : ¬ Relogs start s a)
    (hs : step start s a = some s') : FitInv start s' := by
  refine ⟨step_book h.book hs, ?_, step_logged h.book h.logged hs, fun hp => hok ?_⟩
  · intro hr'
    obtain ⟨p, -, rfl⟩ | ⟨p, -, -, hrun⟩ | ⟨-, hr, -, hcall⟩ := step_cases hs
    · exact Bool.noConfusion hr'
    · exact run_reserved h.book h.reserved hrun hr'
    · exact call_reserved h.book h.reserved hr (hd.within h.logged hr) hcall hr'
  · exact (step_tooBig_iff h.book h.reserved h.logged hd h.fits hs).mp hp

/-- **Admitted operations do not overflow the log**, unless one of them logs a
block again that has its entry while the log is full: in every run whose
operations log at most `MAXOPBLOCKS` distinct blocks each, `too big a transaction`
is reached exactly by such a step. -/
theorem log_never_overflows (disk : Nat → Block) (q : P) (as : List (Label P))
    (hd : RunOk (step start) Distinct (powerOn start disk q) as) :
    RunOk (step start) (fun s a => ¬ Relogs start s a) (powerOn start disk q) as ↔
      ∀ bs, bs <+: as → ∀ s', runFrom (step start) (powerOn start disk q) bs = some s' →
        s'.panicked ≠ some .tooBig := by
  have h0 : FitInv start (powerOn start disk q) :=
    ⟨boot_book _ q, fun hr => Bool.noConfusion hr, fun hr => Bool.noConfusion hr,
      fun h => absurd h.symm (Option.some_ne_none _)⟩
  refine RunOk.iff_always_of (fun hinv hda hok hs => FitInv.step hinv hda hok hs)
    (fun hinv => hinv.fits) (fun {s a} hinv hda hbad => ?_) as h0 hd
  have hre : Relogs start s a := Classical.not_not.mp hbad
  have hsome : (Log.step start s a).isSome = true := by
    cases a with
    | logWrite p i => exact hre.1
    | _ => exact hre.elim
  obtain ⟨s', hs⟩ := Option.isSome_iff_exists.mp hsome
  have hiff := step_tooBig_iff hinv.book hinv.reserved hinv.logged hda hinv.fits hs
  exact ⟨s', hs, fun hn => hn (hiff.mpr hre)⟩

/-- Three operations log ten blocks each. -/
def fullLog : List (Label Slot) :=
  recoverRun 0 ++ [.beginOp 0, .beginOp 1, .beginOp 2] ++ logTen 0 0 ++ logTen 1 10 ++ logTen 2 20

/-- The third logs its last block once more. -/
def relogRun : List (Label Slot) :=
  fullLog ++ [.bread 2 129, .run 2, .logWrite 2 0]

instance (start : Nat) (s : Sys Slot) : ∀ a, Decidable (Relogs start s a)
  | .logWrite p i => inferInstanceAs (Decidable ((step start s (.logWrite p i)).isSome = true ∧
      s.lh.length = LOGBLOCKS ∧ (s.buf i).blockno ∈ s.lh))
  | .beginOp _ | .bread _ _ | .modify _ _ _ | .brelse _ _ | .endOp _ | .run _ | .crash _ =>
    .isFalse id

theorem log_never_overflows_full :
    ∃ s, runFrom (step 2) blank fullLog = some s ∧ s.lh.length = LOGBLOCKS ∧
      s.panicked ≠ some .tooBig := by
  have hobs : (runFrom (guarded (step 2) fun s a => Distinct s a ∧ ¬ Relogs 2 s a) blank
      fullLog).map (fun s => s.lh.length) = some LOGBLOCKS := by
    decide +kernel
  obtain ⟨s, hs, hlen⟩ := Option.map_eq_some_iff.mp hobs
  obtain ⟨hok, hrun⟩ := runFrom_guarded _ hs
  refine ⟨s, hrun, hlen, ?_⟩
  exact (log_never_overflows _ _ fullLog (hok.imp fun _ _ h => h.1)).mp (hok.imp fun _ _ h => h.2)
    fullLog (List.prefix_refl _) s hrun

theorem log_overflows_full :
    ¬ ∀ s, Reach (step 2) Distinct (PowerOn 2) (s : Sys Slot) → s.panicked ≠ some .tooBig := by
  intro hall
  have hobs : (runFrom (guarded (step 2) Distinct) blank relogRun).map (fun s => s.panicked)
      = some (some .tooBig) := by
    decide +kernel
  obtain ⟨s, hs, hp⟩ := Option.map_eq_some_iff.mp hobs
  obtain ⟨hok, hrun⟩ := runFrom_guarded _ hs
  exact hall s (.of_run _ (.start ⟨_, _, rfl⟩) hok hrun) hp

end Xv6.Log
