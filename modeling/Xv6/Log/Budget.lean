import Mathlib.Algebra.BigOperators.Ring.Finset
import Xv6.Log.Book
import Xv6.Proc.Basic

/-!
# The room in the log

`begin_op` stores no reservation: it compares `lh.n` and `outstanding` with
`LOGBLOCKS` once, and from then on the operation may add `MAXOPBLOCKS` entries.
What is reserved at any moment can only be read off the operations:

> `lh.n` plus, for each outstanding operation, `MAXOPBLOCKS` less the entries it
> has added, is at most `LOGBLOCKS`

An entry an operation adds moves one from its reservation to `lh.n`; a block that
is in the log already is absorbed and costs nothing. So an operation that stays
within its budget always has room for a *new* block. `log_write` however looks at
`lh.n` before it looks for the block, and a full log makes it panic over a block
that has its entry: that is the one way to `too big a transaction`.
-/

namespace Xv6.Log

open Lib

variable {P : Type}

/-- The entries an operation may still add. -/
def reserve : Option Op → Nat
  | some o => MAXOPBLOCKS - o.added
  | none => 0

@[simp] theorem reserve_some (o : Op) : reserve (some o) = MAXOPBLOCKS - o.added := rfl

@[simp] theorem reserve_none : reserve none = 0 := rfl

/-- Each operation adds at most `MAXOPBLOCKS` entries to the log. -/
def Within (s : Sys P) : Label P → Prop
  | .logWrite p i => ∀ o ∈ s.op p, (s.buf i).blockno ∈ s.lh ∨ o.added < MAXOPBLOCKS
  | _ => True

instance (s : Sys P) : ∀ a, Decidable (Within s a)
  | .logWrite p i =>
    inferInstanceAs (Decidable (∀ o ∈ s.op p, (s.buf i).blockno ∈ s.lh ∨ o.added < MAXOPBLOCKS))
  | .beginOp _ | .bread _ _ | .modify _ _ _ | .brelse _ _ | .endOp _ | .run _ | .crash _ =>
    .isTrue trivial

/-- The log has room for what the operations may still add. -/
def Reserved [Fintype P] (s : Sys P) : Prop :=
  s.ready = true → s.lh.length + ∑ p, reserve (s.op p) ≤ LOGBLOCKS

variable [Fintype P] [DecidableEq P] {start : Nat} {s s' : Sys P} {p : P}

omit [DecidableEq P] in
/-- Nobody has reserved more than a full operation. -/
theorem sum_reserve_le (op : P → Option Op) :
    ∑ q, reserve (op q) ≤ (∑ q, if (op q).isSome then 1 else 0) * MAXOPBLOCKS := by
  rw [Finset.sum_mul]
  refine Finset.sum_le_sum fun q _ => ?_
  cases op q with
  | none => exact Nat.zero_le _
  | some o =>
    rw [reserve_some, Option.isSome_some, if_pos rfl]
    omega

theorem sum_reserve_update (op : P → Option Op) (p : P) (o : Option Op) :
    ∑ q, reserve (Function.update op p o q) + reserve (op p) = ∑ q, reserve (op q) + reserve o := by
  have h := sum_change (f := fun q => reserve (op q))
    (g := fun q => reserve (Function.update op p o q))
    p fun q hq => by simp only [Function.update_of_ne hq]
  simp only [Function.update_self] at h
  exact h

omit [DecidableEq P] in
theorem sum_reserve_none {op : P → Option Op} (h : ∀ q, op q = none) : ∑ q, reserve (op q) = 0 :=
  Finset.sum_eq_zero fun q _ => by rw [h q]; rfl

/-- What a step inside `log.c` and `bio.c` does to the log. -/
inductive LogStep (s s' : Sys P) (p : P) : Prop
  | same : s'.lh = s.lh → s'.installed = s.installed → s'.ready = s.ready → LogStep s s' p
  /-- `read_head`, in recovery. -/
  | read : s.ready = false → s'.ready = false → LogStep s s' p
  /-- `bunpin` of the entry that has been installed. -/
  | unpin (t : Nat) (i j : BufId) : s.pc p = .bunpin t i j → s'.lh = s.lh →
      s'.installed = s.installed + 1 → s'.ready = s.ready → LogStep s s' p
  /-- `log.lh.n = 0`, with every entry unpinned. -/
  | clear : s'.lh = [] → s'.ready = s.ready → (s.ready = true → s.lh.length ≤ s.installed) →
      (∀ q, s.op q = none) → LogStep s s' p
  /-- The end of recovery. -/
  | ready : s.ready = false → s'.lh = [] → LogStep s s' p

theorem run_log (hb : BookInv start s) (hs : s.run start p = some s') :
    LogStep s s' p ∧ s'.op = s.op ∧ s'.outstanding = s.outstanding := by
  have hst := hb.ctl.stage p
  cases hp : s.pc p with
  | user =>
    simp only [Sys.run, hp] at hs
    exact absurd hs.symm (Option.some_ne_none _)
  | bget b k =>
    simp only [Sys.run, hp] at hs
    obtain rfl := Option.some.inj hs
    unfold Sys.bget
    split
    · exact ⟨.same rfl rfl rfl, rfl, rfl⟩
    · split
      · exact ⟨.same rfl rfl rfl, rfl, rfl⟩
      · exact ⟨.same rfl rfl rfl, rfl, rfl⟩
  | acquiresleep i b k =>
    simp only [Sys.run, hp] at hs
    split at hs
    · obtain rfl := Option.some.inj hs
      exact ⟨.same rfl rfl rfl, rfl, rfl⟩
    · exact absurd hs.symm (Option.some_ne_none _)
  -- the last `brelse` of recovery makes the log ready
  | unref i k =>
    simp only [Sys.run, hp] at hs
    obtain rfl := Option.some.inj hs
    obtain ⟨lru, -, hu⟩ := unref_eq s i
    rw [hu]
    split
    next hk =>
      subst hk
      rw [hp] at hst
      exact ⟨.ready hst.1 hst.2, rfl, rfl⟩
    next => exact ⟨.same rfl rfl rfl, rfl, rfl⟩
  | writeHead w i =>
    simp only [Sys.run, hp] at hs
    obtain rfl := Option.some.inj hs
    split
    · exact ⟨.same rfl rfl rfl, rfl, rfl⟩
    · exact ⟨.same rfl rfl rfl, rfl, rfl⟩
  | readHead i =>
    simp only [Sys.run, hp] at hs
    obtain rfl := Option.some.inj hs
    rw [hp] at hst
    exact ⟨.read hst hst, rfl, rfl⟩
  -- the header is cleared when everything is installed
  | instLoop r t =>
    simp only [Sys.run, hp] at hs
    rw [hp] at hst
    split at hs
    next => obtain rfl := Option.some.inj hs; exact ⟨.same rfl rfl rfl, rfl, rfl⟩
    next hn =>
      obtain rfl := Option.some.inj hs
      cases r with
      | true =>
        refine ⟨.clear rfl rfl (fun hr => ?_) (hb.ctl.booting hst).2, rfl, rfl⟩
        exact absurd (hr.symm.trans hst) Bool.noConfusion
      | false =>
        have hin : s.installed = t := hst.2.2.2.2
        exact ⟨.clear rfl rfl (fun _ => by omega) (hb.ctl.busy hst.2.1), rfl, rfl⟩
  | bunpin t i j =>
    simp only [Sys.run, hp] at hs
    obtain rfl := Option.some.inj hs
    exact ⟨.unpin t i j hp rfl rfl rfl, rfl, rfl⟩
  -- no other step touches what is counted
  | _ =>
    simp only [Sys.run, hp] at hs
    obtain rfl := Option.some.inj hs
    exact ⟨.same rfl rfl rfl, rfl, rfl⟩

theorem run_reserved (hb : BookInv start s) (h : Reserved s) (hs : s.run start p = some s') :
    Reserved s' := by
  obtain ⟨hlog, hop, -⟩ := run_log hb hs
  intro hr'
  rw [hop]
  have hempty : ∀ l : List Nat, l = [] → (∀ q, s.op q = none) →
      l.length + ∑ q, reserve (s.op q) ≤ LOGBLOCKS := by
    intro l hl hnone
    rw [hl, sum_reserve_none hnone]
    exact Nat.zero_le _
  cases hlog with
  | same hlh _ hr =>
    rw [hlh]
    exact h (hr ▸ hr')
  | read hr _ => simp_all
  | unpin t i j _ hlh _ hr =>
    rw [hlh]
    exact h (hr ▸ hr')
  | clear hlh _ _ hnone => exact hempty _ hlh hnone
  | ready hr hlh => exact hempty _ hlh (hb.ctl.booting hr).2

/-- An operation that ends gives back what it had reserved. -/
theorem sum_reserve_end (h : s.lh.length + ∑ q, reserve (s.op q) ≤ LOGBLOCKS) (p : P) :
    s.lh.length + ∑ q, reserve (Function.update s.op p none q) ≤ LOGBLOCKS := by
  have hsum := sum_reserve_update s.op p none
  rw [reserve_none] at hsum
  omega

/-- A call keeps the reservation. -/
theorem call_reserved {a : Label P} (hb : BookInv start s) (h : Reserved s) (hr : s.ready = true)
    (hok : Within s a) (hs : CallStep s a s') : Reserved s' := by
  have h := h hr
  cases hs with
  | beginOp p hop hcom hroom =>
    intro _
    have hsum := sum_reserve_update s.op p (some ⟨s.nextOp, [], 0⟩)
    have hle := sum_reserve_le s.op
    rw [← hb.ctl.count] at hle
    rw [hop] at hsum
    simp only [reserve_some, reserve_none] at hsum
    change s.lh.length + ∑ q, reserve (Function.update s.op p _ q) ≤ LOGBLOCKS
    rw [Nat.add_mul] at hroom
    omega
  | bread p b =>
    intro _
    unfold Sys.bget
    split
    · exact h
    · split
      · exact h
      · exact h
  | modify p i d hop hl => exact fun _ => h
  | tooBig p o i ho hl hbig => exact fun _ => h
  | outside p o i ho hout hroom => exact fun _ => h
  | absorb p o i ho hl hmem hroom =>
    intro _
    have hsum := sum_reserve_update s.op p (some (o.log (s.buf i).blockno))
    have hlog : (o.log (s.buf i).blockno).added = o.added := rfl
    rw [ho, reserve_some, reserve_some, hlog] at hsum
    change s.lh.length + ∑ q, reserve (Function.update s.op p _ q) ≤ LOGBLOCKS
    omega
  | add p o i ho hl hmem hroom =>
    intro _
    have hadd : o.added < MAXOPBLOCKS := (hok o ho).resolve_left hmem
    have hsum := sum_reserve_update s.op p
      (some { o.log (s.buf i).blockno with added := o.added + 1 })
    have hone : reserve (some { o.log (s.buf i).blockno with added := o.added + 1 })
        = MAXOPBLOCKS - (o.added + 1) := rfl
    rw [ho, reserve_some, hone] at hsum
    change (s.lh ++ [(s.buf i).blockno]).length
      + ∑ q, reserve (Function.update s.op p _ q) ≤ LOGBLOCKS
    rw [List.length_append, List.length_singleton]
    omega
  | brelse p i hl => exact fun _ => h
  | endPanic p hop hcom => exact fun _ => sum_reserve_end h p
  | endLast p hop hcom hz => exact fun _ => sum_reserve_end h p
  | endOther p hop hcom hz => exact fun _ => sum_reserve_end h p

theorem step_reserved {a : Label P} (hb : BookInv start s) (h : Reserved s) (hok : Within s a)
    (hs : step start s a = some s') : Reserved s' := by
  obtain ⟨p, -, rfl⟩ | ⟨p, -, -, hrun⟩ | ⟨-, hr, -, hcall⟩ := step_cases hs
  · exact fun hr => Bool.noConfusion hr
  · exact run_reserved hb h hrun
  · exact call_reserved hb h hr hok hcall

/-- The machine has been powered on, with any disk and any process to recover. -/
def PowerOn (start : Nat) (s : Sys P) : Prop := ∃ disk p, s = powerOn start disk p

/-! ## Pins -/

/-- Pins come from `log_write` and go by `bunpin`, one by one. -/
theorem step_pinned {a : Label P} (hb : BookInv start s) (hs : step start s a = some s') :
    s'.pinned = s.pinned ∨ (∃ p, a = .crash p) ∨
      (∃ p i, a = .logWrite p i ∧ (s.buf i).blockno ∉ s.lh ∧
        s'.lh = s.lh ++ [(s.buf i).blockno] ∧ s'.pinned = s.pinned ++ [(s.buf i).blockno]) ∨
      ∃ p t i j, a = .run p ∧ s.pc p = .bunpin t i j ∧ s.pinned = s.lh.getD t 0 :: s'.pinned := by
  obtain ⟨p, rfl, -⟩ | ⟨p, rfl, -, hrun⟩ | ⟨-, hr, -, hcall⟩ := step_cases hs
  · exact .inr (.inl ⟨p, rfl⟩)
  · have hst := hb.ctl.stage p
    have hok := hb.pc p
    obtain ⟨hlog, -⟩ := run_log hb hrun
    unfold Sys.pinned
    cases hlog with
    | same hlh hin hr =>
      rw [hlh, hin, hr]
      exact .inl rfl
    | read hr hr' =>
      rw [hr, hr']
      exact .inl rfl
    | unpin t i j hp hlh hin hr =>
      rw [hp] at hst hok
      obtain ⟨hready, -, -, -, hinst⟩ := hst
      refine .inr (.inr (.inr ⟨p, t, i, j, rfl, hp, ?_⟩))
      have ht : t < s.lh.length := hok.1
      rw [hr, hlh, hready, hin, hinst, if_pos rfl, if_pos rfl, List.drop_eq_getElem_cons ht]
      simp [ht]
    | clear hlh hr hall _ =>
      refine .inl ?_
      rw [hlh, hr, List.drop_nil]
      split
      next hready => rw [List.drop_eq_nil_of_le (hall hready)]
      next => rfl
    | ready hr hlh =>
      refine .inl ?_
      rw [hr, hlh, List.drop_nil, ite_self]
      rfl
  · cases hcall with
    | bread p b =>
      unfold Sys.bget
      split
      · exact .inl rfl
      · split
        · exact .inl rfl
        · exact .inl rfl
    | add p o i ho hl hmem hroom =>
      have hin := hb.ctl.quiet (hb.ctl.not_committing (p := p) (by rw [ho]; rfl))
      refine .inr (.inr (.inl ⟨p, i, rfl, hmem, rfl, ?_⟩))
      simp [Sys.pinned, Sys.setBuf, hr, hin]
    | _ => exact .inl rfl

/-! ## The books of the log -/

/-- What can be read off the log while it is in use. -/
structure Bookkeeping (s : Sys P) : Prop where
  room : s.lh.length + ∑ p, reserve (s.op p) ≤ LOGBLOCKS
  distinct : s.lh.Nodup
  /-- Outside `install_trans` every logged block is pinned. -/
  logged : s.installed = 0 → s.pinned = s.lh
  /-- A pinned block has a buffer of its own. -/
  pinned : ∀ b ∈ s.pinned, ∃! i, (s.buf i).caches b = true
  /-- Its count is one more than what processes hold; that of others is not. -/
  refcnt : ∀ i, (s.buf i).refcnt = (s.buf i).held + refs s.pc i
    + if (s.buf i).dev = ROOTDEV ∧ (s.buf i).blockno ∈ s.pinned then 1 else 0
  /-- A process in `commit` is there alone. -/
  commit : ∀ p, (s.pc p).stage ≠ .idle →
    s.committing = true ∧ ∀ q, (s.pc q).stage ≠ .idle → q = p
  outstanding : s.committing = true → s.outstanding = 0 ∧ ∀ p, s.op p = none
  quiet : s.committing = false → s.installed = 0
  /-- When the entries are gone from memory, so are their pins. -/
  done : ∀ p, (s.pc p).stage = .clearing ∨ (s.pc p).stage = .cleared → s.lh = [] ∧ s.pinned = []

omit [DecidableEq P] in
theorem bookkeeping_of_inv (hb : BookInv start s) (h : Reserved s) (hr : s.ready = true) :
    Bookkeeping s := by
  have hst : ∀ p, (s.pc p).stage ≠ .idle → s.committing = true := by
    intro p hp
    by_contra hc
    exact hp (hb.ctl.idle hr (by simpa using hc) p)
  refine ⟨h hr, hb.ctl.nodup hr, fun hin => ?_, fun b hbp => ?_, hb.cache.count, fun p hp => ?_,
    fun hc => ⟨?_, hb.ctl.busy hc⟩, hb.ctl.quiet, fun p hp => ?_⟩
  · simp [Sys.pinned, hr, hin]
  · obtain ⟨i, hi, -⟩ := hb.cache.pinned b hbp
    exact ⟨i, hi, fun j hj => hb.cache.uniq j i b hj hi⟩
  · exact ⟨hst p hp, fun q hq => hb.ctl.alone q p hq hp⟩
  · rw [hb.ctl.count]
    exact Finset.sum_eq_zero fun q _ => by rw [hb.ctl.busy hc q]; rfl
  · have hok := hb.ctl.stage p
    have hlh : s.lh = [] := by
      rcases hp with hp | hp
      · rw [hp] at hok
        exact hok.2.2.1
      · rw [hp] at hok
        exact hok.2.2.1
    refine ⟨hlh, ?_⟩
    simp [Sys.pinned, hlh]

theorem reach_reserved {ok : Sys P → Label P → Prop}
    (hok : ∀ s a, BookInv start s → ok s a → Within s a)
    (h : Reach (step start) ok (PowerOn start) s) : BookInv start s ∧ Reserved s := by
  have h0 : ∀ s : Sys P, PowerOn start s → BookInv start s ∧ Reserved s := by
    rintro _ ⟨disk, p, rfl⟩
    exact ⟨boot_book _ p, fun hr => Bool.noConfusion hr⟩
  refine h.inv h0 fun hinv ha hs => ⟨step_book hinv.1 hs, ?_⟩
  exact step_reserved hinv.1 hinv.2 (hok _ _ hinv.1 ha) hs

/-- **The books of the log.** In every run in which each operation adds at most
`MAXOPBLOCKS` entries, crashes and recoveries included, the log in use has room
for the reservations, its entries are distinct, each logged block has one pin,
and a commit is alone: no operation begins or logs under it. A pin comes with the
entry `log_write` adds and goes once, when `install_trans` has written the block
home. -/
theorem log_bookkeeping (h : Reach (step start) Within (PowerOn start) s) (hr : s.ready = true) :
    Bookkeeping s ∧
    (s.committing = true → ∀ q, step start s (.beginOp q) = none ∧
      ∀ i, step start s (.logWrite q i) = none) ∧
    ∀ a s', step start s a = some s' → s'.pinned = s.pinned ∨ (∃ p, a = .crash p) ∨
      (∃ p i, a = .logWrite p i ∧ (s.buf i).blockno ∉ s.lh ∧
        s'.lh = s.lh ++ [(s.buf i).blockno] ∧ s'.pinned = s.pinned ++ [(s.buf i).blockno]) ∨
      ∃ p t i j, a = .run p ∧ s.pc p = .bunpin t i j ∧ s.pinned = s.lh.getD t 0 :: s'.pinned := by
  obtain ⟨hb, hres⟩ := reach_reserved (fun _ _ _ hok => hok) h
  refine ⟨bookkeeping_of_inv hb hres hr, fun hc q => ?_, fun a s' hs => step_pinned hb hs⟩
  have hnone := hb.ctl.busy hc q
  constructor
  · simp [step, Sys.call, Sys.beginOp, hc]
  · intro i
    simp [step, Sys.call, hnone]

/-! ## Schedules -/

/-- `recover_from_log` with an empty log. -/
def recoverRun (p : Slot) : List (Label Slot) := List.replicate 11 (.run p)

/-- Process `p` changes block `b` in buffer `i` and logs it. -/
def logBlock (p : Slot) (b : Nat) (i : BufId) : List (Label Slot) :=
  [.bread p b, .run p, .modify p i fun _ => 7, .logWrite p i, .brelse p i, .run p]

/-- Ten blocks from `100 + k` on, in the buffers from `k + 1` on. -/
def logTen (p : Slot) (k : Nat) : List (Label Slot) :=
  (List.range MAXOPBLOCKS).flatMap fun j => logBlock p (100 + k + j) (Fin.ofNat NBUF (k + j + 1))

/-- An empty disk, with the log at block 2. -/
def blank : Sys Slot := powerOn 2 (fun _ _ => 0) 0

theorem log_bookkeeping_one :
    ∃ s, Reach (step 2) Within (PowerOn 2) s ∧ s.lh = [100] ∧ (s.buf 1).refcnt = 1 ∧
      s.lh.length + ∑ p : Slot, reserve (s.op p) ≤ LOGBLOCKS := by
  have hobs : (runFrom (guarded (step 2) Within) blank
      (recoverRun 0 ++ [.beginOp 0] ++ logBlock 0 100 1)).map
        (fun s => (s.ready, s.lh, (s.buf 1).refcnt)) = some (true, [100], 1) := by
    decide +kernel
  obtain ⟨s, hs, hobs⟩ := Option.map_eq_some_iff.mp hobs
  obtain ⟨hready, hobs⟩ := Prod.mk.inj hobs
  obtain ⟨hlh, href⟩ := Prod.mk.inj hobs
  obtain ⟨hok, hrun⟩ := runFrom_guarded _ hs
  have hreach : Reach (step 2) Within (PowerOn 2) s := .of_run _ (.start ⟨_, _, rfl⟩) hok hrun
  exact ⟨s, hreach, hlh, href, (log_bookkeeping hreach hready).1.room⟩

end Xv6.Log
