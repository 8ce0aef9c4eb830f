import Xv6.Log.Cache

/-!
# What a process inside `log.c` knows

Where `commit` and `recover_from_log` are is a `Stage`: how many blocks of the log
are written, how many are installed and how many of those are unpinned. At most
one process is in a stage other than `idle`. While it is, no operation is in
progress: `begin_op` waits for `committing`, and the commit started when the last
operation ended. So the entries of the log stand still under `commit`, although it
runs without the lock.

`Pc.Ok` is what the process itself knows at each place: which block its next
buffer is for, and which buffers it has locked.
-/

namespace Xv6.Log

open Lib

variable {P : Type}

inductive Stage
  | idle
  /-- The first `t` blocks of the log are written. -/
  | logging (t : Nat)
  /-- All are, and the header is next. -/
  | logged
  /-- `t` blocks are installed and `u` of them are unpinned. -/
  | installing (t u : Nat)
  | clearing
  | cleared
  | reading
  | reinstalling (t : Nat)
  | reclearing
  | recleared
  deriving DecidableEq

def Want.stage : Want → Stage
  | .user => .idle
  | .logTo t | .logFrom t _ => .logging t
  | .head .commit => .logged
  | .head .clear => .clearing
  | .head .recover => .reclearing
  | .instLog false t | .instDst false t _ => .installing t t
  | .instLog true t | .instDst true t _ => .reinstalling t
  | .readHead => .reading

def After.stage : After → Stage
  | .user => .idle
  | .logTo t _ => .logging (t + 1)
  | .logLoop t => .logging t
  | .head .commit => .installing 0 0
  | .head .clear => .cleared
  | .head .recover => .recleared
  | .instDst false t _ => .installing (t + 1) (t + 1)
  | .instLoop false t => .installing t t
  | .instDst true t _ => .reinstalling (t + 1)
  | .instLoop true t => .reinstalling t

def Pc.stage : Pc → Stage
  | .user => .idle
  | .bget _ k | .acquiresleep _ _ k => k.stage
  | .brelse _ k | .unref _ k => k.stage
  | .commit => .logging 0
  | .logLoop t | .writeLog t _ _ => .logging t
  | .writeHead .commit _ => .logged
  | .writeHead .clear _ => .clearing
  | .writeHead .recover _ => .reclearing
  | .readHead _ => .reading
  | .instLoop false t | .install false t _ _ => .installing t t
  | .instLoop true t | .install true t _ _ => .reinstalling t
  | .bunpin t _ _ => .installing (t + 1) t
  | .endCommit => .cleared

/-- The flags and the entries of the log in each stage. -/
def Stage.Ok (ready committing : Bool) (lh : List Nat) (installed : Nat) : Stage → Prop
  | .idle => True
  | .logging t => ready = true ∧ committing = true ∧ t ≤ lh.length ∧ installed = 0
  | .logged => ready = true ∧ committing = true ∧ installed = 0
  | .installing t u =>
    ready = true ∧ committing = true ∧ u ≤ t ∧ t ≤ lh.length ∧ installed = u
  | .clearing | .cleared => ready = true ∧ committing = true ∧ lh = [] ∧ installed = 0
  | .reading | .reinstalling _ => ready = false
  | .reclearing | .recleared => ready = false ∧ lh = []

/-- `p` has locked buffer `i`, which is for block `b`. -/
def Holds (buf : BufId → Buf P) (p : P) (i : BufId) (b : Nat) : Prop :=
  (buf i).lock = some p ∧ (buf i).blockno = b

/-- A call of `bread` that wants block `b`. -/
def Want.Ok (start : Nat) (lh : List Nat) (buf : BufId → Buf P) (p : P) (b : Nat) : Want → Prop
  | .user => True
  | .logTo t | .instLog _ t => t < lh.length ∧ b = start + t + 1
  | .logFrom t i | .instDst _ t i =>
    t < lh.length ∧ b = lh.getD t 0 ∧ Holds buf p i (start + t + 1)
  | .head _ | .readHead => b = start

/-- What is locked while `brelse` of another buffer `i` goes on. -/
def After.Ok (start : Nat) (lh : List Nat) (buf : BufId → Buf P) (p : P) (i : BufId) : After → Prop
  | .logTo t j => t < lh.length ∧ j ≠ i ∧ Holds buf p j (start + t + 1)
  | .instDst _ t j => t < lh.length ∧ j ≠ i ∧ Holds buf p j (lh.getD t 0)
  | .logLoop t | .instLoop _ t => t ≤ lh.length
  | .user | .head _ => True

def Pc.Ok (start : Nat) (lh : List Nat) (buf : BufId → Buf P) (p : P) : Pc → Prop
  | .bget b k => k.Ok start lh buf p b
  | .acquiresleep i b k => (buf i).caches b = true ∧ k.Ok start lh buf p b
  | .brelse i k => (buf i).lock = some p ∧ k ≠ .user ∧ k.Ok start lh buf p i
  | .unref i k => k.Ok start lh buf p i
  | .writeLog t i j =>
    t < lh.length ∧ i ≠ j ∧ Holds buf p i (start + t + 1) ∧ Holds buf p j (lh.getD t 0)
  | .install _ t i j | .bunpin t i j =>
    t < lh.length ∧ j ≠ i ∧ Holds buf p i (start + t + 1) ∧ Holds buf p j (lh.getD t 0)
  | .writeHead _ i | .readHead i => Holds buf p i start
  | .logLoop t | .instLoop _ t => t ≤ lh.length
  | .user | .commit | .endCommit => True

structure CtlInv [Fintype P] (ready committing : Bool) (lh : List Nat) (installed : Nat)
    (op : P → Option Op) (outstanding : Nat) (pc : P → Pc) : Prop where
  stage : ∀ p, (pc p).stage.Ok ready committing lh installed
  alone : ∀ p q, (pc p).stage ≠ .idle → (pc q).stage ≠ .idle → p = q
  busy : committing = true → ∀ p, op p = none
  booting : ready = false → committing = false ∧ ∀ p, op p = none
  quiet : committing = false → installed = 0
  count : outstanding = ∑ p, if (op p).isSome then 1 else 0
  nodup : ready = true → lh.Nodup
  room : ready = true → lh.length ≤ LOGBLOCKS

structure BookInv [Fintype P] (start : Nat) (s : Sys P) : Prop where
  cache : CacheInv s.buf s.lru s.pc s.pinned
  ctl : CtlInv s.ready s.committing s.lh s.installed s.op s.outstanding s.pc
  pc : ∀ p, (s.pc p).Ok start s.lh s.buf p

theorem Want.stage_eq_idle {k : Want} (h : k.stage = .idle) : k = .user := by
  cases k with
  | user => rfl
  | head w => cases w <;> exact Stage.noConfusion h
  | instLog r t => cases r <;> exact Stage.noConfusion h
  | instDst r t i => cases r <;> exact Stage.noConfusion h
  | _ => exact Stage.noConfusion h

theorem After.stage_eq_idle {k : After} (h : k.stage = .idle) : k = .user := by
  cases k with
  | user => rfl
  | head w => cases w <;> exact Stage.noConfusion h
  | instDst r t i => cases r <;> exact Stage.noConfusion h
  | instLoop r t => cases r <;> exact Stage.noConfusion h
  | _ => exact Stage.noConfusion h

/-- Outside `commit` and recovery a process is in `bread` or `brelse` at most. -/
theorem Pc.stage_eq_idle {c : Pc} (h : c.stage = .idle) :
    c = .user ∨ (∃ b, c = .bget b .user) ∨ (∃ i b, c = .acquiresleep i b .user) ∨
      (∃ i, c = .brelse i .user) ∨ ∃ i, c = .unref i .user := by
  cases c with
  | user => exact .inl rfl
  | bget b k => exact .inr (.inl ⟨b, by rw [Want.stage_eq_idle h]⟩)
  | acquiresleep i b k => exact .inr (.inr (.inl ⟨i, b, by rw [Want.stage_eq_idle h]⟩))
  | brelse i k => exact .inr (.inr (.inr (.inl ⟨i, by rw [After.stage_eq_idle h]⟩)))
  | unref i k => exact .inr (.inr (.inr (.inr ⟨i, by rw [After.stage_eq_idle h]⟩)))
  | writeHead w i => cases w <;> exact Stage.noConfusion h
  | instLoop r t => cases r <;> exact Stage.noConfusion h
  | install r t i j => cases r <;> exact Stage.noConfusion h
  | _ => exact Stage.noConfusion h

/-! ## What the steps of others leave to a process -/

/-- What process `q` relies on in the buffers when it is at `c`. -/
def Keep (buf buf' : BufId → Buf P) (q : P) (c : Pc) : Prop :=
  ∀ i, ((buf i).lock = some q → (buf' i).lock = some q ∧ (buf' i).blockno = (buf i).blockno) ∧
    (c.ref = some i → ∀ b, (buf i).caches b = true → (buf' i).caches b = true)

theorem Keep.refl (buf : BufId → Buf P) (q : P) (c : Pc) : Keep buf buf q c :=
  fun _ => ⟨fun h => ⟨h, rfl⟩, fun _ _ h => h⟩

theorem Keep.holds {buf buf' : BufId → Buf P} {q : P} {c : Pc} (h : Keep buf buf' q c) {i : BufId}
    {b : Nat} (hi : Holds buf q i b) : Holds buf' q i b :=
  ⟨((h i).1 hi.1).1, ((h i).1 hi.1).2.trans hi.2⟩

/-- One buffer changes, keeps its block, and stays locked by `q` if it was. -/
theorem Keep.update {buf : BufId → Buf P} {q : P} {c : Pc} {i : BufId} {x : Buf P}
    (hd : x.dev = (buf i).dev) (hb : x.blockno = (buf i).blockno)
    (hl : (buf i).lock = some q → x.lock = some q) : Keep buf (Function.update buf i x) q c := by
  intro j
  by_cases hj : j = i
  · subst hj
    rw [Function.update_self]
    refine ⟨fun h => ⟨hl h, hb⟩, fun _ b h => ?_⟩
    rw [Buf.caches_iff] at h ⊢
    rwa [hd, hb]
  · rw [Function.update_of_ne hj]
    exact ⟨fun h => ⟨h, rfl⟩, fun _ _ h => h⟩

/-- An unused buffer is nobody's. -/
theorem Keep.recycle [Fintype P] {buf : BufId → Buf P} {lru : List BufId} {pc : P → Pc}
    {pins : List Nat} (h : CacheInv buf lru pc pins) {i : BufId} (hi : (buf i).refcnt = 0)
    (x : Buf P) (q : P) : Keep buf (Function.update buf i x) q (pc q) := by
  intro j
  by_cases hj : j = i
  · subst hj
    refine ⟨fun hl => ?_, fun hr => ?_⟩
    · have := h.refcnt_pos (.inl ⟨q, hl⟩)
      omega
    · have := h.refcnt_pos (.inr (.inl ⟨q, hr⟩))
      omega
  · rw [Function.update_of_ne hj]
    exact ⟨fun h => ⟨h, rfl⟩, fun _ _ h => h⟩

section Keeps

variable {start : Nat} {lh : List Nat} {buf buf' : BufId → Buf P} {q : P} {c : Pc}

theorem Want.Ok.keep {b : Nat} {k : Want} (h : k.Ok start lh buf q b) (hk : Keep buf buf' q c) :
    k.Ok start lh buf' q b := by
  cases k with
  | user => exact trivial
  | logTo t => exact h
  | instLog _ t => exact h
  | logFrom t i => exact ⟨h.1, h.2.1, hk.holds h.2.2⟩
  | instDst _ t i => exact ⟨h.1, h.2.1, hk.holds h.2.2⟩
  | head w => exact h
  | readHead => exact h

theorem After.Ok.keep {i : BufId} {k : After} (h : k.Ok start lh buf q i) (hk : Keep buf buf' q c) :
    k.Ok start lh buf' q i := by
  cases k with
  | user => exact trivial
  | logTo t j => exact ⟨h.1, h.2.1, hk.holds h.2.2⟩
  | instDst _ t j => exact ⟨h.1, h.2.1, hk.holds h.2.2⟩
  | logLoop t => exact h
  | instLoop _ t => exact h
  | head w => exact trivial

/-- What a process knows survives the steps of the others. -/
theorem Pc.Ok.keep (h : c.Ok start lh buf q) (hk : Keep buf buf' q c) : c.Ok start lh buf' q := by
  cases c with
  | user => exact trivial
  | bget b k => exact Want.Ok.keep h hk
  | acquiresleep i b k => exact ⟨(hk i).2 rfl b h.1, h.2.keep hk⟩
  | brelse i k => exact ⟨((hk i).1 h.1).1, h.2.1, h.2.2.keep hk⟩
  | unref i k => exact After.Ok.keep h hk
  | commit => exact trivial
  | logLoop t => exact h
  | writeLog t i j => exact ⟨h.1, h.2.1, hk.holds h.2.2.1, hk.holds h.2.2.2⟩
  | writeHead w i => exact hk.holds h
  | readHead i => exact hk.holds h
  | instLoop r t => exact h
  | install r t i j => exact ⟨h.1, h.2.1, hk.holds h.2.2.1, hk.holds h.2.2.2⟩
  | bunpin t i j => exact ⟨h.1, h.2.1, hk.holds h.2.2.1, hk.holds h.2.2.2⟩
  | endCommit => exact trivial

/-- A process outside `log.c` does not look at the entries of the log. -/
theorem Pc.Ok.idle {lh' : List Nat} (h : c.Ok start lh buf q) (hc : c.stage = .idle) :
    c.Ok start lh' buf q := by
  rcases Pc.stage_eq_idle hc with rfl | ⟨b, rfl⟩ | ⟨i, b, rfl⟩ | ⟨i, rfl⟩ | ⟨i, rfl⟩
  · exact trivial
  · exact trivial
  · exact h
  · exact h
  · exact trivial

end Keeps

/-! ## The flags -/

/-- All but one are outside `log.c`. -/
theorem alone_of_idle {pc : P → Pc} {p : P} (h : ∀ q, q ≠ p → (pc q).stage = .idle) :
    ∀ q r, (pc q).stage ≠ .idle → (pc r).stage ≠ .idle → q = r := by
  have hp : ∀ q, (pc q).stage ≠ .idle → q = p := by
    intro q hq
    by_contra hne
    exact hq (h q hne)
  intro q r hq hr
  rw [hp q hq, hp r hr]

namespace CtlInv

variable [Fintype P] [DecidableEq P] {ready committing : Bool} {lh : List Nat} {installed : Nat}
  {op : P → Option Op} {outstanding : Nat} {pc : P → Pc} {p : P}

omit [DecidableEq P] in
/-- Outside a commit, with the log recovered, everybody is outside `log.c`. -/
theorem idle (h : CtlInv ready committing lh installed op outstanding pc) (hr : ready = true)
    (hc : committing = false) (q : P) : (pc q).stage = .idle := by
  have hq := h.stage q
  cases hs : (pc q).stage with
  | idle => rfl
  | _ => simp_all [Stage.Ok]

omit [DecidableEq P] in
/-- While one process is in `log.c`, the others are not. -/
theorem others {q : P} (h : CtlInv ready committing lh installed op outstanding pc)
    (hp : (pc p).stage ≠ .idle) (hq : q ≠ p) : (pc q).stage = .idle := by
  by_contra hs
  exact hq (h.alone q p hs hp)

/-- The flags and entries stay, and one process moves. -/
theorem move (h : CtlInv ready committing lh installed op outstanding pc) {c : Pc}
    (hc : c.stage.Ok ready committing lh installed)
    (hidle : c.stage ≠ .idle → (pc p).stage ≠ .idle) :
    CtlInv ready committing lh installed op outstanding (Function.update pc p c) := by
  have hne : ∀ q, (Function.update pc p c q).stage ≠ .idle → (pc q).stage ≠ .idle := by
    intro q hq
    by_cases hqp : q = p
    · subst hqp
      rw [Function.update_self] at hq
      exact hidle hq
    · rwa [Function.update_of_ne hqp] at hq
  refine ⟨fun q => ?_, fun q r hq hr => h.alone q r (hne q hq) (hne r hr), h.busy, h.booting,
    h.quiet, h.count, h.nodup, h.room⟩
  by_cases hqp : q = p
  · subst hqp
    rw [Function.update_self]
    exact hc
  · rw [Function.update_of_ne hqp]
    exact h.stage q

/-- The one process in `log.c` moves, and flags or entries change with it. -/
theorem turn {ready' committing' : Bool} {lh' : List Nat} {installed' : Nat}
    (h : CtlInv ready committing lh installed op outstanding pc)
    (hp : (pc p).stage ≠ .idle) {c : Pc}
    (hc : c.stage.Ok ready' committing' lh' installed') (hop : ∀ q, op q = none)
    (hb : ready' = false → committing' = false) (hq : committing' = false → installed' = 0)
    (hn : ready' = true → lh'.Nodup) (hr : ready' = true → lh'.length ≤ LOGBLOCKS) :
    CtlInv ready' committing' lh' installed' op outstanding (Function.update pc p c) := by
  have hidle : ∀ q, q ≠ p → (Function.update pc p c q).stage = .idle := by
    intro q hqp
    rw [Function.update_of_ne hqp]
    exact h.others hp hqp
  refine ⟨fun q => ?_, alone_of_idle hidle, fun _ => hop, fun hb' => ⟨hb hb', hop⟩, hq, h.count,
    hn, hr⟩
  · by_cases hqp : q = p
    · subst hqp
      rw [Function.update_self]
      exact hc
    · rw [hidle q hqp]
      exact trivial

end CtlInv

end Xv6.Log
