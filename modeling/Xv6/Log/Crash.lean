import Xv6.Lib.Replay
import Xv6.Log.Budget

/-!
# A crash loses whole groups or nothing

`write_head` is the commit: before it the header on disk is empty and recovery
does nothing, after it recovery copies the log home. The argument is one
invariant on the disk alone, `DiskInv`, which reads the header that is there:

> block `j` of the log holds what the `j`-th block of the header should hold, and
> a home block that is not in the header holds what it should

"Should" is what the committed groups of writes, replayed over the first disk,
make of a block. A crash changes no disk block, so it keeps `DiskInv`; so does
every write of `write_log` (the header is empty), of `install_trans` (the block is
in the header), and of `recover_from_log`, which writes what `install_trans`
writes. `write_head` is the one write that changes what blocks should hold.

In memory, a valid buffer that nobody is about to log holds the block as the
operations so far have made it (`cur`), or as it is on disk for a block of the
log. A pinned block is the one kind of home block that differs on disk, and a
pinned buffer is not recycled: that is why nothing is read back too early.
-/

namespace Xv6.Log

open Lib

variable {P : Type}

/-- A block outside the log region. -/
def Home (start b : Nat) : Prop := b < start ∨ start + LOGBLOCKS < b

instance (start b : Nat) : Decidable (Home start b) :=
  inferInstanceAs (Decidable (b < start ∨ start + LOGBLOCKS < b))

def Write.entry (w : Write) : Nat × Block := (w.blockno, w.data)

/-- What groups of writes make of a disk. -/
def produced (groups : List (List Write)) (d : Nat → Block) : Nat → Block :=
  replay (groups.flatten.map Write.entry) d

/-- The blocks as the operations so far have made them. -/
def Sys.cur (s : Sys P) (base : Nat → Block) : Nat → Block :=
  replay (s.pend.map Write.entry) (produced s.groups base)

/-- The disk holds `base`, home or through its log. -/
structure DiskInv (start : Nat) (base disk : Nat → Block) : Prop where
  log : ∀ j, j < (disk start).head.length →
    disk (start + j + 1) = base ((disk start).head.getD j 0)
  home : ∀ b, Home start b → b ∉ (disk start).head → disk b = base b
  mem : ∀ b ∈ (disk start).head, Home start b
  room : (disk start).head.length ≤ LOGBLOCKS

/-- The disk in each stage of `commit` and recovery. -/
def Stage.OnDisk (start : Nat) (base cur disk : Nat → Block) (lh : List Nat) (pend : List Write) :
    Stage → Prop
  | .idle => True
  | .logging t => (disk start).head = [] ∧ ∀ j, j < t → disk (start + j + 1) = cur (lh.getD j 0)
  | .logged =>
    (disk start).head = [] ∧ ∀ j, j < lh.length → disk (start + j + 1) = cur (lh.getD j 0)
  | .installing t _ =>
    (disk start).head = lh ∧ pend = [] ∧ ∀ j, j < t → disk (lh.getD j 0) = base (lh.getD j 0)
  | .clearing => pend = [] ∧ ∀ b, Home start b → disk b = base b
  | .cleared => (disk start).head = [] ∧ pend = []
  | .reading => True
  | .reinstalling t =>
    (disk start).head = lh ∧ ∀ j, j < t → disk (lh.getD j 0) = base (lh.getD j 0)
  | .reclearing => ∀ b, Home start b → disk b = base b
  | .recleared => (disk start).head = []

structure CrashInv (start : Nat) (base : Nat → Block) (s : Sys P) : Prop where
  disk : DiskInv start (produced s.groups base) s.disk
  buf : ∀ i b, (s.buf i).caches b = true → (s.buf i).valid = true → (s.buf i).dirty = false →
    (s.buf i).data = if s.ready = true ∧ Home start b then s.cur base b else s.disk b
  dirty : ∀ i, (s.buf i).dirty = true → ∃ p, (s.buf i).lock = some p ∧ (s.op p).isSome = true
  clean : s.ready = true → ∀ b, Home start b → b ∉ s.pinned → s.disk b = s.cur base b
  lh : s.ready = true → ∀ b ∈ s.lh, Home start b
  pend : ∀ w ∈ s.pend, w.blockno ∈ s.lh
  idle : s.ready = true → s.committing = false → (s.disk start).head = []
  boot : s.ready = false → s.pend = []
  stage : ∀ p, (s.pc p).stage.OnDisk start (produced s.groups base) (s.cur base) s.disk s.lh s.pend

/-- Operations change cached blocks only through `log_write`, and never log a block
of the log region. -/
def Logs (start : Nat) (s : Sys P) : Label P → Prop
  | .logWrite _ i => Home start (s.buf i).blockno
  | .brelse _ i => (s.buf i).dirty = false
  | .endOp p => ∀ i, (s.buf i).lock = some p → (s.buf i).dirty = false
  | _ => True

/-! ## The header block -/

theorem Block.head_setHead (d : Block) {lh : List Nat} (h : lh.length ≤ LOGBLOCKS) :
    (d.setHead lh).head = lh := by
  have hw : LOGBLOCKS + 1 < NWORD := by decide
  have h0 : (d.setHead lh).word 0 = lh.length := by
    simp [word, setHead, NWORD]
  have hj : ∀ j (hj : j < lh.length), (d.setHead lh).word (j + 1) = lh[j] := by
    intro j hj
    have hlt : j + 1 < NWORD := by omega
    simp [word, setHead, hlt, hj]
  unfold head
  rw [h0]
  refine List.ext_getElem (by simp) fun j hj₁ hj₂ => ?_
  rw [List.getElem_map, List.getElem_range]
  exact hj j hj₂

theorem not_home_start (start : Nat) : ¬ Home start start := by
  unfold Home
  omega

theorem not_home_log {start t : Nat} (h : t < LOGBLOCKS) : ¬ Home start (start + t + 1) := by
  unfold Home
  omega

theorem produced_snoc (groups : List (List Write)) (g : List Write) (d : Nat → Block) :
    produced (groups ++ [g]) d = replay (g.map Write.entry) (produced groups d) := by
  unfold produced
  rw [List.flatten_append, List.map_append, replay_append, List.flatten_singleton]

/-- Nothing pending: the blocks are what the committed groups made them. -/
theorem Sys.cur_of_pend {s : Sys P} (h : s.pend = []) (base : Nat → Block) :
    s.cur base = produced s.groups base := by
  unfold cur
  rw [h]
  rfl

/-! ## Writes to the disk -/

namespace DiskInv

variable {start b : Nat} {base base' disk : Nat → Block} {d : Block}

/-- A block of the log may hold anything while the header is empty. -/
theorem write_log (h : DiskInv start base disk) (hempty : (disk start).head = [])
    (hb : b ≠ start) (hnot : ¬ Home start b) : DiskInv start base (Function.update disk b d) := by
  have hhead : (Function.update disk b d start).head = [] := by
    rw [Function.update_of_ne hb.symm, hempty]
  refine ⟨fun j hj => ?_, fun c hc _ => ?_, fun c hc => ?_, ?_⟩
  · rw [hhead] at hj
    exact absurd hj (Nat.not_lt_zero j)
  · have hcb : c ≠ b := by
      rintro rfl
      exact hnot hc
    rw [Function.update_of_ne hcb]
    exact h.home c hc (by rw [hempty]; exact List.not_mem_nil)
  · rw [hhead] at hc
    exact absurd hc List.not_mem_nil
  · rw [hhead]
    exact Nat.zero_le _

/-- `install_trans` writes what the block should hold. -/
theorem write_home (h : DiskInv start base disk) (hb : b ∈ (disk start).head) :
    DiskInv start base (Function.update disk b d) := by
  have hhome := h.mem b hb
  have hne : start ≠ b := by
    rintro rfl
    exact not_home_start _ hhome
  have hhead : (Function.update disk b d start).head = (disk start).head := by
    rw [Function.update_of_ne hne]
  refine ⟨fun j hj => ?_, fun c hc hcm => ?_, fun c hc => ?_, ?_⟩
  · rw [hhead] at hj ⊢
    have hjb : start + j + 1 ≠ b := by
      rintro rfl
      exact not_home_log (by have := h.room; omega) hhome
    rw [Function.update_of_ne hjb]
    exact h.log j hj
  · rw [hhead] at hcm
    have hcb : c ≠ b := by
      rintro rfl
      exact hcm hb
    rw [Function.update_of_ne hcb]
    exact h.home c hc hcm
  · rw [hhead] at hc
    exact h.mem c hc
  · rw [hhead]
    exact h.room

/-- The header is written. -/
theorem write_head {lh : List Nat} (hroom : lh.length ≤ LOGBLOCKS) (hmem : ∀ c ∈ lh, Home start c)
    (hlog : ∀ j, j < lh.length → disk (start + j + 1) = base' (lh.getD j 0))
    (hhome : ∀ c, Home start c → c ∉ lh → disk c = base' c) :
    DiskInv start base' (Function.update disk start (d.setHead lh)) := by
  have hhead : (Function.update disk start (d.setHead lh) start).head = lh := by
    rw [Function.update_self, Block.head_setHead d hroom]
  refine ⟨fun j hj => ?_, fun c hc hcm => ?_, fun c hc => ?_, ?_⟩
  · rw [hhead] at hj ⊢
    rw [Function.update_of_ne (by omega)]
    exact hlog j hj
  · rw [hhead] at hcm
    have hcs : c ≠ start := by
      rintro rfl
      exact not_home_start _ hc
    rw [Function.update_of_ne hcs]
    exact hhome c hc hcm
  · rw [hhead] at hc
    exact hmem c hc
  · rw [hhead]
    exact hroom

end DiskInv

/-! ## Steps -/

section Step

variable [Fintype P] [DecidableEq P] {start : Nat} {base : Nat → Block} {s s' : Sys P} {p : P}

omit [DecidableEq P] in
theorem BookInv.holds_caches (hb : BookInv start s) {i : BufId} {b : Nat}
    (h : Holds s.buf p i b) : (s.buf i).caches b = true :=
  Buf.caches_iff.mpr ⟨(hb.cache.locked i p h.1).1, h.2⟩

omit [Fintype P] [DecidableEq P] in
/-- A step that writes no block and logs none. -/
theorem CrashInv.frame (h : CrashInv start base s) (hdisk : s'.disk = s.disk)
    (hgroups : s'.groups = s.groups) (hpend : s'.pend = s.pend) (hready : s'.ready = s.ready)
    (hlh : s'.lh = s.lh) (hpins : s'.pinned = s.pinned) (hcom : s'.committing = s.committing)
    (hbuf : ∀ i b, (s'.buf i).caches b = true → (s'.buf i).valid = true →
      (s'.buf i).dirty = false →
      (s'.buf i).data = if s.ready = true ∧ Home start b then s.cur base b else s.disk b)
    (hdirty : ∀ i, (s'.buf i).dirty = true →
      ∃ p, (s'.buf i).lock = some p ∧ (s'.op p).isSome = true)
    (hpc : ∀ q, q ≠ p → s'.pc q = s.pc q)
    (hp : (s'.pc p).stage.OnDisk start (produced s.groups base) (s.cur base) s.disk s.lh s.pend) :
    CrashInv start base s' := by
  have hcur : s'.cur base = s.cur base := by
    unfold Sys.cur
    rw [hpend, hgroups]
  refine ⟨?_, ?_, hdirty, ?_, ?_, ?_, ?_, ?_, fun q => ?_⟩
  · rw [hgroups, hdisk]
    exact h.disk
  · rw [hready, hcur, hdisk]
    exact hbuf
  · rw [hready, hpins, hdisk, hcur]
    exact h.clean
  · rw [hready, hlh]
    exact h.lh
  · rw [hpend, hlh]
    exact h.pend
  · rw [hready, hcom, hdisk]
    exact h.idle
  · rw [hready, hpend]
    exact h.boot
  · rw [hgroups, hcur, hdisk, hlh, hpend]
    by_cases hq : q = p
    · subst hq
      exact hp
    · rw [hpc q hq]
      exact h.stage q

omit [Fintype P] [DecidableEq P] in
/-- One buffer changes in its count or its lock. -/
theorem CrashInv.buf_update (h : CrashInv start base s) {i : BufId} {x : Buf P}
    (hx : x.valid = true → x.dev = (s.buf i).dev ∧ x.blockno = (s.buf i).blockno ∧
      x.data = (s.buf i).data ∧ x.dirty = (s.buf i).dirty ∧ (s.buf i).valid = true)
    (j : BufId) (b : Nat) (hc : (Function.update s.buf i x j).caches b = true)
    (hv : (Function.update s.buf i x j).valid = true)
    (hd : (Function.update s.buf i x j).dirty = false) :
    (Function.update s.buf i x j).data
      = if s.ready = true ∧ Home start b then s.cur base b else s.disk b := by
  by_cases hj : j = i
  · subst hj
    rw [Function.update_self] at hc hv hd ⊢
    obtain ⟨hdev, hblk, hdata, hdirty, hvalid⟩ := hx hv
    rw [Buf.caches_iff, hdev, hblk] at hc
    rw [hdata]
    exact h.buf j b (Buf.caches_iff.mpr hc) hvalid (hdirty ▸ hd)
  · rw [Function.update_of_ne hj] at hc hv hd ⊢
    exact h.buf j b hc hv hd

omit [Fintype P] [DecidableEq P] in
/-- One buffer changes, and is not dirty or stays with its owner. -/
theorem CrashInv.dirty_update (h : CrashInv start base s) {i : BufId} {x : Buf P}
    (hx : x.dirty = true → (s.buf i).dirty = true ∧ x.lock = (s.buf i).lock) (j : BufId)
    (hj : (Function.update s.buf i x j).dirty = true) :
    ∃ p, (Function.update s.buf i x j).lock = some p ∧ (s.op p).isSome = true := by
  by_cases hji : j = i
  · subst hji
    rw [Function.update_self] at hj ⊢
    obtain ⟨hd, hl⟩ := hx hj
    rw [hl]
    exact h.dirty j hd
  · rw [Function.update_of_ne hji] at hj ⊢
    exact h.dirty j hj

omit [Fintype P] in
/-- `bget` reads nothing yet. -/
theorem CrashInv.bget (h : CrashInv start base s) {b : Nat} {k : Want}
    (hstage : (s.pc p).stage = k.stage) : CrashInv start base (s.bget p b k) := by
  have hst := h.stage p
  rw [hstage] at hst
  unfold Sys.bget
  split
  next i hi =>
    refine h.frame (p := p) rfl rfl rfl rfl rfl rfl rfl
      (h.buf_update fun hv => ⟨rfl, rfl, rfl, rfl, hv⟩) (h.dirty_update fun hd => ⟨hd, rfl⟩)
      (fun q hq => Sys.goto_ne _ _ hq) ?_
    rw [Sys.goto_self]
    exact hst
  next =>
    split
    next i hi =>
      refine h.frame (p := p) rfl rfl rfl rfl rfl rfl rfl
        (h.buf_update fun hv => Bool.noConfusion hv) (h.dirty_update fun hd => Bool.noConfusion hd)
        (fun q hq => Sys.goto_ne _ _ hq) ?_
      rw [Sys.goto_self]
      exact hst
    next =>
      refine h.frame (p := p) rfl rfl rfl rfl rfl rfl rfl h.buf h.dirty
        (fun q hq => Sys.goto_ne _ _ hq) ?_
      change ((s.goto p (.bget b k)).pc p).stage.OnDisk _ _ _ _ _ _
      rw [Sys.goto_self]
      exact hst

/-- `bread` reads a block from the disk only if it is not pinned, and then the
disk has what the operations have made of it. -/
theorem CrashInv.lockBuf (hb : BookInv start s) (h : CrashInv start base s) {i : BufId} {b : Nat}
    {k : Want} (hp : s.pc p = .acquiresleep i b k) (hl : (s.buf i).lock = none) :
    CrashInv start base ((s.lockBuf p i).goto p (s.resume i k)) := by
  have hok := hb.pc p
  have hst := h.stage p
  rw [hp] at hok hst
  obtain ⟨hci, -⟩ := hok
  have hclean : (s.buf i).dirty = false := by
    by_contra hd
    obtain ⟨q, hq, -⟩ := h.dirty i (by simpa using hd)
    rw [hl] at hq
    exact absurd hq.symm (Option.some_ne_none q)
  refine h.frame (p := p) rfl rfl rfl rfl rfl rfl rfl (fun j c hc hv hd => ?_)
    (h.dirty_update fun hd => ?_) (fun q hq => Sys.goto_ne _ _ hq) ?_
  · by_cases hj : j = i
    · subst hj
      change ((s.lockBuf p j).buf j).caches c = true at hc
      change ((s.lockBuf p j).buf j).data = _
      rw [Sys.lockBuf, Sys.setBuf_self] at hc ⊢
      have hc : (s.buf j).caches c = true := hc
      have hcb : c = b := (Buf.caches_iff.mp hc).2.symm.trans (Buf.caches_iff.mp hci).2
      subst hcb
      change (if (s.buf j).valid = true then (s.buf j).data else s.disk (s.buf j).blockno) = _
      split
      next hvalid => exact h.buf j c hc hvalid hclean
      next hvalid =>
        rw [(Buf.caches_iff.mp hc).2]
        split
        next hhome =>
          refine h.clean hhome.1 c hhome.2 fun hpin => hvalid ?_
          obtain ⟨x, hx, hxv⟩ := hb.cache.pinned c hpin
          rwa [hb.cache.uniq x j c hx hc] at hxv
        next => rfl
    · change ((s.lockBuf p i).buf j).caches c = true at hc
      change ((s.lockBuf p i).buf j).valid = true at hv
      change ((s.lockBuf p i).buf j).dirty = false at hd
      change ((s.lockBuf p i).buf j).data = _
      rw [Sys.lockBuf, Sys.setBuf_ne _ _ hj] at hc hv hd ⊢
      exact h.buf j c hc hv hd
  · exact absurd (hclean.symm.trans hd) Bool.noConfusion
  · rw [Sys.goto_self, resume_stage]
    exact hst

omit [Fintype P] [DecidableEq P] in
/-- A dirty buffer belongs to an operation in progress. -/
theorem CrashInv.not_dirty (h : CrashInv start base s) (hop : ∀ q, s.op q = none) (i : BufId) :
    (s.buf i).dirty = false := by
  by_contra hd
  obtain ⟨q, -, hq⟩ := h.dirty i (by simpa using hd)
  rw [hop q] at hq
  exact Bool.noConfusion hq

omit [DecidableEq P] in
/-- The buffers after `bwrite`: disk and buffer change together, and for a home
block in use the data is what the operations have made of it. -/
theorem CrashInv.bwrite_buf (hb : BookInv start s) (h : CrashInv start base s) {i : BufId} {b : Nat}
    (hi : (s.buf i).caches b = true) {d : Block}
    (hd : s.ready = true ∧ Home start b → d = s.cur base b)
    (j : BufId) (c : Nat) (hc : ((s.bwrite i d).buf j).caches c = true)
    (hv : ((s.bwrite i d).buf j).valid = true) (hdirty : ((s.bwrite i d).buf j).dirty = false) :
    ((s.bwrite i d).buf j).data
      = if s.ready = true ∧ Home start c then s.cur base c else (s.bwrite i d).disk c := by
  have hblk := (Buf.caches_iff.mp hi).2
  have hdisk : (s.bwrite i d).disk = Function.update s.disk b d := by
    unfold Sys.bwrite
    rw [hblk]
  rw [hdisk]
  by_cases hj : j = i
  · subst hj
    change ((s.setBuf j _).buf j).caches c = true at hc
    change ((s.setBuf j _).buf j).data = _
    rw [Sys.setBuf_self] at hc ⊢
    have hc : (s.buf j).caches c = true := hc
    have hcb : c = b := (Buf.caches_iff.mp hc).2.symm.trans hblk
    subst hcb
    rw [Function.update_self]
    split
    next hhome => exact hd hhome
    next => rfl
  · change ((s.setBuf i _).buf j).caches c = true at hc
    change ((s.setBuf i _).buf j).valid = true at hv
    change ((s.setBuf i _).buf j).dirty = false at hdirty
    change ((s.setBuf i _).buf j).data = _
    rw [Sys.setBuf_ne _ _ hj] at hc hv hdirty ⊢
    have hcb : c ≠ b := by
      rintro rfl
      exact hj (hb.cache.uniq j i c hc hi)
    rw [Function.update_of_ne hcb]
    exact h.buf j c hc hv hdirty

omit [DecidableEq P] in
/-- A process that is in `log.c` with the log recovered is committing. -/
theorem BookInv.committing (hb : BookInv start s) (hr : s.ready = true)
    (hne : (s.pc p).stage ≠ .idle) : s.committing = true := by
  by_contra hc
  exact hne (hb.ctl.idle hr (by simpa using hc) p)

/-- One block is written by `commit` or recovery, the header of a commit apart. -/
theorem CrashInv.write (hb : BookInv start s) (h : CrashInv start base s) {i : BufId} {b : Nat}
    {d : Block} {c : Pc} (hne : (s.pc p).stage ≠ .idle) (hi : (s.buf i).caches b = true)
    (hd : s.ready = true ∧ Home start b → d = s.cur base b)
    (hdisk : DiskInv start (produced s.groups base) (Function.update s.disk b d))
    (hst : c.stage.OnDisk start (produced s.groups base) (s.cur base) (Function.update s.disk b d)
      s.lh s.pend) :
    CrashInv start base ((s.bwrite i d).goto p c) := by
  have heq : (s.bwrite i d).disk = Function.update s.disk b d := by
    unfold Sys.bwrite
    rw [(Buf.caches_iff.mp hi).2]
  refine ⟨?_, h.bwrite_buf hb hi hd, h.dirty_update fun hx => ⟨hx, rfl⟩,
    fun hr c hc hcp => ?_, h.lh,
    h.pend, fun hr hc => ?_, h.boot, fun q => ?_⟩
  · change DiskInv start _ (s.bwrite i d).disk
    rw [heq]
    exact hdisk
  · change (s.bwrite i d).disk c = _
    rw [heq]
    by_cases hcb : c = b
    · subst hcb
      rw [Function.update_self]
      exact hd ⟨hr, hc⟩
    · rw [Function.update_of_ne hcb]
      exact h.clean hr c hc hcp
  · have hc : s.committing = false := hc
    exact absurd (hc.symm.trans (hb.committing hr hne)) Bool.noConfusion
  · by_cases hq : q = p
    · subst hq
      rw [Sys.goto_self]
      change Stage.OnDisk _ _ _ (s.bwrite i d).disk _ _ _
      rw [heq]
      exact hst
    · rw [Sys.goto_ne _ _ hq]
      change (s.pc q).stage.OnDisk _ _ _ _ _ _
      rw [hb.ctl.others hne hq]
      exact trivial

/-- `write_log` copies a block to the log. -/
theorem CrashInv.writeLog (hb : BookInv start s) (h : CrashInv start base s) {t : Nat} {i j : BufId}
    (hp : s.pc p = .writeLog t i j) :
    CrashInv start base ((s.bwrite i (s.buf j).data).goto p (.brelse j (.logTo t i))) := by
  have hok := hb.pc p
  have hst := hb.ctl.stage p
  have hon := h.stage p
  have hne : (s.pc p).stage ≠ .idle := by
    rw [hp]
    exact Stage.noConfusion
  rw [hp] at hok hst hon
  obtain ⟨ht, hij, hi, hj⟩ := hok
  obtain ⟨hr, hcom, -, hin⟩ := hst
  obtain ⟨hempty, hlog⟩ := hon
  have hroom := hb.ctl.room hr
  have hnot : ¬ Home start (start + t + 1) := not_home_log (by omega)
  have hlt : s.lh.getD t 0 ∈ s.lh := by
    simp [ht]
  -- the cached block is as the operations have left it
  have hdata : (s.buf j).data = s.cur base (s.lh.getD t 0) := by
    have hbuf := h.buf j _ (hb.holds_caches hj) (hb.cache.locked j p hj.1).2
      (h.not_dirty (hb.ctl.busy hcom) j)
    rwa [if_pos ⟨hr, h.lh hr _ hlt⟩] at hbuf
  refine h.write hb hne (hb.holds_caches hi) (fun hh => absurd hh.2 hnot)
    (h.disk.write_log hempty (by omega) hnot) ⟨?_, fun x hx => ?_⟩
  · rw [Function.update_of_ne (by omega), hempty]
  · by_cases hxt : x = t
    · rw [hxt, Function.update_self, hdata]
    · rw [Function.update_of_ne (by omega)]
      exact hlog x (by omega)

omit [DecidableEq P] in
/-- The log block of an entry holds what the entry's block should hold. -/
theorem CrashInv.log_data (hb : BookInv start s) (h : CrashInv start base s) {t : Nat} {i : BufId}
    (hop : ∀ q, s.op q = none) (hhead : (s.disk start).head = s.lh) (ht : t < s.lh.length)
    (hi : Holds s.buf p i (start + t + 1)) :
    (s.buf i).data = produced s.groups base (s.lh.getD t 0) := by
  have hroom := h.disk.room
  rw [hhead] at hroom
  have hbuf := h.buf i _ (hb.holds_caches hi) (hb.cache.locked i p hi.1).2 (h.not_dirty hop i)
  rw [if_neg fun hh => not_home_log (by omega) hh.2] at hbuf
  have hlog := h.disk.log t (hhead ▸ ht)
  rw [hhead] at hlog
  exact hbuf.trans hlog

/-- `install_trans` copies a block home, in `commit` or in recovery. -/
theorem CrashInv.install (hb : BookInv start s) (h : CrashInv start base s) {r : Bool} {t : Nat}
    {i j : BufId} (hp : s.pc p = .install r t i j) :
    CrashInv start base ((s.bwrite j (s.buf i).data).goto p
      (if r = true then .brelse i (.instDst true t j) else .bunpin t i j)) := by
  have hok := hb.pc p
  have hst := hb.ctl.stage p
  have hon := h.stage p
  have hne : (s.pc p).stage ≠ .idle := by
    rw [hp]
    cases r <;> exact Stage.noConfusion
  rw [hp] at hok hst hon
  obtain ⟨ht, hij, hi, hj⟩ := hok
  have hlt : s.lh.getD t 0 ∈ s.lh := by
    simp [ht]
  obtain ⟨hhead, hop, hdone, hpend⟩ : (s.disk start).head = s.lh ∧ (∀ q, s.op q = none) ∧
      (∀ x, x < t → s.disk (s.lh.getD x 0) = produced s.groups base (s.lh.getD x 0)) ∧
      s.pend = [] := by
    cases r with
    | true => exact ⟨hon.1, (hb.ctl.booting hst).2, hon.2, h.boot hst⟩
    | false => exact ⟨hon.1, hb.ctl.busy hst.2.1, hon.2.2, hon.2.1⟩
  have hdata := h.log_data hb hop hhead ht hi
  have hhome : Home start (s.lh.getD t 0) := h.disk.mem _ (hhead ▸ hlt)
  have hhead' : (Function.update s.disk (s.lh.getD t 0) (s.buf i).data start).head = s.lh := by
    rw [Function.update_of_ne, hhead]
    intro he
    rw [← he] at hhome
    exact not_home_start _ hhome
  have hdone' : ∀ x, x < t + 1 →
      Function.update s.disk (s.lh.getD t 0) (s.buf i).data (s.lh.getD x 0)
        = produced s.groups base (s.lh.getD x 0) := by
    intro x hx
    by_cases hxt : s.lh.getD x 0 = s.lh.getD t 0
    · rw [hxt, Function.update_self, hdata]
    · rw [Function.update_of_ne hxt]
      refine hdone x ?_
      have : x ≠ t := fun he => hxt (by rw [he])
      omega
  refine h.write hb hne (hb.holds_caches hj) (fun hh => ?_) (h.disk.write_home (hhead ▸ hlt)) ?_
  · rw [hdata, s.cur_of_pend hpend]
  · cases r with
    | true => exact ⟨hhead', hdone'⟩
    | false => exact ⟨hhead', hpend, hdone'⟩

omit [Fintype P] [DecidableEq P] in
/-- The commit: the header reaches the disk, and the pending writes are the next
group. What a block should hold becomes what the operations have made of it. -/
theorem Sys.cur_commit (s : Sys P) (base : Nat → Block) :
    produced (s.groups ++ [s.pend]) base = s.cur base := produced_snoc s.groups s.pend base

theorem CrashInv.writeHead (hb : BookInv start s) (h : CrashInv start base s) {w : Head} {i : BufId}
    (hp : s.pc p = .writeHead w i) (hw : w ≠ .commit) :
    CrashInv start base
      ((s.bwrite i ((s.buf i).data.setHead s.lh)).goto p (.brelse i (.head w))) := by
  have hok := hb.pc p
  have hst := hb.ctl.stage p
  have hon := h.stage p
  have hne : (s.pc p).stage ≠ .idle := by
    rw [hp]
    cases w <;> exact Stage.noConfusion
  rw [hp] at hok hst hon
  -- everything is installed, and the header in memory is empty
  obtain ⟨hlh, hall⟩ : s.lh = [] ∧ ∀ b, Home start b → s.disk b = produced s.groups base b := by
    cases w with
    | commit => exact absurd rfl hw
    | clear => exact ⟨hst.2.2.1, hon.2⟩
    | recover => exact ⟨hst.2, hon⟩
  have hroom : s.lh.length ≤ LOGBLOCKS := by
    rw [hlh]
    exact Nat.zero_le _
  have hdisk : DiskInv start (produced s.groups base)
      (Function.update s.disk start ((s.buf i).data.setHead s.lh)) := by
    refine DiskInv.write_head hroom ?_ ?_ fun c hc _ => hall c hc
    · rw [hlh]
      exact fun c hc => absurd hc List.not_mem_nil
    · rw [hlh]
      exact fun j hj => absurd hj (Nat.not_lt_zero j)
  have hhead : (Function.update s.disk start ((s.buf i).data.setHead s.lh) start).head = [] := by
    rw [Function.update_self, Block.head_setHead _ hroom, hlh]
  refine h.write hb hne (hb.holds_caches hok)
    (fun hh => absurd hh.2 (not_home_start start)) hdisk ?_
  cases w with
  | commit => exact absurd rfl hw
  | clear => exact ⟨hhead, hon.1⟩
  | recover => exact hhead

/-- **The commit point.** -/
theorem CrashInv.writeHeadCommit (hb : BookInv start s) (h : CrashInv start base s) {i : BufId}
    (hp : s.pc p = .writeHead .commit i) :
    CrashInv start base { (s.bwrite i ((s.buf i).data.setHead s.lh)).goto p
      (.brelse i (.head .commit)) with pend := [], groups := s.groups ++ [s.pend] } := by
  have hok := hb.pc p
  have hst := hb.ctl.stage p
  have hon := h.stage p
  have hne : (s.pc p).stage ≠ .idle := by
    rw [hp]
    exact Stage.noConfusion
  rw [hp] at hok hst hon
  obtain ⟨hr, hcom, hin⟩ := hst
  obtain ⟨hempty, hlog⟩ := hon
  have hroom := hb.ctl.room hr
  have hpins : s.pinned = s.lh := by simp [Sys.pinned, hr, hin]
  have hci := hb.holds_caches hok
  have heq : (s.bwrite i ((s.buf i).data.setHead s.lh)).disk
      = Function.update s.disk start ((s.buf i).data.setHead s.lh) := by
    unfold Sys.bwrite
    rw [(Buf.caches_iff.mp hci).2]
  have hhead : (Function.update s.disk start ((s.buf i).data.setHead s.lh) start).head = s.lh := by
    rw [Function.update_self, Block.head_setHead _ hroom]
  have hprod := s.cur_commit base
  refine ⟨?_, fun j c hc hv hd => ?_, h.dirty_update fun hx => ⟨hx, rfl⟩,
    fun _ c hc hcp => ?_, h.lh,
    fun w hw => absurd hw List.not_mem_nil, fun _ hc => ?_, fun hr' => ?_, fun q => ?_⟩
  · change DiskInv start (produced (s.groups ++ [s.pend]) base)
      (s.bwrite i ((s.buf i).data.setHead s.lh)).disk
    rw [heq, hprod]
    exact DiskInv.write_head hroom (h.lh hr) hlog fun c hc hcm => h.clean hr c hc (hpins ▸ hcm)
  · have hbuf := h.bwrite_buf hb hci (fun hh => absurd hh.2 (not_home_start start)) j c hc hv hd
    change _ = if _ then produced (s.groups ++ [s.pend]) base c else _
    rw [hprod]
    exact hbuf
  · change (s.bwrite i ((s.buf i).data.setHead s.lh)).disk c =
      produced (s.groups ++ [s.pend]) base c
    rw [heq, hprod, Function.update_of_ne (by rintro rfl; exact not_home_start _ hc)]
    exact h.clean hr c hc hcp
  · have hc : s.committing = false := hc
    exact absurd (hc.symm.trans hcom) Bool.noConfusion
  · have hr' : s.ready = false := hr'
    exact absurd (hr.symm.trans hr') Bool.noConfusion
  · by_cases hq : q = p
    · subst hq
      change ((Sys.goto _ q (.brelse i (.head .commit))).pc q).stage.OnDisk _ _ _
        (s.bwrite i ((s.buf i).data.setHead s.lh)).disk _ _
      rw [Sys.goto_self, heq]
      exact ⟨hhead, rfl, fun j hj => absurd hj (Nat.not_lt_zero j)⟩
    · change ((Sys.goto _ p (.brelse i (.head .commit))).pc q).stage.OnDisk _ _ _ _ _ _
      rw [Sys.goto_ne _ _ hq]
      change (s.pc q).stage.OnDisk _ _ _ _ _ _
      rw [hb.ctl.others hne hq]
      exact trivial

/-- The stage of the one process in `log.c` says it all; the others have none. -/
theorem CrashInv.stage_update (hb : BookInv start s) (hne : (s.pc p).stage ≠ .idle) {c : Pc}
    {base' cur disk : Nat → Block} {lh : List Nat} {pend : List Write}
    (hc : c.stage.OnDisk start base' cur disk lh pend) (q : P) :
    (Function.update s.pc p c q).stage.OnDisk start base' cur disk lh pend := by
  by_cases hq : q = p
  · subst hq
    rw [Function.update_self]
    exact hc
  · rw [Function.update_of_ne hq, hb.ctl.others hne hq]
    exact trivial

/-- `read_head` finds the header that is on the disk. -/
theorem CrashInv.readHead (hb : BookInv start s) (h : CrashInv start base s) {i : BufId}
    (hp : s.pc p = .readHead i) :
    CrashInv start base
      ({ s with lh := (s.buf i).data.head }.goto p (.brelse i (.instLoop true 0))) := by
  have hok := hb.pc p
  have hst := hb.ctl.stage p
  have hne : (s.pc p).stage ≠ .idle := by
    rw [hp]
    exact Stage.noConfusion
  rw [hp] at hok hst
  have hr : s.ready = false := hst
  have hready : ∀ {q : Prop}, s.ready = true → q := fun hr' =>
    absurd (hr.symm.trans hr') Bool.noConfusion
  have hdata : (s.buf i).data = s.disk start := by
    have hbuf := h.buf i start (hb.holds_caches hok) (hb.cache.locked i p hok.1).2
      (h.not_dirty (hb.ctl.booting hr).2 i)
    rwa [if_neg fun hh => not_home_start start hh.2] at hbuf
  refine ⟨h.disk, h.buf, h.dirty, hready, hready, fun w hw => ?_, hready, h.boot,
    CrashInv.stage_update hb hne ?_⟩
  · change w ∈ s.pend at hw
    rw [h.boot hr] at hw
    exact absurd hw List.not_mem_nil
  · exact ⟨(congrArg Block.head hdata).symm, fun j hj => absurd hj (Nat.not_lt_zero j)⟩

/-- The end of `install_trans`: every home block is as it should be. -/
theorem CrashInv.clear (hb : BookInv start s) (h : CrashInv start base s) {r : Bool} {t : Nat}
    (hp : s.pc p = .instLoop r t) (ht : ¬ t < s.lh.length) :
    CrashInv start base ({ s with lh := [], installed := 0 }.goto p
      (.bget start (.head (if r = true then .recover else .clear)))) := by
  have hst := hb.ctl.stage p
  have hon := h.stage p
  have hne : (s.pc p).stage ≠ .idle := by
    rw [hp]
    cases r <;> exact Stage.noConfusion
  rw [hp] at hst hon
  obtain ⟨hhead, hdone, hpend⟩ : (s.disk start).head = s.lh ∧
      (∀ x, x < t → s.disk (s.lh.getD x 0) = produced s.groups base (s.lh.getD x 0)) ∧
      s.pend = [] := by
    cases r with
    | true => exact ⟨hon.1, hon.2, h.boot hst⟩
    | false => exact ⟨hon.1, hon.2.2, hon.2.1⟩
  have hall : ∀ b, Home start b → s.disk b = produced s.groups base b := by
    intro b hbh
    by_cases hmem : b ∈ s.lh
    · obtain ⟨x, hx, rfl⟩ := List.mem_iff_getElem.mp hmem
      have hget : s.lh.getD x 0 = s.lh[x] := by simp [hx]
      rw [← hget]
      exact hdone x (by omega)
    · exact h.disk.home b hbh (hhead ▸ hmem)
  have hcur := s.cur_of_pend hpend base
  refine ⟨h.disk, h.buf, h.dirty, fun _ b hbh _ => ?_, fun _ b hbm => absurd hbm List.not_mem_nil,
    fun w hw => ?_, fun hr hc => ?_, h.boot, CrashInv.stage_update hb hne ?_⟩
  · change s.disk b = s.cur base b
    rw [hcur]
    exact hall b hbh
  · change w ∈ s.pend at hw
    rw [hpend] at hw
    exact absurd hw List.not_mem_nil
  · have hc : s.committing = false := hc
    exact absurd (hc.symm.trans (hb.committing hr hne)) Bool.noConfusion
  · cases r with
    | true => exact hall
    | false => exact ⟨hpend, hall⟩

/-- A block is unpinned when the disk has it. -/
theorem CrashInv.bunpin (hb : BookInv start s) (h : CrashInv start base s) {t : Nat} {i j : BufId}
    (hp : s.pc p = .bunpin t i j) :
    CrashInv start base ({ s.setBuf j { s.buf j with refcnt := (s.buf j).refcnt - 1 } with
      installed := s.installed + 1 }.goto p (.brelse i (.instDst false t j))) := by
  have hst := hb.ctl.stage p
  have hon := h.stage p
  have hne : (s.pc p).stage ≠ .idle := by
    rw [hp]
    exact Stage.noConfusion
  rw [hp] at hst hon
  obtain ⟨hr, hcom, -, hle, hin⟩ := hst
  obtain ⟨hhead, hpend, hdone⟩ := hon
  refine ⟨h.disk, h.buf_update fun hv => ⟨rfl, rfl, rfl, rfl, hv⟩,
    h.dirty_update fun hd => ⟨hd, rfl⟩, fun _ b hbh hbp => ?_, h.lh, h.pend, fun _ hc => ?_, h.boot,
    CrashInv.stage_update hb hne ⟨hhead, hpend, hdone⟩⟩
  · change s.disk b = s.cur base b
    have hpins : ∀ n pc, ({ s with installed := n, pc := pc } : Sys P).pinned = s.lh.drop n := by
      intro n pc
      simp [Sys.pinned, hr]
    have hbp : b ∉ s.lh.drop (t + 1) := by
      rw [← hin, ← hpins (s.installed + 1) s.pc]
      exact hbp
    by_cases hmem : b ∈ s.pinned
    · -- the entry that goes
      have hdrop : s.pinned = s.lh.getD t 0 :: s.lh.drop (t + 1) := by
        have ht : t < s.lh.length := hle
        unfold Sys.pinned
        rw [if_pos hr, hin, List.drop_eq_getElem_cons ht]
        simp [ht]
      rw [hdrop] at hmem
      rw [(List.mem_cons.mp hmem).resolve_right hbp, s.cur_of_pend hpend]
      exact hdone t (Nat.lt_succ_self t)
    · exact h.clean hr b hbh hmem
  · have hc : s.committing = false := hc
    exact absurd (hc.symm.trans hcom) Bool.noConfusion

/-- Recovery is done: the disk holds what it should, and so does the cache. -/
theorem CrashInv.recovered (hb : BookInv start s) (h : CrashInv start base s) {i : BufId}
    (hp : s.pc p = .unref i (.head .recover)) {lru : List BufId} :
    CrashInv start base { ({ s.setBuf i { s.buf i with refcnt := (s.buf i).refcnt - 1 } with
      lru := lru }).goto p .user with ready := true } := by
  have hst := hb.ctl.stage p
  have hon := h.stage p
  have hne : (s.pc p).stage ≠ .idle := by
    rw [hp]
    exact Stage.noConfusion
  rw [hp] at hst hon
  obtain ⟨hr, hlh⟩ : s.ready = false ∧ s.lh = [] := hst
  have hhead : (s.disk start).head = [] := hon
  have hcur := s.cur_of_pend (h.boot hr) base
  have hall : ∀ b, Home start b → s.disk b = s.cur base b := by
    intro b hbh
    rw [hcur]
    exact h.disk.home b hbh (by rw [hhead]; exact List.not_mem_nil)
  refine ⟨h.disk, fun j b hc hv hd => ?_, h.dirty_update fun hd => ⟨hd, rfl⟩,
    fun _ b hbh _ => hall b hbh, fun _ b hbm => ?_, h.pend, fun _ _ => hhead,
    fun hr' => Bool.noConfusion hr', CrashInv.stage_update hb hne trivial⟩
  · have hbuf := h.buf_update (i := i) (x := { s.buf i with refcnt := (s.buf i).refcnt - 1 })
      (fun hv => ⟨rfl, rfl, rfl, rfl, hv⟩) j b hc hv hd
    rw [if_neg fun hh => Bool.noConfusion (hr.symm.trans hh.1)] at hbuf
    change (Function.update s.buf i _ j).data =
      if true = true ∧ Home start b then s.cur base b else s.disk b
    split
    next hh => exact hbuf.trans (hall b hh.2)
    next => exact hbuf
  · change b ∈ s.lh at hbm
    rw [hlh] at hbm
    exact absurd hbm List.not_mem_nil

/-- **A step inside `log.c` or `bio.c`** keeps the disk recoverable. -/
theorem run_crash (hb : BookInv start s) (h : CrashInv start base s)
    (hs : s.run start p = some s') :
    CrashInv start base s' := by
  have hok := hb.pc p
  have hst := hb.ctl.stage p
  have hon := h.stage p
  cases hp : s.pc p with
  | user =>
    simp only [Sys.run, hp] at hs
    exact absurd hs.symm (Option.some_ne_none _)
  | bget b k =>
    simp only [Sys.run, hp] at hs
    obtain rfl := Option.some.inj hs
    exact h.bget (by rw [hp]; rfl)
  | acquiresleep i b k =>
    simp only [Sys.run, hp] at hs
    split at hs
    next hl =>
      obtain rfl := Option.some.inj hs
      exact h.lockBuf hb hp hl
    next => exact absurd hs.symm (Option.some_ne_none _)
  | brelse i k =>
    simp only [Sys.run, hp] at hs
    obtain rfl := Option.some.inj hs
    rw [hp] at hok hon
    have hne : (s.pc p).stage ≠ .idle := by
      rw [hp]
      exact fun hk => hok.2.1 (After.stage_eq_idle hk)
    -- whoever is here commits or recovers, so that no operation runs
    have hop : ∀ q, s.op q = none := by
      cases hr : s.ready with
      | true => exact hb.ctl.busy (hb.committing hr hne)
      | false => exact (hb.ctl.booting hr).2
    refine h.frame (p := p) rfl rfl rfl rfl rfl rfl rfl
      (h.buf_update fun hv => ⟨rfl, rfl, rfl, rfl, hv⟩) (h.dirty_update fun hd => ?_)
      (fun q hq => Sys.goto_ne _ _ hq) ?_
    · exact absurd ((h.not_dirty hop i).symm.trans hd) Bool.noConfusion
    · rw [Sys.goto_self]
      exact hon
  | unref i k =>
    simp only [Sys.run, hp] at hs
    obtain rfl := Option.some.inj hs
    obtain ⟨lru, -, hu⟩ := unref_eq s i
    rw [hu]
    rw [hp] at hon
    split
    next hk =>
      subst hk
      exact h.recovered hb hp
    next hk =>
      refine h.frame (p := p) rfl rfl rfl rfl rfl rfl rfl
        (h.buf_update fun hv => ⟨rfl, rfl, rfl, rfl, hv⟩) (h.dirty_update fun hd => ⟨hd, rfl⟩)
        (fun q hq => Sys.goto_ne _ _ hq) ?_
      rw [Sys.goto_self, After.stage_pc hk]
      exact hon
  | commit =>
    simp only [Sys.run, hp] at hs
    obtain rfl := Option.some.inj hs
    rw [hp] at hon
    refine h.frame (p := p) rfl rfl rfl rfl rfl rfl rfl h.buf h.dirty
      (fun q hq => Sys.goto_ne _ _ hq) ?_
    rw [Sys.goto_self]
    split
    next => exact hon
    next hn =>
      -- nothing was logged: the commit has nothing to write
      have hlh : s.lh = [] := List.length_eq_zero_iff.mp (by omega)
      refine ⟨hon.1, List.eq_nil_iff_forall_not_mem.mpr fun w hw => ?_⟩
      have := h.pend w hw
      rw [hlh] at this
      exact absurd this List.not_mem_nil
  | logLoop t =>
    simp only [Sys.run, hp] at hs
    obtain rfl := Option.some.inj hs
    rw [hp] at hon
    refine h.frame (p := p) rfl rfl rfl rfl rfl rfl rfl h.buf h.dirty
      (fun q hq => Sys.goto_ne _ _ hq) ?_
    rw [Sys.goto_self]
    split
    next => exact hon
    next hn => exact ⟨hon.1, fun j hj => hon.2 j (by omega)⟩
  | writeLog t i j =>
    simp only [Sys.run, hp] at hs
    obtain rfl := Option.some.inj hs
    exact h.writeLog hb hp
  | writeHead w i =>
    simp only [Sys.run, hp] at hs
    obtain rfl := Option.some.inj hs
    split
    next hw =>
      subst hw
      exact h.writeHeadCommit hb hp
    next hw => exact h.writeHead hb hp hw
  | readHead i =>
    simp only [Sys.run, hp] at hs
    obtain rfl := Option.some.inj hs
    exact h.readHead hb hp
  | instLoop r t =>
    simp only [Sys.run, hp] at hs
    split at hs
    next hn =>
      obtain rfl := Option.some.inj hs
      rw [hp] at hon
      refine h.frame (p := p) rfl rfl rfl rfl rfl rfl rfl h.buf h.dirty
        (fun q hq => Sys.goto_ne _ _ hq) ?_
      rw [Sys.goto_self]
      cases r <;> exact hon
    next hn =>
      obtain rfl := Option.some.inj hs
      exact h.clear hb hp hn
  | install r t i j =>
    simp only [Sys.run, hp] at hs
    obtain rfl := Option.some.inj hs
    exact h.install hb hp
  | bunpin t i j =>
    simp only [Sys.run, hp] at hs
    obtain rfl := Option.some.inj hs
    exact h.bunpin hb hp
  | endCommit =>
    simp only [Sys.run, hp] at hs
    obtain rfl := Option.some.inj hs
    have hne : (s.pc p).stage ≠ .idle := by
      rw [hp]
      exact Stage.noConfusion
    rw [hp] at hon
    exact ⟨h.disk, h.buf, h.dirty, h.clean, h.lh, h.pend, fun _ _ => hon.1, h.boot,
      CrashInv.stage_update hb hne trivial⟩

/-- `log_write`: the block is now what the buffer holds. -/
theorem CrashInv.logWrite (hb : BookInv start s) (h : CrashInv start base s) (hr : s.ready = true)
    {o : Op} {i : BufId} (ho : s.op p = some o) (hl : (s.buf i).lock = some p)
    (hhome : Home start (s.buf i).blockno) {x : Buf P} {lh : List Nat} {o' : Op}
    {trace : List Write}
    (hx : x.dev = (s.buf i).dev ∧ x.blockno = (s.buf i).blockno ∧ x.data = (s.buf i).data ∧
      x.dirty = false)
    (hlh : ∀ b, b ∈ lh ↔ b ∈ s.lh ∨ b = (s.buf i).blockno)
    (hpins : ∀ b ∈ s.pinned, b ∈ ({ s with lh := lh } : Sys P).pinned)
    (hnew : (s.buf i).blockno ∈ ({ s with lh := lh } : Sys P).pinned) :
    CrashInv start base { s.setBuf i x with
      lh := lh, op := Function.update s.op p (some o'), trace := trace,
      pend := s.pend ++ [⟨o.id, (s.buf i).blockno, (s.buf i).data⟩] } := by
  have hcom : s.committing = false := hb.ctl.not_committing (p := p) (by rw [ho]; rfl)
  have hempty := h.idle hr hcom
  have hci : (s.buf i).caches (s.buf i).blockno = true :=
    Buf.caches_iff.mpr ⟨(hb.cache.locked i p hl).1, rfl⟩
  -- what the disk is going to be gets one more write
  have hcur : ∀ pend, pend = s.pend ++ [⟨o.id, (s.buf i).blockno, (s.buf i).data⟩] →
      replay (pend.map Write.entry) (produced s.groups base)
        = Function.update (s.cur base) (s.buf i).blockno (s.buf i).data := by
    rintro pend rfl
    rw [List.map_append]
    exact replay_snoc _ _ _ _
  have hop : ∀ q, (s.op q).isSome = true → (Function.update s.op p (some o') q).isSome = true := by
    intro q hq
    by_cases hqp : q = p
    · subst hqp
      rw [Function.update_self]
      rfl
    · rwa [Function.update_of_ne hqp]
  refine ⟨h.disk, fun j b hc hv hd => ?_, fun j hj => ?_, fun _ b hbh hbp => ?_, fun _ b hbm => ?_,
    fun w hw => ?_, fun _ _ => hempty, fun hr' => ?_, fun q => ?_⟩
  · change (Function.update s.buf i x j).caches b = true at hc
    change (Function.update s.buf i x j).valid = true at hv
    change (Function.update s.buf i x j).dirty = false at hd
    change (Function.update s.buf i x j).data = if s.ready = true ∧ Home start b then
      replay (List.map Write.entry _) (produced s.groups base) b else s.disk b
    rw [hcur _ rfl]
    by_cases hj : j = i
    · subst hj
      rw [Function.update_self] at hc ⊢
      rw [Buf.caches_iff, hx.1, hx.2.1] at hc
      rw [← hc.2, if_pos ⟨hr, hhome⟩, Function.update_self, hx.2.2.1]
    · rw [Function.update_of_ne hj] at hc hv hd ⊢
      have hbne : b ≠ (s.buf i).blockno := by
        rintro rfl
        exact hj (hb.cache.uniq j i _ hc hci)
      rw [Function.update_of_ne hbne]
      exact h.buf j b hc hv hd
  · change (Function.update s.buf i x j).dirty = true at hj
    change ∃ q, (Function.update s.buf i x j).lock = some q ∧ _
    by_cases hji : j = i
    · subst hji
      rw [Function.update_self, hx.2.2.2] at hj
      exact Bool.noConfusion hj
    · rw [Function.update_of_ne hji] at hj ⊢
      obtain ⟨q, hq, hqs⟩ := h.dirty j hj
      exact ⟨q, hq, hop q hqs⟩
  · change s.disk b = replay (List.map Write.entry _) (produced s.groups base) b
    have hbne : b ≠ (s.buf i).blockno := by
      rintro rfl
      exact hbp hnew
    rw [hcur _ rfl, Function.update_of_ne hbne]
    exact h.clean hr b hbh fun hm => hbp (hpins b hm)
  · rcases (hlh b).mp hbm with hbm | rfl
    · exact h.lh hr b hbm
    · exact hhome
  · rcases List.mem_append.mp hw with hw | hw
    · exact (hlh _).mpr (.inl (h.pend w hw))
    · rw [List.mem_singleton.mp hw]
      exact (hlh _).mpr (.inr rfl)
  · exact absurd (hr.symm.trans hr') Bool.noConfusion
  · change (s.pc q).stage.OnDisk _ _ _ _ _ _
    rw [hb.ctl.idle hr hcom q]
    exact trivial

omit [Fintype P] in
/-- `end_op` leaves no change that is not logged. -/
theorem CrashInv.endOp (h : CrashInv start base s)
    (hlogs : ∀ i, (s.buf i).lock = some p → (s.buf i).dirty = false) (i : BufId)
    (hd : (s.buf i).dirty = true) :
    ∃ q, (s.buf i).lock = some q ∧ (Function.update s.op p none q).isSome = true := by
  obtain ⟨q, hq, hop⟩ := h.dirty i hd
  have hqp : q ≠ p := by
    rintro rfl
    exact absurd ((hlogs i hq).symm.trans hd) Bool.noConfusion
  exact ⟨q, hq, by rwa [Function.update_of_ne hqp]⟩

theorem call_crash {a : Label P} (hb : BookInv start s) (h : CrashInv start base s)
    (hr : s.ready = true) (hu : s.pc a.proc = .user) (hok : Logs start s a) (hs : CallStep s a s') :
    CrashInv start base s' := by
  cases hs with
  | beginOp p hop hcom hroom =>
    refine ⟨h.disk, h.buf, fun i hd => ?_, h.clean, h.lh, h.pend, h.idle, h.boot, h.stage⟩
    obtain ⟨q, hq, hqs⟩ := h.dirty i hd
    have hqp : q ≠ p := by
      rintro rfl
      rw [hop] at hqs
      exact Bool.noConfusion hqs
    refine ⟨q, hq, ?_⟩
    change (Function.update s.op p _ q).isSome = true
    rwa [Function.update_of_ne hqp]
  | bread p b =>
    have hu : s.pc p = .user := hu
    exact h.bget (by rw [hu]; rfl)
  -- a buffer is dirty until `log_write`, whatever the block is
  | modify p i d hop hl =>
    refine h.frame (p := p) rfl rfl rfl rfl rfl rfl rfl (fun j b hc hv hd => ?_) (fun j hj => ?_)
      (fun q _ => rfl) (h.stage p)
    · by_cases hji : j = i
      · subst hji
        rw [Sys.setBuf_self] at hd
        exact Bool.noConfusion hd
      · rw [Sys.setBuf_ne _ _ hji] at hc hv hd ⊢
        exact h.buf j b hc hv hd
    · by_cases hji : j = i
      · subst hji
        rw [Sys.setBuf_self]
        exact ⟨p, hl, hop⟩
      · rw [Sys.setBuf_ne _ _ hji] at hj ⊢
        exact h.dirty j hj
  | tooBig p o i ho hl hbig =>
    exact ⟨h.disk, h.buf, h.dirty, h.clean, h.lh, h.pend, h.idle, h.boot, h.stage⟩
  | outside p o i ho hout hroom =>
    exact ⟨h.disk, h.buf, h.dirty, h.clean, h.lh, h.pend, h.idle, h.boot, h.stage⟩
  -- the block is in the log: it stays pinned once
  | absorb p o i ho hl hmem hroom =>
    have hin := hb.ctl.quiet (hb.ctl.not_committing (p := p) (by rw [ho]; rfl))
    have hpins : s.pinned = s.lh := by simp [Sys.pinned, hr, hin]
    refine h.logWrite hb hr ho hl hok ⟨rfl, rfl, rfl, rfl⟩ (fun b => ⟨.inl, fun hbm => ?_⟩)
      (fun b hbm => hbm) ?_
    · exact hbm.elim id fun he => he ▸ hmem
    · change (s.buf i).blockno ∈ s.pinned
      rw [hpins]
      exact hmem
  | add p o i ho hl hmem hroom =>
    have hin := hb.ctl.quiet (hb.ctl.not_committing (p := p) (by rw [ho]; rfl))
    have hpins : ∀ lh, ({ s with lh := lh } : Sys P).pinned = lh := by
      intro lh
      simp [Sys.pinned, hr, hin]
    refine h.logWrite hb hr ho hl hok ⟨rfl, rfl, rfl, rfl⟩
      (fun b => by rw [List.mem_append, List.mem_singleton]) (fun b hbm => ?_) ?_
    · rw [hpins]
      exact List.mem_append_left _ (hpins s.lh ▸ hbm)
    · rw [hpins]
      exact List.mem_append_right _ List.mem_cons_self
  | brelse p i hl =>
    have hu : s.pc p = .user := hu
    have hclean : (s.buf i).dirty = false := hok
    refine h.frame (p := p) rfl rfl rfl rfl rfl rfl rfl
      (h.buf_update fun hv => ⟨rfl, rfl, rfl, rfl, hv⟩) (h.dirty_update fun hd => ?_)
      (fun q hq => Sys.goto_ne _ _ hq) ?_
    · exact absurd (hclean.symm.trans hd) Bool.noConfusion
    · rw [Sys.goto_self]
      exact trivial
  | endPanic p hop hcom =>
    exact ⟨h.disk, h.buf, h.endOp hok, h.clean, h.lh, h.pend, h.idle, h.boot, h.stage⟩
  | endLast p hop hcom hz =>
    have hu : s.pc p = .user := hu
    refine ⟨h.disk, h.buf, h.endOp hok, h.clean, h.lh, h.pend,
      fun _ hc => Bool.noConfusion hc, h.boot,
      fun q => ?_⟩
    by_cases hq : q = p
    · subst hq
      rw [Sys.goto_self]
      exact ⟨h.idle hr hcom, fun j hj => absurd hj (Nat.not_lt_zero j)⟩
    · rw [Sys.goto_ne _ _ hq]
      exact h.stage q
  | endOther p hop hcom hz =>
    exact ⟨h.disk, h.buf, h.endOp hok, h.clean, h.lh, h.pend, h.idle, h.boot, h.stage⟩

omit [Fintype P] in
/-- A crash loses the memory and keeps the disk. -/
theorem boot_crash (h : DiskInv start (produced s.groups base) s.disk) (p : P) :
    CrashInv start base (s.boot start p) := by
  refine ⟨h, fun i b hc => ?_, fun i hd => Bool.noConfusion hd, fun hr => Bool.noConfusion hr,
    fun hr => Bool.noConfusion hr, fun w hw => absurd hw List.not_mem_nil,
    fun hr => Bool.noConfusion hr, fun _ => rfl, fun q => ?_⟩
  · exact absurd (Buf.caches_iff.mp hc).1 (Nat.succ_ne_zero 0).symm
  · by_cases hq : q = p
    · subst hq
      change (Function.update (fun _ => Pc.user) q (.bget start .readHead)
        q).stage.OnDisk _ _ _ _ _ _
      rw [Function.update_self]
      exact trivial
    · change (Function.update (fun _ => Pc.user) p (.bget start .readHead)
        q).stage.OnDisk _ _ _ _ _ _
      rw [Function.update_of_ne hq]
      exact trivial

theorem step_crash {a : Label P} (hb : BookInv start s) (h : CrashInv start base s)
    (hok : Logs start s a) (hs : step start s a = some s') : CrashInv start base s' := by
  obtain ⟨p, -, rfl⟩ | ⟨p, -, -, hrun⟩ | ⟨-, hr, hu, hcall⟩ := step_cases hs
  · exact boot_crash h.disk p
  · exact run_crash hb h hrun
  · exact call_crash hb h hr hu hok hcall

end Step

end Xv6.Log
