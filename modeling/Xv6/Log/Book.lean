import Xv6.Log.Stage

/-!
# Every step keeps the books

The balance of the reference counts (`CacheInv`), the flags (`CtlInv`) and what
each process knows (`Pc.Ok`) hold together at power-on and survive every step,
whatever the operations do, crashes and recoveries included.
-/

namespace Xv6.Log

open Lib

variable {P : Type}

section Step

variable [Fintype P] [DecidableEq P] {start : Nat} {s s' : Sys P} {p : P}

omit [DecidableEq P] in
/-- The buffers and the flags are in order, `p` knows where it is, and the others
find what they left. -/
theorem BookInv.next (h : BookInv start s) (hcache : CacheInv s'.buf s'.lru s'.pc s'.pinned)
    (hctl : CtlInv s'.ready s'.committing s'.lh s'.installed s'.op s'.outstanding s'.pc)
    (hpc : ∀ q, q ≠ p → s'.pc q = s.pc q)
    (hlh : s'.lh = s.lh ∨ ∀ q, q ≠ p → (s.pc q).stage = .idle)
    (hkeep : ∀ q, q ≠ p → Keep s.buf s'.buf q (s.pc q)) (hp : (s'.pc p).Ok start s'.lh s'.buf p) :
    BookInv start s' := by
  refine ⟨hcache, hctl, fun q => ?_⟩
  by_cases hq : q = p
  · rw [hq]
    exact hp
  · rw [hpc q hq]
    rcases hlh with hlh | hidle
    · rw [hlh]
      exact (h.pc q).keep (hkeep q hq)
    · exact ((h.pc q).keep (hkeep q hq)).idle (hidle q hq)

omit [Fintype P] [DecidableEq P] in
theorem caches_of_cached {b : Nat} {i : BufId} (h : s.cached b = some i) :
    (s.buf i).caches b = true := by
  unfold Sys.cached at h
  exact List.find?_some (p := fun j => (s.buf j).caches b) h

omit [Fintype P] [DecidableEq P] in
theorem refcnt_of_unused {i : BufId} (h : s.unused = some i) : (s.buf i).refcnt = 0 := by
  unfold Sys.unused at h
  simpa using List.find?_some h

omit [DecidableEq P] in
/-- A scan that finds nothing has seen every buffer. -/
theorem not_caches_of_cached {b : Nat} {lru : List BufId} {pc : P → Pc} {pins : List Nat}
    (hc : CacheInv s.buf lru pc pins) (hl : s.lru = lru) (h : s.cached b = none) (j : BufId) :
    ¬ (s.buf j).caches b = true := by
  unfold Sys.cached at h
  rw [List.find?_eq_none] at h
  exact h j (hl ▸ hc.lru j)

/-- `bget`, called from a place without a reference. -/
theorem BookInv.bget (h : BookInv start s) {b : Nat} {k : Want} (hp : (s.pc p).ref = none)
    (hstage : (s.pc p).stage = k.stage) (hk : k.Ok start s.lh s.buf p b) :
    BookInv start (s.bget p b k) := by
  have hctl : ∀ c : Pc, c.stage = k.stage →
      CtlInv s.ready s.committing s.lh s.installed s.op s.outstanding
        (Function.update s.pc p c) := by
    intro c hc
    refine h.ctl.move ?_ fun hne => ?_
    · rw [hc, ← hstage]
      exact h.ctl.stage p
    · rwa [hstage, ← hc]
  unfold Sys.bget
  split
  next i hi =>
    have hkeep : ∀ q c, Keep s.buf
        (Function.update s.buf i { s.buf i with refcnt := (s.buf i).refcnt + 1 }) q c :=
      fun q c => Keep.update rfl rfl id
    refine h.next (p := p) (h.cache.ref hp rfl) (hctl _ rfl)
      (fun q hq => Sys.goto_ne _ _ hq) (.inl rfl)
      (fun q _ => hkeep q _) ?_
    rw [Sys.goto_self]
    refine ⟨?_, hk.keep (hkeep p .user)⟩
    change (Function.update s.buf i _ i).caches b = true
    rw [Function.update_self]
    exact caches_of_cached hi
  next hnone =>
    have hnot := not_caches_of_cached h.cache rfl hnone
    split
    next i hi =>
      have hfree := refcnt_of_unused hi
      refine h.next (p := p) (h.cache.recycle hp rfl hfree hnot rfl rfl rfl) (hctl _ rfl)
        (fun q hq => Sys.goto_ne _ _ hq) (.inl rfl) (fun q _ => Keep.recycle h.cache hfree _ q) ?_
      rw [Sys.goto_self]
      refine ⟨?_, hk.keep (Keep.recycle h.cache hfree _ p)⟩
      change (Function.update s.buf i _ i).caches b = true
      rw [Function.update_self, Buf.caches_iff]
      exact ⟨rfl, rfl⟩
    next =>
      refine h.next (p := p) (h.cache.move hp.symm) (hctl _ rfl) (fun q hq => Sys.goto_ne _ _ hq)
        (.inl rfl) (fun q _ => Keep.refl _ _ _) ?_
      change ((s.goto p (.bget b k)).pc p).Ok start s.lh s.buf p
      rw [Sys.goto_self]
      exact hk

omit [Fintype P] [DecidableEq P] in
theorem resume_ref (s : Sys P) (i : BufId) (k : Want) : (s.resume i k).ref = none := by
  cases k <;> rfl

omit [Fintype P] [DecidableEq P] in
theorem resume_stage (s : Sys P) (i : BufId) (k : Want) : (s.resume i k).stage = k.stage := by
  cases k with
  | head w => cases w <;> rfl
  | instLog r t => cases r <;> rfl
  | instDst r t j => cases r <;> rfl
  | _ => rfl

theorem After.ref_pc (k : After) : k.pc.ref = none := by
  cases k with
  | head w => cases w <;> rfl
  | _ => rfl

theorem After.stage_pc {k : After} (hk : k ≠ .head .recover) : k.pc.stage = k.stage := by
  cases k with
  | head w =>
    cases w with
    | recover => exact absurd rfl hk
    | _ => rfl
  | instDst r t i => cases r <;> rfl
  | instLoop r t => cases r <;> rfl
  | _ => rfl

/-- A process gets the lock it has waited for. -/
theorem BookInv.lockBuf (h : BookInv start s) {i : BufId} {b : Nat} {k : Want}
    (hp : s.pc p = .acquiresleep i b k) (hl : (s.buf i).lock = none) :
    BookInv start ((s.lockBuf p i).goto p (s.resume i k)) := by
  have hok := h.pc p
  rw [hp] at hok
  obtain ⟨hci, hk⟩ := hok
  obtain ⟨hdev, hblk⟩ := Buf.caches_iff.mp hci
  have href : (s.pc p).ref = some i := by rw [hp]; rfl
  -- the lock was free, so nobody's lock is touched
  have hkeep : ∀ q c, Keep s.buf (s.lockBuf p i).buf q c := by
    intro q c
    refine Keep.update rfl rfl fun hq => ?_
    rw [hl] at hq
    exact absurd hq.symm (Option.some_ne_none q)
  have hi : Holds (s.lockBuf p i).buf p i b := by
    refine ⟨?_, ?_⟩ <;> simp [Sys.lockBuf, hblk]
  have hne : ∀ j b', Holds s.buf p j b' → j ≠ i := by
    rintro j b' hj rfl
    rw [hj.1] at hl
    exact absurd hl (Option.some_ne_none p)
  have hk' := hk.keep (hkeep p .user)
  refine h.next (p := p) (h.cache.lock href (resume_ref s i k) hl hdev) (h.ctl.move ?_ ?_)
    (fun q hq => Sys.goto_ne _ _ hq) (.inl rfl) (fun q _ => hkeep q _) ?_
  · have hs := h.ctl.stage p
    rw [hp] at hs
    rw [resume_stage]
    exact hs
  · rw [resume_stage, hp]
    exact id
  · rw [Sys.goto_self]
    cases k with
    | user => exact trivial
    | logTo t => exact ⟨hk.1, rfl, hk.2 ▸ hi⟩
    | instLog r t => exact ⟨hk.1, rfl, hk.2 ▸ hi⟩
    | logFrom t j => exact ⟨hk.1, hne j _ hk.2.2, hk'.2.2, hk.2.1 ▸ hi⟩
    | instDst r t j => exact ⟨hk.1, (hne j _ hk.2.2).symm, hk'.2.2, hk.2.1 ▸ hi⟩
    | head w =>
      have hb : b = start := hk
      exact hb ▸ hi
    | readHead =>
      have hb : b = start := hk
      exact hb ▸ hi

/-- A process gives a lock back. -/
theorem BookInv.releasesleep (h : BookInv start s) {i : BufId} {k : After}
    (hp : (s.pc p).ref = none) (hstage : (s.pc p).stage = k.stage) (hl : (s.buf i).lock = some p)
    (hk : k.Ok start s.lh s.buf p i) : BookInv start ((s.releasesleep i).goto p (.unref i k)) := by
  refine h.next (p := p) (h.cache.release hp rfl hl) (h.ctl.move ?_ ?_)
    (fun q hq => Sys.goto_ne _ _ hq)
    (.inl rfl) (fun q hq => ?_) ?_
  · have hs := h.ctl.stage p
    rw [hstage] at hs
    exact hs
  · rw [hstage]
    exact id
  · refine Keep.update rfl rfl fun hq' => ?_
    rw [hl] at hq'
    exact absurd (Option.some.inj hq').symm hq
  · have hother : ∀ j b, j ≠ i → Holds s.buf p j b → Holds (s.releasesleep i).buf p j b := by
      intro j b hj hb
      unfold Holds Sys.releasesleep
      rw [Sys.setBuf_ne _ _ hj]
      exact hb
    rw [Sys.goto_self]
    cases k with
    | user => exact trivial
    | logTo t j => exact ⟨hk.1, hk.2.1, hother j _ hk.2.1 hk.2.2⟩
    | instDst r t j => exact ⟨hk.1, hk.2.1, hother j _ hk.2.1 hk.2.2⟩
    | logLoop t => exact hk
    | instLoop r t => exact hk
    | head w => exact trivial

omit [Fintype P] [DecidableEq P] in
/-- The end of `brelse` changes one count and the order of the list. -/
theorem unref_eq (s : Sys P) (i : BufId) : ∃ lru, (∀ j, j ∈ s.lru → j ∈ lru) ∧
    s.unref i = { s.setBuf i { s.buf i with refcnt := (s.buf i).refcnt - 1 } with lru := lru } := by
  unfold Sys.unref
  simp only
  split
  · refine ⟨i :: s.lru.erase i, fun j hj => ?_, rfl⟩
    by_cases hji : j = i
    · exact hji ▸ List.mem_cons_self
    · exact List.mem_cons_of_mem _ ((List.mem_erase_of_ne hji).mpr hj)
  · exact ⟨s.lru, fun j hj => hj, rfl⟩

omit [Fintype P] [DecidableEq P] in
theorem After.Ok.pc {buf : BufId → Buf P} {lh : List Nat} {i : BufId} {k : After}
    (h : k.Ok start lh buf p i) : k.pc.Ok start lh buf p := by
  cases k with
  | user => exact trivial
  | logTo t j => exact ⟨h.2.2.1, After.noConfusion, h.1⟩
  | instDst r t j => exact ⟨h.2.2.1, After.noConfusion, h.1⟩
  | logLoop t => exact h
  | instLoop r t => exact h
  | head w =>
    cases w with
    | commit => exact Nat.zero_le _
    | clear => exact trivial
    | recover => exact trivial

theorem BookInv.unref (h : BookInv start s) {i : BufId} {k : After} (hp : s.pc p = .unref i k) :
    BookInv start (if k = .head .recover then { (s.unref i).goto p k.pc with ready := true }
      else (s.unref i).goto p k.pc) := by
  have hok := h.pc p
  have hst := h.ctl.stage p
  rw [hp] at hok hst
  have href : (s.pc p).ref = some i := by rw [hp]; rfl
  have hkeep : ∀ q c, Keep s.buf
      (Function.update s.buf i { s.buf i with refcnt := (s.buf i).refcnt - 1 }) q c :=
    fun q c => Keep.update rfl rfl id
  have hpc := (After.Ok.keep hok (hkeep p .user)).pc
  obtain ⟨lru, hlru, hu⟩ := unref_eq s i
  rw [hu]
  have hlru' : ∀ j, j ∈ lru := fun j => hlru j (h.cache.lru j)
  split
  next hk =>
    -- recovery is done: the log is empty, nothing is pinned
    subst hk
    obtain ⟨hr, hlh⟩ : s.ready = false ∧ s.lh = [] := hst
    have hpins : s.pinned = [] := by simp [Sys.pinned, hr]
    have hcache := h.cache.unref (c := .user) hlru' href rfl
    rw [hpins] at hcache
    have hne : (s.pc p).stage ≠ .idle := by
      rw [hp]
      exact Stage.noConfusion
    obtain ⟨hcom, hop⟩ := h.ctl.booting hr
    refine h.next (p := p) ?_ (h.ctl.turn hne trivial hop (fun h' => Bool.noConfusion h')
      h.ctl.quiet (fun _ => ?_) fun _ => ?_) (fun q hq => Sys.goto_ne _ _ hq) (.inl rfl)
      (fun q _ => hkeep q _) ?_
    · have hpins' : s.lh.drop s.installed = [] := by rw [hlh, List.drop_nil]
      change CacheInv _ _ _ (s.lh.drop s.installed)
      rw [hpins']
      exact hcache
    · change s.lh.Nodup
      rw [hlh]
      exact List.nodup_nil
    · change s.lh.length ≤ _
      rw [hlh]
      exact Nat.zero_le _
    · change (Sys.pc (Sys.goto _ p .user) p).Ok start s.lh _ p
      rw [Sys.goto_self]
      exact trivial
  next hk =>
    refine h.next (p := p) (h.cache.unref hlru' href k.ref_pc) (h.ctl.move ?_ ?_)
      (fun q hq => Sys.goto_ne _ _ hq) (.inl rfl) (fun q _ => hkeep q _) ?_
    · rw [After.stage_pc hk]
      exact hst
    · rw [After.stage_pc hk, hp]
      exact id
    · rw [Sys.goto_self]
      exact hpc

/-- A step that changes data at most, and moves within its stage. -/
theorem BookInv.move (h : BookInv start s) {c : Pc} (hpc : s'.pc = Function.update s.pc p c)
    (hlru : s'.lru = s.lru) (hpins : s'.pinned = s.pinned)
    (hctl : CtlInv s'.ready s'.committing s'.lh s'.installed s'.op s'.outstanding s'.pc)
    (hbuf : ∀ j, (s'.buf j).dev = (s.buf j).dev ∧ (s'.buf j).blockno = (s.buf j).blockno ∧
      (s'.buf j).lock = (s.buf j).lock ∧ (s'.buf j).refcnt = (s.buf j).refcnt ∧
      (s'.buf j).valid = (s.buf j).valid)
    (hlh : s'.lh = s.lh ∨ ∀ q, q ≠ p → (s.pc q).stage = .idle) (href : c.ref = (s.pc p).ref)
    (hp : c.Ok start s'.lh s.buf p) : BookInv start s' := by
  have hkeep : ∀ q c, Keep s.buf s'.buf q c := by
    intro q c i
    refine ⟨fun hl => ⟨(hbuf i).2.2.1.trans hl, (hbuf i).2.1⟩, fun _ b hb => ?_⟩
    rw [Buf.caches_iff] at hb ⊢
    rw [(hbuf i).1, (hbuf i).2.1]
    exact hb
  refine h.next (p := p) ?_ hctl (fun q hq => ?_) hlh (fun q _ => hkeep q _) ?_
  · rw [hlru, hpins, hpc]
    exact (h.cache.move href).data hbuf
  · rw [hpc, Function.update_of_ne hq]
  · rw [hpc, Function.update_self]
    exact hp.keep (hkeep p c)

omit [Fintype P] [DecidableEq P] in
/-- New data for a buffer leaves the rest of it alone. -/
theorem setData_same (s : Sys P) (i : BufId) (d : Block) (e : Bool) (j : BufId) :
    let x := (s.setBuf i { s.buf i with data := d, dirty := e }).buf j
    x.dev = (s.buf j).dev ∧ x.blockno = (s.buf j).blockno ∧ x.lock = (s.buf j).lock ∧
      x.refcnt = (s.buf j).refcnt ∧ x.valid = (s.buf j).valid := by
  by_cases hj : j = i
  · subst hj
    simp
  · simp [Sys.setBuf_ne _ _ hj]

/-- Inside one stage: the flags stay. -/
theorem BookInv.stay (h : BookInv start s) {c : Pc} (hc : c.stage = (s.pc p).stage) :
    CtlInv s.ready s.committing s.lh s.installed s.op s.outstanding (Function.update s.pc p c) := by
  refine h.ctl.move ?_ ?_
  · rw [hc]
    exact h.ctl.stage p
  · rw [hc]
    exact id

/-- `bunpin` gives back the pin of the entry that has just been installed, and no
other: the entries are distinct. -/
theorem BookInv.bunpin (h : BookInv start s) {t : Nat} {i j : BufId} (hp : s.pc p = .bunpin t i j)
    (hst : (Stage.installing (t + 1) t).Ok s.ready s.committing s.lh s.installed)
    (hok : (Pc.bunpin t i j).Ok start s.lh s.buf p) :
    BookInv start ({ s.setBuf j { s.buf j with refcnt := (s.buf j).refcnt - 1 } with
      installed := s.installed + 1 }.goto p (.brelse i (.instDst false t j))) := by
  obtain ⟨hr, hcom, -, hle, hin⟩ := hst
  obtain ⟨ht, hji, hi, hj⟩ := hok
  have hne : (s.pc p).stage ≠ .idle := by
    rw [hp]
    exact Stage.noConfusion
  have hkeep : ∀ q c, Keep s.buf
      (Function.update s.buf j { s.buf j with refcnt := (s.buf j).refcnt - 1 }) q c :=
    fun q c => Keep.update rfl rfl id
  have hget : s.lh.getD t 0 = s.lh.get ⟨t, ht⟩ := by simp [ht]
  have hdrop : s.lh.drop t = s.lh.getD t 0 :: s.lh.drop (t + 1) := by
    rw [hget]
    exact List.drop_eq_getElem_cons ht
  have hnodup := (h.ctl.nodup hr).sublist (List.drop_sublist t s.lh)
  have hpins : s.pinned = s.lh.getD t 0 :: s.lh.drop (t + 1) := by
    rw [← hdrop]
    simp [Sys.pinned, hr, hin]
  have hcj : (s.buf j).caches (s.lh.getD t 0) = true :=
    Buf.caches_iff.mpr ⟨(h.cache.locked j p hj.1).1, hj.2⟩
  have hcache := h.cache.move (p := p) (c := .brelse i (.instDst false t j)) (by rw [hp]; rfl)
  rw [hpins] at hcache
  rw [hdrop] at hnodup
  refine h.next (p := p) ?_ (h.ctl.turn hne ⟨hr, hcom, Nat.le_refl _, hle, congrArg (· + 1) hin⟩
    (h.ctl.busy hcom) (fun hb => (h.ctl.booting hb).1) (fun hc => ?_) h.ctl.nodup h.ctl.room)
    (fun q hq => Sys.goto_ne _ _ hq) (.inl rfl) (fun q _ => hkeep q _) ?_
  · have hpins' : ∀ pc, ({ s with installed := s.installed + 1, pc := pc } : Sys P).pinned
        = s.lh.drop (t + 1) := by
      intro pc
      simp [Sys.pinned, hr, hin]
    have hres := hcache.bunpin (List.nodup_cons.mp hnodup).1 hcj
    rw [← hpins' s.pc] at hres
    exact hres
  · exact absurd (hc.symm.trans hcom) Bool.noConfusion
  · rw [Sys.goto_self]
    exact ⟨((hkeep p .user).holds hi).1, After.noConfusion, ht, hji, (hkeep p .user).holds hj⟩

/-- **A step inside `log.c` or `bio.c`.** -/
theorem run_book (h : BookInv start s) (hs : s.run start p = some s') : BookInv start s' := by
  have hok := h.pc p
  have hst := h.ctl.stage p
  cases hp : s.pc p with
  | user =>
    simp only [Sys.run, hp] at hs
    exact absurd hs.symm (Option.some_ne_none _)
  | bget b k =>
    simp only [Sys.run, hp] at hs
    obtain rfl := Option.some.inj hs
    rw [hp] at hok
    exact h.bget (by rw [hp]; rfl) (by rw [hp]; rfl) hok
  | acquiresleep i b k =>
    simp only [Sys.run, hp] at hs
    split at hs
    next hl =>
      obtain rfl := Option.some.inj hs
      exact h.lockBuf hp hl
    next => exact absurd hs.symm (Option.some_ne_none _)
  | brelse i k =>
    simp only [Sys.run, hp] at hs
    obtain rfl := Option.some.inj hs
    rw [hp] at hok
    exact h.releasesleep (by rw [hp]; rfl) (by rw [hp]; rfl) hok.1 hok.2.2
  | unref i k =>
    simp only [Sys.run, hp] at hs
    obtain rfl := Option.some.inj hs
    exact h.unref hp
  | commit =>
    simp only [Sys.run, hp] at hs
    obtain rfl := Option.some.inj hs
    rw [hp] at hst
    obtain ⟨hr, hcom, -, hin⟩ := hst
    split
    next hn =>
      exact h.move rfl rfl rfl (h.stay (by rw [hp]; rfl)) (fun j => ⟨rfl, rfl, rfl, rfl, rfl⟩)
        (.inl rfl) (by rw [hp]; rfl) (Nat.zero_le _)
    next hn =>
      have hlh : s.lh = [] := List.length_eq_zero_iff.mp (by omega)
      refine h.move rfl rfl rfl (h.ctl.move ⟨hr, hcom, hlh, hin⟩ fun _ => ?_)
        (fun j => ⟨rfl, rfl, rfl, rfl, rfl⟩) (.inl rfl) (by rw [hp]; rfl) trivial
      rw [hp]
      exact Stage.noConfusion
  | logLoop t =>
    simp only [Sys.run, hp] at hs
    obtain rfl := Option.some.inj hs
    rw [hp] at hst hok
    split
    next hn =>
      exact h.move rfl rfl rfl (h.stay (by rw [hp]; rfl)) (fun j => ⟨rfl, rfl, rfl, rfl, rfl⟩)
        (.inl rfl) (by rw [hp]; rfl) ⟨hn, rfl⟩
    next hn =>
      refine h.move rfl rfl rfl (h.ctl.move ⟨hst.1, hst.2.1, hst.2.2.2⟩ fun _ => ?_)
        (fun j => ⟨rfl, rfl, rfl, rfl, rfl⟩) (.inl rfl) (by rw [hp]; rfl) rfl
      rw [hp]
      exact Stage.noConfusion
  | writeLog t i j =>
    simp only [Sys.run, hp] at hs
    obtain rfl := Option.some.inj hs
    rw [hp] at hst hok
    refine h.move rfl rfl rfl (h.ctl.move ⟨hst.1, hst.2.1, hok.1, hst.2.2.2⟩ fun _ => ?_)
      (setData_same s i _ _) (.inl rfl) (by rw [hp]; rfl)
      ⟨hok.2.2.2.1, After.noConfusion, hok.1, hok.2.1, hok.2.2.1⟩
    rw [hp]
    exact Stage.noConfusion
  | writeHead w i =>
    simp only [Sys.run, hp] at hs
    obtain rfl := Option.some.inj hs
    rw [hp] at hst hok
    have hlock : (s.buf i).lock = some p := hok.1
    have hne : (s.pc p).stage ≠ .idle := by
      rw [hp]
      cases w <;> exact Stage.noConfusion
    cases w with
    | commit =>
      exact h.move rfl rfl rfl
        (h.ctl.move ⟨hst.1, hst.2.1, Nat.le_refl _, Nat.zero_le _, hst.2.2⟩ fun _ => hne)
        (setData_same s i _ _) (.inl rfl) (by rw [hp]; rfl) ⟨hlock, After.noConfusion, trivial⟩
    | clear =>
      exact h.move rfl rfl rfl (h.ctl.move hst fun _ => hne) (setData_same s i _ _) (.inl rfl)
        (by rw [hp]; rfl) ⟨hlock, After.noConfusion, trivial⟩
    | recover =>
      exact h.move rfl rfl rfl (h.ctl.move hst fun _ => hne) (setData_same s i _ _) (.inl rfl)
        (by rw [hp]; rfl) ⟨hlock, After.noConfusion, trivial⟩
  | readHead i =>
    simp only [Sys.run, hp] at hs
    obtain rfl := Option.some.inj hs
    rw [hp] at hst hok
    have hr : s.ready = false := hst
    have hne : (s.pc p).stage ≠ .idle := by
      rw [hp]
      exact Stage.noConfusion
    obtain ⟨hcom, hop⟩ := h.ctl.booting hr
    have hpin : ∀ lh, ({ s with lh := lh } : Sys P).pinned = s.pinned := by
      intro lh
      simp [Sys.pinned, hr]
    refine h.move rfl rfl (hpin _) (h.ctl.turn hne hr hop (fun _ => hcom) h.ctl.quiet
      (fun h' => ?_) fun h' => ?_) (fun j => ⟨rfl, rfl, rfl, rfl, rfl⟩)
      (.inr fun q hq => h.ctl.others hne hq) (by rw [hp]; rfl)
      ⟨hok.1, After.noConfusion, Nat.zero_le _⟩
    · exact absurd (h'.symm.trans hr) Bool.noConfusion
    · exact absurd (h'.symm.trans hr) Bool.noConfusion
  | instLoop r t =>
    simp only [Sys.run, hp] at hs
    have hne : (s.pc p).stage ≠ .idle := by
      rw [hp]
      cases r <;> exact Stage.noConfusion
    rw [hp] at hst hok
    split at hs
    next hn =>
      obtain rfl := Option.some.inj hs
      exact h.move rfl rfl rfl (h.stay (by rw [hp]; cases r <;> rfl))
        (fun j => ⟨rfl, rfl, rfl, rfl, rfl⟩) (.inl rfl) (by rw [hp]; rfl) ⟨hn, rfl⟩
    next hn =>
      obtain rfl := Option.some.inj hs
      -- every entry is installed and unpinned
      have hpin : ({ s with lh := [], installed := 0 } : Sys P).pinned = s.pinned := by
        unfold Sys.pinned
        cases r with
        | true =>
          have hr : s.ready = false := hst
          simp [hr]
        | false =>
          have hin : s.installed = t := hst.2.2.2.2
          rw [List.drop_nil, List.drop_eq_nil_of_le (by omega)]
      have hop : ∀ q, s.op q = none := by
        cases r with
        | true => exact (h.ctl.booting hst).2
        | false => exact h.ctl.busy hst.2.1
      have hb : s.ready = false → s.committing = false := fun hr => (h.ctl.booting hr).1
      refine h.move rfl rfl hpin (h.ctl.turn hne ?_ hop hb (fun _ => rfl)
        (fun _ => List.nodup_nil) fun _ => Nat.zero_le _) (fun j => ⟨rfl, rfl, rfl, rfl, rfl⟩)
        (.inr fun q hq => h.ctl.others hne hq) (by rw [hp]; rfl) rfl
      cases r with
      | true => exact ⟨hst, rfl⟩
      | false => exact ⟨hst.1, hst.2.1, rfl, rfl⟩
  | install r t i j =>
    simp only [Sys.run, hp] at hs
    obtain rfl := Option.some.inj hs
    have hne : (s.pc p).stage ≠ .idle := by
      rw [hp]
      cases r <;> exact Stage.noConfusion
    rw [hp] at hst hok
    cases r with
    | true =>
      exact h.move rfl rfl rfl (h.ctl.move hst fun _ => hne) (setData_same s j _ _) (.inl rfl)
        (by rw [hp]; rfl) ⟨hok.2.2.1.1, After.noConfusion, hok.1, hok.2.1, hok.2.2.2⟩
    | false =>
      exact h.move rfl rfl rfl
        (h.ctl.move ⟨hst.1, hst.2.1, Nat.le_succ t, hok.1, hst.2.2.2.2⟩ fun _ => hne)
        (setData_same s j _ _) (.inl rfl) (by rw [hp]; rfl) hok
  | bunpin t i j =>
    simp only [Sys.run, hp] at hs
    obtain rfl := Option.some.inj hs
    have hne : (s.pc p).stage ≠ .idle := by
      rw [hp]
      exact Stage.noConfusion
    rw [hp] at hst hok
    exact h.bunpin hp hst hok
  | endCommit =>
    simp only [Sys.run, hp] at hs
    obtain rfl := Option.some.inj hs
    have hne : (s.pc p).stage ≠ .idle := by
      rw [hp]
      exact Stage.noConfusion
    rw [hp] at hst hok
    obtain ⟨hr, hcom, hlh, hin⟩ := hst
    exact h.move rfl rfl rfl (h.ctl.turn hne trivial (h.ctl.busy hcom) (fun _ => rfl)
      (fun _ => hin) h.ctl.nodup h.ctl.room) (fun j => ⟨rfl, rfl, rfl, rfl, rfl⟩) (.inl rfl)
      (by rw [hp]; rfl) trivial

/-! ## Calls, and power-on -/

omit [DecidableEq P] in
/-- No operation begins before `committing` is cleared. -/
theorem CtlInv.not_committing {ready committing : Bool} {lh : List Nat} {installed : Nat}
    {op : P → Option Op} {outstanding : Nat} {pc : P → Pc}
    (h : CtlInv ready committing lh installed op outstanding pc) (hp : (op p).isSome = true) :
    committing = false := by
  by_contra hc
  rw [h.busy (by simpa using hc) p] at hp
  exact Bool.noConfusion hp

/-- The flags under `log_write`: an operation is in progress, so nobody is in
`log.c`, and only the entries may change. -/
theorem CtlInv.logWrite (h : BookInv start s) (hr : s.ready = true) {o : Op} (ho : s.op p = some o)
    (o' : Op) {lh : List Nat} (hn : lh.Nodup) (hroom : lh.length ≤ LOGBLOCKS) :
    CtlInv s.ready s.committing lh s.installed (Function.update s.op p (some o')) s.outstanding
      s.pc := by
  have hcom : s.committing = false := h.ctl.not_committing (p := p) (by rw [ho]; rfl)
  have hcount : (∑ q, if (Function.update s.op p (some o') q).isSome then 1 else 0)
      = ∑ q, if (s.op q).isSome then 1 else 0 := by
    refine Finset.sum_congr rfl fun q _ => ?_
    by_cases hq : q = p
    · subst hq
      rw [Function.update_self, ho]
      rfl
    · rw [Function.update_of_ne hq]
  refine ⟨fun q => ?_, h.ctl.alone, fun hc => ?_, fun hb => ?_, h.ctl.quiet,
    h.ctl.count.trans hcount.symm, fun _ => hn, fun _ => hroom⟩
  · rw [h.ctl.idle hr hcom q]
    exact trivial
  · exact absurd (hc.symm.trans hcom) Bool.noConfusion
  · exact absurd (hb.symm.trans hr) Bool.noConfusion

/-- `log_write` adds an entry for a block that has none, and pins it. -/
theorem BookInv.add (h : BookInv start s) {o : Op} {i : BufId} (hr : s.ready = true)
    (hu : s.pc p = .user) (ho : s.op p = some o) (hl : (s.buf i).lock = some p)
    (hmem : (s.buf i).blockno ∉ s.lh) (hroom : s.lh.length < LOGBLOCKS) (o' : Op)
    (trace pend : List Write) :
    BookInv start { s.setBuf i { s.buf i with dirty := false, refcnt := (s.buf i).refcnt + 1 } with
      lh := s.lh ++ [(s.buf i).blockno]
      op := Function.update s.op p (some o'), trace := trace, pend := pend } := by
  have hcom : s.committing = false := h.ctl.not_committing (p := p) (by rw [ho]; rfl)
  have hin := h.ctl.quiet hcom
  have hpins : s.pinned = s.lh := by simp [Sys.pinned, hr, hin]
  refine h.next (p := p) ?_ (CtlInv.logWrite h hr ho o' ?_ ?_) (fun q _ => rfl)
    (.inr fun q _ => h.ctl.idle hr hcom q) (fun q _ => Keep.update rfl rfl id) ?_
  · have hres := h.cache.bpin hl (hpins ▸ hmem) (x := { s.buf i with
      dirty := false, refcnt := (s.buf i).refcnt + 1 }) rfl rfl rfl rfl rfl
    have hpins' : ∀ b, ({ s with lh := s.lh ++ [b] } : Sys P).pinned = s.pinned ++ [b] := by
      intro b
      simp [Sys.pinned, hr, hin]
    rw [← hpins'] at hres
    exact hres
  · exact (List.nodup_append.mpr ⟨h.ctl.nodup hr, List.nodup_singleton _, fun a ha b hb hab =>
      hmem (by rw [← List.mem_singleton.mp hb, ← hab]; exact ha)⟩)
  · rw [List.length_append]
    exact hroom
  · change (s.pc p).Ok start _ _ p
    rw [hu]
    exact trivial

/-- The flags when an operation ends. -/
theorem CtlInv.endOp (h : BookInv start s) (hr : s.ready = true) (hop : (s.op p).isSome = true) :
    CtlInv s.ready s.committing s.lh s.installed (Function.update s.op p none) (s.outstanding - 1)
      s.pc := by
  have hcom := h.ctl.not_committing hop
  have hsum := sum_change (f := fun q => if (s.op q).isSome then 1 else 0)
    (g := fun q => if (Function.update s.op p none q).isSome then 1 else 0) p fun q hq => by
      simp only [Function.update_of_ne hq]
  simp only [Function.update_self, hop, Option.isSome_none, if_true, Bool.false_eq_true, if_false,
    Nat.add_zero] at hsum
  have hcount := h.ctl.count
  refine ⟨h.ctl.stage, h.ctl.alone, fun hc => ?_, fun hb => ?_, h.ctl.quiet, by omega,
    h.ctl.nodup, h.ctl.room⟩
  · exact absurd (hc.symm.trans hcom) Bool.noConfusion
  · exact absurd (hb.symm.trans hr) Bool.noConfusion

/-- The last operation to end starts the commit. -/
theorem BookInv.endLast (h : BookInv start s) (hr : s.ready = true) (hu : s.pc p = .user)
    (hop : (s.op p).isSome = true) (hzero : s.outstanding - 1 = 0) :
    BookInv start ({ s with
      outstanding := s.outstanding - 1, op := Function.update s.op p none,
      committing := true }.goto p .commit) := by
  have hcom := h.ctl.not_committing hop
  have hctl := CtlInv.endOp h hr hop
  have hnone : ∀ q, Function.update s.op p none q = none := by
    intro q
    have hle := le_sum (fun q => if (Function.update s.op p none q).isSome then 1 else 0) q
    have hcount := hctl.count
    rw [← Option.not_isSome_iff_eq_none]
    intro hq
    simp only [hq, if_true] at hle
    omega
  have hst : ∀ q, q ≠ p → (Function.update s.pc p .commit q).stage = .idle := by
    intro q hq
    rw [Function.update_of_ne hq]
    exact h.ctl.idle hr hcom q
  refine h.next (p := p) (h.cache.move (by rw [hu]; rfl)) ?_ (fun q hq => Sys.goto_ne _ _ hq)
    (.inl rfl) (fun q _ => Keep.refl _ _ _) ?_
  · refine ⟨fun q => ?_, alone_of_idle hst, fun _ => hnone, fun hb => ?_, fun hc => ?_,
      hctl.count, h.ctl.nodup, h.ctl.room⟩
    · by_cases hq : q = p
      · subst hq
        change (Function.update s.pc q .commit q).stage.Ok _ _ _ _
        rw [Function.update_self]
        exact ⟨hr, rfl, Nat.zero_le _, h.ctl.quiet hcom⟩
      · change (Function.update s.pc p .commit q).stage.Ok _ _ _ _
        rw [hst q hq]
        exact trivial
    · exact absurd (hb.symm.trans hr) Bool.noConfusion
    · exact Bool.noConfusion hc
  · rw [Sys.goto_self]
    exact trivial

/-- **A call.** -/
theorem call_book {a : Label P} (h : BookInv start s) (hr : s.ready = true)
    (hu : s.pc a.proc = .user) (hs : CallStep s a s') : BookInv start s' := by
  cases hs with
  | beginOp p hop hcom hroom =>
    refine ⟨h.cache, ⟨h.ctl.stage, h.ctl.alone, fun hc => ?_, fun hb => ?_, h.ctl.quiet, ?_,
      h.ctl.nodup, h.ctl.room⟩, h.pc⟩
    · exact absurd (hc.symm.trans hcom) Bool.noConfusion
    · exact absurd (hb.symm.trans hr) Bool.noConfusion
    · have hsum := sum_change (f := fun q => if (s.op q).isSome then 1 else 0)
        (g := fun q => if (Function.update s.op p (some ⟨s.nextOp, [], 0⟩) q).isSome
          then 1 else 0) p fun q hq => by simp only [Function.update_of_ne hq]
      simp only [Function.update_self, hop, Option.isSome_some, Option.isSome_none, if_true,
        Bool.false_eq_true, if_false, Nat.add_zero] at hsum
      rw [hsum, ← h.ctl.count]
  | bread p b =>
    have hu : s.pc p = .user := hu
    exact h.bget (by rw [hu]; rfl) (by rw [hu]; rfl) trivial
  | modify p i d hop hl =>
    have hu : s.pc p = .user := hu
    refine h.next (p := p) (h.cache.data (setData_same s i d true)) h.ctl (fun q _ => rfl)
      (.inl rfl) (fun q _ => Keep.update rfl rfl id) ?_
    change (s.pc p).Ok start s.lh _ p
    rw [hu]
    exact trivial
  | tooBig p o i ho hl hbig => exact ⟨h.cache, h.ctl, h.pc⟩
  | outside p o i ho hout hroom => exact ⟨h.cache, h.ctl, h.pc⟩
  | absorb p o i ho hl hmem hroom =>
    have hu : s.pc p = .user := hu
    refine h.next (p := p) (h.cache.data (setData_same s i _ _))
      (CtlInv.logWrite h hr ho _ (h.ctl.nodup hr) (h.ctl.room hr)) (fun q _ => rfl) (.inl rfl)
      (fun q _ => Keep.update rfl rfl id) ?_
    change (s.pc p).Ok start s.lh _ p
    rw [hu]
    exact trivial
  | add p o i ho hl hmem hroom => exact h.add hr hu ho hl hmem hroom _ _ _
  | brelse p i hl =>
    have hu : s.pc p = .user := hu
    exact h.releasesleep (by rw [hu]; rfl) (by rw [hu]; rfl) hl trivial
  | endPanic p hop hcom => exact ⟨h.cache, CtlInv.endOp h hr hop, h.pc⟩
  | endLast p hop hcom hzero => exact h.endLast hr hu hop hzero
  | endOther p hop hcom hz => exact ⟨h.cache, CtlInv.endOp h hr hop, h.pc⟩

/-- Power-on: an empty cache, and one process in `recover_from_log`. -/
theorem boot_book (s : Sys P) (p : P) : BookInv start (s.boot start p) := by
  have hpc : ∀ q, q ≠ p → (s.boot start p).pc q = .user := by
    intro q hq
    simp [Sys.boot, hq]
  have hp : (s.boot start p).pc p = .bget start .readHead := by
    simp [Sys.boot]
  have hidle : ∀ q, q ≠ p → ((s.boot start p).pc q).stage = .idle := by
    intro q hq
    rw [hpc q hq]
    rfl
  have href : ∀ q, ((s.boot start p).pc q).ref = none := by
    intro q
    by_cases hq : q = p
    · rw [hq, hp]
      rfl
    · rw [hpc q hq]
      rfl
  refine ⟨⟨fun i => ?_, fun i j b hi => ?_, fun i => ?_, fun i q hq => ?_, fun b hb => ?_⟩,
    ⟨fun q => ?_, alone_of_idle hidle, fun hc => ?_, fun _ => ⟨rfl, fun _ => rfl⟩, fun _ => rfl, ?_,
      fun _ => List.nodup_nil, fun _ => Nat.zero_le _⟩, fun q => ?_⟩
  · exact List.mem_reverse.mpr (List.mem_finRange i)
  · exact absurd (Buf.caches_iff.mp hi).1 (Nat.succ_ne_zero 0).symm
  · have hrefs : refs (s.boot start p).pc i = 0 := by
      unfold refs
      refine Finset.sum_eq_zero fun q _ => ?_
      rw [href q, if_neg (Option.some_ne_none i).symm]
    rw [hrefs]
    rfl
  · exact absurd hq.symm (Option.some_ne_none q)
  · exact absurd hb List.not_mem_nil
  · by_cases hq : q = p
    · rw [hq, hp]
      rfl
    · rw [hidle q hq]
      exact trivial
  · exact Bool.noConfusion hc
  · exact (Finset.sum_eq_zero fun q _ => rfl).symm
  · by_cases hq : q = p
    · rw [hq, hp]
      rfl
    · rw [hpc q hq]
      exact trivial

/-- **Every step keeps the books.** -/
theorem step_book {a : Label P} (h : BookInv start s) (hs : step start s a = some s') :
    BookInv start s' := by
  obtain ⟨p, -, rfl⟩ | ⟨p, -, -, hrun⟩ | ⟨-, hr, hu, hcall⟩ := step_cases hs
  · exact boot_book s p
  · exact run_book h hrun
  · exact call_book h hr hu hcall

end Step

end Xv6.Log
