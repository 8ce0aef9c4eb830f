import Xv6.Log.Crash

/-!
# Every operation is there or is not

A group is what was logged between two commits. An operation begins and ends
between two commits, since `commit` runs when no operation is in progress and none
begins before it is over; so all it has logged is in one group. A crash throws the
pending group away, and with it the operations in progress. `recover_from_log`
leaves home blocks that hold what the committed groups, in order, have made of
the first disk, and that is: some operations entirely, the others not at all.
-/

namespace Xv6.Log

open Lib

variable {P : Type}

/-- The writes of one operation. -/
def ofOp (id : Nat) (ws : List Write) : List Write := ws.filter fun w => w.op = id

/-- The writes of an operation are all in one group, all pending, or lost. -/
structure HistInv (s : Sys P) : Prop where
  fresh : ∀ w ∈ s.trace, w.op < s.nextOp
  ids : ∀ p o, s.op p = some o → o.id < s.nextOp
  sub : (s.groups.flatten ++ s.pend).Sublist s.trace
  group : ∀ g ∈ s.groups, ∀ w ∈ g,
    ofOp w.op g = ofOp w.op s.trace ∧ ∀ p o, s.op p = some o → o.id ≠ w.op
  pend : ∀ w ∈ s.pend, ofOp w.op s.pend = ofOp w.op s.trace
  active : ∀ p o, s.op p = some o → ofOp o.id s.pend = ofOp o.id s.trace

theorem ofOp_append (id : Nat) (ws vs : List Write) :
    ofOp id (ws ++ vs) = ofOp id ws ++ ofOp id vs :=
  List.filter_append ..

theorem ofOp_eq_nil {id : Nat} {ws : List Write} (h : ∀ w ∈ ws, w.op ≠ id) : ofOp id ws = [] :=
  List.filter_eq_nil_iff.mpr fun w hw => by simpa using h w hw

theorem ofOp_snoc_ne {id : Nat} {w : Write} (h : w.op ≠ id) (ws : List Write) :
    ofOp id (ws ++ [w]) = ofOp id ws := by
  have hw : ofOp id [w] = [] := ofOp_eq_nil fun v hv => List.mem_singleton.mp hv ▸ h
  rw [ofOp_append, hw, List.append_nil]

variable [Fintype P] [DecidableEq P] {start : Nat} {base : Nat → Block} {s s' : Sys P} {p : P}

omit [Fintype P] in
/-- Inside `log.c` one step touches the history: the header of a commit. -/
theorem run_history (hs : s.run start p = some s') :
    s'.trace = s.trace ∧ s'.op = s.op ∧ s'.nextOp = s.nextOp ∧
    ((s'.groups = s.groups ∧ s'.pend = s.pend) ∨
      ∃ i, s.pc p = .writeHead .commit i ∧ s'.groups = s.groups ++ [s.pend] ∧ s'.pend = []) := by
  cases hp : s.pc p with
  | user =>
    simp only [Sys.run, hp] at hs
    exact absurd hs.symm (Option.some_ne_none _)
  | bget b k =>
    simp only [Sys.run, hp] at hs
    obtain rfl := Option.some.inj hs
    unfold Sys.bget
    split
    · exact ⟨rfl, rfl, rfl, .inl ⟨rfl, rfl⟩⟩
    · split
      · exact ⟨rfl, rfl, rfl, .inl ⟨rfl, rfl⟩⟩
      · exact ⟨rfl, rfl, rfl, .inl ⟨rfl, rfl⟩⟩
  | acquiresleep i b k =>
    simp only [Sys.run, hp] at hs
    split at hs
    · obtain rfl := Option.some.inj hs
      exact ⟨rfl, rfl, rfl, .inl ⟨rfl, rfl⟩⟩
    · exact absurd hs.symm (Option.some_ne_none _)
  | unref i k =>
    simp only [Sys.run, hp] at hs
    obtain rfl := Option.some.inj hs
    obtain ⟨lru, -, hu⟩ := unref_eq s i
    rw [hu]
    split
    · exact ⟨rfl, rfl, rfl, .inl ⟨rfl, rfl⟩⟩
    · exact ⟨rfl, rfl, rfl, .inl ⟨rfl, rfl⟩⟩
  | writeHead w i =>
    simp only [Sys.run, hp] at hs
    obtain rfl := Option.some.inj hs
    split
    next hw => exact ⟨rfl, rfl, rfl, .inr ⟨i, hw ▸ rfl, rfl, rfl⟩⟩
    next => exact ⟨rfl, rfl, rfl, .inl ⟨rfl, rfl⟩⟩
  | instLoop r t =>
    simp only [Sys.run, hp] at hs
    split at hs
    · obtain rfl := Option.some.inj hs
      exact ⟨rfl, rfl, rfl, .inl ⟨rfl, rfl⟩⟩
    · obtain rfl := Option.some.inj hs
      exact ⟨rfl, rfl, rfl, .inl ⟨rfl, rfl⟩⟩
  | _ =>
    simp only [Sys.run, hp] at hs
    obtain rfl := Option.some.inj hs
    exact ⟨rfl, rfl, rfl, .inl ⟨rfl, rfl⟩⟩

omit [Fintype P] [DecidableEq P] in
theorem HistInv.keep (h : HistInv s) (htrace : s'.trace = s.trace) (hop : s'.op = s.op)
    (hnext : s'.nextOp = s.nextOp) (hgroups : s'.groups = s.groups) (hpend : s'.pend = s.pend) :
    HistInv s' := by
  refine ⟨?_, ?_, ?_, ?_, ?_, ?_⟩
  · rw [htrace, hnext]
    exact h.fresh
  · rw [hop, hnext]
    exact h.ids
  · rw [hgroups, hpend, htrace]
    exact h.sub
  · rw [hgroups, htrace, hop]
    exact h.group
  · rw [hpend, htrace]
    exact h.pend
  · rw [hop, hpend, htrace]
    exact h.active

theorem run_hist (hb : BookInv start s) (h : HistInv s) (hs : s.run start p = some s') :
    HistInv s' := by
  obtain ⟨htrace, hop, hnext, ⟨hgroups, hpend⟩ | ⟨i, hp, hgroups, hpend⟩⟩ := run_history hs
  · exact h.keep htrace hop hnext hgroups hpend
  · have hst := hb.ctl.stage p
    rw [hp] at hst
    have hnone := hb.ctl.busy hst.2.1
    have hno : ∀ q o, s.op q ≠ some o := by
      intro q o ho
      rw [hnone q] at ho
      exact absurd ho.symm (Option.some_ne_none o)
    refine ⟨?_, ?_, ?_, ?_, ?_, ?_⟩
    · rw [htrace, hnext]
      exact h.fresh
    · rw [hop, hnext]
      exact h.ids
    · rw [hgroups, hpend, htrace, List.flatten_append, List.flatten_singleton, List.append_nil]
      exact h.sub
    · rw [hgroups, htrace, hop]
      intro g hg w hw
      rcases List.mem_append.mp hg with hg | hg
      · exact h.group g hg w hw
      · rw [List.mem_singleton.mp hg] at hw ⊢
        exact ⟨h.pend w hw, fun q o ho => absurd ho (hno q o)⟩
    · rw [hpend]
      exact fun w hw => absurd hw List.not_mem_nil
    · rw [hop]
      exact fun q o ho => absurd ho (hno q o)

omit [Fintype P] in
/-- `log_write` adds its write to the trace and to the pending group. -/
theorem HistInv.logWrite (h : HistInv s) {o o' : Op} (ho : s.op p = some o) (hid : o'.id = o.id)
    (b : Nat) (d : Block)
    (htrace : s'.trace = s.trace ++ [⟨o.id, b, d⟩]) (hpend : s'.pend = s.pend ++ [⟨o.id, b, d⟩])
    (hgroups : s'.groups = s.groups) (hnext : s'.nextOp = s.nextOp)
    (hop : s'.op = Function.update s.op p (some o')) : HistInv s' := by
  have hids : ∀ q x, Function.update s.op p (some o') q = some x →
    ∃ y, s.op q = some y ∧ x.id = y.id := by
    intro q x hx
    by_cases hq : q = p
    · subst hq
      rw [Function.update_self, Option.some.injEq] at hx
      exact ⟨o, ho, hx ▸ hid⟩
    · rw [Function.update_of_ne hq] at hx
      exact ⟨x, hx, rfl⟩
  -- the writes of every operation that is not over stay together
  have htog : ∀ id, ofOp id s.pend = ofOp id s.trace →
      ofOp id (s.pend ++ [⟨o.id, b, d⟩]) = ofOp id (s.trace ++ [⟨o.id, b, d⟩]) := by
    intro id heq
    rw [ofOp_append, ofOp_append, heq]
  refine ⟨?_, ?_, ?_, ?_, ?_, ?_⟩
  · rw [htrace, hnext]
    intro w hw
    rcases List.mem_append.mp hw with hw | hw
    · exact h.fresh w hw
    · rw [List.mem_singleton.mp hw]
      exact h.ids p o ho
  · rw [hop, hnext]
    intro q x hx
    obtain ⟨y, hy, hxy⟩ := hids q x hx
    rw [hxy]
    exact h.ids q y hy
  · rw [hgroups, hpend, htrace, ← List.append_assoc]
    exact h.sub.append (List.Sublist.refl _)
  · rw [hgroups, htrace, hop]
    intro g hg w hw
    obtain ⟨hall, hdone⟩ := h.group g hg w hw
    refine ⟨?_, fun q x hx => ?_⟩
    · rw [ofOp_snoc_ne (hdone p o ho)]
      exact hall
    · obtain ⟨y, hy, hxy⟩ := hids q x hx
      rw [hxy]
      exact hdone q y hy
  · rw [hpend, htrace]
    intro w hw
    rcases List.mem_append.mp hw with hw | hw
    · exact htog w.op (h.pend w hw)
    · rw [List.mem_singleton.mp hw]
      exact htog o.id (h.active p o ho)
  · rw [hop, hpend, htrace]
    intro q x hx
    obtain ⟨y, hy, hxy⟩ := hids q x hx
    rw [hxy]
    exact htog y.id (h.active q y hy)

omit [Fintype P] in
/-- A process leaves its operation. -/
theorem HistInv.endOp (h : HistInv s) (htrace : s'.trace = s.trace) (hpend : s'.pend = s.pend)
    (hgroups : s'.groups = s.groups) (hnext : s'.nextOp = s.nextOp)
    (hop : s'.op = Function.update s.op p none) : HistInv s' := by
  have hold : ∀ q x, s'.op q = some x → s.op q = some x := by
    intro q x hx
    rw [hop] at hx
    by_cases hq : q = p
    · subst hq
      rw [Function.update_self] at hx
      exact absurd hx.symm (Option.some_ne_none x)
    · rwa [Function.update_of_ne hq] at hx
  refine ⟨?_, fun q x hx => ?_, ?_, fun g hg w hw => ?_, ?_, fun q x hx => ?_⟩
  · rw [htrace, hnext]
    exact h.fresh
  · rw [hnext]
    exact h.ids q x (hold q x hx)
  · rw [hgroups, hpend, htrace]
    exact h.sub
  · rw [hgroups] at hg
    rw [htrace]
    obtain ⟨hall, hdone⟩ := h.group g hg w hw
    exact ⟨hall, fun q x hx => hdone q x (hold q x hx)⟩
  · rw [hpend, htrace]
    exact h.pend
  · rw [hpend, htrace]
    exact h.active q x (hold q x hx)

omit [Fintype P] in
/-- A new operation has a number of its own. -/
theorem HistInv.beginOp (h : HistInv s) (p : P) :
    HistInv { s with
      outstanding := s.outstanding + 1
      nextOp := s.nextOp + 1
      op := Function.update s.op p (some ⟨s.nextOp, [], 0⟩) } := by
  have hcases : ∀ q x, Function.update s.op p (some ⟨s.nextOp, [], 0⟩) q = some x →
      x.id = s.nextOp ∨ s.op q = some x := by
    intro q x hx
    by_cases hq : q = p
    · subst hq
      rw [Function.update_self, Option.some.injEq] at hx
      exact .inl (hx ▸ rfl)
    · rw [Function.update_of_ne hq] at hx
      exact .inr hx
  have hnew : ∀ ws : List Write, (∀ w ∈ ws, w ∈ s.trace) → ofOp s.nextOp ws = [] :=
    fun ws hws => ofOp_eq_nil fun w hw => Nat.ne_of_lt (h.fresh w (hws w hw))
  have hsub : ∀ w ∈ s.groups.flatten ++ s.pend, w ∈ s.trace := fun w hw => h.sub.subset hw
  refine ⟨fun w hw => Nat.lt_succ_of_lt (h.fresh w hw), fun q x hx => ?_, h.sub,
    fun g hg w hw => ?_,
    h.pend, fun q x hx => ?_⟩
  · rcases hcases q x hx with hx | hx
    · exact hx ▸ Nat.lt_succ_self _
    · exact Nat.lt_succ_of_lt (h.ids q x hx)
  · obtain ⟨hall, hdone⟩ := h.group g hg w hw
    refine ⟨hall, fun q x hx => ?_⟩
    rcases hcases q x hx with hx | hx
    · have hmem : w ∈ s.groups.flatten ++ s.pend :=
        List.mem_append_left _ (List.mem_flatten.mpr ⟨g, hg, hw⟩)
      have := h.fresh w (hsub w hmem)
      omega
    · exact hdone q x hx
  · change ofOp x.id s.pend = ofOp x.id s.trace
    rcases hcases q x hx with hx | hx
    · rw [hx, hnew s.pend fun w hw => hsub w (List.mem_append_right _ hw),
        hnew s.trace fun w hw => hw]
    · exact h.active q x hx

omit [Fintype P] in
theorem call_hist {a : Label P} (h : HistInv s) (hs : CallStep s a s') : HistInv s' := by
  cases hs with
  | beginOp p hop hcom hroom => exact h.beginOp p
  | bread p b =>
    unfold Sys.bget
    split
    · exact h.keep rfl rfl rfl rfl rfl
    · split
      · exact h.keep rfl rfl rfl rfl rfl
      · exact h.keep rfl rfl rfl rfl rfl
  | absorb p o i ho hl hmem hroom =>
    have hid : (o.log (s.buf i).blockno).id = o.id := rfl
    exact h.logWrite ho hid _ _ rfl rfl rfl rfl rfl
  | add p o i ho hl hmem hroom =>
    have hid : ({ o.log (s.buf i).blockno with added := o.added + 1 } : Op).id = o.id := rfl
    exact h.logWrite ho hid _ _ rfl rfl rfl rfl rfl
  | endPanic p hop hcom => exact h.endOp rfl rfl rfl rfl rfl
  | endLast p hop hcom hz => exact h.endOp rfl rfl rfl rfl rfl
  | endOther p hop hcom hz => exact h.endOp rfl rfl rfl rfl rfl
  | _ => exact h.keep rfl rfl rfl rfl rfl

theorem step_hist {a : Label P} (hb : BookInv start s) (h : HistInv s)
    (hs : step start s a = some s') : HistInv s' := by
  obtain ⟨p, -, rfl⟩ | ⟨p, -, -, hrun⟩ | ⟨-, -, -, hcall⟩ := step_cases hs
  · have hno : ∀ (q : P) (o : Op), (none : Option Op) ≠ some o := fun q o =>
      (Option.some_ne_none o).symm
    refine ⟨h.fresh, fun q o ho => absurd ho (hno q o), ?_, fun g hg w hw => ?_,
      fun w hw => absurd hw List.not_mem_nil, fun q o ho => absurd ho (hno q o)⟩
    · change (s.groups.flatten ++ []).Sublist s.trace
      rw [List.append_nil]
      exact (List.sublist_append_left _ _).trans h.sub
    · exact ⟨(h.group g hg w hw).1, fun q o ho => absurd ho (hno q o)⟩
  · exact run_hist hb h hrun
  · exact call_hist h hcall

/-! ## Recovery -/

/-- What `recover_from_log` has done when it returns. -/
theorem step_recovered {a : Label P} (hb : BookInv start s) (h : CrashInv start base s)
    (hs : step start s a = some s') (h0 : s.ready = false) (h1 : s'.ready = true) :
    ∀ b, Home start b → s'.disk b = produced s'.groups base b := by
  obtain ⟨p, -, rfl⟩ | ⟨p, -, -, hrun⟩ | ⟨-, hr, -⟩ := step_cases hs
  · exact Bool.noConfusion h1
  · have hc := run_crash hb h hrun
    have hb' := run_book hb hrun
    have hpend : s'.pend = [] := by
      rcases (run_history hrun).2.2.2 with ⟨-, hp⟩ | ⟨i, -, -, hp⟩
      · rw [hp]
        exact h.boot h0
      · exact hp
    have hlh : s'.lh = [] := by
      cases (run_log hb hrun).1 with
      | same _ _ hr => exact absurd (h0.symm.trans (hr.symm.trans h1)) Bool.noConfusion
      | read _ hr => exact absurd (hr.symm.trans h1) Bool.noConfusion
      | unpin _ _ _ _ _ _ hr => exact absurd (h0.symm.trans (hr.symm.trans h1)) Bool.noConfusion
      | clear hlh _ _ _ => exact hlh
      | ready _ hlh => exact hlh
    intro b hbh
    rw [← s'.cur_of_pend hpend]
    refine hc.clean h1 b hbh ?_
    simp [Sys.pinned, hlh]
  · exact absurd (h0.symm.trans hr) Bool.noConfusion

omit [Fintype P] in
/-- Groups are made by the header of a commit, and by nothing else. -/
theorem step_groups {a : Label P} (hs : step start s a = some s') :
    s'.groups = s.groups ∨
      ∃ p i, a = .run p ∧ s.pc p = .writeHead .commit i ∧ s'.groups = s.groups ++ [s.pend] := by
  obtain ⟨p, -, rfl⟩ | ⟨p, rfl, -, hrun⟩ | ⟨-, -, -, hcall⟩ := step_cases hs
  · exact .inl rfl
  · rcases (run_history hrun).2.2.2 with ⟨hg, -⟩ | ⟨i, hp, hg, -⟩
    · exact .inl hg
    · exact .inr ⟨p, i, rfl, hp, hg⟩
  · cases hcall with
    | bread p b =>
      unfold Sys.bget
      split
      · exact .inl rfl
      · split
        · exact .inl rfl
        · exact .inl rfl
    | _ => exact .inl rfl

/-- **Crash atomicity.** Start from a disk that holds `base`, home or through its
log. In every run of operations that change blocks through `log_write` only, with
crashes anywhere and any number of recoveries: when `recover_from_log` returns,
the home blocks are those that the groups whose header reached the disk, in order,
have made of `base`; and for every operation, one of these groups has all the
writes it ever logged, or none of them has any. -/
theorem crash_atomicity {disk : Nat → Block} {q : P} (hd : DiskInv start base disk)
    (h : Reach (step start) (Logs start) (fun s => s = powerOn start disk q) s) :
    (∀ a s', step start s a = some s' → s.ready = false → s'.ready = true →
      ∀ b, Home start b → s'.disk b = produced s'.groups base b) ∧
    (∀ a s', step start s a = some s' → s'.groups = s.groups ∨
      ∃ p i, a = .run p ∧ s.pc p = .writeHead .commit i ∧ s'.groups = s.groups ++ [s.pend]) ∧
    s.groups.flatten.Sublist s.trace ∧
    ∀ id, (∃ g ∈ s.groups, ofOp id g = ofOp id s.trace) ∨ ∀ g ∈ s.groups, ofOp id g = [] := by
  have h0 : ∀ s : Sys P, s = powerOn start disk q →
      BookInv start s ∧ CrashInv start base s ∧ HistInv s := by
    rintro _ rfl
    refine ⟨boot_book _ q, boot_crash hd q, ?_, ?_, ?_, ?_, ?_, ?_⟩
    · exact fun w hw => absurd hw List.not_mem_nil
    · exact fun p o ho => absurd ho.symm (Option.some_ne_none o)
    · exact List.Sublist.refl _
    · exact fun g hg => absurd hg List.not_mem_nil
    · exact fun w hw => absurd hw List.not_mem_nil
    · exact fun p o ho => absurd ho.symm (Option.some_ne_none o)
  obtain ⟨hb, hc, hh⟩ := h.inv h0 fun hinv hok hs =>
    ⟨step_book hinv.1 hs, step_crash hinv.1 hinv.2.1 hok hs, step_hist hinv.1 hinv.2.2 hs⟩
  refine ⟨fun a s' hs => step_recovered hb hc hs, fun a s' hs => step_groups hs,
    (List.sublist_append_left _ _).trans hh.sub, fun id => ?_⟩
  by_cases hsome : ∃ g ∈ s.groups, ∃ w ∈ g, w.op = id
  · obtain ⟨g, hg, w, hw, rfl⟩ := hsome
    exact .inl ⟨g, hg, (hh.group g hg w hw).1⟩
  · exact .inr fun g hg => ofOp_eq_nil fun w hw he => hsome ⟨g, hg, w, hw, he⟩

/-- A disk whose header is empty holds itself. -/
theorem DiskInv.of_empty {disk : Nat → Block} (h : (disk start).head = []) :
    DiskInv start disk disk := by
  refine ⟨fun j hj => ?_, fun b _ _ => rfl, fun b hb => ?_, ?_⟩
  · rw [h] at hj
    exact absurd hj (Nat.not_lt_zero j)
  · rw [h] at hb
    exact absurd hb List.not_mem_nil
  · rw [h]
    exact Nat.zero_le _

instance (start : Nat) (s : Sys Slot) : ∀ a, Decidable (Logs start s a)
  | .logWrite _ i => inferInstanceAs (Decidable (Home start (s.buf i).blockno))
  | .brelse _ i => inferInstanceAs (Decidable ((s.buf i).dirty = false))
  | .endOp p => inferInstanceAs (Decidable (∀ i, (s.buf i).lock = some p → (s.buf i).dirty = false))
  | .beginOp _ | .bread _ _ | .modify _ _ _ | .run _ | .crash _ => .isTrue trivial

/-- Block 100 is logged, the header reaches the disk, and the machine crashes before
the block is installed; then all of `recover_from_log` but its last step. -/
def crashRun : List (Label Slot) :=
  recoverRun 0 ++ [.beginOp 0] ++ logBlock 0 100 1 ++ [.endOp 0] ++ List.replicate 15 (.run 0) ++
    [.crash 0] ++ List.replicate 20 (.run 0)

theorem crash_atomicity_installed :
    ∃ s s', Reach (step 2) (Logs 2) (fun s => s = blank) s ∧ step 2 s (.run 0) = some s' ∧
      s'.groups.length = 1 ∧ (s'.disk 100).word 0 = 7 ∧
      s'.disk 100 = produced s'.groups (fun _ _ => 0) 100 := by
  have hobs : (runFrom (guarded (step 2) (Logs 2)) blank crashRun).map (fun s => (s.ready,
      (step 2 s (.run 0)).map fun s' => (s'.ready, s'.groups.length, (s'.disk 100).word 0)))
      = some (false, some (true, 1, 7)) := by
    decide +kernel
  obtain ⟨s, hs, hobs⟩ := Option.map_eq_some_iff.mp hobs
  obtain ⟨hr, hobs⟩ := Prod.mk.inj hobs
  obtain ⟨s', hs', hobs⟩ := Option.map_eq_some_iff.mp hobs
  obtain ⟨hr', hobs⟩ := Prod.mk.inj hobs
  obtain ⟨hlen, hword⟩ := Prod.mk.inj hobs
  obtain ⟨hok, hrun⟩ := runFrom_guarded _ hs
  have hreach : Reach (step 2) (Logs 2) (fun s => s = blank) s := .of_run _ (.start rfl) hok hrun
  have hd : DiskInv 2 (fun _ _ => 0) (fun _ _ => 0) := DiskInv.of_empty (by decide)
  exact ⟨s, s', hreach, hs', hlen, hword,
    (crash_atomicity hd hreach).1 _ s' hs' hr hr' 100 (.inr (by decide))⟩

end Xv6.Log
