import Xv6.Ftable.Ends

/-!
# What every step keeps: files, pipes, pages

The counts of `Count.lean` say who may reach a file; the ends of `Ends.lean` who
may reach a pipe. Here the two meet. `fileclose` of a last reference turns a
file's end into its caller's; a file in the making has one reference, its maker's,
so nobody closes it under him. With that each statement keeps

* `FileInv` — a free slot is `FD_NONE`, a pipe end is read or written,
* `PageInv` — the ends, flags and pages of every pipe agree,
* `Books` — no panic, no page given back twice, and all that was taken is given
  back or in use.
-/

namespace Xv6.Ftable

open Lib

/-- Files: a free slot has no type, a pipe end is read or written, and a file in
the making is still nothing. -/
structure FileInv (s : FS) : Prop where
  zero : ∀ f, (s.file f).ref = 0 → (s.file f).type = .FD_NONE
  oneWay : ∀ f, (s.file f).type = .FD_PIPE → (s.file f).readable = !(s.file f).writable
  building : ∀ p f, f ∈ (s.pc p).building → (s.file f).ref = 1 ∧ (s.file f).type = .FD_NONE

/-- A page `pipealloc` took and has not given back. -/
def Use.ofPipe : Use → Nat
  | .metadata | .data _ => 1
  | _ => 0

/-- Nothing went wrong, and what was taken was given back or is in use. -/
structure Books (s : FS) : Prop where
  panicked : s.panicked = false
  corrupt : s.corrupt = false
  balance : ∀ pg, s.taken pg = s.given pg + (s.use pg).ofPipe

structure PipeInv (v : Version) (s : FS) : Prop where
  files : FileInv s
  pages : PageInv v s
  books : Books s

/-! ## Files -/

/-- Files in the making are held by the process that makes them. -/
theorem held_building {c : Pc} {row : Fd → Option FileId} (hrow : c.RowOk row) {f : FileId}
    (hf : f ∈ c.building) : 1 ≤ held c row f := by
  unfold held
  cases c with
  | openType g fd =>
    obtain rfl := List.mem_singleton.mp hf
    exact Nat.le_add_right_of_le (entries_pos hrow (Option.some_ne_none fd).symm)
  | initWrite f0 f1 pi =>
    obtain rfl := List.mem_singleton.mp hf
    exact Nat.le_add_left_of_le (List.count_pos_iff.mpr (List.mem_cons_of_mem _ hf))
  | filealloc1 | kallocMeta | kallocData | initPipe | initRead | openFd =>
    exact Nat.le_add_left_of_le (List.count_pos_iff.mpr hf)
  | _ => exact absurd hf List.not_mem_nil

/-- Nobody makes a file that another process holds. -/
theorem not_building {s : FS} (hc : CountInv s) (h : FileInv s) {p q : Slot} {f : FileId}
    (hp : 1 ≤ held (s.pc p) (s.ofile p) f) (hq : q ≠ p) : f ∉ (s.pc q).building := by
  intro hf
  exact hq (hc.sole (h.building q f hf).1 (held_building (hc.row q) hf) hp)

/-- A step of `p` that changes no file. -/
theorem FileInv.quiet {s s₁ : FS} (h : FileInv s) {p : Slot} {c : Pc} (hpc : s₁.pc = s.pc)
    (hfile : s₁.file = s.file) (hb : c.building ⊆ (s.pc p).building) : FileInv (s₁.goto p c) := by
  refine ⟨?_, ?_, fun q f hf => ?_⟩
  · show ∀ f, (s₁.file f).ref = 0 → (s₁.file f).type = .FD_NONE
    rw [hfile]
    exact h.zero
  · show ∀ f, (s₁.file f).type = _ → (s₁.file f).readable = !(s₁.file f).writable
    rw [hfile]
    exact h.oneWay
  · show (s₁.file f).ref = 1 ∧ (s₁.file f).type = _
    rw [hfile]
    by_cases hq : q = p
    · subst hq
      rw [FS.goto_pc_self] at hf
      exact h.building q f (hb hf)
    · rw [FS.goto_pc_of_ne hq, hpc] at hf
      exact h.building q f hf

/-- A step of `p` that changes one file, which nobody else is making. -/
theorem FileInv.put {s : FS} (h : FileInv s) {p : Slot} {c : Pc} {f : FileId} {x : File}
    (hzero : x.ref = 0 → x.type = .FD_NONE)
    (hone : x.type = .FD_PIPE → x.readable = !x.writable)
    (hother : ∀ q, q ≠ p → f ∉ (s.pc q).building)
    (hb : ∀ g ∈ c.building, g = f ∧ x.ref = 1 ∧ x.type = .FD_NONE ∨
      g ≠ f ∧ g ∈ (s.pc p).building) : FileInv ((s.setFile f x).goto p c) := by
  have hself : ((s.setFile f x).goto p c).file f = x := FS.setFile_self s f x
  have hne : ∀ g, g ≠ f → ((s.setFile f x).goto p c).file g = s.file g :=
    fun g hg => FS.setFile_of_ne hg s x
  refine ⟨fun g => ?_, fun g => ?_, fun q g hg => ?_⟩
  · by_cases hgf : g = f
    · subst hgf
      rw [hself]
      exact hzero
    · rw [hne g hgf]
      exact h.zero g
  · by_cases hgf : g = f
    · subst hgf
      rw [hself]
      exact hone
    · rw [hne g hgf]
      exact h.oneWay g
  · by_cases hq : q = p
    · subst hq
      rw [FS.goto_pc_self] at hg
      rcases hb g hg with ⟨rfl, hx⟩ | ⟨hgf, hold⟩
      · rw [hself]
        exact hx
      · rw [hne g hgf]
        exact h.building q g hold
    · rw [FS.goto_pc_of_ne hq] at hg
      have hgf : g ≠ f := by
        rintro rfl
        exact hother q hq hg
      rw [hne g hgf]
      exact h.building q g hg

/-! ## The books -/

/-- A step that leaves pages and flags of failure alone. -/
theorem Books.same {s s' : FS} (h : Books s) (huse : s'.use = s.use) (htaken : s'.taken = s.taken)
    (hgiven : s'.given = s.given) (hpanic : s'.panicked = s.panicked)
    (hcorrupt : s'.corrupt = s.corrupt) : Books s' := by
  refine ⟨hpanic.trans h.panicked, hcorrupt.trans h.corrupt, fun pg => ?_⟩
  rw [htaken, hgiven, huse]
  exact h.balance pg

theorem Books.goto {s : FS} (h : Books s) (p : Slot) (c : Pc) : Books (s.goto p c) :=
  h.same rfl rfl rfl rfl rfl

theorem Books.kalloc {s : FS} (h : Books s) {pg : Page} {u : Use} (hpg : s.use pg = .free)
    (hu : u.ofPipe = 1) : Books (s.kalloc pg u) := by
  refine ⟨h.panicked, h.corrupt, fun pg' => ?_⟩
  have hb := h.balance pg'
  by_cases hne : pg' = pg
  · subst hne
    rw [hpg] at hb
    simp only [FS.kalloc, Function.update_self, hu]
    exact congrArg (· + 1) hb
  · simp only [FS.kalloc, Function.update_of_ne hne]
    exact hb

theorem Books.kfree {s : FS} (h : Books s) {pg : Page} {u : Use} (hpg : s.use pg = u)
    (hu : u.ofPipe = 1) : Books (s.kfree pg u) := by
  unfold FS.kfree
  dsimp only
  rw [if_pos hpg]
  refine ⟨h.panicked, h.corrupt, fun pg' => ?_⟩
  have hb := h.balance pg'
  by_cases hne : pg' = pg
  · subst hne
    rw [hpg, hu] at hb
    simp only [Function.update_self]
    exact hb
  · simp only [Function.update_of_ne hne]
    exact hb

/-- A page that comes from or goes to somebody else is not in the books. -/
theorem Books.use {s : FS} (h : Books s) {pg : Page} {u : Use}
    (hpg : (s.use pg).ofPipe = u.ofPipe) :
    Books { s with use := Function.update s.use pg u } := by
  refine ⟨h.panicked, h.corrupt, fun pg' => ?_⟩
  have hb := h.balance pg'
  by_cases hne : pg' = pg
  · subst hne
    rw [hpg] at hb
    simp only [Function.update_self]
    exact hb
  · simp only [Function.update_of_ne hne]
    exact hb

/-! ## Every step keeps the invariant -/

@[simp] theorem After.ends_pc (k : After) : k.pc.ends = [] := by
  match k with
  | .files [] => rfl
  | .files (_ :: _) => rfl
  | .exitUnset _ _ => rfl

@[simp] theorem After.building_pc (k : After) : k.pc.building = [] := by
  match k with
  | .files [] => rfl
  | .files (_ :: _) => rfl
  | .exitUnset _ _ => rfl

@[simp] theorem After.usesData_pc (k : After) : k.pc.usesData = false := by
  match k with
  | .files [] => rfl
  | .files (_ :: _) => rfl
  | .exitUnset _ _ => rfl

/-- A step of `p` that changes descriptors and nothing else. -/
theorem PipeInv.quiet {v : Version} {s : FS} (h : PipeInv v s) {p : Slot} {c : Pc}
    (o : Slot → Fd → Option FileId) (hb : c.building ⊆ (s.pc p).building)
    (he : c.ends = (s.pc p).ends) (hu : c.usesData = true → dataPage v = true) :
    PipeInv v ({ s with ofile := o }.goto p c) :=
  ⟨h.files.quiet rfl rfl hb, h.pages.quiet rfl rfl rfl (fun _ => rfl) he hu,
    h.books.same rfl rfl rfl rfl rfl⟩

theorem stake_setFile {s : FS} {f : FileId} {x : File} (hx : x.stake = (s.file f).stake)
    (g : FileId) : ((s.setFile f x).file g).stake = (s.file g).stake := by
  by_cases hg : g = f
  · subst hg
    rw [FS.setFile_self, hx]
  · rw [FS.setFile_of_ne hg]

/-- A step of `p` that changes one file, but not the end it stands for. -/
theorem PipeInv.setFile {v : Version} {s : FS} (h : PipeInv v s) {p : Slot} {c : Pc} {f : FileId}
    {x : File} (hx : x.stake = (s.file f).stake) (he : c.ends = (s.pc p).ends)
    (hu : c.usesData = true → dataPage v = true) (hfiles : FileInv ((s.setFile f x).goto p c)) :
    PipeInv v ((s.setFile f x).goto p c) :=
  ⟨hfiles, h.pages.quiet rfl rfl rfl (stake_setFile hx) he hu,
    h.books.same rfl rfl rfl rfl rfl⟩

/-- `filealloc()` found `f`. -/
theorem PipeInv.filealloc {v : Version} {s : FS} (h : PipeInv v s) {p : Slot} {c : Pc} {f : FileId}
    (hf : s.freeFile = some f) (hb : ∀ g ∈ c.building, g = f ∨ g ∈ (s.pc p).building)
    (he : c.ends = (s.pc p).ends) (hu : c.usesData = false) :
    PipeInv v ((s.setFile f { s.file f with ref := 1 }).goto p c) := by
  have hzero := FS.ref_of_freeFile hf
  have hfresh : ∀ q, f ∉ (s.pc q).building := fun q hq => by
    have hone := (h.files.building q f hq).1
    omega
  refine h.setFile rfl he (fun h => by rw [hu] at h; exact absurd h Bool.false_ne_true)
    (h.files.put (fun h => absurd h Nat.one_ne_zero) (h.files.oneWay f) (fun q _ => hfresh q)
      fun g hg => ?_)
  by_cases hgf : g = f
  · exact .inl ⟨hgf, rfl, h.files.zero f hzero⟩
  · exact .inr ⟨hgf, (hb g hg).resolve_left hgf⟩

/-- `filedup(f)`, by a process that holds a reference to `f`. -/
theorem PipeInv.filedup {v : Version} {s : FS} (hc : CountInv s) (h : PipeInv v s) {p : Slot}
    {c : Pc} {f : FileId} (hf : 1 ≤ held (s.pc p) (s.ofile p) f) (hb : c.building = [])
    (he : c.ends = (s.pc p).ends) (hu : c.usesData = false) :
    PipeInv v ((s.filedup f).goto p c) := by
  have hone : 1 ≤ (s.file f).ref := hf.trans (hc.held_le p f)
  unfold FS.filedup
  rw [if_neg (by omega)]
  refine h.setFile rfl he (fun h => by rw [hu] at h; exact absurd h Bool.false_ne_true)
    (h.files.put (fun h => absurd h (Nat.succ_ne_zero _)) (h.files.oneWay f)
      (fun q hq => not_building hc h.files hf hq) fun g hg => ?_)
  rw [hb] at hg
  exact absurd hg List.not_mem_nil

/-- `fileclose(f)`: the last reference to a pipe end gives the end to the caller. -/
theorem PipeInv.fileclose {v : Version} {s : FS} (hc : CountInv s) (h : PipeInv v s) {p : Slot}
    {f : FileId} {k : After} (hp : s.pc p = .fileclose f k) : PipeInv v (s.fileclose p f k) := by
  have hf : 1 ≤ held (s.pc p) (s.ofile p) f := by
    rw [hp]
    exact Nat.le_add_left_of_le (List.count_pos_iff.mpr List.mem_cons_self)
  have hone : 1 ≤ (s.file f).ref := hf.trans (hc.held_le p f)
  have hother := fun q hq => not_building hc h.files (q := q) hf hq
  have hends : (s.pc p).ends = [] := by rw [hp]; rfl
  have hnone : ∀ {b : Bool}, b = false → b = true → dataPage v = true := fun hb hb' => by
    rw [hb] at hb'
    exact absurd hb' Bool.false_ne_true
  unfold FS.fileclose
  dsimp only
  rw [if_neg (by omega)]
  split
  · next hpos =>
    refine h.setFile rfl (k.ends_pc.trans hends.symm) (hnone k.usesData_pc)
      (h.files.put (fun h => absurd h (by show (s.file f).ref - 1 ≠ 0; omega)) (h.files.oneWay f)
        hother fun g hg => ?_)
    rw [k.building_pc] at hg
    exact absurd hg List.not_mem_nil
  · split
    · next hpipe =>
      have hst : (s.file f).stake = some ((s.file f).pipe, (s.file f).writable) := if_pos hpipe
      refine ⟨h.files.put (fun _ => rfl) (fun hx => FileType.noConfusion hx) hother
        (fun g hg => absurd hg List.not_mem_nil), ?_,
        h.books.same rfl rfl rfl rfl rfl⟩
      refine h.pages.hand (s.file f).pipe (s.file f).writable (.inl f) (.inr p)
        (.inl rfl) (.inr rfl)
        ⟨hst, rfl⟩ (fun e => ?_) (fun e st => ?_) (fun pi' hne e => ?_) (fun pi' hne e st => ?_) rfl
      · rw [hst]
        simp only [File.stake, Option.some.injEq, Prod.mk.injEq, true_and, Sum.inr_ne_inl]
        simp [eq_comm]
      · rw [hends]
        simp [Pc.ends]
      · rw [hst]
        simp only [File.stake, Option.some.injEq, Prod.mk.injEq]
        simp [Ne.symm hne]
      · rw [hends]
        simp [Pc.ends, hne]
    · next hpipe =>
      have hst : (s.file f).stake = none := if_neg hpipe
      refine h.setFile (by rw [hst]; rfl) (k.ends_pc.trans hends.symm) (hnone k.usesData_pc)
        (h.files.put (fun _ => rfl) (fun hx => FileType.noConfusion hx) hother fun g hg => ?_)
      rw [k.building_pc] at hg
      exact absurd hg List.not_mem_nil

/-- A file in the making has a place to go: the two of `pipealloc` are not the
same. -/
theorem building_ne {s : FS} (hc : CountInv s) (h : FileInv s) {p : Slot} {f₀ f₁ : FileId}
    (hcarry : (s.pc p).carry = [f₀, f₁]) (hf : f₀ ∈ (s.pc p).building) : f₁ ≠ f₀ := by
  rintro rfl
  have hle := hc.held_le p f₁
  rw [(h.building p f₁ hf).1, held, hcarry, List.count_cons_self, List.count_singleton_self] at hle
  omega

theorem PipeInv.initRead {v : Version} {s : FS} (hc : CountInv s) (h : PipeInv v s) {p : Slot}
    {f0 f1 : FileId} {pi : Page} (hp : s.pc p = .initRead f0 f1 pi) :
    PipeInv v ((s.setFile f0
      { s.file f0 with type := .FD_PIPE, readable := true, writable := false, pipe := pi }).goto p
        (.initWrite f0 f1 pi)) := by
  have hf : 1 ≤ held (s.pc p) (s.ofile p) f0 := by
    rw [hp]
    exact Nat.le_add_left_of_le (List.count_pos_iff.mpr List.mem_cons_self)
  have hb : f0 ∈ (s.pc p).building := by rw [hp]; exact List.mem_cons_self
  obtain ⟨hone, hnone⟩ := h.files.building p f0 hb
  have hne : f1 ≠ f0 := building_ne hc h.files (by rw [hp]; rfl) hb
  have hst : (s.file f0).stake = none :=
    if_neg (by rw [hnone]; exact fun hx => FileType.noConfusion hx)
  have hends : (s.pc p).ends = whole pi .live := by rw [hp]; rfl
  refine ⟨h.files.put (fun hx => ?_) (fun _ => rfl) (fun q hq => not_building hc h.files hf hq)
    (fun g hg => ?_), ?_, h.books.same rfl rfl rfl rfl rfl⟩
  · exact absurd (hone.symm.trans hx) Nat.one_ne_zero
  · obtain rfl := List.mem_singleton.mp hg
    refine .inr ⟨hne, ?_⟩
    rw [hp]
    exact List.mem_cons_of_mem _ hg
  · refine h.pages.hand pi false (.inr p) (.inl f0) (.inr rfl) (.inl rfl) ?_ (fun e => ?_)
      (fun e st => ?_) (fun pi' hne e => ?_) (fun pi' hne e st => ?_) rfl
    · show _ ∈ (s.pc p).ends
      rw [hends]
      exact mem_whole.mpr ⟨rfl, rfl⟩
    · rw [hst]
      simp [File.stake, eq_comm]
    · rw [hends, mem_whole]
      cases e <;> simp [Pc.ends]
    · rw [hst]
      simp [File.stake, Ne.symm hne]
    · rw [hends, mem_whole]
      simp [Pc.ends, hne]

theorem PipeInv.initWrite {v : Version} {s : FS} (hc : CountInv s) (h : PipeInv v s) {p : Slot}
    {f0 f1 : FileId} {pi : Page} (hp : s.pc p = .initWrite f0 f1 pi) :
    PipeInv v ((s.setFile f1
      { s.file f1 with type := .FD_PIPE, readable := false, writable := true, pipe := pi }).goto p
        (.fdalloc0 f0 f1)) := by
  have hf : 1 ≤ held (s.pc p) (s.ofile p) f1 := by
    rw [hp]
    exact Nat.le_add_left_of_le
      (List.count_pos_iff.mpr (List.mem_cons_of_mem _ (List.mem_singleton_self _)))
  have hb : f1 ∈ (s.pc p).building := by rw [hp]; exact List.mem_singleton_self _
  obtain ⟨hone, hnone⟩ := h.files.building p f1 hb
  have hst : (s.file f1).stake = none :=
    if_neg (by rw [hnone]; exact fun hx => FileType.noConfusion hx)
  have hends : (s.pc p).ends = [(pi, true, .live)] := by rw [hp]; rfl
  refine ⟨h.files.put (fun hx => ?_) (fun _ => rfl) (fun q hq => not_building hc h.files hf hq)
    (fun g hg => absurd hg List.not_mem_nil), ?_,
    h.books.same rfl rfl rfl rfl rfl⟩
  · exact absurd (hone.symm.trans hx) Nat.one_ne_zero
  · refine h.pages.hand pi true (.inr p) (.inl f1) (.inr rfl) (.inl rfl) ?_ (fun e => ?_)
      (fun e st => ?_) (fun pi' hne e => ?_) (fun pi' hne e st => ?_) rfl
    · show _ ∈ (s.pc p).ends
      rw [hends]
      exact List.mem_singleton_self _
    · rw [hst]
      simp [File.stake, eq_comm]
    · rw [hends]
      cases e <;> simp [Pc.ends]
    · rw [hst]
      simp [File.stake, Ne.symm hne]
    · rw [hends]
      simp [Pc.ends, hne]

theorem PipeInv.openType {v : Version} {s : FS} (hc : CountInv s) (h : PipeInv v s) {p : Slot}
    {f : FileId} {fd : Fd} (hp : s.pc p = .openType f fd) {t : FileType} (ht : t ≠ .FD_PIPE)
    (r w : Bool) : PipeInv v ((s.setFile f
      { s.file f with type := t, readable := r, writable := w }).goto p .user) := by
  have hb : f ∈ (s.pc p).building := by rw [hp]; exact List.mem_singleton_self _
  obtain ⟨hone, hnone⟩ := h.files.building p f hb
  have hst : (s.file f).stake = none :=
    if_neg (by rw [hnone]; exact fun hx => FileType.noConfusion hx)
  refine h.setFile (by rw [hst]; exact if_neg ht) (by rw [hp]; rfl)
    (fun hu => absurd hu Bool.false_ne_true)
    (h.files.put (fun hx => ?_) (fun hx => absurd hx ht)
      (fun q hq => not_building hc h.files (held_building (hc.row p) hb) hq)
      (fun g hg => absurd hg List.not_mem_nil))
  exact absurd (hone.symm.trans hx) Nat.one_ne_zero

section

variable {v : Version} {s s' : FS} {p : Slot} {a : Choice}

/-- A step that only moves on, or sets a descriptor. -/
theorem PipeInv.goOn (h : PipeInv v s) (o : Slot → Fd → Option FileId) {c : Pc}
    (hb : c.building = []) (he : c.ends = (s.pc p).ends) (hu : c.usesData = false) :
    PipeInv v ({ s with ofile := o }.goto p c) :=
  h.quiet o (by rw [hb]; exact List.nil_subset _) he fun hu' =>
    absurd (hu.symm.trans hu') Bool.false_ne_true

theorem filealloc1_pipe (h : PipeInv v s) {f0 : FileId}
    (hp : s.pc p = .filealloc1 f0) (hs : s.run v p a = some s') : PipeInv v s' := by
  simp only [FS.run, hp] at hs
  split at hs
  · next f1 hf =>
    obtain rfl := Option.some.inj hs
    refine h.filealloc hf (fun g hg => ?_) (by rw [hp]; rfl) rfl
    rw [hp]
    rcases List.mem_cons.mp hg with rfl | hg
    · exact .inr List.mem_cons_self
    · exact .inl (List.mem_singleton.mp hg)
  · obtain rfl := Option.some.inj hs
    exact h.goOn _ rfl (by rw [hp]; rfl) rfl

theorem kallocMeta_pipe (h : PipeInv v s) {f0 f1 : FileId}
    (hp : s.pc p = .kallocMeta f0 f1) (hs : s.run v p a = some s') : PipeInv v s' := by
  simp only [FS.run, hp] at hs
  have hends : (s.pc p).ends = [] := by rw [hp]; rfl
  split at hs
  · next pi _ =>
    split at hs
    · next hfree =>
      obtain rfl := Option.some.inj hs
      have hb := h.books.kalloc (u := .metadata) hfree rfl
      cases hv : dataPage v with
      | true =>
        exact ⟨h.files.quiet rfl rfl (by rw [hp]; exact List.Subset.refl _),
          h.pages.kallocMeta hends hfree (.inl ⟨hv, rfl⟩), hb.goto p _⟩
      | false =>
        exact ⟨h.files.quiet rfl rfl (by rw [hp]; exact List.Subset.refl _),
          h.pages.kallocMeta hends hfree (.inr ⟨hv, rfl, rfl⟩),
          hb.goto p _⟩
    · exact absurd hs.symm (Option.some_ne_none _)
  · obtain rfl := Option.some.inj hs
    exact h.goOn _ rfl (by rw [hp]; rfl) rfl

theorem kallocData_pipe (h : PipeInv v s) {f0 f1 : FileId} {pi : Page}
    (hp : s.pc p = .kallocData f0 f1 pi) (hs : s.run v p a = some s') : PipeInv v s' := by
  simp only [FS.run, hp] at hs
  have hv : dataPage v = true := h.pages.usesData p (by rw [hp]; rfl)
  split at hs
  · next pg _ =>
    split at hs
    · next hfree =>
      obtain rfl := Option.some.inj hs
      have hb := h.books.kalloc (u := .data pi) hfree rfl
      exact ⟨h.files.quiet rfl rfl (by rw [hp]; exact List.Subset.refl _),
        h.pages.kallocData (by rw [hp]; rfl) hv hfree rfl, hb.same rfl rfl rfl rfl rfl⟩
    · exact absurd hs.symm (Option.some_ne_none _)
  · obtain rfl := Option.some.inj hs
    exact h.goOn _ rfl (by rw [hp]; rfl) rfl

theorem pipeclose_pipe (h : PipeInv v s) {pi : Page} {writable : Bool} {k : After}
    (hp : s.pc p = .pipeclose pi writable k) (hs : s.run v p a = some s') : PipeInv v s' := by
  simp only [FS.run, hp] at hs
  obtain rfl := Option.some.inj hs
  have hends : (s.pc p).ends = [(pi, writable, .live)] := by rw [hp]; rfl
  unfold FS.pipeclose
  dsimp only
  split
  · next hoff =>
    have hoff := (Pipe.shut_both _ _).mp hoff
    cases hv : dataPage v with
    | true =>
      exact ⟨h.files.quiet rfl rfl (List.nil_subset _),
        h.pages.closeBoth hends hoff (.inl ⟨hv, rfl⟩),
        h.books.same rfl rfl rfl rfl rfl⟩
    | false =>
      exact ⟨h.files.quiet rfl rfl (List.nil_subset _),
        h.pages.closeBoth hends hoff (.inr ⟨hv, rfl, rfl⟩),
        h.books.same rfl rfl rfl rfl rfl⟩
  · next hon =>
    rw [Pipe.shut_both, Bool.not_eq_false] at hon
    exact ⟨h.files.quiet rfl rfl (by rw [k.building_pc]; exact List.nil_subset _),
      h.pages.closeOne hends hon k.ends_pc k.usesData_pc,
      h.books.same rfl rfl rfl rfl rfl⟩

theorem kfreeData_pipe (h : PipeInv v s) {pi : Page} {k : After}
    (hp : s.pc p = .kfreeData pi k) (hs : s.run v p a = some s') : PipeInv v s' := by
  simp only [FS.run, hp] at hs
  obtain rfl := Option.some.inj hs
  obtain ⟨hpc, -, hfile⟩ := kfree_same s (s.pipe pi).data (.data pi)
  have hb := h.books.kfree (h.pages.data_there hp).1 rfl
  exact ⟨h.files.quiet hpc hfile (List.nil_subset _), h.pages.kfreeData hp,
    hb.goto p _⟩

theorem kfreeMeta_pipe (h : PipeInv v s) {pi : Page} {k : After}
    (hp : s.pc p = .kfreeMeta pi k) (hs : s.run v p a = some s') : PipeInv v s' := by
  simp only [FS.run, hp] at hs
  obtain rfl := Option.some.inj hs
  obtain ⟨hpc, -, hfile⟩ := kfree_same s pi .metadata
  have hb := h.books.kfree (h.pages.meta_there hp) rfl
  exact ⟨h.files.quiet hpc hfile (by rw [k.building_pc]; exact List.nil_subset _),
    h.pages.kfreeMeta hp k.ends_pc k.usesData_pc, hb.goto p _⟩

theorem filedup_pipe (hc : CountInv s) (h : PipeInv v s) {f : FileId} {fd : Fd}
    (hp : s.pc p = .filedup f fd) (hs : s.run v p a = some s') : PipeInv v s' := by
  have hrow := hc.row p
  simp only [FS.run, hp] at hs
  rw [hp] at hrow
  obtain rfl := Option.some.inj hs
  obtain ⟨-, fd', hne, hfd'⟩ := hrow
  refine PipeInv.filedup hc h ?_ rfl (by rw [hp]; rfl) rfl
  rw [hp]
  exact Nat.le_add_right_of_le (entries_pos hfd' fun he => hne (Option.some.inj he).symm)

theorem forkLoop_pipe (hc : CountInv s) (h : PipeInv v s) {np : Slot} {fds : List Fd}
    (hp : s.pc p = .forkLoop np fds) (hs : s.run v p a = some s') : PipeInv v s' := by
  simp only [FS.run, hp] at hs
  split at hs
  · next fd fds =>
    split at hs
    · next f hfd =>
      obtain rfl := Option.some.inj hs
      refine PipeInv.filedup hc h ?_ rfl (by rw [hp]; rfl) rfl
      rw [hp]
      exact Nat.le_add_right_of_le (entries_pos hfd (Option.some_ne_none fd).symm)
    · obtain rfl := Option.some.inj hs
      exact h.goOn _ rfl (by rw [hp]; rfl) rfl
  · obtain rfl := Option.some.inj hs
    have hchild : (s.pc p).child = some (np, []) := by rw [hp]; rfl
    have hn := hc.nursed (by rw [hp]; exact fun hx => Pc.noConfusion hx) hchild
      (List.Sublist.refl _)
    have h₁ : PipeInv v (s.goto p .user) := h.goOn s.ofile rfl (by rw [hp]; rfl) rfl
    refine h₁.quiet _ (List.nil_subset _) ?_ fun hx => absurd hx Bool.false_ne_true
    rw [FS.goto_pc_of_ne hn.ne, hn.newborn]
    rfl

theorem run_pipe (hc : CountInv s) (h : PipeInv v s) (hs : s.run v p a = some s') :
    PipeInv v s' := by
  cases hp : s.pc p with
  | dead | newborn | user =>
    simp only [FS.run, hp] at hs
    exact absurd hs.symm (Option.some_ne_none _)
  | filealloc0 =>
    simp only [FS.run, hp] at hs
    split at hs
    · next f0 hf =>
      obtain rfl := Option.some.inj hs
      exact h.filealloc hf (fun g hg => .inl (List.mem_singleton.mp hg)) (by rw [hp]; rfl) rfl
    · obtain rfl := Option.some.inj hs
      exact h.goOn _ rfl (by rw [hp]; rfl) rfl
  | filealloc1 f0 => exact filealloc1_pipe h hp hs
  | kallocMeta f0 f1 => exact kallocMeta_pipe h hp hs
  | kallocData f0 f1 pi => exact kallocData_pipe h hp hs
  | initPipe f0 f1 pi =>
    simp only [FS.run, hp] at hs
    obtain rfl := Option.some.inj hs
    exact ⟨h.files.quiet rfl rfl (by rw [hp]; exact List.Subset.refl _),
      h.pages.initPipe (by rw [hp]; rfl) rfl rfl,
      h.books.same rfl rfl rfl rfl rfl⟩
  | initRead f0 f1 pi =>
    simp only [FS.run, hp] at hs
    obtain rfl := Option.some.inj hs
    exact PipeInv.initRead hc h hp
  | initWrite f0 f1 pi =>
    simp only [FS.run, hp] at hs
    obtain rfl := Option.some.inj hs
    exact PipeInv.initWrite hc h hp
  | fdalloc0 rf wf | fdalloc1 rf wf fd0 =>
    simp only [FS.run, hp] at hs
    split at hs <;> obtain rfl := Option.some.inj hs <;> exact h.goOn _ rfl (by rw [hp]; rfl) rfl
  | copyout rf wf fd0 fd1 =>
    simp only [FS.run, hp] at hs
    obtain rfl := Option.some.inj hs
    cases a.ok <;> exact h.goOn _ rfl (by rw [hp]; rfl) rfl
  | unset0 rf wf fd0 fd1 =>
    simp only [FS.run, hp] at hs
    obtain rfl := Option.some.inj hs
    cases fd1 <;> exact h.goOn _ rfl (by rw [hp]; rfl) rfl
  | unset1 rf wf fd1 =>
    simp only [FS.run, hp] at hs
    obtain rfl := Option.some.inj hs
    exact h.goOn _ rfl (by rw [hp]; rfl) rfl
  | fileclose f k =>
    simp only [FS.run, hp] at hs
    obtain rfl := Option.some.inj hs
    exact PipeInv.fileclose hc h hp
  | pipeclose pi writable k => exact pipeclose_pipe h hp hs
  | kfreeData pi k => exact kfreeData_pipe h hp hs
  | kfreeMeta pi k => exact kfreeMeta_pipe h hp hs
  | openAlloc =>
    simp only [FS.run, hp] at hs
    split at hs
    · next f hf =>
      obtain rfl := Option.some.inj hs
      exact h.filealloc hf (fun g hg => .inl (List.mem_singleton.mp hg)) (by rw [hp]; rfl) rfl
    · obtain rfl := Option.some.inj hs
      exact h.goOn _ rfl (by rw [hp]; rfl) rfl
  | openFd f =>
    simp only [FS.run, hp] at hs
    split at hs
    · obtain rfl := Option.some.inj hs
      exact h.quiet _ (by rw [hp]; exact List.Subset.refl _) (by rw [hp]; rfl)
        fun hx => absurd hx Bool.false_ne_true
    · obtain rfl := Option.some.inj hs
      exact h.goOn _ rfl (by rw [hp]; rfl) rfl
  | openType f fd =>
    simp only [FS.run, hp] at hs
    obtain rfl := Option.some.inj hs
    refine PipeInv.openType hc h hp ?_ _ _
    cases a.device <;> exact fun hx => FileType.noConfusion hx
  | filedup f fd => exact filedup_pipe hc h hp hs
  | forkLoop np fds => exact forkLoop_pipe hc h hp hs
  | forkSet np f fd fds =>
    simp only [FS.run, hp] at hs
    obtain rfl := Option.some.inj hs
    exact h.goOn _ rfl (by rw [hp]; rfl) rfl
  | exitLoop fds =>
    simp only [FS.run, hp] at hs
    split at hs
    · split at hs <;> obtain rfl := Option.some.inj hs <;> exact h.goOn _ rfl (by rw [hp]; rfl) rfl
    · obtain rfl := Option.some.inj hs
      exact h.goOn _ rfl (by rw [hp]; rfl) rfl
  | exitUnset fd fds =>
    simp only [FS.run, hp] at hs
    obtain rfl := Option.some.inj hs
    exact h.goOn _ rfl (by rw [hp]; rfl) rfl

end

theorem enter_pipe {v : Version} {s s' : FS} {p : Slot} {f : Call} (h : PipeInv v s)
    (hp : s.pc p = .user) (hs : s.enter p f = some s') : PipeInv v s' := by
  cases f with
  | sysPipe | sysOpen =>
    obtain rfl := Option.some.inj hs
    exact h.goOn _ rfl (by rw [hp]; rfl) rfl
  | kexit =>
    simp only [FS.enter] at hs
    split at hs
    · exact absurd hs.symm (Option.some_ne_none _)
    · obtain rfl := Option.some.inj hs
      exact h.goOn _ rfl (by rw [hp]; rfl) rfl
  | sysDup fd =>
    simp only [FS.enter] at hs
    split at hs
    · split at hs
      · obtain rfl := Option.some.inj hs
        exact h.goOn _ rfl (by rw [hp]; rfl) rfl
      · obtain rfl := Option.some.inj hs
        exact h
    · obtain rfl := Option.some.inj hs
      exact h
  | sysClose fd =>
    simp only [FS.enter] at hs
    split at hs
    · obtain rfl := Option.some.inj hs
      exact h.goOn _ rfl (by rw [hp]; rfl) rfl
    · obtain rfl := Option.some.inj hs
      exact h
  | kfork np =>
    simp only [FS.enter] at hs
    split at hs
    · next hnp =>
      obtain rfl := Option.some.inj hs
      have hne : p ≠ np := by
        rintro rfl
        rw [hp] at hnp
        exact Pc.noConfusion hnp
      have h₁ : PipeInv v (s.goto np .newborn) :=
        h.quiet s.ofile (List.nil_subset _) (by rw [hnp]; rfl)
          fun hu => absurd hu Bool.false_ne_true
      refine h₁.quiet _ (List.nil_subset _) ?_ fun hu => absurd hu Bool.false_ne_true
      rw [FS.goto_pc_of_ne hne, hp]
      rfl
    · exact absurd hs.symm (Option.some_ne_none _)

/-- A page that somebody else takes or gives back is no pipe's. -/
theorem PipeInv.use {v : Version} {s : FS} (h : PipeInv v s) {pg : Page} {u : Use}
    (hpg : s.use pg = .free ∨ s.use pg = .other) (hu : u = .free ∨ u = .other) :
    PipeInv v { s with use := Function.update s.use pg u } := by
  have hiff : ∀ {w : Use} (pg' : Page), w ≠ .free → w ≠ .other →
      (Function.update s.use pg u pg' = w ↔ s.use pg' = w) := by
    intro w pg' hwf hwo
    by_cases hne : pg' = pg
    · subst hne
      rw [Function.update_self]
      refine ⟨fun hw => ?_, fun hw => ?_⟩
      · rcases hu with hu | hu
        · exact absurd (hw.symm.trans hu) hwf
        · exact absurd (hw.symm.trans hu) hwo
      · rcases hpg with hpg | hpg
        · exact absurd (hw.symm.trans hpg) hwf
        · exact absurd (hw.symm.trans hpg) hwo
    · rw [Function.update_of_ne hne]
  have hzero : (s.use pg).ofPipe = u.ofPipe := by
    rcases hpg with hpg | hpg <;> rcases hu with hu | hu <;> rw [hpg, hu] <;> rfl
  refine ⟨⟨h.files.zero, h.files.oneWay, h.files.building⟩, ⟨fun pi => ?_, h.pages.usesData⟩,
    h.books.use hzero⟩
  obtain ⟨d, hd⟩ := h.pages.page pi
  refine ⟨d, hd.same ⟨rfl, ?_, fun pg' => ?_, fun o e st => ?_⟩⟩
  · exact hiff pi (fun hw => Use.noConfusion hw) (fun hw => Use.noConfusion hw)
  · exact hiff pg' (fun hw => Use.noConfusion hw) (fun hw => Use.noConfusion hw)
  · match o with
    | .inl f => exact Iff.rfl
    | .inr q => exact Iff.rfl

/-- Every step keeps the invariant. -/
theorem step_pipe {v : Version} {s s' : FS} {a : Act} (hc : CountInv s) (h : PipeInv v s)
    (hs : step v s a = some s') : PipeInv v s' := by
  cases a with
  | call p f =>
    simp only [step] at hs
    split at hs
    · next hp => exact enter_pipe h hp hs
    · exact absurd hs.symm (Option.some_ne_none _)
  | step p a => exact run_pipe hc h hs
  | take pg =>
    simp only [step] at hs
    split at hs
    · next hpg =>
      obtain rfl := Option.some.inj hs
      exact h.use (.inl hpg) (.inr rfl)
    · exact absurd hs.symm (Option.some_ne_none _)
  | give pg =>
    simp only [step] at hs
    split at hs
    · next hpg =>
      obtain rfl := Option.some.inj hs
      exact h.use (.inr hpg) (.inl rfl)
    · exact absurd hs.symm (Option.some_ne_none _)

theorem init_pipe {v : Version} {s : FS} (h : Init s) : PipeInv v s := by
  have hpc : ∀ p, (s.pc p).building = [] ∧ (s.pc p).ends = [] ∧ (s.pc p).usesData = false := by
    intro p
    rcases h.pc p with hp | hp <;> rw [hp] <;> exact ⟨rfl, rfl, rfl⟩
  have huse : ∀ pg, (s.use pg).ofPipe = 0 := by
    intro pg
    rcases h.use pg with hp | hp <;> rw [hp] <;> rfl
  have hmeta : ∀ pg, s.use pg ≠ .metadata := fun pg hm => by
    have hz := huse pg
    rw [hm] at hz
    exact Nat.one_ne_zero hz
  have hnopipe : ∀ f, (s.file f).type ≠ .FD_PIPE := fun f hf => by
    rw [(h.file f).2] at hf
    exact FileType.noConfusion hf
  refine ⟨⟨fun f _ => (h.file f).2, fun f hf => absurd hf (hnopipe f), fun p f hf => ?_⟩,
    ⟨fun pi => ⟨fun _ => none, fun o e st => ⟨fun hs => ?_, fun hn => ?_⟩, fun _ _ _ hn => ?_,
      fun hm => absurd hm (hmeta pi), fun hm => absurd hm (hmeta pi), fun pg hpg => ?_⟩,
      fun p hu => ?_⟩, ⟨h.panicked, h.corrupt, fun pg => ?_⟩⟩
  · rw [(hpc p).1] at hf
    exact absurd hf List.not_mem_nil
  · match o with
    | .inl f =>
      have hst : (s.file f).stake = none := if_neg (hnopipe f)
      have hs := hs.1
      rw [hst] at hs
      exact absurd hs.symm (Option.some_ne_none _)
    | .inr q =>
      have hs : (pi, e, st) ∈ (s.pc q).ends := hs
      rw [(hpc q).2.1] at hs
      exact absurd hs List.not_mem_nil
  · exact absurd hn.symm (Option.some_ne_none _)
  · exact absurd hn.symm (Option.some_ne_none _)
  · have hz := huse pg
    rw [hpg] at hz
    exact absurd hz Nat.one_ne_zero
  · rw [(hpc p).2.2] at hu
    exact absurd hu Bool.false_ne_true
  · rw [huse, (h.count pg).1, (h.count pg).2]

theorem reach_pipe {v : Version} {s : FS} (h : Reach (step v) Any Init s) :
    CountInv s ∧ PipeInv v s :=
  h.inv (fun s hi => (⟨init_count hi, init_pipe hi⟩ : CountInv s ∧ PipeInv v s))
    fun hinv _ hs => ⟨step_count hinv.1 hs, step_pipe hinv.1 hinv.2 hs⟩

end Xv6.Ftable
