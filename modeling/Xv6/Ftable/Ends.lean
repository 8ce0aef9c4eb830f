import Xv6.Ftable.Count

/-!
# Who owns the ends of a pipe

Each end of a pipe has one owner at a time: the file that stands for it, or the
process that is setting it up or taking it down. `pipealloc` owns both ends until
it hands one to `f0` and one to `f1`; `fileclose` of the last reference takes an
end back; `pipeclose` clears its flag, and whoever clears the second flag owns
both ends again and frees the pages. So

> the metadata page is allocated while an end has an owner, the flag of an end is
> set while a file stands for it, and nobody frees a page he does not own.

How far the pages are along is the `Stage` of the owner. Pages are looked at one
pipe at a time (`PageOk`): a step touches one pipe, and the others are the same
(`SamePage`).
-/

namespace Xv6.Ftable

open Lib

/-- How much of a pipe there is: the metadata page, the data page too, the flags
too. -/
inductive Stage
  | bare | raw | live
  deriving DecidableEq

/-- Whoever owns an end: a file, or a process. -/
abbrev Owner := FileId ⊕ Slot

/-- Both ends of the pipe at `pi`. -/
def whole (pi : Page) (st : Stage) : List (Page × Bool × Stage) := [(pi, false, st), (pi, true, st)]

/-- The ends a process owns. -/
def Pc.ends : Pc → List (Page × Bool × Stage)
  | .kallocData _ _ pi => whole pi .bare
  | .initPipe _ _ pi => whole pi .raw
  | .initRead _ _ pi => whole pi .live
  | .initWrite _ _ pi => [(pi, true, .live)]
  | .pipeclose pi writable _ => [(pi, writable, .live)]
  | .kfreeData pi _ => whole pi .raw
  | .kfreeMeta pi _ => whole pi .bare
  | _ => []

/-- Files a process has allocated and not made into anything. -/
def Pc.building : Pc → List FileId
  | .filealloc1 f0 => [f0]
  | .kallocMeta f0 f1 | .kallocData f0 f1 _ | .initPipe f0 f1 _ | .initRead f0 f1 _ => [f0, f1]
  | .initWrite _ f1 _ => [f1]
  | .openFd f | .openType f _ => [f]
  | _ => []

/-- Statements inside `#if PIPE_VERSION >= 4`. -/
def Pc.usesData : Pc → Bool
  | .kallocData _ _ _ | .kfreeData _ _ => true
  | _ => false

/-- The end a file stands for. -/
def File.stake (x : File) : Option (Page × Bool) :=
  if x.type = .FD_PIPE then some (x.pipe, x.writable) else none

/-- `o` owns the end `e` of the pipe at `pi`. -/
def Stake (s : FS) : Owner → Page → Bool → Stage → Prop
  | .inl f, pi, e, st => (s.file f).stake = some (pi, e) ∧ st = .live
  | .inr p, pi, e, st => (pi, e, st) ∈ (s.pc p).ends

/-- What there is of the pipe at `pi`, for the owner of the end `e`. -/
def StageOk (v : Version) (s : FS) (pi : Page) (e : Bool) : Stage → Prop
  | .bare => ∀ pg, s.use pg ≠ .data pi
  | .raw => dataPage v = true → s.use (s.pipe pi).data = .data pi
  | .live => (dataPage v = true → s.use (s.pipe pi).data = .data pi) ∧ (s.pipe pi).isOpen e = true

/-- The page `pi`, whose ends are owned as `d` says. -/
structure PageOk (v : Version) (s : FS) (pi : Page) (d : Bool → Option (Owner × Stage)) : Prop where
  owned : ∀ o e st, Stake s o pi e st ↔ d e = some (o, st)
  stage : ∀ e o st, d e = some (o, st) → s.use pi = .metadata ∧ StageOk v s pi e st
  kept : s.use pi = .metadata → ∃ e, d e ≠ none
  shut : s.use pi = .metadata → ∀ e, d e = none → (s.pipe pi).isOpen e = false
  data : ∀ pg, s.use pg = .data pi →
    s.use pi = .metadata ∧ (s.pipe pi).data = pg ∧ dataPage v = true

/-- Every pipe's pages are in order. -/
structure PageInv (v : Version) (s : FS) : Prop where
  page : ∀ pi, ∃ d, PageOk v s pi d
  usesData : ∀ p, (s.pc p).usesData = true → dataPage v = true

/-! ## A pipe that a step does not touch -/

structure SamePage (s s' : FS) (pi : Page) : Prop where
  pipe : s'.pipe pi = s.pipe pi
  use : s'.use pi = .metadata ↔ s.use pi = .metadata
  data : ∀ pg, s'.use pg = .data pi ↔ s.use pg = .data pi
  stake : ∀ o e st, Stake s' o pi e st ↔ Stake s o pi e st

theorem SamePage.stageOk {v : Version} {s s' : FS} {pi : Page} (h : SamePage s s' pi) {e : Bool}
    {st : Stage} (hst : StageOk v s pi e st) : StageOk v s' pi e st := by
  cases st with
  | bare => exact fun pg hpg => hst pg ((h.data pg).mp hpg)
  | raw =>
    unfold StageOk at hst ⊢
    rw [h.pipe, h.data]
    exact hst
  | live =>
    unfold StageOk at hst ⊢
    rw [h.pipe, h.data]
    exact hst

theorem PageOk.same {v : Version} {s s' : FS} {pi : Page} {d : Bool → Option (Owner × Stage)}
    (h : PageOk v s pi d) (hs : SamePage s s' pi) : PageOk v s' pi d := by
  refine ⟨fun o e st => (hs.stake o e st).trans (h.owned o e st), fun e o st hd => ?_, fun hm => ?_,
    fun hm e hd => ?_, fun pg hpg => ?_⟩
  · obtain ⟨hm, hst⟩ := h.stage e o st hd
    exact ⟨hs.use.mpr hm, hs.stageOk hst⟩
  · exact h.kept (hs.use.mp hm)
  · rw [hs.pipe]
    exact h.shut (hs.use.mp hm) e hd
  · obtain ⟨hm, hdata, hv⟩ := h.data pg ((hs.data pg).mp hpg)
    rw [hs.pipe]
    exact ⟨hs.use.mpr hm, hdata, hv⟩

theorem stake_self {s : FS} {p : Slot} {c : Pc} {pi : Page} {e : Bool} {st : Stage} :
    Stake (s.goto p c) (.inr p) pi e st ↔ (pi, e, st) ∈ c.ends := by
  show (pi, e, st) ∈ ((s.goto p c).pc p).ends ↔ _
  rw [FS.goto_pc_self]

theorem stake_other {s s₁ : FS} {p q : Slot} {c : Pc} {pi : Page} {e : Bool} {st : Stage}
    (hpc : s₁.pc = s.pc) (hq : q ≠ p) :
    Stake (s₁.goto p c) (.inr q) pi e st ↔ Stake s (.inr q) pi e st := by
  show (pi, e, st) ∈ ((s₁.goto p c).pc q).ends ↔ (pi, e, st) ∈ (s.pc q).ends
  rw [FS.goto_pc_of_ne hq, hpc]

/-- Stakes in one pipe are the same when the files that stand for its ends and the
ends the running process owns are. -/
theorem stake_goto {s s₁ : FS} {p : Slot} {c : Pc} {pi : Page} (hpc : s₁.pc = s.pc)
    (hfile : ∀ f e, (s₁.file f).stake = some (pi, e) ↔ (s.file f).stake = some (pi, e))
    (hends : ∀ e st, (pi, e, st) ∈ c.ends ↔ (pi, e, st) ∈ (s.pc p).ends) (o : Owner) (e : Bool)
    (st : Stage) : Stake (s₁.goto p c) o pi e st ↔ Stake s o pi e st := by
  match o with
  | .inl f => exact and_congr (hfile f e) Iff.rfl
  | .inr q =>
    by_cases hq : q = p
    · subst hq
      exact stake_self.trans (hends e st)
    · exact stake_other hpc hq

/-- A step of `p` that leaves all pipes alone. -/
theorem PageInv.quiet {v : Version} {s s₁ : FS} (h : PageInv v s) {p : Slot} {c : Pc}
    (hpc : s₁.pc = s.pc) (huse : s₁.use = s.use) (hpipe : s₁.pipe = s.pipe)
    (hfile : ∀ f, (s₁.file f).stake = (s.file f).stake) (hends : c.ends = (s.pc p).ends)
    (hdata : c.usesData = true → dataPage v = true) : PageInv v (s₁.goto p c) := by
  refine ⟨fun pi => ?_, fun q => ?_⟩
  · obtain ⟨d, hd⟩ := h.page pi
    refine ⟨d, hd.same ⟨congrFun hpipe pi, ?_, fun pg => ?_, stake_goto hpc ?_ ?_⟩⟩
    · show s₁.use pi = _ ↔ _
      rw [huse]
    · show s₁.use pg = _ ↔ _
      rw [huse]
    · intro f e
      rw [hfile]
    · intro e st
      rw [hends]
  · by_cases hq : q = p
    · subst hq
      rw [FS.goto_pc_self]
      exact hdata
    · rw [FS.goto_pc_of_ne hq, hpc]
      exact h.usesData q

/-- A step of `p` that touches the pipe at `pi`. -/
theorem PageInv.touch {v : Version} {s s₁ : FS} (h : PageInv v s) {p : Slot} {c : Pc} (pi : Page)
    (hpc : s₁.pc = s.pc) (hpipe : ∀ pi', pi' ≠ pi → s₁.pipe pi' = s.pipe pi')
    (huse : ∀ pi', pi' ≠ pi → (s₁.use pi' = .metadata ↔ s.use pi' = .metadata))
    (hdata : ∀ pi', pi' ≠ pi → ∀ pg, s₁.use pg = .data pi' ↔ s.use pg = .data pi')
    (hfile : ∀ pi', pi' ≠ pi → ∀ f e,
      (s₁.file f).stake = some (pi', e) ↔ (s.file f).stake = some (pi', e))
    (hends : ∀ pi', pi' ≠ pi → ∀ e st, (pi', e, st) ∈ c.ends ↔ (pi', e, st) ∈ (s.pc p).ends)
    (huses : c.usesData = true → dataPage v = true)
    (hpi : ∃ d, PageOk v (s₁.goto p c) pi d) : PageInv v (s₁.goto p c) := by
  refine ⟨fun pi' => ?_, fun q => ?_⟩
  · by_cases hne : pi' = pi
    · subst hne
      exact hpi
    · obtain ⟨d, hd⟩ := h.page pi'
      exact ⟨d, hd.same ⟨hpipe pi' hne, huse pi' hne, hdata pi' hne,
        stake_goto hpc (hfile pi' hne) (hends pi' hne)⟩⟩
  · by_cases hq : q = p
    · subst hq
      rw [FS.goto_pc_self]
      exact huses
    · rw [FS.goto_pc_of_ne hq, hpc]
      exact h.usesData q

/-! ## A pipe that one process owns -/

theorem mem_whole {pi pi' : Page} {e : Bool} {st st' : Stage} :
    (pi', e, st') ∈ whole pi st ↔ pi' = pi ∧ st' = st := by
  unfold whole
  cases e <;> simp

/-- Nobody but `p` has a stake in the pipe, and `p` goes on to own both ends. -/
theorem PageOk.owned_whole {v : Version} {s s₁ : FS} {p : Slot} {c : Pc} {pi : Page} {st : Stage}
    {d : Bool → Option (Owner × Stage)} (h : PageOk v s pi d) (hpc : s₁.pc = s.pc)
    (hfile : s₁.file = s.file) (hd : ∀ e o st', d e = some (o, st') → o = .inr p)
    (hc : c.ends = whole pi st) (o : Owner) (e : Bool) (st' : Stage) :
    Stake (s₁.goto p c) o pi e st' ↔ some (Sum.inr p, st) = some (o, st') := by
  match o with
  | .inl f =>
    refine ⟨fun hs => ?_, fun hs => by simp at hs⟩
    have hs' : Stake s (.inl f) pi e st' := by
      unfold Stake at hs ⊢
      rw [← hfile]
      exact hs
    exact absurd (hd e _ _ ((h.owned _ _ _).mp hs')) Sum.inl_ne_inr
  | .inr q =>
    by_cases hq : q = p
    · subst hq
      rw [stake_self, hc, mem_whole]
      simp [eq_comm]
    · rw [stake_other hpc hq]
      refine ⟨fun hs => ?_, fun hs => ?_⟩
      · exact absurd (Sum.inr.inj (hd e _ _ ((h.owned _ _ _).mp hs))) hq
      · exact absurd (Sum.inr.inj (Prod.mk.inj (Option.some.inj hs)).1).symm hq

/-- Both ends are `p`'s when its place says so. -/
theorem PageOk.both {v : Version} {s : FS} {p : Slot} {pi : Page} {st : Stage}
    {d : Bool → Option (Owner × Stage)} (h : PageOk v s pi d) (hp : (s.pc p).ends = whole pi st)
    (e : Bool) : d e = some (.inr p, st) := by
  refine (h.owned (.inr p) e st).mp ?_
  show (pi, e, st) ∈ (s.pc p).ends
  rw [hp]
  exact mem_whole.mpr ⟨rfl, rfl⟩

/-- The owner of both ends moves to another stage of the pipe. -/
theorem PageOk.whole {v : Version} {s s₁ : FS} {p : Slot} {c : Pc} {pi : Page} {st : Stage}
    {d : Bool → Option (Owner × Stage)} (h : PageOk v s pi d) (hpc : s₁.pc = s.pc)
    (hfile : s₁.file = s.file) (hd : ∀ e o st', d e = some (o, st') → o = .inr p)
    (hc : c.ends = Ftable.whole pi st) (huse : s₁.use pi = .metadata)
    (hst : ∀ e, StageOk v s₁ pi e st)
    (hdata : ∀ pg, s₁.use pg = .data pi → (s₁.pipe pi).data = pg ∧ dataPage v = true) :
    ∃ d, PageOk v (s₁.goto p c) pi d := by
  refine ⟨fun _ => some (.inr p, st), fun o e st' => h.owned_whole hpc hfile hd hc o e st',
    fun e o st' hs => ?_, fun _ => ⟨true, Option.some_ne_none _⟩,
    fun _ e hn => absurd hn (Option.some_ne_none _), fun pg hpg => ⟨huse, hdata pg hpg⟩⟩
  obtain ⟨-, rfl⟩ := Prod.mk.inj (Option.some.inj hs)
  refine ⟨huse, ?_⟩
  have hst' := hst e
  cases st with
  | bare => exact hst'
  | raw => exact hst'
  | live => exact hst'

/-- Nobody has a stake in a page that is not a pipe's. -/
theorem PageOk.unowned {v : Version} {s : FS} {pi : Page} {d : Bool → Option (Owner × Stage)}
    (h : PageOk v s pi d) (hpi : s.use pi ≠ .metadata) (e : Bool) : d e = none := by
  cases hd : d e with
  | none => rfl
  | some x => exact absurd (h.stage e x.1 x.2 hd).1 hpi

/-- No page holds the data of a pipe that is not there. -/
theorem PageOk.no_data {v : Version} {s : FS} {pi : Page} {d : Bool → Option (Owner × Stage)}
    (h : PageOk v s pi d) (hpi : s.use pi ≠ .metadata) (pg : Page) : s.use pg ≠ .data pi :=
  fun hpg => hpi (h.data pg hpg).1

/-! ## `pipealloc` -/

/-- A page that turns from free into something else is nobody else's. -/
theorem kalloc_use_iff {s : FS} {pg pg' : Page} {u w : Use} (hfree : s.use pg = .free)
    (hw : w ≠ .free) (hu : w ≠ u) : (s.kalloc pg u).use pg' = w ↔ s.use pg' = w := by
  by_cases hpg : pg' = pg
  · subst hpg
    rw [FS.kalloc_use_self, hfree]
    exact ⟨fun h => absurd h.symm hu, fun h => absurd h.symm hw⟩
  · rw [FS.kalloc_use_of_ne hpg]

/-- `kalloc()` for `pi`: the caller owns both ends of a pipe that is not there yet. -/
theorem PageInv.kallocMeta {v : Version} {s : FS} (h : PageInv v s) {p : Slot} {pi : Page} {c : Pc}
    (hp : (s.pc p).ends = []) (hpi : s.use pi = .free)
    (hc : dataPage v = true ∧ c.ends = whole pi .bare ∨
      dataPage v = false ∧ c.ends = whole pi .raw ∧ c.usesData = false) :
    PageInv v ((s.kalloc pi .metadata).goto p c) := by
  obtain ⟨d, hd⟩ := h.page pi
  have hnm : s.use pi ≠ .metadata := fun hm => by rw [hpi] at hm; exact Use.noConfusion hm
  have hnone : ∀ e o st, d e = some (o, st) → o = .inr p := fun e o st he =>
    absurd ((hd.unowned hnm e).symm.trans he).symm (Option.some_ne_none _)
  have hnd : ∀ pg, (s.kalloc pi .metadata).use pg ≠ .data pi := fun pg hpg =>
    hd.no_data hnm pg ((kalloc_use_iff hpi (fun hu => Use.noConfusion hu)
      (fun hu => Use.noConfusion hu)).mp hpg)
  have hends : ∃ st, c.ends = whole pi st ∧ ∀ e, StageOk v (s.kalloc pi .metadata) pi e st := by
    rcases hc with ⟨-, hc⟩ | ⟨hv, hc, -⟩
    · exact ⟨_, hc, fun _ => hnd⟩
    · refine ⟨_, hc, fun _ hv' => ?_⟩
      rw [hv] at hv'
      exact absurd hv' Bool.false_ne_true
  obtain ⟨st, hcst, hst⟩ := hends
  refine h.touch pi rfl (fun _ _ => rfl) (fun pi' hne => ?_) (fun pi' hne pg => ?_)
    (fun _ _ _ _ => Iff.rfl) (fun pi' hne e st' => ?_) (fun hu => ?_) ?_
  · rw [FS.kalloc_use_of_ne hne]
  · exact kalloc_use_iff hpi (fun hu => Use.noConfusion hu) (fun hu => Use.noConfusion hu)
  · rw [hcst, hp, mem_whole]
    simp [hne]
  · rcases hc with ⟨hv, -⟩ | ⟨-, -, hn⟩
    · exact hv
    · rw [hn] at hu
      exact absurd hu Bool.false_ne_true
  · exact hd.whole rfl rfl hnone hcst (FS.kalloc_use_self _ _ _) hst
      fun pg hpg => absurd hpg (hnd pg)

/-- `pi->data = kalloc()`. -/
theorem PageInv.kallocData {v : Version} {s : FS} (h : PageInv v s) {p : Slot} {pi pg : Page}
    {c : Pc} (hp : (s.pc p).ends = whole pi .bare) (hv : dataPage v = true)
    (hpg : s.use pg = .free) (hc : c.ends = whole pi .raw) :
    PageInv v (((s.kalloc pg (.data pi)).setPipe pi { s.pipe pi with data := pg }).goto p c) := by
  obtain ⟨d, hd⟩ := h.page pi
  have hboth := hd.both hp
  obtain ⟨hm, hbare⟩ := hd.stage true _ _ (hboth true)
  have hne : pi ≠ pg := by
    rintro rfl
    rw [hpg] at hm
    exact Use.noConfusion hm
  refine h.touch pi rfl (fun pi' hne' => FS.setPipe_of_ne hne' _ _) (fun pi' hne' => ?_)
    (fun pi' hne' pg' => ?_) (fun _ _ _ _ => Iff.rfl) (fun pi' hne' e st' => ?_) (fun _ => hv) ?_
  · exact kalloc_use_iff hpg (fun hu => Use.noConfusion hu) (fun hu => Use.noConfusion hu)
  · exact kalloc_use_iff hpg (fun hu => Use.noConfusion hu) (fun hu => hne' (Use.data.inj hu))
  · rw [hc, hp, mem_whole, mem_whole]
    simp [hne']
  · refine hd.whole rfl rfl (fun e o st he => ?_) hc ((FS.kalloc_use_of_ne hne s _).trans hm)
      (fun _ _ => ?_) (fun pg' hpg' => ⟨?_, hv⟩)
    · exact (Prod.mk.inj (Option.some.inj (he.symm.trans (hboth e)))).1
    · rw [FS.setPipe_self]
      exact FS.kalloc_use_self _ _ _
    · rw [FS.setPipe_self]
      by_contra hne'
      exact hbare pg' ((FS.kalloc_use_of_ne (Ne.symm hne') s _).symm.trans hpg')

/-- `pi->readopen = 1; pi->writeopen = 1`. -/
theorem PageInv.initPipe {v : Version} {s : FS} (h : PageInv v s) {p : Slot} {pi : Page} {c : Pc}
    (hp : (s.pc p).ends = whole pi .raw) (hc : c.ends = whole pi .live)
    (hu : c.usesData = false) :
    PageInv v ((s.setPipe pi { s.pipe pi with readopen := true, writeopen := true }).goto p c) := by
  obtain ⟨d, hd⟩ := h.page pi
  have hboth := hd.both hp
  obtain ⟨hm, hraw⟩ := hd.stage true _ _ (hboth true)
  refine h.touch pi rfl (fun pi' hne => FS.setPipe_of_ne hne _ _) (fun _ _ => Iff.rfl)
    (fun _ _ _ => Iff.rfl) (fun _ _ _ _ => Iff.rfl) (fun pi' hne e st' => ?_)
    (fun h => by rw [hu] at h; exact absurd h Bool.false_ne_true) ?_
  · rw [hc, hp, mem_whole, mem_whole]
    simp [hne]
  · refine hd.whole rfl rfl (fun e o st he => ?_) hc hm (fun e => ⟨fun hv => ?_, ?_⟩)
      (fun pg hpg => ?_)
    · exact (Prod.mk.inj (Option.some.inj (he.symm.trans (hboth e)))).1
    · rw [FS.setPipe_self]
      exact hraw hv
    · rw [FS.setPipe_self]
      cases e <;> rfl
    · rw [FS.setPipe_self]
      exact (hd.data pg hpg).2

/-! ## An end changes hands -/

theorem stake_setFile_self {s : FS} {p : Slot} {c : Pc} {f : FileId} {x : File} {pi : Page}
    {e : Bool} {st : Stage} :
    Stake ((s.setFile f x).goto p c) (.inl f) pi e st ↔ x.stake = some (pi, e) ∧ st = .live := by
  show ((s.setFile f x).file f).stake = _ ∧ _ ↔ _
  rw [FS.setFile_self]

theorem stake_setFile_of_ne {s : FS} {p : Slot} {c : Pc} {f g : FileId} {x : File} {pi : Page}
    {e : Bool} {st : Stage} (hg : g ≠ f) :
    Stake ((s.setFile f x).goto p c) (.inl g) pi e st ↔ Stake s (.inl g) pi e st := by
  show ((s.setFile f x).file g).stake = _ ∧ _ ↔ (s.file g).stake = _ ∧ _
  rw [FS.setFile_of_ne hg]

/-- One end goes from `o₁` to `o₂`, the file `f` and the process `p` in one order
or the other; the pages stay as they are. -/
theorem PageInv.hand {v : Version} {s : FS} (h : PageInv v s) {p : Slot} {f : FileId} {x : File}
    {c : Pc} (pi : Page) (e₀ : Bool) (o₁ o₂ : Owner) (ho₁ : o₁ = .inl f ∨ o₁ = .inr p)
    (ho₂ : o₂ = .inl f ∨ o₂ = .inr p) (h₁ : Stake s o₁ pi e₀ .live)
    (hf : ∀ e, x.stake = some (pi, e) ↔
      (e = e₀ ∧ o₂ = .inl f ∨ e ≠ e₀ ∧ (s.file f).stake = some (pi, e)))
    (hp : ∀ e st, (pi, e, st) ∈ c.ends ↔
      (e = e₀ ∧ o₂ = .inr p ∧ st = .live ∨ e ≠ e₀ ∧ (pi, e, st) ∈ (s.pc p).ends))
    (hf' : ∀ pi', pi' ≠ pi → ∀ e, x.stake = some (pi', e) ↔ (s.file f).stake = some (pi', e))
    (hp' : ∀ pi', pi' ≠ pi → ∀ e st, (pi', e, st) ∈ c.ends ↔ (pi', e, st) ∈ (s.pc p).ends)
    (hu : c.usesData = false) : PageInv v ((s.setFile f x).goto p c) := by
  refine h.touch pi rfl (fun _ _ => rfl) (fun _ _ => Iff.rfl) (fun _ _ _ => Iff.rfl)
    (fun pi' hne g e => ?_) hp' (fun h => by rw [hu] at h; exact absurd h Bool.false_ne_true) ?_
  · by_cases hg : g = f
    · subst hg
      rw [FS.setFile_self]
      exact hf' pi' hne e
    · rw [FS.setFile_of_ne hg]
  obtain ⟨d, hd⟩ := h.page pi
  have hd₁ := (hd.owned o₁ e₀ .live).mp h₁
  obtain ⟨hm, hlive⟩ := hd.stage e₀ _ _ hd₁
  -- end `e₀` is given to `o₂`, and the other stays where it is
  have hself : Function.update d e₀ (some (o₂, .live)) e₀ = some (o₂, .live) :=
    Function.update_self _ _ _
  have hother : ∀ e, e ≠ e₀ → Function.update d e₀ (some (o₂, .live)) e = d e :=
    fun e he => Function.update_of_ne he _ _
  refine ⟨Function.update d e₀ (some (o₂, .live)), fun o e st => ?_, fun e o st he => ?_,
    fun _ => ⟨e₀, by rw [hself]; exact Option.some_ne_none _⟩, fun _ e he => ?_, hd.data⟩
  · by_cases he : e = e₀
    · subst he
      rw [hself]
      match o with
      | .inl g =>
        by_cases hg : g = f
        · subst hg
          rw [stake_setFile_self, hf]
          simp [eq_comm]
        · rw [stake_setFile_of_ne hg, hd.owned, hd₁]
          rcases ho₁ with rfl | rfl <;> rcases ho₂ with rfl | rfl <;> simp [Ne.symm hg]
      | .inr q =>
        by_cases hq : q = p
        · subst hq
          rw [stake_self, hp]
          simp [eq_comm]
        · have hsame : Stake ((s.setFile f x).goto p c) (.inr q) pi e st ↔
            Stake s (.inr q) pi e st :=
            stake_other rfl hq
          rw [hsame, hd.owned, hd₁]
          rcases ho₁ with rfl | rfl <;> rcases ho₂ with rfl | rfl <;> simp [Ne.symm hq]
    · rw [hother e he, ← hd.owned]
      match o with
      | .inl g =>
        by_cases hg : g = f
        · subst hg
          rw [stake_setFile_self, hf]
          simp [he, Stake]
        · exact stake_setFile_of_ne hg
      | .inr q =>
        by_cases hq : q = p
        · subst hq
          rw [stake_self, hp]
          simp [he, Stake]
        · exact stake_other rfl hq
  · by_cases hee : e = e₀
    · subst hee
      rw [hself] at he
      obtain ⟨-, rfl⟩ := Prod.mk.inj (Option.some.inj he)
      exact ⟨hm, hlive⟩
    · rw [hother e hee] at he
      obtain ⟨hm', hst⟩ := hd.stage e o st he
      cases st with
      | bare => exact ⟨hm', hst⟩
      | raw => exact ⟨hm', hst⟩
      | live => exact ⟨hm', hst⟩
  · by_cases hee : e = e₀
    · subst hee
      rw [hself] at he
      exact absurd he (Option.some_ne_none _)
    · rw [hother e hee] at he
      exact hd.shut hm e he

/-! ## `pipeclose` -/

/-- Below `live`, a process owns both ends. -/
theorem Pc.ends_whole {c : Pc} {pi : Page} {e : Bool} {st : Stage} (h : (pi, e, st) ∈ c.ends)
    (hst : st ≠ .live) (e' : Bool) : (pi, e', st) ∈ c.ends := by
  cases c with
  | kallocData | initPipe | initRead | kfreeData | kfreeMeta =>
    exact mem_whole.mpr (mem_whole.mp h)
  | initWrite | pipeclose =>
    have heq := List.mem_singleton.mp h
    exact absurd (Prod.mk.inj (Prod.mk.inj heq).2).2 hst
  | _ => exact absurd h List.not_mem_nil

/-- Where one end is open, the other is open or nobody's. -/
theorem PageOk.live_of_live {v : Version} {s : FS} {pi : Page} {d : Bool → Option (Owner × Stage)}
    (h : PageOk v s pi d) {e e' : Bool} {o o' : Owner} {st : Stage} (he : d e = some (o, .live))
    (he' : d e' = some (o', st)) : st = .live := by
  by_contra hst
  have hs := (h.owned o' e' st).mpr he'
  match o' with
  | .inl f => exact hst hs.2
  | .inr q =>
    have hq : Stake s (.inr q) pi e st := Pc.ends_whole hs hst e
    have heq := (h.owned _ _ _).mp hq
    exact hst (Prod.mk.inj (Option.some.inj (heq.symm.trans he))).2

theorem Pipe.isOpen_shut_self (r : Pipe) (e : Bool) : (r.shut e).isOpen e = false := by
  cases e <;> rfl

theorem Pipe.isOpen_shut_not (r : Pipe) (e : Bool) : (r.shut e).isOpen (!e) = r.isOpen (!e) := by
  cases e <;> rfl

theorem Pipe.shut_data (r : Pipe) (e : Bool) : (r.shut e).data = r.data := by
  cases e <;> rfl

/-- The test of `pipeclose`: the other flag is off too. -/
theorem Pipe.shut_both (r : Pipe) (e : Bool) :
    ((r.shut e).readopen = false ∧ (r.shut e).writeopen = false) ↔ r.isOpen (!e) = false := by
  cases e <;> simp [Pipe.shut, Pipe.isOpen]

/-- The second flag goes off: the caller owns both ends. -/
theorem PageInv.closeBoth {v : Version} {s : FS} (h : PageInv v s) {p : Slot} {pi : Page} {w : Bool}
    {c : Pc} (hp : (s.pc p).ends = [(pi, w, .live)]) (hoff : (s.pipe pi).isOpen (!w) = false)
    (hc : dataPage v = true ∧ c.ends = whole pi .raw ∨
      dataPage v = false ∧ c.ends = whole pi .bare ∧ c.usesData = false) :
    PageInv v ((s.setPipe pi ((s.pipe pi).shut w)).goto p c) := by
  obtain ⟨d, hd⟩ := h.page pi
  have hw : d w = some (.inr p, .live) := (hd.owned (.inr p) w .live).mp (by
    show _ ∈ (s.pc p).ends
    rw [hp]
    exact List.mem_singleton_self _)
  obtain ⟨hm, hdata, -⟩ := hd.stage w _ _ hw
  -- Nobody owns the other end: its owner would have its flag on.
  have hnone : d (!w) = none := by
    cases hd' : d (!w) with
    | none => rfl
    | some x =>
      have hlive : x.2 = .live := hd.live_of_live hw hd'
      have hst := (hd.stage (!w) x.1 x.2 hd').2
      rw [hlive] at hst
      rw [hst.2] at hoff
      exact absurd hoff.symm Bool.false_ne_true
  have hsole : ∀ e o st, d e = some (o, st) → o = .inr p := by
    intro e o st he
    by_cases hew : e = w
    · subst hew
      exact (Prod.mk.inj (Option.some.inj (he.symm.trans hw))).1
    · rw [Bool.eq_not_of_ne hew] at he
      exact absurd (hnone.symm.trans he).symm (Option.some_ne_none _)
  have hends : ∃ st, c.ends = whole pi st ∧
      ∀ e, StageOk v (s.setPipe pi ((s.pipe pi).shut w)) pi e st := by
    rcases hc with ⟨-, hc⟩ | ⟨hv, hc, -⟩
    · refine ⟨_, hc, fun _ hv => ?_⟩
      rw [FS.setPipe_self, Pipe.shut_data]
      exact hdata hv
    · refine ⟨_, hc, fun _ pg hpg => ?_⟩
      have hv' := (hd.data pg hpg).2.2
      rw [hv] at hv'
      exact Bool.false_ne_true hv'
  obtain ⟨st, hcst, hst⟩ := hends
  refine h.touch pi rfl (fun pi' hne => FS.setPipe_of_ne hne _ _) (fun _ _ => Iff.rfl)
    (fun _ _ _ => Iff.rfl) (fun _ _ _ _ => Iff.rfl) (fun pi' hne e st' => ?_) (fun hu => ?_) ?_
  · rw [hcst, hp, mem_whole]
    simp [hne]
  · rcases hc with ⟨hv, -⟩ | ⟨-, -, hn⟩
    · exact hv
    · rw [hn] at hu
      exact absurd hu Bool.false_ne_true
  · refine hd.whole rfl rfl hsole hcst hm hst fun pg hpg => ?_
    rw [FS.setPipe_self, Pipe.shut_data]
    exact (hd.data pg hpg).2

/-- The first flag goes off: the other end is somebody's. -/
theorem PageInv.closeOne {v : Version} {s : FS} (h : PageInv v s) {p : Slot} {pi : Page} {w : Bool}
    {c : Pc} (hp : (s.pc p).ends = [(pi, w, .live)]) (hon : (s.pipe pi).isOpen (!w) = true)
    (hc : c.ends = []) (hu : c.usesData = false) :
    PageInv v ((s.setPipe pi ((s.pipe pi).shut w)).goto p c) := by
  obtain ⟨d, hd⟩ := h.page pi
  have hw : d w = some (.inr p, .live) := (hd.owned (.inr p) w .live).mp (by
    show _ ∈ (s.pc p).ends
    rw [hp]
    exact List.mem_singleton_self _)
  obtain ⟨hm, -, -⟩ := hd.stage w _ _ hw
  -- the other end is open, so that somebody has it
  have hother : d (!w) ≠ none := by
    intro hn
    rw [hd.shut hm (!w) hn] at hon
    exact Bool.false_ne_true hon
  have hself : Function.update d w none w = none := Function.update_self _ _ _
  have hne : ∀ e, e ≠ w → Function.update d w none e = d e :=
    fun e he => Function.update_of_ne he _ _
  refine h.touch pi rfl (fun pi' hne => FS.setPipe_of_ne hne _ _) (fun _ _ => Iff.rfl)
    (fun _ _ _ => Iff.rfl) (fun _ _ _ _ => Iff.rfl) (fun pi' hne e st' => ?_)
    (fun h => by rw [hu] at h; exact absurd h Bool.false_ne_true)
    ⟨Function.update d w none, fun o e st => ?_, fun e o st he => ?_, fun _ => ⟨!w, ?_⟩,
      fun _ e he => ?_, fun pg hpg => ?_⟩
  · rw [hc, hp]
    simp [hne]
  · match o with
    | .inl f =>
      have hsame : Stake ((s.setPipe pi ((s.pipe pi).shut w)).goto p c) (.inl f) pi e st ↔
          Stake s (.inl f) pi e st := Iff.rfl
      rw [hsame, hd.owned]
      by_cases he : e = w
      · subst he
        rw [hself, hw]
        simp
      · rw [hne e he]
    | .inr q =>
      by_cases hq : q = p
      · subst hq
        rw [stake_self, hc]
        by_cases he : e = w
        · subst he
          rw [hself]
          simp
        · have hn : d e ≠ some (.inr q, st) := fun hd' => by
            have hs : (pi, e, st) ∈ (s.pc q).ends := (hd.owned (.inr q) e st).mpr hd'
            rw [hp] at hs
            exact he (Prod.mk.inj (Prod.mk.inj (List.mem_singleton.mp hs)).2).1
          rw [hne e he]
          simp [hn]
      · have hsame : Stake ((s.setPipe pi ((s.pipe pi).shut w)).goto p c) (.inr q) pi e st ↔
            Stake s (.inr q) pi e st := stake_other rfl hq
        rw [hsame, hd.owned]
        by_cases he : e = w
        · subst he
          rw [hself, hw]
          simp [Ne.symm hq]
        · rw [hne e he]
  · by_cases hew : e = w
    · subst hew
      rw [hself] at he
      exact absurd he.symm (Option.some_ne_none _)
    · rw [hne e hew] at he
      obtain ⟨hm', hst⟩ := hd.stage e o st he
      refine ⟨hm', ?_⟩
      rw [hd.live_of_live hw he] at hst ⊢
      rw [Bool.eq_not_of_ne hew] at hst ⊢
      refine ⟨fun hv => ?_, ?_⟩
      · show s.use ((s.setPipe pi _).pipe pi).data = _
        rw [FS.setPipe_self, Pipe.shut_data]
        exact hst.1 hv
      · show ((s.setPipe pi _).pipe pi).isOpen (!w) = true
        rw [FS.setPipe_self, Pipe.isOpen_shut_not]
        exact hst.2
  · rw [hne _ (Bool.not_ne_self w)]
    exact hother
  · show ((s.setPipe pi _).pipe pi).isOpen e = false
    rw [FS.setPipe_self]
    by_cases hew : e = w
    · subst hew
      exact Pipe.isOpen_shut_self _ _
    · rw [hne e hew, Bool.eq_not_of_ne hew] at he
      exact absurd he hother
  · obtain ⟨hm', hdata, hv⟩ := hd.data pg hpg
    refine ⟨hm', ?_, hv⟩
    show ((s.setPipe pi _).pipe pi).data = pg
    rw [FS.setPipe_self, Pipe.shut_data]
    exact hdata

theorem kfree_use_self {s : FS} {pg : Page} {u : Use} (h : s.use pg = u) :
    (s.kfree pg u).use pg = .free := by
  simp [FS.kfree, h]

theorem kfree_use_of_ne {s : FS} {pg pg' : Page} {u : Use} (h : s.use pg = u) (hne : pg' ≠ pg) :
    (s.kfree pg u).use pg' = s.use pg' := by
  simp [FS.kfree, h, hne]

theorem kfree_pipe (s : FS) (pg : Page) (u : Use) : (s.kfree pg u).pipe = s.pipe := by
  unfold FS.kfree
  dsimp only
  split <;> rfl

/-- Freeing a page takes one use away and adds none. -/
theorem kfree_use_iff {s : FS} {pg pg' : Page} {u w : Use} (h : s.use pg = u) (hw : w ≠ .free)
    (hu : w ≠ u) : (s.kfree pg u).use pg' = w ↔ s.use pg' = w := by
  by_cases hpg : pg' = pg
  · subst hpg
    rw [kfree_use_self h, h]
    exact ⟨fun h => absurd h.symm hw, fun h => absurd h.symm hu⟩
  · rw [kfree_use_of_ne h hpg]

/-- The page of the data is there when `pipeclose` frees it. -/
theorem PageInv.data_there {v : Version} {s : FS} (h : PageInv v s) {p : Slot} {pi : Page}
    {k : After} (hp : s.pc p = .kfreeData pi k) :
    s.use (s.pipe pi).data = .data pi ∧ s.use pi = .metadata := by
  obtain ⟨d, hd⟩ := h.page pi
  have hends : (s.pc p).ends = Ftable.whole pi .raw := by rw [hp]; rfl
  obtain ⟨hm, hraw⟩ := hd.stage true _ _ (hd.both hends true)
  exact ⟨hraw (h.usesData p (by rw [hp]; rfl)), hm⟩

/-- The metadata page is there when it is freed. -/
theorem PageInv.meta_there {v : Version} {s : FS} (h : PageInv v s) {p : Slot} {pi : Page}
    {k : After} (hp : s.pc p = .kfreeMeta pi k) : s.use pi = .metadata := by
  obtain ⟨d, hd⟩ := h.page pi
  have hends : (s.pc p).ends = Ftable.whole pi .bare := by rw [hp]; rfl
  exact (hd.stage true _ _ (hd.both hends true)).1

/-- `kfree(pi->data)`. -/
theorem PageInv.kfreeData {v : Version} {s : FS} (h : PageInv v s) {p : Slot} {pi : Page}
    {k : After} (hp : s.pc p = .kfreeData pi k) :
    PageInv v ((s.kfree (s.pipe pi).data (.data pi)).goto p (.kfreeMeta pi k)) := by
  obtain ⟨hdata, hm⟩ := h.data_there hp
  obtain ⟨hpc, -, hfile⟩ := kfree_same s (s.pipe pi).data (.data pi)
  obtain ⟨d, hd⟩ := h.page pi
  have hends : (s.pc p).ends = Ftable.whole pi .raw := by rw [hp]; rfl
  have hgone : ∀ pg, (s.kfree (s.pipe pi).data (.data pi)).use pg ≠ .data pi := by
    intro pg hpg
    by_cases hne : pg = (s.pipe pi).data
    · subst hne
      rw [kfree_use_self hdata] at hpg
      exact Use.noConfusion hpg
    · rw [kfree_use_of_ne hdata hne] at hpg
      exact hne (hd.data pg hpg).2.1.symm
  refine h.touch pi hpc (fun pi' _ => congrFun (kfree_pipe s _ _) pi') (fun pi' _ => ?_)
    (fun pi' hne pg => ?_) (fun _ _ f e => by rw [hfile]) (fun pi' hne e st => ?_)
    (fun hu => absurd hu Bool.false_ne_true) ?_
  · exact kfree_use_iff hdata (fun hu => Use.noConfusion hu) (fun hu => Use.noConfusion hu)
  · exact kfree_use_iff hdata (fun hu => Use.noConfusion hu) (fun hu => hne (Use.data.inj hu))
  · rw [hends]
    show _ ∈ Ftable.whole pi .bare ↔ _
    rw [mem_whole, mem_whole]
    simp [hne]
  · refine hd.whole hpc hfile (fun e o st he => ?_) rfl ?_ (fun _ => hgone)
      fun pg hpg => absurd hpg (hgone pg)
    · exact (Prod.mk.inj (Option.some.inj (he.symm.trans (hd.both hends e)))).1
    · exact (kfree_use_iff hdata (fun hu => Use.noConfusion hu)
        (fun hu => Use.noConfusion hu)).mpr hm

/-- `kfree(pi)`. -/
theorem PageInv.kfreeMeta {v : Version} {s : FS} (h : PageInv v s) {p : Slot} {pi : Page}
    {k : After} {c : Pc} (hp : s.pc p = .kfreeMeta pi k) (hc : c.ends = [])
    (hu : c.usesData = false) : PageInv v ((s.kfree pi .metadata).goto p c) := by
  have hm := h.meta_there hp
  obtain ⟨hpc, -, hfile⟩ := kfree_same s pi .metadata
  obtain ⟨d, hd⟩ := h.page pi
  have hends : (s.pc p).ends = Ftable.whole pi .bare := by rw [hp]; rfl
  have hboth := hd.both hends
  have hbare : ∀ pg, s.use pg ≠ .data pi := (hd.stage true _ _ (hboth true)).2
  have hfree : (s.kfree pi .metadata).use pi ≠ .metadata := by
    rw [kfree_use_self hm]
    exact fun hu => Use.noConfusion hu
  refine h.touch pi hpc (fun pi' _ => congrFun (kfree_pipe s _ _) pi') (fun pi' hne => ?_)
    (fun pi' _ pg => ?_) (fun _ _ f e => by rw [hfile]) (fun pi' hne e st => ?_)
    (fun h => by rw [hu] at h; exact absurd h Bool.false_ne_true)
    ⟨fun _ => none, fun o e st => ⟨fun hs => ?_, fun hn => ?_⟩, fun _ _ _ hn => ?_, ?_, ?_, ?_⟩
  · rw [kfree_use_of_ne hm hne]
  · exact kfree_use_iff hm (fun hu => Use.noConfusion hu) (fun hu => Use.noConfusion hu)
  · rw [hc, hends, mem_whole]
    simp [hne]
  · -- The other owners had no stake in this pipe.
    match o with
    | .inl f =>
      have hs' : Stake s (.inl f) pi e st := by
        unfold Stake at hs ⊢
        rw [← hfile]
        exact hs
      have heq := (hboth e).symm.trans ((hd.owned _ _ _).mp hs')
      exact absurd (Prod.mk.inj (Option.some.inj heq)).1 Sum.inr_ne_inl
    | .inr q =>
      by_cases hq : q = p
      · subst hq
        rw [stake_self, hc] at hs
        exact absurd hs List.not_mem_nil
      · rw [stake_other hpc hq] at hs
        have heq := (hboth e).symm.trans ((hd.owned _ _ _).mp hs)
        exact absurd (Sum.inr.inj (Prod.mk.inj (Option.some.inj heq)).1).symm hq
  · exact absurd hn.symm (Option.some_ne_none _)
  · exact absurd hn.symm (Option.some_ne_none _)
  · exact fun hm' => absurd hm' hfree
  · exact fun hm' => absurd hm' hfree
  · intro pg hpg
    exact absurd ((kfree_use_iff hm (fun hu => Use.noConfusion hu)
      (fun hu => Use.noConfusion hu)).mp hpg) (hbare pg)

end Xv6.Ftable
