import Xv6.Ftable.PipeInv

/-!
# The life of files and pipes

What the invariants of `Count.lean` and `PipeInv.lean` say about the state a user
can see. Descriptors, reference counts, open flags and pages agree in every run of
`sys_pipe`, `sys_open`, `sys_dup`, `sys_close`, `kfork` and `kexit`, however the
statements of different processes interleave:

> `ref` is the number of descriptors, a flag is on while its file is open, and a
> page is freed once, by the call that closes the second end.

Inside a call the count and the flag are ahead or behind by what the call has in
hand, and `Lifetime` says by how much; between calls nothing is.
-/

namespace Xv6.Ftable

open Lib

namespace FS

/-- How many descriptors of all processes point to `f`. -/
def descriptors (s : FS) (f : FileId) : Nat :=
  (Finset.univ.filter fun x : Slot × Fd => s.ofile x.1 x.2 = some f).card

/-- References to `f` that calls hold without a descriptor. -/
def inHand (s : FS) (f : FileId) : Nat := ∑ p, (s.pc p).carry.count f

/-- Descriptors of `f` that stand for no reference: `sys_dup` has not come to
`filedup`, or `kexit` has not cleared what it closed. -/
def unpaid (s : FS) (f : FileId) : Nat :=
  ∑ p, if ∃ fd, (s.pc p).stale = some fd ∧ s.ofile p fd = some f then 1 else 0

/-- No call is in flight. -/
def Idle (s : FS) : Prop := ∀ p, s.pc p = .dead ∨ s.pc p = .user

/-- A process is setting up the pipe at `pi` or taking an end of it down. -/
def Busy (s : FS) (pi : Page) : Prop := ∃ p e st, (pi, e, st) ∈ (s.pc p).ends

/-- The readable or the writable file of the pipe at `pi` is open. -/
def EndOpen (s : FS) (pi : Page) (writable : Bool) : Prop :=
  ∃ f, (s.file f).type = .FD_PIPE ∧ 0 < (s.file f).ref ∧ (s.file f).pipe = pi ∧
    (s.file f).writable = writable

/-- The pages of the pipe at `pi` are allocated. -/
def Allocated (v : Version) (s : FS) (pi : Page) : Prop :=
  s.use pi = .metadata ∧ (dataPage v = true → s.use (s.pipe pi).data = .data pi)

end FS

/-- Descriptors, files, flags and pages agree. -/
structure Lifetime (v : Version) (s : FS) : Prop where
  ref : ∀ f, (s.file f).ref + s.unpaid f = s.descriptors f + s.inHand f
  closed : ∀ f, (s.file f).ref = 0 → (s.file f).type = .FD_NONE
  pages : ∀ f, (s.file f).type = .FD_PIPE → 0 < (s.file f).ref →
    s.Allocated v (s.file f).pipe ∧ (s.file f).readable = !(s.file f).writable ∧
      (s.pipe (s.file f).pipe).isOpen (s.file f).writable = true
  flag : ∀ pi, s.use pi = .metadata → ¬ s.Busy pi → ∀ e,
    (s.pipe pi).isOpen e = true ↔ s.EndOpen pi e
  allocated : ∀ pi, s.use pi = .metadata ↔ s.Busy pi ∨ ∃ e, s.EndOpen pi e
  data : ∀ pg pi, s.use pg = .data pi →
    s.use pi = .metadata ∧ (s.pipe pi).data = pg ∧ dataPage v = true
  once : ∀ pg, s.taken pg = s.given pg + (s.use pg).ofPipe
  sane : s.panicked = false ∧ s.corrupt = false

/-! ## Counting descriptors -/

theorem descriptors_eq (s : FS) (f : FileId) :
    s.descriptors f = ∑ p, entries (s.ofile p) none f := by
  unfold FS.descriptors entries
  rw [Finset.card_filter, Fintype.sum_prod_type]
  refine Finset.sum_congr rfl fun p _ => ?_
  rw [Finset.card_filter]
  exact Finset.sum_congr rfl fun fd _ => by simp

/-- A descriptor that is not counted is one of them or points elsewhere. -/
theorem entries_unpaid (row : Fd → Option FileId) (st : Option Fd) (f : FileId) :
    entries row st f + (if ∃ fd, st = some fd ∧ row fd = some f then 1 else 0)
      = entries row none f := by
  cases st with
  | none => simp
  | some fd =>
    by_cases hfd : row fd = some f
    · rw [if_pos ⟨fd, rfl, hfd⟩, ← entries_ignore hfd f, List.count_singleton_self]
    · rw [if_neg]
      · unfold entries
        rw [Nat.add_zero]
        congr 1
        ext fd'
        by_cases hne : fd' = fd
        · subst hne
          simp [hfd]
        · simp [Ne.symm hne]
      · rintro ⟨fd', he, hfd'⟩
        obtain rfl := Option.some.inj he
        exact hfd hfd'

theorem CountInv.balance {s : FS} (h : CountInv s) (f : FileId) :
    (s.file f).ref + s.unpaid f = s.descriptors f + s.inHand f := by
  rw [h.count f, descriptors_eq, FS.unpaid, FS.inHand, ← Finset.sum_add_distrib,
    ← Finset.sum_add_distrib]
  refine Finset.sum_congr rfl fun p _ => ?_
  have hu := entries_unpaid (s.ofile p) (s.pc p).stale f
  unfold held
  omega

/-! ## Flags and pages -/

/-- A file that stands for an end is open. -/
theorem endOpen_iff {s : FS} (h : FileInv s) {pi : Page} {e : Bool} :
    s.EndOpen pi e ↔ ∃ f, Stake s (.inl f) pi e .live := by
  refine exists_congr fun f => ⟨?_, ?_⟩
  · rintro ⟨ht, -, rfl, rfl⟩
    exact ⟨if_pos ht, rfl⟩
  · rintro ⟨hst, -⟩
    unfold File.stake at hst
    split at hst
    · next ht =>
      obtain ⟨rfl, rfl⟩ := Prod.mk.inj (Option.some.inj hst)
      refine ⟨ht, Nat.pos_of_ne_zero fun hz => ?_, rfl, rfl⟩
      rw [h.zero f hz] at ht
      exact FileType.noConfusion ht
    · exact absurd hst.symm (Option.some_ne_none _)

/-- An end has an owner when its file is open or somebody is busy with it. -/
theorem PageOk.owner_cases {v : Version} {s : FS} {pi : Page} {d : Bool → Option (Owner × Stage)}
    (hf : FileInv s) (h : PageOk v s pi d) {e : Bool} (he : d e ≠ none) :
    s.Busy pi ∨ s.EndOpen pi e := by
  obtain ⟨⟨o, st⟩, he⟩ := Option.ne_none_iff_exists'.mp he
  have hs := (h.owned o e st).mpr he
  match o with
  | .inl f =>
    obtain rfl := hs.2
    exact .inr ((endOpen_iff hf).mpr ⟨f, hs⟩)
  | .inr p => exact .inl ⟨p, e, st, hs⟩

theorem lifetime_of_inv {v : Version} {s : FS} (hc : CountInv s) (h : PipeInv v s) :
    Lifetime v s := by
  have hopen : ∀ pi e, s.EndOpen pi e → s.Allocated v pi ∧ (s.pipe pi).isOpen e = true := by
    intro pi e he
    obtain ⟨f, hf⟩ := (endOpen_iff h.files).mp he
    obtain ⟨d, hd⟩ := h.pages.page pi
    obtain ⟨hm, hdata, hflag⟩ := hd.stage e _ _ ((hd.owned _ _ _).mp hf)
    exact ⟨⟨hm, hdata⟩, hflag⟩
  refine ⟨hc.balance, h.files.zero, fun f ht hpos => ?_,
    fun pi hm hb e => ⟨fun hflag => ?_, fun he => ?_⟩,
    fun pi => ⟨fun hm => ?_, fun hb => ?_⟩, fun pg pi hpg => ?_, h.books.balance,
    h.books.panicked, h.books.corrupt⟩
  · obtain ⟨halloc, hflag⟩ := hopen (s.file f).pipe (s.file f).writable ⟨f, ht, hpos, rfl, rfl⟩
    exact ⟨halloc, h.files.oneWay f ht, hflag⟩
  · obtain ⟨d, hd⟩ := h.pages.page pi
    refine (hd.owner_cases h.files fun hn => ?_).resolve_left hb
    rw [hd.shut hm e hn] at hflag
    exact Bool.false_ne_true hflag
  · exact (hopen pi e he).2
  · obtain ⟨d, hd⟩ := h.pages.page pi
    obtain ⟨e, he⟩ := hd.kept hm
    exact (hd.owner_cases h.files he).imp_right fun he => ⟨e, he⟩
  · rcases hb with ⟨p, e, st, hp⟩ | ⟨e, he⟩
    · obtain ⟨d, hd⟩ := h.pages.page pi
      exact (hd.stage e _ _ ((hd.owned (.inr p) e st).mp hp)).1
    · exact (hopen pi e he).1.1
  · obtain ⟨d, hd⟩ := h.pages.page pi
    exact hd.data pg hpg

theorem FS.Idle.settled {s : FS} (h : s.Idle) (p : Slot) :
    (s.pc p).carry = [] ∧ (s.pc p).stale = none ∧ (s.pc p).ends = [] := by
  rcases h p with hp | hp <;> rw [hp] <;> exact ⟨rfl, rfl, rfl⟩

theorem FS.Idle.not_busy {s : FS} (h : s.Idle) (pi : Page) : ¬ s.Busy pi := by
  rintro ⟨p, e, st, hp⟩
  rw [(h.settled p).2.2] at hp
  exact List.not_mem_nil hp

/-- Between calls the count is the number of descriptors. -/
theorem Lifetime.ref_idle {v : Version} {s : FS} (h : Lifetime v s) (hi : s.Idle) (f : FileId) :
    (s.file f).ref = s.descriptors f := by
  have hhand : s.inHand f = 0 := Finset.sum_eq_zero fun p _ => by rw [(hi.settled p).1]; rfl
  have hunpaid : s.unpaid f = 0 := Finset.sum_eq_zero fun p _ => by
    rw [(hi.settled p).2.1]
    simp
  have href := h.ref f
  omega

/-! ## When a page is freed -/

theorem fileclose_given (s : FS) (p : Slot) (f : FileId) (k : After) :
    (s.fileclose p f k).given = s.given := by
  unfold FS.fileclose
  dsimp only
  split
  · rfl
  · split
    · rfl
    · split <;> rfl

theorem pipeclose_given (v : Version) (s : FS) (p : Slot) (pi : Page) (w : Bool) (k : After) :
    (s.pipeclose v p pi w k).given = s.given := by
  unfold FS.pipeclose
  dsimp only
  split <;> rfl

theorem filedup_given (s : FS) (f : FileId) (p : Slot) (c : Pc) :
    ((s.filedup f).goto p c).given = s.given := by
  unfold FS.filedup
  split <;> rfl

/-- The page a process is about to free, and the pipe it belongs to. -/
def Frees (s : FS) (p : Slot) (pi pg : Page) : Prop :=
  (∃ k, s.pc p = .kfreeData pi k ∧ pg = (s.pipe pi).data) ∨
    (∃ k, s.pc p = .kfreeMeta pi k ∧ pg = pi)

/-- No other statement gives a page back. -/
theorem run_given {v : Version} {s s' : FS} {p : Slot} {a : Choice} (hs : s.run v p a = some s')
    (hd : ∀ pi k, s.pc p ≠ .kfreeData pi k) (hm : ∀ pi k, s.pc p ≠ .kfreeMeta pi k) :
    s'.given = s.given := by
  cases hp : s.pc p with
  | kfreeData pi k => exact absurd hp (hd pi k)
  | kfreeMeta pi k => exact absurd hp (hm pi k)
  | fileclose f k =>
    simp only [FS.run, hp] at hs
    obtain rfl := Option.some.inj hs
    exact fileclose_given s p f k
  | pipeclose pi w k =>
    simp only [FS.run, hp] at hs
    obtain rfl := Option.some.inj hs
    exact pipeclose_given v s p pi w k
  | filedup f fd =>
    simp only [FS.run, hp] at hs
    obtain rfl := Option.some.inj hs
    exact filedup_given s f p _
  | forkLoop np fds =>
    simp only [FS.run, hp] at hs
    split at hs
    · split at hs
      · obtain rfl := Option.some.inj hs
        exact filedup_given s _ p _
      · obtain rfl := Option.some.inj hs
        rfl
    · obtain rfl := Option.some.inj hs
      rfl
  | _ =>
    simp only [FS.run, hp] at hs
    repeat' split at hs
    all_goals first
      | exact absurd hs.symm (Option.some_ne_none _)
      | (obtain rfl := Option.some.inj hs; rfl)

theorem enter_given {s s' : FS} {p : Slot} {f : Call} (hs : s.enter p f = some s') :
    s'.given = s.given := by
  cases f <;> simp only [FS.enter] at hs
  all_goals repeat' split at hs
  all_goals first
    | exact absurd hs.symm (Option.some_ne_none _)
    | (obtain rfl := Option.some.inj hs; rfl)

theorem kfree_given_self (s : FS) (pg : Page) (u : Use) :
    (s.kfree pg u).given pg = s.given pg + 1 := by
  unfold FS.kfree
  dsimp only
  split <;> exact Function.update_self _ _ _

theorem kfree_given_of_ne {s : FS} {pg pg' : Page} (h : pg' ≠ pg) (u : Use) :
    (s.kfree pg u).given pg' = s.given pg' := by
  unfold FS.kfree
  dsimp only
  split <;> exact Function.update_of_ne h _ _

/-- A page is given back by the process that is about to free it, and once. -/
theorem step_given {v : Version} {s s' : FS} {a : Act} (hs : step v s a = some s') {pg : Page}
    (hpg : s'.given pg ≠ s.given pg) :
    ∃ p c pi, a = .step p c ∧ Frees s p pi pg ∧ s'.given pg = s.given pg + 1 := by
  cases a with
  | call p f =>
    simp only [step] at hs
    split at hs
    · exact absurd (congrFun (enter_given hs) pg) hpg
    · exact absurd hs.symm (Option.some_ne_none _)
  | step p a =>
    have hs : s.run v p a = some s' := hs
    by_cases hd : ∃ pi k, s.pc p = .kfreeData pi k
    · obtain ⟨pi, k, hp⟩ := hd
      simp only [FS.run, hp] at hs
      obtain rfl := Option.some.inj hs
      by_cases he : pg = (s.pipe pi).data
      · subst he
        exact ⟨p, a, pi, rfl, .inl ⟨k, hp, rfl⟩, kfree_given_self _ _ _⟩
      · exact absurd (kfree_given_of_ne he _) hpg
    · by_cases hm : ∃ pi k, s.pc p = .kfreeMeta pi k
      · obtain ⟨pi, k, hp⟩ := hm
        simp only [FS.run, hp] at hs
        obtain rfl := Option.some.inj hs
        by_cases he : pg = pi
        · subst he
          exact ⟨p, a, pg, rfl, .inr ⟨k, hp, rfl⟩, kfree_given_self _ _ _⟩
        · exact absurd (kfree_given_of_ne he _) hpg
      · exact absurd (congrFun (run_given hs (fun pi k hp => hd ⟨pi, k, hp⟩)
          fun pi k hp => hm ⟨pi, k, hp⟩) pg) hpg
  | take pg' | give pg' =>
    simp only [step] at hs
    split at hs
    · obtain rfl := Option.some.inj hs
      exact absurd rfl hpg
    · exact absurd hs.symm (Option.some_ne_none _)

/-- Whoever is about to free a page owns both ends of its pipe. -/
theorem Frees.not_open {v : Version} {s : FS} (h : PipeInv v s) {p : Slot} {pi pg : Page}
    (hf : Frees s p pi pg) (e : Bool) : ¬ s.EndOpen pi e := by
  intro he
  obtain ⟨f, hs⟩ := (endOpen_iff h.files).mp he
  obtain ⟨d, hd⟩ := h.pages.page pi
  have hown := (hd.owned _ _ _).mp hs
  have hends : ∃ st, (s.pc p).ends = whole pi st := by
    rcases hf with ⟨k, hp, -⟩ | ⟨k, hp, -⟩
    · exact ⟨.raw, by rw [hp]; rfl⟩
    · exact ⟨.bare, by rw [hp]; rfl⟩
  obtain ⟨st, hends⟩ := hends
  have heq := (hd.both hends e).symm.trans hown
  exact absurd (Prod.mk.inj (Option.some.inj heq)).1 Sum.inr_ne_inl

/-! ## The call that closes the second end -/

/-- Closing the last reference to a pipe end goes on to `pipeclose`. -/
theorem run_fileclose_last {v : Version} {s : FS} {p : Slot} {f : FileId} {k : After}
    (a : Choice) (hp : s.pc p = .fileclose f k) (ht : (s.file f).type = .FD_PIPE)
    (hone : (s.file f).ref = 1) :
    ∃ s', s.run v p a = some s' ∧
      s'.pc p = .pipeclose (s.file f).pipe (s.file f).writable k ∧
      s'.pipe = s.pipe ∧ s'.given = s.given := by
  refine ⟨_, ?_, FS.goto_pc_self (s.setFile f { s.file f with ref := 0, type := .FD_NONE }) p _,
    rfl, rfl⟩
  simp only [FS.run, hp, FS.fileclose]
  rw [if_neg (by omega), if_neg (by omega), if_pos ht]

/-- Clearing the second flag goes on to free the pages. -/
theorem run_pipeclose_last {v : Version} {s : FS} {p : Slot} {pi : Page} {w : Bool} {k : After}
    (a : Choice) (hp : s.pc p = .pipeclose pi w k) (hoff : (s.pipe pi).isOpen (!w) = false) :
    ∃ s', s.run v p a = some s' ∧
      s'.pc p = (if dataPage v then .kfreeData pi k else .kfreeMeta pi k) ∧
      (s'.pipe pi).data = (s.pipe pi).data ∧ s'.given = s.given := by
  refine ⟨_, ?_, FS.goto_pc_self (s.setPipe pi ((s.pipe pi).shut w)) p _, ?_, rfl⟩
  · simp only [FS.run, hp, FS.pipeclose]
    rw [if_pos ((Pipe.shut_both _ _).mpr hoff)]
  · show ((s.setPipe pi ((s.pipe pi).shut w)).pipe pi).data = _
    rw [FS.setPipe_self, Pipe.shut_data]

theorem run_kfreeData {v : Version} {s : FS} (h : PipeInv v s) {p : Slot} {pi : Page} {k : After}
    (a : Choice) (hp : s.pc p = .kfreeData pi k) :
    ∃ s', s.run v p a = some s' ∧ s'.pc p = .kfreeMeta pi k ∧ (s.pipe pi).data ≠ pi ∧
      s'.use (s.pipe pi).data = .free ∧
      s'.given (s.pipe pi).data = s.given (s.pipe pi).data + 1 ∧ s'.given pi = s.given pi := by
  obtain ⟨hd, hm⟩ := h.pages.data_there hp
  have hne : (s.pipe pi).data ≠ pi := fun he => by
    rw [he, hm] at hd
    exact Use.noConfusion hd
  refine ⟨_, ?_, FS.goto_pc_self (s.kfree (s.pipe pi).data (.data pi)) p _, hne,
    kfree_use_self hd, kfree_given_self _ _ _, kfree_given_of_ne hne.symm _⟩
  simp only [FS.run, hp]

theorem run_kfreeMeta {v : Version} {s : FS} (h : PipeInv v s) {p : Slot} {pi : Page} {k : After}
    (a : Choice) (hp : s.pc p = .kfreeMeta pi k) :
    ∃ s', s.run v p a = some s' ∧ s'.pc p = k.pc ∧ s'.use pi = .free ∧
      s'.given pi = s.given pi + 1 ∧
      ∀ pg, pg ≠ pi → s'.use pg = s.use pg ∧ s'.given pg = s.given pg := by
  have hm := h.pages.meta_there hp
  refine ⟨_, ?_, FS.goto_pc_self (s.kfree pi .metadata) p _, kfree_use_self hm,
    kfree_given_self _ _ _, fun pg hne => ⟨kfree_use_of_ne hm hne, kfree_given_of_ne hne _⟩⟩
  simp only [FS.run, hp]

theorem runFrom_run {v : Version} {s s₁ : FS} {p : Slot} {a : Choice} (as : List Act)
    (h : s.run v p a = some s₁) : runFrom (step v) s (.step p a :: as) =
    runFrom (step v) s₁ as := by
  show (s.run v p a).bind _ = _
  rw [h]
  rfl

/-- The other end is nobody's, so its flag is off. -/
theorem PipeInv.flag_off {v : Version} {s : FS} (h : PipeInv v s) {pi : Page} {e : Bool}
    (hm : s.use pi = .metadata) (hopen : ¬ s.EndOpen pi e) (hbusy : ¬ s.Busy pi) :
    (s.pipe pi).isOpen e = false := by
  obtain ⟨d, hd⟩ := h.pages.page pi
  refine hd.shut hm e ?_
  by_contra hne
  rcases hd.owner_cases h.files hne with hb | ho
  · exact hbusy hb
  · exact hopen ho

/-- The last reference to the second end is closed: the same call gives back every
page of the pipe. -/
theorem fileclose_frees {v : Version} {s : FS} (hc : CountInv s) (h : PipeInv v s) {p : Slot}
    {f : FileId} {k : After} (a : Choice) (hp : s.pc p = .fileclose f k)
    (ht : (s.file f).type = .FD_PIPE) (hone : (s.file f).ref = 1)
    (hopen : ¬ s.EndOpen (s.file f).pipe (!(s.file f).writable))
    (hbusy : ¬ s.Busy (s.file f).pipe) :
    ∃ s', runFrom (step v) s (List.replicate (if dataPage v then 4 else 3) (.step p a)) = some s' ∧
      s'.pc p = k.pc ∧ s'.use (s.file f).pipe = .free ∧
      s'.given (s.file f).pipe = s.given (s.file f).pipe + 1 ∧
      (dataPage v = true → s'.use (s.pipe (s.file f).pipe).data = .free ∧
        s'.given (s.pipe (s.file f).pipe).data = s.given (s.pipe (s.file f).pipe).data + 1) := by
  generalize hpi : (s.file f).pipe = pi at *
  have hm : s.use pi = .metadata := by
    have hl := (lifetime_of_inv hc h).pages f ht (by omega)
    rw [hpi] at hl
    exact hl.1.1
  have hoff := h.flag_off hm hopen hbusy
  obtain ⟨s₁, hrun₁, hp₁, hpipe₁, hgiven₁⟩ := run_fileclose_last (v := v) a hp ht hone
  have hinv₁ := run_pipe hc h hrun₁
  have hc₁ := run_count hc hrun₁
  rw [hpi] at hp₁
  rw [← hpipe₁] at hoff
  obtain ⟨s₂, hrun₂, hp₂, hdata₂, hgiven₂⟩ := run_pipeclose_last (v := v) a hp₁ hoff
  have hinv₂ := run_pipe hc₁ hinv₁ hrun₂
  have hc₂ := run_count hc₁ hrun₂
  rw [hgiven₁] at hgiven₂
  rw [hpipe₁] at hdata₂
  cases hv : dataPage v with
  | false =>
    rw [hv, if_neg Bool.false_ne_true] at hp₂
    obtain ⟨s₃, hrun₃, hp₃, huse₃, hgiven₃, -⟩ := run_kfreeMeta hinv₂ a hp₂
    refine ⟨s₃, ?_, hp₃, huse₃, ?_, fun hx => absurd hx Bool.false_ne_true⟩
    · exact (runFrom_run _ hrun₁).trans ((runFrom_run _ hrun₂).trans (runFrom_run _ hrun₃))
    · rw [hgiven₃, hgiven₂]
  | true =>
    rw [hv, if_pos rfl] at hp₂
    obtain ⟨s₃, hrun₃, hp₃, hne, huse₃, hgiven₃, hkeep₃⟩ := run_kfreeData hinv₂ a hp₂
    have hinv₃ := run_pipe hc₂ hinv₂ hrun₃
    obtain ⟨s₄, hrun₄, hp₄, huse₄, hgiven₄, hkeep₄⟩ := run_kfreeMeta hinv₃ a hp₃
    rw [hdata₂] at hne huse₃ hgiven₃
    refine ⟨s₄, ?_, hp₄, huse₄, ?_, fun _ => ⟨?_, ?_⟩⟩
    · exact (runFrom_run _ hrun₁).trans ((runFrom_run _ hrun₂).trans
        ((runFrom_run _ hrun₃).trans (runFrom_run _ hrun₄)))
    · rw [hgiven₄, hkeep₃, hgiven₂]
    · rw [(hkeep₄ _ hne).1, huse₃]
    · rw [(hkeep₄ _ hne).2, hgiven₃, hgiven₂]

/-- **The life of files and pipes.** In every state of every run descriptors,
files, flags and pages agree. Between calls `ref` is the number of descriptors, a
pipe is allocated while one of its ends is open, and a flag is on while its end
is. A page is given back when no end of its pipe is open, once, and by the call
that closes the second end. -/
theorem pipe_and_file_lifetime {v : Version} {s : FS} (hr : Reach (step v) Any Init s) :
    Lifetime v s ∧
    (s.Idle → (∀ f, (s.file f).ref = s.descriptors f) ∧
      (∀ pi, s.use pi = .metadata ↔ ∃ e, s.EndOpen pi e) ∧
      (∀ pi, s.use pi = .metadata → ∀ e, (s.pipe pi).isOpen e = true ↔ s.EndOpen pi e)) ∧
    (∀ a s' pg, step v s a = some s' → s'.given pg ≠ s.given pg →
      ∃ p c pi, a = .step p c ∧ Frees s p pi pg ∧ (∀ e, ¬ s.EndOpen pi e) ∧
        s'.given pg = s.given pg + 1) ∧
    (∀ p f k a, s.pc p = .fileclose f k → (s.file f).type = .FD_PIPE → (s.file f).ref = 1 →
      ¬ s.EndOpen (s.file f).pipe (!(s.file f).writable) → ¬ s.Busy (s.file f).pipe →
      ∃ s', runFrom (step v) s
        (List.replicate (if dataPage v then 4 else 3) (.step p a)) = some s' ∧
        s'.pc p = k.pc ∧ s'.use (s.file f).pipe = .free ∧
        s'.given (s.file f).pipe = s.given (s.file f).pipe + 1 ∧
        (dataPage v = true → s'.use (s.pipe (s.file f).pipe).data = .free ∧
          s'.given (s.pipe (s.file f).pipe).data
            = s.given (s.pipe (s.file f).pipe).data + 1)) := by
  obtain ⟨hc, h⟩ := reach_pipe hr
  have hl := lifetime_of_inv hc h
  refine ⟨hl, fun hi => ⟨hl.ref_idle hi, fun pi => ?_, fun pi hm => ?_⟩, fun a s' pg hs hpg => ?_,
    fun p f k a hp ht hone hopen hbusy => fileclose_frees hc h a hp ht hone hopen hbusy⟩
  · rw [hl.allocated pi]
    exact ⟨fun hb => hb.resolve_left (hi.not_busy pi), .inr⟩
  · exact hl.flag pi hm (hi.not_busy pi)
  · obtain ⟨p, c, pi, ha, hf, hg⟩ := step_given hs hpg
    exact ⟨p, c, pi, ha, hf, hf.not_open h, hg⟩

/-- Process 0 makes a pipe out of pages 7 and 8, and duplicates its writable end. -/
def pipeThenDup : List Act :=
  let go : Choice := ⟨none, true, false, false, false⟩
  [.call 0 .sysPipe, .step 0 go, .step 0 go, .step 0 { go with page := some 7 },
    .step 0 { go with page := some 8 }, .step 0 go, .step 0 go, .step 0 go, .step 0 go, .step 0 go,
    .step 0 go, .call 0 (.sysDup 1), .step 0 go]

theorem pipe_and_file_lifetime_dup :
    ∃ s, runFrom (step .v4) FS.boot pipeThenDup = some s ∧ (s.file 1).ref = 2 ∧
      s.descriptors 1 = 2 ∧ s.use 8 = .data 7 ∧ (∃ e, s.EndOpen 7 e) ∧ s.taken 8 =
      s.given 8 + 1 := by
  have hobs : (runFrom (step .v4) FS.boot pipeThenDup).map
      (fun s => ((s.file 1).ref, s.use 8, decide (∀ p, s.pc p = .dead ∨ s.pc p = .user)))
      = some (2, .data 7, true) := by decide +kernel
  obtain ⟨s, hs, hobs⟩ := Option.map_eq_some_iff.mp hobs
  obtain ⟨href, hobs⟩ := Prod.mk.inj hobs
  obtain ⟨huse, hidle⟩ := Prod.mk.inj hobs
  have hreach : Reach (step .v4) Any Init s :=
    .of_run pipeThenDup (.start boot_init) (RunOk.any _ _ _) hs
  obtain ⟨hl, hi, -⟩ := pipe_and_file_lifetime hreach
  have hidle : ∀ p, s.pc p = .dead ∨ s.pc p = .user := of_decide_eq_true hidle
  obtain ⟨hcount, hopen, -⟩ := hi hidle
  refine ⟨s, hs, href, (hcount 1).symm.trans href, huse, (hopen 7).mp (hl.data 8 7 huse).1, ?_⟩
  have honce := hl.once 8
  rw [huse] at honce
  exact honce

end Xv6.Ftable
