import Xv6.Names.Keeps

/-!
# Every step keeps the tree

The calls that move references between a process, its files and the call itself, and
with them the step: a call that begins in a state with `Inv` and returns ends in one
(`Inv.step`), and one that does not return stops for a reason other than
`ilock: no type` (`Inv.safe`).
-/

namespace Xv6.Names

open Lib
open Ftable (NFILE NOFILE FileId Fd FileType)

variable {strict : Prop} {debt : Inum → Int} {R R' : Procs} {H : Inum → Nat} {own : List Inum}
  {raw : Option Inum} {T T' : Fs} {k k' : Kernel} {i c dp ip : Inum} {p np : Slot}

/-! ## The current directory -/

/-- The reference that `p` has to its current directory is given back; the call may hold
others. -/
theorem iputCwd_wp (hT : Tree strict noDebt none T) (h : Mem R R.holders own none none T k)
    (hc : R.cwd p = some c) :
    wp (iput c) (fun _ k' => ∃ T', Tree strict noDebt none T' ∧
      Mem R (R.setCwd p none).holders own none none T' k') Safe k := by
  have h₁ : Mem R (R.setCwd p none).holders (c :: own) (unread own c) none T k := by
    refine h.hand h.procs rfl rfl rfl (fun j => ?_) (fun j hj hr => ?_)
    · have hd := holders_setCwd_drop hc j
      have hcnt := count_head c own j
      omega
    · rcases List.mem_cons.mp hj with rfl | hj
      · exact ⟨mem_of_unread hr, (Option.some_ne_none _).symm⟩
      · exact ⟨hj, (Option.some_ne_none _).symm⟩
  refine (iput_tree hT h₁ (fun j hj he => ?_) (Int.le_refl 0)).mono fun _ k₂ h₂ => ?_
  · obtain ⟨rfl, hno⟩ := unread_eq he
    exact hno hj
  · obtain ⟨T', hT', h₂, _⟩ := h₂
    exact ⟨T', hT', h₂⟩

theorem Files.setCwd (h : Files R) {o : Option Inum} (hp : R.life p = .unused → o = none) :
    Files (R.setCwd p o) := by
  refine ⟨h.free, fun q hq => ?_⟩
  by_cases hqp : q = p
  · have hself : (R.setCwd p o).cwd q = o := by simp [Procs.setCwd, hqp]
    rw [hself]
    exact hp (hqp ▸ hq)
  · have hne : (R.setCwd p o).cwd q = R.cwd q := by simp [Procs.setCwd, hqp]
    rw [hne]
    exact h.idle q hq

def Procs.setLife (R : Procs) (p : Slot) (l : Life) : Procs :=
  { R with life := Function.update R.life p l }

theorem Files.setLife (h : Files R) {l : Life} (hp : l = .unused → R.cwd p = none) :
    Files (R.setLife p l) := by
  refine ⟨h.free, fun q hq => ?_⟩
  by_cases hqp : q = p
  · have hself : (R.setLife p l).life q = l := by simp [Procs.setLife, hqp]
    rw [hself] at hq
    exact hqp ▸ hp hq
  · have hne : (R.setLife p l).life q = R.life q := by simp [Procs.setLife, hqp]
    exact h.idle q (hne ▸ hq)

theorem setCwd_setCwd (R : Procs) (p : Slot) (a b : Option Inum) :
    (R.setCwd p a).setCwd p b = R.setCwd p b := by
  simp [Procs.setCwd]

theorem sysChdir_wp (hF : Files R) (hT : Tree strict noDebt none T)
    (h : Mem R R.holders [] none none T k) (hlife : R.life p ≠ .unused) {path : Option Str}
    (hok : ∀ s, path = some s → PathOk R T p false s) :
    wp (sysChdir p path) (fun _ k' => Inv strict k') Safe k := by
  have hend : ∀ {k : Kernel}, Settled strict R R.holders [] k → wp (do
      end_op
      pure (-1 : Int)) (fun _ k' => Inv strict k') Safe k := fun h =>
    (end_settled h).mono fun _ _ h' => h'.inv hF
  unfold sysChdir
  refine (begin_op_wp h).andThen fun _ k₁ h₁ => ?_
  match path with
  | none => exact hend ⟨T, hT, h₁⟩
  | some path =>
  simp only
  refine (namei_wp hT h₁ (holders_cwd R p) (hok path rfl)).andThen fun r k₂ h₂ => ?_
  match r, h₂ with
  | none, h₂ => exact hend ⟨T, hT, h₂⟩
  | some ip, ⟨h₂, _, _⟩ =>
  simp only
  refine (ilock_wp h₂ List.mem_cons_self fun j hj => (unread_eq hj).1).andThen fun _ k₃ h₃ => ?_
  rw [wp_bind, wp_get, wp_ite]
  refine ⟨fun _ => (put_end hT h₃).mono fun _ _ h' => h'.inv hF, fun _ => ?_⟩
  refine (iunlock_wp h₃).andThen fun _ k₄ h₄ => ?_
  refine (cwdOf_wp h₄).andThen fun c k₅ h₅ => ?_
  obtain ⟨hc, rfl⟩ := h₅
  refine (iputCwd_wp hT h₄ hc).andThen fun _ k₆ h₆ => ?_
  obtain ⟨T₆, hT₆, h₆⟩ := h₆
  refine (end_op_wp h₆).andThen fun _ k₇ h₇ => ?_
  rw [wp_bind, wp_modify, wp_pure]
  refine Settled.inv (R := R.setCwd p (some ip)) (hF.setCwd fun hu => absurd hu hlife)
    ⟨T₆, hT₆, h₇.hand ?_ rfl rfl rfl (fun j => ?_) fun j hj => absurd hj List.not_mem_nil⟩
  · rw [← h₇.procs]
    rfl
  · have ht := holders_setCwd_take (R := R.setCwd p none) (p := p) (i := ip)
      (by simp [Procs.setCwd]) j
    rw [setCwd_setCwd] at ht
    simpa using ht

/-! ## Descriptors -/

theorem argfd_wp {fd : Fd} : wp (argfd p fd) (fun _ k' => k' = k) Safe k := rfl

theorem sysClose_wp (hF : Files R) (hT : Tree strict noDebt none T)
    (h : Mem R R.holders [] none none T k) {fd : Fd} :
    wp (sysClose p fd) (fun _ k' => Inv strict k') Safe k := by
  unfold sysClose
  refine argfd_wp.andThen fun r k₁ hk₁ => ?_
  obtain rfl := hk₁
  match r with
  | none => exact Settled.inv hF ⟨T, hT, h⟩
  | some f =>
  simp only
  rw [wp_bind, wp_modify]
  obtain ⟨R', hf, hc, hl, h'⟩ := h.setOfile p fd none
  rw [← holders_congr hf hc] at h'
  refine (fileclose_wp (hF.congr hf hc hl) hT h').andThen fun _ k₂ h₂ => ?_
  obtain ⟨T₂, hT₂, h₂⟩ := h₂
  exact h₂.inv hT₂

theorem sysDup_wp (hF : Files R) (hT : Tree strict noDebt none T)
    (h : Mem R R.holders [] none none T k) {fd : Fd} :
    wp (sysDup p fd) (fun _ k' => Inv strict k') Safe k := by
  unfold sysDup
  refine argfd_wp.andThen fun r k₁ hk₁ => ?_
  obtain rfl := hk₁
  match r with
  | none => exact Settled.inv hF ⟨T, hT, h⟩
  | some f =>
  simp only
  refine (fdalloc_wp hF h).andThen fun r k₂ h₂ => ?_
  obtain ⟨R₂, hF₂, _, _, _, h₂⟩ := h₂
  match r with
  | none => exact Settled.inv hF₂ ⟨T, hT, h₂⟩
  | some fd => exact (filedup_wp hF₂ h₂).andThen fun _ _ h₃ => h₃.inv hT

/-- The inode of an open file is locked and unlocked under the file's own reference. -/
theorem filestat_wp (hF : Files R) (hT : Tree strict noDebt none T)
    (h : Mem R R.holders [] none none T k) {f : FileId} :
    wp (filestat f) (fun _ k' => Inv strict k') Safe k := by
  unfold filestat
  rw [wp_bind, wp_get]
  dsimp only
  have hfile : k.file f = R.file f := congrFun (congrArg Procs.file h.procs) f
  rw [hfile, wp_ite]
  refine ⟨fun hty => ?_, fun _ => Settled.inv hF ⟨T, hT, h⟩⟩
  set ip := (R.file f).ip with hip
  have hin : (R.file f).inode = some ip := if_pos hty
  have hd := fun j => holders_setFile_drop (x := { R.file f with type := .FD_NONE }) hin rfl j
  have h₀ : Mem R (R.setFile f { R.file f with type := .FD_NONE }).holders [ip]
    (some ip) none T k := by
    refine h.hand h.procs rfl rfl rfl (fun j => ?_) (fun j hj hr => ?_)
    · simpa using hd j
    · exact absurd (congrArg some (List.mem_singleton.mp hj).symm) hr
  refine (ilock_wp h₀ List.mem_cons_self fun j hj => (Option.some.inj hj).symm).andThen
    fun _ k₁ h₁ => ?_
  refine (iunlock_wp h₁).andThen fun _ k₂ h₂ => ?_
  refine Settled.inv hF ⟨T, hT, h₂.hand h₂.procs rfl rfl rfl (fun j => ?_)
    fun j hj => absurd hj List.not_mem_nil⟩
  simpa using (hd j).symm

theorem sysFstat_wp (hF : Files R) (hT : Tree strict noDebt none T)
    (h : Mem R R.holders [] none none T k) {fd : Fd} :
    wp (sysFstat p fd) (fun _ k' => Inv strict k') Safe k := by
  unfold sysFstat
  refine argfd_wp.andThen fun r k₁ hk₁ => ?_
  obtain rfl := hk₁
  match r with
  | none => exact Settled.inv hF ⟨T, hT, h⟩
  | some f => exact filestat_wp hF hT h

/-! ## Processes -/

theorem kexec_wp (hT : Tree strict noDebt none T) (h : Mem R R.holders [] none none T k)
    {path : Option Str} (hok : ∀ s, path = some s → PathOk R T p false s) :
    wp (kexec p path) (fun _ k' => Settled strict R R.holders [] k') Safe k := by
  unfold kexec
  match path with
  | none => exact ⟨T, hT, h⟩
  | some path =>
  simp only
  refine (begin_op_wp h).andThen fun _ k₁ h₁ => ?_
  refine (namei_wp hT h₁ (holders_cwd R p) (hok path rfl)).andThen fun r k₂ h₂ => ?_
  match r, h₂ with
  | none, h₂ => exact end_settled ⟨T, hT, h₂⟩
  | some ip, ⟨h₂, _, _⟩ =>
  simp only
  refine (ilock_wp h₂ List.mem_cons_self fun j hj => (unread_eq hj).1).andThen fun _ k₃ h₃ => ?_
  exact put_end hT h₃

theorem dupFiles_wp (fds : List Fd) : ∀ {R : Procs} {k : Kernel}, Files R →
    Mem R R.holders own none none T k →
    wp (dupFiles p np fds) (fun _ k' => Filed R own T k') Safe k := by
  induction fds with
  | nil =>
    intro R k hF h
    exact h.filed hF
  | cons fd fds ih =>
    intro R k hF h
    have hnext : ∀ {k' : Kernel}, Filed R own T k' →
        wp (dupFiles p np fds) (fun _ k'' => Filed R own T k'') Safe k' := by
      intro k' h'
      obtain ⟨R', hF', hc, hl, h'⟩ := h'
      refine (ih hF' h').mono fun _ _ h'' => ?_
      obtain ⟨R'', hF'', hc', hl', h''⟩ := h''
      exact ⟨R'', hF'', hc'.trans hc, hl'.trans hl, h''⟩
    unfold dupFiles
    refine argfd_wp.andThen fun r k₁ hk₁ => ?_
    obtain rfl := hk₁
    match r with
    | none => exact hnext (h.filed hF)
    | some f =>
    simp only
    rw [wp_bind]
    refine (filedup_wp hF h).mono fun _ k₂ h₂ => ?_
    rw [wp_bind, wp_modify]
    obtain ⟨R₂, hF₂, hc, hl, h₂⟩ := h₂
    obtain ⟨R₃, hf₃, hc₃, hl₃, h₃⟩ := h₂.setOfile np fd (some f)
    rw [← holders_congr hf₃ hc₃] at h₃
    exact hnext ⟨R₃, hF₂.congr hf₃ hc₃ hl₃, hc₃.trans hc, hl₃.trans hl, h₃⟩

theorem kfork_wp (hF : Files R) (hT : Tree strict noDebt none T)
    (h : Mem R R.holders [] none none T k) (hnp : R.life np = .unused) :
    wp (kfork p np) (fun _ k' => Inv strict k') Safe k := by
  unfold kfork
  refine (dupFiles_wp _ hF h).andThen fun _ k₁ h₁ => ?_
  obtain ⟨R₁, hF₁, hc₁, hl₁, h₁⟩ := h₁
  refine (cwdOf_wp h₁).andThen fun c k₂ h₂ => ?_
  obtain ⟨hc, rfl⟩ := h₂
  have hpos : 0 < (k₂.itable c).ref := by
    rw [h₁.refs]
    exact Nat.add_pos_left (holders_cwd R₁ p c hc) _
  refine (idup_wp h₁ hpos).andThen fun _ k₃ h₃ => ?_
  rw [wp_bind, wp_modify, wp_pure]
  -- the child holds the reference that was made for it
  have hnone : R₁.cwd np = none := hF₁.idle np (hl₁ ▸ hnp)
  refine Settled.inv (R := (R₁.setLife np .running).setCwd np (some c))
    ((hF₁.setLife Life.noConfusion).setCwd fun hu => ?_)
    ⟨T, hT, h₃.hand ?_ rfl rfl rfl (fun j => ?_) fun j hj => absurd hj List.not_mem_nil⟩
  · simp [Procs.setLife] at hu
  · rw [← h₃.procs]
    rfl
  · have ht := holders_setCwd_take (R := R₁) (p := np) (i := c) hnone j
    rw [List.count_nil, Nat.add_zero]
    exact ht

/-- A process that stops or goes on: who holds what stays. -/
theorem Mem.setLife (h : Mem R H own none none T k) (p : Slot) (l : Life) :
    Mem (R.setLife p l) H own none none T { k with life := Function.update k.life p l } := by
  refine h.procs_congr ?_ rfl rfl rfl rfl
  rw [← h.procs]
  rfl

theorem kexit_wp (hF : Files R) (hT : Tree strict noDebt none T)
    (h : Mem R R.holders [] none none T k) :
    wp (kexit p) (fun _ k' => Inv strict k') Safe k := by
  unfold kexit
  rw [wp_bind, wp_get, wp_ite]
  refine ⟨fun _ => h.safe Halt.noConfusion, fun _ => ?_⟩
  split
  next fd _ =>
    rw [wp_bind, wp_modify]
    have h₁ := h.setLife p .exiting
    have hF₁ : Files (R.setLife p .exiting) := hF.setLife Life.noConfusion
    refine argfd_wp.andThen fun r k₂ hk₂ => ?_
    obtain rfl := hk₂
    match r with
    | none => exact Settled.inv hF₁ ⟨T, hT, h₁⟩
    | some f =>
    simp only
    refine (fileclose_wp hF₁ hT h₁).andThen fun _ k₃ h₃ => ?_
    obtain ⟨T₃, hT₃, R₃, hF₃, _, _, h₃⟩ := h₃
    rw [wp_bind, wp_modify, wp_pure]
    obtain ⟨R₄, hf, hc, hl, h₄⟩ := h₃.setOfile p fd none
    rw [← holders_congr hf hc] at h₄
    exact Settled.inv (hF₃.congr hf hc hl) ⟨T₃, hT₃, h₄⟩
  next =>
    refine (cwdOf_wp h).andThen fun c k₁ h₁ => ?_
    obtain ⟨hc, rfl⟩ := h₁
    refine (begin_op_wp h).andThen fun _ k₂ h₂ => ?_
    refine (iputCwd_wp hT h₂ hc).andThen fun _ k₃ h₃ => ?_
    obtain ⟨T₃, hT₃, h₃⟩ := h₃
    refine (end_op_wp h₃).andThen fun _ k₄ h₄ => ?_
    rw [wp_bind, wp_modify, wp_pure]
    refine Settled.inv (R := (R.setCwd p none).setLife p .unused)
      ((hF.setCwd fun _ => rfl).setLife fun _ => ?_) ⟨T₃, hT₃, h₄.procs_congr ?_ rfl rfl rfl rfl⟩
    · simp [Procs.setCwd]
    · rw [← h₄.procs]
      rfl

/-! ## Steps -/

theorem enabled_life {a : Act} (h : enabled k a = true) : k.life a.proc ≠ .unused := by
  intro hu
  unfold enabled at h
  split at h
  next => exact of_decide_eq_true h hu
  next =>
    have hr := (of_decide_eq_true h).1
    rw [hu] at hr
    exact Life.noConfusion hr
  next =>
    have hr := of_decide_eq_true h
    rw [hu] at hr
    exact Life.noConfusion hr

/-- **Every call keeps the tree.** -/
theorem syscall_wp {a : Act} (h : Inv strict k) (hen : enabled k a = true) (hw : WalkOk k a)
    (hl : LinkOk k a) (hs : strict → PlaceOk k a) :
    wp (syscall a.proc a.call) (fun _ k' => Inv strict k') Safe { k with room := a.room } := by
  have hlife := enabled_life hen
  obtain ⟨p, call, room⟩ := a
  obtain ⟨hF, T, hT, hm⟩ := h
  obtain rfl := hm.fs
  have hm : Mem k.toProcs k.toProcs.holders [] none none k.fs { k with room := room } :=
    hm.congr rfl rfl rfl rfl
  have hinv : ∀ {m : Sys Int}, wp m (fun _ k' =>
      Settled strict k.toProcs k.toProcs.holders [] k') Safe { k with room := room } →
      wp m (fun _ k' => Inv strict k') Safe { k with room := room } := fun h =>
    h.mono fun _ _ h' => h'.inv hF
  cases call with
  | sysOpen path omode =>
    exact sysOpen_wp hF hT hm (fun s hp => by subst hp; exact hw)
      fun hst s hp => by subst hp; exact hs hst
  | sysMkdir path =>
    exact hinv (make_wp hT hm IType.noConfusion (fun s hp => by subst hp; exact hw)
      fun hst s hp => by subst hp; exact hs hst)
  | sysMknod path major minor =>
    exact hinv (make_wp hT hm IType.noConfusion (fun s hp => by subst hp; exact hw)
      fun hst s hp => by subst hp; exact hs hst)
  | sysLink old new =>
    refine hinv (sysLink_wp hT hm (fun s t ho hn => ?_) fun hst s t ho hn => ?_)
    · subst ho hn
      exact ⟨hw.1, hw.2, hl⟩
    · subst ho hn
      exact hs hst
  | sysUnlink path =>
    exact hinv (sysUnlink_wp hT hm (fun s hp => by subst hp; exact hw)
      fun hst s hp => by subst hp; exact hs hst)
  | sysChdir path =>
    exact sysChdir_wp hF hT hm hlife fun s hp => by subst hp; exact hw
  | sysClose fd => exact sysClose_wp hF hT hm
  | sysDup fd => exact sysDup_wp hF hT hm
  | sysFstat fd => exact sysFstat_wp hF hT hm
  | kexec path => exact hinv (kexec_wp hT hm fun s hp => by subst hp; exact hw)
  | kfork np => exact kfork_wp hF hT hm (of_decide_eq_true hen).2
  | kexit => exact kexit_wp hF hT hm

theorem Inv.step {a : Act} (h : Inv strict k) (hw : WalkOk k a) (hl : LinkOk k a)
    (hs : strict → PlaceOk k a) (hstep : step k a = some k') : Inv strict k' := by
  unfold Names.step at hstep
  split at hstep
  next hen =>
    have hwp := syscall_wp h hen hw hl hs
    unfold runCall at hstep
    split at hstep
    next v k₁ hrun =>
      obtain rfl := Option.some.inj hstep
      exact hwp.of_ok hrun
    next => exact absurd hstep.symm (Option.some_ne_none k')
  next => exact absurd hstep.symm (Option.some_ne_none k')

theorem Inv.safe {a : Act} {e : Halt} (h : Inv strict k) (hen : enabled k a = true)
    (hw : WalkOk k a) (hl : LinkOk k a) (hs : strict → PlaceOk k a)
    (hrun : runCall k a = (.error e, k')) : Safe e k' :=
  (syscall_wp h hen hw hl hs).of_error hrun

end Xv6.Names
