import Xv6.Names.Create

/-!
# Who holds an inode between calls

An inode is held by the processes whose current directory it is and by the open files
that refer to it. When one of these is set or cleared a reference changes hands, and
what `Mem` counts stays the same: `Mem.hand` gives the call a reference that a file or
a process had, or takes one from it.
-/

namespace Xv6.Names

open Lib
open Ftable (NFILE NOFILE FileId Fd FileType)

variable {strict : Prop} {debt : Inum → Int} {R R' : Procs} {H H' : Inum → Nat}
  {own own' : List Inum} {raw raw' : Option Inum} {T : Fs} {k k' : Kernel} {i : Inum}

/-- A file that is not in use refers to nothing, and neither does a process. -/
structure Files (R : Procs) : Prop where
  free : ∀ f, (R.file f).ref = 0 → (R.file f).inode = none
  idle : ∀ p, R.life p = .unused → R.cwd p = none

def Procs.setFile (R : Procs) (f : FileId) (x : File) : Procs :=
  { R with file := Function.update R.file f x }

def Procs.setCwd (R : Procs) (p : Slot) (o : Option Inum) : Procs :=
  { R with cwd := Function.update R.cwd p o }

theorem inode_setFile (R : Procs) (f : FileId) (x : File) :
    (fun g => ((R.setFile f x).file g).inode)
      = Function.update (fun g => (R.file g).inode) f x.inode := by
  funext g
  by_cases h : g = f
  · subst h
    simp [Procs.setFile]
  · simp [Procs.setFile, h]

theorem holders_setFile_same {f : FileId} {x : File} (h : x.inode = (R.file f).inode) :
    (R.setFile f x).holders = R.holders := by
  funext i
  unfold Procs.holders
  rw [inode_setFile, h, Function.update_eq_self]
  rfl

/-- A file gives up its inode. -/
theorem holders_setFile_drop {f : FileId} {x : File} (hf : (R.file f).inode = some i)
    (hx : x.inode = none) (j : Inum) : (R.setFile f x).holders j + [i].count j = R.holders j := by
  have hunset := fun (row : FileId → Option Inum) (h : row f = some i) =>
    entries_unset h (Option.some_ne_none f).symm j
  have h := hunset (fun g => (R.file g).inode) hf
  unfold Procs.holders
  rw [inode_setFile, hx]
  show entries R.cwd none j + _ + _ = _
  omega

/-- A file gets an inode. -/
theorem holders_setFile_take {f : FileId} {x : File} (hf : (R.file f).inode = none)
    (hx : x.inode = some i) (j : Inum) : (R.setFile f x).holders j = R.holders j + [i].count j := by
  have hset := fun (row : FileId → Option Inum) (h : row f = none) =>
    entries_set h (Option.some_ne_none f).symm i j
  have h := hset (fun g => (R.file g).inode) hf
  unfold Procs.holders
  rw [inode_setFile, hx]
  show entries R.cwd none j + _ = _
  omega

theorem holders_setCwd_drop {p : Slot} (hp : R.cwd p = some i) (j : Inum) :
    (R.setCwd p none).holders j + [i].count j = R.holders j := by
  have h : entries (Function.update R.cwd p none) none j + [i].count j = entries R.cwd none j :=
    entries_unset hp (Option.some_ne_none p).symm j
  unfold Procs.holders Procs.setCwd
  show entries (Function.update R.cwd p none) none j + entries (fun f => (R.file f).inode) none j
    + _ = _
  omega

theorem holders_setCwd_take {p : Slot} (hp : R.cwd p = none) (j : Inum) :
    (R.setCwd p (some i)).holders j = R.holders j + [i].count j := by
  have h : entries (Function.update R.cwd p (some i)) none j = entries R.cwd none j + [i].count j :=
    entries_set hp (Option.some_ne_none p).symm i j
  unfold Procs.holders Procs.setCwd
  show entries (Function.update R.cwd p (some i)) none j
    + entries (fun f => (R.file f).inode) none j = _
  omega

theorem Files.setFile (h : Files R) {f : FileId} {x : File} (hx : x.ref = 0 → x.inode = none) :
    Files (R.setFile f x) := by
  refine ⟨fun g hg => ?_, h.idle⟩
  by_cases hgf : g = f
  · have hself : (R.setFile f x).file g = x := by simp [Procs.setFile, hgf]
    rw [hself] at hg ⊢
    exact hx hg
  · have hne : (R.setFile f x).file g = R.file g := by simp [Procs.setFile, hgf]
    rw [hne] at hg ⊢
    exact h.free g hg

/-- **References change hands**: the sum of what is held stays. -/
theorem Mem.hand (h : Mem R H own raw none T k) (hp : k'.toProcs = R') (hfs : k'.fs = k.fs)
    (hi : k'.itable = k.itable) (hl : k'.looked = k.looked)
    (hsum : ∀ j, H' j + own'.count j = H j + own.count j)
    (hraw : ∀ j ∈ own', raw' ≠ some j → j ∈ own ∧ raw ≠ some j) :
    Mem R' H' own' raw' none T k' := by
  refine ⟨hp, hfs.trans h.fs, fun j => ?_, ?_, ?_, fun j hj hr => ?_, ?_, ?_⟩
  · rw [hi, h.refs, hsum]
  · exact hi ▸ h.used
  · exact hi ▸ h.agrees
  · rw [hi]
    exact h.valid j (hraw j hj hr).1 (hraw j hj hr).2
  · exact hi ▸ h.unlinked
  · exact hl ▸ h.sound

/-- The processes and files change without a reference changing hands. -/
theorem Mem.procs_congr (h : Mem R H own raw none T k) (hp : k'.toProcs = R') (hfs : k'.fs = k.fs)
    (hi : k'.itable = k.itable) (hl : k'.looked = k.looked) (hH : H' = H) :
    Mem R' H' own raw none T k' :=
  h.hand hp hfs hi hl (fun j => by rw [hH]) fun _ hj hr => ⟨hj, hr⟩

theorem begin_op_wp (h : Mem R H own raw none T k) :
    wp begin_op (fun _ k' => Mem R H own raw none T k') Safe k := h.congr rfl rfl rfl rfl

theorem end_op_wp (h : Mem R H own raw none T k) :
    wp end_op (fun _ k' => Mem R H own raw none T k') Safe k := h.congr rfl rfl rfl rfl

/-! ## `file.c` -/

theorem filealloc_wp (hF : Files R) (h : Mem R R.holders own none none T k) :
    wp (filealloc) (fun r k' => (r = none ∧ k' = k) ∨ ∃ f x, r = some f ∧ x.inode = none ∧
      (R.file f).inode = none ∧ 0 < x.ref ∧ Files (R.setFile f x) ∧
      Mem (R.setFile f x) (R.setFile f x).holders own none none T k') Safe k := by
  unfold filealloc
  rw [wp_bind, wp_get]
  split
  next => exact .inl ⟨rfl, rfl⟩
  next f hfind =>
    have hfile : k.file = R.file := congrArg Procs.file h.procs
    have href : (R.file f).ref = 0 := by
      have hf := List.find?_some hfind
      rw [hfile] at hf
      exact of_decide_eq_true hf
    have hin := hF.free f href
    have hx : ({ R.file f with ref := 1 } : File).inode = (R.file f).inode := rfl
    rw [wp_bind, wp_modify, wp_pure]
    refine .inr ⟨f, { R.file f with ref := 1 }, rfl, hx.trans hin, hin, Nat.one_pos,
      hF.setFile fun hc => absurd hc Nat.one_ne_zero, ?_⟩
    refine h.procs_congr ?_ rfl rfl rfl (holders_setFile_same hx)
    rw [← h.procs]
    rfl

/-- Setting a descriptor. -/
theorem Mem.setOfile (h : Mem R H own none none T k) (p : Slot) (fd : Fd) (o : Option FileId) :
    ∃ R', R'.file = R.file ∧ R'.cwd = R.cwd ∧ R'.life = R.life ∧
      Mem R' H own none none T (k.setOfile p fd o) := by
  have hp := h.procs
  refine ⟨(k.setOfile p fd o).toProcs, ?_, ?_, ?_, h.procs_congr rfl rfl rfl rfl rfl⟩
  · rw [← hp]
    rfl
  · rw [← hp]
    rfl
  · rw [← hp]
    rfl

theorem Files.congr (h : Files R) (hf : R'.file = R.file) (hc : R'.cwd = R.cwd)
    (hl : R'.life = R.life) : Files R' :=
  ⟨hf ▸ h.free, by rw [hl, hc]; exact h.idle⟩

theorem holders_congr (hf : R'.file = R.file) (hc : R'.cwd = R.cwd) : R'.holders = R.holders := by
  unfold Procs.holders
  rw [hf, hc]

/-- Files and descriptors may have changed; who is where has not. -/
def Filed (R : Procs) (own : List Inum) (T : Fs) (k : Kernel) : Prop :=
  ∃ R', Files R' ∧ R'.cwd = R.cwd ∧ R'.life = R.life ∧ Mem R' R'.holders own none none T k

theorem Mem.filed (hF : Files R) (h : Mem R R.holders own none none T k) : Filed R own T k :=
  ⟨R, hF, rfl, rfl, h⟩

theorem fdalloc_wp (hF : Files R) (h : Mem R R.holders own none none T k) {p : Slot} {f : FileId} :
    wp (fdalloc p f) (fun _ k' => ∃ R', Files R' ∧ R'.file = R.file ∧ R'.cwd = R.cwd ∧
      R'.life = R.life ∧ Mem R' R'.holders own none none T k') Safe k := by
  unfold fdalloc
  rw [wp_bind, wp_get]
  split
  next => exact ⟨R, hF, rfl, rfl, rfl, h⟩
  next fd _ =>
    rw [wp_bind, wp_modify, wp_pure]
    obtain ⟨R', hf, hc, hl, h'⟩ := h.setOfile p fd (some f)
    rw [← holders_congr hf hc] at h'
    exact ⟨R', hF.congr hf hc hl, hf, hc, hl, h'⟩

/-- A write to a file that refers to what it did. -/
theorem Mem.setFile_same (hF : Files R) (h : Mem R R.holders own none none T k) {f : FileId}
    {x : File} (hx : x.inode = (R.file f).inode) (h0 : x.ref = 0 → x.inode = none) :
    Filed R own T (k.setFile f x) := by
  refine ⟨R.setFile f x, hF.setFile h0, rfl, rfl, ?_⟩
  refine h.procs_congr ?_ rfl rfl rfl (holders_setFile_same hx)
  rw [← h.procs]
  rfl

theorem filedup_wp (hF : Files R) (h : Mem R R.holders own none none T k) {f : FileId} :
    wp (filedup f) (fun _ k' => Filed R own T k') Safe k := by
  unfold filedup
  rw [wp_bind, wp_get, wp_ite]
  refine ⟨fun _ => h.safe Halt.noConfusion, fun _ => ?_⟩
  rw [wp_modify]
  have hfile : k.file f = R.file f := congrFun (congrArg Procs.file h.procs) f
  rw [hfile]
  exact h.setFile_same hF rfl fun hc => absurd hc (Nat.succ_ne_zero _)

/-- **`fileclose`**: the last reference gives back the inode. -/
theorem fileclose_wp (hF : Files R) (hT : Tree strict noDebt none T)
    (h : Mem R R.holders own none none T k) {f : FileId} :
    wp (fileclose f) (fun _ k' => ∃ T', Tree strict noDebt none T' ∧ Filed R own T' k') Safe k := by
  have hfile : k.file f = R.file f := congrFun (congrArg Procs.file h.procs) f
  unfold fileclose
  rw [wp_bind, wp_get]
  dsimp only
  rw [hfile, wp_ite]
  refine ⟨fun _ => h.safe Halt.noConfusion, fun href => ?_⟩
  rw [wp_ite]
  refine ⟨fun hmore => ?_, fun _ => ?_⟩
  · rw [wp_modify]
    refine ⟨T, hT, h.setFile_same hF rfl fun hc => ?_⟩
    exact absurd hc (Nat.pos_iff_ne_zero.mp hmore)
  · rw [wp_bind, wp_modify, wp_ite]
    set x : File := { R.file f with ref := 0, type := .FD_NONE } with hx
    have hxin : x.inode = none := rfl
    have hF' : Files (R.setFile f x) := hF.setFile fun _ => hxin
    have hprocs : (k.setFile f x).toProcs = R.setFile f x := by
      rw [← h.procs]
      rfl
    refine ⟨fun hty => ?_, fun hty => ?_⟩
    · have hin : (R.file f).inode = some (R.file f).ip := if_pos hty
      have h₁ : Mem (R.setFile f x) (R.setFile f x).holders ((R.file f).ip :: own)
          (unread own (R.file f).ip) none T (k.setFile f x) := by
        refine h.hand hprocs rfl rfl rfl (fun j => ?_) (fun j hj hr => ?_)
        · have hd := holders_setFile_drop hin hxin j
          have hc := count_head (R.file f).ip own j
          omega
        · rcases List.mem_cons.mp hj with rfl | hj
          · exact ⟨mem_of_unread hr, (Option.some_ne_none _).symm⟩
          · exact ⟨hj, (Option.some_ne_none _).symm⟩
      refine (begin_op_wp h₁).andThen fun _ k₂ h₂ => ?_
      refine (iput_tree hT h₂ (fun j hj he => ?_) (Int.le_refl 0)).andThen fun _ k₃ h₃ => ?_
      · obtain ⟨rfl, hno⟩ := unread_eq he
        exact hno hj
      · obtain ⟨T', hT', h₃, _⟩ := h₃
        exact (end_op_wp h₃).mono fun _ _ h₄ => ⟨T', hT', R.setFile f x, hF', rfl, rfl, h₄⟩
    · have hin : (R.file f).inode = none := if_neg hty
      rw [wp_pure]
      exact ⟨T, hT, h.setFile_same hF (hxin.trans hin.symm) fun _ => hxin⟩

end Xv6.Names
