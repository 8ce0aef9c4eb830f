import Xv6.Names.Steps

/-!
# Link counts match names

> In a run that enters no name in a removed directory, removes no directory that is
> `..` of another, and makes no link to an inode with 32767 links, the link count
> of a file or device is the number of entries that carry its number, and an inode
> in use without a name is referenced (`links_match`).

`create` and `sys_link` do not look at the link count of the directory they write to.
A process whose current directory has been removed can enter a file in it, and when
the process leaves, the directory goes with its entries: the file keeps its link count
and nothing leads to it (`stranded`).
-/

namespace Xv6.Names

open Lib
open Ftable (NFILE NOFILE FileId Fd FileType)

/-- How many entries of the directories carry an inode number, `.` and `..` among
them. -/
def Fs.linked (T : Fs) (i : Inum) : Nat :=
  ∑ d ∈ Finset.range T.ninodes,
    if T.IsDir d then (T.disk d).entries.countP fun de => de.inum = i else 0

structure LinksMatch (k : Kernel) : Prop where
  count : ∀ i, (k.fs.disk i).type = .T_FILE ∨ (k.fs.disk i).type = .T_DEVICE →
    (k.fs.disk i).nlink = k.fs.linked i
  reached : ∀ i, k.fs.Used i → i ≠ ROOTINO → k.fs.names i = 0 → 0 < (k.itable i).ref

/-- What `main` starts the first process with: a disk whose link counts are right and
on which every inode in use has a link, and no reference but to the root. -/
structure Boot (k : Kernel) : Prop where
  tree : Tree True noDebt none k.fs
  clean : ∀ i, k.fs.Used i → (k.fs.disk i).nlink ≠ 0
  file : ∀ f, (k.file f).type = .FD_NONE
  life : ∀ p, k.life p = .unused ↔ p ≠ 0
  cwd : ∀ p, k.cwd p = if p = 0 then some ROOTINO else none
  ref : ∀ i, (k.itable i).ref = if i = ROOTINO then 1 else 0
  valid : ∀ i, (k.itable i).valid = false
  looked : k.looked = []

variable {strict : Prop} {debt : Inum → Int} {fresh : Option Inum} {T : Fs} {k k' : Kernel}

theorem Tree.weaken (h : Tree True debt fresh T) : Tree strict debt fresh T :=
  { h with
    kept := fun _ => h.kept trivial
    empty := fun _ => h.empty trivial
    up := fun _ => h.up trivial }

theorem Boot.inv (h : Boot k) : Inv strict k := by
  have hin : ∀ f, (k.file f).inode = none := fun f => by
    unfold File.inode
    rw [h.file f]
    rfl
  have hcwd : k.cwd = Function.update (fun _ => none) 0 (some ROOTINO) := by
    funext p
    rw [h.cwd p, Function.update_apply]
  have hfiles : ∀ i, entries (fun f => (k.file f).inode) none i = 0 := fun i => by
    unfold entries
    rw [Finset.card_eq_zero, Finset.filter_eq_empty_iff]
    exact fun f _ hc => Option.some_ne_none i (hc.1.symm.trans (hin f))
  have hidle : ∀ i, entries (fun _ : Slot => (none : Option Inum)) none i = 0 := fun i => by
    unfold entries
    rw [Finset.card_eq_zero, Finset.filter_eq_empty_iff]
    exact fun f _ hc => Option.some_ne_none i hc.1.symm
  have hholders : ∀ i, k.toProcs.holders i = [ROOTINO].count i := fun i => by
    unfold Procs.holders
    rw [hfiles, hcwd, entries_set rfl (Option.some_ne_none 0).symm, hidle, Nat.zero_add,
      Nat.add_zero]
  refine Settled.inv ⟨fun f _ => hin f, fun p hp => ?_⟩ ⟨k.fs, h.tree.weaken, rfl, rfl,
    fun i => ?_, fun i hr => ?_, fun i _ hv => ?_, fun i hi => absurd hi List.not_mem_nil,
    fun i hu hz => absurd hz (h.clean i hu), fun l hl => ?_⟩
  · rw [h.cwd p, if_neg ((h.life p).mp hp)]
  · rw [h.ref, hholders, List.count_nil, Nat.add_zero, List.count_singleton]
    by_cases hi : i = ROOTINO
    · rw [if_pos hi, if_pos (beq_iff_eq.mpr hi.symm)]
    · rw [if_neg hi, if_neg fun hc => hi (beq_iff_eq.mp hc).symm]
  · rw [h.ref] at hr
    split at hr
    next hi =>
      subst hi
      exact h.tree.root.1.used
    next => exact absurd hr (Nat.lt_irrefl 0)
  · rw [h.valid i] at hv
    exact absurd hv Bool.false_ne_true
  · rw [h.looked] at hl
    exact absurd hl List.not_mem_nil

/-! ## Runs that keep the condition -/

/-- In a tree with nothing in removed directories, `..` can be looked up anywhere. -/
theorem Tree.attached (h : Tree True debt none T) {d : Inum} (hd : T.IsDir d) (name : Str) :
    T.Attached (d, name) := by
  intro _ hc
  obtain ⟨hu, -, hb⟩ := h.up trivial hd (Option.some_ne_none d).symm
  exact hc.2 _ (h.bound hu.used).2 hu hb

theorem Fs.isDir_of_mem_visits (T : Fs) : ∀ (names : List Str) (d : Inum),
    ∀ v ∈ T.visits d names, T.IsDir v.1 := by
  intro names
  induction names with
  | nil => intro d v hv; exact absurd hv List.not_mem_nil
  | cons name names ih =>
    intro d v hv
    rw [visits] at hv
    split at hv
    next hd =>
      rcases List.mem_cons.mp hv with rfl | hv
      · exact hd
      · split at hv
        next => exact absurd hv List.not_mem_nil
        next d' _ => exact ih d' v hv
    next => exact absurd hv List.not_mem_nil

theorem Tree.pathOk (h : Tree True debt none T) (R : Procs) (p : Slot) (parent : Bool)
    (path : Str) : PathOk R T p parent path := fun v hv =>
  h.attached (T.isDir_of_mem_visits _ _ v hv) v.2

theorem Inv.walkOk (h : Inv True k) (a : Act) : WalkOk k a := by
  obtain ⟨_, T, hT, hm⟩ := h
  obtain rfl := hm.fs
  have hok := fun parent path => hT.pathOk k.toProcs a.proc parent path
  unfold WalkOk
  split
  all_goals first
    | exact hok _ _
    | exact ⟨hok _ _, hok _ _⟩
    | trivial

/-- Every entry of a directory is counted, where `.` and `..` are directories. -/
theorem Tree.linked (h : Tree True debt none T) {i : Inum} (hi : ¬T.IsDir i) :
    T.linked i = T.names i := by
  unfold Fs.linked Fs.names
  refine Finset.sum_congr rfl fun d _ => ?_
  by_cases hd : T.IsDir d
  · rw [if_pos hd, Fs.kids_of_dir hd]
    have hentries := (h.dots hd (Option.some_ne_none d).symm).1.entries
    have hup := (h.up trivial hd (Option.some_ne_none d).symm).1
    conv_lhs => rw [hentries]
    rw [List.countP_cons_of_neg, List.countP_cons_of_neg]
    · exact fun hc => hi (of_decide_eq_true hc ▸ hup)
    · exact fun hc => hi (of_decide_eq_true hc ▸ hd)
  · rw [if_neg hd, Fs.kids_of_not_dir hd]
    rfl

theorem Inv.linksMatch (h : Inv True k) : LinksMatch k := by
  obtain ⟨_, T, hT, hm⟩ := h
  obtain rfl := hm.fs
  have hsubs : ∀ i, (∀ de ∈ k.fs.kids i, de.inum = 0) → k.fs.subs i = 0 := fun i he => by
    unfold Fs.subs
    rw [List.countP_eq_zero]
    exact fun de hde hc => (of_decide_eq_true hc).1 (he de hde)
  refine ⟨fun i ht => ?_, fun i hu hroot hn => ?_⟩
  · have hd : ¬k.fs.IsDir i := fun hd => by
      unfold Fs.IsDir at hd
      rw [hd] at ht
      exact ht.elim IType.noConfusion IType.noConfusion
    have hu : k.fs.Used i := fun hf => by
      rw [hf] at ht
      exact ht.elim IType.noConfusion IType.noConfusion
    have hlost := hT.kept trivial i (hT.ne_zero hu)
    have hroot : rooted i = 0 := if_neg fun hr : i = ROOTINO => hd (hr ▸ hT.root.1)
    have hs : k.fs.subs i = 0 := hsubs i fun de hde => by
      rw [Fs.kids_of_not_dir hd] at hde
      exact absurd hde List.not_mem_nil
    rw [hT.linked hd, hT.links hu, hs, hroot, hlost]
    exact add_zero _
  · have hlost := hT.kept trivial i (hT.ne_zero hu)
    have hs : k.fs.subs i = 0 := by
      by_cases hd : k.fs.IsDir i
      · exact hsubs i (hT.empty trivial hd ⟨hroot, hn⟩)
      · refine hsubs i fun de hde => ?_
        rw [Fs.kids_of_not_dir hd] at hde
        exact absurd hde List.not_mem_nil
    refine (hm.unlinked i hu ?_ (Option.some_ne_none i).symm).1
    rw [hT.links hu, hs, hn, hlost, show rooted i = 0 from if_neg hroot]
    rfl

/-! ## The first process -/

/-- A disk with eight inodes and an empty root directory. -/
def rootFs : Fs where
  ninodes := 8
  disk i :=
    if i = ROOTINO then
      ⟨.T_DIR, 0, 0, 1, [⟨ROOTINO, stored dot⟩, ⟨ROOTINO, stored dotdot⟩], []⟩
    else ⟨.free, 0, 0, 0, [], []⟩
  born _ := 0
  parent _ := 0
  clock := 1
  lost _ := 0

/-- The first process in the root directory of `rootFs`. -/
def first : Kernel where
  fs := rootFs
  itable i := ⟨if i = ROOTINO then 1 else 0, false, false, .free, 0, 0, 0⟩
  used := 1
  file _ := ⟨.FD_NONE, 0, false, false, 0, 0, 0⟩
  life p := if p.val = 0 then .running else .unused
  cwd p := if p.val = 0 then some ROOTINO else none
  ofile _ _ := none
  outstanding := 0
  room := []
  looked := []

theorem rootFs_disk_of_ne {i : Inum} (h : i ≠ ROOTINO) :
    rootFs.disk i = ⟨.free, 0, 0, 0, [], []⟩ := if_neg h

theorem rootFs_used {i : Inum} : rootFs.Used i ↔ i = ROOTINO := by
  unfold Fs.Used
  by_cases h : i = ROOTINO
  · subst h
    decide
  · rw [rootFs_disk_of_ne h]
    exact ⟨fun hc => absurd rfl hc, fun hc => absurd hc h⟩

theorem rootFs_kids (d : Inum) : rootFs.kids d = [] := by
  by_cases h : d = ROOTINO
  · subst h
    rfl
  · exact Fs.kids_of_not_dir fun hd => h (rootFs_used.mp hd.used)

theorem rootFs_names (i : Inum) : rootFs.names i = 0 :=
  Finset.sum_eq_zero fun d _ => by
    rw [rootFs_kids]
    rfl

theorem rootFs_tree : Tree True noDebt none rootFs := by
  have hdir : ∀ {d}, rootFs.IsDir d → d = ROOTINO := fun hd => rootFs_used.mp hd.used
  have hsome : ∀ {d : Inum}, (none : Option Inum) ≠ some d :=
    fun {d} => (Option.some_ne_none d).symm
  have hroot : rootFs.IsDir ROOTINO ∧ rootFs.upOf ROOTINO = ROOTINO := ⟨by decide, by decide⟩
  refine {
    width := by decide
    bound := fun hu => ?_
    dots := fun {d} hd _ => ?_
    young := fun hf => absurd hf hsome
    len := fun d => ?_
    live := fun {d de} hde _ => absurd (rootFs_kids d ▸ hde) List.not_mem_nil
    under := fun {d de} hde _ => absurd (rootFs_kids d ▸ hde) List.not_mem_nil
    once := fun {i} _ => ⟨(rootFs_names i).symm ▸ Nat.zero_le 1, rfl⟩
    root := ⟨hroot.1, rootFs_names _, hroot.2, rfl, hsome⟩
    links := fun {i} hu => ?_
    range := fun {i} hu => ?_
    gone := fun _ _ => rfl
    old := fun _ => Nat.one_pos
    inj := fun hi hj _ => (rootFs_used.mp hi).trans (rootFs_used.mp hj).symm
    par := fun {d} hd _ => ⟨Nat.one_pos, fun q hq _ => ?_⟩
    kept := fun _ _ _ => rfl
    empty := fun _ d _ _ e he => absurd (rootFs_kids d ▸ he) List.not_mem_nil
    up := fun _ d hd _ => ?_ }
  · obtain rfl := rootFs_used.mp hu
    decide
  · obtain rfl := hdir hd
    exact ⟨by unfold Fs.Dotted; decide, by decide⟩
  · by_cases h : d = ROOTINO
    · subst h
      decide
    · rw [rootFs_disk_of_ne h]
      exact Nat.zero_le _
  · obtain rfl := rootFs_used.mp hu
    rw [rootFs_names]
    decide
  · obtain rfl := rootFs_used.mp hu
    decide
  · obtain rfl := hdir hd
    exact hroot.2.trans (hdir hq).symm
  · obtain rfl := hdir hd
    rw [hroot.2]
    exact ⟨hroot.1, fun hr => hr.1 rfl, rfl⟩

theorem first_boot : Boot first where
  tree := rootFs_tree
  clean i hu := by
    obtain rfl := rootFs_used.mp hu
    decide
  file _ := rfl
  life p := by
    revert p
    decide
  cwd p := by
    revert p
    decide
  ref _ := rfl
  valid _ := rfl
  looked := rfl

/-! ## The result -/

/-- **Link counts match names**, as long as the removed directories stay empty. -/
theorem links_match (h : Reach step (fun k a => LinkOk k a ∧ PlaceOk k a) Boot k) :
    LinksMatch k :=
  Inv.linksMatch (h.inv (fun _ h₀ => h₀.inv) fun hi hok hs =>
    hi.step (hi.walkOk _) hok.1 (fun _ => hok.2) hs)

/-- A directory, a file in it, a second name for the file, and all of it removed. -/
def tidy : List Act :=
  [⟨0, .sysMkdir (some [100]), [true, true, true]⟩,
    ⟨0, .sysOpen (some [100, slash, 102]) O_CREATE, [true, true]⟩,
    ⟨0, .sysLink (some [100, slash, 102]) (some [103]), [true]⟩,
    ⟨0, .sysUnlink (some [100, slash, 102]), []⟩, ⟨0, .sysUnlink (some [100]), []⟩]

theorem tidy_run : (runFrom (guarded step fun k a => LinkOk k a ∧ PlaceOk k a) first tidy).map
    (fun k => (k.fs.disk 3).nlink) = some 1 := by
  decide +kernel

theorem links_match_tidy : ∃ k, LinksMatch k ∧ (k.fs.disk 3).nlink = 1 := by
  obtain ⟨k, hrun, hk⟩ := Option.map_eq_some_iff.mp tidy_run
  obtain ⟨hok, hrun⟩ := runFrom_guarded tidy hrun
  exact ⟨k, links_match (Reach.of_run tidy (.start first_boot) hok hrun), hk⟩

/-- A process makes a directory, goes there, removes it, makes a file there and leaves. -/
def leave : List Act :=
  [⟨0, .sysMkdir (some [100]), [true, true, true]⟩, ⟨0, .sysChdir (some [100]), []⟩,
    ⟨0, .sysUnlink (some [slash, 100]), []⟩, ⟨0, .sysOpen (some [102]) O_CREATE, [true, true]⟩,
    ⟨0, .sysChdir (some [slash]), []⟩]

theorem leave_run : (runFrom step first leave).map (fun k =>
    ((k.fs.disk 3).type, (k.fs.disk 3).nlink, k.fs.linked 3)) = some (.T_FILE, 1, 0) := by
  decide +kernel

theorem stranded : ¬∀ k, Reach step Any Boot k → LinksMatch k := by
  intro h
  obtain ⟨k, hrun, hk⟩ := Option.map_eq_some_iff.mp leave_run
  obtain ⟨ht, hrest⟩ := Prod.mk.inj hk
  obtain ⟨hn, hl⟩ := Prod.mk.inj hrest
  have hc := (h k (Reach.of_run leave (.start first_boot) (RunOk.any step leave first) hrun)).count
    3
    (.inl ht)
  rw [hn, hl] at hc
  exact absurd hc (by decide)

end Xv6.Names
