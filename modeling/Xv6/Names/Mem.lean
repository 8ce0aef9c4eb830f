import Xv6.Names.Calls
import Xv6.Names.Birth

/-!
# The inode table

`Mem` ties the inode table to the disk at any point of a call: a count in the table
is what the processes and the open files hold (`H`, which is `holders` between calls)
plus what the call holds itself (`own`), an in-memory copy that is valid is what the disk says, and

> an inode that is in use with no link is referenced, and its copy is valid.

That is why the last `iput` finds out that it has to free an inode. `raw` is the
inode the call has just got and not yet locked, whose copy may not be valid. What
`iget`, `ilock` and `iput` do is said here once, in terms of `Mem`; the rest of the
development does not look into the table.

No stop of these functions is `ilock: no type`, since only inodes in use are
referenced.
-/

namespace Xv6.Names

open Lib
open Ftable (NFILE NOFILE FileId Fd FileType)

/-- The inode an open file refers to. -/
def File.inode (f : File) : Option Inum :=
  if f.type = .FD_INODE ∨ f.type = .FD_DEVICE then some f.ip else none

/-- How many processes and open files refer to an inode. -/
def Procs.holders (R : Procs) (i : Inum) : Nat :=
  entries R.cwd none i + entries (fun f => (R.file f).inode) none i

/-- What a lookup should find: an inode in use; for `..`, the directory it was created
under. -/
def Lookup.Sound (l : Lookup) : Prop :=
  l.type ≠ .free ∧ (namecmp l.name dotdot = 0 → l.stamp = l.parent)

/-- The in-memory copy is what is on disk. -/
def Inode.Agrees (x : Inode) (d : Dinode) : Prop :=
  x.type = d.type ∧ x.major = d.major ∧ x.minor = d.minor ∧ x.nlink = d.nlink

structure Mem (R : Procs) (H : Inum → Nat) (own : List Inum) (raw fresh : Option Inum)
    (T : Fs) (k : Kernel) :
    Prop where
  procs : k.toProcs = R
  fs : k.fs = T
  refs : ∀ i, (k.itable i).ref = H i + own.count i
  used : ∀ i, 0 < (k.itable i).ref → T.Used i
  agrees : ∀ i, 0 < (k.itable i).ref → (k.itable i).valid = true →
    (k.itable i).Agrees (T.disk i)
  valid : ∀ i ∈ own, raw ≠ some i → (k.itable i).valid = true
  unlinked : ∀ i, T.Used i → (T.disk i).nlink = 0 → fresh ≠ some i →
    0 < (k.itable i).ref ∧ (k.itable i).valid = true
  sound : ∀ l ∈ k.looked, l.Sound

/-- A stop is not for want of a type, and every lookup so far was sound. -/
def Safe (e : Halt) (k : Kernel) : Prop := e ≠ .ilockNoType ∧ ∀ l ∈ k.looked, l.Sound

/-- Someone else refers to `i`, or a link does. -/
def Held (H : Inum → Nat) (own : List Inum) (T : Fs) (i : Inum) : Prop :=
  (T.disk i).nlink = 0 → 0 < H i + own.count i

variable {R : Procs} {H : Inum → Nat} {own own' : List Inum}
  {raw raw' fresh fresh' : Option Inum} {T T' : Fs}
  {k k' : Kernel} {i : Inum}

@[simp] theorem setInode_self (k : Kernel) (i : Inum) (f : Inode → Inode) :
    (k.setInode i f).itable i = f (k.itable i) := by
  simp [Kernel.setInode]

theorem setInode_of_ne {i j : Inum} (h : j ≠ i) (k : Kernel) (f : Inode → Inode) :
    (k.setInode i f).itable j = k.itable j := by
  simp [Kernel.setInode, h]

@[simp] theorem load_self (k : Kernel) (i : Inum) : (k.load i).itable i =
    { k.itable i with
      type := (k.fs.disk i).type, major := (k.fs.disk i).major, minor := (k.fs.disk i).minor
      nlink := (k.fs.disk i).nlink, valid := true } := by
  simp [Kernel.load]

theorem load_of_ne {i j : Inum} (h : j ≠ i) (k : Kernel) : (k.load i).itable j = k.itable j := by
  unfold Kernel.load
  exact setInode_of_ne h k _

namespace Mem

theorem ref_pos (h : Mem R H own raw fresh T k) (hi : i ∈ own) : 0 < (k.itable i).ref := by
  rw [h.refs]
  exact Nat.add_pos_right _ (List.count_pos_iff.mpr hi)

theorem used_of_mem (h : Mem R H own raw fresh T k) (hi : i ∈ own) : T.Used i :=
  h.used i (h.ref_pos hi)

theorem agrees_of_mem (h : Mem R H own raw fresh T k) (hi : i ∈ own) (hr : raw ≠ some i) :
    (k.itable i).Agrees (T.disk i) :=
  h.agrees i (h.ref_pos hi) (h.valid i hi hr)

theorem held (h : Mem R H own raw fresh T k) (hu : T.Used i) (hf : fresh ≠ some i) :
    Held H own T i := fun hz => by
  rw [← h.refs]
  exact (h.unlinked i hu hz hf).1

/-- **The frame of every statement below**: the table and the disk change at `i` only. -/
theorem move (h : Mem R H own raw fresh T k) (hp : k'.toProcs = k.toProcs) (hfs : k'.fs = T')
    (hl : k'.looked = k.looked) (hne : ∀ j, j ≠ i → k'.itable j = k.itable j)
    (hT : ∀ j, j ≠ i → T'.disk j = T.disk j)
    (hown : ∀ j, j ≠ i → own'.count j = own.count j)
    (hraw : ∀ j, j ≠ i → j ∈ own → raw' ≠ some j → (k.itable j).valid = true)
    (hfresh : ∀ j, j ≠ i → fresh' ≠ some j → fresh ≠ some j)
    (hrefs : (k'.itable i).ref = H i + own'.count i)
    (hused : 0 < (k'.itable i).ref → T'.Used i)
    (hagrees : 0 < (k'.itable i).ref → (k'.itable i).valid = true →
      (k'.itable i).Agrees (T'.disk i))
    (hvalid : i ∈ own' → raw' ≠ some i → (k'.itable i).valid = true)
    (hunlinked : T'.Used i → (T'.disk i).nlink = 0 → fresh' ≠ some i →
      0 < (k'.itable i).ref ∧ (k'.itable i).valid = true) :
    Mem R H own' raw' fresh' T' k' := by
  have hu : ∀ j, j ≠ i → (T'.Used j ↔ T.Used j) := fun j hj => by
    unfold Fs.Used
    rw [hT j hj]
  refine ⟨hp.trans h.procs, hfs, fun j => ?_, fun j hr => ?_, fun j hr hv => ?_, fun j hj hr => ?_,
    fun j hj hz hf => ?_, fun l hl' => h.sound l (hl ▸ hl')⟩
  · by_cases hji : j = i
    · rw [hji, hrefs]
    · rw [hne j hji, h.refs, hown j hji]
  · by_cases hji : j = i
    · rw [hji] at hr ⊢
      exact hused hr
    · rw [hne j hji] at hr
      exact (hu j hji).mpr (h.used j hr)
  · by_cases hji : j = i
    · rw [hji] at hr hv ⊢
      exact hagrees hr hv
    · rw [hne j hji] at hr hv ⊢
      rw [hT j hji]
      exact h.agrees j hr hv
  · by_cases hji : j = i
    · rw [hji] at hj hr ⊢
      exact hvalid hj hr
    · rw [hne j hji]
      refine hraw j hji ?_ hr
      rw [← List.count_pos_iff, ← hown j hji]
      exact List.count_pos_iff.mpr hj
  · by_cases hji : j = i
    · rw [hji] at hj hz hf ⊢
      exact hunlinked hj hz hf
    · rw [hT j hji] at hz
      rw [hne j hji]
      exact h.unlinked j ((hu j hji).mp hj) hz (hfresh j hji hf)

/-- `Mem` reads four parts of the state. -/
theorem congr (h : Mem R H own raw fresh T k) (hp : k'.toProcs = k.toProcs) (hfs : k'.fs = k.fs)
    (hi : k'.itable = k.itable) (hl : k'.looked = k.looked) : Mem R H own raw fresh T k' := by
  refine ⟨hp.trans h.procs, hfs.trans h.fs, ?_, ?_, ?_, ?_, ?_, hl ▸ h.sound⟩
  · exact hi ▸ h.refs
  · exact hi ▸ h.used
  · exact hi ▸ h.agrees
  · exact hi ▸ h.valid
  · exact hi ▸ h.unlinked

theorem safe (h : Mem R H own raw fresh T k) {e : Halt} (he : e ≠ .ilockNoType) : Safe e k :=
  ⟨he, h.sound⟩

end Mem

theorem count_cons_ne {i j : Inum} (h : j ≠ i) (own : List Inum) :
    (i :: own).count j = own.count j := List.count_cons_of_ne h.symm

theorem count_head (i : Inum) (own : List Inum) (j : Inum) :
    (i :: own).count j = [i].count j + own.count j := by
  rw [← List.count_append]
  rfl

/-- The one copy that may not be valid once the call has got `i`. -/
def unread (own : List Inum) (i : Inum) : Option Inum := if i ∈ own then none else some i

theorem unread_eq {i j : Inum} (h : unread own i = some j) : j = i ∧ i ∉ own := by
  unfold unread at h
  split at h
  next => exact absurd h.symm (Option.some_ne_none j)
  next hi => exact ⟨(Option.some.inj h).symm, hi⟩

theorem mem_of_unread {i : Inum} (h : unread own i ≠ some i) : i ∈ own := by
  by_contra hi
  exact h (if_neg hi)

/-! ## References -/

/-- One reference more. -/
theorem iget_wp (h : Mem R H own none fresh T k) (hu : T.Used i) :
    wp (iget i) (fun _ k' => Mem R H (i :: own) (unread own i) fresh T k') Safe k := by
  unfold iget
  simp only [wp_bind, wp_get, wp_ite, wp_modify, wp_stop]
  have hcount : (i :: own).count i = own.count i + 1 := List.count_cons_self
  have hr := h.refs i
  refine ⟨fun hpos => ?_, fun hz => ⟨fun _ => h.safe Halt.noConfusion, fun _ => ?_⟩⟩
  · refine h.move (i := i) rfl h.fs rfl (fun j hj => setInode_of_ne hj k _) (fun j _ => rfl)
      (fun j hj => count_cons_ne hj own) (fun j _ hj _ => h.valid j hj (Option.some_ne_none j).symm)
      (fun j _ hf => hf) ?_ (fun _ => hu) ?_ ?_ ?_
    · rw [setInode_self]
      show (k.itable i).ref + 1 = _
      omega
    · rw [setInode_self]
      exact fun _ hv => h.agrees i hpos hv
    · rw [setInode_self]
      exact fun _ hr => h.valid i (mem_of_unread hr) (Option.some_ne_none i).symm
    · rw [setInode_self]
      exact fun hui hz hf => ⟨Nat.succ_pos _, (h.unlinked i hui hz hf).2⟩
  · have hm : Mem R H (i :: own) (unread own i) fresh T
        (k.setInode i fun ip => { ip with ref := 1, valid := false }) := by
      refine h.move (i := i) rfl h.fs rfl (fun j hj => setInode_of_ne hj k _) (fun j _ => rfl)
        (fun j hj => count_cons_ne hj own)
        (fun j _ hj _ => h.valid j hj (Option.some_ne_none j).symm)
        (fun j _ hf => hf) ?_ (fun _ => hu) ?_ ?_ ?_
      · rw [setInode_self]
        show 1 = _
        omega
      · rw [setInode_self]
        exact fun _ hv => absurd hv Bool.false_ne_true
      · exact fun _ hr => absurd (h.ref_pos (mem_of_unread hr)) hz
      · exact fun hui hn hf => absurd (h.unlinked i hui hn hf).1 hz
    exact hm.congr rfl rfl rfl rfl

/-- One more of an inode that is referenced. -/
theorem idup_wp (h : Mem R H own none fresh T k) (hpos : 0 < (k.itable i).ref) :
    wp (idup i) (fun _ k' => Mem R H (i :: own) (unread own i) fresh T k') Safe k := by
  unfold idup
  rw [wp_modify]
  have hcount : (i :: own).count i = own.count i + 1 := List.count_cons_self
  have hr := h.refs i
  refine h.move (i := i) rfl h.fs rfl (fun j hj => setInode_of_ne hj k _) (fun j _ => rfl)
    (fun j hj => count_cons_ne hj own) (fun j _ hj _ => h.valid j hj (Option.some_ne_none j).symm)
    (fun j _ hf => hf) ?_ (fun _ => h.used i hpos) ?_ ?_ ?_
  · rw [setInode_self]
    show (k.itable i).ref + 1 = _
    omega
  · rw [setInode_self]
    exact fun _ hv => h.agrees i hpos hv
  · rw [setInode_self]
    exact fun _ hr => h.valid i (mem_of_unread hr) (Option.some_ne_none i).symm
  · rw [setInode_self]
    exact fun hui hz hf => ⟨Nat.succ_pos _, (h.unlinked i hui hz hf).2⟩

/-! ## Locks -/

/-- A change at `i` that keeps the count and the copy. -/
theorem Mem.touch (h : Mem R H own raw fresh T k) {f : Inode → Inode}
    (hf : ∀ x, (f x).ref = x.ref ∧ (f x).valid = x.valid ∧ (f x).type = x.type ∧
      (f x).major = x.major ∧ (f x).minor = x.minor ∧ (f x).nlink = x.nlink) :
    Mem R H own raw fresh T (k.setInode i f) := by
  obtain ⟨hr, hv, ht, hM, hm, hn⟩ := hf (k.itable i)
  refine h.move (i := i) rfl h.fs rfl (fun j hj => setInode_of_ne hj k _) (fun j _ => rfl)
    (fun j _ => rfl) (fun j _ hj hne => h.valid j hj hne) (fun j _ hf => hf) ?_ ?_ ?_ ?_ ?_
  · rw [setInode_self, hr, h.refs]
  · rw [setInode_self, hr]
    exact h.used i
  · rw [setInode_self, hr, hv]
    intro hpos hval
    obtain ⟨h1, h2, h3, h4⟩ := h.agrees i hpos hval
    exact ⟨ht.trans h1, hM.trans h2, hm.trans h3, hn.trans h4⟩
  · rw [setInode_self, hv]
    exact h.valid i
  · rw [setInode_self, hr, hv]
    exact h.unlinked i

/-- The copy of a locked inode is valid. -/
theorem ilock_wp (h : Mem R H own raw fresh T k) (hi : i ∈ own) (hraw : ∀ j, raw = some j → j = i) :
    wp (ilock i) (fun _ k' => Mem R H own none fresh T k') Safe k := by
  unfold ilock
  simp only [wp_bind, wp_get, wp_ite, wp_modify, wp_stop, wp_pure]
  have hpos := h.ref_pos hi
  have hlock : Mem R H own raw fresh T (k.setInode i fun x => { x with locked := true }) :=
    h.touch fun x => ⟨rfl, rfl, rfl, rfl, rfl, rfl⟩
  have hother : ∀ j, j ≠ i → raw ≠ some j := fun j hj hr => hj (hraw j hr)
  refine ⟨fun _ => h.safe Halt.noConfusion, fun _ => ⟨fun _ => h.safe Halt.noConfusion, fun _ =>
    ⟨fun hv => ⟨fun ht => ?_, fun _ => ?_⟩, fun hv => ?_⟩⟩⟩
  · -- a referenced inode has a type
    refine absurd ?_ (hlock.used_of_mem hi)
    rw [load_self] at ht
    rw [← hlock.fs]
    exact ht
  · refine hlock.move (i := i) rfl hlock.fs rfl (fun j hj => load_of_ne hj _)
      (fun j _ => rfl) (fun j _ => rfl) (fun j hj hjo _ => hlock.valid j hjo (hother j hj))
      (fun j _ hf => hf) ?_ (fun _ => hlock.used_of_mem hi) ?_ ?_ ?_
    · rw [load_self]
      exact hlock.refs i
    · rw [load_self, ← hlock.fs]
      exact fun _ _ => ⟨rfl, rfl, rfl, rfl⟩
    · rw [load_self]
      exact fun _ _ => rfl
    · rw [load_self]
      exact fun _ _ _ => ⟨hlock.ref_pos hi, rfl⟩
  · refine hlock.move (i := i) rfl hlock.fs rfl (fun j _ => rfl) (fun j _ => rfl) (fun j _ => rfl)
      (fun j hj hjo _ => hlock.valid j hjo (hother j hj)) (fun j _ hf => hf) (hlock.refs i)
      (hlock.used i) (hlock.agrees i) (fun _ _ => ?_) (hlock.unlinked i)
    rw [setInode_self]
    exact Bool.eq_true_of_not_eq_false hv

theorem iunlock_wp (h : Mem R H own raw fresh T k) :
    wp (iunlock i) (fun _ k' => Mem R H own raw fresh T k') Safe k := by
  unfold iunlock
  simp only [wp_bind, wp_get, wp_ite, wp_modify, wp_stop]
  exact ⟨fun _ => h.safe Halt.noConfusion,
    fun _ => h.touch fun x => ⟨rfl, rfl, rfl, rfl, rfl, rfl⟩⟩

/-! ## Giving references back -/

/-- `ip->ref--`. -/
theorem Mem.drop (h : Mem R H (i :: own) raw fresh T k)
    (hv : ∀ j ∈ own, raw' ≠ some j → (k.itable j).valid = true)
    (hz : T.Used i → (T.disk i).nlink = 0 → fresh ≠ some i →
      1 < (k.itable i).ref ∧ (k.itable i).valid = true) :
    Mem R H own raw' fresh T (k.drop i) := by
  have hr := h.refs i
  rw [List.count_cons_self] at hr
  have hm : Mem R H own raw' fresh T (k.setInode i fun x => { x with ref := x.ref - 1 }) := by
    refine h.move (i := i) rfl h.fs rfl (fun j hj => setInode_of_ne hj k _) (fun j _ => rfl)
      (fun j hj => (count_cons_ne hj own).symm)
      (fun j hj hjo hne => hv j ((List.mem_cons.mp hjo).resolve_left hj) hne) (fun j _ hf => hf)
      ?_ (fun _ => h.used_of_mem List.mem_cons_self) ?_ ?_ ?_
    · rw [setInode_self]
      show (k.itable i).ref - 1 = _
      omega
    · rw [setInode_self]
      exact fun _ hval => h.agrees i (h.ref_pos List.mem_cons_self) hval
    · rw [setInode_self]
      exact hv i
    · rw [setInode_self]
      intro hu hn hf
      obtain ⟨hlt, hval⟩ := hz hu hn hf
      exact ⟨Nat.sub_pos_of_lt hlt, hval⟩
  exact hm.congr rfl rfl rfl rfl

/-- What `iput` writes when it frees an inode. -/
theorem reclaimed_fs (h : (k.itable i).Agrees (k.fs.disk i)) :
    (((k.itrunc i).setInode i fun x => { x with type := .free }).iupdate i).fs = k.fs.free i := by
  obtain ⟨_, h2, h3, h4⟩ := h
  unfold Kernel.itrunc Kernel.iupdate Kernel.setInode Fs.free Fs.truncate Fs.setDinode
  simp only [Function.update_self, Function.update_idem, h2, h3, h4]

/-- **`iput`**: the reference goes; with the last one goes an inode that has no link. -/
theorem iput_wp {r : Option Inum} (h : Mem R H (i :: own) raw fresh T k)
    (hfr : fresh = some i → (k.itable i).valid = true)
    (hv : ∀ j ∈ own, r ≠ some j → (k.itable j).valid = true) :
    wp (iput i) (fun _ k' =>
      (Mem R H own r fresh T k' ∧ ((T.disk i).nlink = 0 → (k.itable i).ref ≠ 1)) ∨
      (T.Used i ∧ (T.disk i).nlink = 0 ∧ i ∉ own ∧
        Mem R H own r (if fresh = some i then none else fresh) (T.free i) k')) Safe k := by
  have hpos := h.ref_pos List.mem_cons_self
  have hu := h.used_of_mem List.mem_cons_self
  have hvalid : (T.disk i).nlink = 0 → (k.itable i).valid = true := fun hz => by
    by_cases hf : fresh = some i
    · exact hfr hf
    · exact (h.unlinked i hu hz hf).2
  unfold iput
  simp only [wp_bind, wp_get, wp_ite, wp_modify, wp_stop]
  refine ⟨fun hlast => ⟨fun _ => h.safe Halt.noConfusion, fun _ => ?_⟩, fun hno => ?_⟩
  · obtain ⟨h1, hval, hn⟩ := hlast
    unfold reclaim
    simp only [wp_bind, wp_modify]
    have hag := h.agrees i hpos hval
    have hr := h.refs i
    rw [List.count_cons_self, h1] at hr
    have hnot : i ∉ own := List.count_eq_zero.mp (by omega)
    have hfs := reclaimed_fs (k := k) (i := i) (h.fs ▸ hag)
    have hfree : ¬(T.free i).Used i := fun hc => hc (by simp [Fs.free, Fs.setDinode])
    refine .inr ⟨hu, hag.2.2.2.symm.trans hn, hnot, h.move (i := i) rfl (h.fs ▸ hfs) rfl
      (fun j hj => ?_) (fun j hj => ?_) (fun j hj => (count_cons_ne hj own).symm)
      (fun j hj hjo hne => hv j ((List.mem_cons.mp hjo).resolve_left hj) hne) (fun j hj hf => ?_)
      ?_ ?_ ?_ (fun hi => absurd hi hnot) (fun hc => absurd hc hfree)⟩
    · unfold Kernel.drop
      simp only [Kernel.setInode, Kernel.iupdate, Kernel.itrunc, Function.update_of_ne hj]
    · simp only [Fs.free, Fs.truncate, Fs.setDinode, Function.update_of_ne hj]
    · intro hc
      rw [if_neg fun hc' => hj (Option.some.inj (hc.symm.trans hc'))] at hf
      exact hf hc
    · simp only [Kernel.drop, Kernel.setInode, Kernel.iupdate, Kernel.itrunc, Function.update_self]
      omega
    all_goals
      simp only [Kernel.drop, Kernel.setInode, Kernel.iupdate, Kernel.itrunc, Function.update_self]
      omega
  · have hne : (T.disk i).nlink = 0 → (k.itable i).ref ≠ 1 := fun hz h1 => by
      have hval := hvalid hz
      exact hno ⟨h1, hval, (h.agrees i hpos hval).2.2.2.trans hz⟩
    refine .inl ⟨h.drop hv fun _ hz _ => ⟨?_, hvalid hz⟩, hne⟩
    have h1 := hne hz
    omega

/-- A reference among others. -/
theorem iput_held {r : Option Inum} (h : Mem R H (i :: own) raw fresh T k) (hh : Held H own T i)
    (hfr : fresh ≠ some i) (hv : ∀ j ∈ own, r ≠ some j → (k.itable j).valid = true) :
    wp (iput i) (fun _ k' => Mem R H own r fresh T k') Safe k := by
  have hr := h.refs i
  rw [List.count_cons_self] at hr
  have hu := h.used_of_mem List.mem_cons_self
  unfold iput
  simp only [wp_bind, wp_get, wp_ite, wp_modify, wp_stop]
  refine ⟨fun hlast => ?_, fun _ => h.drop hv fun _ hz _ => ?_⟩
  · obtain ⟨h1, hval, hn⟩ := hlast
    have hag := h.agrees i (h.ref_pos List.mem_cons_self) hval
    have hpos := hh (hag.2.2.2.symm.trans hn)
    omega
  · have hpos := hh hz
    exact ⟨by omega, (h.unlinked i hu hz hfr).2⟩

/-! ## Writing the inode -/

/-- The copy of a locked inode is changed and written. -/
theorem head_wp (h : Mem R H own raw fresh T k) (hi : i ∈ own) (hr : raw ≠ some i)
    {f : Inode → Inode} {d : Dinode} (hf : ∀ x, (f x).ref = x.ref ∧ (f x).valid = x.valid)
    (hd : ∀ x, x.Agrees (T.disk i) → (f x).Agrees d) (hent : d.entries = (T.disk i).entries)
    (hdata : d.data = (T.disk i).data) (ht : d.type ≠ .free) :
    Mem R H own raw fresh (T.setDinode i d) ((k.setInode i f).iupdate i) := by
  have hpos := h.ref_pos hi
  have hval := h.valid i hi hr
  have hag := hd _ (h.agrees i hpos hval)
  obtain ⟨h1, h2, h3, h4⟩ := hag
  have hfs : ((k.setInode i f).iupdate i).fs = T.setDinode i d := by
    show Fs.setDinode k.fs i _ = _
    rw [setInode_self, h1, h2, h3, h4]
    show k.fs.setDinode i
      ⟨d.type, d.major, d.minor, d.nlink, (k.fs.disk i).entries, (k.fs.disk i).data⟩ = _
    rw [h.fs, ← hent, ← hdata]
  have hself : (T.setDinode i d).disk i = d := Function.update_self i _ _
  refine h.move (i := i) rfl hfs rfl (fun j hj => setInode_of_ne hj k f)
    (fun j hj => Function.update_of_ne hj _ _) (fun j _ => rfl) (fun j _ hj hne => h.valid j hj hne)
    (fun j _ hf' => hf') ?_ (fun _ => ?_) (fun _ _ => ?_) (fun _ _ => ?_) (fun _ _ _ => ?_)
  · show ((k.setInode i f).itable i).ref = _
    rw [setInode_self, (hf _).1, h.refs]
  · unfold Fs.Used
    rw [hself]
    exact ht
  · show ((k.setInode i f).itable i).Agrees _
    rw [setInode_self, hself]
    exact ⟨h1, h2, h3, h4⟩
  · show ((k.setInode i f).itable i).valid = true
    rw [setInode_self, (hf _).2]
    exact hval
  · show 0 < ((k.setInode i f).itable i).ref ∧ ((k.setInode i f).itable i).valid = true
    rw [setInode_self, (hf _).1, (hf _).2]
    exact ⟨hpos, hval⟩

/-- `iupdate` of a copy that agrees with the disk, whatever became of the content. -/
theorem content_wp (h : Mem R H own raw fresh T k) (hi : i ∈ own) (hr : raw ≠ some i) {T' : Fs}
    (hT : ∀ j, j ≠ i → T'.disk j = T.disk j) (ht : (T'.disk i).type = (T.disk i).type)
    (hM : (T'.disk i).major = (T.disk i).major) (hm : (T'.disk i).minor = (T.disk i).minor)
    (hn : (T'.disk i).nlink = (T.disk i).nlink) (hp : k'.toProcs = k.toProcs) (hfs : k'.fs = T')
    (hit : k'.itable = k.itable) (hl : k'.looked = k.looked) :
    Mem R H own raw fresh T' (k'.iupdate i) := by
  have hpos := h.ref_pos hi
  have hval := h.valid i hi hr
  obtain ⟨h1, h2, h3, h4⟩ := h.agrees i hpos hval
  have hfs' : (k'.iupdate i).fs = T' := by
    show Fs.setDinode k'.fs i _ = _
    rw [hit, hfs, h1, h2, h3, h4, ← ht, ← hM, ← hm, ← hn]
    show { T' with disk := Function.update T'.disk i (T'.disk i) } = T'
    rw [Function.update_eq_self]
  refine h.move (i := i) hp hfs' hl (fun j _ => congrFun hit j) hT (fun j _ => rfl)
    (fun j _ hj hne => h.valid j hj hne) (fun j _ hf => hf) ?_ (fun _ => ?_) (fun _ _ => ?_)
    (fun _ _ => ?_) (fun _ _ _ => ?_)
  · show (k'.itable i).ref = _
    rw [hit, h.refs]
  · unfold Fs.Used
    rw [ht]
    exact h.used_of_mem hi
  · show (k'.itable i).Agrees _
    rw [hit]
    exact ⟨h1.trans ht.symm, h2.trans hM.symm, h3.trans hm.symm, h4.trans hn.symm⟩
  · show (k'.itable i).valid = true
    rw [hit]
    exact hval
  · show 0 < (k'.itable i).ref ∧ (k'.itable i).valid = true
    rw [hit]
    exact ⟨hpos, hval⟩

/-! ## A new inode -/

theorem ialloc_wp (h : Mem R H own none none T k) {type : IType} (ht : type ≠ .free) :
    wp (ialloc type) (fun r k' => (r = none ∧ Mem R H own none none T k') ∨
      ∃ i, r = some i ∧ 0 < i ∧ i < T.ninodes ∧ ¬T.Used i ∧ H i = 0 ∧ i ∉ own ∧
        Mem R H (i :: own) (unread own i) (some i) (T.alloc i type) k') Safe k := by
  unfold ialloc
  simp only [wp_bind, wp_get]
  split
  next => exact .inl ⟨rfl, h⟩
  next i hfind =>
    obtain ⟨hmem, hfree⟩ : i ∈ List.range' 1 (k.fs.ninodes - 1) ∧ (k.fs.disk i).type = .free :=
      ⟨List.mem_of_find?_eq_some hfind, by simpa using List.find?_some hfind⟩
    rw [List.mem_range'_1, h.fs] at hmem
    rw [h.fs] at hfree
    have hlt : @LT.lt Nat _ i T.ninodes := by omega
    have hnot : ¬T.Used i := fun hc => hc hfree
    have href : (k.itable i).ref = 0 :=
      Nat.eq_zero_of_not_pos fun hc => hnot (h.used i hc)
    have hr := h.refs i
    simp only [wp_bind, wp_modify]
    have hself : (T.alloc i type).disk i = ⟨type, 0, 0, 0, [], []⟩ := Function.update_self i _ _
    have hm : Mem R H own none (some i) (T.alloc i type) { k with fs := k.fs.alloc i type } := by
      refine h.move (i := i) rfl (by rw [← h.fs]) rfl (fun j _ => rfl)
        (fun j hj => Function.update_of_ne hj _ _) (fun j _ => rfl)
        (fun j _ hj _ => h.valid j hj (Option.some_ne_none j).symm)
        (fun j _ _ => (Option.some_ne_none j).symm) (h.refs i) ?_ ?_ ?_
        (fun _ _ hc => absurd rfl hc)
      · exact fun hc => absurd hc (by rw [href]; exact Nat.lt_irrefl 0)
      · exact fun hc => absurd hc (by rw [href]; exact Nat.lt_irrefl 0)
      · exact fun hi _ => h.valid i hi (Option.some_ne_none i).symm
    refine (iget_wp hm ?_).mono fun _ k' hk' => ?_
    · unfold Fs.Used
      rw [hself]
      exact ht
    · rw [href] at hr
      exact .inr ⟨i, rfl, hmem.1, hlt, hnot, (Nat.add_eq_zero_iff.mp hr.symm).1,
        List.count_eq_zero.mp (Nat.add_eq_zero_iff.mp hr.symm).2, hk'⟩

end Xv6.Names
