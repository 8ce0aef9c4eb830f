import Xv6.Names.Exits

/-!
# Copies of inodes

`Copies` adds the disk to what `Even` counts, at any point of a call and for a disk that
may be no tree at all: a valid copy in memory of a referenced inode is what the disk says, a locked
inode has such a copy, and

> an inode in use that has no link is referenced and its copy is valid, and what
> processes and files refer to is in use.

Every statement that changes the disk says here what it makes of it: `iput` gives up the
inode or changes nothing, and it changes nothing as long as every inode without a link
is held by someone else (`Fs.Settled`).
-/

namespace Xv6.Names

open Lib
open Ftable (NFILE NOFILE FileId Fd FileType)

/-- An inode that is not in use has no links and no content, and a link count is a
`short`. -/
structure Fs.Tidy (T : Fs) : Prop where
  free : ∀ i, ¬T.Used i → (T.disk i).nlink = 0 ∧ (T.disk i).entries = [] ∧ (T.disk i).data = []
  nlink : ∀ i, short (T.disk i).nlink = (T.disk i).nlink

structure Copies (base : Inum → Nat) (lk : Inum → Bool) (n : Nat) (R : Procs) (H : Inum → Nat)
    (own locks : List Inum) (room : List Bool) (fresh : Option Inum) (T : Fs) (k : Kernel) : Prop
    extends Even base lk n R H own locks k where
  fs : k.fs = T
  balloc : k.room = room
  tidy : T.Tidy
  copy : ∀ i, 0 < (k.itable i).ref → (k.itable i).valid = true →
    T.Used i ∧ (k.itable i).Agrees (T.disk i)
  orphan : ∀ i, T.Used i → (T.disk i).nlink = 0 → fresh ≠ some i →
    0 < (k.itable i).ref ∧ (k.itable i).valid = true
  held : ∀ i, 0 < base i + H i → T.Used i
  read : ∀ i ∈ locks, 0 < (k.itable i).ref ∧ (k.itable i).valid = true

/-- Every inode in use that has no link is held. -/
def Fs.Settled (T : Fs) (B : Inum → Nat) : Prop :=
  ∀ i, T.Used i → (T.disk i).nlink = 0 → 0 < B i

variable {base : Inum → Nat} {lk : Inum → Bool} {n n' : Nat} {R R' : Procs} {H H' : Inum → Nat}
  {own own' locks locks' : List Inum} {room room' : List Bool} {fresh fresh' : Option Inum}
  {T T' : Fs} {k k' : Kernel} {i j dp ip : Inum} {p : Slot}

namespace Copies

theorem ref_pos (h : Copies base lk n R H own locks room fresh T k) (hi : i ∈ own) :
    0 < (k.itable i).ref := by
  rw [h.refs]
  exact Nat.add_pos_right _ (List.count_pos_iff.mpr hi)

/-- A locked inode is in use, and its copy is good. -/
theorem good (h : Copies base lk n R H own locks room fresh T k) (hi : i ∈ locks) :
    T.Used i ∧ (k.itable i).Agrees (T.disk i) :=
  h.copy i (h.read i hi).1 (h.read i hi).2

/-- Between calls nothing else holds an inode. -/
theorem settled (h : Copies base lk n R H [] [] room none T k) :
    T.Settled fun i => base i + H i := fun i hu hz => by
  have hpos := (h.orphan i hu hz (Option.some_ne_none i).symm).1
  rw [h.refs, List.count_nil, Nat.add_zero] at hpos
  exact hpos

/-- **The frame of every statement below**: the table and the disk change at `i` only. -/
theorem move (h : Copies base lk n R H own locks room fresh T k) (i : Inum)
    (he : Even base lk n' R H own' locks' k') (hfs : k'.fs = T') (hroom : k'.room = room')
    (htidy : T'.Tidy) (hne : ∀ j, j ≠ i → k'.itable j = k.itable j)
    (hT : ∀ j, j ≠ i → T'.disk j = T.disk j)
    (hfresh : ∀ j, j ≠ i → fresh' ≠ some j → fresh ≠ some j)
    (hlocks : ∀ j, j ≠ i → j ∈ locks' → j ∈ locks)
    (hcopy : 0 < (k'.itable i).ref → (k'.itable i).valid = true →
      T'.Used i ∧ (k'.itable i).Agrees (T'.disk i))
    (horphan : T'.Used i → (T'.disk i).nlink = 0 → fresh' ≠ some i →
      0 < (k'.itable i).ref ∧ (k'.itable i).valid = true)
    (hheld : 0 < base i + H i → T'.Used i)
    (hread : i ∈ locks' → 0 < (k'.itable i).ref ∧ (k'.itable i).valid = true) :
    Copies base lk n' R H own' locks' room' fresh' T' k' := by
  have hu : ∀ j, j ≠ i → (T'.Used j ↔ T.Used j) := fun j hj => by
    unfold Fs.Used
    rw [hT j hj]
  refine ⟨he, hfs, hroom, htidy, fun j hr hv => ?_, fun j hj hz hf => ?_, fun j hj => ?_,
    fun j hj => ?_⟩
  · by_cases hji : j = i
    · rw [hji] at hr hv ⊢
      exact hcopy hr hv
    · rw [hne j hji] at hr hv ⊢
      rw [hu j hji, hT j hji]
      exact h.copy j hr hv
  · by_cases hji : j = i
    · rw [hji] at hj hz hf ⊢
      exact horphan hj hz hf
    · rw [hT j hji] at hz
      rw [hne j hji]
      exact h.orphan j ((hu j hji).mp hj) hz (hfresh j hji hf)
  · by_cases hji : j = i
    · rw [hji] at hj ⊢
      exact hheld hj
    · exact (hu j hji).mpr (h.held j hj)
  · by_cases hji : j = i
    · rw [hji] at hj ⊢
      exact hread hj
    · rw [hne j hji]
      exact h.read j (hlocks j hji hj)

/-- A change of the table at `i` that the disk does not see. -/
theorem table (h : Copies base lk n R H own locks room fresh T k) (i : Inum)
    (he : Even base lk n R H own' locks' k') (hfs : k'.fs = k.fs) (hroom : k'.room = k.room)
    (hne : ∀ j, j ≠ i → k'.itable j = k.itable j) (hlocks : ∀ j, j ≠ i → j ∈ locks' → j ∈ locks)
    (hcopy : 0 < (k'.itable i).ref → (k'.itable i).valid = true →
      T.Used i ∧ (k'.itable i).Agrees (T.disk i))
    (horphan : T.Used i → (T.disk i).nlink = 0 → fresh ≠ some i →
      0 < (k'.itable i).ref ∧ (k'.itable i).valid = true)
    (hread : i ∈ locks' → 0 < (k'.itable i).ref ∧ (k'.itable i).valid = true) :
    Copies base lk n R H own' locks' room fresh T k' :=
  h.move i he (hfs.trans h.fs) (hroom.trans h.balloc) h.tidy hne (fun _ _ => rfl)
    (fun _ _ hf => hf) hlocks hcopy horphan (h.held i) hread

/-- Parts of the state that `Copies` does not read. -/
theorem congr (h : Copies base lk n R H own locks room fresh T k)
    (he : Even base lk n' R' H own' locks' k') (hfs : k'.fs = k.fs) (hroom : k'.room = k.room)
    (hi : k'.itable = k.itable) (hlocks : ∀ j ∈ locks', j ∈ locks) :
    Copies base lk n' R' H own' locks' room fresh T k' :=
  ⟨he, hfs.trans h.fs, hroom.trans h.balloc, h.tidy, hi ▸ h.copy, hi ▸ h.orphan, h.held,
    fun j hj => hi ▸ h.read j (hlocks j hj)⟩

theorem swap (h : Copies base lk n R H (i :: j :: own) locks room fresh T k) :
    Copies base lk n R H (j :: i :: own) locks room fresh T k :=
  h.congr (h.toEven.perm (List.Perm.swap i j own) (List.Perm.refl _)) rfl rfl rfl fun _ hj => hj

theorem swapLocks (h : Copies base lk n R H own (i :: j :: locks) room fresh T k) :
    Copies base lk n R H own (j :: i :: locks) room fresh T k :=
  h.congr (h.toEven.perm (List.Perm.refl _) (List.Perm.swap i j locks)) rfl rfl rfl
    fun _ hj => (List.Perm.swap i j locks).mem_iff.mp hj

/-- References change hands; who takes one over holds an inode in use. -/
theorem hand (h : Copies base lk n R H own locks room fresh T k) (hp : k'.toProcs = R')
    (hfs : k'.fs = k.fs) (hroom : k'.room = k.room) (hi : k'.itable = k.itable)
    (ho : k'.outstanding = k.outstanding)
    (hsum : ∀ j, H' j + own'.count j = H j + own.count j)
    (hheld : ∀ j, 0 < H' j → 0 < H j ∨ T.Used j) :
    Copies base lk n R' H' own' locks room fresh T k' :=
  ⟨h.toEven.hand hp hi ho hsum, hfs.trans h.fs, hroom.trans h.balloc, h.tidy, hi ▸ h.copy,
    hi ▸ h.orphan, fun j hj => by
      rcases Nat.eq_zero_or_pos (base j) with hb | hb
      · rw [hb, Nat.zero_add] at hj
        exact (hheld j hj).elim (fun hH => h.held j (Nat.add_pos_right _ hH)) id
      · exact h.held j (Nat.add_pos_left hb _),
    hi ▸ h.read⟩

end Copies

/-! ## References and locks -/

theorem iget_copies (h : Copies base lk n R H own locks room fresh T k) :
    wp (iget i) (fun _ k' => Copies base lk n R H (i :: own) locks room fresh T k') Anyhow k := by
  have he := iget_even (i := i) h.toEven
  unfold iget at he ⊢
  simp only [wp_bind, wp_get, wp_ite, wp_modify, wp_stop] at he ⊢
  refine ⟨fun hpos => ?_, fun hz => ⟨fun _ => trivial, fun hn => ?_⟩⟩
  · refine h.table i (he.1 hpos) rfl rfl (fun j hj => setInode_of_ne hj k _) (fun _ _ hj => hj)
      ?_ ?_ ?_
    · rw [setInode_self]
      exact fun _ hv => h.copy i hpos hv
    · rw [setInode_self]
      exact fun hu hz hf => ⟨Nat.succ_pos _, (h.orphan i hu hz hf).2⟩
    · rw [setInode_self]
      exact fun hl => ⟨Nat.succ_pos _, (h.read i hl).2⟩
  · have hnew : ({ k.setInode i fun ip => { ip with ref := 1, valid := false } with
        used := k.used + 1 } : Kernel).itable =
        (k.setInode i fun ip => { ip with ref := 1, valid := false }).itable := rfl
    refine h.table i ((he.2 hz).2 hn) rfl rfl
      (fun j hj => (congrFun hnew j).trans (setInode_of_ne hj k _)) (fun _ _ hj => hj) ?_ ?_ ?_
    · rw [hnew, setInode_self]
      exact fun _ hv => absurd hv Bool.false_ne_true
    · exact fun hu h0 hf => absurd (h.orphan i hu h0 hf).1 hz
    · exact fun hl => absurd (h.read i hl).1 hz

theorem idup_copies (h : Copies base lk n R H own locks room fresh T k)
    (hpos : 0 < (k.itable i).ref) :
    wp (idup i) (fun _ k' => Copies base lk n R H (i :: own) locks room fresh T k') Anyhow k := by
  have he := idup_even (i := i) h.toEven
  unfold idup at he ⊢
  rw [wp_modify] at he ⊢
  refine h.table i he rfl rfl (fun j hj => setInode_of_ne hj k _) (fun _ _ hj => hj) ?_ ?_ ?_
  · rw [setInode_self]
    exact fun _ hv => h.copy i hpos hv
  · rw [setInode_self]
    exact fun hu hz hf => ⟨Nat.succ_pos _, (h.orphan i hu hz hf).2⟩
  · rw [setInode_self]
    exact fun hl => ⟨Nat.succ_pos _, (h.read i hl).2⟩

/-- What is locked has been read from disk. -/
theorem ilock_copies (h : Copies base lk n R H own locks room fresh T k) :
    wp (ilock i) (fun _ k' => Copies base lk n R H own (i :: locks) room fresh T k') Anyhow k := by
  have he := ilock_even (i := i) h.toEven
  unfold ilock at he ⊢
  simp only [wp_bind, wp_get, wp_ite, wp_modify, wp_stop, wp_pure] at he ⊢
  have hlocks : ∀ j, j ≠ i → j ∈ i :: locks → j ∈ locks := fun j hj hm =>
    (List.mem_cons.mp hm).resolve_left hj
  refine ⟨fun _ => trivial, fun href => ⟨fun _ => trivial, fun hfree =>
    ⟨fun hv => ⟨fun _ => trivial, fun ht => ?_⟩, fun hv => ?_⟩⟩⟩
  · have hpos : 0 < (k.itable i).ref := Nat.pos_of_ne_zero fun hz => href (by omega)
    refine h.table i ((((he.2 href).2 hfree).1 hv).2 ht) rfl rfl
      (fun j hj => (load_of_ne hj _).trans (setInode_of_ne hj k _)) hlocks ?_ ?_ ?_
    · rw [load_self] at ht ⊢
      rw [setInode_self, ← h.fs]
      exact fun _ _ => ⟨ht, rfl, rfl, rfl, rfl⟩
    · rw [load_self, setInode_self]
      exact fun _ _ _ => ⟨hpos, rfl⟩
    · rw [load_self, setInode_self]
      exact fun _ => ⟨hpos, rfl⟩
  · have hpos : 0 < (k.itable i).ref := Nat.pos_of_ne_zero fun hz => href (by omega)
    refine h.table i (((he.2 href).2 hfree).2 hv) rfl rfl (fun j hj => setInode_of_ne hj k _)
      hlocks ?_ ?_ ?_
    · rw [setInode_self]
      exact h.copy i
    · rw [setInode_self]
      exact h.orphan i
    · rw [setInode_self]
      exact fun _ => ⟨hpos, Bool.eq_true_of_not_eq_false hv⟩

theorem iunlock_copies (h : Copies base lk n R H own (i :: locks) room fresh T k) :
    wp (iunlock i) (fun _ k' => Copies base lk n R H own locks room fresh T k') Anyhow k := by
  have he := iunlock_even h.toEven
  have hnew := (List.nodup_cons.mp h.apart.1).1
  unfold iunlock at he ⊢
  simp only [wp_bind, wp_get, wp_ite, wp_modify, wp_stop] at he ⊢
  refine ⟨fun _ => trivial, fun hl => h.table i (he.2 hl) rfl rfl
    (fun j hj => setInode_of_ne hj k _) (fun j _ hm => List.mem_cons_of_mem i hm) ?_ ?_
    fun hm => absurd hm hnew⟩
  · rw [setInode_self]
    exact h.copy i
  · rw [setInode_self]
    exact h.orphan i

/-! ## `iput` -/

theorem drop_self (k : Kernel) (i : Inum) :
    (k.drop i).itable i = { k.itable i with ref := (k.itable i).ref - 1 } :=
  setInode_self k i fun x => { x with ref := x.ref - 1 }

theorem drop_of_ne (h : j ≠ i) (k : Kernel) : (k.drop i).itable j = k.itable j :=
  setInode_of_ne h k fun x => { x with ref := x.ref - 1 }

/-- Nobody but the call refers to `i`, and nothing names it. -/
def Copies.Last (base H : Inum → Nat) (own : List Inum) (T : Fs) (i : Inum) : Prop :=
  i ∉ own ∧ base i + H i = 0 ∧ T.Used i ∧ (T.disk i).nlink = 0

theorem free_disk_of_ne (T : Fs) {i j : Inum} (h : j ≠ i) : (T.free i).disk j = T.disk j := by
  simp [Fs.free, Fs.truncate, Fs.setDinode, h]

theorem free_disk_self (T : Fs) (i : Inum) : (T.free i).disk i =
    { T.disk i with type := .free, entries := [], data := [] } := by
  simp [Fs.free, Fs.setDinode]

theorem not_used_free (T : Fs) (i : Inum) : ¬(T.free i).Used i := by
  unfold Fs.Used
  rw [free_disk_self]
  exact fun h => h rfl

/-- Changing one inode keeps the disk tidy. -/
theorem Fs.Tidy.change (h : T.Tidy) (i : Inum) (hT : ∀ j, j ≠ i → T'.disk j = T.disk j)
    (hfree : ¬T'.Used i →
      (T'.disk i).nlink = 0 ∧ (T'.disk i).entries = [] ∧ (T'.disk i).data = [])
    (hn : short (T'.disk i).nlink = (T'.disk i).nlink) : T'.Tidy := by
  refine ⟨fun j hj => ?_, fun j => ?_⟩
  · by_cases hji : j = i
    · rw [hji] at hj ⊢
      exact hfree hj
    · unfold Fs.Used at hj
      rw [hT j hji] at hj ⊢
      exact h.free j hj
  · by_cases hji : j = i
    · rw [hji]
      exact hn
    · rw [hT j hji]
      exact h.nlink j

/-- **`iput`** gives the inode up when the call is the last to refer to it, and changes
nothing on disk otherwise. -/
theorem iput_copies (h : Copies base lk n R H (i :: own) locks room none T k)
    (hl : i ∈ locks → i ∈ own ∨ 0 < base i + H i) :
    wp (iput i) (fun _ k' =>
      (¬(Copies.Last base H own T i ∧ (k.itable i).valid = true) ∧
        Copies base lk n R H own locks room none T k') ∨
      (Copies.Last base H own T i ∧ Copies base lk n R H own locks room none (T.free i) k'))
      Anyhow k := by
  have he := iput_even h.toEven
  have hr := h.refs i
  rw [List.count_cons_self] at hr
  have hpos : 0 < (k.itable i).ref := h.ref_pos List.mem_cons_self
  have hne : i ∈ own ∨ 0 < base i + H i → 1 < (k.itable i).ref := fun ho => by
    rcases ho with ho | ho
    · have := List.count_pos_iff.mpr ho
      omega
    · omega
  unfold iput reclaim at he ⊢
  simp only [wp_bind, wp_get, wp_ite, wp_modify, wp_stop] at he ⊢
  refine ⟨fun hlast => ⟨fun _ => trivial, fun hfree => .inr ?_⟩, fun hkeep => .inl ⟨?_, ?_⟩⟩
  · -- the last reference to an inode without links
    obtain ⟨hone, hv, hz⟩ := hlast
    obtain ⟨hu, hag⟩ := h.copy i hpos hv
    have hown : i ∉ own := fun hm => by
      have := hne (.inl hm)
      omega
    have hbase : base i + H i = 0 := by omega
    refine ⟨⟨hown, hbase, hu, hag.2.2.2 ▸ hz⟩, ?_⟩
    have hfs : (((k.itrunc i).setInode i fun x => { x with type := .free }).iupdate i).fs =
        T.free i := by
      rw [reclaimed_fs (h.fs.symm ▸ hag), h.fs]
    refine h.move i ((he.1 ⟨hone, hv, hz⟩).2 hfree) hfs h.balloc
      (h.tidy.change i (fun j hj => free_disk_of_ne T hj) (fun _ => ?_) ?_)
      (fun j hj => ?_) (fun j hj => free_disk_of_ne T hj) (fun _ _ hf => hf) (fun _ _ hj => hj)
      ?_ (fun hc => absurd hc (not_used_free T i)) (fun hc => absurd hc (by omega)) (fun hc => ?_)
    · rw [free_disk_self]
      exact ⟨hag.2.2.2 ▸ hz, rfl, rfl⟩
    · rw [free_disk_self]
      exact h.tidy.nlink i
    · rw [drop_of_ne hj, setInode_of_ne hj]
      exact setInode_of_ne hj (k.itrunc i) fun x => { x with type := .free }
    · rw [drop_self, setInode_self]
      exact fun _ hv' => absurd hv' Bool.false_ne_true
    · have := hne (hl hc)
      omega
  · -- the test of `iput` says that it is not the last
    rintro ⟨⟨hown, hbase, hu, hz⟩, hv⟩
    have hcount : own.count i = 0 := List.count_eq_zero.mpr hown
    exact hkeep ⟨by omega, hv, (h.copy i hpos hv).2.2.2.2.trans hz⟩
  · -- one reference less
    have hit := drop_self k i
    refine h.table i (he.2 hkeep) rfl rfl (fun j hj => drop_of_ne hj k) (fun _ _ hj => hj)
      ?_ ?_ ?_
    · rw [hit]
      exact fun _ hv => h.copy i hpos hv
    · rw [hit]
      intro hu hz hf
      obtain ⟨_, hv⟩ := h.orphan i hu hz hf
      have hzk := (h.copy i hpos hv).2.2.2.2.trans hz
      have hmore : (k.itable i).ref ≠ 1 := fun hone => hkeep ⟨hone, hv, hzk⟩
      exact ⟨by show 0 < (k.itable i).ref - 1; omega, hv⟩
    · rw [hit]
      intro hm
      have := hne (hl hm)
      exact ⟨by show 0 < (k.itable i).ref - 1; omega, (h.read i hm).2⟩

/-- Nothing changes on disk while every inode without a link is held. -/
theorem iput_kept (hs : T.Settled fun i => base i + H i)
    (h : Copies base lk n R H (i :: own) locks room none T k)
    (hl : i ∈ locks → i ∈ own ∨ 0 < base i + H i) :
    wp (iput i) (fun _ k' => Copies base lk n R H own locks room none T k') Anyhow k :=
  (iput_copies h hl).mono fun _ _ hk' => hk'.elim (·.2) fun hk' =>
    absurd hk'.1.2.1 (Nat.pos_iff_ne_zero.mp (hs i hk'.1.2.2.1 hk'.1.2.2.2))

theorem iunlockput_kept (hs : T.Settled fun i => base i + H i)
    (h : Copies base lk n R H (i :: own) (i :: locks) room none T k) :
    wp (iunlockput i) (fun _ k' => Copies base lk n R H own locks room none T k') Anyhow k := by
  have hnew := (List.nodup_cons.mp h.apart.1).1
  unfold iunlockput
  exact (iunlock_copies h).andThen fun _ _ h' => iput_kept hs h' fun hm => absurd hm hnew

/-- What a call that ends with `iput` leaves when nothing is known of the inode. -/
theorem iunlockput_copies (h : Copies base lk n R H (i :: own) (i :: locks) room none T k) :
    wp (iunlockput i) (fun _ k' => (T.Used i ∧
      (¬Copies.Last base H own T i ∧ Copies base lk n R H own locks room none T k' ∨
        Copies.Last base H own T i ∧ Copies base lk n R H own locks room none (T.free i) k')))
      Anyhow k := by
  obtain ⟨hnew, _⟩ := List.nodup_cons.mp h.apart.1
  have hu := (h.good List.mem_cons_self).1
  have hv := (h.read i List.mem_cons_self).2
  have hkeep : wp (iunlock i) (fun _ k' => (k'.itable i).valid = true) Anyhow k := by
    unfold iunlock
    simp only [wp_bind, wp_get, wp_ite, wp_modify, wp_stop]
    exact ⟨fun _ => trivial, fun _ => by rw [setInode_self]; exact hv⟩
  unfold iunlockput
  refine (((iunlock_copies h).and hkeep).monoStop fun _ _ _ => trivial).andThen fun _ k₁ h₁ => ?_
  refine (iput_copies h₁.1 fun hm => absurd hm hnew).mono fun _ k₂ h₂ => ⟨hu, ?_⟩
  exact h₂.imp (fun hk => ⟨fun hl => hk.1 ⟨hl, h₁.2⟩, hk.2⟩) id

/-! ## Writing an inode -/

/-- A locked inode is written, the same in memory and on disk. -/
theorem Copies.write (h : Copies base lk n R H own locks room fresh T k) (hi : i ∈ locks)
    (he : Even base lk n R H own locks k') (hfs : k'.fs = T') (hroom : k'.room = room')
    (hne : ∀ j, j ≠ i → k'.itable j = k.itable j)
    (hrv : (k'.itable i).ref = (k.itable i).ref ∧ (k'.itable i).valid = (k.itable i).valid)
    (hT : ∀ j, j ≠ i → T'.disk j = T.disk j) (hu : T'.Used i)
    (hag : (k'.itable i).Agrees (T'.disk i))
    (hn : short (T'.disk i).nlink = (T'.disk i).nlink)
    (hfresh : ∀ j, j ≠ i → fresh' ≠ some j → fresh ≠ some j) :
    Copies base lk n R H own locks room' fresh' T' k' := by
  have hread : 0 < (k'.itable i).ref ∧ (k'.itable i).valid = true := by
    rw [hrv.1, hrv.2]
    exact h.read i hi
  exact h.move i he hfs hroom (h.tidy.change i hT (fun hc => absurd hu hc) hn) hne hT hfresh
    (fun _ _ hj => hj) (fun _ _ => ⟨hu, hag⟩) (fun _ _ _ => hread) (fun _ => hu) fun _ => hread

@[simp] theorem iupdate_itable (k : Kernel) (i : Inum) : (k.iupdate i).itable = k.itable := rfl

/-- `iupdate` writes what is there. -/
theorem iupdate_fs (h : (k.itable i).Agrees (k.fs.disk i)) : (k.iupdate i).fs = k.fs := by
  obtain ⟨h1, h2, h3, h4⟩ := h
  show k.fs.setDinode i ⟨_, _, _, _, _, _⟩ = k.fs
  rw [h1, h2, h3, h4]
  show { k.fs with disk := Function.update k.fs.disk i (k.fs.disk i) } = k.fs
  rw [Function.update_eq_self]

/-- `iupdate` writes the fields of the copy. -/
theorem iupdate_setInode_fs {f : Inode → Inode} {d : Dinode}
    (hd : (f (k.itable i)).Agrees d) (hent : d.entries = (k.fs.disk i).entries)
    (hdata : d.data = (k.fs.disk i).data) :
    ((k.setInode i f).iupdate i).fs = k.fs.setDinode i d := by
  obtain ⟨h1, h2, h3, h4⟩ := hd
  show k.fs.setDinode i _ = _
  rw [setInode_self, h1, h2, h3, h4]
  show k.fs.setDinode i
    ⟨d.type, d.major, d.minor, d.nlink, (k.fs.disk i).entries, (k.fs.disk i).data⟩ = _
  rw [← hent, ← hdata]

theorem setNlink_copies (h : Copies base lk n R H own locks room none T k) (hi : i ∈ locks)
    {v : Int → Int} :
    wp (setNlink i v) (fun _ k' => Copies base lk n R H own locks room none
      (T.setNlink i (short (v (T.disk i).nlink))) k') Anyhow k := by
  obtain ⟨hu, hag⟩ := h.good hi
  have he := setNlink_even (i := i) (v := v) h.toEven
  unfold setNlink at he ⊢
  simp only [wp_bind, wp_modify] at he ⊢
  have hself : (T.setNlink i (short (v (T.disk i).nlink))).disk i =
      { T.disk i with nlink := short (v (T.disk i).nlink) } := Function.update_self i _ _
  have hnew : ∀ {x : Inode}, x.Agrees (T.disk i) → Inode.Agrees
    { x with nlink := short (v x.nlink) }
      { T.disk i with nlink := short (v (T.disk i).nlink) } := fun hx =>
    ⟨hx.1, hx.2.1, hx.2.2.1, congrArg (fun m => short (v m)) hx.2.2.2⟩
  refine h.write hi he ?_ h.balloc (fun j hj => ?_) ?_ (fun j hj => Function.update_of_ne hj _ _)
    ?_ ?_ ?_ fun _ _ hf => hf
  · rw [iupdate_setInode_fs (d := { T.disk i with nlink := short (v (T.disk i).nlink) })
      (hnew hag) (by rw [h.fs]) (by rw [h.fs]), h.fs]
    rfl
  · rw [iupdate_itable, setInode_of_ne hj]
  · rw [iupdate_itable, setInode_self]
    exact ⟨rfl, rfl⟩
  · unfold Fs.Used
    rw [hself]
    exact hu
  · rw [iupdate_itable, setInode_self, hself]
    exact hnew hag
  · rw [hself]
    exact Int.bmod_bmod

/-! ## Entries -/

/-- `writei` of an entry at the slot `off` of `dp` finds room for it. -/
def Fs.RoomAt (T : Fs) (dp : Inum) (off : Nat) (room : List Bool) : Prop :=
  (off + 1) * direntSize ≤ MAXFILE * BSIZE ∧
    (off < (T.disk dp).entries.length ∨ off * direntSize % BSIZE ≠ 0 ∨ room.headD false = true)

theorem writei_copies (h : Copies base lk n R H own locks room none T k) (hdp : dp ∈ locks)
    {off : Nat} {de : Dirent} :
    wp (writei dp off de) (fun ok k' => ∃ room',
      (ok = false ∧ ¬T.RoomAt dp off room ∧ Copies base lk n R H own locks room' none T k') ∨
      (ok = true ∧ T.RoomAt dp off room ∧
        Copies base lk n R H own locks room' none (T.put dp off de) k')) Anyhow k := by
  obtain ⟨hu, hag⟩ := h.good hdp
  have he : wp (writei dp off de) (fun _ k' => Even base lk n R H own locks k') Anyhow k :=
    writei_even h.toEven
  unfold writei at he ⊢
  rw [wp_bind, wp_get] at he ⊢
  simp only [wp_ite, wp_bind, wp_modify, wp_pure] at he ⊢
  obtain ⟨hhuge, he⟩ := he
  -- the entries change, the head of the inode is written as it was
  have hput : ∀ {k' : Kernel} {es : List Dirent} {room' : List Bool},
      Even base lk n R H own locks (k'.iupdate dp) → k'.itable = k.itable →
      k'.fs = k.fs.setDinode dp { k.fs.disk dp with entries := es } →
      es = setAt (T.disk dp).entries off de → k'.room = room' →
      Copies base lk n R H own locks room' none (T.put dp off de) (k'.iupdate dp) := by
    intro k' es room' he hit hfs hes hroom
    have hfs' : k'.fs = T.put dp off de := by
      rw [hfs, hes, h.fs]
      rfl
    have hag' : (k'.itable dp).Agrees ((T.put dp off de).disk dp) := by
      rw [hit, Fs.put_disk_self]
      exact hag
    refine h.write hdp he ((iupdate_fs (hfs'.symm ▸ hag')).trans hfs') hroom
      (fun j _ => congrFun hit j) ?_ (fun j hj => Fs.put_disk_of_ne hj) ?_ hag' ?_ fun _ _ hf => hf
    · rw [iupdate_itable, hit]
      exact ⟨rfl, rfl⟩
    · exact (Fs.put_used dp).mpr hu
    · rw [Fs.put_nlink]
      exact h.tidy.nlink dp
  refine ⟨fun hbig => ⟨room, .inl ⟨trivial, fun hc => ?_, h⟩⟩, fun hbig => ⟨fun hlt => ?_,
    fun hge => ⟨fun hno => ?_, fun hyes => ?_⟩⟩⟩
  · exact Nat.not_lt.mpr hc.1 hbig
  · rw [h.fs] at hlt
    exact ⟨room, .inr ⟨trivial, ⟨Nat.not_lt.mp hbig, .inl hlt⟩, hput ((he hbig).1 (h.fs.symm ▸ hlt))
      rfl rfl (by rw [setAt, if_pos hlt, h.fs]) h.balloc⟩⟩
  · rw [h.fs] at hge
    have he' := ((he hbig).2 (h.fs.symm ▸ hge)).1 hno
    have hsame : ∀ {k' : Kernel}, Even base lk n R H own locks (k'.iupdate dp) →
        k'.itable = k.itable → k'.fs = k.fs →
        Copies base lk n R H own locks k'.room none T (k'.iupdate dp) := by
      intro k' he hit hfs
      have hag' : (k'.itable dp).Agrees (k'.fs.disk dp) := by
        rw [hit, hfs, h.fs]
        exact hag
      refine h.write hdp he ((iupdate_fs hag').trans (hfs.trans h.fs)) rfl
        (fun j _ => congrFun hit j) ?_ (fun _ _ => rfl) hu ?_ (h.tidy.nlink dp) fun _ _ hf => hf
      · rw [iupdate_itable, hit]
        exact ⟨rfl, rfl⟩
      · rw [iupdate_itable, hit]
        exact hag
    refine ⟨k.room.tail, .inl ⟨trivial, fun hc => ?_, hsame he' rfl rfl⟩⟩
    rw [h.balloc] at hno
    rcases hc.2 with hc | hc | hc
    · exact hge hc
    · exact hc hno.1
    · exact Bool.false_ne_true (hno.2.symm.trans hc)
  · rw [h.fs] at hge
    refine ⟨_, .inr ⟨trivial, ⟨Nat.not_lt.mp hbig, .inr ?_⟩, hput
      (((he hbig).2 (h.fs.symm ▸ hge)).2 hyes) rfl rfl (by rw [setAt, if_neg hge, h.fs]) rfl⟩⟩
    rw [h.balloc] at hyes
    by_cases hb : off * direntSize % BSIZE = 0
    · exact .inr (Bool.eq_true_of_not_eq_false fun hc => hyes ⟨hb, hc⟩)
    · exact .inl hb

end Xv6.Names
