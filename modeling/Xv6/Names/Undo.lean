import Xv6.Names.Copies

/-!
# What `create` takes back

The functions between `iget` and the system calls, on a disk that may be no tree. As
long as every inode without a link is held, a walk along a path changes nothing and
ends where the disk says (`namex_copies`), and `dirlink` enters the name or changes
nothing. `create` then either

> leaves every inode as it was, returns an inode that was there, or has made one
> (`create_copies`).

What it undoes is the new inode: with its link count back at 0 the last `iput` frees it,
and whatever `dots` entered is gone with its content.
-/

namespace Xv6.Names

open Lib
open Ftable (NFILE NOFILE FileId Fd FileType)

variable {base : Inum → Nat} {lk : Inum → Bool} {n : Nat} {R : Procs} {H : Inum → Nat}
  {own locks : List Inum} {room : List Bool} {fresh : Option Inum}
  {T T' : Fs} {k k' : Kernel} {i j dp ip : Inum} {p : Slot}

/-- What a function leaves that may return an inode. -/
def Handed (base : Inum → Nat) (lk : Inum → Bool) (n : Nat) (R : Procs) (H : Inum → Nat)
    (own locks : List Inum) (room : List Bool) (T : Fs) {α : Type} (inum : α → Inum) :
    Option α → Kernel → Prop
  | none, k => Copies base lk n R H own locks room none T k
  | some a, k => Copies base lk n R H (inum a :: own) locks room none T k

/-- A lookup changes nothing and finds what the directory says. -/
theorem dirlookup_copies (h : Copies base lk n R H own locks room none T k) {name : Str} :
    wp (dirlookup dp name) (fun r k' =>
      r = (T.slotOf dp name).map (fun off => (T.inumAt dp off, off)) ∧
      Handed base lk n R H own locks room T Prod.fst r k') Anyhow k := by
  unfold dirlookup
  rw [wp_bind, wp_get, wp_ite]
  refine ⟨fun _ => trivial, fun _ => ?_⟩
  rw [h.fs]
  split
  next hs => exact ⟨by rw [hs]; rfl, h⟩
  next off hs =>
    exact (iget_copies h).andThen fun _ k' h' => ⟨by rw [hs]; rfl, h'⟩

/-! ## Paths -/

theorem walk_copies (hs : T.Settled fun i => base i + H i) (parent : Bool) (fuel : Nat) :
    ∀ (ip : Inum) (path : Str) {k : Kernel}, path.length ≤ fuel →
      Copies base lk n R H (ip :: own) [] room none T k →
      wp (walk parent fuel ip path) (fun r k' => r = T.destination ip (elemsOf fuel path) parent ∧
        Handed base lk n R H own [] room T Prod.fst r k') Anyhow k := by
  -- the end of the loop, with no element left
  have hend : ∀ (ip : Inum) {k : Kernel}, Copies base lk n R H (ip :: own) [] room none T k →
      wp (if parent = true then do
          iput ip
          pure none
        else pure (some (ip, ([] : Str)))) (fun r k' => r = T.destination ip [] parent ∧
          Handed base lk n R H own [] room T Prod.fst r k') Anyhow k := by
    intro ip k h
    rw [wp_ite, Fs.destination_nil]
    refine ⟨fun hp => ?_, fun hp => ?_⟩
    · rw [if_pos hp]
      exact (iput_kept hs h fun hm => absurd hm List.not_mem_nil).andThen fun _ _ h' => ⟨rfl, h'⟩
    · rw [if_neg hp]
      exact ⟨rfl, h⟩
  induction fuel with
  | zero =>
    intro ip path k _ h
    rw [walk.eq_def, elemsOf.eq_def]
    exact hend ip h
  | succ fuel ih =>
    intro ip path k hf h
    rw [walk.eq_def]
    cases hskip : skipelem path with
    | none =>
      rw [elemsOf_none hskip]
      simp only [hskip]
      exact hend ip h
    | some r =>
      obtain ⟨name, rest⟩ := r
      obtain ⟨hlt, hrest⟩ := skipelem_some hskip
      have hlen : rest.length ≤ fuel := by omega
      rw [elemsOf_succ hskip]
      simp only [hskip]
      refine (ilock_copies h).andThen fun _ k₁ h₁ => ?_
      rw [wp_bind, wp_get, wp_ite]
      have htype : (k₁.itable ip).type = (T.disk ip).type := (h₁.good List.mem_cons_self).2.1
      refine ⟨fun hnd => ?_, fun hnd => ?_⟩
      · have hnot : ¬T.IsDir ip := fun hd => hnd (htype.trans hd)
        exact (iunlockput_kept hs h₁).andThen fun _ _ h' =>
          ⟨(Fs.destination_of_not_dir hnot).symm, h'⟩
      have hd : T.IsDir ip := htype.symm.trans (not_not.mp hnd)
      rw [wp_ite]
      refine ⟨fun hearly => ?_, fun hmore => ?_⟩
      · -- one level early: `name` is the last element
        obtain ⟨hp, hnil⟩ := hearly
        refine (iunlock_copies h₁).andThen fun _ k₂ h₂ => ?_
        have hlast : elemsOf fuel rest = [] := by
          rw [hnil]
          exact elemsOf_none rfl
        rw [hlast, wp_pure, hp]
        exact ⟨(Fs.destination_last hd).symm, h₂⟩
      have hne : parent = true → elemsOf fuel rest ≠ [] := fun hp hnil =>
        hmore ⟨hp, hrest (elemsOf_eq_nil hlen hnil)⟩
      refine (dirlookup_copies h₁).andThen fun r k₂ h₂ => ?_
      obtain ⟨hr, h₂⟩ := h₂
      have hchild : T.child ip name = r.map Prod.fst := by
        rw [hr, Option.map_map]
        rfl
      cases r with
      | none =>
        exact (iunlockput_kept hs h₂).andThen fun _ _ h' =>
          ⟨(Fs.destination_of_missing hd hchild hne).symm, h'⟩
      | some p =>
        obtain ⟨next, off⟩ := p
        rw [wp_bind, wp_modify]
        have h₃ : Copies base lk n R H (ip :: next :: own) [ip] room none T
            (k₂.found ip name next) :=
          Copies.swap (h₂.congr (h₂.toEven.congr rfl (fun _ => rfl) (fun _ => rfl) rfl) rfl rfl rfl
            fun _ hj => hj)
        refine (iunlockput_kept hs h₃).andThen fun _ k₄ h₄ => ?_
        refine (ih next rest hlen h₄).mono fun r k₅ h₅ => ⟨?_, h₅.2⟩
        exact h₅.1.trans (Fs.destination_cons hd hchild hne).symm

/-- **`namex`** changes nothing. -/
theorem namex_copies (hs : T.Settled fun i => base i + H i)
    (h : Copies base lk n R H own [] room none T k) (hp : CwdHeld R H p) {path : Str}
    {parent : Bool} :
    wp (namex p path parent) (fun r k' =>
      r = T.destination (R.start p path) (elems path) parent ∧
      Handed base lk n R H own [] room T Prod.fst r k') Anyhow k := by
  unfold namex Procs.start
  rw [wp_ite]
  refine ⟨fun hslash => ?_, fun hslash => ?_⟩
  · rw [if_pos hslash]
    exact (iget_copies h).andThen fun _ k₁ h₁ =>
      walk_copies hs parent path.length ROOTINO path (Nat.le_refl _) h₁
  · rw [if_neg hslash]
    refine (cwdOf_even h.toEven).andThen fun c k₁ hk₁ => ?_
    obtain ⟨hc, rfl⟩ := hk₁
    have href : 0 < (k₁.itable c).ref := by
      rw [h.refs]
      exact Nat.add_pos_left (Nat.add_pos_right _ (hp c hc)) _
    rw [hc, Option.getD_some]
    exact (idup_copies h href).andThen fun _ k₂ h₂ =>
      walk_copies hs parent path.length c path (Nat.le_refl _) h₂

theorem namei_copies (hs : T.Settled fun i => base i + H i)
    (h : Copies base lk n R H own [] room none T k) (hp : CwdHeld R H p) {path : Str} :
    wp (namei p path) (Handed base lk n R H own [] room T id) Anyhow k := by
  unfold namei
  refine (namex_copies hs h hp).andThen fun r k₁ h₁ => ?_
  match r, h₁.2 with
  | none, h₁ => exact h₁
  | some _, h₁ => exact h₁

/-! ## Entries -/

/-- `dirlink` finds the name free and room for the entry. -/
def Fs.Enters (T : Fs) (dp : Inum) (name : Str) (room : List Bool) : Prop :=
  T.slotOf dp name = none ∧ T.RoomAt dp (T.freeSlot dp) room

/-- **`dirlink`** enters the name or changes nothing. -/
theorem dirlink_copies (hs : T.Settled fun i => base i + H i)
    (h : Copies base lk n R H own locks room none T k) (hdp : dp ∈ locks)
    (hlo : ∀ j ∈ locks, j ∈ own) {name : Str} {inum : Inum} :
    wp (dirlink dp name inum) (fun ok k' => ∃ room',
      (ok = false ∧ ¬T.Enters dp name room ∧ Copies base lk n R H own locks room' none T k') ∨
      (ok = true ∧ T.Enters dp name room ∧ Copies base lk n R H own locks room' none
        (T.put dp (T.freeSlot dp) ⟨inum % 65536, strncpy name DIRSIZ⟩) k')) Anyhow k := by
  unfold dirlink
  refine (dirlookup_copies h).andThen fun r k₁ h₁ => ?_
  obtain ⟨hr, h₁⟩ := h₁
  match r, hr, h₁ with
  | some (i, off), hr, h₁ =>
    have hno : ¬T.Enters dp name room := fun hc => by
      rw [hc.1] at hr
      exact Option.some_ne_none _ hr
    exact (iput_kept hs h₁ fun hm => .inl (hlo i hm)).andThen fun _ _ h₂ =>
      ⟨room, .inl ⟨rfl, hno, h₂⟩⟩
  | none, hr, h₁ =>
    have hslot : T.slotOf dp name = none := Option.map_eq_none_iff.mp hr.symm
    simp only
    rw [wp_bind, wp_get, show k₁.fs = T from h₁.fs]
    refine (writei_copies h₁ hdp).mono fun ok k₂ h₂ => ?_
    obtain ⟨room', h₂⟩ := h₂
    exact ⟨room', h₂.imp (fun hf => ⟨hf.1, fun hc => hf.2.1 hc.2, hf.2.2⟩)
      fun ht => ⟨ht.1, ⟨hslot, ht.2.1⟩, ht.2.2⟩⟩

/-! ## A new inode -/

/-- The type and the links of every inode, the entries of every directory and the bytes of
every file are what they were. -/
def Fs.Same (T T' : Fs) : Prop :=
  ∀ i, (T'.disk i).type = (T.disk i).type ∧ (T'.disk i).nlink = (T.disk i).nlink ∧
    (T'.disk i).entries = (T.disk i).entries ∧ (T'.disk i).data = (T.disk i).data

theorem Fs.Same.refl (T : Fs) : T.Same T := fun _ => ⟨rfl, rfl, rfl, rfl⟩

theorem short_zero : short 0 = 0 := by decide

theorem short_one : short 1 = 1 := by decide

/-- `ialloc` finds an inode. -/
def Fs.Spare (T : Fs) : Prop := ∃ i, 0 < i ∧ i < T.ninodes ∧ ¬T.Used i

/-- `T'` has the inode `ip` besides those of `T`, of this type and with one link. -/
structure Fs.Adds (T T' : Fs) (ip : Inum) (type : IType) : Prop where
  free : ¬T.Used ip
  others : ∀ j, j ≠ ip → T'.disk j = T.disk j
  type : (T'.disk ip).type = type
  nlink : (T'.disk ip).nlink = 1

variable {type : IType}

theorem Fs.Adds.settled (h : T.Adds T' ip type) {B : Inum → Nat} (hs : T.Settled B) :
    T'.Settled B := by
  intro j hu hz
  by_cases hj : j = ip
  · rw [hj, h.nlink] at hz
    exact absurd hz Int.one_ne_zero
  · unfold Fs.Used at hu
    rw [h.others j hj] at hu hz
    exact hs j hu hz

theorem Fs.Adds.congr {T₁ : Fs} (h : T.Adds T' ip type) (ho : ∀ j, j ≠ ip → T₁.disk j = T'.disk j)
    (ht : (T₁.disk ip).type = (T'.disk ip).type) (hn : (T₁.disk ip).nlink = (T'.disk ip).nlink) :
    T.Adds T₁ ip type :=
  ⟨h.free, fun j hj => (ho j hj).trans (h.others j hj), ht.trans h.type, hn.trans h.nlink⟩

theorem Fs.Adds.put (h : T.Adds T' ip type) (off : Nat) (de : Dirent) :
    T.Adds (T'.put ip off de) ip type :=
  h.congr (fun _ hj => Fs.put_disk_of_ne hj) (Fs.put_type ip) (Fs.put_nlink ip)

theorem Fs.Settled.put {B : Inum → Nat} (hs : T.Settled B) (off : Nat) (de : Dirent) :
    (T.put dp off de).Settled B := fun i hu hz => by
  rw [Fs.put_used] at hu
  rw [Fs.put_nlink] at hz
  exact hs i hu hz

/-- What a directory that is left alone would take in. -/
theorem Fs.enters_congr (h : T'.disk dp = T.disk dp) (name : Str) (room : List Bool) :
    T'.Enters dp name room ↔ T.Enters dp name room := by
  unfold Fs.Enters Fs.RoomAt Fs.slotOf Fs.freeSlot
  rw [h]

theorem alloc_disk_of_ne (h : j ≠ i) : (T.alloc i type).disk j = T.disk j :=
  Function.update_of_ne h _ _

theorem alloc_disk_self : (T.alloc i type).disk i = ⟨type, 0, 0, 0, [], []⟩ :=
  Function.update_self i _ _

/-- **`ialloc`** finds an inode that nobody refers to. -/
theorem ialloc_copies (h : Copies base lk n R H own locks room none T k)
    (ht : type ≠ .free) :
    wp (ialloc type) (fun r k' =>
      (r = none ∧ ¬T.Spare ∧ Copies base lk n R H own locks room none T k') ∨
      ∃ i, r = some i ∧ T.Spare ∧ ¬T.Used i ∧
        Copies base lk n R H (i :: own) locks room (some i) (T.alloc i type) k') Anyhow k := by
  unfold ialloc
  rw [wp_bind, wp_get, h.fs]
  split
  next hnone =>
    refine .inl ⟨rfl, fun hc => ?_, h⟩
    obtain ⟨i, h0, hlt, hf⟩ := hc
    refine List.find?_eq_none.mp hnone i (List.mem_range'_1.mpr ⟨h0, by omega⟩) ?_
    exact decide_eq_true (not_not.mp hf)
  next i hfind =>
    have hmem := List.mem_range'_1.mp (List.mem_of_find?_eq_some hfind)
    have hz := List.find?_some hfind
    have hfree : ¬T.Used i := not_not.mpr (of_decide_eq_true hz)
    rw [wp_bind, wp_modify]
    have h₁ : Copies base lk n R H own locks room (some i) (T.alloc i type)
        { k with fs := k.fs.alloc i type } := by
      have hun : (T.alloc i type).Used i := by
        unfold Fs.Used
        rw [alloc_disk_self]
        exact ht
      refine h.move i (h.toEven.congr rfl (fun _ => rfl) (fun _ => rfl) rfl)
        (congrArg (·.alloc i type) h.fs) h.balloc
        (h.tidy.change i (fun j hj => alloc_disk_of_ne hj) (fun hc => absurd hun hc) ?_)
        (fun _ _ => rfl) (fun j hj => alloc_disk_of_ne hj)
        (fun j _ _ => (Option.some_ne_none j).symm) (fun _ _ hj => hj)
        (fun hpos hv => absurd (h.copy i hpos hv).1 hfree) (fun _ _ hc => absurd rfl hc)
        (fun _ => hun) fun hm => absurd (h.good hm).1 hfree
      rw [alloc_disk_self]
      exact short_zero
    exact (iget_copies h₁).andThen fun _ k₂ h₂ =>
      Or.inr ⟨i, rfl, ⟨i, hmem.1, by omega, hfree⟩, hfree, h₂⟩

/-- The fields `create` gives a new inode. -/
theorem birth_copies (major minor : Int)
    (h : Copies base lk n R H own locks room (some ip) (T.alloc ip type) k) (hip : ip ∈ locks)
    (ht : type ≠ .free) (hfree : ¬T.Used ip) :
    ∃ T', T.Adds T' ip type ∧ Copies base lk n R H own locks room none T' ((k.setInode ip fun i =>
      { i with major := short major, minor := short minor, nlink := 1 }).iupdate ip) := by
  obtain ⟨_, hag⟩ := h.good hip
  set d : Dinode := ⟨type, short major, short minor, 1, [], []⟩ with hd
  have hself : ((T.alloc ip type).setDinode ip d).disk ip = d := Function.update_self ip _ _
  have hof : ∀ j, j ≠ ip → ((T.alloc ip type).setDinode ip d).disk j = (T.alloc ip type).disk j :=
    fun j hj => Function.update_of_ne hj _ _
  have hused : ((T.alloc ip type).setDinode ip d).Used ip := by
    unfold Fs.Used
    rw [hself]
    exact ht
  rw [alloc_disk_self] at hag
  have hag' : Inode.Agrees { k.itable ip with
      major := short major, minor := short minor, nlink := 1 } d := ⟨hag.1, rfl, rfl, rfl⟩
  refine ⟨(T.alloc ip type).setDinode ip d,
    ⟨hfree, fun j hj => (hof j hj).trans (alloc_disk_of_ne hj), by rw [hself], by rw [hself]⟩,
    h.write hip ?_ ?_ h.balloc (fun j hj => ?_) ?_ hof hused ?_ ?_
      fun j hj _ hc => hj (Option.some.inj hc).symm⟩
  · refine Even.congr (k := k.setInode ip fun i =>
      { i with major := short major, minor := short minor, nlink := 1 }) ?_ rfl (fun _ => rfl)
      (fun _ => rfl) rfl
    exact h.toEven.touch fun _ => ⟨rfl, rfl⟩
  · rw [iupdate_setInode_fs (d := d) hag' (by rw [h.fs, alloc_disk_self])
      (by rw [h.fs, alloc_disk_self]), h.fs]
  · rw [iupdate_itable, setInode_of_ne hj]
  · rw [iupdate_itable, setInode_self]
    exact ⟨rfl, rfl⟩
  · rw [iupdate_itable, setInode_self, hself]
    exact hag'
  · rw [hself]
    exact short_one

/-- Whatever becomes of `.` and `..`, only the new directory changes. -/
theorem dots_copies (hs : T.Settled fun i => base i + H i) (hT : T.Adds T' ip type)
    (h : Copies base lk n R H own locks room none T' k) (hip : ip ∈ locks)
    (hlo : ∀ j ∈ locks, j ∈ own) :
    wp (dots ip dp) (fun _ k' => ∃ room' T₁, T.Adds T₁ ip type ∧
      Copies base lk n R H own locks room' none T₁ k') Anyhow k := by
  unfold dots
  rw [wp_bind, wp_modify]
  have hT₁ : T.Adds (T'.adopt ip dp) ip type := hT.congr (fun _ _ => rfl) rfl rfl
  have h₁ : Copies base lk n R H own locks room none (T'.adopt ip dp)
      { k with fs := k.fs.adopt ip dp } :=
    ⟨h.toEven.congr rfl (fun _ => rfl) (fun _ => rfl) rfl, congrArg (·.adopt ip dp) h.fs, h.balloc,
      ⟨h.tidy.free, h.tidy.nlink⟩, h.copy, h.orphan, h.held, h.read⟩
  refine (dirlink_copies (hT₁.settled hs) h₁ hip hlo).andThen fun ok k₂ h₂ => ?_
  obtain ⟨room₂, h₂⟩ := h₂
  have h₂' : ∃ T₂, T.Adds T₂ ip type ∧ Copies base lk n R H own locks room₂ none T₂ k₂ :=
    h₂.elim (fun hf => ⟨_, hT₁, hf.2.2⟩) fun ht => ⟨_, hT₁.put _ _, ht.2.2⟩
  obtain ⟨T₂, hT₂, h₂⟩ := h₂'
  rw [wp_ite]
  refine ⟨fun _ => ?_, fun _ => ⟨room₂, T₂, hT₂, h₂⟩⟩
  refine (dirlink_copies (hT₂.settled hs) h₂ hip hlo).mono fun ok k₃ h₃ => ?_
  obtain ⟨room₃, h₃⟩ := h₃
  exact ⟨room₃, h₃.elim (fun hf => ⟨_, hT₂, hf.2.2⟩) fun ht => ⟨_, hT₂.put _ _, ht.2.2⟩⟩

/-- **The new inode is taken back**: with no link it goes with the last reference. -/
theorem discard_copies (hs : T.Settled fun i => base i + H i) (htidy : T.Tidy)
    (hT : T.Adds T' ip type) (ht : type ≠ .free) (hz : base ip + H ip = 0) (hdp : dp ≠ ip)
    (h : Copies base lk n R H [ip, dp] [ip, dp] room none T' k) :
    wp (do
      setNlink ip fun _ => 0
      iunlockput ip
      iunlockput dp
      pure (none : Option Inum)) (fun r k' => r = none ∧ ∃ T₁, T.Same T₁ ∧
        Copies base lk n R H [] [] room none T₁ k') Anyhow k := by
  refine (setNlink_copies h List.mem_cons_self).andThen fun _ k₁ h₁ => ?_
  set T₁ := T'.setNlink ip (short 0) with hT₁
  have hself : T₁.disk ip = { T'.disk ip with nlink := short 0 } := Function.update_self ip _ _
  have hof : ∀ j, j ≠ ip → (T₁.free ip).disk j = T.disk j := fun j hj =>
    (free_disk_of_ne T₁ hj).trans ((Function.update_of_ne hj _ _).trans (hT.others j hj))
  have hlast : Copies.Last base H [dp] T₁ ip := by
    refine ⟨fun hm => hdp (List.mem_singleton.mp hm).symm, hz, ?_, ?_⟩
    · unfold Fs.Used
      rw [hself]
      exact fun hc => ht (hT.type.symm.trans hc)
    · rw [hself]
      exact short_zero
  refine (iunlockput_copies h₁).andThen fun _ k₂ h₂ => ?_
  obtain ⟨_, ⟨hno, _⟩ | ⟨_, h₂⟩⟩ := h₂
  · exact absurd hlast hno
  have hsame : T.Same (T₁.free ip) := fun j => by
    by_cases hj : j = ip
    · obtain ⟨hn, hent, hdata⟩ := htidy.free ip hT.free
      have hn₁ : (T₁.disk ip).nlink = 0 := hlast.2.2.2
      rw [hj, free_disk_self, hn, hent, hdata]
      exact ⟨(not_not.mp hT.free).symm, hn₁, rfl, rfl⟩
    · rw [hof j hj]
      exact ⟨rfl, rfl, rfl, rfl⟩
  have hs₁ : (T₁.free ip).Settled fun i => base i + H i := fun j hu hn => by
    unfold Fs.Used at hu
    rw [(hsame j).1] at hu
    rw [(hsame j).2.1] at hn
    exact hs j hu hn
  exact (iunlockput_kept hs₁ h₂).andThen fun _ k₃ h₃ => ⟨rfl, T₁.free ip, hsame, h₃⟩

/-! ## `create` -/

/-- `create` makes a file for `path`, if it comes to that: the name is free in a directory that is
there, and there is an inode and room for the entry. -/
def Fs.Makes (T : Fs) (start : Inum) (path : Str) (room : List Bool) : Prop :=
  ∃ dp name, T.destination start (elems path) true = some (dp, name) ∧
    T.Enters dp name room ∧ T.Spare

/-- What is left of the new inode `ip`; `made` says whether it may have been entered. -/
def Entered (base : Inum → Nat) (lk : Inum → Bool) (n : Nat) (R : Procs) (H : Inum → Nat)
    (type : IType) (T : Fs) (ip : Inum) (made : Prop) : Option Inum → Kernel → Prop
  | none, k => ¬made ∧ ∃ room T', T.Same T' ∧ Copies base lk n R H [] [] room none T' k
  | some i, k => i = ip ∧ made ∧ ∃ room T',
      (type ≠ .T_DIR → (T'.disk ip).type = type ∧ T'.Settled fun i => base i + H i) ∧
      Copies base lk n R H [ip] [ip] room none T' k

/-- `create` from the entry in the parent on. -/
theorem enter_copies (hs : T.Settled fun i => base i + H i) (htidy : T.Tidy)
    (hT : T.Adds T' ip type) (ht : type ≠ .free) (hz : base ip + H ip = 0) (hdp : dp ≠ ip)
    (name : Str)
    (h : Copies base lk n R H [ip, dp] [ip, dp] room none T' k) (ok : Bool) :
    wp (do
      let ok ← if ok = true then dirlink dp name ip else pure false
      if ok = true then do
        if type = .T_DIR then setNlink dp (· + 1) else pure ⟨⟩
        iunlockput dp
        pure (some ip)
      else do
        setNlink ip fun _ => 0
        iunlockput ip
        iunlockput dp
        pure none) (Entered base lk n R H type T ip (ok = true ∧ T.Enters dp name room))
          Anyhow k := by
  set made := ok = true ∧ T.Enters dp name room with hmade
  have hent : T'.Enters dp name room ↔ T.Enters dp name room :=
    Fs.enters_congr (hT.others dp hdp) name room
  -- the two ends of `create`: it returns the inode, or takes it back at `fail`
  have hsome : ∀ {k : Kernel} {room : List Bool} {T₁ : Fs}, made →
      (type ≠ .T_DIR → (T₁.disk ip).type = type ∧ T₁.Settled fun i => base i + H i) →
      Copies base lk n R H [ip, dp] [ip, dp] room none T₁ k →
      wp (do
        iunlockput dp
        pure (some ip)) (Entered base lk n R H type T ip made) Anyhow k := by
    intro k room T₁ hm hset h
    have h' := h.swap.swapLocks
    by_cases ht : type = .T_DIR
    · refine (iunlockput_copies h').andThen fun _ k₁ h₁ => ⟨rfl, hm, ?_⟩
      exact h₁.2.elim (fun hk => ⟨room, _, fun hc => absurd ht hc, hk.2⟩)
        fun hk => ⟨room, _, fun hc => absurd ht hc, hk.2⟩
    · exact (iunlockput_kept (hset ht).2 h').andThen fun _ k₁ h₁ =>
        ⟨rfl, hm, room, T₁, hset, h₁⟩
  have hnone : ∀ {k : Kernel} {room : List Bool} {T₁ : Fs}, ¬made → T.Adds T₁ ip type →
      Copies base lk n R H [ip, dp] [ip, dp] room none T₁ k →
      wp (do
        setNlink ip fun _ => 0
        iunlockput ip
        iunlockput dp
        pure none) (Entered base lk n R H type T ip made) Anyhow k := by
    intro k room T₁ hm hT₁ h
    refine (discard_copies hs htidy hT₁ ht hz hdp h).mono fun r k₁ h₁ => ?_
    obtain ⟨rfl, T₂, hsame, h₁⟩ := h₁
    exact ⟨hm, room, T₂, hsame, h₁⟩
  dsimp only
  rw [wp_ite]
  refine ⟨fun hok => ?_, fun hok => ?_⟩
  · refine (dirlink_copies (hT.settled hs) h (List.mem_cons_of_mem ip List.mem_cons_self)
      fun _ hj => hj).andThen fun ok' k₁ h₁ => ?_
    obtain ⟨room₁, ⟨rfl, hno, h₁⟩ | ⟨rfl, hyes, h₁⟩⟩ := h₁
    · exact hnone (fun hm => hno (hent.mpr hm.2)) hT h₁
    · have hm : made := ⟨hok, hent.mp hyes⟩
      rw [wp_ite]
      refine ⟨fun _ => ?_, fun hc => absurd rfl hc⟩
      rw [wp_ite]
      refine ⟨fun ht => ?_, fun _ => ?_⟩
      · exact (setNlink_copies h₁ (List.mem_cons_of_mem ip List.mem_cons_self)).andThen
          fun _ k₂ h₂ => hsome hm (fun hc => absurd ht hc) h₂
      · exact hsome hm (fun _ => ⟨(Fs.put_type ip).trans hT.type, (hT.settled hs).put _ _⟩) h₁
  · rw [wp_bind, wp_pure, wp_ite]
    exact ⟨fun hc => absurd hc Bool.false_ne_true, fun _ => hnone (fun hm => hok hm.1) hT h⟩

/-- What `create` leaves. -/
def Outcome (base : Inum → Nat) (lk : Inum → Bool) (n : Nat) (R : Procs) (H : Inum → Nat)
    (type : IType) (T : Fs) (makes : Prop) : Option Inum → Kernel → Prop
  | none, k => (type = .T_FILE → ¬makes) ∧
      ∃ room T', T.Same T' ∧ Copies base lk n R H [] [] room none T' k
  | some ip, k => ∃ room T', Copies base lk n R H [ip] [ip] room none T' k ∧
      (type = .T_FILE → (T'.Settled fun i => base i + H i) ∧
        (¬makes ∧ T' = T ∨ makes ∧ ¬T.Used ip ∧ (T'.disk ip).type = type))

/-- **`create`** leaves every inode as it was, returns one that was there, or makes one. -/
theorem create_copies (h : Copies base lk n R H [] [] room none T k) (hp : CwdHeld R H p)
    {path : Str} (ht : type ≠ .free) {major minor : Int} :
    wp (create p path type major minor)
      (Outcome base lk n R H type T (T.Makes (R.start p path) path room)) Anyhow k := by
  have hs := h.settled
  have hleft : ∀ {room : List Bool} {k : Kernel}, ¬T.Makes (R.start p path) path room →
      Copies base lk n R H [] [] room none T k →
      Outcome base lk n R H type T (T.Makes (R.start p path) path room) none k :=
    fun hno h => ⟨fun _ => hno, _, T, Fs.Same.refl T, h⟩
  unfold create nameiparent
  refine (namex_copies hs h hp).andThen fun r k₁ h₁ => ?_
  obtain ⟨hdest, h₁⟩ := h₁
  match r, hdest, h₁ with
  | none, hdest, h₁ =>
    refine hleft (fun hc => ?_) h₁
    obtain ⟨dp, name, hd, _⟩ := hc
    exact Option.some_ne_none _ (hd.symm.trans hdest.symm)
  | some (dp, name), hdest, h₁ =>
  -- `nameiparent` found `dp`; what is left is whether there is room in it, and an inode
  have hmakes : T.Makes (R.start p path) path room ↔ T.Enters dp name room ∧ T.Spare := by
    refine ⟨fun hc => ?_, fun hc => ⟨dp, name, hdest.symm, hc⟩⟩
    obtain ⟨dp', name', hd, hc⟩ := hc
    obtain ⟨rfl, rfl⟩ := Prod.mk.inj (Option.some.inj (hd.symm.trans hdest.symm))
    exact hc
  simp only
  refine (ilock_copies h₁).andThen fun _ k₂ h₂ => ?_
  have hdpu : T.Used dp := (h₂.good List.mem_cons_self).1
  refine (dirlookup_copies h₂).andThen fun r k₃ h₃ => ?_
  obtain ⟨hr, h₃⟩ := h₃
  match r, hr, h₃ with
  | some (ip, off), hr, h₃ =>
    have hno : ¬T.Makes (R.start p path) path room := fun hc => by
      rw [(hmakes.mp hc).1.1] at hr
      exact Option.some_ne_none _ hr
    simp only
    refine (iunlockput_kept hs h₃.swap).andThen fun _ k₄ h₄ => ?_
    refine (ilock_copies h₄).andThen fun _ k₅ h₅ => ?_
    rw [wp_bind, wp_get, wp_ite]
    refine ⟨fun _ => ⟨room, T, h₅, fun _ => ⟨hs, .inl ⟨hno, rfl⟩⟩⟩, fun _ => ?_⟩
    exact (iunlockput_kept hs h₅).andThen fun _ _ h₆ => hleft hno h₆
  | none, hr, h₃ =>
  have hslot : T.slotOf dp name = none := Option.map_eq_none_iff.mp hr.symm
  simp only
  refine (ialloc_copies h₃ ht).andThen fun r k₄ h₄ => ?_
  rcases h₄ with ⟨rfl, hspare, h₄⟩ | ⟨ip, rfl, hspare, hfree, h₄⟩
  · exact (iunlockput_kept hs h₄).andThen fun _ _ h₅ => hleft (fun hc => hspare (hmakes.mp hc).2) h₅
  simp only
  have hne : dp ≠ ip := fun hc => hfree (hc ▸ hdpu)
  -- nobody has the new inode: it was free
  have hz : base ip + H ip = 0 := by
    by_contra hc
    exact hfree (h.held ip (Nat.pos_of_ne_zero hc))
  refine (ilock_copies h₄).andThen fun _ k₅ h₅ => ?_
  rw [wp_bind, wp_modify, wp_bind, wp_modify]
  obtain ⟨T₆, hT₆, h₆⟩ := birth_copies major minor h₅ List.mem_cons_self ht hfree
  rw [wp_ite]
  refine ⟨fun hdir => ?_, fun hdir => ?_⟩
  · refine (dots_copies hs hT₆ h₆ List.mem_cons_self fun _ hj => hj).andThen fun ok k₇ h₇ => ?_
    obtain ⟨room₇, T₇, hT₇, h₇⟩ := h₇
    have hfile : type ≠ .T_FILE := fun hc => IType.noConfusion (hc.symm.trans hdir)
    refine (enter_copies hs h.tidy hT₇ ht hz hne name h₇ ok).mono
      fun r k₈ h₈ => ?_
    match r, h₈ with
    | none, h₈ => exact ⟨fun hc => absurd hc hfile, h₈.2⟩
    | some i, ⟨hi, _, room₈, T₈, _, h₈⟩ =>
      rw [hi]
      exact ⟨room₈, T₈, h₈, fun hc => absurd hc hfile⟩
  · refine (enter_copies hs h.tidy hT₆ ht hz hne name h₆ true).mono
      fun r k₈ h₈ => ?_
    match r, h₈ with
    | none, ⟨hno, h₈⟩ => exact ⟨fun _ hc => hno ⟨rfl, (hmakes.mp hc).1⟩, h₈⟩
    | some i, ⟨hi, hyes, room₈, T₈, hset, h₈⟩ =>
      rw [hi]
      exact ⟨room₈, T₈, h₈, fun _ => ⟨(hset hdir).2, .inr ⟨hmakes.mpr ⟨hyes.2, hspare⟩, hfree,
        (hset hdir).1⟩⟩⟩

end Xv6.Names
