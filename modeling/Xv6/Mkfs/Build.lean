import Xv6.Mkfs.Append

/-!
# `mkfs` up to the last two steps

`Files` is what holds of the image between any two steps: every inode that was given
out has its file, and the blocks from `nmeta` up to `freeblock` are divided among the
files. It is kept by `ialloc` and by `iappend`, and so by a turn of the loop over the
arguments:

  > `build_spec`: with fewer than `NINODES` inodes, every argument is a file with the
  > bytes that were read, and the root directory has an entry for each, in order.
-/

namespace Xv6.Mkfs

open Lib
open Lib.Bytes (put get)
open Names (Str slash strncpy dot dotdot DIRSIZ)

/-- The inode was given out. -/
def Live (m : Mk) (i : Nat) : Prop := 1 ≤ i ∧ i < m.freeinode

/-- The image holds the files `c`, of the types `t`. -/
structure Files (m : Mk) (c : Nat → List UInt8) (t : Nat → Nat) (B : Nat → List Nat)
    (ind : Nat → Nat) : Prop where
  room : Room m
  lo : 1 ≤ m.freeinode
  few : m.freeinode ≤ NINODES
  sb : m.img 1 = superblock
  file : ∀ i, Live m i → HasFile m i (c i) (B i) (ind i)
  type : ∀ i, Live m i → (dinodeOf m.img i).type = t i
  free : ∀ i, i < NINODES → ¬ Live m i → (dinodeOf m.img i).type = 0
  owns : ∀ i, Live m i → Owns m.freeblock (B i) (ind i)
  apart : ∀ i j b, Live m i → Live m j → b ∈ refs (B i) (ind i) → b ∈ refs (B j) (ind j) → i = j
  all : ∀ b, nmeta ≤ b → b < m.freeblock → ∃ i, Live m i ∧ b ∈ refs (B i) (ind i)

theorem inBlocks_of_lt {i : Nat} (h : i < NINODES) : InBlocks i := by
  have h200 : i < 200 := h
  show i < 208
  omega

/-- The blocks of a file are not blocks for inodes. -/
theorem Owns.ne_IBLOCK {freeblock : Nat} {B : List Nat} {ind b i : Nat} (ho : Owns freeblock B ind)
    (hb : b ∈ refs B ind) (hi : InBlocks i) : b ≠ IBLOCK i := by
  have hlt : IBLOCK i < 46 := IBLOCK_lt hi
  have hge : 47 ≤ b := (ho.data b hb).1
  omega

section Files

variable {m m' : Mk} {c : Nat → List UInt8} {t : Nat → Nat} {B : Nat → List Nat} {ind : Nat → Nat}

theorem Files.inBlocks (hf : Files m c t B ind) {i : Nat} (hi : Live m i) : InBlocks i :=
  inBlocks_of_lt (lt_of_lt_of_le hi.2 hf.few)

/-- What `ialloc` stores. -/
def newInode (type : Nat) : Dinode := ⟨type, 0, 0, 1, 0, fun _ => 0⟩

theorem newInode_fits {type : Nat} (h : type < 256 ^ 2) : (newInode type).Fits := by
  refine ⟨h, ?_, ?_, ?_, ?_, fun i _ => ?_⟩
  · show 0 < 256 ^ 2
    omega
  · show 0 < 256 ^ 2
    omega
  · show 1 < 256 ^ 2
    omega
  · show 0 < 256 ^ 4
    omega
  · show 0 < 256 ^ 4
    omega

/-- It has the empty file. -/
theorem holds_newInode (img : Nat → Block) (type : Nat) : Holds img (newInode type) [] [] 0 := by
  refine ⟨⟨fun _ _ => rfl, rfl, fun _ => Nat.zero_le _, fun h => absurd rfl h, Nat.zero_le _⟩, rfl,
    by decide, fun k hk => ?_⟩
  exact absurd hk (Nat.not_lt_zero k)

/-- A new inode, with an empty file. -/
theorem Files.ialloc (hf : Files m c t B ind) (hfew : m.freeinode < NINODES) {type : Nat}
    (htype : type < 256 ^ 2) {r : Mk × Nat} (h : ialloc m type = some r) :
    r.2 = m.freeinode ∧ r.1.freeinode = m.freeinode + 1 ∧
      Files r.1 (Function.update c m.freeinode []) (Function.update t m.freeinode type)
        (Function.update B m.freeinode []) (Function.update ind m.freeinode 0) := by
  have hin := inBlocks_of_lt hfew
  unfold Mkfs.ialloc at h
  rw [winode_eq hin] at h
  cases h
  refine ⟨rfl, rfl, ?_⟩
  have hlt : IBLOCK m.freeinode < 46 := IBLOCK_lt hin
  have hset : ∀ b, b ≠ IBLOCK m.freeinode → setImg m.img m.freeinode (newInode type) b = m.img b :=
    fun b hb => setImg_of_ne _ _ hb
  have hself := dinodeOf_self m.img m.freeinode (newInode_fits htype)
  have hother := fun i hi => @dinodeOf_ne m.img m.freeinode i (newInode type) hi
  -- an inode that was given out before, or the new one
  have hlive : ∀ i, 1 ≤ i ∧ i < m.freeinode + 1 → i = m.freeinode ∨
    (i ≠ m.freeinode ∧ Live m i) := by
    intro i hi
    unfold Live
    omega
  have hlo := hf.lo
  refine ⟨⟨fun b hb => ?_, hf.room.lo, hf.room.hi⟩, Nat.le_succ_of_le hf.lo, hfew, ?_,
    fun i hi => ?_,
    fun i hi => ?_, fun i h200 hi => ?_, fun i hi => ?_, fun i j b hi hj hbi hbj => ?_,
    fun b hge hb => ?_⟩
  · have hb' : m.freeblock ≤ b := hb
    have hlo : 47 ≤ m.freeblock := hf.room.lo
    exact (hset b (by omega)).trans (hf.room.fresh b hb)
  · refine (hset 1 ?_).trans hf.sb
    show 1 ≠ m.freeinode / 16 + 33
    omega
  · unfold HasFile
    rcases hlive i hi with rfl | ⟨hne, hi⟩
    · rw [Function.update_self, Function.update_self, Function.update_self]
      exact (holds_newInode m.img type).congr (fun b hb => absurd hb (by simp [refs])) hself
    · rw [Function.update_of_ne hne, Function.update_of_ne hne, Function.update_of_ne hne]
      exact (hf.file i hi).congr (fun b hb => hset b ((hf.owns i hi).ne_IBLOCK hb hin))
        (hother i hne)
  · rcases hlive i hi with rfl | ⟨hne, hi⟩
    · rw [Function.update_self]
      exact hself.type
    · rw [Function.update_of_ne hne]
      exact (hother i hne).type.trans (hf.type i hi)
  · have hi' : ¬ (1 ≤ i ∧ i < m.freeinode + 1) := hi
    have hne : i ≠ m.freeinode := by omega
    refine (hother i hne).type.trans (hf.free i h200 ?_)
    unfold Live
    omega
  · rcases hlive i hi with rfl | ⟨hne, hi⟩
    · rw [Function.update_self, Function.update_self]
      exact ⟨List.nodup_nil, fun b hb => absurd hb (by simp [refs])⟩
    · rw [Function.update_of_ne hne, Function.update_of_ne hne]
      exact hf.owns i hi
  · rcases hlive i hi with rfl | ⟨hne, hi⟩
    · rw [Function.update_self, Function.update_self] at hbi
      exact absurd hbi (by simp [refs])
    · rcases hlive j hj with rfl | ⟨hne', hj⟩
      · rw [Function.update_self, Function.update_self] at hbj
        exact absurd hbj (by simp [refs])
      · rw [Function.update_of_ne hne, Function.update_of_ne hne] at hbi
        rw [Function.update_of_ne hne', Function.update_of_ne hne'] at hbj
        exact hf.apart i j b hi hj hbi hbj
  · obtain ⟨i, hi, hmem⟩ := hf.all b hge hb
    have hne : i ≠ m.freeinode := Nat.ne_of_lt hi.2
    refine ⟨i, ⟨hi.1, Nat.lt_succ_of_lt hi.2⟩, ?_⟩
    rw [Function.update_of_ne hne, Function.update_of_ne hne]
    exact hmem

/-- A file gets longer. -/
theorem Files.iappend (hf : Files m c t B ind) {inum : Nat} (hi : Live m inum) {p : List UInt8}
    (h : iappend m inum p = some m') :
    m'.freeinode = m.freeinode ∧
      ∃ B' ind', Files m' (Function.update c inum (c inum ++ p)) t B' ind' := by
  have hin := hf.inBlocks hi
  obtain ⟨Bi, indi, ha⟩ := iappend_spec hin (hf.file inum hi) (hf.owns inum hi) hf.room h
  have hfree := ha.freeinode
  have hle := ha.le
  have hlive : ∀ i, Live m' i → Live m i := fun i hi => ⟨hi.1, hfree ▸ hi.2⟩
  -- the blocks of another file are not written
  have hapart : ∀ i b, Live m i → i ≠ inum → b ∈ refs (B i) (ind i) → b ∉ refs Bi indi := by
    intro i b hl hne hb hmem
    rcases (ha.mem b).mp hmem with hold | hnew
    · exact hne (hf.apart i inum b hl hi hb hold)
    · have hlt := ((hf.owns i hl).data b hb).2
      omega
  refine ⟨hfree, Function.update B inum Bi, Function.update ind inum indi, ha.room, hfree ▸ hf.lo,
    hfree ▸ hf.few, ?_, fun i hl => ?_, fun i hl => ?_, fun i h200 hl => ?_, fun i hl => ?_,
    fun i j b hl hj hbi hbj => ?_, fun b hge hb => ?_⟩
  · refine (ha.keep 1 (fun hmem => ?_) ?_).trans hf.sb
    · have hge : 47 ≤ 1 := (ha.owns.data 1 hmem).1
      omega
    · show 1 ≠ inum / 16 + 33
      omega
  · unfold HasFile
    by_cases hne : i = inum
    · rw [hne, Function.update_self, Function.update_self, Function.update_self]
      exact ha.file
    · have hl := hlive i hl
      rw [Function.update_of_ne hne, Function.update_of_ne hne, Function.update_of_ne hne]
      refine (hf.file i hl).congr (fun b hb => ?_) (ha.other i (hf.inBlocks hl) hne)
      exact ha.keep b (hapart i b hl hne hb) ((hf.owns i hl).ne_IBLOCK hb hin)
  · have hl := hlive i hl
    by_cases hne : i = inum
    · rw [hne]
      exact ha.type.trans (hf.type inum hi)
    · exact (ha.other i (hf.inBlocks hl) hne).type.trans (hf.type i hl)
  · have hl' : ¬ Live m i := fun hl' => hl ⟨hl'.1, hfree.symm ▸ hl'.2⟩
    have hne : i ≠ inum := fun heq => hl' (heq ▸ hi)
    exact (ha.other i (inBlocks_of_lt h200) hne).type.trans (hf.free i h200 hl')
  · by_cases hne : i = inum
    · rw [hne, Function.update_self, Function.update_self]
      exact ha.owns
    · rw [Function.update_of_ne hne, Function.update_of_ne hne]
      have ho := hf.owns i (hlive i hl)
      exact ⟨ho.nodup, fun b hb => ⟨(ho.data b hb).1, (ho.data b hb).2.trans_le hle⟩⟩
  · have hl := hlive i hl
    have hj := hlive j hj
    by_cases hne : i = inum
    · by_cases hne' : j = inum
      · exact hne.trans hne'.symm
      · rw [hne, Function.update_self, Function.update_self] at hbi
        rw [Function.update_of_ne hne', Function.update_of_ne hne'] at hbj
        exact absurd hbi (hapart j b hj hne' hbj)
    · rw [Function.update_of_ne hne, Function.update_of_ne hne] at hbi
      by_cases hne' : j = inum
      · rw [hne', Function.update_self, Function.update_self] at hbj
        exact absurd hbj (hapart i b hl hne hbi)
      · rw [Function.update_of_ne hne', Function.update_of_ne hne'] at hbj
        exact hf.apart i j b hl hj hbi hbj
  · by_cases hold : b < m.freeblock
    · obtain ⟨i, hl, hmem⟩ := hf.all b hge hold
      refine ⟨i, ⟨hl.1, hfree.symm ▸ hl.2⟩, ?_⟩
      by_cases hne : i = inum
      · rw [hne, Function.update_self, Function.update_self]
        exact (ha.mem b).mpr (.inl (hne ▸ hmem))
      · rw [Function.update_of_ne hne, Function.update_of_ne hne]
        exact hmem
    · refine ⟨inum, ⟨hi.1, hfree.symm ▸ hi.2⟩, ?_⟩
      rw [Function.update_self, Function.update_self]
      exact (ha.mem b).mpr (.inr ⟨by omega, hb⟩)

theorem Files.congr (hf : Files m c t B ind) {c' : Nat → List UInt8} {t' : Nat → Nat}
    (hc : ∀ i, Live m i → c' i = c i) (ht : ∀ i, Live m i → t' i = t i) : Files m c' t' B ind := by
  refine ⟨hf.room, hf.lo, hf.few, hf.sb, fun i hi => ?_, fun i hi => ?_, hf.free, hf.owns, hf.apart,
    hf.all⟩
  · rw [hc i hi]
    exact hf.file i hi
  · rw [ht i hi]
    exact hf.type i hi

/-- The loop over what `read` returns. -/
theorem Files.reads {inum : Nat} (reads : List (List UInt8)) :
    ∀ {m : Mk} {c : Nat → List UInt8} {B : Nat → List Nat} {ind : Nat → Nat}, Files m c t B ind →
      Live m inum → reads.foldlM (fun m buf => Mkfs.iappend m inum buf) m = some m' →
      m'.freeinode = m.freeinode ∧
        ∃ B' ind', Files m' (Function.update c inum (c inum ++ reads.flatten)) t B' ind' := by
  induction reads with
  | nil =>
    intro m c B ind hf hi h
    cases h
    refine ⟨rfl, B, ind, ?_⟩
    rw [List.flatten_nil, List.append_nil, Function.update_eq_self]
    exact hf
  | cons buf reads ih =>
    intro m c B ind hf hi h
    rw [List.foldlM_cons] at h
    obtain ⟨m1, h1, h⟩ := Option.bind_eq_some_iff.mp h
    obtain ⟨hfree, B1, ind1, hf1⟩ := hf.iappend hi h1
    obtain ⟨hfree', B', ind', hf'⟩ := ih hf1 ⟨hi.1, hfree.symm ▸ hi.2⟩ h
    refine ⟨hfree'.trans hfree, B', ind', ?_⟩
    rwa [Function.update_self, Function.update_idem, List.append_assoc, ← List.flatten_cons] at hf'

end Files

/-! ## The files that were asked for -/

/-- The entries of the root directory. -/
def entries (files : List File) : List (Nat × Str) :=
  (ROOTINO, dot) :: (ROOTINO, dotdot) ::
    (files.zipIdx 2).map fun e => (e.2, shortname e.1.path)

/-- Its bytes. -/
def rootBytes (files : List File) : List UInt8 := (entries files).flatMap fun e => dirent e.1 e.2

/-- The file `i` is to have these bytes. -/
def contentOf (files : List File) (i : Nat) : List UInt8 :=
  if i = ROOTINO then rootBytes files else (files[i - 2]?).elim [] File.content

def typeOf (i : Nat) : Nat := if i = ROOTINO then T_DIR else T_FILE

theorem entries_concat (files : List File) (f : File) :
    entries (files ++ [f]) = entries files ++ [(files.length + 2, shortname f.path)] := by
  unfold entries
  rw [List.zipIdx_append, List.map_append, Nat.add_comm]
  rfl

theorem rootBytes_concat (files : List File) (f : File) :
    rootBytes (files ++ [f]) = rootBytes files ++ dirent (files.length + 2) (shortname f.path) := by
  unfold rootBytes
  rw [entries_concat, List.flatMap_append, List.flatMap_singleton]

/-- The image with a file for each argument so far. -/
structure Built (m : Mk) (files : List File) (B : Nat → List Nat) (ind : Nat → Nat) : Prop where
  ok : Files m (contentOf files) typeOf B ind
  freeinode : m.freeinode = files.length + 2

/-- A turn of the loop over the arguments. -/
theorem Built.addFile {m m' : Mk} {files : List File} {B : Nat → List Nat}
    {ind : Nat → Nat} {f : File}
    (hb : Built m files B ind) (hfew : m.freeinode < NINODES) (h : addFile m f = some m') :
    ∃ B' ind', Built m' (files ++ [f]) B' ind' := by
  have hn := hb.freeinode
  unfold Mkfs.addFile at h
  split at h
  next =>
    obtain ⟨r, h1, h⟩ := Option.bind_eq_some_iff.mp h
    obtain ⟨m2, h2, h⟩ := Option.bind_eq_some_iff.mp h
    have hT : T_FILE < 256 ^ 2 := by
      show 2 < 256 ^ 2
      omega
    obtain ⟨hr, hfree1, hf1⟩ := hb.ok.ialloc hfew hT h1
    have hroot : Live r.1 ROOTINO := ⟨le_rfl, by show 1 < _; omega⟩
    obtain ⟨hfree2, B2, ind2, hf2⟩ := hf1.iappend hroot h2
    have hinum : Live m2 r.2 := ⟨by omega, by omega⟩
    obtain ⟨hfree3, B3, ind3, hf3⟩ := hf2.reads f.reads hinum h
    refine ⟨B3, ind3, hf3.congr (fun i hi => ?_) (fun i hi => ?_), ?_⟩
    · have hlt : i < files.length + 3 := by
        have hlt := hi.2
        omega
      have h1 : ROOTINO = 1 := rfl
      have hne : ROOTINO ≠ m.freeinode := by omega
      rw [hr]
      by_cases hi1 : i = ROOTINO
      · rw [hi1, Function.update_of_ne hne, Function.update_self, Function.update_of_ne hne, hn]
        exact rootBytes_concat files f
      · by_cases hin : i = m.freeinode
        · rw [hin, Function.update_self, Function.update_of_ne hne.symm, Function.update_self]
          unfold contentOf
          rw [if_neg hne.symm, hn, show files.length + 2 - 2 = files.length by omega,
            List.getElem?_concat_length]
          rfl
        · rw [Function.update_of_ne hin, Function.update_of_ne hi1, Function.update_of_ne hin]
          have hlo := hi.1
          unfold contentOf
          rw [if_neg hi1, if_neg hi1, List.getElem?_append_left (by omega)]
    · by_cases hin : i = m.freeinode
      · rw [hin, Function.update_self]
        unfold typeOf
        rw [if_neg (by show m.freeinode ≠ 1; omega)]
      · rw [Function.update_of_ne hin]
    · rw [List.length_append, List.length_singleton]
      omega
  next => cases h

/-- The loop over the arguments. -/
theorem Built.addFiles (files : List File) :
    ∀ {m m' : Mk} {done : List File} {B : Nat → List Nat} {ind : Nat → Nat}, Built m done B ind →
      done.length + files.length + 1 < NINODES → files.foldlM Mkfs.addFile m = some m' →
      ∃ B' ind', Built m' (done ++ files) B' ind' := by
  induction files with
  | nil =>
    intro m m' done B ind hb _ h
    cases h
    rw [List.append_nil]
    exact ⟨B, ind, hb⟩
  | cons f files ih =>
    intro m m' done B ind hb hfew h
    rw [List.foldlM_cons] at h
    obtain ⟨m1, h1, h⟩ := Option.bind_eq_some_iff.mp h
    have hn := hb.freeinode
    rw [List.length_cons] at hfew
    obtain ⟨B1, ind1, hb1⟩ := hb.addFile (by omega) h1
    have hlen : (done ++ [f]).length = done.length + 1 := List.length_append
    obtain ⟨B', ind', hb'⟩ := ih hb1 (by omega) h
    rw [List.append_assoc, List.singleton_append] at hb'
    exact ⟨B', ind', hb'⟩

/-- Before the first `ialloc`. -/
theorem blank_files : Files blank (fun _ => []) typeOf (fun _ => []) fun _ => 0 := by
  have hblank : blank = ⟨Function.update (fun _ => zeroes) 1 superblock, 1, nmeta⟩ :=
    wsect_eq (by omega)
  have himg : ∀ b, b ≠ 1 → blank.img b = zeroes := fun b hb => by
    rw [hblank]
    show Function.update (fun _ => zeroes) 1 superblock b = zeroes
    rw [Function.update_of_ne hb]
  have hsb : blank.img 1 = superblock := by
    rw [hblank]
    show Function.update (fun _ => zeroes) 1 superblock 1 = superblock
    rw [Function.update_self]
  have hlive : ∀ i, ¬ Live blank i := by
    intro i hi
    have hlt : i < 1 := hi.2
    have hge := hi.1
    omega
  refine ⟨⟨fun b hb => ?_, le_rfl, by decide⟩, le_rfl, by decide, hsb,
    fun i hi => absurd hi (hlive i), fun i hi => absurd hi (hlive i), fun i h200 _ => ?_,
    fun i hi => absurd hi (hlive i), fun i j b hi => absurd hi (hlive i), fun b hge hb => ?_⟩
  · have hb : 47 ≤ b := hb
    exact himg b (by omega)
  · have hb : IBLOCK i ≠ 1 := by
      show i / 16 + 33 ≠ 1
      omega
    unfold dinodeOf
    rw [himg _ hb]
    exact (dinodeAt_zero fun _ _ => rfl).type
  · have hb : b < nmeta := hb
    omega

/-- **`main`, up to the loop's end**. -/
theorem build_spec {files : List File} {m : Mk} (hfew : files.length + 1 < NINODES)
    (h : mkfs files = some m) :
    ∃ m0 B ind, Built m0 files B ind ∧
      ((fixRoot m0).bind fun m => balloc m m.freeblock) = some m := by
  unfold mkfs at h
  obtain ⟨r, h1, h⟩ := Option.bind_eq_some_iff.mp h
  split at h
  next hroot =>
    obtain ⟨m2, h2, h⟩ := Option.bind_eq_some_iff.mp h
    obtain ⟨m3, h3, h⟩ := Option.bind_eq_some_iff.mp h
    obtain ⟨m4, h4, h⟩ := Option.bind_eq_some_iff.mp h
    have hb1 : blank.freeinode = 1 := rfl
    have hR : ROOTINO = 1 := rfl
    obtain ⟨-, hfree1, hf1⟩ := blank_files.ialloc (by decide) (by decide) h1
    obtain ⟨hfree2, B2, ind2, hf2⟩ := hf1.iappend (⟨le_rfl, by omega⟩ : Live _ ROOTINO) h2
    obtain ⟨hfree3, B3, ind3, hf3⟩ := hf2.iappend (⟨le_rfl, by omega⟩ : Live _ ROOTINO) h3
    have hb3 : Built m3 [] B3 ind3 := by
      refine ⟨hf3.congr (fun i hi => ?_) fun i hi => ?_, by show _ = 2; omega⟩
      · have hi1 : i = ROOTINO := by
          have hge := hi.1
          have hlt := hi.2
          show i = 1
          omega
        rw [hi1, Function.update_self, Function.update_self, hb1]
        rw [hR, Function.update_self]
        rfl
      · by_cases hi1 : i = blank.freeinode
        · rw [hi1, Function.update_self]
          rfl
        · rw [Function.update_of_ne hi1]
    obtain ⟨B, ind, hb⟩ := hb3.addFiles files (by show 0 + files.length + 1 < NINODES; omega) h4
    exact ⟨m4, B, ind, hb, h⟩
  next => cases h

/-! ## The last two steps -/

/-- The image after `fixRoot`, which stores `d`, and `balloc`. -/
structure Finished (m0 : Mk) (d : Dinode) (m : Mk) : Prop where
  freeinode : m.freeinode = m0.freeinode
  data : ∀ b, nmeta ≤ b → m.img b = m0.img b
  sb : m.img 1 = m0.img 1
  root : (dinodeOf m.img ROOTINO).Same d
  other : ∀ i, InBlocks i → i ≠ ROOTINO → (dinodeOf m.img i).Same (dinodeOf m0.img i)
  bitmap : m.img bmapstart = bitmap m0.freeblock

theorem root_inBlocks : InBlocks ROOTINO := inBlocks_of_lt (by decide)

theorem finished_of (m0 : Mk) {d : Dinode} (hfits : d.Fits) :
    Finished m0 d (wsect { m0 with img := setImg m0.img ROOTINO d } bmapstart
      (bitmap m0.freeblock)) := by
  have h46 : bmapstart = 46 := rfl
  have h47 : nmeta = 47 := rfl
  have hset : ∀ b, b ≠ 33 → setImg m0.img ROOTINO d b = m0.img b := fun b hb => setImg_of_ne _ _ hb
  have hkeep : ∀ i, InBlocks i → IBLOCK i ≠ bmapstart := fun i hi => Nat.ne_of_lt (IBLOCK_lt hi)
  rw [wsect_eq (by omega)]
  refine ⟨rfl, fun b hb => ?_, ?_, ?_, fun i hi hne => ?_, ?_⟩
  · show Function.update (setImg m0.img ROOTINO d) bmapstart _ b = _
    rw [Function.update_of_ne (by omega), hset b (by omega)]
  · show Function.update (setImg m0.img ROOTINO d) bmapstart (bitmap m0.freeblock) 1 = _
    rw [Function.update_of_ne (by omega), hset 1 (by omega)]
  · show (dinodeOf (Function.update (setImg m0.img ROOTINO d) bmapstart _) ROOTINO).Same _
    rw [dinodeOf_congr (Function.update_of_ne (hkeep _ root_inBlocks) (bitmap m0.freeblock) _)]
    exact dinodeOf_self _ _ hfits
  · show (dinodeOf (Function.update (setImg m0.img ROOTINO d) bmapstart _) i).Same _
    rw [dinodeOf_congr (Function.update_of_ne (hkeep _ hi) (bitmap m0.freeblock) _)]
    exact dinodeOf_ne _ _ hne
  · show Function.update (setImg m0.img ROOTINO d) bmapstart (bitmap m0.freeblock) bmapstart = _
    rw [Function.update_self]

/-- The root inode with its size rounded. -/
def rounded (d : Dinode) : Dinode := { d with size := (d.size / BSIZE + 1) * BSIZE }

theorem finish_spec {m0 m : Mk} (hsize : (rounded (dinodeOf m0.img ROOTINO)).size < 256 ^ 4)
    (h : ((fixRoot m0).bind fun m => balloc m m.freeblock) = some m) :
    Finished m0 (rounded (dinodeOf m0.img ROOTINO)) m := by
  have hfits := dinodeOf_fits m0.img ROOTINO
  obtain ⟨m1, h1, h⟩ := Option.bind_eq_some_iff.mp h
  unfold fixRoot at h1
  rw [rinode_eq root_inBlocks, Option.bind_some, winode_eq root_inBlocks] at h1
  cases h1
  unfold balloc at h
  split at h
  next =>
    cases h
    exact finished_of m0 ⟨hfits.type, hfits.major, hfits.minor, hfits.nlink, hsize, hfits.addrs⟩
  next => cases h

/-! ## How many inodes are given out -/

theorem wsect_freeinode (m : Mk) (sec : Nat) (buf : Block) :
    (wsect m sec buf).freeinode = m.freeinode := rfl

theorem winode_freeinode {m m' : Mk} {inum : Nat} {d : Dinode} (h : winode m inum d = some m') :
    m'.freeinode = m.freeinode := by
  obtain ⟨buf, -, rfl⟩ := Option.map_eq_some_iff.mp h
  rfl

theorem addr_freeinode (m : Mk) (d : Dinode) (i : Nat) :
    (addr m d i).1.freeinode = m.freeinode := by
  unfold addr
  split <;> rfl

theorem entryBlock_freeinode {m : Mk} {d : Dinode} {fbn : Nat} {indirect : Block}
    {r : Mk × Dinode × Nat} (h : entryBlock m d fbn indirect = r) :
    r.1.freeinode = m.freeinode := by
  unfold entryBlock at h
  dsimp only at h
  by_cases h0 : get indirect (4 * (fbn - NDIRECT)) 4 = 0
  · rw [if_pos h0] at h
    rw [← h]
    exact wsect_freeinode _ _ _
  · rw [if_neg h0] at h
    rw [← h]

theorem blockOf_freeinode {m : Mk} {d : Dinode} {fbn : Nat} {r : Mk × Dinode × Nat}
    (h : blockOf m d fbn = some r) : r.1.freeinode = m.freeinode := by
  by_cases hdir : fbn < NDIRECT
  · unfold blockOf at h
    rw [if_pos hdir] at h
    cases h
    exact addr_freeinode m d fbn
  · rw [blockOf_of_ge (by omega)] at h
    obtain ⟨buf, -, he⟩ := Option.map_eq_some_iff.mp h
    rw [entryBlock_freeinode he, addr_freeinode]

theorem appendLoop_freeinode (fuel : Nat) :
    ∀ {m : Mk} {d : Dinode} {p : List UInt8} {r : Mk × Dinode},
    appendLoop fuel m d p = some r → r.1.freeinode = m.freeinode := by
  induction fuel with
  | zero =>
    intro m d p r h
    cases h
    rfl
  | succ fuel ih =>
    intro m d p r h
    unfold appendLoop at h
    dsimp only at h
    split at h
    next =>
      cases h
      rfl
    next =>
      split at h
      next =>
        obtain ⟨r1, hb, h⟩ := Option.bind_eq_some_iff.mp h
        obtain ⟨buf, -, h⟩ := Option.bind_eq_some_iff.mp h
        exact (ih h).trans (blockOf_freeinode hb)
      next => cases h

theorem iappend_freeinode {m m' : Mk} {inum : Nat} {p : List UInt8}
    (h : iappend m inum p = some m') :
    m'.freeinode = m.freeinode := by
  obtain ⟨d, -, h⟩ := Option.bind_eq_some_iff.mp h
  obtain ⟨r, hl, hw⟩ := Option.bind_eq_some_iff.mp h
  exact (winode_freeinode hw).trans (appendLoop_freeinode _ hl)

theorem ialloc_freeinode {m : Mk} {type : Nat} {r : Mk × Nat} (h : ialloc m type = some r) :
    r.1.freeinode = m.freeinode + 1 := by
  obtain ⟨m', hw, rfl⟩ := Option.map_eq_some_iff.mp h
  exact winode_freeinode hw

theorem reads_freeinode {inum : Nat} (reads : List (List UInt8)) : ∀ {m m' : Mk},
    reads.foldlM (fun m buf => iappend m inum buf) m = some m' → m'.freeinode = m.freeinode := by
  induction reads with
  | nil =>
    intro m m' h
    cases h
    rfl
  | cons buf reads ih =>
    intro m m' h
    rw [List.foldlM_cons] at h
    obtain ⟨m1, h1, h⟩ := Option.bind_eq_some_iff.mp h
    exact (ih h).trans (iappend_freeinode h1)

theorem addFile_freeinode {m m' : Mk} {f : File} (h : addFile m f = some m') :
    m'.freeinode = m.freeinode + 1 := by
  unfold addFile at h
  split at h
  next =>
    obtain ⟨r, h1, h⟩ := Option.bind_eq_some_iff.mp h
    obtain ⟨m2, h2, h⟩ := Option.bind_eq_some_iff.mp h
    rw [reads_freeinode _ h, iappend_freeinode h2, ialloc_freeinode h1]
  next => cases h

theorem addFiles_freeinode (files : List File) : ∀ {m m' : Mk},
    files.foldlM addFile m = some m' → m'.freeinode = m.freeinode + files.length := by
  induction files with
  | nil =>
    intro m m' h
    cases h
    rfl
  | cons f files ih =>
    intro m m' h
    rw [List.foldlM_cons] at h
    obtain ⟨m1, h1, h⟩ := Option.bind_eq_some_iff.mp h
    rw [ih h, addFile_freeinode h1, List.length_cons]
    omega

/-- One inode for the root directory and one for each argument. -/
theorem mkfs_freeinode {files : List File} {m : Mk} (h : mkfs files = some m) :
    m.freeinode = files.length + 2 := by
  obtain ⟨r, h1, h⟩ := Option.bind_eq_some_iff.mp h
  split at h
  next =>
    obtain ⟨m2, h2, h⟩ := Option.bind_eq_some_iff.mp h
    obtain ⟨m3, h3, h⟩ := Option.bind_eq_some_iff.mp h
    obtain ⟨m4, h4, h⟩ := Option.bind_eq_some_iff.mp h
    obtain ⟨m5, h5, h⟩ := Option.bind_eq_some_iff.mp h
    have hb : blank.freeinode = 1 := rfl
    have hm5 : m5.freeinode = files.length + 2 := by
      obtain ⟨d, -, hw⟩ := Option.bind_eq_some_iff.mp h5
      rw [winode_freeinode hw, addFiles_freeinode files h4, iappend_freeinode h3,
        iappend_freeinode h2,
        ialloc_freeinode h1, hb]
      omega
    unfold balloc at h
    split at h
    next =>
      cases h
      exact hm5
    next => cases h
  next => cases h

end Xv6.Mkfs
