import Mathlib.Data.List.TakeWhile
import Xv6.Mkfs.WellFormed
import Xv6.Names.Dir

/-!
# What `mkfs` writes is what the kernel reads

`mkfs` and the kernel have each their own code for the format. The files come from
`build_spec`, the bytes from `readi_spec`; what is left is the search in the root
directory. Entry `s` is the 16 bytes from `16 * s` on (`root_entry`), and the search for a
name goes past the entries with other names and stops at its own (`dirLoop_spec`). It
never comes to the block that the rounding of the size may add.

  > `image_files`: every argument is found under its name, as a file with its bytes.
-/

namespace Xv6.Mkfs

open Lib
open Lib.Bytes (get get_put get_put_ne)
open Names (Str slash namecmp skipelem strncpy dot dotdot DIRSIZ stored namecmp_eq_zero
  stored_stored)

/-! ## Names -/

/-- Names without NUL that fit are stored differently. -/
theorem strncpy_inj (n : Nat) : ∀ {s t : Str}, 0 ∉ s → 0 ∉ t → s.length ≤ n → t.length ≤ n →
    strncpy s n = strncpy t n → s = t := by
  induction n with
  | zero =>
    intro s t _ _ hs ht _
    rw [List.eq_nil_of_length_eq_zero (Nat.le_zero.mp hs), List.eq_nil_of_length_eq_zero
      (Nat.le_zero.mp ht)]
  | succ n ih =>
    intro s t hs0 ht0 hs ht h
    cases s with
    | nil =>
      cases t with
      | nil => rfl
      | cons b t =>
        have hb : b ≠ 0 := fun heq => ht0 (heq ▸ List.mem_cons_self)
        rw [strncpy, strncpy, if_pos (by rfl), List.headD_cons, if_neg hb] at h
        exact absurd (List.cons.inj h).1.symm hb
    | cons a s =>
      have ha : a ≠ 0 := fun heq => hs0 (heq ▸ List.mem_cons_self)
      cases t with
      | nil =>
        rw [strncpy, strncpy, List.headD_cons, if_neg ha, if_pos (by rfl)] at h
        exact absurd (List.cons.inj h).1 ha
      | cons b t =>
        have hb : b ≠ 0 := fun heq => ht0 (heq ▸ List.mem_cons_self)
        rw [strncpy, strncpy, List.headD_cons, if_neg ha, List.headD_cons, if_neg hb] at h
        obtain ⟨hab, hst⟩ := List.cons.inj h
        rw [hab, ih (fun hm => hs0 (List.mem_cons_of_mem _ hm))
          (fun hm => ht0 (List.mem_cons_of_mem _ hm))
          (Nat.le_of_succ_le_succ hs) (Nat.le_of_succ_le_succ ht) hst]

theorem namecmp_strncpy {s t : Str} (hs0 : 0 ∉ s) (ht0 : 0 ∉ t) (hs : s.length ≤ DIRSIZ)
    (ht : t.length ≤ DIRSIZ) : namecmp s (strncpy t DIRSIZ) = 0 ↔ s = t := by
  rw [namecmp_eq_zero]
  show stored s = stored (stored t) ↔ s = t
  rw [stored_stored]
  exact ⟨fun h => strncpy_inj DIRSIZ hs0 ht0 hs ht h, fun h => by rw [h]⟩

/-- What `main` has checked. -/
structure Checked (f : File) : Prop where
  slash : slash ∉ shortname f.path
  len : (shortname f.path).length ≤ DIRSIZ
  nul : 0 ∉ shortname f.path

theorem basename_sub (path : Str) : ∀ b, b ∈ basename path → b ∈ path := by
  intro b hb
  unfold basename at hb
  split at hb
  next => exact List.mem_of_mem_drop hb
  next => exact hb

theorem shortname_sub (path : Str) : ∀ b, b ∈ shortname path → b ∈ basename path := by
  intro b hb
  unfold shortname at hb
  split at hb
  next => exact List.mem_of_mem_tail hb
  next => exact hb

theorem addFile_checked {m m' : Mk} {f : File} (h : addFile m f = some m') : Checked f := by
  unfold addFile at h
  split at h
  next hc =>
    exact ⟨fun hm => hc.1 (shortname_sub _ _ hm), hc.2,
      fun hm => f.nul (basename_sub _ _ (shortname_sub _ _ hm))⟩
  next => cases h

theorem addFiles_checked (files : List File) : ∀ {m m' : Mk}, files.foldlM addFile m = some m' →
    ∀ f, f ∈ files → Checked f := by
  induction files with
  | nil =>
    intro m m' _ f hf
    exact absurd hf List.not_mem_nil
  | cons g files ih =>
    intro m m' h f hf
    rw [List.foldlM_cons] at h
    obtain ⟨m1, h1, h⟩ := Option.bind_eq_some_iff.mp h
    rcases List.mem_cons.mp hf with rfl | hf
    · exact addFile_checked h1
    · exact ih h f hf

theorem mkfs_checked {files : List File} {m : Mk} (h : mkfs files = some m) :
    ∀ f, f ∈ files → Checked f := by
  obtain ⟨r, h1, h⟩ := Option.bind_eq_some_iff.mp h
  split at h
  next =>
    obtain ⟨m2, h2, h⟩ := Option.bind_eq_some_iff.mp h
    obtain ⟨m3, h3, h⟩ := Option.bind_eq_some_iff.mp h
    obtain ⟨m4, h4, h⟩ := Option.bind_eq_some_iff.mp h
    exact addFiles_checked files h4
  next => cases h

/-- The path is one element. -/
theorem skipelem_root {f : File} (hc : Checked f) (hne : shortname f.path ≠ []) :
    skipelem (slash :: shortname f.path) = some (shortname f.path, []) := by
  have hs := hc.slash
  have hlen := hc.len
  generalize shortname f.path = name at hs hlen hne
  have hall : ∀ b, b ∈ name → (b == slash) = false := fun b hb =>
    beq_false_of_ne fun heq => hs (heq ▸ hb)
  have hdrop : (slash :: name).dropWhile (· == slash) = name := by
    cases name with
    | nil => exact absurd rfl hne
    | cons b name =>
      have hb := hall b List.mem_cons_self
      simp [hb]
  have htake : name.takeWhile (· != slash) = name := by
    rw [List.takeWhile_eq_self_iff]
    intro b hb
    show (!(b == slash)) = true
    rw [hall b hb]
    rfl
  have hrest : name.dropWhile (· != slash) = [] := by
    rw [List.dropWhile_eq_nil_iff]
    intro b hb
    show (!(b == slash)) = true
    rw [hall b hb]
    rfl
  unfold skipelem
  rw [hdrop]
  dsimp only
  rw [if_neg hne, htake, hrest]
  split
  next hge => rw [List.take_of_length_le (by omega)]; rfl
  next => rfl

/-! ## The search -/

/-- An entry that the search can compare. -/
structure EntryOk (e : Nat × Str) : Prop where
  pos : e.1 ≠ 0
  lt : e.1 < 2 ^ 16
  nul : 0 ∉ e.2
  len : e.2.length ≤ DIRSIZ

theorem dirent_inum {inum : Nat} (h : inum < 2 ^ 16) (name : Str) :
    ((dirent inum name).getD 0 0).toNat + ((dirent inum name).getD 1 0).toNat * 256 = inum := by
  show (Bytes.le inum 0).toNat + (Bytes.le inum 1).toNat * 256 = inum
  rw [Bytes.le_toNat, Bytes.le_toNat]
  omega

/-- **The search for a name**: it stops at the first entry with the name. By induction on
the entries that are still before it. -/
theorem dirLoop_spec {img : Nat → Block} {d : Dinode} {es : List (Nat × Str)} {name : Str}
    (hread : ∀ s (hs : s < es.length), readi img d (direntSize * s) direntSize
      = some (dirent es[s].1 es[s].2))
    (hsize : direntSize * es.length ≤ d.size) (hok : ∀ e, e ∈ es → EntryOk e)
    {t : Nat} (ht : t < es.length) (hname : es[t].2 = name)
    (hne : ∀ s (hs : s < t), es[s].2 ≠ name) :
    ∀ k s fuel, s + k = t → k < fuel →
      dirLoop img d name fuel (direntSize * s) = some (some es[t].1) := by
  have h16 : direntSize = 16 := rfl
  have hnameok := hok _ (List.getElem_mem ht)
  rw [h16] at hsize
  intro k
  induction k with
  | zero =>
    intro s fuel hs hfuel
    obtain ⟨fuel, rfl⟩ := Nat.exists_eq_succ_of_ne_zero (Nat.ne_of_gt hfuel)
    have hst : s = t := hs
    subst hst
    unfold dirLoop
    rw [if_pos (by rw [h16]; omega), hread s ht, Option.bind_some, if_pos (dirent_length _ _)]
    dsimp only
    rw [dirent_inum hnameok.lt, if_neg hnameok.pos, if_pos]
    exact (namecmp_strncpy (hname ▸ hnameok.nul) hnameok.nul (hname ▸ hnameok.len) hnameok.len).mpr
      hname.symm
  | succ k ih =>
    intro s fuel hs hfuel
    obtain ⟨fuel, rfl⟩ := Nat.exists_eq_succ_of_ne_zero (Nat.ne_of_gt (Nat.zero_lt_of_lt hfuel))
    have hslt : s < es.length := by omega
    have he := hok _ (List.getElem_mem hslt)
    have hnext := ih (s + 1) fuel (by omega) (by omega)
    unfold dirLoop
    rw [if_pos (by rw [h16]; omega), hread s hslt, Option.bind_some, if_pos (dirent_length _ _)]
    dsimp only
    rw [dirent_inum he.lt, if_neg he.pos, if_neg, ← Nat.mul_succ]
    · exact hnext
    · intro hcmp
      have heq := (namecmp_strncpy (hname ▸ hnameok.nul) he.nul
        (hname ▸ hnameok.len) he.len).mp hcmp
      exact hne s (by omega) heq.symm

/-! ## The root directory -/

/-- The 16 bytes of an entry. -/
theorem flatMap_slice (es : List (Nat × Str)) : ∀ s (hs : s < es.length),
    ((es.flatMap fun e => dirent e.1 e.2).drop (direntSize * s)).take direntSize
      = dirent es[s].1 es[s].2 := by
  induction es with
  | nil =>
    intro s hs
    exact absurd hs (Nat.not_lt_zero s)
  | cons e es ih =>
    intro s hs
    rw [List.flatMap_cons]
    cases s with
    | zero =>
      rw [Nat.mul_zero, List.drop_zero, ← dirent_length e.1 e.2, List.take_left]
      rfl
    | succ s =>
      rw [Nat.mul_succ, Nat.add_comm, ← List.drop_drop]
      rw [List.drop_left' (dirent_length e.1 e.2)]
      exact ih s (Nat.lt_of_succ_lt_succ hs)

section Made

variable {files : List File} {m m0 : Mk} {B : Nat → List Nat} {ind : Nat → Nat}

/-- The bytes of a file are still there after the last two steps. -/
theorem Made.stored (hm : Made files m B ind m0) {i : Nat} (hi : Live m0 i) :
    Stored m.img (B i) (contentOf files i) := by
  have ho := hm.built.ok.owns i hi
  exact (hm.built.ok.file i hi).stored.congr fun b hb =>
    hm.finished.data b (ho.data b (mem_refs.mpr (.inl hb))).1

/-- No file is longer than `MAXFILE` blocks. -/
theorem Made.content_lt (hm : Made files m B ind m0) {i : Nat} (hi : Live m0 i) :
    (contentOf files i).length < 2 ^ 32 := by
  have hB : BSIZE = 1024 := rfl
  have hM : MAXFILE = 268 := rfl
  have hle := le_blocks (hm.built.ok.file i hi).length
  have hlen := (hm.mapped hi).length
  rw [hB] at hle
  omega

/-- The kernel finds the superblock. -/
theorem Made.ilock_eq (hm : Made files m B ind m0) (i : Nat) :
    ilock m.img i = dinodeOf m.img i := by
  have hsb : (readsb m.img).inodestart = inodestart := by
    show get (m.img 1) 24 4 = inodestart
    rw [hm.finished.sb, hm.built.ok.sb]
    unfold superblock
    rw [get_put_ne _ (by omega), get_put _ _ _ (by decide)]
  unfold ilock
  rw [hsb]
  rfl

/-- `readi` inside a file. -/
theorem Made.readi (hm : Made files m B ind m0) {i : Nat} (hi : Live m0 i)
    (hsize : (contentOf files i).length ≤ (dinodeOf m.img i).size) {off n : Nat}
    (hoff : off + n ≤ (contentOf files i).length) :
    readi m.img (dinodeOf m.img i) off n = some (((contentOf files i).drop off).take n) := by
  have hlen := (hm.built.ok.file i hi).length
  exact readi_spec (hm.mapped hi) (hm.built.ok.owns i hi) (hm.stored hi) (le_blocks hlen) hsize hoff
    (hm.content_lt hi)

theorem entries_length (files : List File) : (entries files).length = files.length + 2 := by
  unfold entries
  rw [List.length_cons, List.length_cons, List.length_map, List.length_zipIdx]

/-- Entry `s` of the root directory. -/
theorem Made.root_entry (hm : Made files m B ind m0) (s : Nat) (hs : s < (entries files).length) :
    Mkfs.readi m.img (dinodeOf m.img ROOTINO) (direntSize * s) direntSize
      = some (dirent (entries files)[s].1 (entries files)[s].2) := by
  have hB : BSIZE = 1024 := rfl
  have h16 : direntSize = 16 := rfl
  have hlen := rootBytes_length files
  have hsize := hm.root_size
  have hc : contentOf files ROOTINO = rootBytes files := if_pos rfl
  rw [entries_length] at hs
  rw [hm.readi hm.root_live (by rw [hc, hlen, hsize, hB, h16]; omega)
    (by rw [hc, hlen, h16]; omega), hc]
  exact congrArg some (flatMap_slice _ s _)

theorem entries_file (files : List File) {j : Nat} (hj : j < files.length)
    (h : j + 2 < (entries files).length) :
    (entries files)[j + 2] = (j + 2, shortname files[j].path) := by
  simp only [entries, List.getElem_cons_succ, List.getElem_map, List.getElem_zipIdx, Nat.add_comm]

end Made

/-- The names of the files are such as a directory can have. -/
structure Named (files : List File) : Prop where
  nonempty : ∀ f, f ∈ files → shortname f.path ≠ []
  dots : ∀ f, f ∈ files → shortname f.path ≠ dot ∧ shortname f.path ≠ dotdot
  distinct : (files.map fun f => shortname f.path).Nodup

section Root

variable {files : List File} {m m0 : Mk} {B : Nat → List Nat} {ind : Nat → Nat}

theorem entries_ok (hc : ∀ f, f ∈ files → Checked f) (hfew : files.length + 1 < NINODES) :
    ∀ e, e ∈ entries files → EntryOk e := by
  have hN : NINODES = 200 := rfl
  intro e he
  rcases List.mem_cons.mp he with rfl | he
  · exact ⟨Nat.one_ne_zero, by decide, by decide, by decide⟩
  · rcases List.mem_cons.mp he with rfl | he
    · exact ⟨Nat.one_ne_zero, by decide, by decide, by decide⟩
    · obtain ⟨⟨f, i⟩, hfi, rfl⟩ := List.mem_map.mp he
      have hmem := List.mem_zipIdx hfi
      have hf : f ∈ files := by
        rw [hmem.2.2]
        exact List.getElem_mem _
      have hfc := hc f hf
      exact ⟨by show i ≠ 0; omega, by show i < _; omega, hfc.nul, hfc.len⟩

/-- The entries before that of a file have other names. -/
theorem entries_before (hn : Named files) {j : Nat} (hj : j < files.length) (s : Nat)
    (hs : s < j + 2) (hlen : s < (entries files).length) :
    (entries files)[s].2 ≠ shortname files[j].path := by
  have hdots := hn.dots _ (List.getElem_mem hj)
  cases s with
  | zero => exact hdots.1.symm
  | succ s =>
    cases s with
    | zero => exact hdots.2.symm
    | succ i =>
      have hij : i < j := by omega
      have hi : i < files.length := by omega
      rw [entries_file files hi]
      intro heq
      have hi' : i < (files.map fun f => shortname f.path).length := by
        rw [List.length_map]; exact hi
      have hj' : j < (files.map fun f => shortname f.path).length := by
        rw [List.length_map]; exact hj
      have hmap : (files.map fun f => shortname f.path)[i] =
        (files.map fun f => shortname f.path)[j] := by
        rw [List.getElem_map, List.getElem_map]
        exact heq
      have hidx := (List.Nodup.getElem_inj_iff hn.distinct).mp hmap
      omega

/-- The search in the root directory. -/
theorem Made.dirlookup (hm : Made files m B ind m0) (hc : ∀ f, f ∈ files → Checked f)
    (hn : Named files) {j : Nat} (hj : j < files.length) :
    dirlookup m.img (dinodeOf m.img ROOTINO) (shortname files[j].path) = some (some (j + 2)) := by
  have hB : BSIZE = 1024 := rfl
  have h16 : direntSize = 16 := rfl
  have hlen := entries_length files
  have hsize := hm.root_size
  have hfew : files.length + 1 < NINODES := by
    have hfree := hm.built.freeinode
    have hle := hm.built.ok.few
    omega
  have hj2 : j + 2 < (entries files).length := by omega
  have htype : (dinodeOf m.img ROOTINO).type = T_DIR :=
    (hm.type (by decide)).trans (hm.built.ok.type _ hm.root_live)
  have hfile := entries_file files hj hj2
  unfold Mkfs.dirlookup
  rw [if_pos htype]
  have hloop := dirLoop_spec hm.root_entry
    (by rw [hlen, hsize, hB, h16]; omega) (entries_ok hc hfew) hj2 (by rw [hfile])
    (fun s hs => entries_before hn hj s hs (by omega)) (j + 2) 0
    ((dinodeOf m.img ROOTINO).size / direntSize + 1) (Nat.zero_add _)
    (by rw [hsize, hB, h16]; omega)
  rw [Nat.mul_zero, hfile] at hloop
  exact hloop

end Root

/-- `readi` stops at the end of the file. -/
theorem readi_clip {img : Nat → Block} {d : Dinode} {off n : Nat} (hoff : off ≤ d.size)
    (hn : off + n < 2 ^ 32) (hsize : d.size < off + n) :
    readi img d off n = readi img d off (d.size - off) := by
  have hsum : off + (d.size - off) = d.size := by omega
  have hl : ¬ (d.size < off ∨ off + n < off) := by omega
  have hr : ¬ (d.size < off ∨ d.size < off) := by omega
  unfold readi
  rw [hsum, Nat.mod_eq_of_lt hn, Nat.mod_eq_of_lt (by omega : d.size < 2 ^ 32),
    if_neg hl, if_neg hr]
  dsimp only
  rw [if_pos hsize, if_neg (Nat.lt_irrefl _)]

/-- **What `mkfs` writes is what the kernel reads.** -/
theorem image_files {files : List File} {m : Mk} (h : mkfs files = some m)
    (hfew : files.length + 1 < NINODES) (hn : Named files) (cwd : Nat) :
    ∀ f, f ∈ files → ∃ inum, namei m.img cwd (slash :: shortname f.path) = some (some inum) ∧
      (ilock m.img inum).type = T_FILE ∧ (ilock m.img inum).size = f.content.length ∧
      ∀ off n, off ≤ f.content.length → off + n < 2 ^ 32 →
        readi m.img (ilock m.img inum) off n = some ((f.content.drop off).take n) := by
  intro f hf
  obtain ⟨j, hj, rfl⟩ := List.getElem_of_mem hf
  obtain ⟨B, ind, m0, hm⟩ := exists_made hfew h
  have hc := mkfs_checked h
  have hfree := hm.built.freeinode
  have hlive : Live m0 (j + 2) := ⟨by omega, by omega⟩
  have hne : j + 2 ≠ ROOTINO := by
    show j + 2 ≠ 1
    omega
  have h200 : j + 2 < NINODES := lt_of_lt_of_le hlive.2 hm.built.ok.few
  have hcontent : contentOf files (j + 2) = files[j].content := by
    unfold contentOf
    rw [if_neg hne, Nat.add_sub_cancel, List.getElem?_eq_getElem hj]
    rfl
  have hsize : (dinodeOf m.img (j + 2)).size = files[j].content.length := by
    rw [hm.size hlive hne, hcontent]
  have hlt : files[j].content.length < 2 ^ 32 := by
    have hlt := hm.content_lt hlive
    rwa [hcontent] at hlt
  have hroot : (dinodeOf m.img ROOTINO).type = T_DIR :=
    (hm.type (by decide)).trans (hm.built.ok.type _ hm.root_live)
  refine ⟨j + 2, ?_, ?_, ?_, fun off n hoff hn32 => ?_⟩
  · -- the path is the root directory, then the name
    have hskip := skipelem_root (hc _ hf) (hn.nonempty _ hf)
    have hlook := hm.dirlookup hc hn hj
    have hnone : skipelem [] = none := rfl
    unfold namei
    rw [List.headD_cons, if_pos rfl, List.length_cons, namexLoop, hskip]
    dsimp only
    rw [hm.ilock_eq, hroot, if_neg (by decide), if_neg (by decide), hlook]
    show namexLoop m.img _ (j + 2) [] = _
    cases (shortname files[j].path).length with
    | zero => rfl
    | succ n => rw [namexLoop, hnone]
  · rw [hm.ilock_eq, hm.type h200, hm.built.ok.type _ hlive]
    exact if_neg hne
  · rw [hm.ilock_eq, hsize]
  · rw [hm.ilock_eq]
    by_cases hin : off + n ≤ files[j].content.length
    · have hr := hm.readi hlive (by rw [hcontent, hsize]) (n := n)
        (show off + n ≤ (contentOf files _).length by rw [hcontent]; exact hin)
      rw [hcontent] at hr
      exact hr
    · -- the rest of the file
      have hr := hm.readi hlive (by rw [hcontent, hsize])
        (show off + (files[j].content.length - off)
          ≤ (contentOf files _).length by rw [hcontent]; omega)
      rw [readi_clip (by rw [hsize]; exact hoff) hn32 (by rw [hsize]; omega), hsize, hr, hcontent]
      refine congrArg some ?_
      rw [List.take_of_length_le (by rw [List.length_drop]), List.take_of_length_le
        (by rw [List.length_drop]; omega)]

set_option maxRecDepth 100000 in
theorem image_files_two : ∃ m, mkfs [twoReads] = some m ∧
    ∃ inum, namei m.img 1 [slash, 97] = some (some inum) ∧
      readi m.img (ilock m.img inum) 1 5 = some [105, 10] := by
  have hs : (mkfs [twoReads]).isSome = true := by decide +kernel
  obtain ⟨m, hm⟩ := Option.isSome_iff_exists.mp hs
  have hnamed : Named [twoReads] := by
    refine ⟨fun f hf => ?_, fun f hf => ?_, List.nodup_singleton _⟩
    · rw [List.mem_singleton.mp hf]
      decide
    · rw [List.mem_singleton.mp hf]
      decide
  obtain ⟨inum, hi, -, -, hread⟩ := image_files hm (by decide) hnamed 1 twoReads
    (List.mem_singleton.mpr rfl)
  exact ⟨m, hm, inum, hi, hread 1 5 (by decide) (by decide)⟩

end Xv6.Mkfs
