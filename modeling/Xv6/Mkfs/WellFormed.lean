import Xv6.Mkfs.Build
import Xv6.Mkfs.Kernel

/-!
# Whether the image is well formed

`WellFormed` is what the kernel relies on: the numbers of the inodes are below
`sb.ninodes`, the blocks below the size of a file are there and in the data region, no
block is in two places, and the bitmap has the blocks that are in use.

Two things in `main` are at odds with it. `ialloc` does not look at `NINODES`. And the
size of the root directory is rounded by `(off / BSIZE + 1) * BSIZE`, which is a block
too much when the entries fill their blocks: no block is there.

  > `image_wellFormed`: the image is well formed if and only if there are fewer than
  > `NINODES` inodes and the entries of the root directory do not fill its blocks.
-/

namespace Xv6.Mkfs

open Lib
open Lib.Bytes (get)
open Names (strncpy DIRSIZ Str)

/-! ## What the kernel relies on -/

/-- The inode is one of `sb.ninodes`, and not free. -/
def InUse (img : Nat → Block) (inum : Nat) : Prop :=
  inum < NINODES ∧ (dinodeOf img inum).type ≠ 0

/-- The places of an inode where there is an address. -/
inductive Slot
  | direct (i : Fin NDIRECT)
  | indirect
  | entry (j : Fin NINDIRECT)

def Slot.addr (img : Nat → Block) (d : Dinode) : Slot → Nat
  | .direct i => d.addrs i
  | .indirect => d.addrs NDIRECT
  | .entry j => if d.addrs NDIRECT = 0 then 0 else get (img (d.addrs NDIRECT)) (4 * j) 4

/-- `data[bi / 8] & m` in the block of the bitmap. -/
def marked (f : Block) (b : Nat) : Prop := f (b / 8) &&& (1 <<< UInt8.ofNat (b % 8)) ≠ 0

structure WellFormed (m : Mk) : Prop where
  inodes : ∀ inum, Live m inum → inum < NINODES
  mapped : ∀ inum, InUse m.img inum → ∀ bn,
    bn < ((dinodeOf m.img inum).size + (BSIZE - 1)) / BSIZE →
      ∃ addr, bmap m.img (dinodeOf m.img inum) bn = some addr ∧ nmeta ≤ addr ∧ addr < FSSIZE
  once : ∀ inum inum' (s s' : Slot), InUse m.img inum → InUse m.img inum' →
    s.addr m.img (dinodeOf m.img inum) ≠ 0 →
    s.addr m.img (dinodeOf m.img inum) = s'.addr m.img (dinodeOf m.img inum') →
    inum = inum' ∧ s = s'
  bitmap : ∀ b, b < BPB → (marked (m.img bmapstart) b ↔
    b < nmeta ∨ ∃ inum, ∃ s : Slot, InUse m.img inum ∧ s.addr m.img (dinodeOf m.img inum) = b)

/-- No call of `readi` comes to `balloc`. -/
def ReadsOnly (m : Mk) : Prop :=
  ∀ inum off n, InUse m.img inum → off < 2 ^ 32 → n < 2 ^ 32 →
    (readi m.img (dinodeOf m.img inum) off n).isSome = true

/-! ## Reading -/

/-- The loop comes to its end when the blocks are there. -/
theorem readLoop_isSome {img : Nat → Block} {d : Dinode} :
    ∀ fuel off n, (∀ bn, bn * BSIZE < off + n → ∃ addr, bmap img d bn = some addr) →
      (readLoop img d fuel off n).isSome = true := by
  have hB : BSIZE = 1024 := rfl
  intro fuel
  induction fuel with
  | zero =>
    intro off n _
    rfl
  | succ fuel ih =>
    intro off n h
    unfold readLoop
    by_cases h0 : n = 0
    · rw [if_pos h0]
      rfl
    · obtain ⟨addr, ha⟩ := h (off / BSIZE) (by rw [hB]; omega)
      rw [if_neg h0, ha, Option.bind_some]
      dsimp only
      rw [Option.isSome_map]
      refine ih _ _ fun bn hbn => h bn ?_
      rw [hB] at hbn ⊢
      omega

theorem WellFormed.readsOnly {m : Mk} (hw : WellFormed m) : ReadsOnly m := by
  have hB : BSIZE = 1024 := rfl
  intro inum off n hu hoff hn
  unfold readi
  split
  next => rfl
  next hin =>
    -- the sum does not wrap
    have hsum : (off + n) % 2 ^ 32 = off + n := by omega
    rw [hsum]
    refine readLoop_isSome _ _ _ fun bn hbn => ?_
    have hlt : bn * BSIZE < (dinodeOf m.img inum).size := by
      split at hbn <;> omega
    obtain ⟨addr, ha, -⟩ := hw.mapped inum hu bn (by rw [hB] at hlt ⊢; omega)
    exact ⟨addr, ha⟩

/-! ## The bitmap -/

theorem and_or_distrib (x y z : UInt8) : (x ||| y) &&& z = x &&& z ||| y &&& z := by
  apply UInt8.toNat_inj.mp
  rw [UInt8.toNat_and, UInt8.toNat_or, UInt8.toNat_or, UInt8.toNat_and, UInt8.toNat_and,
    Nat.and_or_distrib_right]

theorem or_bit (x : UInt8) {j k : Nat} (hj : j < 8) (hk : k < 8) :
    (x ||| 1 <<< UInt8.ofNat k) &&& (1 <<< UInt8.ofNat j) ≠ 0 ↔
      x &&& (1 <<< UInt8.ofNat j) ≠ 0 ∨ j = k := by
  have hand : ∀ j k : Fin 8, ((1 : UInt8) <<< UInt8.ofNat k) &&&
    (1 <<< UInt8.ofNat j) ≠ 0 ↔ j = k := by
    decide
  have hjk := hand ⟨j, hj⟩ ⟨k, hk⟩
  rw [Fin.mk.injEq] at hjk
  rw [and_or_distrib, ne_eq, UInt8.or_eq_zero_iff, not_and_or]
  exact or_congr_right hjk

/-- The bits that `balloc` sets. -/
theorem marked_bitmap (used b : Nat) : marked (bitmap used) b ↔ b < used := by
  unfold bitmap
  induction used with
  | zero =>
    have hz : ¬ marked zeroes b := fun h => h (UInt8.zero_and)
    exact ⟨fun h => absurd h hz, fun h => absurd h (Nat.not_lt_zero b)⟩
  | succ used ih =>
    rw [List.range_succ, List.foldl_append, List.foldl_cons, List.foldl_nil]
    generalize (List.range used).foldl _ zeroes = f at ih
    unfold marked at ih ⊢
    by_cases hb : b / 8 = used / 8
    · rw [hb, Function.update_self, or_bit _ (Nat.mod_lt b (by omega)) (Nat.mod_lt used (by omega)),
        ← hb, ih]
      omega
    · rw [Function.update_of_ne hb, ih]
      omega

/-! ## The addresses of a file -/

section Slots

variable {img : Nat → Block} {d : Dinode} {B : List Nat} {ind freeblock : Nat}

/-- The place in the file, of an address that is not that of the block for addresses. -/
def Slot.pos : Slot → Option Nat
  | .direct i => some i
  | .indirect => none
  | .entry j => some (NDIRECT + j)

theorem Slot.pos_inj {s s' : Slot} (h : s.pos = s'.pos) : s = s' := by
  cases s with
  | direct i =>
    cases s' with
    | direct i' => rw [Fin.ext (Option.some.inj h)]
    | indirect => cases h
    | entry j' =>
      have hij : i.val = NDIRECT + j'.val := Option.some.inj h
      have hi := i.isLt
      omega
  | indirect =>
    cases s' with
    | direct i' => cases h
    | indirect => rfl
    | entry j' => cases h
  | entry j =>
    cases s' with
    | direct i' =>
      have hij : NDIRECT + j.val = i'.val := Option.some.inj h
      have hi := i'.isLt
      omega
    | indirect => cases h
    | entry j' => rw [Fin.ext (Nat.add_left_cancel (Option.some.inj h))]

theorem Mapped.addr (hm : Mapped img d B ind) (s : Slot) :
    s.addr img d = s.pos.elim ind fun k => B.getD k 0 := by
  cases s with
  | direct i => exact hm.direct i i.isLt
  | indirect => exact hm.indirect
  | entry j =>
    show (if d.addrs NDIRECT = 0 then 0 else get (img (d.addrs NDIRECT)) (4 * j) 4) =
      B.getD (NDIRECT + j) 0
    rw [hm.indirect]
    by_cases h0 : ind = 0
    · have hle := hm.small h0
      rw [if_pos h0, List.getD_eq_default _ _ (by omega)]
    · rw [if_neg h0, hm.entries h0 j j.isLt]

theorem lt_of_getD_ne {k : Nat} (h : B.getD k 0 ≠ 0) : k < B.length := by
  by_contra hge
  exact h (List.getD_eq_default _ _ (by omega))

/-- An address is that of a block of the file. -/
theorem Mapped.addr_mem (hm : Mapped img d B ind) {s : Slot} (h : s.addr img d ≠ 0) :
    s.addr img d ∈ refs B ind := by
  rw [hm.addr s] at h ⊢
  cases hp : s.pos with
  | none =>
    rw [hp] at h
    exact mem_refs.mpr (.inr ⟨h, rfl⟩)
  | some k =>
    rw [hp] at h
    exact mem_refs.mpr (.inl (getD_mem (lt_of_getD_ne h)))

/-- It is there once. -/
theorem Mapped.addr_inj (hm : Mapped img d B ind) (ho : Owns freeblock B ind) {s s' : Slot}
    (h0 : s.addr img d ≠ 0) (h : s.addr img d = s'.addr img d) : s = s' := by
  have h0' : s'.addr img d ≠ 0 := h ▸ h0
  rw [hm.addr] at h0 h0' h
  rw [hm.addr] at h
  have ho : Owns (⟨img, 0, freeblock⟩ : Mk).freeblock B ind := ho
  have hind : ∀ k, ind ≠ 0 → B.getD k 0 ≠ 0 → ind ≠ B.getD k 0 := fun k hi hk heq =>
    ho.ind_not_mem hi (heq ▸ getD_mem (lt_of_getD_ne hk))
  apply Slot.pos_inj
  cases hp : s.pos with
  | none =>
    cases hp' : s'.pos with
    | none => rfl
    | some k' =>
      rw [hp] at h0 h
      rw [hp'] at h0' h
      exact absurd h (hind k' h0 h0')
  | some k =>
    cases hp' : s'.pos with
    | none =>
      rw [hp] at h0 h
      rw [hp'] at h0' h
      exact absurd h.symm (hind k h0' h0)
    | some k' =>
      rw [hp] at h0 h
      rw [hp'] at h0' h
      rw [getD_inj ho.nodup_data (lt_of_getD_ne h0) (lt_of_getD_ne h0') h]

/-- Every block of the file is there. -/
theorem Mapped.exists_slot (hm : Mapped img d B ind) {b : Nat} (hb : b ∈ refs B ind) :
    ∃ s : Slot, s.addr img d = b := by
  have hNM : MAXFILE = NDIRECT + NINDIRECT := rfl
  have hlen := hm.length
  rcases mem_refs.mp hb with hB | ⟨-, rfl⟩
  · obtain ⟨k, hk, rfl⟩ := List.getElem_of_mem hB
    rw [← List.getD_eq_getElem _ 0 hk]
    by_cases hdir : k < NDIRECT
    · exact ⟨.direct ⟨k, hdir⟩, hm.addr _⟩
    · refine ⟨.entry ⟨k - NDIRECT, by omega⟩, (hm.addr _).trans ?_⟩
      show B.getD (NDIRECT + (k - NDIRECT)) 0 = _
      rw [show NDIRECT + (k - NDIRECT) = k by omega]
  · exact ⟨.indirect, hm.indirect⟩

end Slots

/-! ## The image -/

theorem dirent_length (inum : Nat) (name : Names.Str) : (dirent inum name).length = direntSize := by
  have hn : ∀ n (t : Names.Str), (strncpy t n).length = n := by
    intro n
    induction n with
    | zero => exact fun _ => rfl
    | succ n ih =>
      intro t
      unfold strncpy
      split
      · rw [List.length_replicate]
      · rw [List.length_cons, ih]
  show ([_, _] ++ strncpy name DIRSIZ).length = 16
  rw [List.length_append, hn]
  rfl

theorem rootBytes_length (files : List File) :
    (rootBytes files).length = direntSize * (files.length + 2) := by
  have hsum : ∀ l : List (Nat × Names.Str),
      (l.flatMap fun e => dirent e.1 e.2).length = direntSize * l.length := by
    intro l
    induction l with
    | nil => rfl
    | cons e l ih => rw [List.flatMap_cons, List.length_append, ih, dirent_length, List.length_cons,
        Nat.mul_succ, Nat.add_comm]
  unfold rootBytes
  rw [hsum]
  unfold entries
  rw [List.length_cons, List.length_cons, List.length_map, List.length_zipIdx]

/-- The image that `mkfs` leaves, from the files on it. -/
structure Made (files : List File) (m : Mk) (B : Nat → List Nat) (ind : Nat → Nat) (m0 : Mk) :
    Prop where
  built : Built m0 files B ind
  finished : Finished m0 (rounded (dinodeOf m0.img ROOTINO)) m

theorem exists_made {files : List File} {m : Mk} (hfew : files.length + 1 < NINODES)
    (h : mkfs files = some m) : ∃ B ind m0, Made files m B ind m0 := by
  have hN : NINODES = 200 := rfl
  have hB : BSIZE = 1024 := rfl
  have h16 : direntSize = 16 := rfl
  obtain ⟨m0, B, ind, hb, hf⟩ := build_spec hfew h
  have hroot : Live m0 ROOTINO := ⟨le_rfl, by have hn := hb.freeinode; show 1 < _; omega⟩
  have hsize : (dinodeOf m0.img ROOTINO).size = (rootBytes files).length :=
    (hb.ok.file _ hroot).size
  rw [rootBytes_length, h16] at hsize
  refine ⟨B, ind, m0, hb, finish_spec ?_ hf⟩
  show ((dinodeOf m0.img ROOTINO).size / BSIZE + 1) * BSIZE < 256 ^ 4
  rw [hB]
  omega

section Made

variable {files : List File} {m m0 : Mk} {B : Nat → List Nat} {ind : Nat → Nat}

theorem Made.live_iff (hm : Made files m B ind m0) (i : Nat) : Live m i ↔ Live m0 i := by
  unfold Live
  rw [hm.finished.freeinode]

theorem Made.root_live (hm : Made files m B ind m0) : Live m0 ROOTINO := by
  have hn := hm.built.freeinode
  refine ⟨le_rfl, ?_⟩
  show 1 < _
  omega

/-- Every file has its blocks. -/
theorem Made.mapped (hm : Made files m B ind m0) {i : Nat} (hi : Live m0 i) :
    Mapped m.img (dinodeOf m.img i) (B i) (ind i) := by
  have hin := hm.built.ok.inBlocks hi
  have hmap := (hm.built.ok.file i hi).mapped
  have ho := hm.built.ok.owns i hi
  refine hmap.congr (m := m0) (fun h0 => ?_) fun k hk => ?_
  · exact hm.finished.data _ (ho.data _ (mem_refs.mpr (.inr ⟨h0, rfl⟩))).1
  · by_cases h1 : i = ROOTINO
    · rw [h1]
      exact hm.finished.root.addrs k hk
    · exact (hm.finished.other i hin h1).addrs k hk

theorem Made.size (hm : Made files m B ind m0) {i : Nat} (hi : Live m0 i) (h1 : i ≠ ROOTINO) :
    (dinodeOf m.img i).size = (contentOf files i).length :=
  (hm.finished.other i (hm.built.ok.inBlocks hi) h1).size.trans (hm.built.ok.file i hi).size

theorem Made.root_size (hm : Made files m B ind m0) :
    (dinodeOf m.img ROOTINO).size = (direntSize * (files.length + 2) / BSIZE + 1) * BSIZE := by
  have hsize : (dinodeOf m0.img ROOTINO).size = (rootBytes files).length :=
    (hm.built.ok.file _ hm.root_live).size
  rw [rootBytes_length] at hsize
  rw [← hsize]
  exact hm.finished.root.size

theorem Made.type (hm : Made files m B ind m0) {i : Nat} (hi : i < NINODES) :
    (dinodeOf m.img i).type = (dinodeOf m0.img i).type := by
  by_cases h1 : i = ROOTINO
  · rw [h1]
    exact hm.finished.root.type
  · exact (hm.finished.other i (inBlocks_of_lt hi) h1).type

/-- The inodes in use are those that were given out. -/
theorem Made.inUse_iff (hm : Made files m B ind m0) (i : Nat) : InUse m.img i ↔ Live m0 i := by
  have hf := hm.built.ok
  constructor
  · intro hu
    by_contra hl
    exact hu.2 ((hm.type hu.1).trans (hf.free i hu.1 hl))
  · intro hl
    have h200 : i < NINODES := lt_of_lt_of_le hl.2 hf.few
    refine ⟨h200, ?_⟩
    rw [hm.type h200, hf.type i hl]
    unfold typeOf
    split
    · exact Nat.one_ne_zero
    · exact Nat.succ_ne_zero 1

/-- The blocks of the root directory are as many as its entries need. -/
theorem Made.root_blocks (hm : Made files m B ind m0) :
    (B ROOTINO).length = (direntSize * (files.length + 2) + (BSIZE - 1)) / BSIZE := by
  rw [← rootBytes_length]
  exact (hm.built.ok.file _ hm.root_live).length

/-- **The root directory's last block**: it is there if the entries do not fill the blocks
before it. -/
theorem Made.root_iff (hm : Made files m B ind m0) :
    (∃ addr, bmap m.img (dinodeOf m.img ROOTINO) (direntSize * (files.length + 2) / BSIZE) =
      some addr) ↔
      (files.length + 2) % (BSIZE / direntSize) ≠ 0 := by
  have hB : BSIZE = 1024 := rfl
  have h16 : direntSize = 16 := rfl
  have hN : NINODES = 200 := rfl
  have hlen := hm.root_blocks
  have hmap := hm.mapped hm.root_live
  have ho := hm.built.ok.owns _ hm.root_live
  have hn := hm.built.freeinode
  have hfew := hm.built.ok.few
  rw [hB, h16] at hlen ⊢
  constructor
  · rintro ⟨addr, ha⟩ hz
    -- the block is after the last one
    have hdir : 16 * (files.length + 2) / 1024 < NDIRECT := by
      show _ < 12
      omega
    unfold bmap at ha
    rw [if_pos hdir, hmap.direct _ hdir, List.getD_eq_default _ _ (by omega)] at ha
    cases ha
  · intro hz
    exact ⟨_, bmap_spec hmap ho (by omega)⟩

theorem Made.wellFormed (hm : Made files m B ind m0)
    (hz : (files.length + 2) % (BSIZE / direntSize) ≠ 0) : WellFormed m := by
  have hf := hm.built.ok
  have hB : BSIZE = 1024 := rfl
  have h16 : direntSize = 16 := rfl
  refine ⟨fun i hi => ?_, fun i hu bn hbn => ?_, fun i i' s s' hu hu' h0 heq => ?_, fun b hb => ?_⟩
  · exact lt_of_lt_of_le ((hm.live_iff i).mp hi).2 hf.few
  · have hi := (hm.inUse_iff i).mp hu
    have ho := hf.owns i hi
    have hlt : bn < (B i).length := by
      by_cases h1 : i = ROOTINO
      · have hlen := hm.root_blocks
        rw [h1, hm.root_size, hB, h16] at hbn
        rw [h1]
        rw [hB, h16] at hlen hz
        omega
      · rw [hm.size hi h1] at hbn
        rw [(hf.file i hi).length]
        exact hbn
    have hdata := ho.data _ (mem_refs.mpr (.inl (getD_mem hlt)))
    exact ⟨_, bmap_spec (hm.mapped hi) ho hlt, hdata.1, hdata.2.trans_le hf.room.hi⟩
  · have hi := (hm.inUse_iff i).mp hu
    have hi' := (hm.inUse_iff i').mp hu'
    have hmem := (hm.mapped hi).addr_mem h0
    have hmem' := (hm.mapped hi').addr_mem (heq ▸ h0)
    have hii : i = i' := hf.apart i i' _ hi hi' hmem (heq ▸ hmem')
    rw [← hii] at heq
    exact ⟨hii, (hm.mapped hi).addr_inj (hf.owns i hi) h0 heq⟩
  · rw [hm.finished.bitmap, marked_bitmap]
    constructor
    · intro hlt
      by_cases hmeta : b < nmeta
      · exact .inl hmeta
      · obtain ⟨i, hi, hmem⟩ := hf.all b (by omega) hlt
        obtain ⟨s, hs⟩ := (hm.mapped hi).exists_slot hmem
        exact .inr ⟨i, s, (hm.inUse_iff i).mpr hi, hs⟩
    · rintro (hmeta | ⟨i, s, hu, hs⟩)
      · exact hmeta.trans_le hf.room.lo
      · have hi := (hm.inUse_iff i).mp hu
        by_cases h0 : b = 0
        · have hlo : 47 ≤ m0.freeblock := hf.room.lo
          omega
        · have hmem := (hm.mapped hi).addr_mem (s := s) (hs ▸ h0)
          rw [hs] at hmem
          exact ((hf.owns i hi).data b hmem).2

/-- A root directory that needs the block that is not there. -/
theorem Made.mapped_root (hm : Made files m B ind m0) (hw : WellFormed m) :
    (files.length + 2) % (BSIZE / direntSize) ≠ 0 := by
  have hB : BSIZE = 1024 := rfl
  refine hm.root_iff.mp ?_
  have hbn := hm.root_size
  obtain ⟨addr, ha, -⟩ := hw.mapped ROOTINO ((hm.inUse_iff _).mpr hm.root_live)
    (direntSize * (files.length + 2) / BSIZE) (by rw [hbn, hB]; omega)
  exact ⟨addr, ha⟩

end Made

theorem WellFormed.few {files : List File} {m : Mk} (h : mkfs files = some m) (hw : WellFormed m) :
    files.length + 1 < NINODES := by
  have hn := mkfs_freeinode h
  exact hw.inodes (files.length + 1) ⟨by omega, by omega⟩

/-- **Well-formed images**: with fewer than `NINODES` inodes, and a last block of the root
directory that is not full. -/
theorem image_wellFormed {files : List File} {m : Mk} (h : mkfs files = some m) :
    (WellFormed m ∧ ReadsOnly m) ↔
      files.length + 1 < NINODES ∧ (files.length + 2) % (BSIZE / direntSize) ≠ 0 := by
  constructor
  · rintro ⟨hw, -⟩
    have hfew := hw.few h
    obtain ⟨B, ind, m0, hm⟩ := exists_made hfew h
    exact ⟨hfew, hm.mapped_root hw⟩
  · rintro ⟨hfew, hz⟩
    obtain ⟨B, ind, m0, hm⟩ := exists_made hfew h
    have hw := hm.wellFormed hz
    exact ⟨hw, hw.readsOnly⟩

theorem twoReads_nul : (0 : UInt8) ∉ ([97] : Str) := by decide

theorem twoReads_sized (r : List UInt8) (hr : r ∈ ([[104, 105], [10]] : List (List UInt8))) :
    1 ≤ r.length ∧ r.length ≤ BSIZE := by
  rcases List.mem_cons.mp hr with rfl | hr
  · exact ⟨by decide, by decide⟩
  · rw [List.mem_singleton.mp hr]
    exact ⟨by decide, by decide⟩

/-- A file `a` of two reads. -/
def twoReads : File := ⟨[97], [[104, 105], [10]], twoReads_nul, twoReads_sized⟩

set_option maxRecDepth 100000 in
theorem image_wellFormed_reads :
    ∃ m, mkfs [twoReads] = some m ∧ WellFormed m ∧ ReadsOnly m := by
  have hs : (mkfs [twoReads]).isSome = true := by decide +kernel
  obtain ⟨m, hm⟩ := Option.isSome_iff_exists.mp hs
  exact ⟨m, hm, (image_wellFormed hm).mpr ⟨by decide, by decide⟩⟩

/-- An empty file called `a`. -/
def empty : File := ⟨[97], [], by decide, fun _ h => absurd h (List.not_mem_nil)⟩

set_option maxRecDepth 100000 in
/-- 62 files and the two entries of `main` are 64 entries, which fill a block. -/
theorem image_not_wellFormed :
    ∃ m, mkfs (List.replicate 62 empty) = some m ∧ ¬ WellFormed m := by
  have hs : (mkfs (List.replicate 62 empty)).isSome = true := by decide +kernel
  obtain ⟨m, hm⟩ := Option.isSome_iff_exists.mp hs
  refine ⟨m, hm, fun hw => ?_⟩
  obtain ⟨B, ind, m0, hmade⟩ := exists_made (hw.few hm) hm
  have hroot := hmade.mapped_root hw
  rw [List.length_replicate] at hroot
  exact hroot rfl

end Xv6.Mkfs
