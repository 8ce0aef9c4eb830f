import Xv6.Files.Bmap

/-!
# Inodes on the disk

`iupdate` makes the inode on the disk that in memory (`iupdate_wp`), and no other
inode, block of data or bit is touched.
-/

namespace Xv6.Files

open Lib
open Mkfs (Block Dinode Superblock dinodeAt setDinode dinodeOff dinodeSize IPB BSIZE NDIRECT)

variable {sb : Superblock} {pick : Nat → Option Nat} {s s' : Fs} {ip : Nat} {E : Panic → Fs → Prop}
  {V V' : Nat → Block}

/-- Inode `i` on the disk, as it is seen. -/
def onDisk (sb : Superblock) (V : Nat → Block) (i : Nat) : Dinode :=
  dinodeAt (V (IBLOCK sb i)) (dinodeOff i)

def setOnDisk (sb : Superblock) (V : Nat → Block) (i : Nat) (d : Dinode) : Nat → Block :=
  Function.update V (IBLOCK sb i) (setDinode (V (IBLOCK sb i)) (dinodeOff i) d)

theorem onDisk_self {i : Nat} {d : Dinode} (h : d.Fits) :
    (onDisk sb (setOnDisk sb V i d) i).Same d := by
  unfold onDisk setOnDisk
  rw [Function.update_self]
  exact Mkfs.dinodeAt_setDinode _ _ h

theorem Same.refl (d : Dinode) : d.Same d := ⟨rfl, rfl, rfl, rfl, rfl, fun _ _ => rfl⟩

theorem onDisk_ne {i j : Nat} {d : Dinode} (h : j ≠ i) :
    (onDisk sb (setOnDisk sb V i d) j).Same (onDisk sb V j) := by
  unfold onDisk setOnDisk
  by_cases hb : IBLOCK sb j = IBLOCK sb i
  · rw [hb, Function.update_self]
    refine Mkfs.dinodeAt_congr fun k hk => Mkfs.setDinode_of_out _ d ?_
    have hb' : j / 16 + sb.inodestart = i / 16 + sb.inodestart := hb
    have hk : k < 64 := hk
    show j % 16 * 64 + k < i % 16 * 64 ∨ i % 16 * 64 + 64 ≤ j % 16 * 64 + k
    omega
  · rw [Function.update_of_ne hb]
    exact Same.refl _

theorem onDisk_congr {i : Nat} (h : V' (IBLOCK sb i) = V (IBLOCK sb i)) :
    onDisk sb V' i = onDisk sb V i := by
  unfold onDisk
  rw [h]

theorem iupdate_wp {Q : PUnit → Fs → Prop} (hc : Coherent s) (hh : IBLOCK sb ip ∉ s.held)
    (h : ∀ s', Wrote s s' (setOnDisk sb s.view ip (s.ino ip)) s.ino [IBLOCK sb ip] →
      s'.held = s.held →
      Q ⟨⟩ s') :
    wp (iupdate sb pick ip) Q E s := by
  unfold iupdate
  rw [wp_bind]
  refine bread_wp hc hh fun s₁ hw hh₁ => ?_
  rw [wp_bind, wp_get]
  refine logged_wp (f := fun data => setDinode data (dinodeOff ip) (s₁.ino ip)) hw.coherent
    (by rw [hh₁]; exact List.mem_cons_self) fun s₂ hw₂ hh₂ => ?_
  rw [hw.view, hw.ino] at hw₂
  exact h s₂ (hw.trans hw₂) (by rw [hh₂, hh₁, List.erase_cons_head])

/-! ## The blocks of data do not notice -/

/-- A store to a block with inodes leaves the owners. -/
theorem owner_setOnDisk (hl : Layout sb) {I : Nat → Dinode}
    (ho : Owned sb V (owner sb V I)) {i : Nat}
    (hi : i < sb.ninodes) (d : Dinode) : owner sb (setOnDisk sb V i d) I = owner sb V I := by
  funext p
  obtain ⟨j, σ⟩ := p
  unfold owner
  dsimp only
  by_cases hj : Live sb I j
  · rw [if_pos hj, if_pos hj, addr_congr σ (fun _ _ => rfl) fun hz => ?_]
    exact Function.update_of_ne
      (fun he => hl.not_inode (ho.addr_data (σ := .indirect) hj hz) hi he.symm) _ _
  · rw [if_neg hj, if_neg hj]

theorem setOnDisk_bitmap (hl : Layout sb) {i : Nat} (hi : i < sb.ninodes) (d : Dinode) {c : Nat}
    (hc : Bitmap sb c) : setOnDisk sb V i d c = V c := by
  obtain ⟨b, -, rfl⟩ := hc
  exact Function.update_of_ne (fun he => hl.inode_ne hi b he.symm) _ _

theorem setOnDisk_data (hl : Layout sb) {i : Nat} (hi : i < sb.ninodes) (d : Dinode) {c : Nat}
    (hc : Data sb c) : setOnDisk sb V i d c = V c :=
  Function.update_of_ne (fun he => hl.not_inode hc hi he.symm) _ _

theorem Owned.setOnDisk (hl : Layout sb) {I : Nat → Dinode}
    (ho : Owned sb V (owner sb V I)) {i : Nat}
    (hi : i < sb.ninodes) (d : Dinode) :
    Owned sb (setOnDisk sb V i d) (owner sb (Files.setOnDisk sb V i d) I) := by
  rw [owner_setOnDisk hl ho hi d]
  exact ho.view fun c hc => setOnDisk_bitmap hl hi d hc

/-- The addresses of inodes in use fit their fields. -/
theorem Owned.fits (hl : Layout sb) {I : Nat → Dinode} (ho : Owned sb V (owner sb V I))
    (hi : Live sb I ip)
    {i : Nat} (hle : i ≤ NDIRECT) : (I ip).addrs i < 256 ^ 4 := by
  by_cases h0 : (I ip).addrs i = 0
  · rw [h0]
    decide
  · have hd := ho.addr_data (σ := addrSlot i) hi (by rw [addrSlot_addr hle]; exact h0)
    rw [addrSlot_addr hle] at hd
    have h1 := hd.2
    have h2 := hl.size
    omega

end Xv6.Files
