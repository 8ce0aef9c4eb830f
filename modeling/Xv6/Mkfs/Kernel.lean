import Xv6.Mkfs.Append

/-!
# What the kernel reads

`fsinit`, `ilock`, `bmap`, `readi`, `dirlookup` and `namex` on an image that nothing was
written to since. `none` stands for what is not reading: the call of `balloc` in
`bmap`, and a panic. The destination of `readi` is in the kernel, so that the copy does
not fail. Offsets are 32 bits.

The loop of `readi` returns the bytes of the file when the inode has the file's blocks
(`readLoop_spec`).
-/

namespace Xv6.Mkfs

open Lib
open Lib.Bytes (get)
open Names (Str slash namecmp skipelem)

/-! ## Inodes -/

/-- `struct superblock`, as `readsb` gets it. -/
structure Superblock where
  magic : Nat
  size : Nat
  nblocks : Nat
  ninodes : Nat
  nlog : Nat
  logstart : Nat
  inodestart : Nat
  bmapstart : Nat

def readsb (img : Nat → Block) : Superblock :=
  ⟨get (img 1) 0 4, get (img 1) 4 4, get (img 1) 8 4, get (img 1) 12 4, get (img 1) 16 4,
    get (img 1) 20 4, get (img 1) 24 4, get (img 1) 28 4⟩

/-- What `ilock` reads. -/
def ilock (img : Nat → Block) (inum : Nat) : Dinode :=
  dinodeAt (img (inum / IPB + (readsb img).inodestart)) (dinodeOff inum)

/-- An address, unless it is 0. -/
def nonzero (addr : Nat) : Option Nat := if addr = 0 then none else some addr

def bmap (img : Nat → Block) (ip : Dinode) (bn : Nat) : Option Nat :=
  if bn < NDIRECT then nonzero (ip.addrs bn)
  else if bn - NDIRECT < NINDIRECT then
    (nonzero (ip.addrs NDIRECT)).bind fun addr => nonzero (get (img addr) (4 * (bn - NDIRECT)) 4)
  else none

/-- The loop of `readi`; a turn reads at least a byte. -/
def readLoop (img : Nat → Block) (ip : Dinode) : Nat → Nat → Nat → Option (List UInt8)
  | 0, _, _ => some []
  | fuel + 1, off, n =>
    if n = 0 then some []
    else
      (bmap img ip (off / BSIZE)).bind fun addr =>
        let m := min n (BSIZE - off % BSIZE)
        (readLoop img ip fuel (off + m) (n - m)).map fun rest =>
          (List.range m).map (fun k => img addr (off % BSIZE + k)) ++ rest

/-- The bytes that `readi` copies; it returns how many they are. -/
def readi (img : Nat → Block) (ip : Dinode) (off n : Nat) : Option (List UInt8) :=
  if ip.size < off ∨ (off + n) % 2 ^ 32 < off then some []
  else
    let n := if ip.size < (off + n) % 2 ^ 32 then ip.size - off else n
    readLoop img ip n off n

/-! ## Directories -/

/-- The loop of `dirlookup`. -/
def dirLoop (img : Nat → Block) (dp : Dinode) (name : Str) : Nat → Nat → Option (Option Nat)
  | 0, _ => some none
  | fuel + 1, off =>
    if off < dp.size then
      (readi img dp off direntSize).bind fun de =>
        if de.length = direntSize then
          let inum := (de.getD 0 0).toNat + (de.getD 1 0).toNat * 256
          if inum = 0 then dirLoop img dp name fuel (off + direntSize)
          else if namecmp name (de.drop 2) = 0 then some (some inum)
          else dirLoop img dp name fuel (off + direntSize)
        else none
    else some none

def dirlookup (img : Nat → Block) (dp : Dinode) (name : Str) : Option (Option Nat) :=
  if dp.type = T_DIR then dirLoop img dp name (dp.size / direntSize + 1) 0 else none

/-- The loop of `namex`, with `nameiparent` 0. An inode of type 0 is a panic in `ilock`. -/
def namexLoop (img : Nat → Block) : Nat → Nat → Str → Option (Option Nat)
  | 0, ip, _ => some (some ip)
  | fuel + 1, ip, path =>
    match skipelem path with
    | none => some (some ip)
    | some (name, path) =>
      if (ilock img ip).type = 0 then none
      else if (ilock img ip).type ≠ T_DIR then some none
      else
        (dirlookup img (ilock img ip) name).bind fun
          | none => some none
          | some next => namexLoop img fuel next path

/-- `namei`, in a process with this `cwd`; every turn of the loop takes a byte of the path
at least. -/
def namei (img : Nat → Block) (cwd : Nat) (path : Str) : Option (Option Nat) :=
  namexLoop img path.length (if path.headD 0 = slash then ROOTINO else cwd) path

/-! ## The bytes of a file -/

theorem nonzero_eq {a : Nat} (h : a ≠ 0) : nonzero a = some a := if_neg h

/-- `bmap` finds the blocks of a file. -/
theorem bmap_spec {img : Nat → Block} {d : Dinode} {B : List Nat} {ind freeblock bn : Nat}
    (hm : Mapped img d B ind) (ho : Owns freeblock B ind) (hbn : bn < B.length) :
    bmap img d bn = some (B.getD bn 0) := by
  have hNM : MAXFILE = NDIRECT + NINDIRECT := rfl
  have hlen := hm.length
  have h0 : B.getD bn 0 ≠ 0 := Owns.ne_zero (m := ⟨img, 0, freeblock⟩) ho hbn
  unfold bmap
  by_cases hdir : bn < NDIRECT
  · rw [if_pos hdir, hm.direct bn hdir, nonzero_eq h0]
  · have hind : ind ≠ 0 := fun hz => by
      have hle := hm.small hz
      omega
    rw [if_neg hdir, if_pos (by omega), hm.indirect, nonzero_eq hind, Option.bind_some,
      hm.entries hind _ (by omega), show NDIRECT + (bn - NDIRECT) = bn by omega, nonzero_eq h0]

/-- The bytes of a turn. -/
theorem range_map_eq_take_drop {img : Nat → Block} {B : List Nat} {c : List UInt8} {off m : Nat}
    (hs : Stored img B c) (hoff : off + m ≤ c.length) (hc : c.length ≤ BSIZE * B.length)
    (hm : off % BSIZE + m ≤ BSIZE) :
    (List.range m).map (fun k => img (B.getD (off / BSIZE) 0) (off % BSIZE + k))
      = (c.drop off).take m := by
  have hB : BSIZE = 1024 := rfl
  apply List.ext_getElem
  · rw [List.length_map, List.length_range, List.length_take, List.length_drop]
    omega
  · intro k hk hk'
    rw [List.length_map, List.length_range] at hk
    rw [List.getElem_map, List.getElem_range, List.getElem_take, List.getElem_drop]
    have hst := hs (off + k) (by omega)
    rw [hB] at hm hst ⊢
    rw [show (off + k) / 1024 = off / 1024 by omega, show (off + k) % 1024 =
      off % 1024 + k by omega,
      List.getD_eq_getElem c _ (by omega)] at hst
    exact hst

/-- **The loop of `readi`**: by induction on its turns. -/
theorem readLoop_spec {img : Nat → Block} {d : Dinode} {B : List Nat} {ind freeblock : Nat}
    {c : List UInt8} (hm : Mapped img d B ind) (ho : Owns freeblock B ind) (hs : Stored img B c)
    (hc : c.length ≤ BSIZE * B.length) :
    ∀ fuel off n, n ≤ fuel → off + n ≤ c.length →
      readLoop img d fuel off n = some ((c.drop off).take n) := by
  have hB : BSIZE = 1024 := rfl
  intro fuel
  induction fuel with
  | zero =>
    intro off n hn _
    cases Nat.le_zero.mp hn
    rw [List.take_zero]
    rfl
  | succ fuel ih =>
    intro off n hn hoff
    unfold readLoop
    by_cases h0 : n = 0
    · rw [if_pos h0, h0, List.take_zero]
    · have hbn : off / BSIZE < B.length := by
        rw [hB] at hc ⊢
        omega
      rw [if_neg h0, bmap_spec hm ho hbn, Option.bind_some]
      dsimp only
      generalize hk : min n (BSIZE - off % BSIZE) = k
      have hkn : k ≤ n ∧ 0 < k ∧ off % BSIZE + k ≤ BSIZE := by
        rw [hB] at hk ⊢
        omega
      rw [ih (off + k) (n - k) (by omega) (by omega), Option.map_some,
        range_map_eq_take_drop hs (by omega) hc hkn.2.2, ← List.drop_drop]
      congr 1
      rw [← List.take_add, show k + (n - k) = n by omega]

/-- `readi` inside the bytes of a file. -/
theorem readi_spec {img : Nat → Block} {d : Dinode} {B : List Nat} {ind freeblock : Nat}
    {c : List UInt8} (hm : Mapped img d B ind) (ho : Owns freeblock B ind) (hs : Stored img B c)
    (hc : c.length ≤ BSIZE * B.length) {off n : Nat} (hsize : c.length ≤ d.size)
    (hoff : off + n ≤ c.length) (hlt : c.length < 2 ^ 32) :
    readi img d off n = some ((c.drop off).take n) := by
  unfold readi
  rw [Nat.mod_eq_of_lt (by omega), if_neg (by omega)]
  dsimp only
  rw [if_neg (by omega)]
  exact readLoop_spec hm ho hs hc n off n le_rfl hoff

end Xv6.Mkfs
