import Xv6.Lib.Bytes
import Xv6.Names.Basic

/-!
# `mkfs.c`

The image as `mkfs` writes it: blocks of bytes, changed by `wsect` only. A
`struct dinode` and a `struct dirent` are the bytes they have on disk; the host is
little-endian, so `xshort` and `xint` do nothing to the values here. `main` takes the
files as their paths and what the calls of `read` return for them.

`none` is an end other than `exit(0)`: an `assert` that fails, or `die`. `die` comes
from `rsect` on a block that is not in the image, which has `FSSIZE` blocks from the
beginning on: nothing is written where nothing was read before. A sector number is
multiplied by `BSIZE` in 32 bits.
-/

namespace Xv6.Mkfs

open Lib
open Lib.Bytes (put blit)
open Names (Str slash strncmp strncpy dot dotdot DIRSIZ)

def BSIZE : Nat := 1024
def NDIRECT : Nat := 12
def NINDIRECT : Nat := 256
def MAXFILE : Nat := NDIRECT + NINDIRECT
def NINODES : Nat := 200
def FSSIZE : Nat := 2000
def LOGBLOCKS : Nat := 30
def FSMAGIC : Nat := 0x10203040
def ROOTINO : Nat := 1
def T_DIR : Nat := 1
def T_FILE : Nat := 2

/-- `sizeof(struct dinode)`. -/
def dinodeSize : Nat := 64

/-- `sizeof(struct dirent)`. -/
def direntSize : Nat := 16

def IPB : Nat := BSIZE / dinodeSize
def BPB : Nat := BSIZE * 8
def nbitmap : Nat := FSSIZE / BPB + 1
def ninodeblocks : Nat := NINODES / IPB + 1
def nlog : Nat := LOGBLOCKS + 1
def nmeta : Nat := 2 + nlog + ninodeblocks + nbitmap
def nblocks : Nat := FSSIZE - nmeta
def inodestart : Nat := 2 + nlog
def bmapstart : Nat := 2 + nlog + ninodeblocks

abbrev Block := Nat → UInt8

def zeroes : Block := fun _ => 0

/-- `struct dinode`; the first `NDIRECT + 1` of `addrs` are there. -/
structure Dinode where
  type : Nat
  major : Nat
  minor : Nat
  nlink : Nat
  size : Nat
  addrs : Nat → Nat

/-- The `struct dinode` at offset `o`. -/
def dinodeAt (f : Block) (o : Nat) : Dinode :=
  ⟨Bytes.get f o 2, Bytes.get f (o + 2) 2, Bytes.get f (o + 4) 2, Bytes.get f (o + 6) 2,
    Bytes.get f (o + 8) 4, fun i => Bytes.get f (o + 12 + 4 * i) 4⟩

/-- `*dip = *ip`, at offset `o`. -/
def setDinode (f : Block) (o : Nat) (d : Dinode) : Block :=
  (List.range (NDIRECT + 1)).foldl (fun f i => put f (o + 12 + 4 * i) 4 (d.addrs i))
    (put (put (put (put (put f o 2 d.type) (o + 2) 2 d.major) (o + 4) 2 d.minor) (o + 6) 2 d.nlink)
      (o + 8) 4 d.size)

/-- The image, and the globals. -/
structure Mk where
  img : Nat → Block
  freeinode : Nat
  freeblock : Nat

/-- Where `lseek(fsfd, sec * BSIZE, 0)` goes to. -/
def seek (sec : Nat) : Nat := sec * BSIZE % 2 ^ 32 / BSIZE

def wsect (m : Mk) (sec : Nat) (buf : Block) : Mk :=
  { m with img := Function.update m.img (seek sec) buf }

def rsect (m : Mk) (sec : Nat) : Option Block :=
  if seek sec < FSSIZE then some (m.img (seek sec)) else none

/-- `IBLOCK(inum, sb)`. -/
def IBLOCK (inum : Nat) : Nat := inum / IPB + inodestart

/-- Where in its block a `struct dinode` is. -/
def dinodeOff (inum : Nat) : Nat := inum % IPB * dinodeSize

def winode (m : Mk) (inum : Nat) (ip : Dinode) : Option Mk :=
  (rsect m (IBLOCK inum)).map fun buf => wsect m (IBLOCK inum) (setDinode buf (dinodeOff inum) ip)

def rinode (m : Mk) (inum : Nat) : Option Dinode :=
  (rsect m (IBLOCK inum)).map fun buf => dinodeAt buf (dinodeOff inum)

def ialloc (m : Mk) (type : Nat) : Option (Mk × Nat) :=
  (winode { m with freeinode := m.freeinode + 1 } m.freeinode ⟨type, 0, 0, 1, 0, fun _ => 0⟩).map
    fun m' => (m', m.freeinode)

/-- The loop of `balloc(used)`. -/
def bitmap (used : Nat) : Block :=
  (List.range used).foldl
    (fun buf i => Function.update buf (i / 8) (buf (i / 8) ||| (1 <<< UInt8.ofNat (i % 8)))) zeroes

def balloc (m : Mk) (used : Nat) : Option Mk :=
  if used < BPB then some (wsect m bmapstart (bitmap used)) else none

/-- `if(xint(din.addrs[i]) == 0) din.addrs[i] = xint(freeblock++);` -/
def addr (m : Mk) (din : Dinode) (i : Nat) : Mk × Dinode :=
  if din.addrs i = 0 then
    ({ m with freeblock := m.freeblock + 1 },
      { din with addrs := Function.update din.addrs i m.freeblock })
  else (m, din)

/-- The block `x` of a turn of `iappend`. -/
def blockOf (m : Mk) (din : Dinode) (fbn : Nat) : Option (Mk × Dinode × Nat) :=
  if fbn < NDIRECT then
    let r := addr m din fbn
    some (r.1, r.2, r.2.addrs fbn)
  else
    let r := addr m din NDIRECT
    (rsect r.1 (r.2.addrs NDIRECT)).map fun indirect =>
      let o := 4 * (fbn - NDIRECT)
      if Bytes.get indirect o 4 = 0 then
        let indirect := put indirect o 4 r.1.freeblock
        (wsect { r.1 with freeblock := r.1.freeblock + 1 } (r.2.addrs NDIRECT) indirect, r.2,
          Bytes.get indirect o 4)
      else (r.1, r.2, Bytes.get indirect o 4)

/-- The loop of `iappend`, with `off` in `din.size`; every turn appends at least a byte, so
there are at most as many as there are bytes. -/
def appendLoop : Nat → Mk → Dinode → List UInt8 → Option (Mk × Dinode)
  | 0, m, din, _ => some (m, din)
  | fuel + 1, m, din, p =>
    if p = [] then some (m, din)
    else
      let off := din.size
      let fbn := off / BSIZE
      if fbn < MAXFILE then
        (blockOf m din fbn).bind fun r =>
          let n1 := min p.length ((fbn + 1) * BSIZE - off)
          (rsect r.1 r.2.2).bind fun buf =>
            appendLoop fuel (wsect r.1 r.2.2 (blit buf (off - fbn * BSIZE) (p.take n1)))
              { r.2.1 with size := off + n1 } (p.drop n1)
      else none

def iappend (m : Mk) (inum : Nat) (p : List UInt8) : Option Mk :=
  (rinode m inum).bind fun din =>
    (appendLoop p.length m din p).bind fun r => winode r.1 inum r.2

/-- A `struct dirent`: `de.inum = xshort(inum)` and `strncpy(de.name, name, DIRSIZ)`. -/
def dirent (inum : Nat) (name : Str) : List UInt8 :=
  [Bytes.le inum 0, Bytes.le inum 1] ++ strncpy name DIRSIZ

/-- An input file: its path, a C string, and what `read(fd, buf, sizeof(buf))` returns
until it returns 0. -/
structure File where
  path : Str
  reads : List (List UInt8)
  nul : 0 ∉ path
  sized : ∀ r, r ∈ reads → 1 ≤ r.length ∧ r.length ≤ BSIZE

def File.content (f : File) : List UInt8 := f.reads.flatten

/-- `"user/"`. -/
def userPrefix : Str := [117, 115, 101, 114, 47]

def underscore : UInt8 := 95

/-- `shortname`, before the `_` is skipped. -/
def basename (path : Str) : Str := if strncmp path userPrefix 5 = 0 then path.drop 5 else path

def shortname (path : Str) : Str :=
  if (basename path).headD 0 = underscore then (basename path).tail else basename path

/-- The body of the loop over the arguments. -/
def addFile (m : Mk) (f : File) : Option Mk :=
  if slash ∉ basename f.path ∧ (shortname f.path).length ≤ DIRSIZ then
    (ialloc m T_FILE).bind fun r =>
      (iappend r.1 ROOTINO (dirent r.2 (shortname f.path))).bind fun m =>
        f.reads.foldlM (fun m buf => iappend m r.2 buf) m
  else none

/-- The superblock, as the bytes of block 1. -/
def superblock : Block :=
  put (put (put (put (put (put (put (put zeroes 0 4 FSMAGIC) 4 4 FSSIZE) 8 4 nblocks) 12 4 NINODES)
    16 4 nlog) 20 4 2) 24 4 inodestart) 28 4 bmapstart

/-- The image of zeroes with the superblock; nothing is allocated. -/
def blank : Mk := wsect ⟨fun _ => zeroes, 1, nmeta⟩ 1 superblock

/-- `// fix size of root inode dir` -/
def fixRoot (m : Mk) : Option Mk :=
  (rinode m ROOTINO).bind fun din =>
    winode m ROOTINO { din with size := (din.size / BSIZE + 1) * BSIZE }

/-- `main`, up to `exit(0)`. -/
def mkfs (files : List File) : Option Mk :=
  (ialloc blank T_DIR).bind fun r =>
    if r.2 = ROOTINO then
      (iappend r.1 ROOTINO (dirent ROOTINO dot)).bind fun m =>
        (iappend m ROOTINO (dirent ROOTINO dotdot)).bind fun m =>
          (files.foldlM addFile m).bind fun m =>
            (fixRoot m).bind fun m => balloc m m.freeblock
    else none

end Xv6.Mkfs
