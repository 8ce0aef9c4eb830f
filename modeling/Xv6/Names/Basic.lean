import Xv6.Lib.Hoare
import Xv6.Ftable.Machine

/-!
# Inodes, directory entries and path elements

What `sysfile.c` and the upper half of `fs.c` work on: the inodes on disk with
the entries of the directories among them, the in-memory inode table, the open
files and the current directory of every process. A string is the list of its
bytes up to the terminating NUL; the name in a directory entry is the 14 bytes
of the field.

The disk is seen through the log, so a block written by `log_write` is what the
next `bread` finds. There is one device. A pointer into the inode table is the
number of the inode it stands for, since no number has two slots in use; how many
slots are in use is counted in `used`.

Four fields are bookkeeping that nothing reads. Each `ialloc` stamps the inode it
returns with a new number (`born`), and a directory keeps the stamp of the one it
was created under (`parent`): an inode number is used again, a stamp is not.
`lost` counts the entries that went with the directories they were in, and
`looked` is what `dirlookup` told `namex`.
-/

namespace Xv6.Names

open Lib
open Ftable (NFILE NOFILE FileId Fd FileType)

def ROOTINO : Nat := 1
def NINODE : Nat := 50
def NDEV : Int := 10
def BSIZE : Nat := 1024
def MAXFILE : Nat := 12 + 256
def DIRSIZ : Nat := 14

/-- `sizeof(struct dirent)`. -/
def direntSize : Nat := 16

/-- A C string, up to its NUL. -/
abbrev Str := List UInt8

/-! ## `string.c` -/

/-- `strncmp(p, q, n)`; the byte after the last one of a list is the NUL. -/
def strncmp : Str → Str → Nat → Int
  | _, _, 0 => 0
  | p, q, n + 1 =>
    if p.headD 0 ≠ 0 ∧ p.headD 0 = q.headD 0 then strncmp p.tail q.tail n
    else (p.headD 0).toNat - (q.headD 0).toNat

/-- The `n` bytes that `strncpy(s, t, n)` stores. -/
def strncpy : Str → Nat → Str
  | _, 0 => []
  | t, n + 1 => if t.headD 0 = 0 then List.replicate (n + 1) 0 else t.headD 0 :: strncpy t.tail n

def namecmp (s t : Str) : Int := strncmp s t DIRSIZ

/-- `"."`. -/
def dot : Str := [46]

/-- `".."`. -/
def dotdot : Str := [46, 46]

def slash : UInt8 := 47

/-- The next path element and what follows it. The element is what `name[DIRSIZ]`
holds up to its NUL, if it has one. -/
def skipelem (path : Str) : Option (Str × Str) :=
  let path := path.dropWhile (· == slash)
  if path = [] then none
  else
    let s := path.takeWhile (· != slash)
    let name := if DIRSIZ ≤ s.length then s.take DIRSIZ else s
    some (name, (path.dropWhile (· != slash)).dropWhile (· == slash))

/-! ## The disk -/

/-- An inode number. -/
abbrev Inum := Nat

/-- `type` of an inode; `free` is 0. -/
inductive IType
  | free | T_DIR | T_FILE | T_DEVICE
  deriving DecidableEq, Repr

/-- A `short`. -/
def short (n : Int) : Int := n.bmod 65536

structure Dirent where
  inum : Inum
  name : Str
  deriving DecidableEq, Repr

/-- `struct dinode`, with the content its blocks hold: the entries of a directory,
the bytes of a file. -/
structure Dinode where
  type : IType
  major : Int
  minor : Int
  nlink : Int
  entries : List Dirent
  data : List UInt8
  deriving DecidableEq, Repr

structure Fs where
  /-- `sb.ninodes`. -/
  ninodes : Nat
  disk : Inum → Dinode
  born : Inum → Nat
  parent : Inum → Nat
  clock : Nat
  lost : Inum → Nat

namespace Fs

/-- The entries of a directory after the two that `create` begins with. -/
def kids (T : Fs) (d : Inum) : List Dirent :=
  if (T.disk d).type = .T_DIR then (T.disk d).entries.drop 2 else []

def setDinode (T : Fs) (i : Inum) (x : Dinode) : Fs :=
  { T with disk := Function.update T.disk i x }

/-- The content of `ip` is given up. -/
def truncate (T : Fs) (ip : Inum) : Fs :=
  { T.setDinode ip { T.disk ip with entries := [], data := [] } with
    lost := fun i => T.lost i + (T.kids ip).countP (fun de => de.inum = i) }

/-- `dip->type = type` on a free inode, with a new stamp. -/
def alloc (T : Fs) (inum : Inum) (type : IType) : Fs :=
  { T.setDinode inum ⟨type, 0, 0, 0, [], []⟩ with
    born := Function.update T.born inum T.clock
    clock := T.clock + 1 }

/-- The directory `ip` is created under `dp`. -/
def adopt (T : Fs) (ip dp : Inum) : Fs :=
  { T with parent := Function.update T.parent ip (T.born dp) }

/-- The slot of the entry of `dp` called `name`. -/
def slotOf (T : Fs) (dp : Inum) (name : Str) : Option Nat :=
  (T.disk dp).entries.findIdx? fun de => de.inum ≠ 0 ∧ namecmp name de.name = 0

/-- The inode number in a slot of `dp`. -/
def inumAt (T : Fs) (dp : Inum) (slot : Nat) : Inum :=
  ((T.disk dp).entries[slot]?.map Dirent.inum).getD 0

end Fs

/-! ## The kernel -/

/-- `struct inode`, less `dev` and `inum` and what belongs to the blocks. -/
structure Inode where
  ref : Nat
  valid : Bool
  locked : Bool
  type : IType
  major : Int
  minor : Int
  nlink : Int
  deriving DecidableEq, Repr

/-- `struct file`, less the pipe. -/
structure File where
  type : FileType
  ref : Nat
  readable : Bool
  writable : Bool
  ip : Inum
  off : Nat
  major : Int
  deriving DecidableEq, Repr

/-- Whether a process makes system calls, is inside `kexit`, or is not in use. -/
inductive Life
  | unused | running | exiting
  deriving DecidableEq, Repr

/-- What `dirlookup` found for `namex`: `name` in `dir` is the inode `inum`, which
has this type on disk and this stamp; `dir` was created under `parent`. -/
structure Lookup where
  dir : Inum
  name : Str
  inum : Inum
  type : IType
  stamp : Nat
  parent : Nat
  deriving DecidableEq, Repr

/-- The file table and the processes. -/
structure Procs where
  file : FileId → File
  life : Slot → Life
  cwd : Slot → Option Inum
  ofile : Slot → Fd → Option FileId

structure Kernel extends Procs where
  fs : Fs
  itable : Inum → Inode
  used : Nat
  /-- `log.outstanding`. -/
  outstanding : Nat
  /-- What the calls of `balloc` to come find. -/
  room : List Bool
  looked : List Lookup

/-- Why a call does not return: a panic, a null pointer, or a sleep-lock that the
caller itself holds. -/
inductive Halt
  /-- `iget: no inodes`. -/
  | igetNoInodes
  | ilock
  /-- `ilock: no type`. -/
  | ilockNoType
  | iunlock
  /-- `dirlookup not DIR`. -/
  | dirlookupNotDir
  /-- `unlink: nlink < 1`. -/
  | unlinkNlink
  /-- `unlink: writei`. -/
  | unlinkWritei
  | filedup
  | fileclose
  /-- `init exiting`. -/
  | initExiting
  | null
  | acquiresleep
  deriving DecidableEq, Repr

/-- A piece of a system call. -/
abbrev Sys := Prog Kernel Halt

namespace Kernel

def setInode (k : Kernel) (i : Inum) (f : Inode → Inode) : Kernel :=
  { k with itable := Function.update k.itable i (f (k.itable i)) }

def setFile (k : Kernel) (f : FileId) (x : File) : Kernel :=
  { k with file := Function.update k.file f x }

def setOfile (k : Kernel) (p : Slot) (fd : Fd) (o : Option FileId) : Kernel :=
  { k with ofile := Function.update k.ofile p (Function.update (k.ofile p) fd o) }

/-- Copy the in-memory inode to disk. -/
def iupdate (k : Kernel) (ip : Inum) : Kernel :=
  let i := k.itable ip
  { k with fs := k.fs.setDinode ip { k.fs.disk ip with
      type := i.type, major := i.major, minor := i.minor, nlink := i.nlink } }

/-- Copy the inode on disk to memory. -/
def load (k : Kernel) (ip : Inum) : Kernel :=
  let d := k.fs.disk ip
  k.setInode ip fun i =>
    { i with type := d.type, major := d.major, minor := d.minor, nlink := d.nlink, valid := true }

/-- Discard the content of `ip`. -/
def itrunc (k : Kernel) (ip : Inum) : Kernel :=
  { k with fs := k.fs.truncate ip }.iupdate ip

end Kernel

end Xv6.Names
