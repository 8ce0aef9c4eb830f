import Xv6.Lib.Hoare
import Xv6.Mkfs.Kernel

/-!
# Inodes and their blocks in `fs.c`

The kernel's half of the file system: `balloc` and `bfree` on the bitmap, `bmap` and
`itrunc` on the addresses of an inode, `readi` and `writei` on its bytes, and the
table of inodes in memory. Blocks are bytes, as in `mkfs.c`, whose `struct dinode` is
used here.

`bread` reads through the buffer cache. A buffer that is neither held nor in the log
can be recycled whenever another block is read: `pick` says which one goes at the
`turn`-th read from the disk. A block that is held by this very process is never
released to it, and `bread` sleeps for good (`asleep`). Between two operations the log
may be committed (`commit`).

The counters `b + bi` of `balloc` are numbers of blocks and those of `writei` are
offsets below `MAXFILE * BSIZE`: they do not wrap, and are `Nat` here. The sums of the
arguments of `readi` and `writei` do wrap, at 32 bits.
-/

namespace Xv6.Files

open Lib
open Lib.Bytes (put blit)
open Mkfs (Block Dinode Superblock zeroes dinodeAt setDinode dinodeOff BSIZE NDIRECT NINDIRECT
  MAXFILE IPB BPB)

/-! ## The state -/

structure Fs where
  /-- the blocks on the disk, at their home locations -/
  disk : Nat → Block
  /-- the valid buffers -/
  cache : Nat → Option Block
  /-- `log.lh.block`, the first `log.lh.n` of them -/
  lh : List Nat
  /-- the buffers this process has locked -/
  held : List Nat
  /-- how many blocks were read from the disk -/
  turn : Nat
  /-- what `log_write` was called on since `begin_op` -/
  op : List Nat
  /-- the inodes in memory, by number -/
  ino : Nat → Dinode
  valid : Nat → Bool
  ref : Nat → Nat

inductive Panic
  | freeingFreeBlock
  | outOfRange
  | ilock
  | noType
  | asleep
  deriving DecidableEq, Repr

abbrev Kern := Prog Fs Panic

/-- What a process sees of a block: its buffer, or else the disk. -/
def Fs.view (s : Fs) (b : Nat) : Block := (s.cache b).getD (s.disk b)

/-! ## Buffers -/

/-- The cache when the buffer of `v` is to be recycled. -/
def Fs.recycle (s : Fs) : Option Nat → Nat → Option Block
  | none => s.cache
  | some v => if v ∈ s.held ∨ v ∈ s.lh then s.cache else Function.update s.cache v none

section Disk

variable (sb : Superblock) (pick : Nat → Option Nat)

/-- `bget` and, if need be, `virtio_disk_rw`. -/
def Fs.load (s : Fs) (b : Nat) : Fs :=
  match s.cache b with
  | some _ => { s with held := b :: s.held }
  | none =>
    { s with
      cache := Function.update (s.recycle (pick s.turn)) b (some (s.disk b))
      held := b :: s.held
      turn := s.turn + 1 }

/-- The data of the buffer. -/
def bread (b : Nat) : Kern Block := do
  let s ← get
  if b ∈ s.held then stop .asleep
  else do
    modify fun s => s.load pick b
    pure (s.view b)

def brelse (b : Nat) : Kern PUnit := modify fun s => { s with held := s.held.erase b }

/-- A store to the data of a buffer. -/
def poke (b : Nat) (f : Block → Block) : Kern PUnit :=
  modify fun s => { s with cache := Function.update s.cache b ((s.cache b).map f) }

/-- The transaction's blocks; whether they are too many is for those who call it. -/
def log_write (b : Nat) : Kern PUnit :=
  modify fun s => { s with lh := if b ∈ s.lh then s.lh else s.lh ++ [b], op := b :: s.op }

/-- The end of the last operation of a transaction: the log goes to the disk. -/
def Fs.commit (s : Fs) : Fs :=
  { s with disk := fun b => if b ∈ s.lh then s.view b else s.disk b, lh := [] }

/-! ## Blocks -/

def bzero (bno : Nat) : Kern PUnit := do
  let _ ← bread pick bno
  poke bno fun _ => zeroes
  log_write bno
  brelse bno

/-- `BBLOCK(b, sb)`. -/
def BBLOCK (b : Nat) : Nat := b / BPB + sb.bmapstart

/-- `m`, the bit of block `bi` in its byte. -/
def mask (bi : Nat) : UInt8 := 1 <<< UInt8.ofNat (bi % 8)

/-- The inner loop of `balloc`: the first free block of those in this block of the bitmap. -/
def scan (data : Block) (b : Nat) : Option Nat :=
  (List.range (min BPB (sb.size - b))).find? fun bi => data (bi / 8) &&& mask bi == 0

/-- The outer loop of `balloc`, from `b` on; there are `fuel` blocks of the bitmap left. -/
def ballocFrom : Nat → Nat → Kern Nat
  | 0, _ => pure 0
  | fuel + 1, b =>
    if b < sb.size then do
      let data ← bread pick (BBLOCK sb b)
      match scan sb data b with
      | some bi => do
        poke (BBLOCK sb b) fun data => Function.update data (bi / 8) (data (bi / 8) ||| mask bi)
        log_write (BBLOCK sb b)
        brelse (BBLOCK sb b)
        bzero pick (b + bi)
        pure (b + bi)
      | none => do
        brelse (BBLOCK sb b)
        ballocFrom fuel (b + BPB)
    else pure 0

/-- 0 if the disk is full. -/
def balloc : Kern Nat := ballocFrom sb pick (sb.size / BPB + 1) 0

def bfree (b : Nat) : Kern PUnit := do
  let data ← bread pick (BBLOCK sb b)
  let bi := b % BPB
  if data (bi / 8) &&& mask bi = 0 then stop .freeingFreeBlock
  else do
    poke (BBLOCK sb b) fun data => Function.update data (bi / 8) (data (bi / 8) &&& ~~~ mask bi)
    log_write (BBLOCK sb b)
    brelse (BBLOCK sb b)

/-! ## Inodes -/

/-- `IBLOCK(i, sb)`. -/
def IBLOCK (i : Nat) : Nat := i / IPB + sb.inodestart

/-- A store to the inode in memory. -/
def setInode (ip : Nat) (f : Dinode → Dinode) : Kern PUnit :=
  modify fun s => { s with ino := Function.update s.ino ip (f (s.ino ip)) }

/-- `ip->addrs[i] = addr`. -/
def setAddr (i addr : Nat) (d : Dinode) : Dinode :=
  { d with addrs := Function.update d.addrs i addr }

def iupdate (ip : Nat) : Kern PUnit := do
  let _ ← bread pick (IBLOCK sb ip)
  let s ← get
  poke (IBLOCK sb ip) fun data => setDinode data (dinodeOff ip) (s.ino ip)
  log_write (IBLOCK sb ip)
  brelse (IBLOCK sb ip)

/-- A slot of the table for every inode: that there is one is for `iget`'s callers. -/
def iget (inum : Nat) : Kern PUnit :=
  modify fun s =>
    { s with
      valid := if s.ref inum = 0 then Function.update s.valid inum false else s.valid
      ref := Function.update s.ref inum (s.ref inum + 1) }

/-- The loop of `ialloc`, with `fuel` inodes left. -/
def iallocFrom (type : Nat) : Nat → Nat → Kern (Option Nat)
  | 0, _ => pure none
  | fuel + 1, inum =>
    if inum < sb.ninodes then do
      let data ← bread pick (IBLOCK sb inum)
      if (dinodeAt data (dinodeOff inum)).type = 0 then do
        poke (IBLOCK sb inum) fun data =>
          setDinode data (dinodeOff inum) ⟨type, 0, 0, 0, 0, fun _ => 0⟩
        log_write (IBLOCK sb inum)
        brelse (IBLOCK sb inum)
        iget inum
        pure (some inum)
      else do
        brelse (IBLOCK sb inum)
        iallocFrom type fuel (inum + 1)
    else pure none

def ialloc (type : Nat) : Kern (Option Nat) := iallocFrom sb pick type sb.ninodes 1

def ilock (ip : Nat) : Kern PUnit := do
  let s ← get
  if s.ref ip < 1 then stop .ilock
  else if s.valid ip = false then do
    let data ← bread pick (IBLOCK sb ip)
    setInode ip fun _ => dinodeAt data (dinodeOff ip)
    brelse (IBLOCK sb ip)
    modify fun s => { s with valid := Function.update s.valid ip true }
    if (dinodeAt data (dinodeOff ip)).type = 0 then stop .noType else pure ⟨⟩
  else pure ⟨⟩

/-! ## Addresses -/

/-- `if((addr = ip->addrs[i]) == 0){ addr = balloc(ip->dev); … ip->addrs[i] = addr; }` -/
def addrOf (ip i : Nat) : Kern Nat := do
  let s ← get
  if (s.ino ip).addrs i = 0 then do
    let addr ← balloc sb pick
    if addr = 0 then pure 0
    else do
      setInode ip (setAddr i addr)
      pure addr
  else pure ((s.ino ip).addrs i)

/-- The entry `bn` of the block for addresses. -/
def entryOf (addr bn : Nat) : Kern Nat := do
  let a ← bread pick addr
  if Bytes.get a (4 * bn) 4 = 0 then do
    let new ← balloc sb pick
    if new = 0 then do
      brelse addr
      pure new
    else do
      poke addr fun a => put a (4 * bn) 4 new
      log_write addr
      brelse addr
      pure new
  else do
    brelse addr
    pure (Bytes.get a (4 * bn) 4)

/-- 0 if the disk is full. -/
def bmap (ip bn : Nat) : Kern Nat :=
  if bn < NDIRECT then addrOf sb pick ip bn
  else if bn - NDIRECT < NINDIRECT then do
    let addr ← addrOf sb pick ip NDIRECT
    if addr = 0 then pure 0 else entryOf sb pick addr (bn - NDIRECT)
  else stop .outOfRange

/-- `if(ip->addrs[i]){ bfree(ip->dev, ip->addrs[i]); ip->addrs[i] = 0; }`, for every `i`. -/
def freeDirect (ip : Nat) : List Nat → Kern PUnit
  | [] => pure ⟨⟩
  | i :: is => do
    let s ← get
    if (s.ino ip).addrs i = 0 then freeDirect ip is
    else do
      bfree sb pick ((s.ino ip).addrs i)
      setInode ip (setAddr i 0)
      freeDirect ip is

/-- `if(a[j]) bfree(ip->dev, a[j]);`, for every `j`. -/
def freeEntries (a : Block) : List Nat → Kern PUnit
  | [] => pure ⟨⟩
  | j :: js =>
    if Bytes.get a (4 * j) 4 = 0 then freeEntries a js
    else do
      bfree sb pick (Bytes.get a (4 * j) 4)
      freeEntries a js

/-- The block for addresses, with its entries. -/
def freeIndirect (ip : Nat) : Kern PUnit := do
  let s ← get
  if (s.ino ip).addrs NDIRECT = 0 then pure ⟨⟩
  else do
    let a ← bread pick ((s.ino ip).addrs NDIRECT)
    freeEntries sb pick a (List.range NINDIRECT)
    brelse ((s.ino ip).addrs NDIRECT)
    bfree sb pick ((s.ino ip).addrs NDIRECT)
    setInode ip (setAddr NDIRECT 0)

def itrunc (ip : Nat) : Kern PUnit := do
  freeDirect sb pick ip (List.range NDIRECT)
  freeIndirect sb pick ip
  setInode ip fun d => { d with size := 0 }
  iupdate sb pick ip

/-- `ip->ref--`. -/
def unref (ip : Nat) : Kern PUnit :=
  modify fun s => { s with ref := Function.update s.ref ip (s.ref ip - 1) }

def iput (ip : Nat) : Kern PUnit := do
  let s ← get
  if s.ref ip = 1 ∧ s.valid ip = true ∧ (s.ino ip).nlink = 0 then do
    itrunc sb pick ip
    setInode ip fun d => { d with type := 0 }
    iupdate sb pick ip
    modify fun s => { s with valid := Function.update s.valid ip false }
    unref ip
  else unref ip

/-! ## Copying -/

def PGSIZE : Nat := 4096

/-- What a copy goes to or comes from: the pages of the user that `walkaddr` or `vmfault` has,
by their address, and the memory of the kernel. There is no page from `MAXVA` on, so that
addresses of the user do not wrap. -/
structure Mem where
  user : Nat → Option (Nat → UInt8)
  /-- the pages `copyout` does not refuse -/
  writable : Nat → Bool
  kernel : Nat → UInt8

/-- The bytes copied, and whether they are all. A turn copies a byte at least. -/
def copyin (mem : Mem) : Nat → Nat → Nat → List UInt8 × Bool
  | 0, _, _ => ([], true)
  | fuel + 1, srcva, len =>
    if len = 0 then ([], true)
    else
      let va0 := srcva / PGSIZE * PGSIZE
      match mem.user va0 with
      | none => ([], false)
      | some page =>
        let n := min (PGSIZE - (srcva - va0)) len
        let r := copyin mem fuel (va0 + PGSIZE) (len - n)
        ((List.range n).map (fun k => page (srcva - va0 + k)) ++ r.1, r.2)

def either_copyin (mem : Mem) (user_src : Bool) (src len : Nat) : List UInt8 × Bool :=
  if user_src then copyin mem len src len else
    ((List.range len).map fun k => mem.kernel (src + k), true)

/-- How many bytes were copied, and whether they are all. -/
def copyout (mem : Mem) : Nat → Nat → Nat → Nat × Bool
  | 0, _, _ => (0, true)
  | fuel + 1, dstva, len =>
    if len = 0 then (0, true)
    else
      let va0 := dstva / PGSIZE * PGSIZE
      if mem.writable va0 = false then (0, false)
      else
        let n := min (PGSIZE - (dstva - va0)) len
        let r := copyout mem fuel (va0 + PGSIZE) (len - n)
        (n + r.1, r.2)

def either_copyout (mem : Mem) (user_dst : Bool) (dst len : Nat) : Nat × Bool :=
  if user_dst then copyout mem len dst len else (len, true)

/-! ## Bytes -/

variable (mem : Mem)

/-- The loop of `readi`: the new `tot`, and what went to `dst` and after it. -/
def readFrom (ip : Nat) (user_dst : Bool) (n : Nat) :
    Nat → Nat → Nat → Nat → Kern (Int × List UInt8)
  | 0, tot, _, _ => pure (tot, [])
  | fuel + 1, tot, off, dst =>
    if tot < n then do
      let addr ← bmap sb pick ip (off / BSIZE)
      if addr = 0 then pure (tot, [])
      else do
        let data ← bread pick addr
        let m := min (n - tot) (BSIZE - off % BSIZE)
        let (done, ok) := either_copyout mem user_dst dst m
        let bytes := (List.range done).map fun k => data (off % BSIZE + k)
        brelse addr
        if ok = false then pure (-1, bytes)
        else do
          let (tot, rest) ← readFrom ip user_dst n fuel (tot + m) (off + m) (dst + m)
          pure (tot, bytes ++ rest)
    else pure (tot, [])

def readi (ip : Nat) (user_dst : Bool) (dst off n : Nat) : Kern (Int × List UInt8) := do
  let s ← get
  if (s.ino ip).size < off ∨ (off + n) % 2 ^ 32 < off then pure (0, [])
  else
    let n := if (s.ino ip).size < (off + n) % 2 ^ 32 then (s.ino ip).size - off else n
    readFrom sb pick mem ip user_dst n n 0 off dst

/-- The loop of `writei`: the new `tot` and `off`. -/
def writeFrom (ip : Nat) (user_src : Bool) (n : Nat) : Nat → Nat → Nat → Nat → Kern (Nat × Nat)
  | 0, tot, off, _ => pure (tot, off)
  | fuel + 1, tot, off, src =>
    if tot < n then do
      let addr ← bmap sb pick ip (off / BSIZE)
      if addr = 0 then pure (tot, off)
      else do
        let _ ← bread pick addr
        let m := min (n - tot) (BSIZE - off % BSIZE)
        let (bytes, ok) := either_copyin mem user_src src m
        poke addr fun data => blit data (off % BSIZE) bytes
        if ok = false then do
          brelse addr
          pure (tot, off)
        else do
          log_write addr
          brelse addr
          writeFrom ip user_src n fuel (tot + m) (off + m) (src + m)
    else pure (tot, off)

def writei (ip : Nat) (user_src : Bool) (src off n : Nat) : Kern Int := do
  let s ← get
  if (s.ino ip).size < off ∨ (off + n) % 2 ^ 32 < off then pure (-1)
  else if MAXFILE * BSIZE < (off + n) % 2 ^ 32 then pure (-1)
  else do
    let (tot, off) ← writeFrom sb pick mem ip user_src n n 0 off src
    setInode ip fun d => if d.size < off then { d with size := off } else d
    iupdate sb pick ip
    pure tot

end Disk

end Xv6.Files
