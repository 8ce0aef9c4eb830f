import Xv6.Names.Basic

/-!
# `fs.c` and `sysfile.c`: names

The system calls that read or change names, each statement in the order of the
source, down to `iget`, `ilock`, `iput` and `ialloc`. A call runs to its end
without another process in between; what is left to the label is whether the user
string can be fetched and whether `balloc` finds a block (`room`). `kexit` is as
many steps as it has transactions: one for each open file and one for the current
directory.

`ilock` by a caller that holds the lock already would sleep for ever, and stops
the call as a panic does. Calls on pipes do not come up: they touch no inode.
`fileread` and `filewrite` touch an inode as `filestat` does, `ilock(f->ip)` and
`iunlock(f->ip)`, and `kexec` as the lookup and the pair `ilock`, `iunlockput`.
-/

namespace Xv6.Names

open Lib
open Ftable (NFILE NOFILE FileId Fd FileType)

def begin_op : Sys PUnit := modify fun k => { k with outstanding := k.outstanding + 1 }

def end_op : Sys PUnit := modify fun k => { k with outstanding := k.outstanding - 1 }

/-! ## Inodes -/

def iget (inum : Inum) : Sys PUnit := do
  let k ← get
  if 0 < (k.itable inum).ref then
    modify (·.setInode inum fun ip => { ip with ref := ip.ref + 1 })
  else if k.used = NINODE then stop .igetNoInodes
  else
    modify fun k =>
      { k.setInode inum fun ip => { ip with ref := 1, valid := false } with used := k.used + 1 }

def idup (ip : Inum) : Sys PUnit :=
  modify (·.setInode ip fun i => { i with ref := i.ref + 1 })

def ialloc (type : IType) : Sys (Option Inum) := do
  let k ← get
  match (List.range' 1 (k.fs.ninodes - 1)).find? fun inum => (k.fs.disk inum).type = .free with
  | none => pure none
  | some inum => do
    modify fun k => { k with fs := k.fs.alloc inum type }
    iget inum
    pure (some inum)

def ilock (ip : Inum) : Sys PUnit := do
  let k ← get
  if (k.itable ip).ref < 1 then stop .ilock
  else if (k.itable ip).locked = true then stop .acquiresleep
  else do
    modify (·.setInode ip fun i => { i with locked := true })
    if (k.itable ip).valid = false then do
      modify (·.load ip)
      let k ← get
      if (k.itable ip).type = .free then stop .ilockNoType else pure ⟨⟩
    else pure ⟨⟩

def iunlock (ip : Inum) : Sys PUnit := do
  let k ← get
  if (k.itable ip).locked = false ∨ (k.itable ip).ref < 1 then stop .iunlock
  else modify (·.setInode ip fun i => { i with locked := false })

/-- The content of `ip` is discarded and the inode is free on disk. -/
def reclaim (ip : Inum) : Sys PUnit := do
  modify (·.itrunc ip)
  modify (·.setInode ip fun i => { i with type := .free })
  modify (·.iupdate ip)
  modify (·.setInode ip fun i => { i with valid := false })

/-- `ip->ref--`. -/
def Kernel.drop (k : Kernel) (ip : Inum) : Kernel :=
  { k.setInode ip fun i => { i with ref := i.ref - 1 } with
    used := if (k.itable ip).ref = 1 then k.used - 1 else k.used }

def iput (ip : Inum) : Sys PUnit := do
  let k ← get
  if (k.itable ip).ref = 1 ∧ (k.itable ip).valid = true ∧ (k.itable ip).nlink = 0 then
    if (k.itable ip).locked = true then stop .acquiresleep
    else do
      reclaim ip
      modify (·.drop ip)
  else modify (·.drop ip)

def iunlockput (ip : Inum) : Sys PUnit := do
  iunlock ip
  iput ip

/-! ## Directories -/

/-- The inode number, and the slot (the offset over `sizeof(de)`). -/
def dirlookup (dp : Inum) (name : Str) : Sys (Option (Inum × Nat)) := do
  let k ← get
  if (k.itable dp).type ≠ .T_DIR then stop .dirlookupNotDir
  else
    match k.fs.slotOf dp name with
    | none => pure none
    | some off => do
      iget (k.fs.inumAt dp off)
      pure (some (k.fs.inumAt dp off, off))

/-- `writei` of one entry at the slot `off`, which is at most the end. Only an entry
that begins a block needs `balloc`. -/
def writei (dp : Inum) (off : Nat) (de : Dirent) : Sys Bool := do
  let k ← get
  let d := k.fs.disk dp
  if MAXFILE * BSIZE < (off + 1) * direntSize then pure false
  else if off < d.entries.length then do
    modify fun k =>
      { k with
        fs := k.fs.setDinode dp
          { k.fs.disk dp with entries := (k.fs.disk dp).entries.set off de } }
    modify (·.iupdate dp)
    pure true
  else if off * direntSize % BSIZE = 0 ∧ k.room.headD false = false then do
    modify fun k => { k with room := k.room.tail }
    modify (·.iupdate dp)
    pure false
  else do
    modify fun k =>
      { k with
        room := if off * direntSize % BSIZE = 0 then k.room.tail else k.room
        fs := k.fs.setDinode dp { k.fs.disk dp with entries := (k.fs.disk dp).entries ++ [de] } }
    modify (·.iupdate dp)
    pure true

/-- The first slot whose `inum` is 0, or the end. -/
def Fs.freeSlot (T : Fs) (dp : Inum) : Nat :=
  ((T.disk dp).entries.findIdx? fun de => de.inum = 0).getD (T.disk dp).entries.length

/-- `false` for -1. -/
def dirlink (dp : Inum) (name : Str) (inum : Inum) : Sys Bool := do
  match ← dirlookup dp name with
  | some (ip, _) => do
    iput ip
    pure false
  | none => do
    let k ← get
    writei dp (k.fs.freeSlot dp) ⟨inum % 65536, strncpy name DIRSIZ⟩

/-! ## Paths -/

/-- `myproc()->cwd`. -/
def cwdOf (p : Slot) : Sys Inum := do
  let k ← get
  match k.cwd p with
  | none => stop .null
  | some ip => pure ip

/-- What `dirlookup` returned to `namex`. -/
def Kernel.found (k : Kernel) (dir : Inum) (name : Str) (inum : Inum) : Kernel :=
  { k with looked := k.looked ++
      [⟨dir, name, inum, (k.fs.disk inum).type, k.fs.born inum, k.fs.parent dir⟩] }

/-- The loop of `namex`; every element is shorter than the path, so that `fuel` is the
length of the path. -/
def walk (nameiparent : Bool) : Nat → Inum → Str → Sys (Option (Inum × Str))
  | fuel, ip, path =>
    match fuel, skipelem path with
    | fuel + 1, some (name, path) => do
      ilock ip
      let k ← get
      if (k.itable ip).type ≠ .T_DIR then do
        iunlockput ip
        pure none
      else if nameiparent = true ∧ path = [] then do
        iunlock ip
        pure (some (ip, name))
      else do
        match ← dirlookup ip name with
        | none => do
          iunlockput ip
          pure none
        | some (next, _) => do
          modify (·.found ip name next)
          iunlockput ip
          walk nameiparent fuel next path
    | _, _ =>
      if nameiparent = true then do
        iput ip
        pure none
      else pure (some (ip, []))

def namex (p : Slot) (path : Str) (nameiparent : Bool) : Sys (Option (Inum × Str)) := do
  if path.headD 0 = slash then do
    iget ROOTINO
    walk nameiparent path.length ROOTINO path
  else do
    let cwd ← cwdOf p
    idup cwd
    walk nameiparent path.length cwd path

def namei (p : Slot) (path : Str) : Sys (Option Inum) := do
  let r ← namex p path false
  pure (r.map Prod.fst)

def nameiparent (p : Slot) (path : Str) : Sys (Option (Inum × Str)) := namex p path true

end Xv6.Names
