import Xv6.Names.Machine

/-!
# The system calls on names, and runs of them

`create`, the calls that use it, and the steps of the machine. A user string that
`argstr` cannot fetch is `none`; a call returns what it returns in the source, with
`-1` for a failure.
-/

namespace Xv6.Names

open Lib
open Ftable (NFILE NOFILE FileId Fd FileType)

def O_RDONLY : BitVec 32 := 0x000
def O_WRONLY : BitVec 32 := 0x001
def O_RDWR : BitVec 32 := 0x002
def O_CREATE : BitVec 32 := 0x200
def O_TRUNC : BitVec 32 := 0x400

/-! ## Files -/

def filealloc : Sys (Option FileId) := do
  let k ← get
  match (List.finRange NFILE).find? fun f => (k.file f).ref = 0 with
  | none => pure none
  | some f => do
    modify fun k => k.setFile f { k.file f with ref := 1 }
    pure (some f)

def fdalloc (p : Slot) (f : FileId) : Sys (Option Fd) := do
  let k ← get
  match (List.finRange NOFILE).find? fun fd => k.ofile p fd = none with
  | none => pure none
  | some fd => do
    modify (·.setOfile p fd (some f))
    pure (some fd)

def filedup (f : FileId) : Sys PUnit := do
  let k ← get
  if (k.file f).ref < 1 then stop .filedup
  else modify fun k => k.setFile f { k.file f with ref := (k.file f).ref + 1 }

def fileclose (f : FileId) : Sys PUnit := do
  let k ← get
  let ff := k.file f
  if ff.ref < 1 then stop .fileclose
  else if 0 < ff.ref - 1 then modify fun k => k.setFile f { ff with ref := ff.ref - 1 }
  else do
    modify fun k => k.setFile f { ff with ref := 0, type := .FD_NONE }
    if ff.type = .FD_INODE ∨ ff.type = .FD_DEVICE then do
      begin_op
      iput ff.ip
      end_op
    else pure ⟨⟩

/-! ## `create` and its callers -/

/-- `ip->nlink` becomes `v`, in memory and on disk. -/
def setNlink (ip : Inum) (v : Int → Int) : Sys PUnit := do
  modify (·.setInode ip fun i => { i with nlink := short (v i.nlink) })
  modify (·.iupdate ip)

/-- The entries `.` and `..` of a new directory. -/
def dots (ip dp : Inum) : Sys Bool := do
  modify fun k => { k with fs := k.fs.adopt ip dp }
  let ok ← dirlink ip dot ip
  if ok = true then dirlink ip dotdot dp else pure false

def create (p : Slot) (path : Str) (type : IType) (major minor : Int) : Sys (Option Inum) := do
  match ← nameiparent p path with
  | none => pure none
  | some (dp, name) => do
    ilock dp
    match ← dirlookup dp name with
    | some (ip, _) => do
      iunlockput dp
      ilock ip
      let k ← get
      let t := (k.itable ip).type
      if type = .T_FILE ∧ (t = .T_FILE ∨ t = .T_DEVICE) then pure (some ip)
      else do
        iunlockput ip
        pure none
    | none => do
      match ← ialloc type with
      | none => do
        iunlockput dp
        pure none
      | some ip => do
        ilock ip
        modify (·.setInode ip fun i =>
          { i with major := short major, minor := short minor, nlink := 1 })
        modify (·.iupdate ip)
        let ok ← if type = .T_DIR then dots ip dp else pure true
        let ok ← if ok = true then dirlink dp name ip else pure false
        if ok = true then do
          if type = .T_DIR then setNlink dp (· + 1) else pure ⟨⟩
          iunlockput dp
          pure (some ip)
        else do
          setNlink ip fun _ => 0
          iunlockput ip
          iunlockput dp
          pure none

/-- The inode `sys_open` works on, locked. -/
def openInode (p : Slot) (path : Str) (omode : BitVec 32) : Sys (Option Inum) := do
  if omode &&& O_CREATE ≠ 0 then create p path .T_FILE 0 0
  else do
    match ← namei p path with
    | none => pure none
    | some ip => do
      ilock ip
      let k ← get
      if (k.itable ip).type = .T_DIR ∧ omode ≠ O_RDONLY then do
        iunlockput ip
        pure none
      else pure (some ip)

/-- The exits of `sys_open` that give up `ip`. -/
def giveUp (ip : Inum) : Sys Int := do
  iunlockput ip
  end_op
  pure (-1)

def sysOpen (p : Slot) (path : Option Str) (omode : BitVec 32) : Sys Int := do
  match path with
  | none => pure (-1)
  | some path => do
    begin_op
    match ← openInode p path omode with
    | none => do
      end_op
      pure (-1)
    | some ip => do
      let k ← get
      let i := k.itable ip
      if i.type = .T_DEVICE ∧ (i.major < 0 ∨ NDEV ≤ i.major) then giveUp ip
      else do
        match ← filealloc with
        | none => giveUp ip
        | some f => do
          match ← fdalloc p f with
          | none => do
            fileclose f
            giveUp ip
          | some fd => do
            modify fun k => k.setFile f { k.file f with
              type := if i.type = .T_DEVICE then .FD_DEVICE else .FD_INODE
              major := if i.type = .T_DEVICE then i.major else (k.file f).major
              off := if i.type = .T_DEVICE then (k.file f).off else 0
              ip := ip
              readable := omode &&& O_WRONLY = 0
              writable := omode &&& O_WRONLY ≠ 0 ∨ omode &&& O_RDWR ≠ 0 }
            if omode &&& O_TRUNC ≠ 0 ∧ i.type = .T_FILE then modify (·.itrunc ip) else pure ⟨⟩
            iunlock ip
            end_op
            pure fd.val

/-- `sys_mkdir` and `sys_mknod` after their arguments. -/
def make (p : Slot) (path : Option Str) (type : IType) (major minor : Int) : Sys Int := do
  begin_op
  match path with
  | none => do
    end_op
    pure (-1)
  | some path => do
    match ← create p path type major minor with
    | none => do
      end_op
      pure (-1)
    | some ip => do
      iunlockput ip
      end_op
      pure 0

def sysMkdir (p : Slot) (path : Option Str) : Sys Int := make p path .T_DIR 0 0

def sysMknod (p : Slot) (path : Option Str) (major minor : Int) : Sys Int :=
  make p path .T_DEVICE major minor

/-- `bad` of `sys_link`. -/
def unmakeLink (ip : Inum) : Sys Int := do
  ilock ip
  setNlink ip (· - 1)
  iunlockput ip
  end_op
  pure (-1)

def sysLink (p : Slot) (old new : Option Str) : Sys Int := do
  match old, new with
  | some old, some new => do
    begin_op
    match ← namei p old with
    | none => do
      end_op
      pure (-1)
    | some ip => do
      ilock ip
      let k ← get
      if (k.itable ip).type = .T_DIR then do
        iunlockput ip
        end_op
        pure (-1)
      else do
        setNlink ip (· + 1)
        iunlock ip
        match ← nameiparent p new with
        | none => unmakeLink ip
        | some (dp, name) => do
          ilock dp
          let ok ← dirlink dp name ip
          iunlockput dp
          if ok = true then do
            iput ip
            end_op
            pure 0
          else unmakeLink ip
  | _, _ => pure (-1)

/-- `isdirempty(dp)`. -/
def Fs.isdirempty (T : Fs) (dp : Inum) : Bool :=
  ((T.disk dp).entries.drop 2).all fun de => de.inum = 0

/-- `bad` of `sys_unlink`. -/
def unlinkBad (dp : Inum) : Sys Int := do
  iunlockput dp
  end_op
  pure (-1)

/-- `sys_unlink` once the entry of `ip` at `off` may go. -/
def unlinkAt (dp ip : Inum) (off : Nat) : Sys Int := do
  let ok ← writei dp off ⟨0, List.replicate DIRSIZ 0⟩
  if ok = false then stop .unlinkWritei
  else do
    let k ← get
    if (k.itable ip).type = .T_DIR then setNlink dp (· - 1) else pure ⟨⟩
    iunlockput dp
    setNlink ip (· - 1)
    iunlockput ip
    end_op
    pure 0

def sysUnlink (p : Slot) (path : Option Str) : Sys Int := do
  match path with
  | none => pure (-1)
  | some path => do
    begin_op
    match ← nameiparent p path with
    | none => do
      end_op
      pure (-1)
    | some (dp, name) => do
      ilock dp
      if namecmp name dot = 0 ∨ namecmp name dotdot = 0 then unlinkBad dp
      else do
        match ← dirlookup dp name with
        | none => unlinkBad dp
        | some (ip, off) => do
          ilock ip
          let k ← get
          if (k.itable ip).nlink < 1 then stop .unlinkNlink
          else if (k.itable ip).type = .T_DIR ∧ k.fs.isdirempty ip = false then do
            iunlockput ip
            unlinkBad dp
          else unlinkAt dp ip off

def sysChdir (p : Slot) (path : Option Str) : Sys Int := do
  begin_op
  match path with
  | none => do
    end_op
    pure (-1)
  | some path => do
    match ← namei p path with
    | none => do
      end_op
      pure (-1)
    | some ip => do
      ilock ip
      let k ← get
      if (k.itable ip).type ≠ .T_DIR then do
        iunlockput ip
        end_op
        pure (-1)
      else do
        iunlock ip
        let cwd ← cwdOf p
        iput cwd
        end_op
        modify fun k => { k with cwd := Function.update k.cwd p (some ip) }
        pure 0

/-! ## Descriptors and processes -/

/-- `argfd`. -/
def argfd (p : Slot) (fd : Fd) : Sys (Option FileId) := do
  let k ← get
  pure (k.ofile p fd)

def sysClose (p : Slot) (fd : Fd) : Sys Int := do
  match ← argfd p fd with
  | none => pure (-1)
  | some f => do
    modify (·.setOfile p fd none)
    fileclose f
    pure 0

def sysDup (p : Slot) (fd : Fd) : Sys Int := do
  match ← argfd p fd with
  | none => pure (-1)
  | some f => do
    match ← fdalloc p f with
    | none => pure (-1)
    | some fd => do
      filedup f
      pure fd.val

def filestat (f : FileId) : Sys Int := do
  let k ← get
  let ff := k.file f
  if ff.type = .FD_INODE ∨ ff.type = .FD_DEVICE then do
    ilock ff.ip
    iunlock ff.ip
    pure 0
  else pure (-1)

def sysFstat (p : Slot) (fd : Fd) : Sys Int := do
  match ← argfd p fd with
  | none => pure (-1)
  | some f => filestat f

/-- What `kexec` does with names. -/
def kexec (p : Slot) (path : Option Str) : Sys Int := do
  match path with
  | none => pure (-1)
  | some path => do
    begin_op
    match ← namei p path with
    | none => do
      end_op
      pure (-1)
    | some ip => do
      ilock ip
      iunlockput ip
      end_op
      pure 0

/-- The descriptors of `p` are copied to `np`. -/
def dupFiles (p np : Slot) : List Fd → Sys PUnit
  | [] => pure ⟨⟩
  | fd :: fds => do
    match ← argfd p fd with
    | none => pure ⟨⟩
    | some f => do
      filedup f
      modify (·.setOfile np fd (some f))
    dupFiles p np fds

/-- `kfork`, where `allocproc` finds `np`. -/
def kfork (p np : Slot) : Sys Int := do
  dupFiles p np (List.finRange NOFILE)
  let cwd ← cwdOf p
  idup cwd
  modify fun k => { k with
    cwd := Function.update k.cwd np (some cwd)
    life := Function.update k.life np .running }
  pure np.val

/-- One transaction of `kexit`: the next open file is closed, or there is none left
and the current directory goes. -/
def kexit (p : Slot) : Sys Int := do
  let k ← get
  if p = 0 then stop .initExiting
  else
    match (List.finRange NOFILE).find? fun fd => (k.ofile p fd).isSome with
    | some fd => do
      modify fun k => { k with life := Function.update k.life p .exiting }
      match ← argfd p fd with
      | none => pure 0
      | some f => do
        fileclose f
        modify (·.setOfile p fd none)
        pure 0
    | none => do
      let cwd ← cwdOf p
      begin_op
      iput cwd
      end_op
      modify fun k => { k with
        cwd := Function.update k.cwd p none
        life := Function.update k.life p .unused }
      pure 0

/-! ## Runs -/

inductive Call
  | sysOpen (path : Option Str) (omode : BitVec 32)
  | sysMkdir (path : Option Str)
  | sysMknod (path : Option Str) (major minor : Int)
  | sysLink (old new : Option Str)
  | sysUnlink (path : Option Str)
  | sysChdir (path : Option Str)
  | sysClose (fd : Fd)
  | sysDup (fd : Fd)
  | sysFstat (fd : Fd)
  | kexec (path : Option Str)
  | kfork (np : Slot)
  | kexit
  deriving DecidableEq, Repr

/-- Which process makes which call, and what `balloc` finds during it. -/
structure Act where
  proc : Slot
  call : Call
  room : List Bool := []
  deriving DecidableEq, Repr

def syscall (p : Slot) : Call → Sys Int
  | .sysOpen path omode => sysOpen p path omode
  | .sysMkdir path => sysMkdir p path
  | .sysMknod path major minor => sysMknod p path major minor
  | .sysLink old new => sysLink p old new
  | .sysUnlink path => sysUnlink p path
  | .sysChdir path => sysChdir p path
  | .sysClose fd => sysClose p fd
  | .sysDup fd => sysDup p fd
  | .sysFstat fd => sysFstat p fd
  | .kexec path => kexec p path
  | .kfork np => kfork p np
  | .kexit => kexit p

/-- A process that is in `kexit` does nothing else, and a child gets a slot that is
not in use. -/
def enabled (k : Kernel) (a : Act) : Bool :=
  match a.call with
  | .kexit => k.life a.proc ≠ .unused
  | .kfork np => k.life a.proc = .running ∧ k.life np = .unused
  | _ => k.life a.proc = .running

/-- Run a call to its end. -/
def runCall (k : Kernel) (a : Act) : Except Halt Int × Kernel :=
  exec (syscall a.proc a.call) { k with room := a.room }

/-- The step of an enabled call that returns. -/
def step (k : Kernel) (a : Act) : Option Kernel :=
  if enabled k a then
    match runCall k a with
    | (.ok _, k') => some k'
    | (.error _, _) => none
  else none

end Xv6.Names
