import Xv6.Lib.Run
import Xv6.Proc.Basic

/-!
# `file.c`, `pipealloc` and `pipeclose`: descriptors, files, pages

The file table, the descriptors of every process and the page allocator, under
any interleaving of `sys_pipe`, `sys_open`, `sys_dup`, `sys_close`, `kfork` and
`kexit`. A process between two calls is at `user`; inside a call its `Pc` says
which statement comes next and carries the locals of that statement. What a
spinlock makes atomic is one step: the body of `filealloc`, of `filedup`, of
`fileclose` up to `release(&ftable.lock)`, of `pipeclose` up to
`release(&pi->lock)`. So is the initialisation of a page or a file that only the
running process can reach (the fields of a new `struct pipe`, of `*f0`, of
`*f1`). Everything else, each store to `ofile[]`, each `kalloc` and each `kfree`,
is a step of its own.

A label carries what the code does not decide: the page `kalloc` finds, if any,
and whether `copyout` succeeds. A `kfork` that fails has no effect here and no
label; `kexit` is the loop that closes the descriptors, and a process that went
through it can be the child of another `kfork`. The inodes behind other files and
the wakeups of `pipeclose` change nothing here. Other users of the page allocator
take and give back pages of their own.

The tag of a page says what it was allocated for and is bookkeeping, like the
counts `taken` and `given` of what `pipealloc` got from `kalloc` and what `kfree`
was given back, and like `corrupt`: a page was given back that `pipealloc` had
not taken, or that had been given back before.
-/

namespace Xv6.Ftable

open Lib

def NFILE : Nat := 100
def NOFILE : Nat := 16

instance : NeZero NFILE := ⟨Nat.succ_ne_zero 99⟩
instance : NeZero NOFILE := ⟨Nat.succ_ne_zero 15⟩

/-- A slot of `ftable.file`. -/
abbrev FileId := Fin NFILE

/-- An index of `ofile[]`. -/
abbrev Fd := Fin NOFILE

/-- A page of physical memory. A pipe is named by its metadata page. -/
abbrev Page := Nat

/-- `#if PIPE_VERSION >= 4`: the data of a pipe has a page of its own. -/
def dataPage : Version → Bool
  | .v1 | .v2 | .v3 => false
  | _ => true

inductive FileType
  | FD_NONE | FD_PIPE | FD_INODE | FD_DEVICE
  deriving DecidableEq, Repr

/-- `struct file`, less what belongs to inodes. -/
structure File where
  type : FileType
  ref : Nat
  readable : Bool
  writable : Bool
  pipe : Page
  deriving DecidableEq, Repr

/-- `struct pipe`, less the ring. -/
structure Pipe where
  data : Page
  readopen : Bool
  writeopen : Bool
  deriving DecidableEq, Repr

/-- The flag of one end. -/
def Pipe.isOpen (pi : Pipe) (writable : Bool) : Bool :=
  if writable then pi.writeopen else pi.readopen

/-- `pi->writeopen = 0`, or `pi->readopen = 0`. -/
def Pipe.shut (pi : Pipe) (writable : Bool) : Pipe :=
  if writable then { pi with writeopen := false } else { pi with readopen := false }

/-- What a page is in use for. -/
inductive Use
  | free
  /-- The metadata of a pipe. -/
  | metadata
  /-- The data of the pipe at `pi`. -/
  | data (pi : Page)
  | other
  deriving DecidableEq, Repr

/-- What follows a `fileclose`: closing more files and returning, or the next
statement of `kexit`. -/
inductive After
  | files (fs : List FileId)
  | exitUnset (fd : Fd) (fds : List Fd)
  deriving DecidableEq, Repr

/-- Where a process is. -/
inductive Pc
  /-- Not in use, or a zombie. -/
  | dead
  /-- The child of a `kfork` that is not done. -/
  | newborn
  | user
  -- pipealloc
  | filealloc0
  | filealloc1 (f0 : FileId)
  | kallocMeta (f0 f1 : FileId)
  | kallocData (f0 f1 : FileId) (pi : Page)
  | initPipe (f0 f1 : FileId) (pi : Page)
  | initRead (f0 f1 : FileId) (pi : Page)
  | initWrite (f0 f1 : FileId) (pi : Page)
  -- sys_pipe
  | fdalloc0 (rf wf : FileId)
  | fdalloc1 (rf wf : FileId) (fd0 : Fd)
  | copyout (rf wf : FileId) (fd0 fd1 : Fd)
  | unset0 (rf wf : FileId) (fd0 : Fd) (fd1 : Option Fd)
  | unset1 (rf wf : FileId) (fd1 : Fd)
  -- fileclose and pipeclose
  | fileclose (f : FileId) (k : After)
  | pipeclose (pi : Page) (writable : Bool) (k : After)
  | kfreeData (pi : Page) (k : After)
  | kfreeMeta (pi : Page) (k : After)
  -- sys_open
  | openAlloc
  | openFd (f : FileId)
  | openType (f : FileId) (fd : Fd)
  -- sys_dup
  | filedup (f : FileId) (fd : Fd)
  -- kfork
  | forkLoop (np : Slot) (fds : List Fd)
  | forkSet (np : Slot) (f : FileId) (fd : Fd) (fds : List Fd)
  -- kexit
  | exitLoop (fds : List Fd)
  | exitUnset (fd : Fd) (fds : List Fd)
  deriving DecidableEq, Repr

structure FS where
  file : FileId → File
  ofile : Slot → Fd → Option FileId
  pc : Slot → Pc
  use : Page → Use
  pipe : Page → Pipe
  initproc : Slot
  taken : Page → Nat
  given : Page → Nat
  panicked : Bool
  corrupt : Bool

inductive Call
  | sysPipe
  | sysOpen
  | sysDup (fd : Fd)
  | sysClose (fd : Fd)
  | kfork (np : Slot)
  | kexit

/-- What a step comes across: a page for `kalloc`, if there is one, and success
or failure of `copyout`; for `sys_open`, what kind of file it opens. -/
structure Choice where
  page : Option Page
  ok : Bool
  device : Bool
  readable : Bool
  writable : Bool

inductive Act
  | call (p : Slot) (f : Call)
  | step (p : Slot) (a : Choice)
  | take (pg : Page)
  | give (pg : Page)

/-- Where a process goes after a `fileclose`. -/
def After.pc : After → Pc
  | .files [] => .user
  | .files (f :: fs) => .fileclose f (.files fs)
  | .exitUnset fd fds => .exitUnset fd fds

namespace FS

def goto (s : FS) (p : Slot) (pc : Pc) : FS := { s with pc := Function.update s.pc p pc }

def setFile (s : FS) (f : FileId) (x : File) : FS := { s with file := Function.update s.file f x }

/-- `p->ofile[fd] = o`. -/
def setFd (s : FS) (p : Slot) (fd : Fd) (o : Option FileId) : FS :=
  { s with ofile := Function.update s.ofile p (Function.update (s.ofile p) fd o) }

@[simp] theorem goto_pc_self (s : FS) (p : Slot) (c : Pc) : (s.goto p c).pc p = c := by
  simp [goto]

theorem goto_pc_of_ne {p q : Slot} (h : q ≠ p) (s : FS) (c : Pc) : (s.goto p c).pc q = s.pc q := by
  simp [goto, h]

@[simp] theorem setFile_self (s : FS) (f : FileId) (x : File) : (s.setFile f x).file f = x := by
  simp [setFile]

theorem setFile_of_ne {f g : FileId} (h : g ≠ f) (s : FS) (x : File) :
    (s.setFile f x).file g = s.file g := by
  simp [setFile, h]

/-- The search of `filealloc`. -/
def freeFile (s : FS) : Option FileId := (List.finRange NFILE).find? fun f => (s.file f).ref = 0

/-- The search of `fdalloc`. -/
def freeFd (s : FS) (p : Slot) : Option Fd :=
  (List.finRange NOFILE).find? fun fd => s.ofile p fd = none

/-- `kalloc()` found the page `pg`, which becomes `u`. -/
def kalloc (s : FS) (pg : Page) (u : Use) : FS :=
  { s with
    use := Function.update s.use pg u
    taken := Function.update s.taken pg (s.taken pg + 1) }

@[simp] theorem kalloc_use_self (s : FS) (pg : Page) (u : Use) : (s.kalloc pg u).use pg = u := by
  simp [kalloc]

theorem kalloc_use_of_ne {pg pg' : Page} (h : pg' ≠ pg) (s : FS) (u : Use) :
    (s.kalloc pg u).use pg' = s.use pg' := by
  simp [kalloc, h]

/-- `kfree(pg)`, of a page that was allocated as `u`. -/
def kfree (s : FS) (pg : Page) (u : Use) : FS :=
  let s' := { s with given := Function.update s.given pg (s.given pg + 1) }
  if s.use pg = u then { s' with use := Function.update s.use pg .free }
  else { s' with corrupt := true }

theorem ref_of_freeFile {s : FS} {f : FileId} (h : s.freeFile = some f) : (s.file f).ref = 0 := by
  simpa using List.find?_some h

theorem ofile_of_freeFd {s : FS} {p : Slot} {fd : Fd} (h : s.freeFd p = some fd) :
    s.ofile p fd = none := by
  simpa using List.find?_some h

def setPipe (s : FS) (pi : Page) (r : Pipe) : FS := { s with pipe := Function.update s.pipe pi r }

@[simp] theorem setPipe_self (s : FS) (pi : Page) (r : Pipe) : (s.setPipe pi r).pipe pi = r := by
  simp [setPipe]

theorem setPipe_of_ne {pi pi' : Page} (h : pi' ≠ pi) (s : FS) (r : Pipe) :
    (s.setPipe pi r).pipe pi' = s.pipe pi' := by
  simp [setPipe, h]

def panic (s : FS) : FS := { s with panicked := true }

/-- `filedup(f)`. -/
def filedup (s : FS) (f : FileId) : FS :=
  if (s.file f).ref < 1 then s.panic
  else s.setFile f { s.file f with ref := (s.file f).ref + 1 }

/-- `fileclose(f)` up to `release(&ftable.lock)`, for process `p` that goes on
with `k`. -/
def fileclose (s : FS) (p : Slot) (f : FileId) (k : After) : FS :=
  let ff := s.file f
  if ff.ref < 1 then s.panic
  else if 0 < ff.ref - 1 then (s.setFile f { ff with ref := ff.ref - 1 }).goto p k.pc
  else
    let s' := s.setFile f { ff with ref := 0, type := .FD_NONE }
    if ff.type = .FD_PIPE then s'.goto p (.pipeclose ff.pipe ff.writable k)
    else s'.goto p k.pc

/-- `pipeclose(pi, writable)` up to `release(&pi->lock)`. -/
def pipeclose (v : Version) (s : FS) (p : Slot) (pi : Page) (writable : Bool) (k : After) : FS :=
  let r := (s.pipe pi).shut writable
  let s' := s.setPipe pi r
  if r.readopen = false ∧ r.writeopen = false then
    s'.goto p (if dataPage v then .kfreeData pi k else .kfreeMeta pi k)
  else s'.goto p k.pc

/-- One statement of process `p`. -/
def run (v : Version) (s : FS) (p : Slot) (a : Choice) : Option FS :=
  match s.pc p with
  | .dead | .newborn | .user => none
  | .filealloc0 =>
    match s.freeFile with
    | some f0 => some ((s.setFile f0 { s.file f0 with ref := 1 }).goto p (.filealloc1 f0))
    | none => some (s.goto p .user)
  | .filealloc1 f0 =>
    match s.freeFile with
    | some f1 => some ((s.setFile f1 { s.file f1 with ref := 1 }).goto p (.kallocMeta f0 f1))
    | none => some (s.goto p (.fileclose f0 (.files [])))
  | .kallocMeta f0 f1 =>
    match a.page with
    | some pi =>
      if s.use pi = .free then
        some ((s.kalloc pi .metadata).goto p
          (if dataPage v then .kallocData f0 f1 pi else .initPipe f0 f1 pi))
      else none
    | none => some (s.goto p (.fileclose f0 (.files [f1])))
  | .kallocData f0 f1 pi =>
    match a.page with
    | some pg =>
      if s.use pg = .free then
        some (((s.kalloc pg (.data pi)).setPipe pi { s.pipe pi with data := pg }).goto p
          (.initPipe f0 f1 pi))
      else none
    | none => some (s.goto p (.kfreeMeta pi (.files [f0, f1])))
  | .initPipe f0 f1 pi =>
    some ((s.setPipe pi { s.pipe pi with readopen := true, writeopen := true }).goto p
      (.initRead f0 f1 pi))
  | .initRead f0 f1 pi =>
    some ((s.setFile f0
      { s.file f0 with type := .FD_PIPE, readable := true, writable := false, pipe := pi }).goto p
        (.initWrite f0 f1 pi))
  | .initWrite f0 f1 pi =>
    some ((s.setFile f1
      { s.file f1 with type := .FD_PIPE, readable := false, writable := true, pipe := pi }).goto p
        (.fdalloc0 f0 f1))
  | .fdalloc0 rf wf =>
    match s.freeFd p with
    | some fd0 => some ((s.setFd p fd0 (some rf)).goto p (.fdalloc1 rf wf fd0))
    | none => some (s.goto p (.fileclose rf (.files [wf])))
  | .fdalloc1 rf wf fd0 =>
    match s.freeFd p with
    | some fd1 => some ((s.setFd p fd1 (some wf)).goto p (.copyout rf wf fd0 fd1))
    | none => some (s.goto p (.unset0 rf wf fd0 none))
  | .copyout rf wf fd0 fd1 =>
    some (s.goto p (if a.ok then .user else .unset0 rf wf fd0 (some fd1)))
  | .unset0 rf wf fd0 fd1 =>
    some ((s.setFd p fd0 none).goto p (match fd1 with
      | some fd1 => .unset1 rf wf fd1
      | none => .fileclose rf (.files [wf])))
  | .unset1 rf wf fd1 => some ((s.setFd p fd1 none).goto p (.fileclose rf (.files [wf])))
  | .fileclose f k => some (s.fileclose p f k)
  | .pipeclose pi writable k => some (s.pipeclose v p pi writable k)
  | .kfreeData pi k => some ((s.kfree (s.pipe pi).data (.data pi)).goto p (.kfreeMeta pi k))
  | .kfreeMeta pi k => some ((s.kfree pi .metadata).goto p k.pc)
  | .openAlloc =>
    match s.freeFile with
    | some f => some ((s.setFile f { s.file f with ref := 1 }).goto p (.openFd f))
    | none => some (s.goto p .user)
  | .openFd f =>
    match s.freeFd p with
    | some fd => some ((s.setFd p fd (some f)).goto p (.openType f fd))
    | none => some (s.goto p (.fileclose f (.files [])))
  | .openType f _ =>
    some ((s.setFile f { s.file f with
      type := if a.device then .FD_DEVICE else .FD_INODE
      readable := a.readable
      writable := a.writable }).goto p .user)
  | .filedup f _ => some ((s.filedup f).goto p .user)
  | .forkLoop np fds =>
    match fds with
    | fd :: fds =>
      match s.ofile p fd with
      | some f => some ((s.filedup f).goto p (.forkSet np f fd fds))
      | none => some (s.goto p (.forkLoop np fds))
    | [] => some ((s.goto p .user).goto np .user)
  | .forkSet np f fd fds => some ((s.setFd np fd (some f)).goto p (.forkLoop np fds))
  | .exitLoop fds =>
    match fds with
    | fd :: fds =>
      match s.ofile p fd with
      | some f => some (s.goto p (.fileclose f (.exitUnset fd fds)))
      | none => some (s.goto p (.exitLoop fds))
    | [] => some (s.goto p .dead)
  | .exitUnset fd fds => some ((s.setFd p fd none).goto p (.exitLoop fds))

/-- A system call, up to its first statement that matters here; `argfd` and
`fdalloc` read and write descriptors of the caller only. -/
def enter (s : FS) (p : Slot) : Call → Option FS
  | .sysPipe => some (s.goto p .filealloc0)
  | .sysOpen => some (s.goto p .openAlloc)
  | .sysDup fd =>
    match s.ofile p fd with
    | some f =>
      match s.freeFd p with
      | some fd' => some ((s.setFd p fd' (some f)).goto p (.filedup f fd'))
      | none => some s
    | none => some s
  | .sysClose fd =>
    match s.ofile p fd with
    | some f => some ((s.setFd p fd none).goto p (.fileclose f (.files [])))
    | none => some s
  | .kfork np =>
    if s.pc np = .dead then
      some ((s.goto np .newborn).goto p (.forkLoop np (List.finRange NOFILE)))
    else none
  | .kexit =>
    -- `panic("init exiting")`
    if p = s.initproc then none else some (s.goto p (.exitLoop (List.finRange NOFILE)))

end FS

/-- One step of the machine. -/
def step (v : Version) (s : FS) : Act → Option FS
  | .call p f => if s.pc p = .user then s.enter p f else none
  | .step p a => s.run v p a
  | .take pg =>
    if s.use pg = .free then some { s with use := Function.update s.use pg .other } else none
  | .give pg =>
    if s.use pg = .other then some { s with use := Function.update s.use pg .free } else none

/-- After boot: no file is open, and no page belongs to a pipe. -/
structure Init (s : FS) : Prop where
  file : ∀ f, (s.file f).ref = 0 ∧ (s.file f).type = .FD_NONE
  ofile : ∀ p fd, s.ofile p fd = none
  pc : ∀ p, s.pc p = .dead ∨ s.pc p = .user
  use : ∀ pg, s.use pg = .free ∨ s.use pg = .other
  count : ∀ pg, s.taken pg = 0 ∧ s.given pg = 0
  panicked : s.panicked = false
  corrupt : s.corrupt = false

/-- Boot: process 0 alone, all pages free. -/
def FS.boot : FS where
  file := fun _ => ⟨.FD_NONE, 0, false, false, 0⟩
  ofile := fun _ _ => none
  pc := fun p => if p = 0 then .user else .dead
  use := fun _ => .free
  pipe := fun _ => ⟨0, false, false⟩
  initproc := 0
  taken := fun _ => 0
  given := fun _ => 0
  panicked := false
  corrupt := false

theorem boot_init : Init FS.boot := by
  refine ⟨fun _ => ⟨rfl, rfl⟩, fun _ _ => rfl, fun p => ?_, fun _ => .inl rfl, fun _ => ⟨rfl, rfl⟩,
    rfl, rfl⟩
  unfold FS.boot
  by_cases h : p = 0
  · exact .inr (if_pos h)
  · exact .inl (if_neg h)

end Xv6.Ftable
