import Xv6.Vm.User

/-!
# `exec.c`

`kexec` reads a file that can hold anything, builds a new address space, and puts it in
the place of the old one or frees it. `path` and `argv` are in the memory of the kernel,
strings without their NUL. What `namei` finds, and what is in that file, are parameters:
while `kexec` holds the lock of the inode the file does not change, and `readi` gives the
bytes of it that there are.

The fields of the headers are as wide as in `elf.h`; what is passed to `readi` and
`loadseg` is cut to 32 bits. `loadseg` stops at the end of the file, long before its
counter can wrap.
-/

namespace Xv6.Vm

open Lib

def MAXARG : Nat := 32
def USERSTACK : Nat := 1

/-- What `kexec` reads and changes of `struct proc`; the trapframe is a page. -/
structure Task where
  sz : Nat
  pagetable : Frame
  trapframe : Frame
  /-- 16 bytes. -/
  name : List UInt8

/-- The state of a call of `kexec`. -/
structure Calling where
  kmem : Kmem
  /-- `log.outstanding`. -/
  outstanding : Nat
  /-- `ip->ref`. -/
  ref : Nat
  /-- `ip->lock`. -/
  locked : Bool
  proc : Task

abbrev Call := Prog Calling Panic

/-- Work on memory. -/
def onMem {α : Type} (m : Kern α) : Call α := zoom (·.kmem) (fun k s => { s with kmem := k }) m

/-! ## The log and the inode -/

def begin_op : Call PUnit := modify fun s => { s with outstanding := s.outstanding + 1 }

def end_op : Call PUnit := modify fun s => { s with outstanding := s.outstanding - 1 }

/-- `file` is what is in the inode that the path names. -/
def namei (file : Option (List UInt8)) : Call (Option (List UInt8)) := do
  match file with
  | none => pure none
  | some content => do
    modify fun s => { s with ref := s.ref + 1 }
    pure (some content)

def ilock : Call PUnit := do
  let s ← get
  if s.ref = 0 then stop .ilock else modify fun s => { s with locked := true }

/-- `iunlock` and `iput`. -/
def iunlockput : Call PUnit := do
  let s ← get
  if s.locked = false ∨ s.ref = 0 then stop .iunlock
  else modify fun s => { s with locked := false, ref := s.ref - 1 }

/-- `off` and `n` are `uint`s. -/
def readi (content : List UInt8) (off n : Nat) : List UInt8 :=
  if content.length < off ∨ 2 ^ 32 ≤ off + n then [] else (content.drop off).take n

/-! ## The headers -/

/-- A field of `w` bytes. -/
def field (b : List UInt8) (o w : Nat) : Nat := Bytes.get (fun j => b.getD j 0) o w

def ELF_MAGIC : Nat := 0x464C457F
def ELF_PROG_LOAD : Nat := 1

structure Elfhdr where
  magic : Nat
  entry : Nat
  phoff : Nat
  phnum : Nat

/-- `sizeof(struct elfhdr)`. -/
def elfhdrSize : Nat := 64

def elfhdr (b : List UInt8) : Elfhdr where
  magic := field b 0 4
  entry := field b 24 8
  phoff := field b 32 8
  phnum := field b 56 2

structure Proghdr where
  type : Nat
  flags : Nat
  off : Nat
  vaddr : Nat
  filesz : Nat
  memsz : Nat

/-- `sizeof(struct proghdr)`. -/
def proghdrSize : Nat := 56

def proghdr (b : List UInt8) : Proghdr where
  type := field b 0 4
  flags := field b 4 4
  off := field b 8 8
  vaddr := field b 16 8
  filesz := field b 32 8
  memsz := field b 40 8

def flags2perm (flags : Nat) : Nat :=
  (if flags &&& 0x1 ≠ 0 then PTE_X else 0) ||| if flags &&& 0x2 ≠ 0 then PTE_W else 0

/-! ## Loading -/

/-- The loop of `loadseg`; `false` for -1. -/
def loadsegFrom (pagetable : Frame) (va : Nat) (content : List UInt8) (offset sz : Nat) (i : Nat) :
    Kern Bool :=
  if _h : i < sz then do
    let pa ← walkaddr pagetable (va + i)
    if pa = 0 then stop .loadseg
    else do
      let n := if sz - i < PGSIZE then sz - i else PGSIZE
      let data := readi content ((offset + i) % 2 ^ 32) n
      store pa 0 data
      if data.length ≠ n then pure false
      else loadsegFrom pagetable va content offset sz (i + PGSIZE)
  else pure true
termination_by sz - i
decreasing_by
  have hp : PGSIZE = 4096 := rfl
  omega

def loadseg (pagetable : Frame) (va : Nat) (content : List UInt8) (offset sz : Nat) : Kern Bool :=
  loadsegFrom pagetable va content (offset % 2 ^ 32) (sz % 2 ^ 32) 0

/-- The loop over the program headers, `n` of which are left; the new `sz`, and `false`
for `goto bad`. -/
def loadPhdrs (pagetable : Frame) (content : List UInt8) : Nat → Nat → Nat → Kern (Nat × Bool)
  | 0, _, sz => pure (sz, true)
  | n + 1, off, sz => do
    let b := readi content (off % 2 ^ 32) proghdrSize
    let ph := proghdr b
    if b.length ≠ proghdrSize then pure (sz, false)
    else if ph.type ≠ ELF_PROG_LOAD then loadPhdrs pagetable content n (off + proghdrSize) sz
    else if ph.memsz < ph.filesz then pure (sz, false)
    else if (ph.vaddr + ph.memsz) % 2 ^ 64 < ph.vaddr then pure (sz, false)
    else if ph.vaddr % PGSIZE ≠ 0 then pure (sz, false)
    else do
      let sz1 ← uvmalloc pagetable sz ((ph.vaddr + ph.memsz) % 2 ^ 64) (flags2perm ph.flags)
      if sz1 = 0 then pure (sz, false)
      else do
        let ok ← loadseg pagetable ph.vaddr content ph.off ph.filesz
        if ok = false then pure (sz1, false)
        else loadPhdrs pagetable content n (off + proghdrSize) sz1

/-! ## The user stack -/

/-- `sp - n` as a `uint64`, rounded down to a multiple of 16. -/
@[irreducible] def below16 (sp n : Nat) : Nat :=
  (sp + 2 ^ 64 - n) % 2 ^ 64 - (sp + 2 ^ 64 - n) % 2 ^ 64 % 16

/-- The loop over `argv`; the last `sp` and `ustack`, or `none` for `goto bad`. -/
def pushStrings (p : Me) (pagetable : Frame) (stackbase : Nat) :
    List (List UInt8) → Nat → List Nat → Kern (Option (Nat × List Nat))
  | [], sp, ustack => pure (some (sp, ustack))
  | s :: argv, sp, ustack =>
    if MAXARG ≤ ustack.length then pure none
    else do
      let sp := below16 sp (s.length + 1)
      if sp < stackbase then pure none
      else do
        let ok ← copyout p pagetable sp (s ++ [0])
        if ok = false then pure none
        else pushStrings p pagetable stackbase argv sp (ustack ++ [sp])

/-- The bytes of an array of `uint64`s. -/
def words (l : List Nat) : List UInt8 := l.flatMap fun v => (List.range 8).map (Bytes.le v)

/-- The strings, and the array of pointers to them. -/
def pushArgs (p : Me) (pagetable : Frame) (stackbase sp : Nat) (argv : List (List UInt8)) :
    Kern (Option Nat) := do
  match ← pushStrings p pagetable stackbase argv sp [] with
  | none => pure none
  | some (sp, ustack) =>
    let sp := below16 sp ((argv.length + 1) * 8)
    if sp < stackbase then pure none
    else do
      let ok ← copyout p pagetable sp (words (ustack ++ [0]))
      if ok = false then pure none else pure (some sp)

/-! ## The call -/

/-- What comes after the last `/`. -/
def lastElem (path : List UInt8) : List UInt8 := (path.reverse.takeWhile (· ≠ 47)).reverse

/-- The loop of `safestrcpy`, `n` more times, to the bytes of `s`; `t` is without its NUL. -/
def safestrcpyFrom : Nat → List UInt8 → List UInt8 → List UInt8
  | 0, s, _ => s.set 0 0
  | _ + 1, [], _ => []
  | _ + 1, _ :: s, [] => 0 :: s.set 0 0
  | n + 1, _ :: s, c :: t => c :: safestrcpyFrom n s t

def safestrcpy (s t : List UInt8) (n : Nat) : List UInt8 :=
  if n = 0 then s else safestrcpyFrom (n - 1) s t

/-- A `uint64` in a page. -/
def Kmem.setField (k : Kmem) (pa : Frame) (o v : Nat) : Kmem :=
  k.setPage pa (Bytes.put (k.mem pa) o 8 v)

/-- A field of the trapframe. -/
def setTrapframe (o v : Nat) : Call PUnit :=
  modify fun s => { s with kmem := s.kmem.setField s.proc.trapframe o v }

/-- `if(ip)` at `bad`, where `held` is whether `ip` is not 0. -/
def badIp (held : Bool) : Call PUnit :=
  if held = true then do
    iunlockput
    end_op
  else pure ⟨⟩

/-- `bad:`. -/
def bad (pagetable : Option Frame) (sz : Nat) (held : Bool) : Call PUnit :=
  match pagetable with
  | none => badIp held
  | some pagetable => do
    onMem (proc_freepagetable pagetable sz)
    badIp held

/-- Up to the user stack: the page table, `sz` and `elf.entry`, or `none` after `bad`. -/
def loadImage (file : Option (List UInt8)) : Call (Option (Frame × Nat × Nat)) := do
  begin_op
  match ← namei file with
  | none => do
    end_op
    pure none
  | some content => do
    ilock
    let b := readi content 0 elfhdrSize
    let elf := elfhdr b
    if b.length ≠ elfhdrSize ∨ elf.magic ≠ ELF_MAGIC then do
      bad none 0 true
      pure none
    else do
      let s ← get
      match ← onMem (proc_pagetable s.proc.trapframe) with
      | none => do
        bad none 0 true
        pure none
      | some pagetable => do
        let (sz, ok) ← onMem (loadPhdrs pagetable content elf.phnum elf.phoff 0)
        if ok = false then do
          bad (some pagetable) sz true
          pure none
        else do
          iunlockput
          end_op
          let sz := PGROUNDUP sz
          let sz1 ← onMem (uvmalloc pagetable sz (sz + (USERSTACK + 1) * PGSIZE) PTE_W)
          if sz1 = 0 then do
            bad (some pagetable) sz false
            pure none
          else do
            onMem (uvmclear pagetable (sz1 - (USERSTACK + 1) * PGSIZE))
            pure (some (pagetable, sz1, elf.entry))

/-- Nothing fails any more. -/
def commit (pagetable : Frame) (sz entry sp : Nat) (path : List UInt8) : Call PUnit := do
  setTrapframe 120 sp
  modify fun s => { s with proc.name := safestrcpy s.proc.name (lastElem path) 16 }
  let s ← get
  let oldpagetable := s.proc.pagetable
  let oldsz := s.proc.sz
  modify fun s => { s with proc.pagetable := pagetable, proc.sz := sz }
  setTrapframe 24 entry
  setTrapframe 48 sp
  onMem (proc_freepagetable oldpagetable oldsz)

/-- `argc`, or `none` for -1. -/
def kexec (file : Option (List UInt8)) (path : List UInt8) (argv : List (List UInt8)) :
    Call (Option Nat) := do
  match ← loadImage file with
  | none => pure none
  | some (pagetable, sz, entry) => do
    let s ← get
    match ← onMem
      (pushArgs ⟨s.proc.sz, s.proc.pagetable⟩ pagetable (sz - USERSTACK * PGSIZE) sz argv) with
    | none => do
      bad (some pagetable) sz false
      pure none
    | some sp => do
      commit pagetable sz entry sp path
      pure (some argv.length)

end Xv6.Vm
