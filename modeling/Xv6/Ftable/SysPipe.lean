import Mathlib.Data.List.Perm.Basic
import Xv6.Ftable.Machine

/-!
# One call of `sys_pipe`

`sys_pipe` from its first statement to its last, with nothing else running: `none` is a
panic. `kmem.freelist` is a list, of which `kalloc` takes the first page and to which
`kfree` gives back; `kalloc` fails when it is empty. A `copyout` may find pages of the
caller not mapped, and take frames for them (`mapped`), before it fails or succeeds.

Both ways out of a failure go through `fileclose`. What that does to a file depends on
its type, so a file that `filealloc` returned must not have one: `Busy` has the files and
the pages that the call holds so far, and each step back gives up one of them.

  > `sys_pipe_all_or_nothing`: after -1 nothing is held; after 0 there are two descriptors,
  > for the ends of one new pipe.
-/

namespace Xv6.Ftable.SysPipe

open Lib

/-- `struct pipe`, less the bytes. -/
structure PipeRec where
  data : Page
  readopen : Bool
  writeopen : Bool
  nwrite : Nat
  nread : Nat
  deriving DecidableEq, Repr

/-- The tables and the memory; `iputs` counts calls of `iput`. -/
structure Res where
  file : FileId → File
  ofile : Slot → Fd → Option FileId
  free : List Page
  pipe : Page → PipeRec
  mapped : List Page
  iputs : Nat

/-- What becomes of a `copyout`, and how many frames it takes. -/
structure Copyout where
  ok : Bool
  frames : Nat

namespace Res

def setFile (s : Res) (f : FileId) (x : File) : Res := { s with file := Function.update s.file f x }

def setPipe (s : Res) (pi : Page) (r : PipeRec) : Res :=
  { s with pipe := Function.update s.pipe pi r }

/-- `p->ofile[fd] = o`. -/
def setFd (s : Res) (p : Slot) (fd : Fd) (o : Option FileId) : Res :=
  { s with ofile := Function.update s.ofile p (Function.update (s.ofile p) fd o) }

def kalloc (s : Res) : Res × Option Page :=
  match s.free with
  | [] => (s, none)
  | pg :: free => ({ s with free := free }, some pg)

def kfree (s : Res) (pg : Page) : Res := { s with free := pg :: s.free }

def filealloc (s : Res) : Res × Option FileId :=
  match (List.finRange NFILE).find? fun f => (s.file f).ref = 0 with
  | some f => (s.setFile f { s.file f with ref := 1 }, some f)
  | none => (s, none)

/-- `pipeclose(pi, writable)`. -/
def pipeclose (v : Version) (s : Res) (pi : Page) (writable : Bool) : Res :=
  let r := s.pipe pi
  let r := if writable then { r with writeopen := false } else { r with readopen := false }
  let s := s.setPipe pi r
  if r.readopen = false ∧ r.writeopen = false then
    (if dataPage v then s.kfree r.data else s).kfree pi
  else s

/-- `fileclose(f)`. -/
def fileclose (v : Version) (s : Res) (f : FileId) : Option Res :=
  let ff := s.file f
  if ff.ref < 1 then none
  else if 0 < ff.ref - 1 then some (s.setFile f { ff with ref := ff.ref - 1 })
  else
    let s := s.setFile f { ff with ref := 0, type := .FD_NONE }
    match ff.type with
    | .FD_PIPE => some (s.pipeclose v ff.pipe ff.writable)
    | .FD_INODE | .FD_DEVICE => some { s with iputs := s.iputs + 1 }
    | .FD_NONE => some s

/-- The code after `bad:`, where a null pointer is `none`. -/
def bad (v : Version) (s : Res) (pi : Option Page) (f0 f1 : Option FileId) : Option Res :=
  let s := match pi with
    | some pi => s.kfree pi
    | none => s
  (match f0 with
    | some f0 => s.fileclose v f0
    | none => some s).bind fun s =>
      match f1 with
      | some f1 => s.fileclose v f1
      | none => some s

/-- The stores of `pipealloc` once it has everything. -/
def initPipe (s : Res) (f0 f1 : FileId) (pi : Page) : Res :=
  let s := s.setPipe pi
    { s.pipe pi with readopen := true, writeopen := true, nwrite := 0, nread := 0 }
  let s := s.setFile f0
    { s.file f0 with type := .FD_PIPE, readable := true, writable := false, pipe := pi }
  s.setFile f1 { s.file f1 with type := .FD_PIPE, readable := false, writable := true, pipe := pi }

/-- `pipealloc(f0, f1)`, with the two files unless it returns -1. -/
def pipealloc (v : Version) (s : Res) : Option (Res × Option (FileId × FileId)) :=
  match s.filealloc with
  | (s, none) => (s.bad v none none none).map fun s => (s, none)
  | (s, some f0) =>
    match s.filealloc with
    | (s, none) => (s.bad v none (some f0) none).map fun s => (s, none)
    | (s, some f1) =>
      match s.kalloc with
      | (s, none) => (s.bad v none (some f0) (some f1)).map fun s => (s, none)
      | (s, some pi) =>
        if dataPage v then
          match s.kalloc with
          | (s, none) => ((s.kfree pi).bad v none (some f0) (some f1)).map fun s => (s, none)
          | (s, some pg) =>
            some ((s.setPipe pi { s.pipe pi with data := pg }).initPipe f0 f1 pi, some (f0, f1))
        else some (s.initPipe f0 f1 pi, some (f0, f1))

def fdalloc (s : Res) (p : Slot) (f : FileId) : Res × Option Fd :=
  match (List.finRange NOFILE).find? fun fd => s.ofile p fd = none with
  | some fd => (s.setFd p fd (some f), some fd)
  | none => (s, none)

/-- A `copyout` to the caller. -/
def copyout (s : Res) (c : Copyout) : Res × Bool :=
  ({ s with free := s.free.drop c.frames, mapped := s.mapped ++ s.free.take c.frames }, c.ok)

/-- `fileclose(rf); fileclose(wf); return -1;` -/
def giveUp (v : Version) (s : Res) (rf wf : FileId) : Option (Res × Int) :=
  (s.fileclose v rf).bind fun s => (s.fileclose v wf).map fun s => (s, -1)

/-- `sys_pipe()`. -/
def sysPipe (v : Version) (s : Res) (p : Slot) (c0 c1 : Copyout) : Option (Res × Int) :=
  (s.pipealloc v).bind fun
    | (s, none) => some (s, -1)
    | (s, some (rf, wf)) =>
      match s.fdalloc p rf with
      | (s, none) => s.giveUp v rf wf
      | (s, some fd0) =>
        match s.fdalloc p wf with
        | (s, none) => (s.setFd p fd0 none).giveUp v rf wf
        | (s, some fd1) =>
          match s.copyout c0 with
          | (s, false) => ((s.setFd p fd0 none).setFd p fd1 none).giveUp v rf wf
          | (s, true) =>
            match s.copyout c1 with
            | (s, false) => ((s.setFd p fd0 none).setFd p fd1 none).giveUp v rf wf
            | (s, true) => some (s, 0)

end Res

/-! ## What the call holds -/

/-- A free slot has no type. -/
def FreeTyped (s : Res) : Prop := ∀ f, (s.file f).ref = 0 → (s.file f).type = .FD_NONE

/-- The call holds the files `held`, which were free, and the pages `pages`; nothing else is
different. -/
structure Busy (s s' : Res) (held : FileId → Prop) (pages : List Page) : Prop where
  ofile : s'.ofile = s.ofile
  iputs : s'.iputs = s.iputs
  mapped : s'.mapped = s.mapped
  free : (pages ++ s'.free).Perm s.free
  other : ∀ f, ¬ held f → (s'.file f).ref = (s.file f).ref ∧ (s'.file f).type = (s.file f).type
  inUse : ∀ f, (s.file f).ref ≠ 0 → s'.file f = s.file f
  held : ∀ f, held f → (s.file f).ref = 0 ∧ (s'.file f).ref = 1 ∧ (s'.file f).type = .FD_NONE

section Busy

variable {s s' s'' : Res} {held : FileId → Prop} {pages : List Page}

theorem Busy.refl (s : Res) : Busy s s (fun _ => False) [] :=
  ⟨rfl, rfl, rfl, List.Perm.refl _, fun _ _ => ⟨rfl, rfl⟩, fun _ _ => rfl, fun _ h => h.elim⟩

theorem Busy.filealloc (hb : Busy s s' held pages) (ht : FreeTyped s) {f : FileId}
    (h : s'.filealloc = (s'', some f)) :
    ¬ held f ∧ (s.file f).ref = 0 ∧ Busy s s'' (fun g => held g ∨ g = f) pages := by
  unfold Res.filealloc at h
  split at h
  next g hg =>
    cases h
    have hfree : (s'.file f).ref = 0 := by simpa using List.find?_some hg
    have hn : ¬ held f := fun hf => by
      have h1 := (hb.held f hf).2.1
      omega
    obtain ⟨href, htype⟩ := hb.other f hn
    have h0 : (s.file f).ref = 0 := href ▸ hfree
    refine ⟨hn, h0, hb.ofile, hb.iputs, hb.mapped, hb.free, fun g hg => ?_, fun g hg => ?_,
      fun g hg => ?_⟩
    · have hne : g ≠ f := fun heq => hg (.inr heq)
      show (Function.update s'.file f _ g).ref = _ ∧ (Function.update s'.file f _ g).type = _
      rw [Function.update_of_ne hne]
      exact hb.other g fun hgh => hg (.inl hgh)
    · have hne : g ≠ f := fun heq => hg (heq ▸ h0)
      show Function.update s'.file f _ g = _
      rw [Function.update_of_ne hne]
      exact hb.inUse g hg
    · show _ ∧ (Function.update s'.file f _ g).ref = 1 ∧
        (Function.update s'.file f _ g).type = .FD_NONE
      by_cases heq : g = f
      · rw [heq, Function.update_self]
        exact ⟨h0, rfl, htype.trans (ht f h0)⟩
      · rw [Function.update_of_ne heq]
        exact hb.held g (hg.resolve_right heq)
  next => cases h

theorem Busy.kalloc (hb : Busy s s' held pages) {pg : Page} (h : s'.kalloc = (s'', some pg)) :
    Busy s s'' held (pg :: pages) := by
  unfold Res.kalloc at h
  split at h
  next => cases h
  next pg' free hfree =>
    cases h
    refine ⟨hb.ofile, hb.iputs, hb.mapped, ?_, hb.other, hb.inUse, hb.held⟩
    have hperm := hb.free
    rw [hfree] at hperm
    exact List.perm_middle.symm.trans hperm

theorem Busy.kfree {pg : Page} (hb : Busy s s' held (pg :: pages)) :
    Busy s (s'.kfree pg) held pages :=
  ⟨hb.ofile, hb.iputs, hb.mapped, List.perm_middle.trans hb.free, hb.other, hb.inUse, hb.held⟩

/-- A file without a type is just given back. -/
theorem Busy.fileclose (hb : Busy s s' held pages) (ht : FreeTyped s) (v : Version) {f : FileId}
    (hf : held f) :
    ∃ s'', s'.fileclose v f = some s'' ∧ Busy s s'' (fun g => held g ∧ g ≠ f) pages := by
  obtain ⟨h0, h1, htype⟩ := hb.held f hf
  refine ⟨s'.setFile f { s'.file f with ref := 0, type := .FD_NONE }, ?_, hb.ofile,
    hb.iputs, hb.mapped,
    hb.free, fun g hg => ?_, fun g hg => ?_, fun g hg => ?_⟩
  · unfold Res.fileclose
    dsimp only
    rw [if_neg (by omega), if_neg (by omega), htype]
  · show (Function.update s'.file f _ g).ref = _ ∧ (Function.update s'.file f _ g).type = _
    by_cases heq : g = f
    · rw [heq, Function.update_self]
      exact ⟨h0.symm, (ht f h0).symm⟩
    · rw [Function.update_of_ne heq]
      exact hb.other g fun hgh => hg ⟨hgh, heq⟩
  · have hne : g ≠ f := fun heq => hg (heq ▸ h0)
    show Function.update s'.file f _ g = _
    rw [Function.update_of_ne hne]
    exact hb.inUse g hg
  · show _ ∧ (Function.update s'.file f _ g).ref = 1 ∧
      (Function.update s'.file f _ g).type = .FD_NONE
    rw [Function.update_of_ne hg.2]
    exact hb.held g hg.1

/-- A call that fails gives nothing away. -/
theorem filealloc_none (h : s.filealloc = (s', none)) : s' = s := by
  unfold Res.filealloc at h
  split at h
  next => cases h
  next =>
    cases h
    rfl

theorem kalloc_none (h : s.kalloc = (s', none)) : s' = s := by
  unfold Res.kalloc at h
  split at h
  next =>
    cases h
    rfl
  next => cases h

end Busy

/-- Descriptors, files and memory are as before, but for frames that the caller mapped. -/
structure Same (s s' : Res) : Prop where
  ofile : s'.ofile = s.ofile
  iputs : s'.iputs = s.iputs
  file : ∀ f, (s'.file f).ref = (s.file f).ref ∧ (s'.file f).type = (s.file f).type
  free : ∃ frames, s'.mapped = s.mapped ++ frames ∧ (frames ++ s'.free).Perm s.free

theorem Busy.same {s s' : Res} {held : FileId → Prop} (hb : Busy s s' held []) (h : ∀ f, ¬ held f) :
    Same s s' :=
  ⟨hb.ofile, hb.iputs, fun f => hb.other f (h f), [], by rw [hb.mapped, List.append_nil], hb.free⟩

/-! ## `pipealloc` -/

/-- The two files are the ends of a new pipe. -/
structure Piped (v : Version) (s s' : Res) (f0 f1 : FileId) (pi : Page) : Prop where
  ne : f0 ≠ f1
  free0 : (s.file f0).ref = 0
  free1 : (s.file f1).ref = 0
  file0 : s'.file f0 = ⟨.FD_PIPE, 1, true, false, pi⟩
  file1 : s'.file f1 = ⟨.FD_PIPE, 1, false, true, pi⟩
  other : ∀ f, f ≠ f0 → f ≠ f1 →
    (s'.file f).ref = (s.file f).ref ∧ (s'.file f).type = (s.file f).type
  inUse : ∀ f, (s.file f).ref ≠ 0 → s'.file f = s.file f
  fresh : pi ∈ s.free
  opened : (s'.pipe pi).readopen = true ∧ (s'.pipe pi).writeopen = true
  empty : (s'.pipe pi).nwrite = 0 ∧ (s'.pipe pi).nread = 0
  iputs : s'.iputs = s.iputs
  free : ∃ frames, s'.mapped = s.mapped ++ frames ∧
    ((if dataPage v then [(s'.pipe pi).data, pi] else [pi]) ++ frames ++ s'.free).Perm s.free

section Pipealloc

variable {v : Version} {s s' s'' : Res}

theorem initPipe_piped {held : FileId → Prop} {f0 f1 : FileId} {pi : Page} {pages : List Page}
    (hb : Busy s s' held pages) (hheld : ∀ f, held f ↔ f = f0 ∨ f = f1) (hne : f0 ≠ f1)
    (hpages : pages = if dataPage v then [(s'.pipe pi).data, pi] else [pi]) :
    Piped v s (s'.initPipe f0 f1 pi) f0 f1 pi ∧ (s'.initPipe f0 f1 pi).ofile = s.ofile := by
  have hb0 := hb.held f0 ((hheld f0).mpr (.inl rfl))
  have hb1 := hb.held f1 ((hheld f1).mpr (.inr rfl))
  have hfile : ∀ f, f ≠ f0 → f ≠ f1 → (s'.initPipe f0 f1 pi).file f = s'.file f := by
    intro f h0 h1
    show Function.update (Function.update s'.file f0 _) f1 _ f = s'.file f
    rw [Function.update_of_ne h1, Function.update_of_ne h0]
  have hpipe : (s'.initPipe f0 f1 pi).pipe pi
      = { s'.pipe pi with readopen := true, writeopen := true, nwrite := 0, nread := 0 } := by
    show Function.update s'.pipe pi _ pi = _
    rw [Function.update_self]
  refine ⟨⟨hne, hb0.1, hb1.1, ?_, ?_, fun f h0 h1 => ?_, fun f hf => ?_, ?_, ?_, ?_, hb.iputs,
    [], ?_, ?_⟩, hb.ofile⟩
  · show Function.update (Function.update s'.file f0 _) f1 _ f0 = _
    rw [Function.update_of_ne hne, Function.update_self]
    show (⟨.FD_PIPE, (s'.file f0).ref, true, false, pi⟩ : File) = _
    rw [hb0.2.1]
  · show Function.update (Function.update s'.file f0 _) f1 { Function.update s'.file f0 _ f1 with
      type := .FD_PIPE, readable := false, writable := true, pipe := pi } f1 = _
    rw [Function.update_self, Function.update_of_ne hne.symm]
    show (⟨.FD_PIPE, (s'.file f1).ref, false, true, pi⟩ : File) = _
    rw [hb1.2.1]
  · rw [hfile f h0 h1]
    exact hb.other f fun hf => ((hheld f).mp hf).elim h0 h1
  · rw [hfile f (fun h => hf (h ▸ hb0.1)) (fun h => hf (h ▸ hb1.1))]
    exact hb.inUse f hf
  · refine hb.free.subset (List.mem_append_left _ ?_)
    rw [hpages]
    split <;> simp
  · rw [hpipe]
    exact ⟨rfl, rfl⟩
  · rw [hpipe]
    exact ⟨rfl, rfl⟩
  · rw [List.append_nil]
    exact hb.mapped
  · rw [hpipe, List.append_nil]
    show ((if dataPage v then [(s'.pipe pi).data, pi] else [pi]) ++ s'.free).Perm s.free
    rw [← hpages]
    exact hb.free

/-- The way out of `pipealloc` with the first file. -/
theorem bad_one {f0 : FileId} (ht : FreeTyped s)
    (hb : Busy s s' (fun g => False ∨ g = f0) []) :
    ∃ s'', s'.bad v none (some f0) none = some s'' ∧ Same s s'' := by
  obtain ⟨s1, h1, hb1⟩ := hb.fileclose ht v (.inr rfl)
  refine ⟨s1, ?_, hb1.same fun g hg => ?_⟩
  · unfold Res.bad
    dsimp only
    rw [h1]
    rfl
  · exact hg.2 (hg.1.resolve_left id)

/-- And with both. -/
theorem bad_both {f0 f1 : FileId} (ht : FreeTyped s) (hne : f0 ≠ f1)
    (hb : Busy s s' (fun g => (False ∨ g = f0) ∨ g = f1) []) :
    ∃ s'', s'.bad v none (some f0) (some f1) = some s'' ∧ Same s s'' := by
  obtain ⟨s1, h1, hb1⟩ := hb.fileclose ht v (.inl (.inr rfl))
  obtain ⟨s2, h2, hb2⟩ := hb1.fileclose ht v ⟨.inr rfl, hne.symm⟩
  refine ⟨s2, ?_, hb2.same fun g hg => ?_⟩
  · unfold Res.bad
    dsimp only
    rw [h1, Option.bind_some, h2]
  · exact hg.1.1.elim (fun h => hg.1.2 (h.resolve_left id)) hg.2

/-- **`pipealloc`**: nothing, or a pipe. -/
theorem pipealloc_spec (v : Version) (ht : FreeTyped s) :
    (∃ s', s.pipealloc v = some (s', none) ∧ Same s s') ∨
    ∃ s' f0 f1 pi, s.pipealloc v = some (s', some (f0, f1)) ∧ Piped v s s' f0 f1 pi ∧
      s'.ofile = s.ofile := by
  unfold Res.pipealloc
  split
  next s1 h1 =>
    -- no file
    rw [filealloc_none h1]
    exact .inl ⟨s, rfl, (Busy.refl s).same fun _ => id⟩
  next s1 f0 h1 =>
    obtain ⟨-, -, hb1⟩ := (Busy.refl s).filealloc ht h1
    split
    next s2 h2 =>
      rw [filealloc_none h2]
      obtain ⟨s', hs', hsame⟩ := bad_one (v := v) ht hb1
      exact .inl ⟨s', by rw [hs']; rfl, hsame⟩
    next s2 f1 h2 =>
      obtain ⟨hn, -, hb2⟩ := hb1.filealloc ht h2
      have hne : f0 ≠ f1 := fun heq => hn (.inr heq.symm)
      split
      next s3 h3 =>
        rw [kalloc_none h3]
        obtain ⟨s', hs', hsame⟩ := bad_both (v := v) ht hne hb2
        exact .inl ⟨s', by rw [hs']; rfl, hsame⟩
      next s3 pi h3 =>
        have hb3 := hb2.kalloc h3
        have hheld : ∀ f, ((False ∨ f = f0) ∨ f = f1) ↔ f = f0 ∨ f = f1 := fun f => by tauto
        split
        next hv =>
          split
          next s4 h4 =>
            -- no page for the data: the other one goes back
            rw [kalloc_none h4]
            obtain ⟨s', hs', hsame⟩ := bad_both (v := v) ht hne hb3.kfree
            exact .inl ⟨s', by rw [hs']; rfl, hsame⟩
          next s4 pg h4 =>
            have hb4 := hb3.kalloc h4
            have hb5 : Busy s (s4.setPipe pi { s4.pipe pi with data := pg })
                (fun g => (False ∨ g = f0) ∨ g = f1) [pg, pi] :=
              ⟨hb4.ofile, hb4.iputs, hb4.mapped, hb4.free, hb4.other, hb4.inUse, hb4.held⟩
            refine .inr ⟨_, f0, f1, pi, rfl, initPipe_piped hb5 hheld hne ?_⟩
            rw [if_pos hv]
            show [pg, pi] = [(Function.update s4.pipe pi _ pi).data, pi]
            rw [Function.update_self]
        next hv =>
          refine .inr ⟨_, f0, f1, pi, rfl, initPipe_piped hb3 hheld hne ?_⟩
          rw [if_neg hv]

/-! ## Closing the two ends -/

/-- The state of a pipe does not depend on descriptors. -/
theorem Piped.setFd {f0 f1 : FileId} {pi : Page} (hp : Piped v s s' f0 f1 pi) (p : Slot) (fd : Fd)
    (o : Option FileId) : Piped v s (s'.setFd p fd o) f0 f1 pi :=
  ⟨hp.ne, hp.free0, hp.free1, hp.file0, hp.file1, hp.other, hp.inUse, hp.fresh, hp.opened, hp.empty,
    hp.iputs, hp.free⟩

/-- A `copyout` takes frames at most. -/
theorem Piped.copyout {f0 f1 : FileId} {pi : Page} (hp : Piped v s s' f0 f1 pi)
    {c : Copyout} {ok : Bool}
    (h : s'.copyout c = (s'', ok)) : Piped v s s'' f0 f1 pi ∧ s''.ofile = s'.ofile := by
  cases h
  obtain ⟨frames, hm, hperm⟩ := hp.free
  refine ⟨⟨hp.ne, hp.free0, hp.free1, hp.file0, hp.file1, hp.other, hp.inUse, hp.fresh, hp.opened,
    hp.empty, hp.iputs, frames ++ s'.free.take c.frames, ?_, ?_⟩, rfl⟩
  · show s'.mapped ++ s'.free.take c.frames = _
    rw [hm, List.append_assoc]
  · show (_ ++ (frames ++ s'.free.take c.frames) ++ s'.free.drop c.frames).Perm s.free
    rw [List.append_assoc, List.append_assoc, List.take_append_drop, ← List.append_assoc]
    exact hperm

theorem fileclose_pipe {f : FileId} {pi : Page} {r w : Bool}
    (h : s.file f = ⟨.FD_PIPE, 1, r, w, pi⟩) :
    s.fileclose v f = some ((s.setFile f ⟨.FD_NONE, 0, r, w, pi⟩).pipeclose v pi w) := by
  unfold Res.fileclose
  rw [h]
  rfl

/-- The end for reading is closed first. -/
theorem pipeclose_read {pi : Page} (h : (s.pipe pi).writeopen = true) :
    s.pipeclose v pi false = s.setPipe pi { s.pipe pi with readopen := false } := by
  unfold Res.pipeclose
  dsimp only
  rw [if_neg Bool.false_ne_true,
    if_neg fun hc => by rw [h] at hc; exact absurd hc.2 Bool.true_eq_false.mp]

/-- **Closing the two ends** gives back all that the pipe had. -/
theorem Piped.giveUp {f0 f1 : FileId} {pi : Page} (hp : Piped v s s' f0 f1 pi) (ht : FreeTyped s)
    (hofile : s'.ofile = s.ofile) :
    ∃ s'', s'.giveUp v f0 f1 = some (s'', -1) ∧ Same s s'' := by
  obtain ⟨frames, hm, hperm⟩ := hp.free
  let s1 := (s'.setFile f0 ⟨.FD_NONE, 0, true, false, pi⟩).setPipe pi
    { s'.pipe pi with readopen := false }
  have h1 : s'.fileclose v f0 = some s1 := by
    rw [fileclose_pipe hp.file0]
    exact congrArg some
      (pipeclose_read (s := s'.setFile f0 ⟨.FD_NONE, 0, true, false, pi⟩) hp.opened.2)
  have hfile1 : s1.file f1 = ⟨.FD_PIPE, 1, false, true, pi⟩ := by
    show Function.update s'.file f0 _ f1 = _
    rw [Function.update_of_ne hp.ne.symm, hp.file1]
  have hpipe1 : s1.pipe pi = { s'.pipe pi with readopen := false } := Function.update_self _ _ _
  let s2 := (s1.setFile f1 ⟨.FD_NONE, 0, false, true, pi⟩).pipeclose v pi true
  have h2 : s1.fileclose v f1 = some s2 := fileclose_pipe hfile1
  have hs2 : s2 = (if dataPage v then
      ((s1.setFile f1 ⟨.FD_NONE, 0, false, true, pi⟩).setPipe pi
        { s1.pipe pi with writeopen := false }).kfree (s'.pipe pi).data
      else (s1.setFile f1 ⟨.FD_NONE, 0, false, true, pi⟩).setPipe pi
        { s1.pipe pi with writeopen := false }).kfree pi := by
    show Res.pipeclose v _ pi true = _
    unfold Res.pipeclose
    dsimp only
    have hpipe : ((s1.setFile f1 ⟨.FD_NONE, 0, false, true, pi⟩).pipe pi)
        = { s'.pipe pi with readopen := false } := hpipe1
    rw [if_pos rfl, hpipe, if_pos ⟨rfl, rfl⟩, hpipe1]
  refine ⟨s2, ?_, ?_, ?_, fun f => ?_, frames, ?_, ?_⟩
  · unfold Res.giveUp
    rw [h1, Option.bind_some, h2]
    rfl
  · rw [hs2]
    split <;> exact hofile
  · rw [hs2]
    split <;> exact hp.iputs
  · have hf : s2.file f =
      Function.update (Function.update s'.file f0 ⟨.FD_NONE, 0, true, false, pi⟩)
        f1 ⟨.FD_NONE, 0, false, true, pi⟩ f := by
      rw [hs2]
      split <;> rfl
    rw [hf]
    by_cases hf1 : f = f1
    · rw [hf1, Function.update_self]
      exact ⟨hp.free1.symm, (ht f1 hp.free1).symm⟩
    · rw [Function.update_of_ne hf1]
      by_cases hf0 : f = f0
      · rw [hf0, Function.update_self]
        exact ⟨hp.free0.symm, (ht f0 hp.free0).symm⟩
      · rw [Function.update_of_ne hf0]
        exact hp.other f hf0 hf1
  · rw [hs2]
    split <;> exact hm
  · refine List.Perm.trans ?_ hperm
    rw [hs2]
    split
    next hv =>
      show (frames ++ pi :: (s'.pipe pi).data :: s'.free).Perm
        ([(s'.pipe pi).data, pi] ++ frames ++ s'.free)
      refine (List.perm_middle.trans (List.Perm.cons _ List.perm_middle)).trans ?_
      exact List.Perm.swap _ _ _
    next hv =>
      exact List.perm_middle

/-! ## `sys_pipe` -/

theorem fdalloc_none {p : Slot} {f : FileId} (h : s.fdalloc p f = (s', none)) : s' = s := by
  unfold Res.fdalloc at h
  split at h
  next => cases h
  next =>
    cases h
    rfl

theorem fdalloc_some {p : Slot} {f : FileId} {fd : Fd} (h : s.fdalloc p f = (s', some fd)) :
    s.ofile p fd = none ∧ s' = s.setFd p fd (some f) := by
  unfold Res.fdalloc at h
  split at h
  next fd' hfd =>
    cases h
    exact ⟨by simpa using List.find?_some hfd, rfl⟩
  next => cases h

/-- A descriptor that was free is taken back. -/
theorem setFd_setFd (s : Res) (p : Slot) (fd : Fd) (o o' : Option FileId) :
    (s.setFd p fd o).setFd p fd o' = s.setFd p fd o' := by
  unfold Res.setFd
  dsimp only
  rw [Function.update_self, Function.update_idem, Function.update_idem]

theorem setFd_self {p : Slot} {fd : Fd} (h : s.ofile p fd = none) :
    (s.setFd p fd none).ofile = s.ofile := by
  show Function.update s.ofile p (Function.update (s.ofile p) fd none) = s.ofile
  rw [← h, Function.update_eq_self, Function.update_eq_self]

theorem setFd_of_ne {p q : Slot} {fd fd' : Fd} (h : q ≠ p ∨ fd' ≠ fd) (s : Res)
    (o : Option FileId) :
    (s.setFd p fd o).ofile q fd' = s.ofile q fd' := by
  show Function.update s.ofile p (Function.update (s.ofile p) fd o) q fd' = _
  by_cases hq : q = p
  · rw [hq, Function.update_self, Function.update_of_ne (h.resolve_left fun hn => hn hq)]
  · rw [Function.update_of_ne hq]

theorem setFd_at (s : Res) (p : Slot) (fd : Fd) (o : Option FileId) :
    (s.setFd p fd o).ofile p fd = o := by
  show Function.update s.ofile p (Function.update (s.ofile p) fd o) p fd = o
  rw [Function.update_self, Function.update_self]

/-- Two descriptors that were free are taken back. -/
theorem unset_both {s0 : Res} {p : Slot} {fd0 fd1 : Fd} (hfd0 : s0.ofile p fd0 = none)
    (hfd1 : s0.ofile p fd1 = none)
    (h : ∀ q fd, (q ≠ p ∨ fd ≠ fd0) → (q ≠ p ∨ fd ≠ fd1) → s.ofile q fd = s0.ofile q fd) :
    ((s.setFd p fd0 none).setFd p fd1 none).ofile = s0.ofile := by
  funext q fd
  by_cases h1 : q ≠ p ∨ fd ≠ fd1
  · rw [setFd_of_ne h1]
    by_cases h0 : q ≠ p ∨ fd ≠ fd0
    · rw [setFd_of_ne h0]
      exact h q fd h0 h1
    · obtain ⟨rfl, rfl⟩ : q = p ∧ fd = fd0 := by tauto
      rw [setFd_at, hfd0]
  · obtain ⟨rfl, rfl⟩ : q = p ∧ fd = fd1 := by tauto
    rw [setFd_at, hfd1]

/-- What a successful call leaves. -/
structure Opened (v : Version) (s s' : Res) (p : Slot) : Prop where
  piped : ∃ rf wf pi, Piped v s s' rf wf pi ∧ ∃ fd0 fd1, fd0 ≠ fd1 ∧ s.ofile p fd0 = none ∧
    s.ofile p fd1 = none ∧ s'.ofile = Function.update s.ofile p
      (Function.update (Function.update (s.ofile p) fd0 (some rf)) fd1 (some wf))

/-- **Both ways out**. -/
theorem sysPipe_spec (v : Version) (ht : FreeTyped s) (p : Slot) (c0 c1 : Copyout) :
    ∃ s', (s.sysPipe v p c0 c1 = some (s', -1) ∧ Same s s') ∨
      (s.sysPipe v p c0 c1 = some (s', 0) ∧ Opened v s s' p) := by
  unfold Res.sysPipe
  rcases pipealloc_spec v ht with ⟨s1, h1, hsame⟩ | ⟨s1, rf, wf, pi, h1, hp, hofile⟩
  · exact ⟨s1, .inl ⟨by rw [h1]; rfl, hsame⟩⟩
  rw [h1, Option.bind_some]
  dsimp only
  split
  next s2 h2 =>
    -- no descriptor
    rw [fdalloc_none h2]
    obtain ⟨s', hs', hsame⟩ := hp.giveUp ht hofile
    exact ⟨s', .inl ⟨hs', hsame⟩⟩
  next s2 fd0 h2 =>
    obtain ⟨hfd0, rfl⟩ := fdalloc_some h2
    split
    next s3 h3 =>
      rw [fdalloc_none h3, setFd_setFd]
      obtain ⟨s', hs', hsame⟩ := (hp.setFd p fd0 none).giveUp ht ((setFd_self hfd0).trans hofile)
      exact ⟨s', .inl ⟨hs', hsame⟩⟩
    next s3 fd1 h3 =>
      obtain ⟨hfd1, rfl⟩ := fdalloc_some h3
      have hne : fd1 ≠ fd0 := fun heq => by
        rw [heq, setFd_at] at hfd1
        exact Option.some_ne_none _ hfd1
      rw [setFd_of_ne (.inr hne)] at hfd1
      -- the two descriptors, and a copyout that may have taken frames
      have hback : ∀ s3 : Res, s3.ofile = ((s1.setFd p fd0 (some rf)).setFd p fd1 (some wf)).ofile →
          ((s3.setFd p fd0 none).setFd p fd1 none).ofile = s.ofile := by
        intro s3 h3
        rw [← hofile]
        refine unset_both hfd0 hfd1 fun q fd h0 h1 => ?_
        rw [h3, setFd_of_ne h1, setFd_of_ne h0]
      have hp3 := (hp.setFd p fd0 (some rf)).setFd p fd1 (some wf)
      have hfd0' : s.ofile p fd0 = none := hofile ▸ hfd0
      have hfd1' : s.ofile p fd1 = none := hofile ▸ hfd1
      split
      next s4 h4 =>
        obtain ⟨hp4, ho4⟩ := hp3.copyout h4
        obtain ⟨s', hs', hsame⟩ :=
          ((hp4.setFd p fd0 none).setFd p fd1 none).giveUp ht (hback s4 ho4)
        exact ⟨s', .inl ⟨hs', hsame⟩⟩
      next s4 h4 =>
        obtain ⟨hp4, ho4⟩ := hp3.copyout h4
        split
        next s5 h5 =>
          obtain ⟨hp5, ho5⟩ := hp4.copyout h5
          obtain ⟨s', hs', hsame⟩ := ((hp5.setFd p fd0 none).setFd p fd1 none).giveUp ht
            (hback s5 (ho5.trans ho4))
          exact ⟨s', .inl ⟨hs', hsame⟩⟩
        next s5 h5 =>
          obtain ⟨hp5, ho5⟩ := hp4.copyout h5
          refine ⟨s5, .inr ⟨rfl, rf, wf, pi, hp5, fd0, fd1, hne.symm, hfd0', hfd1', ?_⟩⟩
          rw [ho5, ho4]
          show Function.update
            (Function.update s1.ofile p (Function.update (s1.ofile p) fd0 (some rf))) p
            (Function.update
              (Function.update s1.ofile p (Function.update (s1.ofile p) fd0 (some rf)) p)
              fd1 (some wf)) = _
          rw [Function.update_self, Function.update_idem, hofile]

end Pipealloc

/-- **A failed call leaves nothing behind**, and a successful one the two ends of a new pipe. -/
theorem sys_pipe_all_or_nothing (v : Version) {s : Res} (ht : FreeTyped s) (p : Slot)
    (c0 c1 : Copyout) :
    ∃ s' r, s.sysPipe v p c0 c1 = some (s', r) ∧ (r = -1 ∨ r = 0) ∧
      (r = -1 → s'.ofile = s.ofile ∧
        (∀ f, (s'.file f).ref = (s.file f).ref ∧ (s'.file f).type = (s.file f).type) ∧
        ∃ frames, s'.mapped = s.mapped ++ frames ∧ (frames ++ s'.free).Perm s.free) ∧
      (r = 0 → ∃ rf wf pi fd0 fd1, fd0 ≠ fd1 ∧ s.ofile p fd0 = none ∧ s.ofile p fd1 = none ∧
        s'.ofile = Function.update s.ofile p
          (Function.update (Function.update (s.ofile p) fd0 (some rf)) fd1 (some wf)) ∧
        rf ≠ wf ∧ (s.file rf).ref = 0 ∧ (s.file wf).ref = 0 ∧
        s'.file rf = ⟨.FD_PIPE, 1, true, false, pi⟩ ∧ s'.file wf = ⟨.FD_PIPE, 1, false, true, pi⟩ ∧
        (∀ f, (s.file f).ref ≠ 0 → s'.file f = s.file f) ∧
        pi ∈ s.free ∧ (s'.pipe pi).readopen = true ∧ (s'.pipe pi).writeopen = true ∧
        (s'.pipe pi).nread = (s'.pipe pi).nwrite) := by
  obtain ⟨s', ⟨hs', hsame⟩ | ⟨hs', hopen⟩⟩ := sysPipe_spec v ht p c0 c1
  · refine ⟨s', -1, hs', .inl rfl, fun _ => ⟨hsame.ofile, hsame.file, hsame.free⟩, fun h => ?_⟩
    cases h
  · obtain ⟨rf, wf, pi, hp, fd0, fd1, hne, hfd0, hfd1, hofile⟩ := hopen.piped
    refine ⟨s', 0, hs', .inr rfl, fun h => ?_, fun _ => ?_⟩
    · cases h
    · exact ⟨rf, wf, pi, fd0, fd1, hne, hfd0, hfd1, hofile, hp.ne, hp.free0, hp.free1,
        hp.file0, hp.file1,
        hp.inUse, hp.fresh, hp.opened.1, hp.opened.2, hp.empty.2.trans hp.empty.1.symm⟩

/-- No page is free but one. -/
def onePage : Res := ⟨fun _ => ⟨.FD_NONE, 0, false, false, 0⟩, fun _ _ => none, [7],
  fun _ => ⟨0, false, false, 0, 0⟩, [], 0⟩

/-- From v4 on a pipe takes two pages. -/
theorem sys_pipe_one_page :
    ∃ s', onePage.sysPipe .v4 ⟨0, by decide⟩ ⟨true, 0⟩ ⟨true, 0⟩ = some (s', -1) ∧
    s'.ofile = onePage.ofile ∧ s'.free = [7] := by
  obtain ⟨s', r, hs, -, hfail, -⟩ := sys_pipe_all_or_nothing .v4 (s := onePage) (fun _ _ => rfl)
    ⟨0, by decide⟩ ⟨true, 0⟩ ⟨true, 0⟩
  have hr : (onePage.sysPipe .v4 ⟨0, by decide⟩ ⟨true, 0⟩ ⟨true, 0⟩).map (fun x => (x.2, x.1.free))
      = some (-1, [7]) := by decide +kernel
  rw [hs, Option.map_some, Option.some.injEq, Prod.mk.injEq] at hr
  exact ⟨s', hr.1 ▸ hs, (hfail hr.1).1, hr.2⟩

end Xv6.Ftable.SysPipe
