import Xv6.Names.Links

/-!
# What a path leads to

> In a run that looks up no `..` in a removed directory when the one it was created
> under has been freed, and makes no link to an inode with 32767 links, every lookup
> finds an inode in use, `..` is the directory of creation, and no call stops with
> `ilock: no type` (`lookups_sound`).

`..` is not counted by the link count of the parent once the directory itself is
removed, so that the parent can be removed too while a process is still in the child,
and its inode freed (`lookup_free`).
-/

namespace Xv6.Names

open Lib

/-- Every lookup so far was sound, and a call that meets `ok` and does not return has
made only sound ones too and does not stop for want of a type. -/
structure LookupsSound (ok : Kernel → Act → Prop) (k : Kernel) : Prop where
  looked : ∀ l ∈ k.looked, l.Sound
  stops : ∀ a e k', enabled k a = true → ok k a → runCall k a = (.error e, k') →
    e ≠ .ilockNoType ∧ ∀ l ∈ k'.looked, l.Sound

/-- **A lookup finds an inode in use**, and `..` the directory of creation. -/
theorem lookups_sound {k : Kernel} (h : Reach step (fun k a => WalkOk k a ∧ LinkOk k a) Boot k) :
    LookupsSound (fun k a => WalkOk k a ∧ LinkOk k a) k := by
  have hinv : Inv False k := h.inv (fun _ h₀ => h₀.inv) fun hi hok hs =>
    hi.step hok.1 hok.2 False.elim hs
  refine ⟨?_, fun a e k' hen hok hrun => hinv.safe hen hok.1 hok.2 False.elim hrun⟩
  obtain ⟨_, _, _, hm⟩ := hinv
  exact hm.sound

/-- Down into a directory that is then removed, and up again. -/
def upAgain : List Act :=
  [⟨0, .sysMkdir (some [97]), [true, true, true]⟩, ⟨0, .sysChdir (some [97]), []⟩,
    ⟨0, .sysUnlink (some [slash, 97]), []⟩, ⟨0, .sysChdir (some dotdot), []⟩]

theorem upAgain_run :
    (runFrom (guarded step fun k a => WalkOk k a ∧ LinkOk k a) first upAgain).map
      (fun k => (k.cwd 0, k.looked.map fun l => (l.name, l.inum)))
      = some (some ROOTINO, [([97], 2), (dotdot, ROOTINO)]) := by
  decide +kernel

theorem lookups_sound_upAgain : ∃ k, k.cwd 0 = some ROOTINO ∧
    LookupsSound (fun k a => WalkOk k a ∧ LinkOk k a) k := by
  obtain ⟨k, hrun, hk⟩ := Option.map_eq_some_iff.mp upAgain_run
  obtain ⟨hok, hrun⟩ := runFrom_guarded upAgain hrun
  exact ⟨k, (Prod.mk.inj hk).1,
    lookups_sound (Reach.of_run upAgain (.start first_boot) hok hrun)⟩

/-- A directory and the one it is in are both removed, with a process in the first. -/
def removeBoth : List Act :=
  [⟨0, .sysMkdir (some [97]), [true, true, true]⟩,
    ⟨0, .sysMkdir (some [97, slash, 98]), [true, true, true]⟩,
    ⟨0, .sysChdir (some [97, slash, 98]), []⟩,
    ⟨0, .sysUnlink (some [slash, 97, slash, 98]), []⟩, ⟨0, .sysUnlink (some [slash, 97]), []⟩]

theorem removeBoth_run : (runFrom step first removeBoth).map (fun k =>
    (enabled k ⟨0, .sysOpen (some dotdot) O_RDONLY, []⟩,
      (runCall k ⟨0, .sysOpen (some dotdot) O_RDONLY, []⟩).1)) =
    some (true, .error .ilockNoType) := by
  decide +kernel

/-- The panic is reached, by `open("..")`. -/
theorem lookup_free : ¬∀ k, Reach step Any Boot k → LookupsSound Any k := by
  intro h
  obtain ⟨k, hrun, hk⟩ := Option.map_eq_some_iff.mp removeBoth_run
  obtain ⟨hen, hcall⟩ := Prod.mk.inj hk
  have hsound := h k (Reach.of_run removeBoth (.start first_boot) (RunOk.any step _ first) hrun)
  exact (hsound.stops _ _ _ hen trivial (Prod.ext hcall rfl)).1 rfl

end Xv6.Names
