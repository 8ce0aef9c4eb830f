import Xv6.Names.Files

/-!
# What a call holds

`Even` counts, for any disk whatever: a reference count is what was there before the
call (`base` and the processes and files, `H`) plus what the call holds (`own`), the
sleep-locks held are those held before (`lk`) and the call's own (`locks`), and so many
transactions are open.

Each function of `fs.c` says what it adds to `own` and `locks` and what it takes away.
Nothing is said about stops: a call that panics or sleeps for ever has no exit.
-/

namespace Xv6.Names

open Lib
open Ftable (NFILE NOFILE FileId Fd FileType)

structure Even (base : Inum → Nat) (lk : Inum → Bool) (n : Nat) (R : Procs) (H : Inum → Nat)
    (own locks : List Inum) (k : Kernel) : Prop where
  procs : k.toProcs = R
  refs : ∀ i, (k.itable i).ref = base i + H i + own.count i
  locked : ∀ i, (k.itable i).locked = true ↔ lk i = true ∨ i ∈ locks
  apart : locks.Nodup ∧ ∀ i ∈ locks, lk i = false
  outstanding : k.outstanding = n

/-- Nothing is promised about a call that stops. -/
def Anyhow (_ : Halt) (_ : Kernel) : Prop := True

variable {base : Inum → Nat} {lk : Inum → Bool} {n : Nat} {R R' : Procs} {H H' : Inum → Nat}
  {own own' locks : List Inum} {k k' : Kernel} {i dp ip : Inum} {p : Slot}

namespace Even

/-- The table changes in other fields only. -/
theorem congr (h : Even base lk n R H own locks k) (hp : k'.toProcs = k.toProcs)
    (hr : ∀ i, (k'.itable i).ref = (k.itable i).ref)
    (hl : ∀ i, (k'.itable i).locked = (k.itable i).locked)
    (ho : k'.outstanding = k.outstanding) : Even base lk n R H own locks k' :=
  ⟨hp.trans h.procs, fun i => by rw [hr, h.refs], fun i => by rw [hl, h.locked], h.apart,
    ho.trans h.outstanding⟩

theorem touch (h : Even base lk n R H own locks k) {f : Inode → Inode}
    (hf : ∀ x, (f x).ref = x.ref ∧ (f x).locked = x.locked) :
    Even base lk n R H own locks (k.setInode i f) := by
  have hj : ∀ j, ((k.setInode i f).itable j).ref = (k.itable j).ref ∧
      ((k.setInode i f).itable j).locked = (k.itable j).locked := fun j => by
    by_cases hji : j = i
    · rw [hji, setInode_self]
      exact hf _
    · rw [setInode_of_ne hji]
      exact ⟨rfl, rfl⟩
  exact h.congr rfl (fun j => (hj j).1) (fun j => (hj j).2) rfl

/-- What the call holds may be listed in another order. -/
theorem perm (h : Even base lk n R H own locks k) {own' locks' : List Inum} (ho : own'.Perm own)
    (hl : locks'.Perm locks) : Even base lk n R H own' locks' k :=
  ⟨h.procs, fun i => by rw [h.refs, ho.count_eq], fun i => by rw [h.locked, hl.mem_iff],
    ⟨hl.nodup_iff.mpr h.apart.1, fun i hi => h.apart.2 i (hl.mem_iff.mp hi)⟩, h.outstanding⟩

theorem swap (h : Even base lk n R H (i :: ip :: own) (i :: ip :: locks) k) :
    Even base lk n R H (ip :: i :: own) (ip :: i :: locks) k :=
  h.perm (List.Perm.swap i ip own) (List.Perm.swap i ip locks)

/-- References change hands. -/
theorem hand (h : Even base lk n R H own locks k) (hp : k'.toProcs = R')
    (hi : k'.itable = k.itable) (ho : k'.outstanding = k.outstanding)
    (hsum : ∀ j, H' j + own'.count j = H j + own.count j) :
    Even base lk n R' H' own' locks k' := by
  refine ⟨hp, fun j => ?_, fun j => by rw [hi, h.locked], h.apart, ho.trans h.outstanding⟩
  have hj := hsum j
  rw [hi, h.refs]
  omega

end Even

/-! ## `fs.c` -/

theorem iget_even (h : Even base lk n R H own locks k) :
    wp (iget i) (fun _ k' => Even base lk n R H (i :: own) locks k') Anyhow k := by
  have hone : ∀ {f : Inode → Inode}, (f (k.itable i)).ref = (k.itable i).ref + 1 →
      (f (k.itable i)).locked = (k.itable i).locked →
      Even base lk n R H (i :: own) locks (k.setInode i f) := by
    intro f hr hl
    refine ⟨h.procs, fun j => ?_, fun j => ?_, h.apart, h.outstanding⟩
    · by_cases hj : j = i
      · rw [hj, setInode_self, hr, h.refs, List.count_cons_self]
        rfl
      · rw [setInode_of_ne hj, h.refs, count_cons_ne hj]
    · by_cases hj : j = i
      · rw [hj, setInode_self, hl, h.locked]
      · rw [setInode_of_ne hj, h.locked]
  unfold iget
  simp only [wp_bind, wp_get, wp_ite, wp_modify, wp_stop]
  refine ⟨fun _ => hone rfl rfl, fun hz => ⟨fun _ => trivial, fun _ => ?_⟩⟩
  have hz' := Nat.eq_zero_of_not_pos hz
  have h₁ := hone (f := fun ip => { ip with ref := 1, valid := false }) (by rw [hz']) rfl
  exact ⟨h₁.procs, h₁.refs, h₁.locked, h₁.apart, h₁.outstanding⟩

theorem idup_even (h : Even base lk n R H own locks k) :
    wp (idup i) (fun _ k' => Even base lk n R H (i :: own) locks k') Anyhow k := by
  unfold idup
  rw [wp_modify]
  refine ⟨h.procs, fun j => ?_, fun j => ?_, h.apart, h.outstanding⟩
  · by_cases hj : j = i
    · rw [hj, setInode_self, List.count_cons_self]
      show (k.itable i).ref + 1 = _
      rw [h.refs]
      rfl
    · rw [setInode_of_ne hj, h.refs, count_cons_ne hj]
  · by_cases hj : j = i
    · rw [hj, setInode_self]
      exact h.locked i
    · rw [setInode_of_ne hj, h.locked]

theorem ialloc_even (h : Even base lk n R H own locks k) {type : IType} :
    wp (ialloc type) (fun r k' => match r with
      | none => Even base lk n R H own locks k'
      | some i => Even base lk n R H (i :: own) locks k') Anyhow k := by
  unfold ialloc
  rw [wp_bind, wp_get]
  split
  next => exact h
  next i _ =>
    rw [wp_bind, wp_modify]
    have h₁ : Even base lk n R H own locks { k with fs := k.fs.alloc i type } :=
      h.congr rfl (fun _ => rfl) (fun _ => rfl) rfl
    exact (iget_even h₁).andThen fun _ _ h₂ => h₂

theorem load_even (h : Even base lk n R H own locks k) :
    Even base lk n R H own locks (k.load i) := by
  unfold Kernel.load
  exact h.touch fun _ => ⟨rfl, rfl⟩

theorem ilock_even (h : Even base lk n R H own locks k) :
    wp (ilock i) (fun _ k' => Even base lk n R H own (i :: locks) k') Anyhow k := by
  unfold ilock
  simp only [wp_bind, wp_get, wp_ite, wp_modify, wp_stop, wp_pure]
  refine ⟨fun _ => trivial, fun _ => ⟨fun _ => trivial, fun hfree => ?_⟩⟩
  have hno := fun hc => hfree ((h.locked i).mpr hc)
  have h₁ : Even base lk n R H own (i :: locks)
      (k.setInode i fun x => { x with locked := true }) := by
    refine ⟨h.procs, fun j => ?_, fun j => ?_,
      ⟨List.nodup_cons.mpr ⟨fun hc => hno (.inr hc), h.apart.1⟩, fun j hj => ?_⟩, h.outstanding⟩
    · by_cases hj : j = i
      · rw [hj, setInode_self]
        exact h.refs i
      · rw [setInode_of_ne hj, h.refs]
    · by_cases hj : j = i
      · rw [hj, setInode_self]
        exact ⟨fun _ => .inr List.mem_cons_self, fun _ => rfl⟩
      · rw [setInode_of_ne hj, h.locked, List.mem_cons]
        exact ⟨fun hc => hc.imp_right .inr, fun hc => hc.imp_right fun hm => hm.resolve_left hj⟩
    · rcases List.mem_cons.mp hj with rfl | hj
      · exact Bool.eq_false_of_not_eq_true fun hc => hno (.inl hc)
      · exact h.apart.2 j hj
  exact ⟨fun _ => ⟨fun _ => trivial, fun _ => load_even h₁⟩, fun _ => h₁⟩

theorem iunlock_even (h : Even base lk n R H own (i :: locks) k) :
    wp (iunlock i) (fun _ k' => Even base lk n R H own locks k') Anyhow k := by
  obtain ⟨hnew, hnd⟩ := List.nodup_cons.mp h.apart.1
  unfold iunlock
  simp only [wp_bind, wp_get, wp_ite, wp_modify, wp_stop]
  refine ⟨fun _ => trivial, fun _ => ⟨h.procs, fun j => ?_, fun j => ?_,
    ⟨hnd, fun j hj => h.apart.2 j (List.mem_cons_of_mem i hj)⟩, h.outstanding⟩⟩
  · by_cases hj : j = i
    · rw [hj, setInode_self]
      exact h.refs i
    · rw [setInode_of_ne hj, h.refs]
  · by_cases hj : j = i
    · rw [hj, setInode_self]
      refine ⟨fun hc => absurd hc Bool.false_ne_true, fun hc => ?_⟩
      rcases hc with hc | hc
      · rw [h.apart.2 i List.mem_cons_self] at hc
        exact absurd hc Bool.false_ne_true
      · exact absurd hc hnew
    · rw [setInode_of_ne hj, h.locked, List.mem_cons]
      exact ⟨fun hc => hc.imp_right fun hm => hm.resolve_left hj, fun hc => hc.imp_right .inr⟩

theorem iput_even (h : Even base lk n R H (i :: own) locks k) :
    wp (iput i) (fun _ k' => Even base lk n R H own locks k') Anyhow k := by
  have hdrop : ∀ {k : Kernel}, Even base lk n R H (i :: own) locks k →
      Even base lk n R H own locks (k.drop i) := by
    intro k h
    refine ⟨h.procs, fun j => ?_, fun j => ?_, h.apart, h.outstanding⟩
    · show ((k.setInode i fun x => { x with ref := x.ref - 1 }).itable j).ref = _
      by_cases hj : j = i
      · have hr := h.refs i
        rw [List.count_cons_self] at hr
        rw [hj, setInode_self]
        show (k.itable i).ref - 1 = _
        omega
      · rw [setInode_of_ne hj, h.refs, count_cons_ne hj]
    · show ((k.setInode i fun x => { x with ref := x.ref - 1 }).itable j).locked = true ↔ _
      by_cases hj : j = i
      · rw [hj, setInode_self]
        exact h.locked i
      · rw [setInode_of_ne hj, h.locked]
  unfold iput
  simp only [wp_bind, wp_get, wp_ite, wp_modify, wp_stop]
  refine ⟨fun _ => ⟨fun _ => trivial, fun _ => ?_⟩, fun _ => hdrop h⟩
  unfold reclaim
  simp only [wp_bind, wp_modify]
  have h₁ : Even base lk n R H (i :: own) locks
      ((k.itrunc i).setInode i fun x => { x with type := .free }) := by
    refine Even.touch (k := k.itrunc i) ?_ fun _ => ⟨rfl, rfl⟩
    exact h.congr rfl (fun _ => rfl) (fun _ => rfl) rfl
  have h₂ : Even base lk n R H (i :: own) locks
      (((k.itrunc i).setInode i fun x => { x with type := .free }).iupdate i) :=
    h₁.congr rfl (fun _ => rfl) (fun _ => rfl) rfl
  exact hdrop (h₂.touch fun _ => ⟨rfl, rfl⟩)

theorem iunlockput_even (h : Even base lk n R H (i :: own) (i :: locks) k) :
    wp (iunlockput i) (fun _ k' => Even base lk n R H own locks k') Anyhow k := by
  unfold iunlockput
  exact (iunlock_even h).andThen fun _ _ h' => iput_even h'

/-- What a function that may return an inode leaves the call with. -/
def Got (base : Inum → Nat) (lk : Inum → Bool) (n : Nat) (R : Procs) (H : Inum → Nat)
    (own locks : List Inum) {α : Type} (inum : α → Inum) : Option α → Kernel → Prop
  | none, k => Even base lk n R H own locks k
  | some a, k => Even base lk n R H (inum a :: own) locks k

theorem dirlookup_even (h : Even base lk n R H own locks k) {name : Str} :
    wp (dirlookup dp name) (Got base lk n R H own locks Prod.fst) Anyhow k := by
  unfold dirlookup
  rw [wp_bind, wp_get, wp_ite]
  refine ⟨fun _ => trivial, fun _ => ?_⟩
  split
  next => exact h
  next => exact (iget_even h).andThen fun _ _ h' => h'

theorem writei_even (h : Even base lk n R H own locks k) {off : Nat} {de : Dirent} :
    wp (writei dp off de) (fun _ k' => Even base lk n R H own locks k') Anyhow k := by
  have hsame : ∀ {k' : Kernel}, k'.toProcs = k.toProcs → k'.itable = k.itable →
      k'.outstanding = k.outstanding → Even base lk n R H own locks k' := fun hp hi ho =>
    h.congr hp (fun j => by rw [hi]) (fun j => by rw [hi]) ho
  unfold writei
  rw [wp_bind, wp_get]
  simp only [wp_ite, wp_bind, wp_modify, wp_pure]
  exact ⟨fun _ => h, fun _ => ⟨fun _ => hsame rfl rfl rfl, fun _ =>
    ⟨fun _ => hsame rfl rfl rfl, fun _ => hsame rfl rfl rfl⟩⟩⟩

theorem dirlink_even (h : Even base lk n R H own locks k) {name : Str} {inum : Inum} :
    wp (dirlink dp name inum) (fun _ k' => Even base lk n R H own locks k') Anyhow k := by
  unfold dirlink
  refine (dirlookup_even h).andThen fun r k₁ h₁ => ?_
  match r, h₁ with
  | some (i, _), h₁ => exact (iput_even h₁).andThen fun _ _ h₂ => h₂
  | none, h₁ =>
    simp only
    rw [wp_bind, wp_get]
    exact writei_even h₁

theorem walk_even (parent : Bool) (fuel : Nat) :
    ∀ (ip : Inum) (path : Str) {k : Kernel}, Even base lk n R H (ip :: own) locks k →
      wp (walk parent fuel ip path) (Got base lk n R H own locks Prod.fst) Anyhow k := by
  have hend : ∀ (ip : Inum) {k : Kernel}, Even base lk n R H (ip :: own) locks k →
      wp (if parent = true then do
          iput ip
          pure none
        else pure (some (ip, ([] : Str)))) (Got base lk n R H own locks Prod.fst) Anyhow k := by
    intro ip k h
    rw [wp_ite]
    exact ⟨fun _ => (iput_even h).andThen fun _ _ h' => h', fun _ => h⟩
  induction fuel with
  | zero =>
    intro ip path k h
    rw [walk.eq_def]
    exact hend ip h
  | succ fuel ih =>
    intro ip path k h
    rw [walk.eq_def]
    cases hs : skipelem path with
    | none =>
      simp only [hs]
      exact hend ip h
    | some r =>
      obtain ⟨name, rest⟩ := r
      simp only [hs]
      refine (ilock_even h).andThen fun _ k₁ h₁ => ?_
      rw [wp_bind, wp_get, wp_ite]
      refine ⟨fun _ => (iunlockput_even h₁).andThen fun _ _ h' => h', fun _ => ?_⟩
      rw [wp_ite]
      refine ⟨fun _ => (iunlock_even h₁).andThen fun _ _ h' => h', fun _ => ?_⟩
      refine (dirlookup_even h₁).andThen fun r k₂ h₂ => ?_
      match r, h₂ with
      | none, h₂ => exact (iunlockput_even h₂).andThen fun _ _ h' => h'
      | some (next, _), h₂ =>
        simp only
        rw [wp_bind, wp_modify]
        have h₃ : Even base lk n R H (ip :: next :: own) (ip :: locks) (k₂.found ip name next) :=
          (h₂.perm (List.Perm.swap next ip own) (List.Perm.refl _)).congr rfl (fun _ => rfl)
            (fun _ => rfl) rfl
        exact (iunlockput_even h₃).andThen fun _ _ h₄ => ih next rest h₄

theorem cwdOf_even (h : Even base lk n R H own locks k) :
    wp (cwdOf p) (fun c k' => R.cwd p = some c ∧ k' = k) Anyhow k := by
  unfold cwdOf
  rw [wp_bind, wp_get]
  have hp : k.cwd p = R.cwd p := congrFun (congrArg Procs.cwd h.procs) p
  split
  next => trivial
  next c hc => exact ⟨hp.symm.trans hc, rfl⟩

/-- **`namex`** leaves with one reference, or none. -/
theorem namex_even (h : Even base lk n R H own locks k) {path : Str} {parent : Bool} :
    wp (namex p path parent) (Got base lk n R H own locks Prod.fst) Anyhow k := by
  unfold namex
  rw [wp_ite]
  refine ⟨fun _ => (iget_even h).andThen fun _ _ h' => walk_even parent _ _ _ h', fun _ => ?_⟩
  refine (cwdOf_even h).andThen fun c k₁ hk => ?_
  obtain ⟨_, rfl⟩ := hk
  exact (idup_even h).andThen fun _ _ h' => walk_even parent _ _ _ h'

theorem namei_even (h : Even base lk n R H own locks k) {path : Str} :
    wp (namei p path) (Got base lk n R H own locks id) Anyhow k := by
  unfold namei
  refine (namex_even h).andThen fun r k₁ h₁ => ?_
  match r, h₁ with
  | none, h₁ => exact h₁
  | some _, h₁ => exact h₁

/-! ## `create` -/

theorem setNlink_even (h : Even base lk n R H own locks k) {v : Int → Int} :
    wp (setNlink i v) (fun _ k' => Even base lk n R H own locks k') Anyhow k := by
  unfold setNlink
  simp only [wp_bind, wp_modify]
  have h₁ : Even base lk n R H own locks
    (k.setInode i fun x => { x with nlink := short (v x.nlink) }) :=
    h.touch fun _ => ⟨rfl, rfl⟩
  exact h₁.congr rfl (fun _ => rfl) (fun _ => rfl) rfl

theorem dots_even (h : Even base lk n R H own locks k) :
    wp (dots ip dp) (fun _ k' => Even base lk n R H own locks k') Anyhow k := by
  unfold dots
  rw [wp_bind, wp_modify]
  have h₁ : Even base lk n R H own locks { k with fs := k.fs.adopt ip dp } :=
    h.congr rfl (fun _ => rfl) (fun _ => rfl) rfl
  refine (dirlink_even h₁).andThen fun ok k₂ h₂ => ?_
  rw [wp_ite]
  exact ⟨fun _ => dirlink_even h₂, fun _ => h₂⟩

/-- What `create` and `openInode` return is locked. -/
def GotLocked (base : Inum → Nat) (lk : Inum → Bool) (n : Nat) (R : Procs) (H : Inum → Nat)
    (own locks : List Inum) : Option Inum → Kernel → Prop
  | none, k => Even base lk n R H own locks k
  | some i, k => Even base lk n R H (i :: own) (i :: locks) k

/-- `create` once it holds the new inode and its parent, from the entry in the parent. -/
theorem enter_even (h : Even base lk n R H (ip :: dp :: own) (ip :: dp :: locks) k) {type : IType}
    {name : Str} (ok : Bool) :
    wp (do
      let ok ← if ok = true then dirlink dp name ip else pure false
      if ok = true then do
        if type = .T_DIR then setNlink dp (· + 1) else pure ⟨⟩
        iunlockput dp
        pure (some ip)
      else do
        setNlink ip fun _ => 0
        iunlockput ip
        iunlockput dp
        pure none) (GotLocked base lk n R H own locks) Anyhow k := by
  have hfail : ∀ {k : Kernel}, Even base lk n R H (ip :: dp :: own) (ip :: dp :: locks) k →
      wp (do
        setNlink ip fun _ => 0
        iunlockput ip
        iunlockput dp
        pure none) (GotLocked base lk n R H own locks) Anyhow k := fun h =>
    (setNlink_even h).andThen fun _ _ h₁ => (iunlockput_even h₁).andThen fun _ _ h₂ =>
      (iunlockput_even h₂).andThen fun _ _ h₃ => h₃
  have hdone : ∀ {k : Kernel}, Even base lk n R H (ip :: dp :: own) (ip :: dp :: locks) k →
      wp (do
        iunlockput dp
        pure (some ip)) (GotLocked base lk n R H own locks) Anyhow k := fun h =>
    (iunlockput_even h.swap).andThen fun _ _ h₁ => h₁
  have hlast : ∀ {k : Kernel} (ok : Bool),
      Even base lk n R H (ip :: dp :: own) (ip :: dp :: locks) k →
      wp (if ok = true then do
          if type = .T_DIR then setNlink dp (· + 1) else pure ⟨⟩
          iunlockput dp
          pure (some ip)
        else do
          setNlink ip fun _ => 0
          iunlockput ip
          iunlockput dp
          pure none) (GotLocked base lk n R H own locks) Anyhow k := by
    intro k ok h
    dsimp only
    rw [wp_ite]
    refine ⟨fun _ => ?_, fun _ => hfail h⟩
    rw [wp_ite]
    exact ⟨fun _ => (setNlink_even h).andThen fun _ _ h₁ => hdone h₁, fun _ => hdone h⟩
  dsimp only
  rw [wp_ite]
  exact ⟨fun _ => (dirlink_even h).andThen fun ok _ h₁ => hlast ok h₁, fun _ => hlast false h⟩

theorem create_even (h : Even base lk n R H own locks k) {path : Str} {type : IType}
    {major minor : Int} :
    wp (create p path type major minor) (GotLocked base lk n R H own locks) Anyhow k := by
  unfold create nameiparent
  refine (namex_even h).andThen fun r k₁ h₁ => ?_
  match r, h₁ with
  | none, h₁ => exact h₁
  | some (dp, name), h₁ =>
  simp only
  refine (ilock_even h₁).andThen fun _ k₂ h₂ => ?_
  refine (dirlookup_even h₂).andThen fun r k₃ h₃ => ?_
  match r, h₃ with
  | some (ip, _), h₃ =>
    simp only
    refine (iunlockput_even (h₃.perm (List.Perm.swap ip dp own) (List.Perm.refl _))).andThen
      fun _ k₄ h₄ => ?_
    refine (ilock_even h₄).andThen fun _ k₅ h₅ => ?_
    rw [wp_bind, wp_get, wp_ite]
    exact ⟨fun _ => h₅, fun _ => (iunlockput_even h₅).andThen fun _ _ h₆ => h₆⟩
  | none, h₃ =>
  simp only
  refine (ialloc_even h₃).andThen fun r k₄ h₄ => ?_
  match r, h₄ with
  | none, h₄ => exact (iunlockput_even h₄).andThen fun _ _ h₅ => h₅
  | some ip, h₄ =>
  simp only
  refine (ilock_even h₄).andThen fun _ k₅ h₅ => ?_
  rw [wp_bind, wp_modify, wp_bind, wp_modify]
  have h₆ : Even base lk n R H (ip :: dp :: own) (ip :: dp :: locks) ((k₅.setInode ip fun i =>
      { i with major := short major, minor := short minor, nlink := 1 }).iupdate ip) := by
    refine Even.congr (k := k₅.setInode ip fun i =>
      { i with major := short major, minor := short minor, nlink := 1 }) ?_ rfl (fun _ => rfl)
      (fun _ => rfl) rfl
    exact h₅.touch fun _ => ⟨rfl, rfl⟩
  rw [wp_ite]
  exact ⟨fun _ => (dots_even h₆).andThen fun ok _ h₇ => enter_even h₇ ok,
    fun _ => enter_even h₆ true⟩

end Xv6.Names
