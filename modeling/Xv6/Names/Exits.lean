import Xv6.Names.Balance
import Xv6.Names.Links

/-!
# Every exit is balanced

> On every exit of a call on names the transactions it began have ended, it holds no
> sleep-lock, and the reference counts are what they were, but for the one a new open
> file has, or the two that changed places as a current directory (`exits_balanced`).

The disk may hold anything, and anything may run out. What the call may rely on is
`Sane`: a file that is not in use refers to nothing, and no reference is missing. Every run keeps
that (`sane_reach`).
-/

namespace Xv6.Names

open Lib
open Ftable (NFILE NOFILE FileId Fd FileType)

variable {base : Inum → Nat} {lk : Inum → Bool} {n : Nat} {R R' : Procs} {H H' : Inum → Nat}
  {own locks : List Inum} {k k' : Kernel} {i c dp ip : Inum} {p np : Slot}

/-- Between two calls: the processes and files hold what `H` says. -/
structure After (base : Inum → Nat) (lk : Inum → Bool) (n : Nat) (H : Inum → Nat) (k : Kernel) :
    Prop where
  files : Files k.toProcs
  holders : k.toProcs.holders = H
  even : Even base lk n k.toProcs H [] [] k

theorem Even.after (h : Even base lk n R R.holders [] [] k) (hF : Files R) :
    After base lk n R.holders k := by
  obtain rfl := h.procs
  exact ⟨hF, rfl, h⟩

theorem begin_op_even (h : Even base lk n R H own locks k) :
    wp begin_op (fun _ k' => Even base lk (n + 1) R H own locks k') Anyhow k :=
  ⟨h.procs, h.refs, h.locked, h.apart, congrArg (· + 1) h.outstanding⟩

theorem end_op_even (h : Even base lk (n + 1) R H own locks k) :
    wp end_op (fun _ k' => Even base lk n R H own locks k') Anyhow k :=
  ⟨h.procs, h.refs, h.locked, h.apart, congrArg (· - 1) h.outstanding⟩

/-- An exit that ends the transaction. -/
theorem end_even {r : Int} (h : Even base lk (n + 1) R H own locks k) :
    wp (do
      end_op
      pure r) (fun r' k' => r' = r ∧ Even base lk n R H own locks k') Anyhow k :=
  (end_op_even h).andThen fun _ _ h' => ⟨rfl, h'⟩

/-- An exit that gives up an inode and ends the transaction. -/
theorem put_end_even {r : Int} (h : Even base lk (n + 1) R H (i :: own) (i :: locks) k) :
    wp (do
      iunlockput i
      end_op
      pure r) (fun r' k' => r' = r ∧ Even base lk n R H own locks k') Anyhow k :=
  (iunlockput_even h).andThen fun _ _ h' => end_even h'

/-! ## Calls that leave processes and files alone -/

theorem make_even (h : Even base lk n R H [] [] k) {path : Option Str} {type : IType}
    {major minor : Int} :
    wp (make p path type major minor) (fun _ k' => Even base lk n R H [] [] k') Anyhow k := by
  unfold make
  refine (begin_op_even h).andThen fun _ k₁ h₁ => ?_
  match path with
  | none => exact (end_even h₁).mono fun _ _ h' => h'.2
  | some path =>
  refine (create_even h₁).andThen fun r k₂ h₂ => ?_
  match r, h₂ with
  | none, h₂ => exact (end_even h₂).mono fun _ _ h' => h'.2
  | some ip, h₂ => exact (put_end_even h₂).mono fun _ _ h' => h'.2

theorem unmakeLink_even (h : Even base lk (n + 1) R H [ip] [] k) :
    wp (unmakeLink ip) (fun _ k' => Even base lk n R H [] [] k') Anyhow k := by
  unfold unmakeLink
  refine (ilock_even h).andThen fun _ k₁ h₁ => ?_
  refine (setNlink_even h₁).andThen fun _ k₂ h₂ => ?_
  exact (put_end_even h₂).mono fun _ _ h' => h'.2

theorem sysLink_even (h : Even base lk n R H [] [] k) {old new : Option Str} :
    wp (sysLink p old new) (fun _ k' => Even base lk n R H [] [] k') Anyhow k := by
  unfold sysLink
  match old, new with
  | none, _ => exact h
  | some _, none => exact h
  | some old, some new =>
  simp only
  refine (begin_op_even h).andThen fun _ k₁ h₁ => ?_
  refine (namei_even h₁).andThen fun r k₂ h₂ => ?_
  match r, h₂ with
  | none, h₂ => exact (end_even h₂).mono fun _ _ h' => h'.2
  | some ip, h₂ =>
  simp only
  refine (ilock_even h₂).andThen fun _ k₃ h₃ => ?_
  rw [wp_bind, wp_get, wp_ite]
  refine ⟨fun _ => (put_end_even h₃).mono fun _ _ h' => h'.2, fun _ => ?_⟩
  refine (setNlink_even h₃).andThen fun _ k₄ h₄ => ?_
  refine (iunlock_even h₄).andThen fun _ k₅ h₅ => ?_
  unfold nameiparent
  refine (namex_even h₅).andThen fun r k₆ h₆ => ?_
  match r, h₆ with
  | none, h₆ => exact unmakeLink_even h₆
  | some (dp, name), h₆ =>
  simp only
  refine (ilock_even h₆).andThen fun _ k₇ h₇ => ?_
  refine (dirlink_even h₇).andThen fun ok k₈ h₈ => ?_
  refine (iunlockput_even h₈).andThen fun _ k₉ h₉ => ?_
  rw [wp_ite]
  refine ⟨fun _ => ?_, fun _ => unmakeLink_even h₉⟩
  refine (iput_even h₉).andThen fun _ k₁₀ h₁₀ => ?_
  exact (end_even h₁₀).mono fun _ _ h' => h'.2

theorem unlinkAt_even (h : Even base lk (n + 1) R H [ip, dp] [ip, dp] k) {off : Nat} :
    wp (unlinkAt dp ip off) (fun _ k' => Even base lk n R H [] [] k') Anyhow k := by
  unfold unlinkAt
  refine (writei_even h).andThen fun ok k₁ h₁ => ?_
  rw [wp_ite]
  refine ⟨fun _ => trivial, fun _ => ?_⟩
  rw [wp_bind, wp_get]
  have hrest : ∀ {k : Kernel}, Even base lk (n + 1) R H [ip, dp] [ip, dp] k → wp (do
      iunlockput dp
      setNlink ip (· - 1)
      iunlockput ip
      end_op
      pure (0 : Int)) (fun _ k' => Even base lk n R H [] [] k') Anyhow k := fun h =>
    (iunlockput_even h.swap).andThen fun _ _ h₁ => (setNlink_even h₁).andThen fun _ _ h₂ =>
      (put_end_even h₂).mono fun _ _ h' => h'.2
  dsimp only
  rw [wp_ite]
  exact ⟨fun _ => (setNlink_even h₁).andThen fun _ _ h₂ => hrest h₂, fun _ => hrest h₁⟩

theorem sysUnlink_even (h : Even base lk n R H [] [] k) {path : Option Str} :
    wp (sysUnlink p path) (fun _ k' => Even base lk n R H [] [] k') Anyhow k := by
  unfold sysUnlink
  match path with
  | none => exact h
  | some path =>
  simp only
  refine (begin_op_even h).andThen fun _ k₁ h₁ => ?_
  unfold nameiparent
  refine (namex_even h₁).andThen fun r k₂ h₂ => ?_
  match r, h₂ with
  | none, h₂ => exact (end_even h₂).mono fun _ _ h' => h'.2
  | some (dp, name), h₂ =>
  simp only
  refine (ilock_even h₂).andThen fun _ k₃ h₃ => ?_
  have hbad : ∀ {k : Kernel}, Even base lk (n + 1) R H [dp] [dp] k →
      wp (unlinkBad dp) (fun _ k' => Even base lk n R H [] [] k') Anyhow k := fun h =>
    (put_end_even h).mono fun _ _ h' => h'.2
  rw [wp_ite]
  refine ⟨fun _ => hbad h₃, fun _ => ?_⟩
  refine (dirlookup_even h₃).andThen fun r k₄ h₄ => ?_
  match r, h₄ with
  | none, h₄ => exact hbad h₄
  | some (ip, off), h₄ =>
  simp only
  refine (ilock_even h₄).andThen fun _ k₅ h₅ => ?_
  rw [wp_bind, wp_get, wp_ite]
  refine ⟨fun _ => trivial, fun _ => ?_⟩
  rw [wp_ite]
  exact ⟨fun _ => (iunlockput_even h₅).andThen fun _ _ h₆ => hbad h₆, fun _ => unlinkAt_even h₅⟩

theorem kexec_even (h : Even base lk n R H [] [] k) {path : Option Str} :
    wp (kexec p path) (fun _ k' => Even base lk n R H [] [] k') Anyhow k := by
  unfold kexec
  match path with
  | none => exact h
  | some path =>
  simp only
  refine (begin_op_even h).andThen fun _ k₁ h₁ => ?_
  refine (namei_even h₁).andThen fun r k₂ h₂ => ?_
  match r, h₂ with
  | none, h₂ => exact (end_even h₂).mono fun _ _ h' => h'.2
  | some ip, h₂ =>
  exact (ilock_even h₂).andThen fun _ _ h₃ => (put_end_even h₃).mono fun _ _ h' => h'.2

/-! ## Files -/

theorem openInode_even (h : Even base lk n R H own locks k) {path : Str} {omode : BitVec 32} :
    wp (openInode p path omode) (GotLocked base lk n R H own locks) Anyhow k := by
  unfold openInode
  rw [wp_ite]
  refine ⟨fun _ => create_even h, fun _ => ?_⟩
  refine (namei_even h).andThen fun r k₁ h₁ => ?_
  match r, h₁ with
  | none, h₁ => exact h₁
  | some ip, h₁ =>
  simp only
  refine (ilock_even h₁).andThen fun _ k₂ h₂ => ?_
  rw [wp_bind, wp_get, wp_ite]
  exact ⟨fun _ => (iunlockput_even h₂).andThen fun _ _ h₃ => h₃, fun _ => h₂⟩

/-- A slot of the file table. -/
theorem filealloc_spec (k : Kernel) :
    wp filealloc (fun r k' => (r = none ∧ k' = k) ∨ ∃ f, r = some f ∧ (k.file f).ref = 0 ∧
      k' = k.setFile f { k.file f with ref := 1 }) Anyhow k := by
  unfold filealloc
  rw [wp_bind, wp_get]
  split
  next => exact .inl ⟨rfl, rfl⟩
  next f hfind =>
    have hz := List.find?_some hfind
    exact .inr ⟨f, rfl, of_decide_eq_true hz, rfl⟩

/-- A descriptor. -/
theorem fdalloc_spec (k : Kernel) (f : FileId) :
    wp (fdalloc p f) (fun r k' => (r = none ∧ k' = k) ∨ ∃ fd, r = some fd ∧
      k' = k.setOfile p fd (some f)) Anyhow k := by
  unfold fdalloc
  rw [wp_bind, wp_get]
  split
  next => exact .inl ⟨rfl, rfl⟩
  next fd _ => exact .inr ⟨fd, rfl, rfl⟩

@[simp] theorem setFile_self (R : Procs) (f : FileId) (x : File) : (R.setFile f x).file f = x := by
  simp [Procs.setFile]

theorem Even.setFile (h : Even base lk n R H own locks k) (f : FileId) (x : File) :
    Even base lk n (R.setFile f x) H own locks (k.setFile f x) := by
  refine h.hand ?_ rfl rfl fun _ => rfl
  rw [← h.procs]
  rfl

theorem Even.setOfile (h : Even base lk n R H own locks k) (p : Slot) (fd : Fd)
    (o : Option FileId) : ∃ R', R'.file = R.file ∧ R'.cwd = R.cwd ∧ R'.life = R.life ∧
      Even base lk n R' H own locks (k.setOfile p fd o) := by
  have hp := h.procs
  refine ⟨(k.setOfile p fd o).toProcs, ?_, ?_, ?_, h.hand rfl rfl rfl fun _ => rfl⟩
  · rw [← hp]
    rfl
  · rw [← hp]
    rfl
  · rw [← hp]
    rfl

/-- **`fileclose`** gives back what the file held. -/
theorem fileclose_even (hF : Files R) (h : Even base lk n R R.holders own locks k) {f : FileId} :
    wp (fileclose f) (fun _ k' => ∃ R', Files R' ∧ R'.cwd = R.cwd ∧ R'.life = R.life ∧
      ((R.file f).inode = none → R'.holders = R.holders) ∧
      Even base lk n R' R'.holders own locks k') Anyhow k := by
  have hfile : k.file f = R.file f := congrFun (congrArg Procs.file h.procs) f
  have hsame : ∀ {x : File}, x.inode = (R.file f).inode → (x.ref = 0 → x.inode = none) →
      ∃ R', Files R' ∧ R'.cwd = R.cwd ∧ R'.life = R.life ∧
        ((R.file f).inode = none → R'.holders = R.holders) ∧
        Even base lk n R' R'.holders own locks (k.setFile f x) := by
    intro x hx h0
    refine ⟨R.setFile f x, hF.setFile h0, rfl, rfl, fun _ => holders_setFile_same hx, ?_⟩
    rw [holders_setFile_same hx]
    exact h.setFile f x
  unfold fileclose
  rw [wp_bind, wp_get]
  dsimp only
  rw [hfile, wp_ite]
  refine ⟨fun _ => trivial, fun href => ?_⟩
  rw [wp_ite]
  refine ⟨fun hmore => hsame rfl fun hc => absurd hc (Nat.pos_iff_ne_zero.mp hmore), fun _ => ?_⟩
  rw [wp_bind, wp_modify, wp_ite]
  set x : File := { R.file f with ref := 0, type := .FD_NONE } with hx
  have hxin : x.inode = none := rfl
  refine ⟨fun hty => ?_, fun hty => ?_⟩
  · have hin : (R.file f).inode = some (R.file f).ip := if_pos hty
    have h₁ : Even base lk n (R.setFile f x) (R.setFile f x).holders ((R.file f).ip :: own) locks
        (k.setFile f x) := by
      refine (h.setFile f x).hand (h.setFile f x).procs rfl rfl fun j => ?_
      have hd := holders_setFile_drop hin hxin j
      have hc := count_head (R.file f).ip own j
      omega
    refine (begin_op_even h₁).andThen fun _ k₂ h₂ => ?_
    refine (iput_even h₂).andThen fun _ k₃ h₃ => ?_
    refine (end_op_even h₃).mono fun _ k₄ h₄ => ?_
    exact ⟨R.setFile f x, hF.setFile fun _ => hxin, rfl, rfl,
      fun hc => absurd (hin.symm.trans hc) (Option.some_ne_none _), h₄⟩
  · have hin : (R.file f).inode = none := if_neg hty
    exact hsame (hxin.trans hin.symm) fun _ => hxin

/-- What `sys_open` leaves: nothing, or a descriptor for a file with a reference of its
own. -/
def Opened (base : Inum → Nat) (lk : Inum → Bool) (n : Nat) (R : Procs) (p : Slot) (r : Int)
    (k : Kernel) : Prop :=
  (r = -1 ∧ After base lk n R.holders k) ∨
  ∃ fd f ip, r = (fd : Fd).val ∧ k.ofile p fd = some f ∧ (R.file f).ref = 0 ∧
    (k.file f).inode = some ip ∧ After base lk n (fun j => R.holders j + [ip].count j) k

theorem sysOpen_even (hF : Files R) (h : Even base lk n R R.holders [] [] k) {path : Option Str}
    {omode : BitVec 32} :
    wp (sysOpen p path omode) (Opened base lk n R p) Anyhow k := by
  have hfail : ∀ {R' : Procs} {r : Int} {k : Kernel}, Files R' → R'.holders = R.holders →
      r = -1 ∧ Even base lk n R' R'.holders [] [] k → Opened base lk n R p r k :=
    fun hF' hH h => .inl ⟨h.1, hH ▸ h.2.after hF'⟩
  unfold sysOpen
  match path with
  | none => exact hfail hF rfl ⟨rfl, h⟩
  | some path =>
  simp only
  refine (begin_op_even h).andThen fun _ k₁ h₁ => ?_
  refine (openInode_even h₁).andThen fun r k₂ h₂ => ?_
  match r, h₂ with
  | none, h₂ => exact (end_even h₂).mono fun _ _ => hfail hF rfl
  | some ip, h₂ =>
  simp only
  rw [wp_bind, wp_get, wp_ite]
  have hgive : ∀ {R' : Procs} {k : Kernel}, Files R' → R'.holders = R.holders →
      Even base lk (n + 1) R' R'.holders [ip] [ip] k →
      wp (giveUp ip) (Opened base lk n R p) Anyhow k := fun hF' hH h =>
    (put_end_even h).mono fun _ _ => hfail hF' hH
  refine ⟨fun _ => hgive hF rfl h₂, fun _ => ?_⟩
  refine ((filealloc_spec k₂)).andThen fun r k₃ h₃ => ?_
  rcases h₃ with ⟨rfl, rfl⟩ | ⟨f, rfl, href, rfl⟩
  · exact hgive hF rfl h₂
  simp only
  have hfile : k₂.file f = R.file f := congrFun (congrArg Procs.file h₂.procs) f
  rw [hfile] at href
  have hfree : (R.file f).inode = none := hF.free f href
  set x : File := { k₂.file f with ref := 1 } with hx
  have hxin : x.inode = (R.file f).inode := by
    rw [hx, hfile]
    rfl
  have hF₃ : Files (R.setFile f x) := hF.setFile fun hc => absurd hc Nat.one_ne_zero
  have hH₃ : (R.setFile f x).holders = R.holders := holders_setFile_same hxin
  have h₃ := h₂.setFile f x
  rw [← hH₃] at h₃
  refine (fdalloc_spec (p := p) (k₂.setFile f x) f).andThen fun r k₄ h₄ => ?_
  rcases h₄ with ⟨rfl, rfl⟩ | ⟨fd, rfl, rfl⟩
  · refine (fileclose_even hF₃ h₃).andThen fun _ k₅ h₅ => ?_
    obtain ⟨R₅, hF₅, _, _, hH₅, h₅⟩ := h₅
    refine hgive hF₅ ((hH₅ ?_).trans hH₃) h₅
    rw [setFile_self, hxin, hfree]
  obtain ⟨R₄, hf₄, hc₄, hl₄, h₄⟩ := h₃.setOfile p fd (some f)
  simp only
  rw [wp_bind, wp_modify]
  -- the file takes over the reference of the call
  have hrest : ∀ y : File, y.inode = some ip → 0 < y.ref → wp (do
      if omode &&& O_TRUNC ≠ 0 ∧ (k₂.itable ip).type = .T_FILE then modify (·.itrunc ip)
      else pure ⟨⟩
      iunlock ip
      end_op
      pure (fd.val : Int)) (Opened base lk n R p) Anyhow
        (((k₂.setFile f x).setOfile p fd (some f)).setFile f y) := by
    intro y hy hr
    have h₅ := h₄.setFile f y
    set k₅ := ((k₂.setFile f x).setOfile p fd (some f)).setFile f y with hk₅
    have hfin : ∀ {k : Kernel}, k.toProcs = k₅.toProcs →
        Even base lk (n + 1) (R₄.setFile f y) (R.setFile f x).holders [ip] [ip] k → wp (do
          iunlock ip
          end_op
          pure (fd.val : Int)) (Opened base lk n R p) Anyhow k := by
      intro k hp h
      refine (iunlock_even h).andThen fun _ k₆ h₆ => ?_
      refine (end_op_even h₆).andThen fun _ k₇ h₇ => ?_
      have hin₄ : (R₄.file f).inode = none := by
        rw [hf₄, setFile_self, hxin, hfree]
      have hholders : (R₄.setFile f y).holders = fun j => R.holders j + [ip].count j := by
        funext j
        rw [holders_setFile_take hin₄ hy j, holders_congr hf₄ hc₄, hH₃]
      have hafter : Even base lk n (R₄.setFile f y) (R₄.setFile f y).holders [] [] k₇ :=
        h₇.hand h₇.procs rfl rfl fun j => by
          rw [hholders, hH₃]
          simp
      have hp₇ : k₇.toProcs = k₅.toProcs := h₇.procs.trans (h.procs.symm.trans hp)
      refine .inr ⟨fd, f, ip, rfl, ?_, href, ?_, hholders ▸ hafter.after
        ((hF₃.congr hf₄ hc₄ hl₄).setFile fun hc => absurd hc (Nat.pos_iff_ne_zero.mp hr))⟩
      · rw [congrArg Procs.ofile hp₇, hk₅]
        simp [Kernel.setFile, Kernel.setOfile]
      · rw [congrArg Procs.file hp₇, hk₅]
        simp [Kernel.setFile, hy]
    dsimp only
    rw [wp_ite]
    refine ⟨fun _ => ?_, fun _ => hfin rfl h₅⟩
    rw [wp_bind, wp_modify]
    exact hfin rfl (h₅.congr rfl (fun _ => rfl) (fun _ => rfl) rfl)
  refine hrest _ ?_ ?_
  · unfold File.inode
    by_cases hdev : (k₂.itable ip).type = .T_DEVICE
    · simp [hdev]
    · simp [hdev]
  · show 0 < (Function.update k₂.file f x f).ref
    rw [Function.update_self]
    exact Nat.one_pos

/-! ## The other calls -/

/-- The reference of a process to its current directory is given back. -/
theorem iputCwd_even (h : Even base lk n R R.holders own locks k) (hc : R.cwd p = some c) :
    wp (iput c) (fun _ k' => Even base lk n R (R.setCwd p none).holders own locks k') Anyhow k := by
  refine iput_even (h.hand h.procs rfl rfl fun j => ?_)
  have hd := holders_setCwd_drop hc j
  have hcnt := count_head c own j
  omega

/-- What `sys_chdir` leaves. -/
def Moved (base : Inum → Nat) (lk : Inum → Bool) (n : Nat) (R : Procs) (p : Slot) (r : Int)
    (k : Kernel) : Prop :=
  (r = -1 ∧ After base lk n R.holders k) ∨
  ∃ old new H, r = 0 ∧ R.cwd p = some old ∧ k.cwd p = some new ∧ After base lk n H k ∧
    ∀ j, H j + [old].count j = R.holders j + [new].count j

theorem sysChdir_even (hF : Files R) (h : Even base lk n R R.holders [] [] k)
    (hlife : R.life p ≠ .unused) {path : Option Str} :
    wp (sysChdir p path) (Moved base lk n R p) Anyhow k := by
  have hfail : ∀ {r : Int} {k : Kernel}, r = -1 ∧ Even base lk n R R.holders [] [] k →
      Moved base lk n R p r k := fun h => .inl ⟨h.1, h.2.after hF⟩
  unfold sysChdir
  refine (begin_op_even h).andThen fun _ k₁ h₁ => ?_
  match path with
  | none => exact (end_even h₁).mono fun _ _ => hfail
  | some path =>
  simp only
  refine (namei_even h₁).andThen fun r k₂ h₂ => ?_
  match r, h₂ with
  | none, h₂ => exact (end_even h₂).mono fun _ _ => hfail
  | some ip, h₂ =>
  simp only
  refine (ilock_even h₂).andThen fun _ k₃ h₃ => ?_
  rw [wp_bind, wp_get, wp_ite]
  refine ⟨fun _ => (put_end_even h₃).mono fun _ _ => hfail, fun _ => ?_⟩
  refine (iunlock_even h₃).andThen fun _ k₄ h₄ => ?_
  refine (cwdOf_even h₄).andThen fun c k₅ h₅ => ?_
  obtain ⟨hc, rfl⟩ := h₅
  refine (iputCwd_even h₄ hc).andThen fun _ k₆ h₆ => ?_
  refine (end_op_even h₆).andThen fun _ k₇ h₇ => ?_
  rw [wp_bind, wp_modify, wp_pure]
  have htake : ∀ j, (R.setCwd p (some ip)).holders j =
    (R.setCwd p none).holders j + [ip].count j := by
    intro j
    have ht := holders_setCwd_take (R := R.setCwd p none) (p := p) (i := ip)
      (by simp [Procs.setCwd]) j
    rwa [setCwd_setCwd] at ht
  have h₈ : Even base lk n (R.setCwd p (some ip)) (R.setCwd p (some ip)).holders [] []
      { k₇ with cwd := Function.update k₇.cwd p (some ip) } := by
    refine h₇.hand ?_ rfl rfl fun j => ?_
    · rw [← h₇.procs]
      rfl
    · rw [htake, List.count_nil, Nat.add_zero]
      rfl
  refine .inr ⟨c, ip, _, rfl, hc, Function.update_self p _ _,
    h₈.after (hF.setCwd fun hu => absurd hu hlife), fun j => ?_⟩
  have hd := holders_setCwd_drop hc j
  have ht := htake j
  omega

/-- The processes and files hold something else afterwards. -/
def Afterwards (base : Inum → Nat) (lk : Inum → Bool) (n : Nat) (k : Kernel) : Prop :=
  ∃ H, After base lk n H k

theorem Even.afterwards (h : Even base lk n R R.holders [] [] k) (hF : Files R) :
    Afterwards base lk n k := ⟨_, h.after hF⟩

theorem filedup_even (hF : Files R) (h : Even base lk n R R.holders own locks k) {f : FileId} :
    wp (filedup f) (fun _ k' => ∃ R', Files R' ∧ R'.cwd = R.cwd ∧ R'.life = R.life ∧
      Even base lk n R' R'.holders own locks k') Anyhow k := by
  have hfile : k.file f = R.file f := congrFun (congrArg Procs.file h.procs) f
  unfold filedup
  rw [wp_bind, wp_get, wp_ite]
  refine ⟨fun _ => trivial, fun _ => ?_⟩
  rw [wp_modify, hfile]
  set x : File := { R.file f with ref := (R.file f).ref + 1 } with hx
  have hH : (R.setFile f x).holders = R.holders := holders_setFile_same rfl
  refine ⟨R.setFile f x, hF.setFile fun hc => absurd hc (Nat.succ_ne_zero _), rfl, rfl, ?_⟩
  rw [hH]
  exact h.setFile f x

theorem sysClose_even (hF : Files R) (h : Even base lk n R R.holders [] [] k) {fd : Fd} :
    wp (sysClose p fd) (fun _ k' => Afterwards base lk n k') Anyhow k := by
  unfold sysClose argfd
  rw [wp_bind, wp_bind, wp_get, wp_pure]
  split
  next => exact h.afterwards hF
  next f _ =>
    rw [wp_bind, wp_modify]
    obtain ⟨R₁, hf, hc, hl, h₁⟩ := h.setOfile p fd none
    rw [← holders_congr hf hc] at h₁
    refine (fileclose_even (hF.congr hf hc hl) h₁).andThen fun _ k₂ h₂ => ?_
    obtain ⟨R₂, hF₂, _, _, _, h₂⟩ := h₂
    exact h₂.afterwards hF₂

theorem sysDup_even (hF : Files R) (h : Even base lk n R R.holders [] [] k) {fd : Fd} :
    wp (sysDup p fd) (fun _ k' => Afterwards base lk n k') Anyhow k := by
  unfold sysDup argfd
  rw [wp_bind, wp_bind, wp_get, wp_pure]
  split
  next => exact h.afterwards hF
  next f _ =>
    refine (fdalloc_spec (p := p) k f).andThen fun r k₁ h₁ => ?_
    rcases h₁ with ⟨rfl, rfl⟩ | ⟨fd, rfl, rfl⟩
    · exact h.afterwards hF
    · simp only
      obtain ⟨R₁, hf, hc, hl, h₁⟩ := h.setOfile p fd (some f)
      rw [← holders_congr hf hc] at h₁
      refine (filedup_even (hF.congr hf hc hl) h₁).andThen fun _ k₂ h₂ => ?_
      obtain ⟨R₂, hF₂, _, _, h₂⟩ := h₂
      exact h₂.afterwards hF₂

theorem sysFstat_even (hF : Files R) (h : Even base lk n R R.holders [] [] k) {fd : Fd} :
    wp (sysFstat p fd) (fun _ k' => Afterwards base lk n k') Anyhow k := by
  unfold sysFstat argfd
  rw [wp_bind, wp_bind, wp_get, wp_pure]
  split
  next => exact h.afterwards hF
  next f _ =>
    unfold filestat
    rw [wp_bind, wp_get]
    dsimp only
    rw [wp_ite]
    refine ⟨fun _ => ?_, fun _ => h.afterwards hF⟩
    exact (ilock_even h).andThen fun _ _ h₁ => (iunlock_even h₁).andThen fun _ _ h₂ =>
      h₂.afterwards hF

theorem dupFiles_even (fds : List Fd) : ∀ {R : Procs} {k : Kernel}, Files R →
    Even base lk n R R.holders own locks k →
    wp (dupFiles p np fds) (fun _ k' => ∃ R', Files R' ∧ R'.cwd = R.cwd ∧ R'.life = R.life ∧
      Even base lk n R' R'.holders own locks k') Anyhow k := by
  induction fds with
  | nil =>
    intro R k hF h
    exact ⟨R, hF, rfl, rfl, h⟩
  | cons fd fds ih =>
    intro R k hF h
    unfold dupFiles argfd
    rw [wp_bind, wp_bind, wp_get, wp_pure]
    split
    next => exact ih hF h
    next f _ =>
      rw [wp_bind]
      refine (filedup_even hF h).mono fun _ k₁ h₁ => ?_
      rw [wp_bind, wp_modify]
      obtain ⟨R₁, hF₁, hc₁, hl₁, h₁⟩ := h₁
      obtain ⟨R₂, hf₂, hc₂, hl₂, h₂⟩ := h₁.setOfile np fd (some f)
      rw [← holders_congr hf₂ hc₂] at h₂
      refine (ih (hF₁.congr hf₂ hc₂ hl₂) h₂).mono fun _ k₃ h₃ => ?_
      obtain ⟨R₃, hF₃, hc₃, hl₃, h₃⟩ := h₃
      exact ⟨R₃, hF₃, hc₃.trans (hc₂.trans hc₁), hl₃.trans (hl₂.trans hl₁), h₃⟩

theorem kfork_even (hF : Files R) (h : Even base lk n R R.holders [] [] k)
    (hnp : R.life np = .unused) :
    wp (kfork p np) (fun _ k' => Afterwards base lk n k') Anyhow k := by
  unfold kfork
  refine (dupFiles_even _ hF h).andThen fun _ k₁ h₁ => ?_
  obtain ⟨R₁, hF₁, _, hl₁, h₁⟩ := h₁
  refine (cwdOf_even h₁).andThen fun c k₂ h₂ => ?_
  obtain ⟨_, rfl⟩ := h₂
  refine (idup_even h₁).andThen fun _ k₃ h₃ => ?_
  rw [wp_bind, wp_modify, wp_pure]
  have hnone : R₁.cwd np = none := hF₁.idle np (hl₁ ▸ hnp)
  refine Even.afterwards (R := (R₁.setLife np .running).setCwd np (some c)) (h₃.hand ?_ rfl rfl
    fun j => ?_) ((hF₁.setLife Life.noConfusion).setCwd fun hu => ?_)
  · rw [← h₃.procs]
    rfl
  · have ht := holders_setCwd_take (R := R₁) (p := np) (i := c) hnone j
    rw [List.count_nil, Nat.add_zero]
    exact ht
  · simp [Procs.setLife] at hu

theorem kexit_even (hF : Files R) (h : Even base lk n R R.holders [] [] k) :
    wp (kexit p) (fun _ k' => Afterwards base lk n k') Anyhow k := by
  unfold kexit
  rw [wp_bind, wp_get, wp_ite]
  refine ⟨fun _ => trivial, fun _ => ?_⟩
  split
  next fd _ =>
    rw [wp_bind, wp_modify]
    have h₁ : Even base lk n (R.setLife p .exiting) (R.setLife p .exiting).holders [] []
        { k with life := Function.update k.life p .exiting } := by
      refine h.hand ?_ rfl rfl fun _ => rfl
      rw [← h.procs]
      rfl
    have hF₁ : Files (R.setLife p .exiting) := hF.setLife Life.noConfusion
    unfold argfd
    rw [wp_bind, wp_bind, wp_get, wp_pure]
    split
    next => exact h₁.afterwards hF₁
    next f _ =>
      refine (fileclose_even hF₁ h₁).andThen fun _ k₂ h₂ => ?_
      obtain ⟨R₂, hF₂, _, _, _, h₂⟩ := h₂
      rw [wp_bind, wp_modify, wp_pure]
      obtain ⟨R₃, hf, hc, hl, h₃⟩ := h₂.setOfile p fd none
      rw [← holders_congr hf hc] at h₃
      exact h₃.afterwards (hF₂.congr hf hc hl)
  next =>
    refine (cwdOf_even h).andThen fun c k₁ h₁ => ?_
    obtain ⟨hc, rfl⟩ := h₁
    refine (begin_op_even h).andThen fun _ k₂ h₂ => ?_
    refine (iputCwd_even h₂ hc).andThen fun _ k₃ h₃ => ?_
    refine (end_op_even h₃).andThen fun _ k₄ h₄ => ?_
    rw [wp_bind, wp_modify, wp_pure]
    refine Even.afterwards (R := (R.setCwd p none).setLife p .unused) (h₄.hand ?_ rfl rfl
      fun _ => rfl) ((hF.setCwd fun _ => rfl).setLife fun _ => ?_)
    · rw [← h₄.procs]
      rfl
    · simp [Procs.setCwd]

/-! ## The result -/

/-- A file that is not in use refers to nothing, and the processes and files have their
references. -/
structure Sane (k : Kernel) : Prop where
  files : Files k.toProcs
  refs : ∀ i, k.toProcs.holders i ≤ (k.itable i).ref

/-- The references beyond those of the processes and files, and the locks, before a call. -/
theorem Sane.even (h : Sane k) (room : List Bool) :
    Even (fun i => (k.itable i).ref - k.toProcs.holders i) (fun i => (k.itable i).locked)
      k.outstanding k.toProcs k.toProcs.holders [] [] { k with room := room } := by
  refine ⟨rfl, fun i => ?_, fun i => ?_, ⟨List.nodup_nil, fun i hi => absurd hi List.not_mem_nil⟩,
    rfl⟩
  · rw [List.count_nil, Nat.add_zero]
    exact (Nat.sub_add_cancel (h.refs i)).symm
  · exact ⟨.inl, fun hc => hc.resolve_right List.not_mem_nil⟩

theorem After.sane (h : After base lk n H k) : Sane k := by
  refine ⟨h.files, fun i => ?_⟩
  rw [h.even.refs, h.holders, List.count_nil]
  omega

/-- **Every call** gives back what it took. -/
theorem syscall_even {a : Act} (h : Even base lk n k.toProcs k.toProcs.holders [] [] k)
    (hF : Files k.toProcs) (hen : enabled k a = true) :
    wp (syscall a.proc a.call) (fun _ k' => Afterwards base lk n k') Anyhow k := by
  have hlife := enabled_life hen
  obtain ⟨p, call, room⟩ := a
  have hsame : ∀ {m : Sys Int}, wp m (fun _ k' =>
      Even base lk n k.toProcs k.toProcs.holders [] [] k') Anyhow k →
      wp m (fun _ k' => Afterwards base lk n k') Anyhow k := fun h =>
    h.mono fun _ _ h' => h'.afterwards hF
  cases call with
  | sysOpen path omode =>
    refine (sysOpen_even hF h).mono fun r k' h' => ?_
    rcases h' with ⟨_, h'⟩ | ⟨_, _, _, _, _, _, _, h'⟩
    · exact ⟨_, h'⟩
    · exact ⟨_, h'⟩
  | sysMkdir path => exact hsame (make_even h)
  | sysMknod path major minor => exact hsame (make_even h)
  | sysLink old new => exact hsame (sysLink_even h)
  | sysUnlink path => exact hsame (sysUnlink_even h)
  | sysChdir path =>
    refine (sysChdir_even hF h hlife).mono fun r k' h' => ?_
    rcases h' with ⟨_, h'⟩ | ⟨_, _, _, _, _, _, h', _⟩
    · exact ⟨_, h'⟩
    · exact ⟨_, h'⟩
  | sysClose fd => exact sysClose_even hF h
  | sysDup fd => exact sysDup_even hF h
  | sysFstat fd => exact sysFstat_even hF h
  | kexec path => exact hsame (kexec_even h)
  | kfork np => exact kfork_even hF h (of_decide_eq_true hen).2
  | kexit => exact kexit_even hF h

/-- Every run keeps the references. -/
theorem sane_reach (h : Reach step Any Boot k) : Sane k := by
  refine h.inv (fun k h₀ => ?_) fun {k k' a} hs _ hstep => ?_
  · have hinv : Inv False k := h₀.inv
    obtain ⟨hF, T, _, hm⟩ := hinv
    exact ⟨hF, fun i => by rw [hm.refs]; exact Nat.le_add_right _ _⟩
  · unfold Names.step at hstep
    split at hstep
    next hen =>
      have hwp := syscall_even (k := { k with room := a.room }) (hs.even a.room) hs.files hen
      unfold runCall at hstep
      split at hstep
      next v k₁ hrun =>
        obtain rfl := Option.some.inj hstep
        obtain ⟨H, hafter⟩ := hwp.of_ok hrun
        exact hafter.sane
      next => exact absurd hstep.symm (Option.some_ne_none k')
    next => exact absurd hstep.symm (Option.some_ne_none k')

/-- `sys_open`, `sys_mkdir`, `sys_mknod`, `sys_link`, `sys_unlink` and `sys_chdir`. -/
def Call.onNames : Call → Bool
  | .sysOpen _ _ | .sysMkdir _ | .sysMknod _ _ _ | .sysLink _ _ | .sysUnlink _ | .sysChdir _ => true
  | _ => false

/-- The reference counts are what they were. -/
def SameRefs (k k' : Kernel) : Prop := ∀ i, (k'.itable i).ref = (k.itable i).ref

/-- What changes from before a call to its exit. -/
def Balanced (k : Kernel) (a : Act) (r : Int) (k' : Kernel) : Prop :=
  k'.outstanding = k.outstanding ∧ (∀ i, (k'.itable i).locked = (k.itable i).locked) ∧
  match a.call with
  | .sysOpen _ _ => (r = -1 ∧ SameRefs k k') ∨
    ∃ fd f ip, r = (fd : Fd).val ∧ k'.ofile a.proc fd = some f ∧ (k.file f).ref = 0 ∧
      (k'.file f).inode = some ip ∧ ∀ i, (k'.itable i).ref = (k.itable i).ref + [ip].count i
  | .sysChdir _ => (r = -1 ∧ SameRefs k k') ∨
    ∃ old new, r = 0 ∧ k.cwd a.proc = some old ∧ k'.cwd a.proc = some new ∧
      ∀ i, (k'.itable i).ref + [old].count i = (k.itable i).ref + [new].count i
  | _ => SameRefs k k'

/-- The references a call leaves, in terms of those before it. -/
theorem Sane.refs_after (hs : Sane k)
    (h : After (fun i => (k.itable i).ref - k.toProcs.holders i) lk n H k') (i : Inum) :
    (k'.itable i).ref + k.toProcs.holders i = (k.itable i).ref + H i := by
  have hr := h.even.refs i
  have hle := hs.refs i
  rw [List.count_nil] at hr
  omega

theorem Sane.sameRefs (hs : Sane k)
    (h : After (fun i => (k.itable i).ref - k.toProcs.holders i) lk n k.toProcs.holders k') :
    SameRefs k k' := fun i => by
  have hr := hs.refs_after h i
  omega

/-- **Every exit is balanced.** -/
theorem exits_balanced {a : Act} {r : Int} (hs : Sane k) (hen : enabled k a = true)
    (hn : a.call.onNames = true) (hrun : runCall k a = (.ok r, k')) : Balanced k a r k' := by
  have h := hs.even a.room
  have hF := hs.files
  have hlife := enabled_life hen
  -- the locks and the transactions
  obtain ⟨H, hafter⟩ := (syscall_even (k := { k with room := a.room }) h hF hen).of_ok hrun
  have hlocks : ∀ i, (k'.itable i).locked = (k.itable i).locked := fun i => by
    have hi := hafter.even.locked i
    rw [or_iff_left List.not_mem_nil] at hi
    exact Bool.eq_iff_iff.mpr hi
  refine ⟨hafter.even.outstanding, hlocks, ?_⟩
  obtain ⟨p, call, room⟩ := a
  have hsame : ∀ {m : Sys Int}, wp m (fun _ k' =>
      Even (fun i => (k.itable i).ref - k.toProcs.holders i) (fun i => (k.itable i).locked)
        k.outstanding k.toProcs k.toProcs.holders [] [] k') Anyhow { k with room := room } →
      exec m { k with room := room } = (.ok r, k') → SameRefs k k' := fun hm hx =>
    hs.sameRefs ((hm.of_ok hx).after hF)
  cases call with
  | sysOpen path omode =>
    rcases (sysOpen_even hF h).of_ok hrun with ⟨hr, h'⟩ | ⟨fd, f, ip, hr, hfd, hfree, hin, h'⟩
    · exact .inl ⟨hr, hs.sameRefs h'⟩
    · refine .inr ⟨fd, f, ip, hr, hfd, hfree, hin, fun i => ?_⟩
      have hi := hs.refs_after h' i
      omega
  | sysMkdir path => exact hsame (make_even h) hrun
  | sysMknod path major minor => exact hsame (make_even h) hrun
  | sysLink old new => exact hsame (sysLink_even h) hrun
  | sysUnlink path => exact hsame (sysUnlink_even h) hrun
  | sysChdir path =>
    rcases (sysChdir_even hF h hlife).of_ok hrun with ⟨hr, h'⟩ |
      ⟨old, new, H', hr, ho, hnew, h', hH⟩
    · exact .inl ⟨hr, hs.sameRefs h'⟩
    · refine .inr ⟨old, new, hr, ho, hnew, fun i => ?_⟩
      have hi := hs.refs_after h' i
      have hj := hH i
      omega
  | sysClose fd => exact absurd hn Bool.false_ne_true
  | sysDup fd => exact absurd hn Bool.false_ne_true
  | sysFstat fd => exact absurd hn Bool.false_ne_true
  | kexec path => exact absurd hn Bool.false_ne_true
  | kfork np => exact absurd hn Bool.false_ne_true
  | kexit => exact absurd hn Bool.false_ne_true

/-- A new file is opened: its inode has one reference. -/
theorem exits_balanced_open : ∃ k', (k'.itable 2).ref = 1 ∧
    Balanced first ⟨0, .sysOpen (some [102]) O_CREATE, [true]⟩ 0 k' := by
  have hrun : (runCall first ⟨0, .sysOpen (some [102]) O_CREATE, [true]⟩).1 = .ok 0 ∧
      ((runCall first ⟨0, .sysOpen (some [102]) O_CREATE, [true]⟩).2.itable 2).ref = 1 := by
    decide +kernel
  exact ⟨_, hrun.2, exits_balanced (sane_reach (.start first_boot)) (by decide) rfl
    (Prod.ext hrun.1 rfl)⟩

end Xv6.Names
