import Xv6.Names.Restore

/-!
# What a failed call leaves

> A call on names that returns -1 leaves every inode as it was, unless it is `sys_open`
> with `O_CREATE` that has made the file and then finds no `struct file` or no
> descriptor: that file stays (`failed_call`).

The last two exits of `sys_open` give up the reference to the inode and leave the name,
where `create` and `sys_link` undo what they did. Before that, every other call is shown
to keep the copies good, so that the result is about every state a run reaches.
-/

namespace Xv6.Names

open Lib
open Ftable (NFILE NOFILE FileId Fd FileType)

variable {base : Inum → Nat} {lk : Inum → Bool} {n : Nat} {R R' : Procs} {H H' : Inum → Nat}
  {own locks : List Inum} {room : List Bool} {T T' : Fs} {k k' : Kernel} {i dp ip c : Inum}
  {p np : Slot} {f : FileId}

/-! ## Files -/

theorem Copies.setFile (h : Copies base lk n R H own locks room none T k) (f : FileId) (x : File) :
    Copies base lk n (R.setFile f x) H own locks room none T (k.setFile f x) :=
  h.congr (h.toEven.setFile f x) rfl rfl rfl fun _ hj => hj

theorem Copies.setOfile (h : Copies base lk n R H own locks room none T k) (p : Slot) (fd : Fd)
    (o : Option FileId) : ∃ R', R'.file = R.file ∧ R'.cwd = R.cwd ∧ R'.life = R.life ∧
      Copies base lk n R' H own locks room none T (k.setOfile p fd o) := by
  obtain ⟨R', hf, hc, hl, he⟩ := h.toEven.setOfile p fd o
  exact ⟨R', hf, hc, hl, h.congr he rfl rfl rfl fun _ hj => hj⟩

theorem filealloc_none (k : Kernel) :
    wp filealloc (fun r _ => r = none → ∀ f, (k.file f).ref ≠ 0) Anyhow k := by
  unfold filealloc
  rw [wp_bind, wp_get]
  split
  next hnone =>
    exact fun _ f hf => List.find?_eq_none.mp hnone f (List.mem_finRange f) (decide_eq_true hf)
  next f _ => exact fun hc => absurd hc (Option.some_ne_none f)

theorem fdalloc_none (k : Kernel) (f : FileId) :
    wp (fdalloc p f) (fun r _ => r = none → ∀ fd, k.ofile p fd ≠ none) Anyhow k := by
  unfold fdalloc
  rw [wp_bind, wp_get]
  split
  next hnone =>
    exact fun _ fd hfd => List.find?_eq_none.mp hnone fd (List.mem_finRange fd) (decide_eq_true hfd)
  next fd _ => exact fun hc => absurd hc (Option.some_ne_none fd)

/-- **`fileclose`** of a file that has no inode leaves the disk alone. -/
theorem fileclose_copies (hF : Files R) (h : Copies base lk n R R.holders own locks room none T k)
    (hlo : ∀ j ∈ locks, j ∈ own) :
    wp (fileclose f) (fun _ k' => ∃ R' T', Files R' ∧ R'.cwd = R.cwd ∧ R'.life = R.life ∧
      ((R.file f).inode = none → R'.holders = R.holders ∧ T' = T) ∧
      Copies base lk n R' R'.holders own locks room none T' k') Anyhow k := by
  have hfile : k.file f = R.file f := congrFun (congrArg Procs.file h.procs) f
  have hsame : ∀ {x : File}, x.inode = (R.file f).inode → (x.ref = 0 → x.inode = none) →
      ∃ R' T', Files R' ∧ R'.cwd = R.cwd ∧ R'.life = R.life ∧
        ((R.file f).inode = none → R'.holders = R.holders ∧ T' = T) ∧
        Copies base lk n R' R'.holders own locks room none T' (k.setFile f x) := by
    intro x hx h0
    refine ⟨R.setFile f x, T, hF.setFile h0, rfl, rfl,
      fun _ => ⟨holders_setFile_same hx, rfl⟩, ?_⟩
    rw [holders_setFile_same hx]
    exact h.setFile f x
  unfold fileclose
  rw [wp_bind, wp_get]
  dsimp only
  rw [hfile, wp_ite]
  refine ⟨fun _ => trivial, fun href => ?_⟩
  rw [wp_ite]
  refine ⟨fun hmore => hsame rfl fun hc => absurd hc (Nat.pos_iff_ne_zero.mp hmore), fun _ => ?_⟩
  rw [wp_bind, wp_modify, wp_ite]
  set x : File := { R.file f with ref := 0, type := .FD_NONE } with hx
  have hxin : x.inode = none := rfl
  refine ⟨fun hty => ?_, fun hty => ?_⟩
  · have hin : (R.file f).inode = some (R.file f).ip := if_pos hty
    have hnot : ∀ {P : Prop}, (R.file f).inode = none → P := fun hc =>
      absurd (hin.symm.trans hc) (Option.some_ne_none _)
    have h₁ : Copies base lk n (R.setFile f x) (R.setFile f x).holders ((R.file f).ip :: own) locks
        room none T (k.setFile f x) := by
      refine (h.setFile f x).hand (h.setFile f x).procs rfl rfl rfl rfl (fun j => ?_) fun j hj => ?_
      · have hd := holders_setFile_drop hin hxin j
        have hc := count_head (R.file f).ip own j
        omega
      · have hd := holders_setFile_drop hin hxin j
        exact .inl (by omega)
    refine (begin_op_copies h₁).andThen fun _ k₂ h₂ => ?_
    refine (iput_copies h₂ fun hm => .inl (hlo _ hm)).andThen fun _ k₃ h₃ => ?_
    obtain ⟨T₃, h₃⟩ : ∃ T₃, Copies base lk (n + 1) (R.setFile f x) (R.setFile f x).holders own locks
        room none T₃ k₃ := h₃.elim (fun h => ⟨_, h.2⟩) fun h => ⟨_, h.2⟩
    refine (end_op_copies h₃).mono fun _ k₄ h₄ => ?_
    exact ⟨R.setFile f x, T₃, hF.setFile fun _ => hxin, rfl, rfl, hnot, h₄⟩
  · have hin : (R.file f).inode = none := if_neg hty
    exact hsame (hxin.trans hin.symm) fun _ => hxin

/-- `itrunc` of a locked inode. -/
theorem itrunc_copies (h : Copies base lk n R H own locks room none T k) (hi : i ∈ locks) :
    Copies base lk n R H own locks room none (T.truncate i) (k.itrunc i) := by
  obtain ⟨hu, hag⟩ := h.good hi
  have hself : (T.truncate i).disk i = { T.disk i with entries := [], data := [] } :=
    Function.update_self i _ _
  have hag' : (k.itable i).Agrees ((T.truncate i).disk i) := by
    rw [hself]
    exact hag
  have hfs : (k.itrunc i).fs = T.truncate i := by
    unfold Kernel.itrunc
    rw [iupdate_fs (k := { k with fs := k.fs.truncate i }) (by rw [h.fs]; exact hag')]
    exact congrArg (·.truncate i) h.fs
  refine h.write hi (h.toEven.congr rfl (fun _ => rfl) (fun _ => rfl) rfl) hfs h.balloc
    (fun _ _ => rfl) ⟨rfl, rfl⟩ (fun j hj => Function.update_of_ne hj _ _) ?_ hag' ?_
    fun _ _ hf => hf
  · unfold Fs.Used
    rw [hself]
    exact hu
  · rw [hself]
    exact h.tidy.nlink i

/-- Between two calls, with nothing said about the disk but that the copies are good. -/
def Between (base : Inum → Nat) (lk : Inum → Bool) (n : Nat) (k : Kernel) : Prop :=
  Files k.toProcs ∧ Still base lk n k.toProcs k.toProcs.holders [] [] k

theorem Still.between (h : Still base lk n R R.holders [] [] k) (hF : Files R) :
    Between base lk n k := by
  obtain ⟨room, T, h'⟩ := h
  obtain rfl := h'.procs
  exact ⟨hF, room, T, h'⟩

theorem Copies.between (h : Copies base lk n R R.holders [] [] room none T k) (hF : Files R) :
    Between base lk n k := h.still.between hF

/-! ## `sys_open` -/

/-- The inode `sys_open` works on is there, or it is new. -/
theorem openInode_copies (h : Copies base lk n R H [] [] room none T k) (hp : CwdHeld R H p)
    {path : Str} {omode : BitVec 32} :
    wp (openInode p path omode) (Outcome base lk n R H .T_FILE T
      (omode &&& O_CREATE ≠ 0 ∧ T.Makes (R.start p path) path room)) Anyhow k := by
  have hs := h.settled
  unfold openInode
  rw [wp_ite]
  refine ⟨fun hcreate => ?_, fun hno => ?_⟩
  · have hiff : T.Makes (R.start p path) path room ↔
        omode &&& O_CREATE ≠ 0 ∧ T.Makes (R.start p path) path room := (and_iff_right hcreate).symm
    rw [← propext hiff]
    exact create_copies h hp IType.noConfusion
  · have hfalse : ¬(omode &&& O_CREATE ≠ 0 ∧ T.Makes (R.start p path) path room) :=
      fun hc => hno hc.1
    refine (namei_copies hs h hp).andThen fun r k₁ h₁ => ?_
    match r, h₁ with
    | none, h₁ => exact ⟨fun _ => hfalse, room, T, Fs.Same.refl T, h₁⟩
    | some ip, h₁ =>
      simp only
      refine (ilock_copies h₁).andThen fun _ k₂ h₂ => ?_
      rw [wp_bind, wp_get, wp_ite]
      refine ⟨fun _ => ?_, fun _ => ⟨room, T, h₂, fun _ => ⟨hs, .inl ⟨hfalse, rfl⟩⟩⟩⟩
      exact (iunlockput_kept hs h₂).andThen fun _ _ h₃ =>
        ⟨fun _ => hfalse, room, T, Fs.Same.refl T, h₃⟩

/-- What a call leaves that returns -1 with the disk as it was just if not `leaves`. -/
def Answered (base : Inum → Nat) (lk : Inum → Bool) (n : Nat) (T : Fs) (leaves : Prop) (r : Int)
    (k : Kernel) : Prop :=
  Between base lk n k ∧ (r = -1 → (T.Same k.fs ↔ ¬leaves))

theorem Traceless.answered {r : Int} (h : Traceless base lk n R R.holders T r k) (hF : Files R) :
    Answered base lk n T False r k := by
  obtain ⟨room, T', h, hsame⟩ := h
  refine ⟨h.between hF, fun hr => ?_⟩
  rw [h.fs]
  exact ⟨fun _ hc => hc, fun _ => hsame hr⟩

/-- The call has run out of files or of descriptors. -/
def Procs.Out (R : Procs) (p : Slot) : Prop :=
  (∀ f, (R.file f).ref ≠ 0) ∨ ∀ fd, R.ofile p fd ≠ none

/-- From the descriptor on `sys_open` succeeds: the file `f` takes over the reference. -/
theorem openDone_copies (hF : Files R) {x : File} {fd : Fd} {trunc : Prop} [Decidable trunc]
    (hin : (R.file f).inode = none) (hx : x.inode = some ip) (hr : 0 < x.ref)
    (h : Copies base lk (n + 1) R R.holders [ip] [ip] room none T k) :
    wp (do
      if trunc then modify (·.itrunc ip) else pure ⟨⟩
      iunlock ip
      end_op
      pure (fd.val : Int)) (fun r k' => r = fd.val ∧ Between base lk n k') Anyhow
      (k.setFile f x) := by
  have hF' : Files (R.setFile f x) :=
    hF.setFile fun hc => absurd hc (Nat.pos_iff_ne_zero.mp hr)
  have hu := (h.good List.mem_cons_self).1
  have h₁ : Copies base lk (n + 1) (R.setFile f x) (R.setFile f x).holders [] [ip] room none T
      (k.setFile f x) := by
    refine (h.setFile f x).hand (h.setFile f x).procs rfl rfl rfl rfl (fun j => ?_) fun j hj => ?_
    · rw [holders_setFile_take hin hx j, List.count_nil, Nat.add_zero]
    · rw [holders_setFile_take hin hx j] at hj
      by_cases hji : j = ip
      · exact .inr (hji ▸ hu)
      · rw [List.count_cons_of_ne (Ne.symm hji), List.count_nil] at hj
        exact .inl hj
  have hfin : ∀ {T : Fs} {k : Kernel},
      Copies base lk (n + 1) (R.setFile f x) (R.setFile f x).holders [] [ip] room none T k →
      wp (do
        iunlock ip
        end_op
        pure (fd.val : Int)) (fun r k' => r = fd.val ∧ Between base lk n k') Anyhow k :=
    fun h => (iunlock_copies h).andThen fun _ _ h₂ =>
      (end_copies h₂).mono fun _ _ h₃ => ⟨h₃.1, h₃.2.between hF'⟩
  dsimp only
  rw [wp_ite]
  refine ⟨fun _ => ?_, fun _ => hfin h₁⟩
  rw [wp_bind, wp_modify]
  exact hfin (itrunc_copies h₁ List.mem_cons_self)

/-- **`sys_open`** that fails leaves the file it has made, and nothing else. -/
theorem sysOpen_copies (hF : Files R) (h : Copies base lk n R R.holders [] [] room none T k)
    {path : Str} {omode : BitVec 32} :
    wp (sysOpen p (some path) omode) (Answered base lk n T
      ((omode &&& O_CREATE ≠ 0 ∧ T.Makes (R.start p path) path room) ∧ R.Out p)) Anyhow k := by
  set makes := omode &&& O_CREATE ≠ 0 ∧ T.Makes (R.start p path) path room with hmakes
  -- an exit with -1 that gives up the inode
  have hgive : ∀ {R' : Procs} {room : List Bool} {T' : Fs} {k : Kernel} {ip : Inum}, Files R' →
      R'.holders = R.holders → (T'.Settled fun i => base i + R.holders i) →
      (T.Same T' ↔ ¬(makes ∧ R.Out p)) →
      Copies base lk (n + 1) R' R'.holders [ip] [ip] room none T' k →
      wp (giveUp ip) (Answered base lk n T (makes ∧ R.Out p)) Anyhow k := by
    intro R' room T' k ip hF' hH hs hsame h
    refine (put_end_kept (hH ▸ hs) h).mono fun r k' h' => ⟨h'.2.between hF', fun _ => ?_⟩
    rw [h'.2.fs]
    exact hsame
  unfold sysOpen
  simp only
  refine (begin_op_copies h).andThen fun _ k₁ h₁ => ?_
  refine (openInode_copies h₁ (holders_cwd R p)).andThen fun r k₂ h₂ => ?_
  match r, h₂ with
  | none, ⟨hno, room₂, T₂, hsame, h₂⟩ =>
    refine (end_copies h₂).mono fun r k' h' => ⟨h'.2.between hF, fun _ => ?_⟩
    rw [h'.2.fs]
    exact ⟨fun _ hc => hno rfl hc.1, fun _ => hsame⟩
  | some ip, ⟨room₂, T₂, h₂, hfile⟩ =>
  obtain ⟨hs₂, hwas⟩ := hfile rfl
  have htype : (k₂.itable ip).type = (T₂.disk ip).type := (h₂.good List.mem_cons_self).2.1
  have hmade : T.Same T₂ ↔ ¬makes := by
    rcases hwas with ⟨hno, rfl⟩ | ⟨hyes, hfree, ht⟩
    · exact ⟨fun _ => hno, fun _ => Fs.Same.refl T₂⟩
    · refine ⟨fun hsame => absurd ?_ hfree, fun hc => absurd hyes hc⟩
      unfold Fs.Used
      rw [← (hsame ip).1, ht]
      exact IType.noConfusion
  have hout : R.Out p → (T.Same T₂ ↔ ¬(makes ∧ R.Out p)) := fun ho =>
    hmade.trans (not_congr (and_iff_left ho).symm)
  simp only
  rw [wp_bind, wp_get, wp_ite]
  refine ⟨fun hdev => hgive hF rfl hs₂ ?_ h₂, fun _ => ?_⟩
  · -- a device was there before
    rcases hwas with ⟨hno, rfl⟩ | ⟨_, _, ht⟩
    · exact ⟨fun _ hc => hno hc.1, fun _ => Fs.Same.refl T₂⟩
    · rw [htype, ht] at hdev
      exact IType.noConfusion hdev.1
  refine (((filealloc_spec k₂).and (filealloc_none k₂)).monoStop fun _ _ _ => trivial).andThen
    fun r k₃ h₃ => ?_
  obtain ⟨⟨rfl, rfl⟩ | ⟨f, rfl, href, rfl⟩, hnone⟩ := h₃
  · refine hgive hF rfl hs₂ (hout (.inl fun f => ?_)) h₂
    rw [← h₂.procs]
    exact hnone rfl f
  simp only
  have hfile : k₂.file f = R.file f := congrFun (congrArg Procs.file h₂.procs) f
  rw [hfile] at href
  have hfree : (R.file f).inode = none := hF.free f href
  set x : File := { k₂.file f with ref := 1 } with hx
  have hxin : x.inode = (R.file f).inode := by
    rw [hx, hfile]
    rfl
  have hF₃ : Files (R.setFile f x) := hF.setFile fun hc => absurd hc Nat.one_ne_zero
  have hH₃ : (R.setFile f x).holders = R.holders := holders_setFile_same hxin
  have h₃ := h₂.setFile f x
  rw [← hH₃] at h₃
  refine (((fdalloc_spec (p := p) (k₂.setFile f x) f).and (fdalloc_none _ f)).monoStop
    fun _ _ _ => trivial).andThen fun r k₄ h₄ => ?_
  obtain ⟨⟨rfl, rfl⟩ | ⟨fd, rfl, rfl⟩, hnone⟩ := h₄
  · have hfull : R.Out p := .inr fun fd => by
      rw [← h₂.procs]
      exact hnone rfl fd
    refine (fileclose_copies hF₃ h₃ fun _ hj => hj).andThen fun _ k₅ h₅ => ?_
    obtain ⟨R₅, T₅, hF₅, _, _, hkeep, h₅⟩ := h₅
    obtain ⟨hH₅, rfl⟩ := hkeep (by rw [setFile_self, hxin, hfree])
    exact hgive hF₅ (hH₅.trans hH₃) hs₂ (hout hfull) h₅
  obtain ⟨R₄, hf₄, hc₄, hl₄, h₄⟩ := h₃.setOfile p fd (some f)
  rw [← holders_congr hf₄ hc₄] at h₄
  have hin₄ : (R₄.file f).inode = none := by
    rw [hf₄, setFile_self, hxin, hfree]
  simp only
  rw [wp_bind, wp_modify]
  refine (openDone_copies (hF₃.congr hf₄ hc₄ hl₄) hin₄ ?_ ?_ h₄).mono fun r k₇ h₇ =>
    ⟨h₇.2, fun hr => ?_⟩
  · unfold File.inode
    by_cases hdev : (k₂.itable ip).type = .T_DEVICE
    · simp [hdev]
    · simp [hdev]
  · show 0 < (Function.update k₂.file f x f).ref
    rw [Function.update_self]
    exact Nat.one_pos
  · have hpos : (0 : Int) ≤ fd.val := Int.natCast_nonneg _
    rw [← h₇.1, hr] at hpos
    exact absurd hpos (by decide)

/-! ## The other calls -/

/-- The reference to the new current directory is the process's, the one to the old the
call's. -/
theorem Copies.chdir (h : Copies base lk n R R.holders [ip] [] room none T k) (hu : T.Used ip)
    (hc : R.cwd p = some c) :
    Copies base lk n R (R.setCwd p (some ip)).holders [c] [] room none T k := by
  have htake : ∀ j, (R.setCwd p (some ip)).holders j =
      (R.setCwd p none).holders j + [ip].count j := fun j => by
    have ht := holders_setCwd_take (R := R.setCwd p none) (p := p) (i := ip)
      (by simp [Procs.setCwd]) j
    rwa [setCwd_setCwd] at ht
  refine h.hand h.procs rfl rfl rfl rfl (fun j => ?_) fun j hj => ?_
  · have hd := holders_setCwd_drop hc j
    have ht := htake j
    omega
  · by_cases hji : j = ip
    · exact .inr (hji ▸ hu)
    · have hd := holders_setCwd_drop hc j
      have ht := htake j
      rw [List.count_cons_of_ne (Ne.symm hji), List.count_nil] at ht
      exact .inl (by omega)

theorem sysChdir_copies (hF : Files R) (h : Copies base lk n R R.holders [] [] room none T k)
    (hlife : R.life p ≠ .unused) {path : Option Str} :
    wp (sysChdir p path) (Answered base lk n T False) Anyhow k := by
  have hs := h.settled
  have hsame : ∀ {r : Int} {k : Kernel}, Copies base lk n R R.holders [] [] room none T k →
      Answered base lk n T False r k := fun h => h.traceless.answered hF
  unfold sysChdir
  refine (begin_op_copies h).andThen fun _ k₁ h₁ => ?_
  match path with
  | none => exact (end_copies h₁).mono fun _ _ h' => hsame h'.2
  | some path =>
  simp only
  refine (namei_copies hs h₁ (holders_cwd R p)).andThen fun r k₂ h₂ => ?_
  match r, h₂ with
  | none, h₂ => exact (end_copies h₂).mono fun _ _ h' => hsame h'.2
  | some ip, h₂ =>
  simp only
  refine (ilock_copies h₂).andThen fun _ k₃ h₃ => ?_
  have hu := (h₃.good List.mem_cons_self).1
  rw [wp_bind, wp_get, wp_ite]
  refine ⟨fun _ => (put_end_kept hs h₃).mono fun _ _ h' => hsame h'.2, fun _ => ?_⟩
  refine (iunlock_copies h₃).andThen fun _ k₄ h₄ => ?_
  refine (cwdOf_even h₄.toEven).andThen fun c k₅ h₅ => ?_
  obtain ⟨hc, rfl⟩ := h₅
  refine (iput_still (h₄.chdir hu hc) fun hm => absurd hm List.not_mem_nil).andThen
    fun _ k₆ h₆ => ?_
  obtain ⟨room₆, T₆, h₆⟩ := h₆
  refine (end_op_copies h₆).andThen fun _ k₇ h₇ => ?_
  rw [wp_bind, wp_modify, wp_pure]
  have h₈ : Copies base lk n (R.setCwd p (some ip)) (R.setCwd p (some ip)).holders [] [] room₆ none
      T₆ { k₇ with cwd := Function.update k₇.cwd p (some ip) } := by
    refine h₇.hand ?_ rfl rfl rfl rfl (fun _ => rfl) fun _ hj => .inl hj
    rw [← h₇.procs]
    rfl
  exact ⟨h₈.between (hF.setCwd fun hc => absurd hc hlife), fun hc => absurd hc zero_ne_minus_one⟩

theorem filedup_copies (hF : Files R) (h : Copies base lk n R R.holders own locks room none T k) :
    wp (filedup f) (fun _ k' => ∃ R', Files R' ∧ R'.cwd = R.cwd ∧ R'.life = R.life ∧
      Copies base lk n R' R'.holders own locks room none T k') Anyhow k := by
  have hfile : k.file f = R.file f := congrFun (congrArg Procs.file h.procs) f
  unfold filedup
  rw [wp_bind, wp_get, wp_ite]
  refine ⟨fun _ => trivial, fun _ => ?_⟩
  rw [wp_modify, hfile]
  set x : File := { R.file f with ref := (R.file f).ref + 1 } with hx
  have hH : (R.setFile f x).holders = R.holders := holders_setFile_same rfl
  refine ⟨R.setFile f x, hF.setFile fun hc => absurd hc (Nat.succ_ne_zero _), rfl, rfl, ?_⟩
  rw [hH]
  exact h.setFile f x

theorem sysClose_copies (hF : Files R) (h : Copies base lk n R R.holders [] [] room none T k)
    {fd : Fd} : wp (sysClose p fd) (fun _ k' => Between base lk n k') Anyhow k := by
  unfold sysClose argfd
  rw [wp_bind, wp_bind, wp_get, wp_pure]
  split
  next => exact h.between hF
  next f _ =>
    rw [wp_bind, wp_modify]
    obtain ⟨R₁, hf, hc, hl, h₁⟩ := h.setOfile p fd none
    rw [← holders_congr hf hc] at h₁
    refine (fileclose_copies (hF.congr hf hc hl) h₁ fun _ hj => hj).andThen fun _ k₂ h₂ => ?_
    obtain ⟨R₂, T₂, hF₂, _, _, _, h₂⟩ := h₂
    exact h₂.between hF₂

theorem sysDup_copies (hF : Files R) (h : Copies base lk n R R.holders [] [] room none T k)
    {fd : Fd} : wp (sysDup p fd) (fun _ k' => Between base lk n k') Anyhow k := by
  unfold sysDup argfd
  rw [wp_bind, wp_bind, wp_get, wp_pure]
  split
  next => exact h.between hF
  next f _ =>
    refine (fdalloc_spec (p := p) k f).andThen fun r k₁ h₁ => ?_
    rcases h₁ with ⟨rfl, rfl⟩ | ⟨fd, rfl, rfl⟩
    · exact h.between hF
    · simp only
      obtain ⟨R₁, hf, hc, hl, h₁⟩ := h.setOfile p fd (some f)
      rw [← holders_congr hf hc] at h₁
      refine (filedup_copies (hF.congr hf hc hl) h₁).andThen fun _ k₂ h₂ => ?_
      obtain ⟨R₂, hF₂, _, _, h₂⟩ := h₂
      exact h₂.between hF₂

theorem sysFstat_copies (hF : Files R) (h : Copies base lk n R R.holders [] [] room none T k)
    {fd : Fd} : wp (sysFstat p fd) (fun _ k' => Between base lk n k') Anyhow k := by
  unfold sysFstat argfd
  rw [wp_bind, wp_bind, wp_get, wp_pure]
  split
  next => exact h.between hF
  next f _ =>
    unfold filestat
    rw [wp_bind, wp_get]
    dsimp only
    rw [wp_ite]
    refine ⟨fun _ => ?_, fun _ => h.between hF⟩
    exact (ilock_copies h).andThen fun _ _ h₁ => (iunlock_copies h₁).andThen fun _ _ h₂ =>
      h₂.between hF

theorem kexec_copies (hF : Files R) (h : Copies base lk n R R.holders [] [] room none T k)
    {path : Option Str} : wp (kexec p path) (fun _ k' => Between base lk n k') Anyhow k := by
  have hs := h.settled
  unfold kexec
  match path with
  | none => exact h.between hF
  | some path =>
  simp only
  refine (begin_op_copies h).andThen fun _ k₁ h₁ => ?_
  refine (namei_copies hs h₁ (holders_cwd R p)).andThen fun r k₂ h₂ => ?_
  match r, h₂ with
  | none, h₂ => exact (end_copies h₂).mono fun _ _ h' => h'.2.between hF
  | some ip, h₂ =>
  exact (ilock_copies h₂).andThen fun _ _ h₃ =>
    (put_end_kept hs h₃).mono fun _ _ h' => h'.2.between hF

theorem dupFiles_copies (fds : List Fd) : ∀ {R : Procs} {k : Kernel}, Files R →
    Copies base lk n R R.holders own locks room none T k →
    wp (dupFiles p np fds) (fun _ k' => ∃ R', Files R' ∧ R'.cwd = R.cwd ∧ R'.life = R.life ∧
      Copies base lk n R' R'.holders own locks room none T k') Anyhow k := by
  induction fds with
  | nil =>
    intro R k hF h
    exact ⟨R, hF, rfl, rfl, h⟩
  | cons fd fds ih =>
    intro R k hF h
    unfold dupFiles argfd
    rw [wp_bind, wp_bind, wp_get, wp_pure]
    split
    next => exact ih hF h
    next f _ =>
      rw [wp_bind]
      refine (filedup_copies hF h).mono fun _ k₁ h₁ => ?_
      rw [wp_bind, wp_modify]
      obtain ⟨R₁, hF₁, hc₁, hl₁, h₁⟩ := h₁
      obtain ⟨R₂, hf₂, hc₂, hl₂, h₂⟩ := h₁.setOfile np fd (some f)
      rw [← holders_congr hf₂ hc₂] at h₂
      refine (ih (hF₁.congr hf₂ hc₂ hl₂) h₂).mono fun _ k₃ h₃ => ?_
      obtain ⟨R₃, hF₃, hc₃, hl₃, h₃⟩ := h₃
      exact ⟨R₃, hF₃, hc₃.trans (hc₂.trans hc₁), hl₃.trans (hl₂.trans hl₁), h₃⟩

theorem kfork_copies (hF : Files R) (h : Copies base lk n R R.holders [] [] room none T k)
    (hnp : R.life np = .unused) :
    wp (kfork p np) (fun _ k' => Between base lk n k') Anyhow k := by
  unfold kfork
  refine (dupFiles_copies _ hF h).andThen fun _ k₁ h₁ => ?_
  obtain ⟨R₁, hF₁, hc₁, hl₁, h₁⟩ := h₁
  refine (cwdOf_even h₁.toEven).andThen fun c k₂ h₂ => ?_
  obtain ⟨hc, rfl⟩ := h₂
  have hheld : 0 < R₁.holders c := holders_cwd R₁ p c hc
  have href : 0 < (k₂.itable c).ref := by
    rw [h₁.refs]
    exact Nat.add_pos_left (Nat.add_pos_right _ hheld) _
  refine (idup_copies h₁ href).andThen fun _ k₃ h₃ => ?_
  rw [wp_bind, wp_modify, wp_pure]
  have hnone : R₁.cwd np = none := hF₁.idle np (hl₁ ▸ hnp)
  have ht := holders_setCwd_take (R := R₁) (p := np) (i := c) hnone
  refine Copies.between (R := (R₁.setLife np .running).setCwd np (some c)) (h₃.hand ?_ rfl rfl rfl
    rfl (fun j => ?_) fun j hj => ?_) ((hF₁.setLife Life.noConfusion).setCwd fun hu => ?_)
  · rw [← h₃.procs]
    rfl
  · rw [List.count_nil, Nat.add_zero]
    exact ht j
  · have hj' : 0 < R₁.holders j + [c].count j := (ht j) ▸ hj
    by_cases hjc : j = c
    · exact .inl (hjc ▸ hheld)
    · rw [List.count_cons_of_ne (Ne.symm hjc), List.count_nil] at hj'
      exact .inl hj'
  · simp [Procs.setLife] at hu

theorem kexit_copies (hF : Files R) (h : Copies base lk n R R.holders [] [] room none T k) :
    wp (kexit p) (fun _ k' => Between base lk n k') Anyhow k := by
  unfold kexit
  rw [wp_bind, wp_get, wp_ite]
  refine ⟨fun _ => trivial, fun _ => ?_⟩
  split
  next fd _ =>
    rw [wp_bind, wp_modify]
    have h₁ : Copies base lk n (R.setLife p .exiting) (R.setLife p .exiting).holders [] [] room none
        T { k with life := Function.update k.life p .exiting } := by
      refine h.hand ?_ rfl rfl rfl rfl (fun _ => rfl) fun _ hj => .inl hj
      rw [← h.procs]
      rfl
    have hF₁ : Files (R.setLife p .exiting) := hF.setLife Life.noConfusion
    unfold argfd
    rw [wp_bind, wp_bind, wp_get, wp_pure]
    split
    next => exact h₁.between hF₁
    next f _ =>
      refine (fileclose_copies hF₁ h₁ fun _ hj => hj).andThen fun _ k₂ h₂ => ?_
      obtain ⟨R₂, T₂, hF₂, _, _, _, h₂⟩ := h₂
      rw [wp_bind, wp_modify, wp_pure]
      obtain ⟨R₃, hf, hc, hl, h₃⟩ := h₂.setOfile p fd none
      rw [← holders_congr hf hc] at h₃
      exact h₃.between (hF₂.congr hf hc hl)
  next =>
    refine (cwdOf_even h.toEven).andThen fun c k₁ h₁ => ?_
    obtain ⟨hc, rfl⟩ := h₁
    refine (begin_op_copies h).andThen fun _ k₂ h₂ => ?_
    have h₂' : Copies base lk (n + 1) R (R.setCwd p none).holders [c] [] room none T k₂ := by
      refine h₂.hand h₂.procs rfl rfl rfl rfl (fun j => ?_) fun j hj => ?_
      · rw [holders_setCwd_drop hc j, List.count_nil, Nat.add_zero]
      · have hd := holders_setCwd_drop hc j
        exact .inl (by omega)
    refine (iput_still h₂' fun hm => absurd hm List.not_mem_nil).andThen fun _ k₃ h₃ => ?_
    obtain ⟨room₃, T₃, h₃⟩ := h₃
    refine (end_op_copies h₃).andThen fun _ k₄ h₄ => ?_
    rw [wp_bind, wp_modify, wp_pure]
    refine Copies.between (R := (R.setCwd p none).setLife p .unused) (h₄.hand ?_ rfl rfl rfl rfl
      (fun _ => rfl) fun _ hj => .inl hj) ((hF.setCwd fun _ => rfl).setLife fun _ => ?_)
    · rw [← h₄.procs]
      rfl
    · simp [Procs.setCwd]

/-! ## The result -/

/-- `sys_open` makes the file and fails afterwards: with `O_CREATE`, a name that is free in
a directory that is there, an inode and room for the entry, but no `struct file` or no
descriptor. -/
def Leaves (k : Kernel) (a : Act) : Prop :=
  match a.call with
  | .sysOpen (some path) omode =>
    (omode &&& O_CREATE ≠ 0 ∧ k.fs.Makes (k.toProcs.start a.proc path) path a.room) ∧
      k.toProcs.Out a.proc
  | _ => False

/-- `sys_open`, `sys_mkdir`, `sys_mknod`, `sys_link` and `sys_unlink`. -/
def Call.onTree : Call → Bool
  | .sysOpen _ _ | .sysMkdir _ | .sysMknod _ _ _ | .sysLink _ _ | .sysUnlink _ => true
  | _ => false

/-- What `main` starts the first process with; inodes that are free are cleared. -/
def Start (k : Kernel) : Prop := Boot k ∧ k.fs.Tidy

theorem Start.between (h : Start k) : ∃ base lk n, Between base lk n k := by
  obtain ⟨hboot, htidy⟩ := h
  have hinv : Inv False k := hboot.inv
  obtain ⟨hF, T, _, hm⟩ := hinv
  obtain rfl := hm.fs
  refine ⟨fun _ => 0, fun i => (k.itable i).locked, k.outstanding, hF, k.room, k.fs,
    ⟨⟨rfl, fun i => ?_, fun i => ?_, ⟨List.nodup_nil, fun _ hi => absurd hi List.not_mem_nil⟩, rfl⟩,
      rfl, rfl, htidy, fun i hr hv => ⟨hm.used i hr, hm.agrees i hr hv⟩, hm.unlinked,
      fun i hi => ?_,
      fun i hi => absurd hi List.not_mem_nil⟩⟩
  · rw [hm.refs, Nat.zero_add]
  · exact ⟨.inl, fun hc => hc.resolve_right List.not_mem_nil⟩
  · refine hm.used i ?_
    rw [hm.refs]
    omega

/-- **Every call** keeps the copies good, and one that fails has left the disk alone
unless `Leaves` says otherwise. -/
theorem syscall_copies {a : Act} (h : Between base lk n k) (hen : enabled k a = true) :
    wp (syscall a.proc a.call) (fun r k' => Between base lk n k' ∧
      (a.call.onTree = true → r = -1 → (k.fs.Same k'.fs ↔ ¬Leaves k a))) Anyhow
      { k with room := a.room } := by
  have hlife := enabled_life hen
  obtain ⟨p, call, room⟩ := a
  obtain ⟨hF, _, T, h⟩ := h
  obtain rfl := h.fs
  have h : Copies base lk n k.toProcs k.toProcs.holders [] [] room none k.fs
      { k with room := room } :=
    ⟨h.toEven.congr rfl (fun _ => rfl) (fun _ => rfl) rfl, rfl, rfl, h.tidy, h.copy, h.orphan,
      h.held, h.read⟩
  have hp := holders_cwd k.toProcs p
  have hout : ∀ {m : Sys Int} {leaves : Prop}, wp m (Answered base lk n k.fs leaves) Anyhow
      { k with room := room } → (leaves ↔ Leaves k ⟨p, call, room⟩) →
      wp m (fun r k' => Between base lk n k' ∧ (call.onTree = true → r = -1 →
        (k.fs.Same k'.fs ↔ ¬Leaves k ⟨p, call, room⟩))) Anyhow { k with room := room } :=
    fun hm hiff => hm.mono fun _ _ h' => ⟨h'.1, fun _ hr => (h'.2 hr).trans (not_congr hiff)⟩
  have htrace : ∀ {m : Sys Int}, wp m (Traceless base lk n k.toProcs k.toProcs.holders k.fs) Anyhow
      { k with room := room } → (Leaves k ⟨p, call, room⟩ ↔ False) →
      wp m (fun r k' => Between base lk n k' ∧ (call.onTree = true → r = -1 →
        (k.fs.Same k'.fs ↔ ¬Leaves k ⟨p, call, room⟩))) Anyhow { k with room := room } :=
    fun hm hno => hout (hm.mono fun _ _ h' => h'.answered hF) hno.symm
  have hother : ∀ {m : Sys Int}, call.onTree = false →
      wp m (fun _ k' => Between base lk n k') Anyhow { k with room := room } →
      wp m (fun r k' => Between base lk n k' ∧ (call.onTree = true → r = -1 →
        (k.fs.Same k'.fs ↔ ¬Leaves k ⟨p, call, room⟩))) Anyhow { k with room := room } :=
    fun hf hm => hm.mono fun _ _ h' => ⟨h', fun hc => absurd (hf.symm.trans hc) Bool.false_ne_true⟩
  cases call with
  | sysOpen path omode =>
    match path with
    | none => exact htrace h.traceless Iff.rfl
    | some path => exact hout (sysOpen_copies hF h) Iff.rfl
  | sysMkdir path => exact htrace (make_copies h hp IType.noConfusion) Iff.rfl
  | sysMknod path major minor => exact htrace (make_copies h hp IType.noConfusion) Iff.rfl
  | sysLink old new => exact htrace (sysLink_copies h hp) Iff.rfl
  | sysUnlink path => exact htrace (sysUnlink_copies h hp) Iff.rfl
  | sysChdir path => exact hother rfl ((sysChdir_copies hF h hlife).mono fun _ _ h' => h'.1)
  | sysClose fd => exact hother rfl (sysClose_copies hF h)
  | sysDup fd => exact hother rfl (sysDup_copies hF h)
  | sysFstat fd => exact hother rfl (sysFstat_copies hF h)
  | kexec path => exact hother rfl (kexec_copies hF h)
  | kfork np => exact hother rfl (kfork_copies hF h (of_decide_eq_true hen).2)
  | kexit => exact hother rfl (kexit_copies hF h)

/-- Every run keeps the copies good. -/
theorem between_reach (h : Reach step Any Start k) : ∃ base lk n, Between base lk n k := by
  refine h.inv (fun k h₀ => h₀.between) fun {k k' a} hb _ hstep => ?_
  obtain ⟨base, lk, n, hb⟩ := hb
  unfold Names.step at hstep
  split at hstep
  next hen =>
    have hwp := syscall_copies hb hen
    unfold runCall at hstep
    split at hstep
    next v k₁ hrun =>
      obtain rfl := Option.some.inj hstep
      exact ⟨base, lk, n, (hwp.of_ok hrun).1⟩
    next => exact absurd hstep.symm (Option.some_ne_none k')
  next => exact absurd hstep.symm (Option.some_ne_none k')

/-- **A failed call** leaves the tree as it was, but for a file that `sys_open` has made
before it runs out of files or descriptors. -/
theorem failed_call {a : Act} (h : Reach step Any Start k) (hen : enabled k a = true)
    (hn : a.call.onTree = true) (hrun : runCall k a = (.ok (-1), k')) :
    k.fs.Same k'.fs ↔ ¬Leaves k a := by
  obtain ⟨base, lk, n, hb⟩ := between_reach h
  exact ((syscall_copies hb hen).of_ok hrun).2 hn rfl

theorem first_start : Start first := by
  refine ⟨first_boot, fun i hi => ?_, fun i => ?_⟩
  · have hne : i ≠ ROOTINO := fun hc => hi (rootFs_used.mpr hc)
    rw [show first.fs.disk i = rootFs.disk i from rfl, rootFs_disk_of_ne hne]
    exact ⟨rfl, rfl, rfl⟩
  · by_cases hi : i = ROOTINO
    · subst hi
      decide
    · rw [show first.fs.disk i = rootFs.disk i from rfl, rootFs_disk_of_ne hi]
      exact short_zero

/-- A directory for which `balloc` finds no block: the inode it was given is free again. -/
theorem failed_call_mkdir :
    ∃ k', runCall first ⟨0, .sysMkdir (some [97]), [false]⟩ = (.ok (-1), k') ∧
    first.fs.Same k'.fs := by
  have hrun : (runCall first ⟨0, .sysMkdir (some [97]), [false]⟩).1 = .ok (-1) := by decide +kernel
  refine ⟨_, Prod.ext hrun rfl, ?_⟩
  exact (failed_call (a := ⟨0, .sysMkdir (some [97]), [false]⟩) (.start first_start) (by decide) rfl
    (Prod.ext hrun rfl)).mpr id

/-- A process opens the root directory until it has no descriptor left. -/
def openAll : List Act := List.replicate NOFILE ⟨0, .sysOpen (some [slash]) O_RDONLY, []⟩

theorem openAll_run : (runFrom step first openAll).map (fun k =>
    (enabled k ⟨0, .sysOpen (some [102]) O_CREATE, []⟩, (k.fs.disk 2).type,
      (runCall k ⟨0, .sysOpen (some [102]) O_CREATE, []⟩).1,
      ((runCall k ⟨0, .sysOpen (some [102]) O_CREATE, []⟩).2.fs.disk 2).type)) =
    some (true, .free, .ok (-1), .T_FILE) := by
  decide +kernel

/-- One more `open` returns -1 and makes the file. -/
theorem failed_open_leaves : ¬∀ k a k', Reach step Any Start k → enabled k a = true →
    a.call.onTree = true → runCall k a = (.ok (-1), k') → k.fs.Same k'.fs := by
  intro h
  obtain ⟨k, hrun, hk⟩ := Option.map_eq_some_iff.mp openAll_run
  obtain ⟨hen, hk⟩ := Prod.mk.inj hk
  obtain ⟨hfree, hk⟩ := Prod.mk.inj hk
  obtain ⟨hcall, hfile⟩ := Prod.mk.inj hk
  have hreach : Reach step Any Start k :=
    Reach.of_run openAll (.start first_start) (RunOk.any step _ first) hrun
  have hsame := h k _ _ hreach hen rfl (Prod.ext hcall rfl) 2
  rw [hfree, hfile] at hsame
  exact IType.noConfusion hsame.1

end Xv6.Names
