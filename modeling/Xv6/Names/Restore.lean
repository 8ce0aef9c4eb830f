import Xv6.Names.Undo

/-!
# Exits that leave no trace

> `sys_mkdir`, `sys_mknod`, `sys_link` and `sys_unlink` leave every inode as it was when
> they return -1 (`make_copies`, `sysLink_copies`, `sysUnlink_copies`).

`create` and `sys_link` take back by hand what they did before an exit with -1.
`sys_link` counts the link up before it knows whether there is room for the entry, and
down again at `bad`; in between it holds the inode, as `withOne` says, so that nobody's
`iput` looks at the count. `sys_unlink` changes nothing before it knows that it will
succeed. On the other exits all that matters is that the copies stay good (`Still`).
-/

namespace Xv6.Names

open Lib
open Ftable (NFILE NOFILE FileId Fd FileType)

variable {base : Inum → Nat} {lk : Inum → Bool} {n : Nat} {R : Procs} {H H' : Inum → Nat}
  {own locks : List Inum} {room : List Bool} {T T' : Fs} {k k' : Kernel} {i dp ip c : Inum}
  {p np : Slot} {type : IType}

/-! ## Transactions -/

theorem begin_op_copies (h : Copies base lk n R H own locks room none T k) :
    wp begin_op (fun _ k' => Copies base lk (n + 1) R H own locks room none T k') Anyhow k :=
  h.congr (begin_op_even h.toEven) rfl rfl rfl fun _ hj => hj

theorem end_op_copies (h : Copies base lk (n + 1) R H own locks room none T k) :
    wp end_op (fun _ k' => Copies base lk n R H own locks room none T k') Anyhow k :=
  h.congr (end_op_even h.toEven) rfl rfl rfl fun _ hj => hj

theorem end_copies {r : Int} (h : Copies base lk (n + 1) R H own locks room none T k) :
    wp (do
      end_op
      pure r) (fun r' k' => r' = r ∧ Copies base lk n R H own locks room none T k') Anyhow k :=
  (end_op_copies h).andThen fun _ _ h' => ⟨rfl, h'⟩

/-- An exit that gives up an inode and leaves the disk alone. -/
theorem put_end_kept {r : Int} (hs : T.Settled fun i => base i + H i)
    (h : Copies base lk (n + 1) R H (i :: own) (i :: locks) room none T k) :
    wp (do
      iunlockput i
      end_op
      pure r) (fun r' k' => r' = r ∧ Copies base lk n R H own locks room none T k') Anyhow k :=
  (iunlockput_kept hs h).andThen fun _ _ h' => end_copies h'

/-- `Copies` for some disk. -/
def Still (base : Inum → Nat) (lk : Inum → Bool) (n : Nat) (R : Procs) (H : Inum → Nat)
    (own locks : List Inum) (k : Kernel) : Prop :=
  ∃ room T, Copies base lk n R H own locks room none T k

theorem Copies.still (h : Copies base lk n R H own locks room none T k) :
    Still base lk n R H own locks k := ⟨_, _, h⟩

theorem iput_still (h : Copies base lk n R H (i :: own) locks room none T k)
    (hl : i ∈ locks → i ∈ own ∨ 0 < base i + H i) :
    wp (iput i) (fun _ k' => Still base lk n R H own locks k') Anyhow k :=
  (iput_copies h hl).mono fun _ _ h' => h'.elim (fun h' => h'.2.still) fun h' => h'.2.still

theorem iunlockput_still (h : Copies base lk n R H (i :: own) (i :: locks) room none T k) :
    wp (iunlockput i) (fun _ k' => Still base lk n R H own locks k') Anyhow k :=
  (iunlockput_copies h).mono fun _ _ h' => h'.2.elim (fun h' => h'.2.still) fun h' => h'.2.still

theorem end_still {r : Int} (h : Still base lk (n + 1) R H own locks k) :
    wp (do
      end_op
      pure r) (fun r' k' => r' = r ∧ Still base lk n R H own locks k') Anyhow k := by
  obtain ⟨_, _, h⟩ := h
  exact (end_copies h).mono fun _ _ h' => ⟨h'.1, h'.2.still⟩

theorem put_end_still {r : Int}
    (h : Copies base lk (n + 1) R H (i :: own) (i :: locks) room none T k) :
    wp (do
      iunlockput i
      end_op
      pure r) (fun r' k' => r' = r ∧ Still base lk n R H own locks k') Anyhow k :=
  (iunlockput_still h).andThen fun _ _ h' => end_still h'

/-! ## The exits of the calls that make no descriptor -/

/-- What a call leaves that fails without a trace. -/
def Traceless (base : Inum → Nat) (lk : Inum → Bool) (n : Nat) (R : Procs) (H : Inum → Nat)
    (T : Fs) (r : Int) (k : Kernel) : Prop :=
  ∃ room T', Copies base lk n R H [] [] room none T' k ∧ (r = -1 → T.Same T')

theorem Copies.traceless {r : Int} (h : Copies base lk n R H [] [] room none T k) :
    Traceless base lk n R H T r k := ⟨_, _, h, fun _ => Fs.Same.refl T⟩

theorem Still.traceless {r : Int} (h : Still base lk n R H [] [] k) (hr : r ≠ -1) :
    Traceless base lk n R H T r k := by
  obtain ⟨room, T', h⟩ := h
  exact ⟨room, T', h, fun hc => absurd hc hr⟩

theorem zero_ne_minus_one : (0 : Int) ≠ -1 := by decide

theorem make_copies (h : Copies base lk n R H [] [] room none T k) (hp : CwdHeld R H p)
    (ht : type ≠ .free) {path : Option Str} {major minor : Int} :
    wp (make p path type major minor) (Traceless base lk n R H T) Anyhow k := by
  unfold make
  refine (begin_op_copies h).andThen fun _ k₁ h₁ => ?_
  match path with
  | none => exact (end_copies h₁).mono fun _ _ h' => h'.2.traceless
  | some path =>
  refine (create_copies h₁ hp ht).andThen fun r k₂ h₂ => ?_
  match r, h₂ with
  | none, ⟨_, room₂, T₂, hsame, h₂⟩ =>
    exact (end_copies h₂).mono fun _ _ h' => ⟨room₂, T₂, h'.2, fun _ => hsame⟩
  | some ip, ⟨room₂, T₂, h₂, _⟩ =>
    exact (put_end_still h₂).mono fun r _ h' => by
      rw [h'.1]
      exact h'.2.traceless zero_ne_minus_one

/-- The link count that `sys_link` counted up is what it was. -/
theorem setNlink_undo (hT : T.Tidy) (i : Inum) :
    (T.setNlink i (short ((T.disk i).nlink + 1))).setNlink i
      (short (short ((T.disk i).nlink + 1) - 1)) = T := by
  have hn : short (short ((T.disk i).nlink + 1) - 1) = (T.disk i).nlink := by
    have hs : short (short ((T.disk i).nlink + 1) - 1) = short ((T.disk i).nlink + 1 - 1) :=
      Int.bmod_sub_bmod
    rw [hs, Int.add_sub_cancel, hT.nlink]
  rw [hn]
  unfold Fs.setNlink Fs.setDinode
  simp only [Function.update_self, Function.update_idem, Function.update_eq_self]

theorem setNlink_disk_of_ne {j : Inum} {m : Int} (h : j ≠ i) : (T.setNlink i m).disk j = T.disk j :=
  Function.update_of_ne h _ _

/-- While someone holds `ip` its link count does not matter. -/
theorem settled_setNlink {B B' : Inum → Nat} (hs : T.Settled B) (hB : ∀ j, B j ≤ B' j)
    (hip : 0 < B' ip) (m : Int) : (T.setNlink ip m).Settled B' := by
  intro j hu hz
  by_cases hj : j = ip
  · rw [hj]
    exact hip
  · unfold Fs.Used at hu
    rw [setNlink_disk_of_ne hj] at hu hz
    exact Nat.lt_of_lt_of_le (hs j hu hz) (hB j)

/-- `H` and the reference that `sys_link` keeps to `ip`. -/
def withOne (H : Inum → Nat) (ip : Inum) : Inum → Nat := fun j => H j + [ip].count j

theorem le_withOne (H : Inum → Nat) (ip j : Inum) : H j ≤ withOne H ip j := Nat.le_add_right _ _

theorem withOne_self (H : Inum → Nat) (ip : Inum) : 0 < withOne H ip ip := by
  unfold withOne
  rw [List.count_cons_self]
  exact Nat.add_pos_right _ (Nat.succ_pos _)

/-- The call keeps its reference to a locked inode where others keep theirs. -/
theorem Copies.keep (h : Copies base lk n R H [i] locks room none T k) (hu : T.Used i) :
    Copies base lk n R (withOne H i) [] locks room none T k := by
  refine h.hand h.procs rfl rfl rfl rfl (fun j => by rw [List.count_nil]; rfl) fun j hj => ?_
  by_cases hji : j = i
  · exact .inr (hji ▸ hu)
  · unfold withOne at hj
    rw [List.count_cons_of_ne (Ne.symm hji), List.count_nil] at hj
    exact .inl hj

theorem Copies.unkeep (h : Copies base lk n R (withOne H i) [] locks room none T k) :
    Copies base lk n R H [i] locks room none T k :=
  h.hand h.procs rfl rfl rfl rfl (fun j => by rw [List.count_nil]; rfl) fun j hj =>
    .inl (Nat.add_pos_left hj _)

/-- **`bad` of `sys_link`** restores the link count. -/
theorem unmakeLink_copies (htidy : T.Tidy) (hs : T.Settled fun i => base i + H i)
    (h : Copies base lk (n + 1) R (withOne H ip) [] [] room none
      (T.setNlink ip (short ((T.disk ip).nlink + 1))) k) :
    wp (unmakeLink ip) (Traceless base lk n R H T) Anyhow k := by
  unfold unmakeLink
  refine (ilock_copies h).andThen fun _ k₁ h₁ => ?_
  refine (setNlink_copies h₁ List.mem_cons_self).andThen fun _ k₂ h₂ => ?_
  have hself : ((T.setNlink ip (short ((T.disk ip).nlink + 1))).disk ip).nlink =
      short ((T.disk ip).nlink + 1) := by
    unfold Fs.setNlink Fs.setDinode
    simp only [Function.update_self]
  rw [hself, setNlink_undo htidy] at h₂
  exact (put_end_kept hs h₂.unkeep).mono fun _ _ h' => h'.2.traceless

theorem sysLink_copies (h : Copies base lk n R H [] [] room none T k) (hp : CwdHeld R H p)
    {old new : Option Str} : wp (sysLink p old new) (Traceless base lk n R H T) Anyhow k := by
  have hs := h.settled
  unfold sysLink
  match old, new with
  | none, _ => exact h.traceless
  | some _, none => exact h.traceless
  | some old, some new =>
  simp only
  refine (begin_op_copies h).andThen fun _ k₁ h₁ => ?_
  refine (namei_copies hs h₁ hp).andThen fun r k₂ h₂ => ?_
  match r, h₂ with
  | none, h₂ => exact (end_copies h₂).mono fun _ _ h' => h'.2.traceless
  | some ip, h₂ =>
  simp only
  refine (ilock_copies h₂).andThen fun _ k₃ h₃ => ?_
  rw [wp_bind, wp_get, wp_ite]
  refine ⟨fun _ => (put_end_kept hs h₃).mono fun _ _ h' => h'.2.traceless, fun _ => ?_⟩
  have hkeep : Copies base lk (n + 1) R (withOne H ip) [] [ip] room none T k₃ :=
    Copies.keep h₃ (h₃.good List.mem_cons_self).1
  refine (setNlink_copies hkeep List.mem_cons_self).andThen fun _ k₄ h₄ => ?_
  set T₁ := T.setNlink ip (short ((T.disk ip).nlink + 1)) with hT₁
  have hs₁ : T₁.Settled fun i => base i + withOne H ip i :=
    settled_setNlink hs (fun j => Nat.add_le_add_left (le_withOne H ip j) _)
      (Nat.add_pos_right _ (withOne_self H ip)) _
  have hp₁ : CwdHeld R (withOne H ip) p := fun c hc => Nat.add_pos_left (hp c hc) _
  refine (iunlock_copies h₄).andThen fun _ k₅ h₅ => ?_
  unfold nameiparent
  refine (namex_copies hs₁ h₅ hp₁).andThen fun r k₆ h₆ => ?_
  match r, h₆.2 with
  | none, h₆ => exact unmakeLink_copies h.tidy hs h₆
  | some (dp, name), h₆ =>
  simp only
  refine (ilock_copies h₆).andThen fun _ k₇ h₇ => ?_
  refine (dirlink_copies hs₁ h₇ List.mem_cons_self fun _ hj => hj).andThen fun ok k₈ h₈ => ?_
  obtain ⟨room₈, ⟨rfl, _, h₈⟩ | ⟨rfl, _, h₈⟩⟩ := h₈
  · refine (iunlockput_kept hs₁ h₈).andThen fun _ k₉ h₉ => ?_
    rw [wp_ite]
    exact ⟨fun hc => absurd hc Bool.false_ne_true, fun _ => unmakeLink_copies h.tidy hs h₉⟩
  · refine (iunlockput_kept (hs₁.put _ _) h₈).andThen fun _ k₉ h₉ => ?_
    rw [wp_ite]
    refine ⟨fun _ => ?_, fun hc => absurd rfl hc⟩
    refine (iput_still h₉.unkeep fun hm => absurd hm List.not_mem_nil).andThen fun _ k₁₀ h₁₀ => ?_
    exact (end_still h₁₀).mono fun r _ h' => by
      rw [h'.1]
      exact h'.2.traceless zero_ne_minus_one

theorem unlinkAt_still (h : Copies base lk (n + 1) R H [ip, dp] [ip, dp] room none T k)
    {off : Nat} :
    wp (unlinkAt dp ip off) (fun r k' => r = 0 ∧ Still base lk n R H [] [] k') Anyhow k := by
  have hip : ∀ l, ip ∈ ip :: l := fun _ => List.mem_cons_self
  have hrest : ∀ {room : List Bool} {T : Fs} {k : Kernel},
      Copies base lk (n + 1) R H [ip, dp] [ip, dp] room none T k → wp (do
        iunlockput dp
        setNlink ip (· - 1)
        iunlockput ip
        end_op
        pure (0 : Int)) (fun r k' => r = 0 ∧ Still base lk n R H [] [] k') Anyhow k := by
    intro room T k h
    refine (iunlockput_still h.swap.swapLocks).andThen fun _ k₁ h₁ => ?_
    obtain ⟨_, _, h₁⟩ := h₁
    exact (setNlink_copies h₁ (hip [])).andThen fun _ _ h₂ => put_end_still h₂
  unfold unlinkAt
  refine (writei_copies h (List.mem_cons_of_mem ip List.mem_cons_self)).andThen fun ok k₁ h₁ => ?_
  rw [wp_ite]
  refine ⟨fun _ => trivial, fun hok => ?_⟩
  obtain ⟨room₁, ⟨hf, _⟩ | ⟨_, _, h₁⟩⟩ := h₁
  · exact absurd hf hok
  rw [wp_bind, wp_get]
  dsimp only
  rw [wp_ite]
  exact ⟨fun _ => (setNlink_copies h₁ (List.mem_cons_of_mem ip List.mem_cons_self)).andThen
    fun _ _ h₂ => hrest h₂, fun _ => hrest h₁⟩

theorem sysUnlink_copies (h : Copies base lk n R H [] [] room none T k) (hp : CwdHeld R H p)
    {path : Option Str} : wp (sysUnlink p path) (Traceless base lk n R H T) Anyhow k := by
  have hs := h.settled
  unfold sysUnlink
  match path with
  | none => exact h.traceless
  | some path =>
  simp only
  refine (begin_op_copies h).andThen fun _ k₁ h₁ => ?_
  unfold nameiparent
  refine (namex_copies hs h₁ hp).andThen fun r k₂ h₂ => ?_
  match r, h₂.2 with
  | none, h₂ => exact (end_copies h₂).mono fun _ _ h' => h'.2.traceless
  | some (dp, name), h₂ =>
  simp only
  refine (ilock_copies h₂).andThen fun _ k₃ h₃ => ?_
  have hbad : ∀ {k : Kernel}, Copies base lk (n + 1) R H [dp] [dp] room none T k →
      wp (unlinkBad dp) (Traceless base lk n R H T) Anyhow k := fun h =>
    (put_end_kept hs h).mono fun _ _ h' => h'.2.traceless
  rw [wp_ite]
  refine ⟨fun _ => hbad h₃, fun _ => ?_⟩
  refine (dirlookup_copies h₃).andThen fun r k₄ h₄ => ?_
  match r, h₄.2 with
  | none, h₄ => exact hbad h₄
  | some (ip, off), h₄ =>
  simp only
  refine (ilock_copies h₄).andThen fun _ k₅ h₅ => ?_
  rw [wp_bind, wp_get, wp_ite]
  refine ⟨fun _ => trivial, fun _ => ?_⟩
  rw [wp_ite]
  refine ⟨fun _ => (iunlockput_kept hs h₅).andThen fun _ _ h₆ => hbad h₆, fun _ => ?_⟩
  exact (unlinkAt_still h₅).mono fun r _ h' => by
    rw [h'.1]
    exact h'.2.traceless zero_ne_minus_one

end Xv6.Names
