import Xv6.Names.Path

/-!
# Entries and link counts

`dirlink` either changes nothing or enters the name in a free slot behind the first
two (`dirlink_wp`); `dots` gives a new directory its first two entries. A link count is
written twice, in memory and on disk, by `setNlink`.
-/

namespace Xv6.Names

open Lib
open Ftable (NFILE NOFILE FileId Fd FileType)

variable {strict : Prop} {debt : Inum → Int} {R : Procs} {H : Inum → Nat} {own : List Inum}
  {raw fresh : Option Inum} {T : Fs} {k : Kernel} {i dp ip : Inum}

theorem short_eq {n : Int} (h0 : 0 ≤ n) (h1 : n < 32768) : short n = n :=
  Int.bmod_eq_of_le (by omega) (by omega)

/-! ## Entries -/

/-- A reference taken and given back. -/
theorem peek_wp (h : Mem R H own none fresh T k) (hf : T.Used i → fresh ≠ some i) :
    wp (iget i) (fun _ k' => wp (iput i) (fun _ k'' => Mem R H own none fresh T k'') Safe k')
      Safe k := by
  by_cases hu : T.Used i
  · refine (iget_wp h hu).mono fun _ k₁ h₁ => iput_held h₁ (h.held hu (hf hu)) (hf hu) ?_
    intro j hj _
    refine h₁.valid j (List.mem_cons_of_mem i hj) fun he => ?_
    obtain ⟨rfl, hno⟩ := unread_eq he
    exact hno hj
  · -- an inode that is free has no copy either
    have hz : (k.itable i).ref = 0 := Nat.eq_zero_of_not_pos fun hc => hu (h.used i hc)
    have hr := h.refs i
    unfold iget iput
    simp only [wp_bind, wp_get, wp_ite, wp_modify, wp_stop]
    refine ⟨fun hc => absurd hc (by rw [hz]; exact Nat.lt_irrefl 0),
      fun _ => ⟨fun _ => h.safe Halt.noConfusion, fun _ => ⟨fun hc => ?_, fun _ => ?_⟩⟩⟩
    · have hv := hc.2.1
      simp only [setInode_self] at hv
      exact absurd hv Bool.false_ne_true
    · have hm : Mem R H own none fresh T
          ((k.setInode i fun ip => { ip with ref := 1, valid := false }).setInode i
            fun ip => { ip with ref := ip.ref - 1 }) := by
        refine h.move (i := i) rfl h.fs rfl
          (fun j hj => (setInode_of_ne hj _ _).trans (setInode_of_ne hj _ _)) (fun j _ => rfl)
          (fun j _ => rfl) (fun j _ hj hne => h.valid j hj hne) (fun j _ hf => hf) ?_ ?_ ?_ ?_
          (fun hc => absurd hc hu)
        · rw [setInode_self, setInode_self, ← hr, hz]
          rfl
        · rw [setInode_self, setInode_self]
          exact fun hc => absurd hc (Nat.lt_irrefl 0)
        · rw [setInode_self, setInode_self]
          exact fun hc => absurd hc (Nat.lt_irrefl 0)
        · exact fun hi => absurd (h.ref_pos hi) (by rw [hz]; exact Nat.lt_irrefl 0)
      exact hm.congr rfl rfl rfl rfl

/-- The slot is written, or nothing is. -/
theorem writei_wp (h : Mem R H own raw fresh T k) (hdp : dp ∈ own) (hr : raw ≠ some dp)
    {off : Nat} {de : Dirent} :
    wp (writei dp off de) (fun r k' => (r = false ∧ Mem R H own raw fresh T k') ∨
      (r = true ∧ off < 17152 ∧ Mem R H own raw fresh (T.put dp off de) k')) Safe k := by
  have hput : ∀ {k' : Kernel} {es : List Dirent}, k'.toProcs = k.toProcs →
      k'.fs = T.setDinode dp { T.disk dp with entries := es } →
      es = setAt (T.disk dp).entries off de → k'.itable = k.itable → k'.looked = k.looked →
      Mem R H own raw fresh (T.put dp off de) (k'.iupdate dp) := by
    intro k' es hp hfs hes hit hl
    refine content_wp h hdp hr (fun j hj => Fs.put_disk_of_ne hj) ?_ ?_ ?_ ?_ hp ?_ hit hl
    · rw [Fs.put_disk_self]
    · rw [Fs.put_disk_self]
    · rw [Fs.put_disk_self]
    · rw [Fs.put_disk_self]
    · rw [hfs, hes]
      rfl
  have hsame : ∀ {k' : Kernel}, k'.toProcs = k.toProcs → k'.fs = k.fs → k'.itable = k.itable →
      k'.looked = k.looked → Mem R H own raw fresh T (k'.iupdate dp) :=
    fun hp hfs hit hl =>
      content_wp h hdp hr (fun _ _ => rfl) rfl rfl rfl rfl hp (hfs.trans h.fs) hit hl
  unfold writei
  rw [wp_bind, wp_get]
  simp only [h.fs, wp_ite, wp_bind, wp_modify, wp_pure]
  refine ⟨fun _ => .inl ⟨trivial, h⟩, fun hmax => ?_⟩
  have hoff : off < 17152 := by
    have hm : MAXFILE * BSIZE = 17152 * direntSize := rfl
    have hd : direntSize = 16 := rfl
    rw [hm, hd] at hmax
    omega
  exact ⟨fun hlt => .inr ⟨trivial, hoff, hput rfl rfl (if_pos hlt).symm rfl rfl⟩,
    fun hge => ⟨fun _ => .inl ⟨trivial, hsame rfl h.fs.symm rfl rfl⟩,
      fun _ => .inr ⟨trivial, hoff, hput rfl rfl (if_neg hge).symm rfl rfl⟩⟩⟩

theorem freeSlot_le (T : Fs) (dp : Inum) : T.freeSlot dp ≤ (T.disk dp).entries.length := by
  unfold Fs.freeSlot
  cases h : (T.disk dp).entries.findIdx? fun de => de.inum = 0 with
  | none => exact Nat.le_refl _
  | some j =>
    obtain ⟨hlt, _⟩ := List.findIdx?_eq_some_iff_getElem.mp h
    exact Nat.le_of_lt hlt

/-- The free slot is free. -/
theorem inum_freeSlot {e : Dirent} (he : (T.disk dp).entries[T.freeSlot dp]? = some e) :
    e.inum = 0 := by
  unfold Fs.freeSlot at he
  cases h : (T.disk dp).entries.findIdx? fun de => de.inum = 0 with
  | none =>
    rw [h, Option.getD_none, List.getElem?_eq_none (Nat.le_refl _)] at he
    exact absurd he.symm (Option.some_ne_none e)
  | some j =>
    obtain ⟨hlt, hp, _⟩ := List.findIdx?_eq_some_iff_getElem.mp h
    rw [h, Option.getD_some, List.getElem?_eq_getElem hlt, Option.some.injEq] at he
    rw [← he]
    exact of_decide_eq_true hp

theorem two_le_freeSlot {d up : Inum} (h : T.Dotted d up) (hd : d ≠ 0) (hup : up ≠ 0) :
    2 ≤ T.freeSlot d := by
  have h0 : (T.disk d).entries[0]? = some ⟨d, stored dot⟩ := by rw [h.entries]; rfl
  have h1 : (T.disk d).entries[1]? = some ⟨up, stored dotdot⟩ := by rw [h.entries]; rfl
  by_contra hlt
  have hcase : T.freeSlot d = 0 ∨ T.freeSlot d = 1 := by omega
  rcases hcase with hc | hc
  · exact hd (inum_freeSlot (e := ⟨d, stored dot⟩) (by rw [hc]; exact h0))
  · exact hup (inum_freeSlot (e := ⟨up, stored dotdot⟩) (by rw [hc]; exact h1))

/-- **`dirlink`**: the name is entered in a free slot, or nothing changes. -/
theorem dirlink_wp (h : Mem R H own none fresh T k) (hdp : dp ∈ own) {name : Str} {inum : Inum}
    (hi : inum < 65536) (hf : ∀ off, T.slotOf dp name = some off → fresh ≠ some (T.inumAt dp off)) :
    wp (dirlink dp name inum) (fun r k' => (r = false ∧ Mem R H own none fresh T k') ∨
      (r = true ∧ T.IsDir dp ∧ T.slotOf dp name = none ∧ T.freeSlot dp < 17152 ∧
        Mem R H own none fresh (T.put dp (T.freeSlot dp) ⟨inum, stored name⟩) k')) Safe k := by
  unfold dirlink dirlookup
  rw [wp_bind, wp_bind, wp_get, wp_ite]
  refine ⟨fun _ => h.safe Halt.noConfusion, fun hnd => ?_⟩
  have hd : T.IsDir dp :=
    (h.agrees_of_mem hdp (Option.some_ne_none dp).symm).1.symm.trans (not_not.mp hnd)
  rw [h.fs]
  split
  next hs =>
    rw [wp_pure]
    simp only
    rw [wp_bind, wp_get, h.fs, Nat.mod_eq_of_lt hi]
    refine (writei_wp h hdp (Option.some_ne_none dp).symm).mono fun r k₁ h₁ => ?_
    rcases h₁ with ⟨hr, h₁⟩ | ⟨hr, hlt, h₁⟩
    · exact .inl ⟨hr, h₁⟩
    · exact .inr ⟨hr, hd, hs, hlt, h₁⟩
  next off hs =>
    rw [wp_bind]
    refine (peek_wp h fun _ => hf off hs).mono fun _ k₁ h₁ => ?_
    rw [wp_pure]
    simp only
    exact h₁.andThen fun _ k₂ h₂ => .inl ⟨rfl, h₂⟩

/-! ## Link counts -/

def Fs.setNlink (T : Fs) (i : Inum) (n : Int) : Fs := T.setDinode i { T.disk i with nlink := n }

theorem setNlink_wp (h : Mem R H own raw fresh T k) (hi : i ∈ own) (hr : raw ≠ some i)
    {v : Int → Int} {n : Int} (hv : short (v (T.disk i).nlink) = n) :
    wp (setNlink i v) (fun _ k' => Mem R H own raw fresh (T.setNlink i n) k') Safe k := by
  unfold setNlink
  simp only [wp_bind, wp_modify]
  refine head_wp h hi hr (fun x => ⟨rfl, rfl⟩) (fun x hx => ?_) rfl rfl (h.used_of_mem hi)
  obtain ⟨h1, h2, h3, h4⟩ := hx
  refine ⟨h1, h2, h3, ?_⟩
  show short (v x.nlink) = n
  rw [h4, hv]

theorem Tree.setNlink (h : Tree strict debt fresh T) (hu : T.Used i) {n : Int}
    (hn : 0 ≤ n ∧ n < 32768) :
    Tree strict (owe debt i (n - (T.disk i).nlink)) fresh (T.setNlink i n) :=
  h.head (d := { T.disk i with nlink := n }) hu rfl rfl hn

end Xv6.Names
