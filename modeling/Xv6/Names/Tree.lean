import Xv6.Names.Dir
import Mathlib.Tactic.Push

/-!
# The tree on disk

`Tree` says what the disk looks like between any two statements that change it: the
entries of a directory name inodes that are in use, a directory has one name at
most and that name is where it was created, and

> the link count of an inode is the number of its names, plus one for each
> subdirectory, plus what is owed.

`debt` is what is owed: a call changes link counts and entries one by one. `lost`
is the part of the count whose names went away with a directory. `fresh` is the inode
that `create` is still filling in.

With `strict` there is more: nothing was lost, a directory that no name leads to
is empty, and `..` leads to a directory that has not been removed. The calls keep
that only as long as nothing is entered in a removed directory and no directory is
removed before what was removed from it.

One theorem for each kind of change says that `Tree` survives it.
-/

namespace Xv6.Names

open Lib

/-- `n` more is owed to `i`. -/
def owe (debt : Inum → Int) (i : Inum) (n : Int) : Inum → Int :=
  Function.update debt i (debt i + n)

@[simp] theorem owe_self (debt : Inum → Int) (i : Inum) (n : Int) :
    owe debt i n i = debt i + n := by
  simp [owe]

theorem owe_of_ne {i j : Inum} (h : j ≠ i) (debt : Inum → Int) (n : Int) :
    owe debt i n j = debt j := by
  simp [owe, h]

@[simp] theorem owe_zero (debt : Inum → Int) (i : Inum) : owe debt i 0 = debt := by
  simp [owe]

@[simp] theorem owe_owe (debt : Inum → Int) (i : Inum) (m n : Int) :
    owe (owe debt i m) i n = owe debt i (m + n) := by
  simp [owe, add_assoc]

theorem owe_nonneg {debt : Inum → Int} (h : ∀ i, 0 ≤ debt i) (i : Inum) {n : Int} (hn : 0 ≤ n) :
    ∀ j, 0 ≤ owe debt i n j := by
  intro j
  by_cases hj : j = i
  · subst hj
    rw [owe_self]
    exact add_nonneg (h j) hn
  · rw [owe_of_ne hj]
    exact h j

/-- A name and a subdirectory, owed together. -/
theorem owe_two (debt : Inum → Int) (i d j : Inum) (c : Prop) [Decidable c] (m n : Int) :
    owe (owe debt i m) d (if c then n else 0) j
      = debt j + (if i = j then m else 0) + (if d = j ∧ c then n else 0) := by
  have hone : ∀ (D : Inum → Int) (i : Inum) (m : Int), owe D i m j =
    D j + if i = j then m else 0 := by
    intro D i m
    by_cases h : j = i
    · subst h
      simp
    · rw [owe_of_ne h, if_neg (Ne.symm h), add_zero]
  rw [hone, hone]
  by_cases h : d = j <;> simp [h]

/-- One for the root, which no name is counted for. -/
def rooted (i : Inum) : Nat := if i = ROOTINO then 1 else 0

structure Tree (strict : Prop) (debt : Inum → Int) (fresh : Option Inum) (T : Fs) : Prop where
  width : T.ninodes ≤ 65536
  bound : ∀ {i}, T.Used i → 0 < i ∧ i < T.ninodes
  dots : ∀ {d}, T.IsDir d → fresh ≠ some d → T.Dotted d (T.upOf d) ∧ T.upOf d ≠ 0
  young : ∀ {d}, fresh = some d →
    T.Used d ∧ (T.disk d).entries.length ≤ 2 ∧ T.names d = 0
  len : ∀ d, (T.disk d).entries.length ≤ 17152
  live : ∀ {d de}, de ∈ T.kids d → de.inum ≠ 0 → T.Used de.inum
  /-- A directory was created where its name is. -/
  under : ∀ {d de}, de ∈ T.kids d → T.IsDir de.inum →
    T.parent de.inum = T.born d ∧ T.upOf de.inum = d
  once : ∀ {i}, T.IsDir i → T.names i ≤ 1 ∧ T.lost i = 0
  root : T.IsDir ROOTINO ∧ T.names ROOTINO = 0 ∧ T.upOf ROOTINO = ROOTINO ∧
    T.parent ROOTINO = T.born ROOTINO ∧ fresh ≠ some ROOTINO
  links : ∀ {i}, T.Used i →
    (T.disk i).nlink = (T.names i + T.subs i + rooted i + T.lost i : Nat) + debt i
  range : ∀ {i}, T.Used i → 0 ≤ (T.disk i).nlink ∧ (T.disk i).nlink < 32768
  gone : ∀ {i}, ¬T.Used i → i ≠ 0 → T.lost i = 0
  old : ∀ {i}, T.Used i → T.born i < T.clock
  inj : ∀ {i j}, T.Used i → T.Used j → T.born i = T.born j → i = j
  /-- `..` is the directory it was created under, if that is still there. -/
  par : ∀ {d}, T.IsDir d → fresh ≠ some d →
    T.parent d < T.clock ∧ ∀ q, T.IsDir q → T.born q = T.parent d → T.upOf d = q
  kept : strict → ∀ i, i ≠ 0 → T.lost i = 0
  empty : strict → ∀ {d}, T.IsDir d → T.removed d → ∀ de ∈ T.kids d, de.inum = 0
  up : strict → ∀ {d}, T.IsDir d → fresh ≠ some d →
    T.IsDir (T.upOf d) ∧ ¬T.removed (T.upOf d) ∧ T.born (T.upOf d) = T.parent d

namespace Tree

variable {strict : Prop} {debt debt' : Inum → Int} {fresh : Option Inum} {T T' : Fs}

theorem not_used_zero (h : Tree strict debt fresh T) : ¬T.Used 0 :=
  fun hu => absurd (h.bound hu).1 (Nat.lt_irrefl 0)

theorem ne_zero (h : Tree strict debt fresh T) {i : Inum} (hu : T.Used i) : i ≠ 0 :=
  Nat.pos_iff_ne_zero.mp (h.bound hu).1

/-- A free inode has no names. -/
theorem names_free (h : Tree strict debt fresh T) {i : Inum} (hi : i ≠ 0) (hf : ¬T.Used i) :
    T.names i = 0 := by
  by_contra hn
  obtain ⟨d, de, hde, rfl⟩ := Fs.exists_entry (Nat.pos_iff_ne_zero.mpr hn)
  exact hf (h.live hde hi)

theorem names_of_mem (h : Tree strict debt fresh T) {d : Inum} {de : Dirent} (hde : de ∈ T.kids d) :
    0 < T.names de.inum :=
  Fs.names_pos (h.bound (Fs.isDir_of_mem_kids hde).used).2 hde

/-! ## Changes that leave the directories alone -/

/-- The two disks differ in link counts and contents of files only. -/
structure SameDirs (T T' : Fs) : Prop where
  ninodes : T'.ninodes = T.ninodes
  type : ∀ i, (T'.disk i).type = (T.disk i).type
  entries : ∀ i, (T'.disk i).entries = (T.disk i).entries ∨
    ¬T.IsDir i ∧ (T'.disk i).entries = []
  born : T'.born = T.born
  parent : T'.parent = T.parent
  clock : T'.clock = T.clock
  lost : T'.lost = T.lost

theorem SameDirs.used (h : SameDirs T T') (i : Inum) : T'.Used i ↔ T.Used i := by
  unfold Fs.Used
  rw [h.type]

theorem SameDirs.isDir (h : SameDirs T T') (i : Inum) : T'.IsDir i ↔ T.IsDir i := by
  unfold Fs.IsDir
  rw [h.type]

theorem SameDirs.entries_of_dir (h : SameDirs T T') {d : Inum} (hd : T.IsDir d) :
    (T'.disk d).entries = (T.disk d).entries :=
  (h.entries d).resolve_right fun hn => hn.1 hd

theorem SameDirs.length_le (h : SameDirs T T') (d : Inum) :
    (T'.disk d).entries.length ≤ (T.disk d).entries.length := by
  rcases h.entries d with he | ⟨_, he⟩
  · rw [he]
  · rw [he]
    exact Nat.zero_le _

theorem SameDirs.kids (h : SameDirs T T') (d : Inum) : T'.kids d = T.kids d := by
  by_cases hd : T.IsDir d
  · rw [Fs.kids_of_dir hd, Fs.kids_of_dir ((h.isDir d).mpr hd), h.entries_of_dir hd]
  · rw [Fs.kids_of_not_dir hd, Fs.kids_of_not_dir fun hc => hd ((h.isDir d).mp hc)]

theorem SameDirs.names (h : SameDirs T T') (i : Inum) : T'.names i = T.names i :=
  Fs.names_congr h.ninodes h.kids i

theorem SameDirs.subs (h : SameDirs T T') (d : Inum) : T'.subs d = T.subs d :=
  Fs.subs_congr (h.kids d) fun _ _ _ => h.isDir _

theorem SameDirs.upOf (h : SameDirs T T') {d : Inum} (hd : T.IsDir d) :
    T'.upOf d = T.upOf d := by
  unfold Fs.upOf Fs.inumAt
  rw [h.entries_of_dir hd]

theorem SameDirs.removed (h : SameDirs T T') (d : Inum) : T'.removed d ↔ T.removed d := by
  unfold Fs.removed
  rw [h.names]

theorem SameDirs.dotted (h : SameDirs T T') {d : Inum} (hd : T.IsDir d) (up : Inum) :
    T'.Dotted d up ↔ T.Dotted d up := by
  unfold Fs.Dotted
  rw [h.entries_of_dir hd]

theorem sameDirs (h : Tree strict debt fresh T) (hs : SameDirs T T')
    (hl : ∀ {i}, T.Used i →
      (T'.disk i).nlink = (T.names i + T.subs i + rooted i + T.lost i : Nat) + debt' i)
    (hr : ∀ {i}, T.Used i → 0 ≤ (T'.disk i).nlink ∧ (T'.disk i).nlink < 32768) :
    Tree strict debt' fresh T' where
  width := hs.ninodes ▸ h.width
  bound hu := by
    rw [hs.ninodes]
    exact h.bound ((hs.used _).mp hu)
  dots {d} hd hf := by
    have hd' := (hs.isDir d).mp hd
    rw [hs.dotted hd', hs.upOf hd']
    exact h.dots hd' hf
  young {d} hf := by
    obtain ⟨hu, hlen, hn⟩ := h.young hf
    rw [hs.used, hs.names]
    exact ⟨hu, Nat.le_trans (hs.length_le d) hlen, hn⟩
  len d := Nat.le_trans (hs.length_le d) (h.len d)
  live hde h0 := by
    rw [hs.kids] at hde
    exact (hs.used _).mpr (h.live hde h0)
  under hde hd := by
    rw [hs.kids] at hde
    have hd' := (hs.isDir _).mp hd
    rw [hs.parent, hs.born, hs.upOf hd']
    exact h.under hde hd'
  once hd := by
    rw [hs.names, hs.lost]
    exact h.once ((hs.isDir _).mp hd)
  root := by
    rw [hs.isDir, hs.names, hs.upOf h.root.1, hs.parent, hs.born]
    exact h.root
  links hu := by
    rw [hs.names, hs.subs, hs.lost]
    exact hl ((hs.used _).mp hu)
  range hu := hr ((hs.used _).mp hu)
  gone hu h0 := by
    rw [hs.lost]
    exact h.gone (fun hu' => hu ((hs.used _).mpr hu')) h0
  old hu := by
    rw [hs.born, hs.clock]
    exact h.old ((hs.used _).mp hu)
  inj hi hj hb := by
    rw [hs.born] at hb
    exact h.inj ((hs.used _).mp hi) ((hs.used _).mp hj) hb
  par {d} hd hf := by
    have hd' := (hs.isDir d).mp hd
    rw [hs.parent, hs.clock, hs.born, hs.upOf hd']
    obtain ⟨hlt, hq⟩ := h.par hd' hf
    exact ⟨hlt, fun q hqd => hq q ((hs.isDir q).mp hqd)⟩
  kept hst i := by
    rw [hs.lost]
    exact h.kept hst i
  empty hst d hd hrm := by
    rw [hs.kids]
    exact h.empty hst ((hs.isDir d).mp hd) ((hs.removed d).mp hrm)
  up hst d hd hf := by
    have hd' := (hs.isDir d).mp hd
    rw [hs.upOf hd', hs.isDir, hs.removed, hs.born, hs.parent]
    exact h.up hst hd' hf

/-- One inode is rewritten that stays what it is. -/
theorem head (h : Tree strict debt fresh T) {i : Inum} (hu : T.Used i) {d : Dinode}
    (ht : d.type = (T.disk i).type) (he : d.entries = (T.disk i).entries)
    (hr : 0 ≤ d.nlink ∧ d.nlink < 32768) :
    Tree strict (owe debt i (d.nlink - (T.disk i).nlink)) fresh (T.setDinode i d) := by
  have hself : (T.setDinode i d).disk i = d := Function.update_self i _ _
  have hne : ∀ {j}, j ≠ i → (T.setDinode i d).disk j = T.disk j := fun hj =>
    Function.update_of_ne hj _ _
  have hs : SameDirs T (T.setDinode i d) := by
    refine ⟨rfl, fun j => ?_, fun j => .inl ?_, rfl, rfl, rfl, rfl⟩
    · by_cases hj : j = i
      · rw [hj, hself, ht]
      · rw [hne hj]
    · by_cases hj : j = i
      · rw [hj, hself, he]
      · rw [hne hj]
  refine h.sameDirs hs (fun {j} hj => ?_) (fun {j} hj => ?_)
  · by_cases hji : j = i
    · subst hji
      have hl := h.links hj
      rw [hself, owe_self]
      omega
    · rw [hne hji, owe_of_ne hji]
      exact h.links hj
  · by_cases hji : j = i
    · rw [hji, hself]
      exact hr
    · rw [hne hji]
      exact h.range hj

/-- The content of a file is discarded. -/
theorem truncate (h : Tree strict debt fresh T) {i : Inum} (hd : ¬T.IsDir i) :
    Tree strict debt fresh (T.truncate i) := by
  have hself : (T.truncate i).disk i = { T.disk i with entries := [], data := [] } :=
    Function.update_self i _ _
  have hne : ∀ {j}, j ≠ i → (T.truncate i).disk j = T.disk j := fun hj =>
    Function.update_of_ne hj _ _
  have hlost : (T.truncate i).lost = T.lost := by
    funext j
    show T.lost j + (T.kids i).countP _ = _
    rw [Fs.kids_of_not_dir hd]
    rfl
  have hnlink : ∀ j, ((T.truncate i).disk j).nlink = (T.disk j).nlink := fun j => by
    by_cases hj : j = i
    · rw [hj, hself]
    · rw [hne hj]
  have hs : SameDirs T (T.truncate i) := by
    refine ⟨rfl, fun j => ?_, fun j => ?_, rfl, rfl, rfl, hlost⟩
    · by_cases hj : j = i
      · rw [hj, hself]
      · rw [hne hj]
    · by_cases hj : j = i
      · exact .inr ⟨hj ▸ hd, by rw [hj, hself]⟩
      · exact .inl (by rw [hne hj])
  refine h.sameDirs hs (fun {j} hj => ?_) (fun {j} hj => ?_)
  · rw [hnlink]
    exact h.links hj
  · rw [hnlink]
    exact h.range hj

/-! ## Entering and clearing a name -/

section Put

variable {dp i : Inum} {off : Nat} {de : Dirent}

/-- The clauses that do not count: the entries behind the first two of one directory
change, and each of the new ones was there or is as it should be. -/
theorem put_aux (h : Tree strict debt fresh T) (hd : T.IsDir dp) (hf : fresh ≠ some dp)
    (h2 : 2 ≤ off) (hl : off ≤ (T.disk dp).entries.length) (hw : off < 17152)
    (hde : de.inum ≠ 0 → T.Used de.inum ∧ (T.IsDir de.inum →
      T.parent de.inum = T.born dp ∧ T.upOf de.inum = dp ∧ T.names de.inum = 0 ∧
      de.inum ≠ ROOTINO))
    (hfresh : fresh ≠ some de.inum)
    (hnames : ∀ j, j ≠ 0 → (T.put dp off de).names j ≤ T.names j + if de.inum = j then 1 else 0)
    (hlinks : ∀ {j}, T.Used j → (T.disk j).nlink =
      ((T.put dp off de).names j + (T.put dp off de).subs j + rooted j + T.lost j : Nat) + debt' j)
    (hempty : strict → ∀ {d}, T.IsDir d → (T.put dp off de).removed d →
      ∀ e ∈ (T.put dp off de).kids d, e.inum = 0)
    (hup : strict → ∀ {d}, T.IsDir d → fresh ≠ some d → ¬(T.put dp off de).removed (T.upOf d)) :
    Tree strict debt' fresh (T.put dp off de) := by
  have hupOf : ∀ d, (T.put dp off de).upOf d = T.upOf d := fun d =>
    Fs.upOf_congr (Fs.put_take h2 hl d)
  -- an entry is the new one, or was there
  have hmem : ∀ {d e}, e ∈ (T.put dp off de).kids d → e ∈ T.kids d ∨ d = dp ∧ e = de := by
    intro d e he
    by_cases hdd : d = dp
    · subst hdd
      rw [Fs.put_kids h2 hl hd] at he
      exact (mem_setAt he).imp_right fun h => ⟨rfl, h⟩
    · exact .inl (Fs.put_kids_of_ne hdd ▸ he)
  have hdir0 : ∀ {j}, T.IsDir j → j ≠ 0 := fun hj => h.ne_zero hj.used
  exact {
    width := h.width
    bound := fun hu => h.bound ((Fs.put_used _).mp hu)
    dots := fun {d} hd' hfd => by
      unfold Fs.Dotted
      rw [hupOf, Fs.put_take h2 hl d]
      exact h.dots ((Fs.put_isDir d).mp hd') hfd
    young := fun {d} hfd => by
      obtain ⟨hu, hlen, hn⟩ := h.young hfd
      have hne : d ≠ dp := fun he => hf (he ▸ hfd)
      refine ⟨(Fs.put_used d).mpr hu, ?_, ?_⟩
      · rw [Fs.put_disk_of_ne hne]
        exact hlen
      · have hle := hnames d (h.ne_zero hu)
        rw [if_neg fun he : de.inum = d => hfresh (he.symm ▸ hfd)] at hle
        omega
    len := fun d => by
      by_cases hdd : d = dp
      · subst hdd
        rw [Fs.put_disk_self]
        exact setAt_length_le de (h.len d) hw
      · rw [Fs.put_disk_of_ne hdd]
        exact h.len d
    live := fun he h0 => by
      rcases hmem he with he | ⟨_, rfl⟩
      · exact (Fs.put_used _).mpr (h.live he h0)
      · exact (Fs.put_used _).mpr (hde h0).1
    -- a directory that gets a name is one whose parent this is
    under := fun {d e} he hed => by
      rw [hupOf]
      have hed' := (Fs.put_isDir e.inum).mp hed
      rcases hmem he with he | ⟨rfl, rfl⟩
      · exact h.under he hed'
      · obtain ⟨hp, hu, _, _⟩ := (hde (hdir0 hed')).2 hed'
        exact ⟨hp, hu⟩
    once := fun {j} hj => by
      have hj' := (Fs.put_isDir j).mp hj
      have hle := hnames j (hdir0 hj')
      refine ⟨?_, (h.once hj').2⟩
      split at hle
      next he =>
        subst he
        rw [((hde (hdir0 hj')).2 hj').2.2.1] at hle
        exact hle
      next => exact Nat.le_trans hle (h.once hj').1
    root := by
      obtain ⟨hr, hn, hu, hp, hrf⟩ := h.root
      have hle := hnames ROOTINO (Nat.succ_ne_zero 0)
      have hne : de.inum ≠ ROOTINO := fun he =>
        ((hde (he ▸ Nat.succ_ne_zero 0)).2 (he.symm ▸ hr)).2.2.2 he
      rw [hn, if_neg hne] at hle
      exact ⟨(Fs.put_isDir _).mpr hr, Nat.le_zero.mp hle, (hupOf _).trans hu, hp, hrf⟩
    links := fun {j} hj => by
      rw [Fs.put_nlink]
      exact hlinks ((Fs.put_used j).mp hj)
    range := fun {j} hj => by
      rw [Fs.put_nlink]
      exact h.range ((Fs.put_used j).mp hj)
    gone := fun hj h0 => h.gone (fun hu => hj ((Fs.put_used _).mpr hu)) h0
    old := fun hj => h.old ((Fs.put_used _).mp hj)
    inj := fun hj hk hb => h.inj ((Fs.put_used _).mp hj) ((Fs.put_used _).mp hk) hb
    par := fun {d} hd' hfd => by
      rw [hupOf]
      obtain ⟨hlt, hq⟩ := h.par ((Fs.put_isDir d).mp hd') hfd
      exact ⟨hlt, fun q hqd => hq q ((Fs.put_isDir q).mp hqd)⟩
    kept := h.kept
    empty := fun hst {d} hd' => hempty hst ((Fs.put_isDir d).mp hd')
    up := fun hst {d} hd' hfd => by
      rw [hupOf, Fs.put_isDir]
      have hdd := (Fs.put_isDir d).mp hd'
      obtain ⟨hu, _, hb⟩ := h.up hst hdd hfd
      exact ⟨hu, hup hst hdd hfd, hb⟩ }

/-- **Entering a name** in a free slot. One of what is owed to the inode is paid; for a
directory, its parent has a subdirectory more. -/
theorem link (h : Tree strict debt fresh T) (hd : T.IsDir dp) (hf : fresh ≠ some dp)
    (h2 : 2 ≤ off) (hl : off ≤ (T.disk dp).entries.length) (hw : off < 17152)
    (hfree : ∀ e, (T.disk dp).entries[off]? = some e → e.inum = 0)
    (hi : T.Used i) (hfi : fresh ≠ some i)
    (hdir : T.IsDir i → T.parent i = T.born dp ∧ T.upOf i = dp ∧ T.names i = 0 ∧ i ≠ ROOTINO)
    (hst : strict → ¬T.removed dp) (name : Str) :
    Tree strict (owe (owe debt i (-1)) dp (if T.IsDir i then -1 else 0)) fresh
      (T.put dp off ⟨i, name⟩) := by
  have hn : dp < T.ninodes := (h.bound hd.used).2
  have hi0 := h.ne_zero hi
  have hat : ∀ p : Dirent → Bool, (∀ e, e.inum = 0 → p e = false) →
      at? (T.disk dp).entries off p = 0 := by
    intro p hp
    unfold at?
    split
    next e he => rw [hp e (hfree e he), if_neg Bool.false_ne_true]
    next => rfl
  have hnames : ∀ j, j ≠ 0 →
      (T.put dp off ⟨i, name⟩).names j = T.names j + if i = j then 1 else 0 := by
    intro j hj
    have h₁ := Fs.put_names ⟨i, name⟩ h2 hl hd hn j
    rw [hat _ fun e he => decide_eq_false (he ▸ hj.symm)] at h₁
    exact h₁
  have hsubs : (T.put dp off ⟨i, name⟩).subs dp = T.subs dp + if T.IsDir i then 1 else 0 := by
    have h₁ := Fs.put_subs ⟨i, name⟩ h2 hl hd
    rw [hat _ fun e he => decide_eq_false fun hc => hc.1 he] at h₁
    simp only [ne_eq, hi0, not_false_eq_true, true_and, Nat.add_zero] at h₁
    exact h₁
  have hrem : ∀ {d}, T.IsDir d → (T.put dp off ⟨i, name⟩).removed d → T.removed d := by
    intro d hdd hr
    refine ⟨hr.1, ?_⟩
    have h₁ := hnames d (h.ne_zero hdd.used)
    have h₂ := hr.2
    omega
  refine h.put_aux hd hf h2 hl hw (fun _ => ⟨hi, hdir⟩) hfi (fun j hj => (hnames j hj).le)
    (fun {j} hj => ?_) (fun hs {d} hdd hr e he => ?_) (fun hs {d} hdd hfd => ?_)
  · have h₁ := h.links hj
    have h₂ := hnames j (h.ne_zero hj)
    have hs : (T.put dp off ⟨i, name⟩).subs j
        = T.subs j + if dp = j ∧ T.IsDir i then 1 else 0 := by
      by_cases hjd : j = dp
      · subst hjd
        simp [hsubs]
      · rw [Fs.put_subs_of_ne hjd, if_neg fun hc => hjd hc.1.symm, Nat.add_zero]
    -- the names of `i`, the subdirectories of `dp`, and nothing else
    rw [owe_two, h₁, h₂, hs]
    push_cast
    split <;> split <;> omega
  · have hdp : d ≠ dp := fun he' => hst hs (he' ▸ hrem hdd hr)
    rw [Fs.put_kids_of_ne hdp] at he
    exact h.empty hs hdd (hrem hdd hr) e he
  · obtain ⟨hu, hnr, _⟩ := h.up hs hdd hfd
    exact fun hr => hnr (hrem hu hr)

/-- **Clearing a name.** The inode is owed what the name stood for; the parent of a
directory has a subdirectory less. -/
theorem unlink (h : Tree strict debt fresh T) (hd : T.IsDir dp) (hf : fresh ≠ some dp)
    (h2 : 2 ≤ off) {e : Dirent} (he : (T.disk dp).entries[off]? = some e) (he0 : e.inum ≠ 0)
    (hde : de.inum = 0)
    (hst : strict → T.IsDir e.inum → (∀ e' ∈ T.kids e.inum, e'.inum = 0) ∧
      ∀ d, T.IsDir d → T.upOf d ≠ e.inum) :
    Tree strict (owe (owe debt e.inum 1) dp (if T.IsDir e.inum then 1 else 0)) fresh
      (T.put dp off de) := by
  have hn : dp < T.ninodes := (h.bound hd.used).2
  have hlt : off < (T.disk dp).entries.length := (List.getElem?_eq_some_iff.mp he).1
  have hl := Nat.le_of_lt hlt
  have hmem : e ∈ T.kids dp := by
    rw [Fs.kids_of_dir hd]
    exact List.mem_of_getElem? (i := off - 2)
      (by rw [List.getElem?_drop, Nat.add_sub_cancel' h2]; exact he)
  -- the entry that goes is `e`
  have hat : ∀ p : Dirent → Bool, at? (T.disk dp).entries off p = if p e then 1 else 0 := by
    intro p
    unfold at?
    rw [he]
  have hnames : ∀ j, j ≠ 0 →
      (T.put dp off de).names j + (if e.inum = j then 1 else 0) = T.names j := by
    intro j hj
    have h₁ := Fs.put_names de h2 hl hd hn j
    rw [hat, hde, if_neg (Ne.symm hj)] at h₁
    simpa using h₁
  have hsubs : (T.put dp off de).subs dp + (if T.IsDir e.inum then 1 else 0) = T.subs dp := by
    have h₁ := Fs.put_subs de h2 hl hd
    simpa [hat, hde, he0] using h₁
  have hrem : ∀ {d}, T.IsDir d → (T.put dp off de).removed d → T.removed d ∨ d = e.inum := by
    intro d hdd hr
    have h₁ := hnames d (h.ne_zero hdd.used)
    rw [hr.2, Nat.zero_add] at h₁
    by_cases hed : e.inum = d
    · exact .inr hed.symm
    · rw [if_neg hed] at h₁
      exact .inl ⟨hr.1, h₁.symm⟩
  refine h.put_aux hd hf h2 hl (Nat.lt_of_lt_of_le hlt (h.len dp)) (fun h0 => absurd hde h0)
    (fun hfr => h.not_used_zero (hde ▸ (h.young hfr).1)) (fun j hj => ?_)
    (fun {j} hj => ?_) (fun hs {d} hdd hr e' he' => ?_) (fun hs {d} hdd hfd => ?_)
  · have h₁ := hnames j hj
    omega
  · -- a name less is a link owed; a directory less under `dp` is one for its `..`
    have h₁ := h.links hj
    have h₂ := hnames j (h.ne_zero hj)
    have hs : (T.put dp off de).subs j + (if dp = j ∧ T.IsDir e.inum then 1 else 0) = T.subs j := by
      by_cases hjd : j = dp
      · subst hjd
        simpa using hsubs
      · rw [Fs.put_subs_of_ne hjd, if_neg fun hc => hjd hc.1.symm, Nat.add_zero]
    rw [owe_two, h₁, ← h₂, ← hs]
    push_cast
    split <;> split <;> omega
  · have hsub : ∀ e' ∈ (T.put dp off de).kids d, e' ∈ T.kids d ∨ e' = de := by
      intro e' he'
      by_cases hdd' : d = dp
      · subst hdd'
        rw [Fs.put_kids h2 hl hd] at he'
        exact mem_setAt he'
      · exact .inl (Fs.put_kids_of_ne hdd' ▸ he')
    rcases hsub e' he' with he' | rfl
    · rcases hrem hdd hr with hr | rfl
      · exact h.empty hs hdd hr e' he'
      · exact (hst hs hdd).1 e' he'
    · exact hde
  · obtain ⟨hu, hnr, _⟩ := h.up hs hdd hfd
    intro hr
    rcases hrem hu hr with hr | hr
    · exact hnr hr
    · exact (hst hs (hr ▸ hu)).2 d hdd hr

end Put

end Tree

end Xv6.Names
