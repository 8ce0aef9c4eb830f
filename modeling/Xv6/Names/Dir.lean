import Xv6.Names.Basic
import Xv6.Lib.Tally

/-!
# Directories as lists of entries

A name is found where it is stored: `namecmp` says equal exactly when `strncpy`
would store the same bytes (`namecmp_eq_zero`). So in a directory that begins
with `.` and `..` those two names lead to the first two slots, and every other name
to an entry behind them (`slotOf_dotted`).

The entries behind the first two are the ones links are counted by. Writing a slot
changes every count over them by what was in the slot and what is in it now
(`put_countP`).
-/

namespace Xv6.Names

open Lib

/-! ## Names -/

/-- The bytes of a directory entry that stand for a name. -/
def stored (name : Str) : Str := strncpy name DIRSIZ

theorem strncmp_eq_zero (n : Nat) : ∀ p q : Str, strncmp p q n = 0 ↔ strncpy p n = strncpy q n := by
  induction n with
  | zero => intro p q; exact ⟨fun _ => rfl, fun _ => rfl⟩
  | succ n ih =>
    intro p q
    rw [strncmp, strncpy, strncpy]
    generalize p.headD 0 = a
    generalize q.headD 0 = b
    by_cases hab : a = b
    · subst hab
      by_cases ha : a = 0
      · simp [ha]
      · simp [ha, ih]
    · have hne : a.toNat ≠ b.toNat := fun h => hab (UInt8.toNat_inj.mp h)
      rw [if_neg fun h => hab h.2]
      constructor
      · intro h
        omega
      · intro h
        by_cases ha : a = 0
        · have hb : b ≠ 0 := fun hb => hab (ha.trans hb.symm)
          rw [if_pos ha, if_neg hb, List.replicate_succ] at h
          exact absurd (List.cons.inj h).1.symm hb
        · by_cases hb : b = 0
          · rw [if_neg ha, if_pos hb, List.replicate_succ] at h
            exact absurd (List.cons.inj h).1 ha
          · rw [if_neg ha, if_neg hb] at h
            exact absurd (List.cons.inj h).1 hab

theorem strncpy_idem (n : Nat) : ∀ t : Str, strncpy (strncpy t n) n = strncpy t n := by
  induction n with
  | zero => intro t; rfl
  | succ n ih =>
    intro t
    by_cases ht : t.headD 0 = 0
    · have h : strncpy t (n + 1) = List.replicate (n + 1) 0 := by
        rw [strncpy, if_pos ht]
      rw [h, strncpy, if_pos (by rfl)]
    · have h : strncpy t (n + 1) = t.headD 0 :: strncpy t.tail n := by
        rw [strncpy, if_neg ht]
      rw [h, strncpy, List.headD_cons, if_neg ht, List.tail_cons, ih]

/-- Two names are the same when they are stored the same. -/
theorem namecmp_eq_zero (s t : Str) : namecmp s t = 0 ↔ stored s = stored t :=
  strncmp_eq_zero DIRSIZ s t

theorem stored_stored (s : Str) : stored (stored s) = stored s := strncpy_idem DIRSIZ s

theorem stored_dot_ne : stored dot ≠ stored dotdot := by decide

/-! ## Writing a slot -/

/-- The entries once the slot `off`, at most the end, holds `de`. -/
def setAt (es : List Dirent) (off : Nat) (de : Dirent) : List Dirent :=
  if off < es.length then es.set off de else es ++ [de]

/-- Whether a slot holds an entry with `p`. -/
def at? (es : List Dirent) (off : Nat) (p : Dirent → Bool) : Nat :=
  match es[off]? with
  | some de => if p de then 1 else 0
  | none => 0

theorem setAt_countP {es : List Dirent} {off : Nat} (de : Dirent) (p : Dirent → Bool) :
    (setAt es off de).countP p + at? es off p = es.countP p + if p de then 1 else 0 := by
  unfold setAt at?
  split
  next h =>
    have hle : (if p es[off] = true then 1 else 0) ≤ es.countP p := by
      split
      next hp => exact List.countP_pos_iff.mpr ⟨es[off], List.getElem_mem h, hp⟩
      next => exact Nat.zero_le _
    rw [List.countP_set h, List.getElem?_eq_getElem h]
    show _ - _ + _ + (if p es[off] = true then 1 else 0) = _
    omega
  next h =>
    rw [List.countP_append, List.countP_singleton, List.getElem?_eq_none (by omega), Nat.add_zero]

theorem mem_setAt {es : List Dirent} {off : Nat} {de e : Dirent} (h : e ∈ setAt es off de) :
    e ∈ es ∨ e = de := by
  unfold setAt at h
  split at h
  next => exact List.mem_or_eq_of_mem_set h
  next =>
    rcases List.mem_append.mp h with h | h
    · exact .inl h
    · exact .inr (List.mem_singleton.mp h)

theorem setAt_drop {es : List Dirent} {off : Nat} (de : Dirent) (h : 2 ≤ off)
    (hl : off ≤ es.length) : (setAt es off de).drop 2 = setAt (es.drop 2) (off - 2) de := by
  unfold setAt
  rw [List.length_drop]
  by_cases ho : off < es.length
  · rw [if_pos ho, if_pos (by omega), List.drop_set, if_neg (by omega)]
  · rw [if_neg ho, if_neg (by omega), List.drop_append, Nat.sub_eq_zero_of_le (by omega),
      List.drop_zero]

theorem setAt_take {es : List Dirent} {off : Nat} (de : Dirent) (h : 2 ≤ off)
    (hl : off ≤ es.length) : (setAt es off de).take 2 = es.take 2 := by
  unfold setAt
  split
  next => exact List.take_set_of_le h
  next => rw [List.take_append_of_le_length (by omega)]

theorem at?_drop (es : List Dirent) {off : Nat} (p : Dirent → Bool) (h : 2 ≤ off) :
    at? (es.drop 2) (off - 2) p = at? es off p := by
  unfold at?
  rw [List.getElem?_drop, Nat.add_sub_cancel' h]

theorem setAt_length_le {es : List Dirent} {off n : Nat} (de : Dirent) (hl : es.length ≤ n)
    (ho : off < n) : (setAt es off de).length ≤ n := by
  unfold setAt
  split
  next => rwa [List.length_set]
  next =>
    rw [List.length_append, List.length_singleton]
    omega

namespace Fs

/-- `writei` of one entry. -/
def put (T : Fs) (dp : Inum) (off : Nat) (de : Dirent) : Fs :=
  T.setDinode dp { T.disk dp with entries := setAt (T.disk dp).entries off de }

/-- The inode is given up with its content. -/
def free (T : Fs) (i : Inum) : Fs :=
  (T.truncate i).setDinode i { T.disk i with type := .free, entries := [], data := [] }

/-- A directory that begins with `.` and `..`. -/
def Dotted (T : Fs) (d up : Inum) : Prop :=
  (T.disk d).entries.take 2 = [⟨d, stored dot⟩, ⟨up, stored dotdot⟩]

def Used (T : Fs) (i : Inum) : Prop := (T.disk i).type ≠ .free

def IsDir (T : Fs) (i : Inum) : Prop := (T.disk i).type = .T_DIR

instance (T : Fs) (i : Inum) : Decidable (T.IsDir i) := inferInstanceAs (Decidable (_ = _))

/-- The directory `..` stands for in `d`. -/
def upOf (T : Fs) (d : Inum) : Inum := T.inumAt d 1

/-- How many names an inode has. -/
def names (T : Fs) (i : Inum) : Nat :=
  ∑ d ∈ Finset.range T.ninodes, (T.kids d).countP fun de => de.inum = i

/-- How many of the entries of `d` are directories. -/
def subs (T : Fs) (d : Inum) : Nat :=
  (T.kids d).countP fun de => de.inum ≠ 0 ∧ (T.disk de.inum).type = .T_DIR

/-- No directory has a name for it. -/
def removed (T : Fs) (d : Inum) : Prop := d ≠ ROOTINO ∧ T.names d = 0

theorem Dotted.entries {T : Fs} {d up : Inum} (h : T.Dotted d up) :
    (T.disk d).entries = ⟨d, stored dot⟩ :: ⟨up, stored dotdot⟩ :: (T.disk d).entries.drop 2 := by
  have hs := List.take_append_drop 2 (T.disk d).entries
  rw [h] at hs
  exact hs.symm

theorem Dotted.upOf {T : Fs} {d up : Inum} (h : T.Dotted d up) : T.upOf d = up := by
  unfold Fs.upOf inumAt
  rw [h.entries]
  rfl

/-- The slot a name leads to, in a directory that begins with `.` and `..`. -/
theorem slotOf_dotted {T : Fs} {d up : Inum} {off : Nat} {name : Str} (h : T.Dotted d up)
    (hd : d ≠ 0) (hup : up ≠ 0) (hs : T.slotOf d name = some off) :
    (stored name = stored dot ∧ off = 0 ∧ T.inumAt d off = d) ∨
    (stored name = stored dotdot ∧ off = 1 ∧ T.inumAt d off = up) ∨
    (stored name ≠ stored dot ∧ stored name ≠ stored dotdot ∧ 2 ≤ off ∧
      off < (T.disk d).entries.length ∧ T.inumAt d off ≠ 0 ∧
      ∃ de ∈ (T.disk d).entries.drop 2, (T.disk d).entries[off]? = some de ∧
        de.inum = T.inumAt d off) := by
  unfold slotOf at hs
  obtain ⟨hlt, hat, hbefore⟩ := List.findIdx?_eq_some_iff_getElem.mp hs
  have hdot : ∀ nm : Str, namecmp name (stored nm) = 0 ↔ stored name = stored nm := fun nm => by
    rw [namecmp_eq_zero, stored_stored]
  have h0 : (T.disk d).entries[0]? = some ⟨d, stored dot⟩ := by rw [h.entries]; rfl
  have h1 : (T.disk d).entries[1]? = some ⟨up, stored dotdot⟩ := by rw [h.entries]; rfl
  have hslot : ∀ j de, (T.disk d).entries[j]? = some de → j < off →
      ¬(de.inum ≠ 0 ∧ namecmp name de.name = 0) := fun j de hj hlt' hp => by
    obtain ⟨hjl, rfl⟩ := List.getElem?_eq_some_iff.mp hj
    exact hbefore j hlt' (decide_eq_true hp)
  have hme : ∀ de, (T.disk d).entries[off]? = some de →
      de.inum ≠ 0 ∧ namecmp name de.name = 0 ∧ de.inum = T.inumAt d off := fun de hj => by
    have hin : T.inumAt d off = de.inum := by
      unfold inumAt
      rw [hj]
      rfl
    obtain ⟨_, rfl⟩ := List.getElem?_eq_some_iff.mp hj
    exact ⟨(of_decide_eq_true hat).1, (of_decide_eq_true hat).2, hin.symm⟩
  by_cases ho0 : off = 0
  · subst ho0
    obtain ⟨_, hn, hi⟩ := hme _ h0
    exact .inl ⟨(hdot dot).mp hn, rfl, hi.symm⟩
  by_cases ho1 : off = 1
  · subst ho1
    obtain ⟨_, hn, hi⟩ := hme _ h1
    exact .inr (.inl ⟨(hdot dotdot).mp hn, rfl, hi.symm⟩)
  have h2 : 2 ≤ off := by omega
  have hj := List.getElem?_eq_getElem hlt
  obtain ⟨hn, _, hi⟩ := hme _ hj
  refine .inr (.inr ⟨fun he => hslot 0 _ h0 (by omega) ⟨hd, (hdot dot).mpr he⟩,
    fun he => hslot 1 _ h1 (by omega) ⟨hup, (hdot dotdot).mpr he⟩, h2, hlt, hi ▸ hn,
    _, ?_, hj, hi⟩)
  exact List.mem_of_getElem? (i := off - 2)
    (by rw [List.getElem?_drop, Nat.add_sub_cancel' h2]; exact hj)

/-! ## Counting -/

theorem IsDir.used {T : Fs} {i : Inum} (h : T.IsDir i) : T.Used i := by
  unfold Used
  rw [h]
  exact IType.noConfusion

theorem kids_of_not_dir {T : Fs} {d : Inum} (h : ¬T.IsDir d) : T.kids d = [] := if_neg h

theorem isDir_of_mem_kids {T : Fs} {d : Inum} {de : Dirent} (h : de ∈ T.kids d) : T.IsDir d := by
  by_contra hd
  rw [kids_of_not_dir hd] at h
  exact absurd h List.not_mem_nil

theorem kids_of_dir {T : Fs} {d : Inum} (h : T.IsDir d) : T.kids d = (T.disk d).entries.drop 2 :=
  if_pos h

/-- The names of an inode when one directory changes. -/
theorem names_change {T T' : Fs} {d : Inum} (hn : T'.ninodes = T.ninodes) (hd : d < T.ninodes)
    (h : ∀ e, e ≠ d → T'.kids e = T.kids e) (i : Inum) :
    T'.names i + (T.kids d).countP (fun de => de.inum = i)
      = T.names i + (T'.kids d).countP fun de => de.inum = i := by
  unfold names
  rw [hn]
  exact sum_change_on (f := fun e => (T.kids e).countP fun de => de.inum = i)
    (g := fun e => (T'.kids e).countP fun de => de.inum = i) (Finset.mem_range.mpr hd)
    fun e he => congrArg _ (h e he)

theorem names_congr {T T' : Fs} (hn : T'.ninodes = T.ninodes) (h : ∀ e, T'.kids e = T.kids e)
    (i : Inum) : T'.names i = T.names i := by
  unfold names
  rw [hn]
  exact Finset.sum_congr rfl fun e _ => by rw [h e]

/-- An inode with an entry has a name. -/
theorem names_pos {T : Fs} {d : Inum} {de : Dirent} (hd : d < T.ninodes) (h : de ∈ T.kids d) :
    0 < T.names de.inum := by
  have hpos : 0 < (T.kids d).countP fun e => e.inum = de.inum :=
    List.countP_pos_iff.mpr ⟨de, h, decide_eq_true rfl⟩
  exact Nat.lt_of_lt_of_le hpos
    (Finset.single_le_sum (f := fun d => (T.kids d).countP fun e => e.inum = de.inum)
      (fun _ _ => Nat.zero_le _) (Finset.mem_range.mpr hd))

/-- An inode with a name has an entry. -/
theorem exists_entry {T : Fs} {i : Inum} (h : 0 < T.names i) :
    ∃ d, ∃ de ∈ T.kids d, de.inum = i := by
  obtain ⟨d, _, hd⟩ := Finset.exists_ne_zero_of_sum_ne_zero (Nat.pos_iff_ne_zero.mp h)
  obtain ⟨de, hde, hp⟩ := List.countP_pos_iff.mp (Nat.pos_iff_ne_zero.mpr hd)
  exact ⟨d, de, hde, of_decide_eq_true hp⟩

theorem subs_congr {T T' : Fs} {d : Inum} (hk : T'.kids d = T.kids d)
    (h : ∀ de ∈ T.kids d, de.inum ≠ 0 → (T'.IsDir de.inum ↔ T.IsDir de.inum)) :
    T'.subs d = T.subs d := by
  unfold subs
  rw [hk]
  refine List.countP_congr fun de hde => ?_
  rw [decide_eq_true_iff, decide_eq_true_iff]
  exact and_congr_right fun h0 => h de hde h0

theorem subs_le (T : Fs) (d : Inum) : T.subs d ≤ (T.disk d).entries.length := by
  refine Nat.le_trans List.countP_le_length ?_
  unfold kids
  split
  · rw [List.length_drop]
    exact Nat.sub_le _ _
  · exact Nat.zero_le _

/-! ## Writing behind the first two slots -/

theorem upOf_congr {T T' : Fs} {d : Inum}
    (h : (T'.disk d).entries.take 2 = (T.disk d).entries.take 2) : T'.upOf d = T.upOf d := by
  have hone : ∀ es : List Dirent, (es.take 2)[1]? = es[1]? := fun es =>
    List.getElem?_take_of_lt (Nat.one_lt_two)
  unfold upOf inumAt
  rw [← hone, h, hone]

section Put

variable {T : Fs} {dp : Inum} {off : Nat} {de : Dirent}

@[simp] theorem put_disk_self : (T.put dp off de).disk dp
    = { T.disk dp with entries := setAt (T.disk dp).entries off de } := by
  simp [put, setDinode]

theorem put_disk_of_ne {d : Inum} (h : d ≠ dp) : (T.put dp off de).disk d = T.disk d := by
  simp [put, setDinode, h]

theorem put_type (d : Inum) : ((T.put dp off de).disk d).type = (T.disk d).type := by
  by_cases h : d = dp
  · rw [h, put_disk_self]
  · rw [put_disk_of_ne h]

theorem put_nlink (d : Inum) : ((T.put dp off de).disk d).nlink = (T.disk d).nlink := by
  by_cases h : d = dp
  · rw [h, put_disk_self]
  · rw [put_disk_of_ne h]

theorem put_used (d : Inum) : (T.put dp off de).Used d ↔ T.Used d := by
  unfold Used
  rw [put_type]

theorem put_isDir (d : Inum) : (T.put dp off de).IsDir d ↔ T.IsDir d := by
  unfold IsDir
  rw [put_type]

theorem put_kids_of_ne {d : Inum} (h : d ≠ dp) : (T.put dp off de).kids d = T.kids d := by
  unfold kids
  rw [put_disk_of_ne h]

variable (h2 : 2 ≤ off) (hl : off ≤ (T.disk dp).entries.length)

include h2 hl

theorem put_take (d : Inum) :
    ((T.put dp off de).disk d).entries.take 2 = (T.disk d).entries.take 2 := by
  by_cases h : d = dp
  · rw [h, put_disk_self]
    exact setAt_take de h2 hl
  · rw [put_disk_of_ne h]

theorem put_kids (hd : T.IsDir dp) :
    (T.put dp off de).kids dp = setAt (T.kids dp) (off - 2) de := by
  rw [kids_of_dir ((put_isDir dp).mpr hd), kids_of_dir hd, put_disk_self]
  exact setAt_drop de h2 hl

variable (de)

theorem put_kids_countP (hd : T.IsDir dp) (p : Dirent → Bool) :
    ((T.put dp off de).kids dp).countP p + at? (T.disk dp).entries off p
      = (T.kids dp).countP p + if p de then 1 else 0 := by
  rw [put_kids h2 hl hd, ← at?_drop _ p h2, ← kids_of_dir hd]
  exact setAt_countP de p

theorem put_names (hd : T.IsDir dp) (hn : dp < T.ninodes) (i : Inum) :
    (T.put dp off de).names i + at? (T.disk dp).entries off (fun e => e.inum = i)
      = T.names i + if de.inum = i then 1 else 0 := by
  have hkids : ∀ e, e ≠ dp → (T.put dp off de).kids e = T.kids e := fun e he => put_kids_of_ne he
  have hsize : (T.put dp off de).ninodes = T.ninodes := rfl
  have hch := names_change hsize hn hkids i
  have hk := put_kids_countP de h2 hl hd fun e => e.inum = i
  simp only [decide_eq_true_eq] at hk
  omega

theorem put_subs (hd : T.IsDir dp) :
    (T.put dp off de).subs dp + at? (T.disk dp).entries off (fun e => e.inum ≠ 0 ∧ T.IsDir e.inum)
      = T.subs dp + if de.inum ≠ 0 ∧ T.IsDir de.inum then 1 else 0 := by
  have hk := put_kids_countP de h2 hl hd fun e => e.inum ≠ 0 ∧ T.IsDir e.inum
  have hp : (T.put dp off de).subs dp
      = ((T.put dp off de).kids dp).countP fun e => e.inum ≠ 0 ∧ T.IsDir e.inum :=
    List.countP_congr fun e _ => by
      rw [decide_eq_true_iff, decide_eq_true_iff]
      exact and_congr_right fun _ => put_isDir e.inum
  rw [hp, hk]
  simp only [decide_eq_true_eq]
  rfl

end Put

theorem put_subs_of_ne {T : Fs} {dp d : Inum} {off : Nat} {de : Dirent} (h : d ≠ dp) :
    (T.put dp off de).subs d = T.subs d :=
  subs_congr (put_kids_of_ne h) fun _ _ _ => put_isDir _

end Fs

end Xv6.Names
