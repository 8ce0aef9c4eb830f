import Xv6.Names.Link

/-!
# `create`

`create` returns an inode that it holds locked, or nothing; the tree is a tree in
either case and nothing is owed (`create_wp`). The interesting exit is `fail`: the new
inode has a reference and no name, so that putting its link count to 0 and giving
the reference back takes it off the disk again.

The directory that gets the entry must not have been removed if the strict clauses
of `Tree` are to survive.
-/

namespace Xv6.Names

open Lib
open Ftable (NFILE NOFILE FileId Fd FileType)

variable {strict : Prop} {debt : Inum → Int} {R : Procs} {H : Inum → Nat} {own : List Inum}
  {raw fresh : Option Inum} {T T' : Fs} {k k' : Kernel} {i dp ip : Inum}

/-- Nothing is owed. -/
def noDebt : Inum → Int := fun _ => 0

theorem owe_back (i : Inum) (m n : Int) (h : m + n = 0) : owe (owe noDebt i m) i n = noDebt := by
  rw [owe_owe, h, owe_zero]

/-- Between two calls, or in one that owes nothing: a tree, and a table that goes with
it. -/
def Settled (strict : Prop) (R : Procs) (H : Inum → Nat) (own : List Inum) (k : Kernel) : Prop :=
  ∃ T, Tree strict noDebt none T ∧ Mem R H own none none T k

/-! ## Giving an inode back -/

/-- The last reference may take the inode with it; the others stay as they are. -/
theorem iput_tree (hT : Tree strict debt none T) (h : Mem R H (i :: own) raw none T k)
    (hr : ∀ j ∈ own, raw ≠ some j) (hd : 0 ≤ debt i) :
    wp (iput i) (fun _ k' => ∃ T', Tree strict debt none T' ∧ Mem R H own none none T' k' ∧
      ∀ j ∈ own, T'.disk j = T.disk j) Safe k := by
  refine (iput_wp (r := none) h (fun hf => absurd hf.symm (Option.some_ne_none i)) fun j hj _ =>
    h.valid j (List.mem_cons_of_mem i hj) (hr j hj)).mono fun _ k₁ h₁ => ?_
  rcases h₁ with ⟨h₁, _⟩ | ⟨hu, hz, hno, h₁⟩
  · exact ⟨T, hT, h₁, fun j _ => rfl⟩
  · have hfree := hT.free hu hz hd
    rw [if_neg (Option.some_ne_none i).symm] at hfree h₁
    refine ⟨T.free i, hfree, h₁, fun j hj => ?_⟩
    have hji : j ≠ i := fun he => hno (he ▸ hj)
    simp only [Fs.free, Fs.truncate, Fs.setDinode, Function.update_of_ne hji]

theorem iunlockput_tree (hT : Tree strict debt none T) (h : Mem R H (i :: own) none none T k)
    (hd : 0 ≤ debt i) :
    wp (iunlockput i) (fun _ k' => ∃ T', Tree strict debt none T' ∧ Mem R H own none none T' k' ∧
      ∀ j ∈ own, T'.disk j = T.disk j) Safe k :=
  (iunlock_wp h).andThen fun _ _ h₁ =>
    iput_tree hT h₁ (fun j _ => (Option.some_ne_none j).symm) hd

theorem iunlockput_settled (hT : Tree strict noDebt none T) (h : Mem R H (i :: own) none none T k) :
    wp (iunlockput i) (fun _ k' => Settled strict R H own k') Safe k :=
  (iunlockput_tree hT h (Int.le_refl 0)).mono fun _ _ ⟨T', hT', h', _⟩ => ⟨T', hT', h'⟩

/-- A new inode with no link and no other reference is taken back. -/
theorem discard_wp (hT : Tree strict noDebt fresh T) (hf : fresh = none ∨ fresh = some ip)
    (h : Mem R H (ip :: own) none fresh T k) (hz : (T.disk ip).nlink = 0) (hH : H ip = 0)
    (hno : ip ∉ own) : wp (iunlockput ip) (fun _ k' => Settled strict R H own k') Safe k := by
  refine (iunlock_wp h).andThen fun _ k₁ h₁ => ?_
  have href := h₁.refs ip
  rw [hH, List.count_cons_self, List.count_eq_zero.mpr hno] at href
  refine (iput_wp h₁ (fun _ => h₁.valid ip List.mem_cons_self (Option.some_ne_none ip).symm)
    fun j hj hne => h₁.valid j (List.mem_cons_of_mem ip hj) hne).mono fun _ k₂ h₂ => ?_
  rcases h₂ with ⟨_, hne⟩ | ⟨hu, _, _, h₂⟩
  · exact absurd href (hne hz)
  · have hfree := hT.free hu hz (Int.le_refl 0)
    rcases hf with rfl | rfl
    · rw [if_neg (Option.some_ne_none ip).symm] at hfree h₂
      exact ⟨_, hfree, h₂⟩
    · rw [if_pos rfl] at hfree h₂
      exact ⟨_, hfree, h₂⟩

/-! ## The first two entries -/

/-- Only the inode that `create` fills in has changed. -/
structure Grown (ip : Inum) (T T' : Fs) : Prop where
  disk : ∀ j, j ≠ ip → T'.disk j = T.disk j
  type : (T'.disk ip).type = (T.disk ip).type
  nlink : (T'.disk ip).nlink = (T.disk ip).nlink
  names : ∀ j, T'.names j = T.names j
  born : T'.born = T.born

theorem Grown.refl (ip : Inum) (T : Fs) : Grown ip T T :=
  ⟨fun _ _ => rfl, rfl, rfl, fun _ => rfl, rfl⟩

theorem Grown.trans {T₁ T₂ T₃ : Fs} (h₁ : Grown ip T₁ T₂) (h₂ : Grown ip T₂ T₃) : Grown ip T₁ T₃ :=
  ⟨fun j hj => (h₂.disk j hj).trans (h₁.disk j hj), h₂.type.trans h₁.type,
    h₂.nlink.trans h₁.nlink, fun j => (h₂.names j).trans (h₁.names j), h₂.born.trans h₁.born⟩

theorem Grown.isDir (h : Grown ip T T') : ∀ j, T'.IsDir j ↔ T.IsDir j := by
  intro j
  unfold Fs.IsDir
  by_cases hj : j = ip
  · rw [hj, h.type]
  · rw [h.disk j hj]

theorem Grown.removed (h : Grown ip T T') (j : Inum) : T'.removed j ↔ T.removed j := by
  unfold Fs.removed
  rw [h.names]

/-- An entry of a new directory. -/
theorem put_young (hT : Tree strict debt (some ip) T) (off : Nat) (de : Dirent)
    (hlen : (setAt (T.disk ip).entries off de).length ≤ 2) :
    Tree strict debt (some ip) (T.put ip off de) ∧ Grown ip T (T.put ip off de) := by
  have hfill := hT.fill hlen
  refine ⟨hfill, fun j hj => Fs.put_disk_of_ne hj, Fs.put_type ip, Fs.put_nlink ip,
    fun j => ?_, rfl⟩
  obtain ⟨_, hold, _⟩ := hT.young rfl
  have hn : (T.put ip off de).ninodes = T.ninodes := rfl
  refine Fs.names_congr hn (fun e => ?_) j
  by_cases he : e = ip
  · subst he
    by_cases hd : T.IsDir e
    · rw [Fs.kids_of_dir hd, Fs.kids_of_dir ((Fs.put_isDir e).mpr hd), Fs.put_disk_self,
        List.drop_eq_nil_of_le hlen, List.drop_eq_nil_of_le hold]
    · rw [Fs.kids_of_not_dir hd, Fs.kids_of_not_dir fun hc => hd ((Fs.put_isDir e).mp hc)]
  · exact Fs.put_kids_of_ne he

/-- `Mem` reads the disk only. -/
theorem Mem.relabel (h : Mem R H own raw fresh T k) (hp : k'.toProcs = k.toProcs)
    (hfs : k'.fs = T') (hd : T'.disk = T.disk) (hi : k'.itable = k.itable)
    (hl : k'.looked = k.looked) : Mem R H own raw fresh T' k' :=
  h.move (i := 0) hp hfs hl (fun j _ => congrFun hi j) (fun j _ => congrFun hd j) (fun _ _ => rfl)
    (fun j _ hj hne => h.valid j hj hne) (fun _ _ hf => hf) (by rw [hi]; exact h.refs 0)
    (by
      rw [hi]
      unfold Fs.Used
      rw [hd]
      exact h.used 0)
    (by
      rw [hi, hd]
      exact h.agrees 0)
    (by
      rw [hi]
      exact h.valid 0)
    (by
      rw [hi]
      unfold Fs.Used
      rw [hd]
      exact h.unlinked 0)

theorem dots_wp (hT : Tree strict debt (some ip) T) (h : Mem R H own none (some ip) T k)
    (hip : ip ∈ own) (hes : (T.disk ip).entries = []) (hdp : dp < 65536) :
    wp (dots ip dp) (fun r k' => ∃ T', Tree strict debt (some ip) T' ∧
      Mem R H own none (some ip) T' k' ∧ Grown ip T T' ∧
      (r = true → T'.Dotted ip dp ∧ T'.parent ip = T.born dp)) Safe k := by
  have hip0 := hT.ne_zero (hT.young rfl).1
  have hiw : ip < 65536 := Nat.lt_of_lt_of_le (hT.bound (hT.young rfl).1).2 hT.width
  have hT₁ : Tree strict debt (some ip) (T.adopt ip dp) := hT.adopt
  have hG₁ : Grown ip T (T.adopt ip dp) := ⟨fun _ _ => rfl, rfl, rfl, fun _ => rfl, rfl⟩
  have hpar : (T.adopt ip dp).parent ip = T.born dp := Function.update_self ip _ _
  have hes₁ : ((T.adopt ip dp).disk ip).entries = [] := hes
  -- the directory is empty: both names are free, and the first slots are taken
  have hslot₁ : (T.adopt ip dp).slotOf ip dot = none := by
    unfold Fs.slotOf
    rw [hes₁]
    rfl
  have hfree₁ : (T.adopt ip dp).freeSlot ip = 0 := by
    unfold Fs.freeSlot
    rw [hes₁]
    rfl
  unfold dots
  rw [wp_bind, wp_modify]
  have h₁ : Mem R H own none (some ip) (T.adopt ip dp) { k with fs := k.fs.adopt ip dp } :=
    h.relabel rfl (by rw [h.fs]) rfl rfl rfl
  refine (dirlink_wp h₁ hip hiw fun off hs =>
    absurd (hs.symm.trans hslot₁) (Option.some_ne_none off)).andThen fun r k₂ h₂ => ?_
  rw [wp_ite]
  rcases h₂ with ⟨rfl, h₂⟩ | ⟨rfl, _, _, _, h₂⟩
  · exact ⟨fun hc => absurd hc Bool.false_ne_true,
      fun _ => ⟨_, hT₁, h₂, hG₁, fun hc => absurd hc Bool.false_ne_true⟩⟩
  rw [hfree₁] at h₂
  obtain ⟨hT₂, hG₂⟩ := put_young hT₁ 0 ⟨ip, stored dot⟩ (by
    rw [hes₁]
    exact Nat.le_succ 1)
  set T₂ := (T.adopt ip dp).put ip 0 ⟨ip, stored dot⟩ with hT₂def
  have hes₂ : (T₂.disk ip).entries = [⟨ip, stored dot⟩] := by
    rw [hT₂def, Fs.put_disk_self, hes₁]
    rfl
  have hslot₂ : T₂.slotOf ip dotdot = none := by
    unfold Fs.slotOf
    rw [hes₂, List.findIdx?_singleton, if_neg]
    rw [decide_eq_true_iff]
    exact fun hc => stored_dot_ne (((namecmp_eq_zero _ _).mp hc.2).trans (stored_stored dot)).symm
  have hfree₂ : T₂.freeSlot ip = 1 := by
    unfold Fs.freeSlot
    rw [hes₂, List.findIdx?_singleton, if_neg]
    · rfl
    · rw [decide_eq_true_iff]
      exact hip0
  refine ⟨fun _ => ?_, fun hc => absurd rfl hc⟩
  refine (dirlink_wp h₂ hip hdp fun off hs =>
    absurd (hs.symm.trans hslot₂) (Option.some_ne_none off)).mono fun r k₃ h₃ => ?_
  rcases h₃ with ⟨rfl, h₃⟩ | ⟨rfl, _, _, _, h₃⟩
  · exact ⟨_, hT₂, h₃, hG₁.trans hG₂, fun hc => absurd hc Bool.false_ne_true⟩
  rw [hfree₂] at h₃
  obtain ⟨hT₃, hG₃⟩ := put_young hT₂ 1 ⟨dp, stored dotdot⟩ (by
    rw [hes₂]
    exact Nat.le_refl 2)
  refine ⟨_, hT₃, h₃, (hG₁.trans hG₂).trans hG₃, fun _ => ⟨?_, hpar⟩⟩
  unfold Fs.Dotted
  rw [Fs.put_disk_self, hes₂]
  rfl

/-! ## `create` -/

/-- The directory in which `path` names an entry that is not there has not been removed. -/
def PlaceKept (R : Procs) (T : Fs) (p : Slot) (path : Str) : Prop :=
  ∀ dp ∈ T.arrive (R.start p path) (elems path).dropLast, ∀ name ∈ (elems path).getLast?,
    T.child dp name = none → ¬T.removed dp

theorem Held.mono {own' : List Inum} (h : Held H own T i) (hc : own.count i ≤ own'.count i) :
    Held H own' T i := fun hz => Nat.lt_of_lt_of_le (h hz) (Nat.add_le_add_left hc _)

/-- The link count of a directory is no more than the directory can hold. -/
theorem Tree.nlink_dir (h : Tree strict debt fresh T) {d : Inum} (hd : T.IsDir d) :
    (T.disk d).nlink ≤ 17154 + debt d := by
  have hl := h.links hd.used
  obtain ⟨hn, hlost⟩ := h.once hd
  have hs := Nat.le_trans (T.subs_le d) (h.len d)
  have hr : rooted d ≤ 1 := by
    unfold rooted
    split <;> omega
  omega

/-- The name is entered and the parent has its subdirectory, or there is nothing. -/
def Created (strict : Prop) (R : Procs) (H : Inum → Nat) : Option Inum → Kernel → Prop
  | none, k => Settled strict R H [] k
  | some ip, k => Settled strict R H [ip] k

/-- A new inode before it has its name. -/
structure Unnamed (strict : Prop) (R : Procs) (H : Inum → Nat) (ip dp : Inum) (T₀ T : Fs)
    (fresh : Option Inum) (k : Kernel) : Prop where
  tree : Tree strict (owe noDebt ip 1) fresh T
  mem : Mem R H [ip, dp] none fresh T k
  grown : Grown ip T₀ T
  fresh_eq : fresh = none ∨ fresh = some ip

/-- `fail`. -/
theorem fail_wp {T₀ : Fs} (h : Unnamed strict R H ip dp T₀ T fresh k) (hne : ip ≠ dp)
    (hn : (T₀.disk ip).nlink = 1) (hH : H ip = 0) :
    wp (do
      setNlink ip fun _ => 0
      iunlockput ip
      iunlockput dp
      pure none) (Created strict R H) Safe k := by
  have hip : ip ∈ [ip, dp] := List.mem_cons_self
  refine (setNlink_wp (n := 0) h.mem hip (Option.some_ne_none ip).symm rfl).andThen
    fun _ k₁ h₁ => ?_
  have hT₁ := h.tree.setNlink (n := 0) (h.mem.used_of_mem hip) (by omega)
  rw [h.grown.nlink, hn, owe_back ip 1 (0 - 1) (by omega)] at hT₁
  have hz : ((T.setNlink ip 0).disk ip).nlink = 0 := by
    simp [Fs.setNlink, Fs.setDinode]
  refine (discard_wp hT₁ h.fresh_eq h₁ hz hH fun hm =>
    hne (List.mem_singleton.mp hm)).andThen fun _ k₂ h₂ => ?_
  obtain ⟨T₂, hT₂, h₂⟩ := h₂
  exact (iunlockput_settled hT₂ h₂).andThen fun _ _ h₃ => h₃

/-- The entry in the parent. -/
theorem enter_wp {T₀ : Fs} (h : Unnamed strict R H ip dp T₀ T none k) (hne : ip ≠ dp)
    (hn : T.names ip = 0) (hdir : T.IsDir ip → T.parent ip = T.born dp ∧ T.upOf ip = dp)
    (hst : strict → ¬T.removed dp) (name : Str) :
    wp (dirlink dp name ip) (fun ok k' =>
      (ok = false ∧ Unnamed strict R H ip dp T₀ T none k') ∨
      (ok = true ∧ ∃ T', Tree strict (owe noDebt dp (if T.IsDir ip then -1 else 0)) none T' ∧
        Mem R H [ip, dp] none none T' k' ∧ T'.IsDir dp)) Safe k := by
  have hu := h.mem.used_of_mem (i := ip) List.mem_cons_self
  have hiw : ip < 65536 := Nat.lt_of_lt_of_le (h.tree.bound hu).2 h.tree.width
  refine (dirlink_wp h.mem (List.mem_cons_of_mem ip List.mem_cons_self) hiw
    fun off _ => (Option.some_ne_none _).symm).mono fun ok k₁ h₁ => ?_
  rcases h₁ with ⟨rfl, h₁⟩ | ⟨rfl, hd, _, hlt, h₁⟩
  · exact .inl ⟨rfl, h.tree, h₁, h.grown, h.fresh_eq⟩
  · obtain ⟨hdots, hup0⟩ := h.tree.dots hd (Option.some_ne_none dp).symm
    have hlink := h.tree.link hd (Option.some_ne_none dp).symm
      (two_le_freeSlot hdots (h.tree.ne_zero hd.used) hup0) (freeSlot_le T dp) hlt
      (fun e he => inum_freeSlot he) hu (Option.some_ne_none ip).symm
      (fun hi => ⟨(hdir hi).1, (hdir hi).2, hn, fun hr => ?_⟩) hst (stored name)
    · rw [owe_back ip 1 (-1) (by omega)] at hlink
      exact .inr ⟨rfl, _, hlink, h₁, (Fs.put_isDir dp).mpr hd⟩
    · -- the root is its own parent
      have hup := (hdir hi).2
      rw [hr] at hup hne
      exact hne (h.tree.root.2.2.1.symm.trans hup)

/-- The link count of the parent, for `..`. -/
theorem parent_wp (type : IType) (hT : Tree strict (owe noDebt dp (if type = .T_DIR then -1 else 0))
    none T) (h : Mem R H [ip, dp] none none T k) (hd : T.IsDir dp) :
    wp (do
      if type = .T_DIR then setNlink dp (· + 1) else pure ⟨⟩
      iunlockput dp
      pure (some ip)) (Created strict R H) Safe k := by
  have hswap : ∀ {T₁ : Fs} {k₁ : Kernel}, Tree strict noDebt none T₁ →
      Mem R H [ip, dp] none none T₁ k₁ → wp (do
        iunlockput dp
        pure (some ip)) (Created strict R H) Safe k₁ := fun hT₁ h₁ =>
    (iunlockput_settled hT₁ h₁.swap).andThen fun _ _ h₂ => h₂
  dsimp only
  rw [wp_ite]
  refine ⟨fun ht => ?_, fun ht => ?_⟩
  · rw [if_pos ht] at hT
    have hb := hT.nlink_dir hd
    rw [owe_self] at hb
    have hr := hT.range hd.used
    have hb' : (T.disk dp).nlink + 1 < 32768 := by
      have : noDebt dp = 0 := rfl
      omega
    refine (setNlink_wp h (List.mem_cons_of_mem ip List.mem_cons_self)
      (Option.some_ne_none dp).symm (short_eq (by omega) hb')).andThen fun _ k₁ h₁ => ?_
    have hT₁ := hT.setNlink (n := (T.disk dp).nlink + 1) hd.used (by omega)
    rw [owe_back dp (-1) _ (by omega)] at hT₁
    exact hswap hT₁ h₁
  · rw [if_neg ht, owe_zero] at hT
    exact hswap hT h

/-- `create` once the new inode has its own entries, if that worked. -/
theorem finish_wp {T₀ : Fs} {type : IType} (ok : Bool) (h : Unnamed strict R H ip dp T₀ T fresh k)
    (hne : ip ≠ dp) (hn : (T₀.disk ip).nlink = 1) (hH : H ip = 0)
    (htype : T₀.IsDir ip ↔ type = .T_DIR) (hd : T₀.IsDir dp) (hst : strict → ¬T₀.removed dp)
    (hnames : T₀.names ip = 0)
    (hok : ok = true → T.IsDir ip → T.Dotted ip dp ∧ T.parent ip = T.born dp) (name : Str) :
    wp (do
        let ok ← if ok = true then dirlink dp name ip else pure false
        if ok = true then do
          if type = .T_DIR then setNlink dp (· + 1) else pure ⟨⟩
          iunlockput dp
          pure (some ip)
        else do
          setNlink ip fun _ => 0
          iunlockput ip
          iunlockput dp
          pure none) (Created strict R H) Safe k := by
  dsimp only
  rw [wp_ite]
  refine ⟨fun hok' => ?_, fun _ => ?_⟩
  · have hd' : T.IsDir dp := (h.grown.isDir dp).mpr hd
    have htree : Tree strict (owe noDebt ip 1) none T := by
      rcases h.fresh_eq with rfl | rfl
      · exact h.tree
      · exact h.tree.settle fun hi => ⟨(hok hok' hi).1, (hok hok' hi).2, hd', fun hs =>
          fun hr => hst hs ((h.grown.removed dp).mp hr)⟩
    have hmem : Mem R H [ip, dp] none none T k := by
      refine ⟨h.mem.procs, h.mem.fs, h.mem.refs, h.mem.used, h.mem.agrees, h.mem.valid,
        fun j hj hz hf => ?_, h.mem.sound⟩
      by_cases hji : j = ip
      · rw [hji, h.grown.nlink, hn] at hz
        exact absurd hz Int.one_ne_zero
      · refine h.mem.unlinked j hj hz fun he => ?_
        rcases h.fresh_eq with hf' | hf'
        · exact hf (hf' ▸ he)
        · exact hji (Option.some.inj (he.symm.trans hf'))
    refine (enter_wp ⟨htree, hmem, h.grown, .inl rfl⟩ hne ((h.grown.names ip).trans hnames)
      (fun hi => ⟨(hok hok' hi).2, (hok hok' hi).1.upOf⟩)
      (fun hs hr => hst hs ((h.grown.removed dp).mp hr)) name).andThen fun ok' k₁ h₁ => ?_
    rcases h₁ with ⟨rfl, h₁⟩ | ⟨rfl, T₁, hT₁, h₁, hd₁⟩
    · rw [if_neg Bool.false_ne_true]
      exact fail_wp h₁ hne hn hH
    · rw [if_pos rfl]
      have hiff : T.IsDir ip ↔ type = .T_DIR := (h.grown.isDir ip).trans htype
      refine parent_wp type ?_ h₁ hd₁
      by_cases hi : T.IsDir ip
      · rw [if_pos hi] at hT₁
        rw [if_pos (hiff.mp hi)]
        exact hT₁
      · rw [if_neg hi] at hT₁
        rw [if_neg fun hc => hi (hiff.mpr hc)]
        exact hT₁
  · rw [pure_bind, if_neg Bool.false_ne_true]
    exact fail_wp h hne hn hH

/-- **`create`.** -/
theorem create_wp (hT : Tree strict noDebt none T) (h : Mem R H [] none none T k) {p : Slot}
    (hp : CwdHeld R H p) {path : Str} (hok : PathOk R T p false path)
    (hst : strict → PlaceKept R T p path) {type : IType} (ht : type ≠ .free) (major minor : Int) :
    wp (create p path type major minor) (Created strict R H) Safe k := by
  unfold create
  refine (nameiparent_wp hT h hp hok.parent).andThen fun r k₁ h₁ => ?_
  match r, h₁ with
  | none, h₁ => exact ⟨T, hT, h₁⟩
  | some (dp, name), ⟨h₁, hheld, hd, harr, hlast⟩ =>
  simp only
  refine (ilock_wp h₁ List.mem_cons_self fun j hj =>
    absurd hj.symm (Option.some_ne_none j)).andThen fun _ k₂ h₂ => ?_
  have hatt : T.Attached (dp, name) := hok _ (T.mem_visits_last _ _ harr hlast hd)
  refine (dirlookup_wp h₂ List.mem_cons_self fun _ off hso =>
    (hT.lookup hd (Option.some_ne_none dp).symm hso hatt).1).andThen fun r k₃ h₃ => ?_
  match r, h₃.2 with
  | some (ip, off), ⟨hso, hip, h₃⟩ =>
    simp only
    have hui : T.Used ip := hip ▸ (hT.lookup hd (Option.some_ne_none dp).symm hso hatt).1
    refine (iunlockput_held (r := some ip) h₃.swap (hheld.mono (Nat.zero_le _))
      (Option.some_ne_none dp).symm fun j _ he => by rw [(unread_eq he).1]).andThen
      fun _ k₄ h₄ => ?_
    refine (ilock_wp h₄ List.mem_cons_self fun j hj => (Option.some.inj hj).symm).andThen
      fun _ k₅ h₅ => ?_
    rw [wp_bind, wp_get, wp_ite]
    refine ⟨fun _ => ⟨T, hT, h₅⟩, fun _ => ?_⟩
    exact (iunlockput_settled hT h₅).andThen fun _ _ h₆ => h₆
  | none, ⟨hso, h₃⟩ =>
  simp only
  refine (ialloc_wp h₃ ht).andThen fun r k₄ h₄ => ?_
  rcases h₄ with ⟨rfl, h₄⟩ | ⟨ip, rfl, h0, hw, hf, hH, hno, h₄⟩
  · exact (iunlockput_settled hT h₄).andThen fun _ _ h₅ => h₅
  simp only
  have hne : ip ≠ dp := fun he => hno (he ▸ List.mem_cons_self)
  have hT₄ := hT.alloc h0 hw hf ht rfl
  have hself : (T.alloc ip type).disk ip = ⟨type, 0, 0, 0, [], []⟩ := Function.update_self ip _ _
  refine (ilock_wp h₄ List.mem_cons_self fun j hj => (unread_eq hj).1).andThen fun _ k₅ h₅ => ?_
  rw [wp_bind, wp_modify, wp_bind, wp_modify]
  -- the new inode has a link count of 1 and no name
  set T₀ := (T.alloc ip type).setDinode ip ⟨type, short major, short minor, 1, [], []⟩ with hT₀def
  have hself₀ : T₀.disk ip = ⟨type, short major, short minor, 1, [], []⟩ :=
    Function.update_self ip _ _
  have h₆ : Mem R H [ip, dp] none (some ip) T₀ ((k₅.setInode ip fun i =>
      { i with major := short major, minor := short minor, nlink := 1 }).iupdate ip) := by
    refine head_wp h₅ List.mem_cons_self (Option.some_ne_none ip).symm (fun x => ⟨rfl, rfl⟩)
      (fun x hx => ⟨?_, rfl, rfl, rfl⟩) ?_ ?_ ht
    · show x.type = type
      rw [hx.1, hself]
    · rw [hself]
    · rw [hself]
  have hT₆ : Tree strict (owe noDebt ip 1) (some ip) T₀ := by
    have hhead := hT₄.head (i := ip) (d := ⟨type, short major, short minor, 1, [], []⟩)
      (h₅.used_of_mem List.mem_cons_self) (by rw [hself]) (by rw [hself])
      (show (0 : Int) ≤ 1 ∧ (1 : Int) < 32768 by omega)
    rw [hself] at hhead
    exact hhead
  have hn₀ : (T₀.disk ip).nlink = 1 := by rw [hself₀]
  have htype₀ : T₀.IsDir ip ↔ type = .T_DIR := by
    unfold Fs.IsDir
    rw [hself₀]
  have hdisk₀ : T₀.disk dp = T.disk dp := by
    show Function.update (Function.update T.disk ip _) ip _ dp = _
    rw [Function.update_of_ne hne.symm, Function.update_of_ne hne.symm]
  have hd₀ : T₀.IsDir dp := by
    unfold Fs.IsDir
    rw [hdisk₀]
    exact hd
  have hkids₀ : ∀ j, T₀.kids j = T.kids j := by
    intro j
    rw [← T.alloc_kids hf type j]
    unfold Fs.kids
    by_cases hj : j = ip
    · rw [hj, hself₀, hself]
    · have hj₀ : T₀.disk j = (T.alloc ip type).disk j := Function.update_of_ne hj _ _
      rw [hj₀]
  have hnames₀ : ∀ j, T₀.names j = T.names j := Fs.names_congr rfl hkids₀
  have hst₀ : strict → ¬T₀.removed dp := fun hs hr => by
    unfold Fs.removed at hr
    rw [hnames₀] at hr
    exact hst hs dp harr name hlast (by rw [Fs.child, hso]; rfl) hr
  have hip₀ : T₀.names ip = 0 := (hT₆.young rfl).2.2
  have hdpw : dp < 65536 := Nat.lt_of_lt_of_le (hT.bound hd.used).2 hT.width
  rw [wp_ite]
  refine ⟨fun htd => ?_, fun htd => ?_⟩
  · refine (dots_wp hT₆ h₆ List.mem_cons_self (by rw [hself₀]) hdpw).andThen fun ok k₇ h₇ => ?_
    obtain ⟨T₇, hT₇, h₇, hG, hdots⟩ := h₇
    refine finish_wp ok ⟨hT₇, h₇, hG, .inr rfl⟩ hne hn₀ hH htype₀ hd₀ hst₀ hip₀
      (fun hok' _ => ?_) name
    rw [hG.born]
    exact hdots hok'
  · exact finish_wp true ⟨hT₆, h₆, Grown.refl ip T₀, .inr rfl⟩ hne hn₀ hH htype₀ hd₀ hst₀ hip₀
      (fun _ hi => absurd (htype₀.mp hi) htd) name

end Xv6.Names
