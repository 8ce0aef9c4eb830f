import Xv6.Names.Tree

/-!
# Inodes come and go

An inode that `ialloc` returns is `fresh`: it has no names, and `create` may write its
first two entries in any order (`Tree.fill`, `Tree.adopt`). Once it is what it should
be it joins the tree (`Tree.settle`). An inode whose link count is 0 can be freed: what
it is owed is nothing, so no directory names it. The entries it held are lost with it,
and only files can be among them (`Tree.free`).
-/

namespace Xv6.Names

open Lib

/-- A new inode has no entries. -/
theorem Fs.alloc_kids (T : Fs) {i : Inum} (hf : ¬T.Used i) (type : IType) (j : Inum) :
    (T.alloc i type).kids j = T.kids j := by
  by_cases hj : j = i
  · subst hj
    have hself : (T.alloc j type).disk j = ⟨type, 0, 0, 0, [], []⟩ := Function.update_self j _ _
    rw [kids_of_not_dir fun hc => hf hc.used]
    unfold kids
    rw [hself, List.drop_nil, ite_self]
  · have hne : (T.alloc i type).disk j = T.disk j := Function.update_of_ne hj _ _
    unfold kids
    rw [hne]

namespace Tree

variable {strict : Prop} {debt : Inum → Int} {fresh : Option Inum} {T : Fs} {i dp : Inum}

/-! ## Birth -/

theorem alloc (h : Tree strict debt none T) (h0 : 0 < i) (hn : i < T.ninodes) (hf : ¬T.Used i)
    {type : IType} (ht : type ≠ .free) (hd : debt i = 0) :
    Tree strict debt (some i) (T.alloc i type) := by
  have hi0 : i ≠ 0 := Nat.pos_iff_ne_zero.mp h0
  have hself : (T.alloc i type).disk i = ⟨type, 0, 0, 0, [], []⟩ := Function.update_self i _ _
  have hne : ∀ {j}, j ≠ i → (T.alloc i type).disk j = T.disk j := fun hj =>
    Function.update_of_ne hj _ _
  have hborn : ∀ {j}, j ≠ i → (T.alloc i type).born j = T.born j := fun hj =>
    Function.update_of_ne hj _ _
  have hbornSelf : (T.alloc i type).born i = T.clock := Function.update_self i _ _
  have hused : ∀ {j}, j ≠ i → ((T.alloc i type).Used j ↔ T.Used j) := fun hj => by
    unfold Fs.Used
    rw [hne hj]
  have hdir : ∀ {j}, j ≠ i → ((T.alloc i type).IsDir j ↔ T.IsDir j) := fun hj => by
    unfold Fs.IsDir
    rw [hne hj]
  have hkids := T.alloc_kids hf type
  have hnames : ∀ j, (T.alloc i type).names j = T.names j := Fs.names_congr rfl hkids
  -- no entry leads to an inode that is free
  have hmem : ∀ {d de}, de ∈ T.kids d → de.inum ≠ 0 → de.inum ≠ i := fun hde hz he =>
    hf (he ▸ h.live hde hz)
  have hsubs : ∀ j, (T.alloc i type).subs j = T.subs j := fun j =>
    Fs.subs_congr (hkids j) fun de hde hz => hdir (hmem hde hz)
  have hup : ∀ {j}, j ≠ i → (T.alloc i type).upOf j = T.upOf j := fun hj =>
    Fs.upOf_congr (by rw [hne hj])
  have hrem : ∀ j, (T.alloc i type).removed j ↔ T.removed j := fun j => by
    unfold Fs.removed
    rw [hnames]
  have hroot : ROOTINO ≠ i := fun he => hf (he ▸ h.root.1.used)
  exact {
    width := h.width
    bound := fun {j} hj => by
      by_cases hji : j = i
      · rw [hji]
        exact ⟨h0, hn⟩
      · exact h.bound ((hused hji).mp hj)
    dots := fun {d} hd hfd => by
      have hdi : d ≠ i := fun he => hfd (congrArg some he.symm)
      rw [hup hdi]
      unfold Fs.Dotted
      rw [hne hdi]
      exact h.dots ((hdir hdi).mp hd) (Option.some_ne_none d).symm
    young := fun {d} hfd => by
      obtain rfl : i = d := Option.some.inj hfd
      refine ⟨?_, ?_, ?_⟩
      · unfold Fs.Used
        rw [hself]
        exact ht
      · rw [hself]
        exact Nat.zero_le 2
      · rw [hnames]
        exact h.names_free hi0 hf
    len := fun d => by
      by_cases hdi : d = i
      · rw [hdi, hself]
        exact Nat.zero_le _
      · rw [hne hdi]
        exact h.len d
    live := fun hde hz => by
      rw [hkids] at hde
      exact (hused (hmem hde hz)).mpr (h.live hde hz)
    under := fun {d de} hde hed => by
      rw [hkids] at hde
      by_cases hz : de.inum = 0
      · rw [hz] at hed
        exact absurd ((hdir hi0.symm).mp hed).used h.not_used_zero
      · have hei := hmem hde hz
        have hdi : d ≠ i := fun he => hf (he ▸ (Fs.isDir_of_mem_kids hde).used)
        rw [hup hei, hborn hdi]
        exact h.under hde ((hdir hei).mp hed)
    once := fun {j} hj => by
      rw [hnames]
      by_cases hji : j = i
      · subst hji
        rw [h.names_free hi0 hf]
        exact ⟨Nat.zero_le 1, h.gone hf hi0⟩
      · exact h.once ((hdir hji).mp hj)
    root := by
      obtain ⟨hr, hrn, hru, hrp, _⟩ := h.root
      rw [hnames, hup hroot, hborn hroot]
      exact ⟨(hdir hroot).mpr hr, hrn, hru, hrp, fun he => hroot (Option.some.inj he).symm⟩
    links := fun {j} hj => by
      rw [hnames, hsubs]
      by_cases hji : j = i
      · subst hji
        have hs : T.subs j = 0 := by
          unfold Fs.subs
          rw [Fs.kids_of_not_dir fun hc => hf hc.used]
          rfl
        show _ = ((T.names j + T.subs j + rooted j + T.lost j : Nat) : Int) + debt j
        rw [hself, h.names_free hi0 hf, hs, h.gone hf hi0, hd]
        simp [rooted, hroot.symm]
      · rw [hne hji]
        exact h.links ((hused hji).mp hj)
    range := fun {j} hj => by
      by_cases hji : j = i
      · rw [hji, hself]
        exact ⟨Int.le_refl 0, Int.lt_of_sub_pos (Int.natCast_pos.mpr (Nat.succ_pos 32767))⟩
      · rw [hne hji]
        exact h.range ((hused hji).mp hj)
    gone := fun {j} hj hz => by
      by_cases hji : j = i
      · subst hji
        exact h.gone hf hz
      · exact h.gone (fun hu => hj ((hused hji).mpr hu)) hz
    old := fun {j} hj => by
      show _ < T.clock + 1
      by_cases hji : j = i
      · rw [hji, hbornSelf]
        exact Nat.lt_succ_self _
      · rw [hborn hji]
        exact Nat.lt_succ_of_lt (h.old ((hused hji).mp hj))
    -- stamps of other inodes are older
    inj := fun {j k} hj hk hb => by
      by_cases hji : j = i
      · by_cases hki : k = i
        · rw [hji, hki]
        · rw [hji, hbornSelf, hborn hki] at hb
          exact absurd hb (h.old ((hused hki).mp hk)).ne'
      · by_cases hki : k = i
        · rw [hki, hbornSelf, hborn hji] at hb
          exact absurd hb (h.old ((hused hji).mp hj)).ne
        · rw [hborn hji, hborn hki] at hb
          exact h.inj ((hused hji).mp hj) ((hused hki).mp hk) hb
    par := fun {d} hd hfd => by
      have hdi : d ≠ i := fun he => hfd (congrArg some he.symm)
      obtain ⟨hlt, hq⟩ := h.par ((hdir hdi).mp hd) (Option.some_ne_none d).symm
      rw [hup hdi]
      refine ⟨Nat.lt_succ_of_lt hlt, fun q hqd hb => ?_⟩
      by_cases hqi : q = i
      · -- the new stamp is nobody's parent
        rw [hqi, hbornSelf] at hb
        exact absurd hb hlt.ne'
      · rw [hborn hqi] at hb
        exact hq q ((hdir hqi).mp hqd) hb
    kept := h.kept
    empty := fun hst {d} hd hr => by
      rw [hkids]
      by_cases hdi : d = i
      · rw [hdi, Fs.kids_of_not_dir fun hc => hf hc.used]
        exact fun e he => absurd he List.not_mem_nil
      · exact h.empty hst ((hdir hdi).mp hd) ((hrem d).mp hr)
    up := fun hst {d} hd hfd => by
      have hdi : d ≠ i := fun he => hfd (congrArg some he.symm)
      obtain ⟨hu, hnr, hb⟩ := h.up hst ((hdir hdi).mp hd) (Option.some_ne_none d).symm
      have hui : T.upOf d ≠ i := fun he => hf (he ▸ hu.used)
      rw [hup hdi, hrem, hborn hui]
      exact ⟨(hdir hui).mpr hu, hnr, hb⟩ }

/-- The disk with one directory rewritten that has no entries behind the first two. -/
theorem fill (h : Tree strict debt (some i) T) {es : List Dirent} (hes : es.length ≤ 2) :
    Tree strict debt (some i) (T.setDinode i { T.disk i with entries := es }) := by
  obtain ⟨hu, hlen, hn⟩ := h.young rfl
  have hself : (T.setDinode i { T.disk i with entries := es }).disk i
      = { T.disk i with entries := es } := Function.update_self i _ _
  have hne : ∀ {j}, j ≠ i → (T.setDinode i { T.disk i with entries := es }).disk j = T.disk j :=
    fun hj => Function.update_of_ne hj _ _
  have htype : ∀ j, ((T.setDinode i { T.disk i with entries := es }).disk j).type
      = (T.disk j).type := fun j => by
    by_cases hj : j = i
    · rw [hj, hself]
    · rw [hne hj]
  have hkids : ∀ j, (T.setDinode i { T.disk i with entries := es }).kids j = T.kids j := by
    intro j
    by_cases hj : j = i
    · subst hj
      unfold Fs.kids
      rw [hself, List.drop_eq_nil_of_le hes, List.drop_eq_nil_of_le hlen]
    · unfold Fs.kids
      rw [hne hj]
  have hused : ∀ j, (T.setDinode i { T.disk i with entries := es }).Used j ↔ T.Used j := fun j => by
    unfold Fs.Used
    rw [htype]
  have hdir : ∀ j, (T.setDinode i { T.disk i with entries := es }).IsDir j ↔
    T.IsDir j := fun j => by
    unfold Fs.IsDir
    rw [htype]
  have hnames : ∀ j, (T.setDinode i { T.disk i with entries := es }).names j = T.names j :=
    Fs.names_congr rfl hkids
  have hsubs : ∀ j, (T.setDinode i { T.disk i with entries := es }).subs j = T.subs j := fun j =>
    Fs.subs_congr (hkids j) fun _ _ _ => hdir _
  have hrem : ∀ j, (T.setDinode i { T.disk i with entries := es }).removed j ↔ T.removed j :=
    fun j => by
      unfold Fs.removed
      rw [hnames]
  have hup : ∀ {j}, j ≠ i → (T.setDinode i { T.disk i with entries := es }).upOf j = T.upOf j :=
    fun hj => Fs.upOf_congr (by rw [hne hj])
  have hroot : ROOTINO ≠ i := fun he => h.root.2.2.2.2 (congrArg some he.symm)
  exact {
    width := h.width
    bound := fun hj => h.bound ((hused _).mp hj)
    dots := fun {d} hd hfd => by
      have hdi : d ≠ i := fun he => hfd (congrArg some he.symm)
      rw [hup hdi]
      unfold Fs.Dotted
      rw [hne hdi]
      exact h.dots ((hdir d).mp hd) hfd
    young := fun {d} hfd => by
      obtain rfl : i = d := Option.some.inj hfd
      rw [hused, hself, hnames]
      exact ⟨hu, hes, hn⟩
    len := fun d => by
      by_cases hdi : d = i
      · rw [hdi, hself]
        exact Nat.le_trans hes (by decide)
      · rw [hne hdi]
        exact h.len d
    live := fun hde hz => by
      rw [hkids] at hde
      exact (hused _).mpr (h.live hde hz)
    under := fun {d de} hde hed => by
      rw [hkids] at hde
      have hei : de.inum ≠ i := fun he => absurd (he ▸ h.names_of_mem hde) (by rw [hn]; decide)
      rw [hup hei]
      exact h.under hde ((hdir _).mp hed)
    once := fun hj => by
      rw [hnames]
      exact h.once ((hdir _).mp hj)
    root := by
      rw [hdir, hnames, hup hroot]
      exact h.root
    links := fun {j} hj => by
      rw [hnames, hsubs]
      have hl := h.links ((hused j).mp hj)
      by_cases hji : j = i
      · subst hji
        rw [hself]
        exact hl
      · rw [hne hji]
        exact hl
    range := fun {j} hj => by
      have hr := h.range ((hused j).mp hj)
      by_cases hji : j = i
      · subst hji
        rw [hself]
        exact hr
      · rw [hne hji]
        exact hr
    gone := fun hj hz => h.gone (fun hu => hj ((hused _).mpr hu)) hz
    old := fun hj => h.old ((hused _).mp hj)
    inj := fun hj hk hb => h.inj ((hused _).mp hj) ((hused _).mp hk) hb
    par := fun {d} hd hfd => by
      have hdi : d ≠ i := fun he => hfd (congrArg some he.symm)
      obtain ⟨hlt, hq⟩ := h.par ((hdir d).mp hd) hfd
      rw [hup hdi]
      exact ⟨hlt, fun q hqd hb => hq q ((hdir q).mp hqd) hb⟩
    kept := h.kept
    empty := fun hst {d} hd hr => by
      rw [hkids]
      exact h.empty hst ((hdir d).mp hd) ((hrem d).mp hr)
    up := fun hst {d} hd hfd => by
      have hdi : d ≠ i := fun he => hfd (congrArg some he.symm)
      rw [hup hdi, hdir, hrem]
      exact h.up hst ((hdir d).mp hd) hfd }

/-- The stamp of the directory it is created under. -/
theorem adopt (h : Tree strict debt (some i) T) : Tree strict debt (some i) (T.adopt i dp) := by
  obtain ⟨_, _, hn⟩ := h.young rfl
  have hne : ∀ {j}, j ≠ i → (T.adopt i dp).parent j = T.parent j := fun hj =>
    Function.update_of_ne hj _ _
  have hroot : ROOTINO ≠ i := fun he => h.root.2.2.2.2 (congrArg some he.symm)
  exact { h with
    under := fun {d de} hde hed => by
      have hei : de.inum ≠ i := fun he => absurd (he ▸ h.names_of_mem hde) (by rw [hn]; decide)
      rw [hne hei]
      exact h.under hde hed
    root := by
      rw [hne hroot]
      exact h.root
    par := fun {d} hd hfd => by
      rw [hne fun he => hfd (congrArg some he.symm)]
      exact h.par hd hfd
    up := fun hst {d} hd hfd => by
      rw [hne fun he => hfd (congrArg some he.symm)]
      exact h.up hst hd hfd }

/-- The new inode is part of the tree. -/
theorem settle (h : Tree strict debt (some i) T)
    (hi : T.IsDir i → T.Dotted i dp ∧ T.parent i = T.born dp ∧ T.IsDir dp ∧
      (strict → ¬T.removed dp)) : Tree strict debt none T :=
  { h with
    dots := fun {d} hd _ => by
      by_cases hdi : d = i
      · subst hdi
        obtain ⟨hdt, _, hdp, _⟩ := hi hd
        rw [hdt.upOf]
        exact ⟨hdt, h.ne_zero hdp.used⟩
      · exact h.dots hd fun he => hdi (Option.some.inj he).symm
    young := fun {d} he => absurd he.symm (Option.some_ne_none d)
    root := by
      obtain ⟨hr, hn, hu, hp, _⟩ := h.root
      exact ⟨hr, hn, hu, hp, (Option.some_ne_none _).symm⟩
    par := fun {d} hd _ => by
      by_cases hdi : d = i
      · subst hdi
        obtain ⟨hdt, hp, hdp, _⟩ := hi hd
        rw [hdt.upOf, hp]
        exact ⟨h.old hdp.used, fun q hq hb => h.inj hdp.used hq.used hb.symm⟩
      · exact h.par hd fun he => hdi (Option.some.inj he).symm
    up := fun hst {d} hd _ => by
      by_cases hdi : d = i
      · subst hdi
        obtain ⟨hdt, hp, hdp, hr⟩ := hi hd
        rw [hdt.upOf]
        exact ⟨hdp, hr hst, hp.symm⟩
      · exact h.up hst hd fun he => hdi (Option.some.inj he).symm }

/-! ## Death -/

/-- Nothing leads to an inode whose count is 0, and it has no subdirectory. -/
theorem unlinked (h : Tree strict debt fresh T) (hu : T.Used i)
    (hz : (T.disk i).nlink = 0) (hd : 0 ≤ debt i) :
    T.names i = 0 ∧ T.subs i = 0 ∧ i ≠ ROOTINO ∧ T.lost i = 0 ∧ debt i = 0 := by
  have hl := h.links hu
  have hr : rooted i = 0 := by omega
  refine ⟨by omega, by omega, fun he => ?_, by omega, by omega⟩
  rw [he] at hr
  exact absurd hr (by decide)

/-- **Freeing an inode**: its entries are lost, and no directory is among them. -/
theorem free (h : Tree strict debt fresh T) (hu : T.Used i) (hz : (T.disk i).nlink = 0)
    (hd : 0 ≤ debt i) : Tree strict debt (if fresh = some i then none else fresh) (T.free i) := by
  obtain ⟨hn0, hs0, hiroot, hl0, _⟩ := h.unlinked hu hz hd
  have hself : (T.free i).disk i = { T.disk i with type := .free, entries := [], data := [] } :=
    Function.update_self i _ _
  have hne : ∀ {j}, j ≠ i → (T.free i).disk j = T.disk j := fun {j} hj => by
    show Function.update (Function.update T.disk i _) i _ j = _
    rw [Function.update_of_ne hj, Function.update_of_ne hj]
  have hnot : ¬(T.free i).Used i := by
    unfold Fs.Used
    rw [hself]
    exact fun hc => hc rfl
  have hused : ∀ {j}, (T.free i).Used j ↔ T.Used j ∧ j ≠ i := fun {j} => by
    by_cases hj : j = i
    · subst hj
      exact ⟨fun hc => absurd hc hnot, fun hc => absurd hc.2 (fun hc => hc rfl)⟩
    · unfold Fs.Used
      rw [hne hj]
      exact (and_iff_left hj).symm
  have hdir : ∀ {j}, (T.free i).IsDir j ↔ T.IsDir j ∧ j ≠ i := fun {j} => by
    by_cases hj : j = i
    · subst hj
      exact ⟨fun hc => absurd hc.used hnot, fun hc => absurd hc.2 (fun hc => hc rfl)⟩
    · unfold Fs.IsDir
      rw [hne hj]
      exact (and_iff_left hj).symm
  have hkidsI : (T.free i).kids i = [] := Fs.kids_of_not_dir fun hc => hnot hc.used
  have hkids : ∀ {j}, j ≠ i → (T.free i).kids j = T.kids j := fun hj => by
    unfold Fs.kids
    rw [hne hj]
  -- no entry of `i` is a directory, and none leads back to it
  have hentry : ∀ {e}, e ∈ T.kids i → e.inum ≠ 0 → ¬T.IsDir e.inum := by
    intro e he hz' hed
    have hpos : 0 < T.subs i :=
      List.countP_pos_iff.mpr ⟨e, he, decide_eq_true ⟨hz', hed⟩⟩
    omega
  have hnoName : ∀ {d e}, e ∈ T.kids d → e.inum ≠ i := fun he hei =>
    absurd (hei ▸ h.names_of_mem he) (by rw [hn0]; exact Nat.lt_irrefl 0)
  have hcount : ∀ {j}, T.IsDir j → (T.kids i).countP (fun e => e.inum = j) = 0 := by
    intro j hj
    refine List.countP_eq_zero.mpr fun e he hej => ?_
    obtain rfl := of_decide_eq_true hej
    exact hentry he (h.ne_zero hj.used) hj
  -- names that were in `i` are lost, and counted as such
  have hnames : ∀ j, (T.free i).names j + (T.kids i).countP (fun e => e.inum = j) = T.names j := by
    intro j
    have hother : ∀ e, e ≠ i → (T.free i).kids e = T.kids e := fun e he => hkids he
    have hsize : (T.free i).ninodes = T.ninodes := rfl
    have hch := Fs.names_change hsize (h.bound hu).2 hother j
    rw [hkidsI] at hch
    exact hch
  have hnamesDir : ∀ {j}, T.IsDir j → (T.free i).names j = T.names j := fun {j} hj => by
    have hj' := hnames j
    rwa [hcount hj, Nat.add_zero] at hj'
  have hsubs : ∀ {j}, j ≠ i → (T.free i).subs j = T.subs j := fun hj =>
    Fs.subs_congr (hkids hj) fun e he _ => by
      rw [hdir]
      exact and_iff_left (hnoName he)
  have hlost : ∀ j, (T.free i).lost j = T.lost j + (T.kids i).countP fun e => e.inum = j :=
    fun j => rfl
  have hup : ∀ {j}, j ≠ i → (T.free i).upOf j = T.upOf j := fun hj =>
    Fs.upOf_congr (by rw [hne hj])
  have hfresh : ∀ {j}, j ≠ i → (if fresh = some i then none else fresh) ≠ some j →
      fresh ≠ some j := by
    intro j hj hf he
    rw [if_neg fun hc => hj (Option.some.inj (he.symm.trans hc))] at hf
    exact hf he
  have hrem : ∀ {j}, T.IsDir j → ((T.free i).removed j ↔ T.removed j) := fun hj => by
    unfold Fs.removed
    rw [hnamesDir hj]
  have hroot : T.IsDir ROOTINO := h.root.1
  exact {
    width := h.width
    bound := fun hj => h.bound (hused.mp hj).1
    dots := fun {d} hd' hfd => by
      obtain ⟨hdd, hdi⟩ := hdir.mp hd'
      rw [hup hdi]
      unfold Fs.Dotted
      rw [hne hdi]
      exact h.dots hdd (hfresh hdi hfd)
    young := fun {d} hfd => by
      split at hfd
      next => exact absurd hfd.symm (Option.some_ne_none d)
      next hf =>
        have hdi : d ≠ i := fun he => hf (he ▸ hfd)
        obtain ⟨hud, hlen, hnd⟩ := h.young hfd
        have hj := hnames d
        rw [hne hdi]
        exact ⟨hused.mpr ⟨hud, hdi⟩, hlen, by omega⟩
    len := fun d => by
      by_cases hdi : d = i
      · rw [hdi, hself]
        exact Nat.zero_le _
      · rw [hne hdi]
        exact h.len d
    live := fun {d e} he hz' => by
      have hdi : d ≠ i := fun hc => by
        rw [hc, hkidsI] at he
        exact absurd he List.not_mem_nil
      rw [hkids hdi] at he
      exact hused.mpr ⟨h.live he hz', hnoName he⟩
    under := fun {d e} he hed => by
      have hdi : d ≠ i := fun hc => by
        rw [hc, hkidsI] at he
        exact absurd he List.not_mem_nil
      rw [hkids hdi] at he
      rw [hup (hnoName he)]
      exact h.under he (hdir.mp hed).1
    once := fun {j} hj => by
      obtain ⟨hjd, _⟩ := hdir.mp hj
      rw [hnamesDir hjd, hlost, hcount hjd]
      exact h.once hjd
    root := by
      obtain ⟨hr, hrn, hru, hrp, hrf⟩ := h.root
      rw [hnamesDir hr, hup (Ne.symm hiroot)]
      refine ⟨hdir.mpr ⟨hr, Ne.symm hiroot⟩, hrn, hru, hrp, fun hc => ?_⟩
      split at hc
      next => exact absurd hc.symm (Option.some_ne_none _)
      next => exact hrf hc
    links := fun {j} hj => by
      obtain ⟨huj, hji⟩ := hused.mp hj
      have hl := h.links huj
      have hnj := hnames j
      rw [hne hji, hsubs hji, hlost, hl]
      congr 1
      omega
    range := fun {j} hj => by
      obtain ⟨huj, hji⟩ := hused.mp hj
      rw [hne hji]
      exact h.range huj
    gone := fun {j} hj hz' => by
      have hcz : (T.kids i).countP (fun e => e.inum = j) = 0 := by
        refine List.countP_eq_zero.mpr fun e he hej => ?_
        obtain rfl := of_decide_eq_true hej
        exact hj (hused.mpr ⟨h.live he hz', hnoName he⟩)
      rw [hlost, hcz, Nat.add_zero]
      by_cases hji : j = i
      · rw [hji]
        exact hl0
      · exact h.gone (fun huj => hj (hused.mpr ⟨huj, hji⟩)) hz'
    old := fun hj => h.old (hused.mp hj).1
    inj := fun hj hk hb => h.inj (hused.mp hj).1 (hused.mp hk).1 hb
    par := fun {d} hd' hfd => by
      obtain ⟨hdd, hdi⟩ := hdir.mp hd'
      obtain ⟨hlt, hq⟩ := h.par hdd (hfresh hdi hfd)
      rw [hup hdi]
      exact ⟨hlt, fun q hqd hb => hq q (hdir.mp hqd).1 hb⟩
    kept := fun hst j hj => by
      have hcz : (T.kids i).countP (fun e => e.inum = j) = 0 := by
        refine List.countP_eq_zero.mpr fun e he hej => ?_
        have hid := Fs.isDir_of_mem_kids he
        exact hj ((of_decide_eq_true hej).symm.trans (h.empty hst hid ⟨hiroot, hn0⟩ e he))
      rw [hlost, hcz, Nat.add_zero]
      exact h.kept hst j hj
    empty := fun hst {d} hd' hr => by
      obtain ⟨hdd, hdi⟩ := hdir.mp hd'
      rw [hkids hdi]
      exact h.empty hst hdd ((hrem hdd).mp hr)
    up := fun hst {d} hd' hfd => by
      obtain ⟨hdd, hdi⟩ := hdir.mp hd'
      obtain ⟨hu', hnr, hb⟩ := h.up hst hdd (hfresh hdi hfd)
      rw [hup hdi, hrem hu']
      exact ⟨hdir.mpr ⟨hu', fun he => hnr (he ▸ ⟨hiroot, hn0⟩)⟩, hnr, hb⟩ }

end Tree

end Xv6.Names
