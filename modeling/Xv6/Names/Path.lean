import Xv6.Names.Mem
import Mathlib.Data.List.DropRight

/-!
# Lookups

The elements of a path, the directories they are looked up in, and the inode they
lead to are functions of the disk alone: `elems`, `visits`, `arrive`. `namex` makes
exactly these lookups, gets there, and leaves the disk as it was (`namex_wp`): every
`iput` on its way gives back a reference to an inode that something else holds.

> A lookup finds an inode in use. For `..` it is the directory it was created under,
> unless the directory has been removed and that parent freed (`Tree.lookup`).
-/

namespace Xv6.Names

open Lib
open Ftable (NFILE NOFILE FileId Fd FileType)

/-! ## Paths and the disk -/

/-- The elements of a path. -/
def elemsOf : Nat → Str → List Str
  | fuel, path =>
    match fuel, skipelem path with
    | fuel + 1, some (name, path) => name :: elemsOf fuel path
    | _, _ => []

def elems (path : Str) : List Str := elemsOf path.length path

theorem skipelem_some {path name rest : Str} (h : skipelem path = some (name, rest)) :
    rest.length < path.length ∧ (skipelem rest = none → rest = []) := by
  unfold skipelem at h
  simp only at h
  split at h
  next => exact absurd h.symm (Option.some_ne_none _)
  next hne =>
    obtain ⟨_, rfl⟩ := Prod.mk.inj (Option.some.inj h)
    set p := path.dropWhile (· == slash) with hp
    have hple : p.length ≤ path.length := (List.dropWhile_sublist _).length_le
    have hrest : ((p.dropWhile (· != slash)).dropWhile (· == slash)).length
        ≤ (p.dropWhile (· != slash)).length := (List.dropWhile_sublist _).length_le
    have hlt : (p.dropWhile (· != slash)).length < p.length := by
      cases hc : p with
      | nil => exact absurd hc hne
      | cons c cs =>
        have hhead : (c != slash) = true := by
          have hall := List.head?_dropWhile_not (fun x : UInt8 => x == slash) path
          rw [← hp, hc] at hall
          simpa using hall
        rw [List.dropWhile_cons, if_pos hhead]
        exact Nat.lt_succ_of_le (List.dropWhile_sublist _).length_le
    refine ⟨by omega, fun hnone => ?_⟩
    unfold skipelem at hnone
    rw [List.dropWhile_idempotent] at hnone
    by_contra hr
    rw [if_neg hr] at hnone
    exact Option.some_ne_none _ hnone

theorem elemsOf_succ {fuel : Nat} {path : Str} {r : Str × Str} (h : skipelem path = some r) :
    elemsOf (fuel + 1) path = r.1 :: elemsOf fuel r.2 := by
  rw [elemsOf.eq_def]
  simp only [h]

theorem elemsOf_none {fuel : Nat} {path : Str} (h : skipelem path = none) :
    elemsOf fuel path = [] := by
  rw [elemsOf.eq_def]
  cases fuel <;> simp only [h]

theorem elemsOf_eq_nil {fuel : Nat} {path : Str} (hf : path.length ≤ fuel)
    (h : elemsOf fuel path = []) : skipelem path = none := by
  cases fuel with
  | zero =>
    rw [List.length_eq_zero_iff.mp (Nat.le_zero.mp hf)]
    rfl
  | succ n =>
    cases hs : skipelem path with
    | none => rfl
    | some r =>
      rw [elemsOf_succ hs] at h
      exact absurd h (List.cons_ne_nil _ _)

namespace Fs

/-- The inode called `name` in `d`. -/
def child (T : Fs) (d : Inum) (name : Str) : Option Inum :=
  (T.slotOf d name).map (T.inumAt d)

/-- Which names are looked up in which directories on the way along `names`. -/
def visits (T : Fs) : Inum → List Str → List (Inum × Str)
  | _, [] => []
  | d, name :: names =>
    if T.IsDir d then
      (d, name) :: match T.child d name with
        | none => []
        | some d' => visits T d' names
    else []

/-- Where `names` lead to. -/
def arrive (T : Fs) : Inum → List Str → Option Inum
  | d, [] => some d
  | d, name :: names =>
    if T.IsDir d then
      match T.child d name with
      | none => none
      | some d' => arrive T d' names
    else none

/-- What `namex` returns for `names` from `d`: the inode they lead to; with `parent`,
the directory all but the last lead to, and the last. -/
def destination (T : Fs) (d : Inum) (names : List Str) (parent : Bool) : Option (Inum × Str) :=
  if parent then
    match names.getLast?, T.arrive d names.dropLast with
    | some name, some dp => if T.IsDir dp then some (dp, name) else none
    | _, _ => none
  else (T.arrive d names).map fun i => (i, [])

variable {T : Fs} {d next : Inum} {name : Str} {names : List Str} {parent : Bool}

theorem destination_nil : T.destination d [] parent = if parent then none else some (d, []) := rfl

theorem destination_last (hd : T.IsDir d) : T.destination d [name] true = some (d, name) :=
  if_pos hd

theorem destination_of_not_dir (hd : ¬T.IsDir d) :
    T.destination d (name :: names) parent = none := by
  have harr : T.arrive d (name :: names) = none := by rw [arrive, if_neg hd]
  unfold destination
  cases parent with
  | false => rw [harr]; rfl
  | true =>
    cases names with
    | nil => exact if_neg hd
    | cons first names =>
      rw [List.dropLast_cons_of_ne_nil (List.cons_ne_nil _ _), arrive, if_neg hd]
      rfl

theorem destination_of_missing (hd : T.IsDir d) (hc : T.child d name = none)
    (hn : parent = true → names ≠ []) : T.destination d (name :: names) parent = none := by
  unfold destination
  cases parent with
  | false =>
    rw [arrive, if_pos hd, hc]
    rfl
  | true =>
    rw [List.dropLast_cons_of_ne_nil (hn rfl), arrive, if_pos hd, hc]
    cases (name :: names).getLast? <;> rfl

theorem destination_cons (hd : T.IsDir d) (hc : T.child d name = some next)
    (hn : parent = true → names ≠ []) :
    T.destination d (name :: names) parent = T.destination next names parent := by
  unfold destination
  cases parent with
  | false =>
    rw [arrive, if_pos hd, hc]
    rfl
  | true =>
    have hne := hn rfl
    have hl : names.getLast? = some (names.getLast hne) := List.getLast?_eq_some_getLast hne
    rw [List.dropLast_cons_of_ne_nil hne, arrive, if_pos hd, hc, List.getLast?_cons, hl]
    rfl

theorem visits_dropLast (T : Fs) : ∀ (names : List Str) (d : Inum),
    ∀ v ∈ T.visits d names.dropLast, v ∈ T.visits d names := by
  intro names
  induction names with
  | nil => intro d v hv; exact hv
  | cons name names ih =>
    intro d v hv
    cases names with
    | nil => exact absurd hv List.not_mem_nil
    | cons next names =>
      rw [List.dropLast_cons_of_ne_nil (List.cons_ne_nil _ _), visits] at hv
      rw [visits]
      split at hv
      next hd =>
        rw [if_pos hd]
        rcases List.mem_cons.mp hv with rfl | hv
        · exact List.mem_cons_self
        · refine List.mem_cons_of_mem _ ?_
          cases hc : T.child d name with
          | none =>
            rw [hc] at hv
            exact absurd hv List.not_mem_nil
          | some d' =>
            rw [hc] at hv
            exact ih d' v hv
      next => exact absurd hv List.not_mem_nil

/-- The last name is looked up where all but the last lead to. -/
theorem mem_visits_last (T : Fs) : ∀ (names : List Str) (d : Inum) {dp : Inum} {name : Str},
    T.arrive d names.dropLast = some dp → names.getLast? = some name → T.IsDir dp →
      (dp, name) ∈ T.visits d names := by
  intro names
  induction names with
  | nil =>
    intro d dp name _ hl _
    rw [List.getLast?_nil] at hl
    exact absurd hl.symm (Option.some_ne_none _)
  | cons first names ih =>
    intro d dp name ha hl hd
    cases names with
    | nil =>
      obtain rfl : first = name := Option.some.inj hl
      obtain rfl : d = dp := Option.some.inj ha
      rw [visits, if_pos hd]
      exact List.mem_cons_self
    | cons next names =>
      rw [List.dropLast_cons_of_ne_nil (List.cons_ne_nil _ _), arrive] at ha
      rw [List.getLast?_cons_cons] at hl
      rw [visits]
      split at ha
      next hdd =>
        rw [if_pos hdd]
        refine List.mem_cons_of_mem _ ?_
        cases hc : T.child d first with
        | none =>
          rw [hc] at ha
          exact absurd ha.symm (Option.some_ne_none _)
        | some d' =>
          rw [hc] at ha
          exact ih d' ha hl hd
      next => exact absurd ha.symm (Option.some_ne_none _)

/-- The directory has been removed, and the one it was created under freed. -/
def CutOff (T : Fs) (d : Inum) : Prop :=
  T.removed d ∧ ∀ q < T.ninodes, T.IsDir q → T.born q ≠ T.parent d

/-- `..` is not looked up in a directory that is cut off. -/
def Attached (T : Fs) (v : Inum × Str) : Prop := namecmp v.2 dotdot = 0 → ¬T.CutOff v.1

end Fs

/-- Where a path starts. -/
def Procs.start (R : Procs) (p : Slot) (path : Str) : Inum :=
  if path.headD 0 = slash then ROOTINO else (R.cwd p).getD 0

variable {strict : Prop} {debt : Inum → Int} {fresh : Option Inum} {T : Fs}

/-- **What a lookup finds.** -/
theorem Tree.lookup (h : Tree strict debt fresh T) {d : Inum} (hd : T.IsDir d)
    (hf : fresh ≠ some d) {name : Str} {off : Nat} (hs : T.slotOf d name = some off)
    (hc : T.Attached (d, name)) :
    T.Used (T.inumAt d off) ∧
      (namecmp name dotdot = 0 → T.born (T.inumAt d off) = T.parent d) := by
  obtain ⟨hdot, hup0⟩ := h.dots hd hf
  rcases Fs.slotOf_dotted hdot (h.ne_zero hd.used) hup0 hs with
    ⟨hn, _, hi⟩ | ⟨hn, _, hi⟩ | ⟨_, hn, _, _, hi0, de, hde, _, hi⟩
  · rw [hi]
    exact ⟨hd.used, fun hdd =>
      absurd (hn.symm.trans ((namecmp_eq_zero _ _).mp hdd)) stored_dot_ne⟩
  · rw [hi]
    have hnc := hc ((namecmp_eq_zero _ _).mpr hn)
    suffices hq : ∃ q, T.IsDir q ∧ T.born q = T.parent d ∧ T.upOf d = q by
      obtain ⟨q, hq, hb, hu⟩ := hq
      rw [hu]
      exact ⟨hq.used, fun _ => hb⟩
    by_cases hr : T.removed d
    · -- the directory it was created under is still there
      have hex : ∃ q, T.IsDir q ∧ T.born q = T.parent d := by
        by_contra hno
        exact hnc ⟨hr, fun q _ hq hb => absurd ⟨q, hq, hb⟩ hno⟩
      obtain ⟨q, hq, hb⟩ := hex
      exact ⟨q, hq, hb, (h.par hd hf).2 q hq hb⟩
    · by_cases hroot : d = ROOTINO
      · subst hroot
        exact ⟨ROOTINO, hd, h.root.2.2.2.1.symm, h.root.2.2.1⟩
      · -- its name is where it was created
        have hpos : 0 < T.names d := Nat.pos_of_ne_zero fun hz => hr ⟨hroot, hz⟩
        obtain ⟨q, de, hde, rfl⟩ := Fs.exists_entry hpos
        obtain ⟨hp, hu⟩ := h.under hde hd
        exact ⟨q, Fs.isDir_of_mem_kids hde, hp.symm, hu⟩
  · refine ⟨?_, fun hdd => absurd ((namecmp_eq_zero _ _).mp hdd) hn⟩
    rw [← Fs.kids_of_dir hd] at hde
    exact hi ▸ h.live hde (hi ▸ hi0)

/-! ## `namex` -/

variable {R : Procs} {H : Inum → Nat} {own : List Inum} {raw : Option Inum}
  {k : Kernel} {dp ip : Inum}

/-- What `dirlookup` returns, and what it leaves the caller with. -/
def Looked (R : Procs) (H : Inum → Nat) (own : List Inum) (fresh : Option Inum) (T : Fs)
    (dp : Inum) (name : Str) :
    Option (Inum × Nat) → Kernel → Prop
  | none, k => T.slotOf dp name = none ∧ Mem R H own none fresh T k
  | some (i, off), k => T.slotOf dp name = some off ∧ i = T.inumAt dp off ∧
      Mem R H (i :: own) (unread own i) fresh T k

theorem dirlookup_wp (h : Mem R H own none fresh T k) (hdp : dp ∈ own) {name : Str}
    (hu : T.IsDir dp → ∀ off, T.slotOf dp name = some off → T.Used (T.inumAt dp off)) :
    wp (dirlookup dp name)
      (fun r k' => T.IsDir dp ∧ Looked R H own fresh T dp name r k') Safe k := by
  unfold dirlookup
  rw [wp_bind, wp_get, wp_ite]
  refine ⟨fun _ => h.safe Halt.noConfusion, fun hnd => ?_⟩
  have hd : T.IsDir dp :=
    (h.agrees_of_mem hdp (Option.some_ne_none dp).symm).1.symm.trans (not_not.mp hnd)
  rw [h.fs]
  split
  next hs => exact ⟨hd, hs, h⟩
  next off hs =>
    refine (iget_wp h (hu hd off hs)).andThen fun _ k' hk' => ?_
    exact ⟨hd, hs, rfl, hk'⟩

/-- Tokens may change places. -/
theorem Mem.swap {i j : Inum} (h : Mem R H (i :: j :: own) raw fresh T k) :
    Mem R H (j :: i :: own) raw fresh T k := by
  refine ⟨h.procs, h.fs, fun l => ?_, h.used, h.agrees, fun l hl => ?_, h.unlinked, h.sound⟩
  · rw [h.refs, (List.Perm.swap j i own).count_eq]
  · exact h.valid l ((List.Perm.swap j i own).mem_iff.mpr hl)

/-- What `namex` returns: nothing, or the inode `names` lead to; with `parent`, the
directory all but the last lead to, and the last name. -/
def Walked (R : Procs) (H : Inum → Nat) (own : List Inum) (T : Fs) (ip : Inum)
    (names : List Str) (parent : Bool) :
    Option (Inum × Str) → Kernel → Prop
  | none, k => Mem R H own none none T k
  | some (i, name), k => Mem R H (i :: own) (if parent then none else unread own i) none T k ∧
      Held H own T i ∧
      if parent then T.IsDir i ∧ T.arrive ip names.dropLast = some i ∧ names.getLast? = some name
      else T.arrive ip names = some i

theorem iunlockput_held {i : Inum} {r : Option Inum} (h : Mem R H (i :: own) raw fresh T k)
    (hh : Held H own T i) (hfr : fresh ≠ some i)
    (hraw : ∀ j ∈ own, raw = some j → r = some j) :
    wp (iunlockput i) (fun _ k' => Mem R H own r fresh T k') Safe k := by
  refine (iunlock_wp h).andThen fun _ k₁ h₁ => iput_held h₁ hh hfr fun j hj hne => ?_
  exact h₁.valid j (List.mem_cons_of_mem i hj) fun he => hne (hraw j hj he)

/-- The lookups of `namex` that are not the last of `nameiparent`. -/
def upTo (parent : Bool) (names : List Str) : List Str := if parent then names.dropLast else names

/-- What `namex` returns is what the disk says, and nothing else. -/
def Reached (R : Procs) (H : Inum → Nat) (own : List Inum) (T : Fs) (ip : Inum)
    (names : List Str) (parent : Bool)
    (r : Option (Inum × Str)) (k : Kernel) : Prop :=
  Walked R H own T ip names parent r k ∧ r = T.destination ip names parent

theorem walk_reached (hT : Tree strict debt none T) (parent : Bool) (fuel : Nat) :
    ∀ (ip : Inum) (path : Str) {k : Kernel}, path.length ≤ fuel →
      Mem R H (ip :: own) (unread own ip) none T k → Held H own T ip →
      (∀ v ∈ T.visits ip (upTo parent (elemsOf fuel path)), T.Attached v) →
      wp (walk parent fuel ip path) (Reached R H own T ip (elemsOf fuel path) parent) Safe k := by
  -- the end of the loop, with no element left
  have hend : ∀ (ip : Inum) {k : Kernel}, Mem R H (ip :: own) (unread own ip) none T k →
      Held H own T ip →
      wp (if parent = true then do
          iput ip
          pure none
        else pure (some (ip, []))) (Reached R H own T ip [] parent) Safe k := by
    intro ip k h hh
    rw [wp_ite]
    refine ⟨fun hp => ?_, fun hp => ?_⟩
    · refine (iput_held h hh (Option.some_ne_none ip).symm fun j hj _ =>
        h.valid j (List.mem_cons_of_mem ip hj) fun he => ?_).andThen fun _ _ hk' =>
          ⟨hk', by rw [Fs.destination_nil, if_pos hp]⟩
      obtain ⟨rfl, hno⟩ := unread_eq he
      exact hno hj
    · obtain rfl := Bool.eq_false_of_not_eq_true hp
      exact ⟨⟨h, hh, rfl⟩, rfl⟩
  have hnone : ∀ {j : Inum} {l : List Inum}, j ∈ l → (none : Option Inum) = some j →
      (none : Option Inum) = some j := fun _ he => he
  induction fuel with
  | zero =>
    intro ip path k hf h hh _
    rw [walk.eq_def, elemsOf.eq_def]
    exact hend ip h hh
  | succ fuel ih =>
    intro ip path k hf h hh hok
    rw [walk.eq_def]
    cases hs : skipelem path with
    | none =>
      rw [elemsOf_none hs]
      simp only [hs]
      exact hend ip h hh
    | some r =>
      obtain ⟨name, rest⟩ := r
      obtain ⟨hlt, hrest⟩ := skipelem_some hs
      have hlen : rest.length ≤ fuel := by omega
      have hes : elemsOf (fuel + 1) path = name :: elemsOf fuel rest := elemsOf_succ hs
      rw [hes] at hok ⊢
      simp only [hs]
      refine (ilock_wp h List.mem_cons_self fun j hj => (unread_eq hj).1).andThen fun _ k₁ h₁ => ?_
      rw [wp_bind, wp_get, wp_ite]
      have htype : (k₁.itable ip).type = (T.disk ip).type :=
        (h₁.agrees_of_mem List.mem_cons_self (Option.some_ne_none ip).symm).1
      refine ⟨fun hnd => ?_, fun hnd => ?_⟩
      · have hnot : ¬T.IsDir ip := fun hd => hnd (htype.trans hd)
        exact (iunlockput_held h₁ hh (Option.some_ne_none ip).symm fun _ => hnone).andThen
          fun _ _ hk' => ⟨hk', (Fs.destination_of_not_dir hnot).symm⟩
      have hd : T.IsDir ip := htype.symm.trans (not_not.mp hnd)
      rw [wp_ite]
      refine ⟨fun hearly => ?_, fun hmore => ?_⟩
      · -- one level early: `name` is the last element
        obtain ⟨hp, hnil⟩ := hearly
        refine (iunlock_wp h₁).andThen fun _ k₂ h₂ => ?_
        have hlast : elemsOf fuel rest = [] := by
          rw [hnil]
          exact elemsOf_none rfl
        rw [hlast, wp_pure]
        subst hp
        exact ⟨⟨h₂, hh, hd, rfl, rfl⟩, (Fs.destination_last hd).symm⟩
      have hne : parent = true → elemsOf fuel rest ≠ [] := fun hp hnil =>
        hmore ⟨hp, hrest (elemsOf_eq_nil hlen hnil)⟩
      have hup : upTo parent (name :: elemsOf fuel rest) =
        name :: upTo parent (elemsOf fuel rest) := by
        unfold upTo
        split
        next hp => rw [List.dropLast_cons_of_ne_nil (hne hp)]
        next => rfl
      rw [hup, Fs.visits, if_pos hd] at hok
      have hatt : T.Attached (ip, name) := hok _ List.mem_cons_self
      refine (dirlookup_wp h₁ List.mem_cons_self fun _ off hso =>
        (hT.lookup hd (Option.some_ne_none ip).symm hso hatt).1).andThen fun r k₂ h₂ => ?_
      obtain ⟨_, h₂⟩ := h₂
      match r, h₂ with
      | none, h₂ =>
        obtain ⟨hno, h₂⟩ := h₂
        have hmiss : T.child ip name = none := by
          unfold Fs.child
          rw [hno]
          rfl
        exact (iunlockput_held h₂ hh (Option.some_ne_none ip).symm fun _ => hnone).andThen
          fun _ _ hk' => ⟨hk', (Fs.destination_of_missing hd hmiss hne).symm⟩
      | some (next, off), h₂ =>
        obtain ⟨hso, hnext, h₂⟩ := h₂
        have hchild : T.child ip name = some next := by
          unfold Fs.child
          rw [hso, hnext]
          rfl
        obtain ⟨hun, hborn⟩ := hT.lookup hd (Option.some_ne_none ip).symm hso hatt
        rw [← hnext] at hun hborn
        rw [wp_bind, wp_modify]
        have h₃ : Mem R H (next :: ip :: own) (unread (ip :: own) next) none T
            (k₂.found ip name next) := by
          have hc : Mem R H (next :: ip :: own) (unread (ip :: own) next) none T
              { k₂.found ip name next with looked := k₂.looked } := h₂.congr rfl rfl rfl rfl
          refine ⟨hc.procs, hc.fs, hc.refs, hc.used, hc.agrees, hc.valid, hc.unlinked, ?_⟩
          intro l hl
          rcases List.mem_append.mp hl with hl | hl
          · exact h₂.sound l hl
          · obtain rfl := List.mem_singleton.mp hl
            rw [h₂.fs]
            exact ⟨hun, hborn⟩
        -- `next` is held by whoever held it before, or by a link
        have hheld : Held H own T next := by
          intro hz
          by_cases hni : next = ip
          · exact hni ▸ hh (hni ▸ hz)
          · have hpos := h₁.held hun (Option.some_ne_none next).symm hz
            rwa [count_cons_ne hni] at hpos
        have hheld' : Held H (next :: own) T ip := fun hz =>
          Nat.lt_of_lt_of_le (hh hz) (Nat.add_le_add_left List.count_le_count_cons _)
        refine (iunlockput_held (r := unread own next) h₃.swap hheld'
          (Option.some_ne_none ip).symm fun j hj he => ?_).andThen fun _ k₄ h₄ => ?_
        · obtain ⟨rfl, hno⟩ := unread_eq he
          exact if_neg fun hjo => hno (List.mem_cons_of_mem ip hjo)
        have hrec := ih next rest hlen h₄ hheld
          (fun v hv => hok v (List.mem_cons_of_mem _ (by rw [hchild]; exact hv)))
        refine hrec.mono fun r k₅ hr₅ => ?_
        obtain ⟨h₅, hdest⟩ := hr₅
        refine ⟨?_, hdest.trans (Fs.destination_cons hd hchild hne).symm⟩
        match r, h₅ with
        | none, h₅ => exact h₅
        | some (i, last), h₅ =>
          obtain ⟨h₅, hh₅, harr⟩ := h₅
          refine ⟨h₅, hh₅, ?_⟩
          cases hp : parent with
          | false =>
            rw [hp, if_neg Bool.false_ne_true] at harr
            rw [if_neg Bool.false_ne_true, Fs.arrive, if_pos hd, hchild]
            exact harr
          | true =>
            rw [hp, if_pos rfl] at harr
            obtain ⟨hdi, harr, hlast⟩ := harr
            rw [if_pos rfl, List.dropLast_cons_of_ne_nil (hne hp), Fs.arrive, if_pos hd, hchild]
            exact ⟨hdi, harr, by rw [List.getLast?_cons, hlast]; rfl⟩

/-- The lookups a path takes can be made. -/
def PathOk (R : Procs) (T : Fs) (p : Slot) (parent : Bool) (path : Str) : Prop :=
  ∀ v ∈ T.visits (R.start p path) (upTo parent (elems path)), T.Attached v

theorem PathOk.parent {R : Procs} {p : Slot} {path : Str} (h : PathOk R T p false path) :
    PathOk R T p true path := fun v hv => h v (T.visits_dropLast _ _ v hv)

/-- The current directory of `p` is held. -/
def CwdHeld (R : Procs) (H : Inum → Nat) (p : Slot) : Prop := ∀ c, R.cwd p = some c → 0 < H c

theorem holders_cwd (R : Procs) (p : Slot) : CwdHeld R R.holders p := fun _ h =>
  Nat.add_pos_left (entries_pos h (Option.some_ne_none p).symm) _

theorem cwdOf_wp (h : Mem R H own raw fresh T k) {p : Slot} :
    wp (cwdOf p) (fun c k' => R.cwd p = some c ∧ k' = k) Safe k := by
  unfold cwdOf
  rw [wp_bind, wp_get]
  have hp : k.cwd p = R.cwd p := congrFun (congrArg Procs.cwd h.procs) p
  split
  next => exact h.safe Halt.noConfusion
  next c hc => exact ⟨hp.symm.trans hc, rfl⟩

/-- **`namex`** goes where the elements of the path lead to. -/
theorem namex_reached (hT : Tree strict debt none T) (h : Mem R H own none none T k) {p : Slot}
    (hp : CwdHeld R H p) {path : Str} {parent : Bool} (hok : PathOk R T p parent path) :
    wp (namex p path parent) (Reached R H own T (R.start p path) (elems path) parent) Safe k := by
  unfold PathOk Procs.start at hok
  unfold namex Procs.start
  rw [wp_ite]
  refine ⟨fun hs => ?_, fun hs => ?_⟩
  · rw [if_pos hs] at hok ⊢
    have hr := hT.root.1.used
    exact (iget_wp h hr).andThen fun _ k₁ h₁ =>
      walk_reached hT parent path.length ROOTINO path (Nat.le_refl _) h₁
        (h.held hr (Option.some_ne_none _).symm) hok
  · rw [if_neg hs] at hok ⊢
    refine (cwdOf_wp h).andThen fun c k₁ hk₁ => ?_
    obtain ⟨hc, rfl⟩ := hk₁
    rw [hc, Option.getD_some] at hok ⊢
    have hpos := hp c hc
    have href : 0 < (k₁.itable c).ref := by
      rw [h.refs]
      exact Nat.add_pos_left hpos _
    exact (idup_wp h href).andThen fun _ k₂ h₂ =>
      walk_reached hT parent path.length c path (Nat.le_refl _) h₂
        (fun _ => Nat.add_pos_left hpos _) hok

theorem namex_wp (hT : Tree strict debt none T) (h : Mem R H own none none T k) {p : Slot}
    (hp : CwdHeld R H p) {path : Str} {parent : Bool} (hok : PathOk R T p parent path) :
    wp (namex p path parent) (Walked R H own T (R.start p path) (elems path) parent) Safe k :=
  (namex_reached hT h hp hok).mono fun _ _ hr => hr.1

/-- What `namei` returns. -/
def Named (R : Procs) (H : Inum → Nat) (own : List Inum) (T : Fs) (p : Slot) (path : Str) :
    Option Inum → Kernel → Prop
  | none, k => Mem R H own none none T k
  | some i, k => Mem R H (i :: own) (unread own i) none T k ∧ Held H own T i ∧
      T.arrive (R.start p path) (elems path) = some i

theorem namei_wp (hT : Tree strict debt none T) (h : Mem R H own none none T k) {p : Slot}
    (hp : CwdHeld R H p) {path : Str} (hok : PathOk R T p false path) :
    wp (namei p path) (Named R H own T p path) Safe k := by
  unfold namei
  refine (namex_wp hT h hp hok).andThen fun r k₁ h₁ => ?_
  match r, h₁ with
  | none, h₁ => exact h₁
  | some (i, name), h₁ => exact h₁

/-- What `nameiparent` returns. -/
def Parented (R : Procs) (H : Inum → Nat) (own : List Inum) (T : Fs) (p : Slot) (path : Str) :
    Option (Inum × Str) → Kernel → Prop
  | none, k => Mem R H own none none T k
  | some (dp, name), k => Mem R H (dp :: own) none none T k ∧ Held H own T dp ∧ T.IsDir dp ∧
      T.arrive (R.start p path) (elems path).dropLast = some dp ∧
      (elems path).getLast? = some name

theorem nameiparent_wp (hT : Tree strict debt none T) (h : Mem R H own none none T k) {p : Slot}
    (hp : CwdHeld R H p) {path : Str} (hok : PathOk R T p true path) :
    wp (nameiparent p path) (Parented R H own T p path) Safe k := by
  unfold nameiparent
  refine (namex_wp hT h hp hok).mono fun r k₁ h₁ => ?_
  match r, h₁ with
  | none, h₁ => exact h₁
  | some (dp, name), h₁ => exact h₁

end Xv6.Names
