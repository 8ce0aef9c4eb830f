import Xv6.Names.Links

/-!
# Parsing a path

`skipelem` cuts one element off a path, past however many slashes stand before and
behind it, and `namex` looks each of them up. Both are compared with what a path says
by itself: its `components`, the non-empty pieces between slashes.

> Called again and again, `skipelem` leaves the components in `name`, one after the
> other, each cut to `DIRSIZ` bytes (`iterates_components`). A full one is stored with
> no NUL over what the one before left there; what a reader of 14 bytes sees is the
> component all the same.

`namei` and `nameiparent` then return what the tree has at these components
(`Fs.destination`). Besides the result there is one other outcome: two slots of the
inode table are needed at most, and without them `iget` panics.
-/

namespace Xv6.Names

open Lib

/-! ## Components -/

/-- The non-empty pieces of a path between slashes. -/
def components (path : Str) : List Str := (path.splitOn slash).filter (· ≠ [])

theorem components_slash (path : Str) : components (slash :: path) = components path := by
  unfold components
  rw [List.splitOn_cons_eq_if_modifyHead, if_pos (beq_self_eq_true slash)]
  exact List.filter_cons_of_neg (fun h => of_decide_eq_true h rfl)

/-- Slashes at the front make no difference. -/
theorem components_dropWhile (path : Str) :
    components (path.dropWhile (· == slash)) = components path := by
  induction path with
  | nil => rfl
  | cons c path ih =>
    by_cases hc : c = slash
    · subst hc
      rw [List.dropWhile_cons, if_pos (beq_self_eq_true slash), ih, components_slash]
    · rw [List.dropWhile_cons, if_neg (fun h => hc (eq_of_beq h))]

theorem slash_notMem_takeWhile (path : Str) : slash ∉ path.takeWhile (· != slash) := fun h => by
  have hne := List.all_takeWhile (p := (· != slash)) (l := path)
  have hs := List.all_eq_true.mp hne slash h
  exact absurd hs (by decide)

/-- The first component, and the rest. -/
theorem components_takeWhile {path : Str} (hne : path.takeWhile (· != slash) ≠ []) :
    components path = path.takeWhile (· != slash) :: components (path.dropWhile (· != slash)) := by
  have hsplit := List.takeWhile_append_dropWhile (p := (· != slash)) (l := path)
  have hnot := slash_notMem_takeWhile path
  generalize path.takeWhile (· != slash) = s at hne hsplit hnot ⊢
  have hkeep : ∀ l : List Str, (s :: l).filter (· ≠ []) = s :: l.filter (· ≠ []) :=
    fun l => List.filter_cons_of_pos (decide_eq_true hne)
  cases hrest : path.dropWhile (· != slash) with
  | nil =>
    rw [hrest, List.append_nil] at hsplit
    subst hsplit
    unfold components
    rw [List.splitOn_eq_singleton hnot, hkeep]
    rfl
  | cons c rest =>
    have hc : c = slash := by
      have hhead := List.head?_dropWhile_not (fun x : UInt8 => x != slash) path
      rw [hrest] at hhead
      simpa using hhead
    subst hc
    rw [hrest] at hsplit
    rw [components_slash, ← hsplit]
    unfold components
    rw [List.splitOn_append_cons_self_of_not_mem hnot, hkeep]

/-! ## The buffer -/

/-- `skipelem(path, name)`: the next path, and what `name` holds then. -/
def skipelemInto (path name : List UInt8) : Option (Str × List UInt8) :=
  let path := path.dropWhile (· == slash)
  if path = [] then none
  else
    let s := path.takeWhile (· != slash)
    let len := s.length
    -- a name of `DIRSIZ` bytes or more gets no NUL
    let name :=
      if DIRSIZ ≤ len then s.take DIRSIZ ++ name.drop DIRSIZ else s ++ 0 :: name.drop (len + 1)
    some ((path.dropWhile (· != slash)).dropWhile (· == slash), name)

/-- What a reader of `DIRSIZ` bytes sees in `name`. -/
def nameOf (name : List UInt8) : Str := (name.take DIRSIZ).takeWhile (· != 0)

/-- The calls of `skipelem` until it returns 0, by what each leaves in `name`. -/
inductive Iterates : Str → List UInt8 → List (List UInt8) → Prop
  | done {path name} : skipelemInto path name = none → Iterates path name []
  | next {path name path' name' names} : skipelemInto path name = some (path', name') →
      Iterates path' name' names → Iterates path name (name' :: names)

/-- **One call** finds no component, or takes the first and leaves the others. -/
theorem skipelemInto_spec {path name : List UInt8} (h0 : (0 : UInt8) ∉ path)
    (hn : name.length = DIRSIZ) :
    (skipelemInto path name = none ∧ skipelem path = none ∧ components path = []) ∨
    ∃ s rest name', skipelemInto path name = some (rest, name') ∧
      skipelem path = some (s.take DIRSIZ, rest) ∧ components path = s :: components rest ∧
      nameOf name' = s.take DIRSIZ ∧ name'.length = DIRSIZ ∧ (0 : UInt8) ∉ rest := by
  unfold skipelemInto skipelem
  simp only
  have hsub : ∀ c ∈ path.dropWhile (· == slash), c ∈ path := fun c hc =>
    (List.dropWhile_sublist _).subset hc
  rw [← components_dropWhile path]
  have hhead := List.head?_dropWhile_not (fun x : UInt8 => x == slash) path
  generalize path.dropWhile (· == slash) = p at hsub hhead ⊢
  by_cases hp : p = []
  · subst hp
    exact Or.inl ⟨if_pos rfl, if_pos rfl, rfl⟩
  rw [if_neg hp, if_neg hp]
  have hne : p.takeWhile (· != slash) ≠ [] := by
    cases p with
    | nil => exact absurd rfl hp
    | cons c cs =>
      have hc : (c != slash) = true := by simpa using hhead
      rw [List.takeWhile_cons, if_pos hc]
      exact List.cons_ne_nil _ _
  have hs0 : ∀ c ∈ p.takeWhile (· != slash), (c != 0) = true := fun c hc =>
    bne_iff_ne.mpr fun he => h0 (he ▸ hsub c ((List.takeWhile_sublist _).subset hc))
  refine Or.inr ⟨p.takeWhile (· != slash), (p.dropWhile (· != slash)).dropWhile (· == slash), _,
    rfl, ?_, ?_, ?_, ?_, ?_⟩
  · split
    next => rfl
    next hlt => rw [List.take_of_length_le (Nat.le_of_not_le hlt)]
  · rw [components_takeWhile hne, components_dropWhile]
  · generalize p.takeWhile (· != slash) = s at hs0
    unfold nameOf
    split
    next hlong =>
      rw [List.take_append_of_le_length (by rw [List.length_take]; omega), List.take_take,
        Nat.min_self]
      exact List.takeWhile_eq_self_iff.mpr fun c hc => hs0 c (List.mem_of_mem_take hc)
    next hshort =>
      obtain ⟨m, hm⟩ : ∃ m, DIRSIZ - s.length = m + 1 := ⟨DIRSIZ - s.length - 1, by omega⟩
      rw [List.take_append, List.take_of_length_le (by omega), hm, List.take_succ_cons,
        List.takeWhile_append_of_pos hs0, List.takeWhile_cons, if_neg (by decide), List.append_nil]
  · generalize p.takeWhile (· != slash) = s
    split
    next hlong => rw [List.length_append, List.length_take, List.length_drop]; omega
    next hshort => rw [List.length_append, List.length_cons, List.length_drop]; omega
  · exact fun hc =>
      h0 (hsub _ ((List.dropWhile_sublist _).subset ((List.dropWhile_sublist _).subset hc)))

/-- **The calls of `skipelem`** leave the components, and the loop ends. -/
theorem iterates_components (fuel : Nat) : ∀ {path name : List UInt8}, path.length ≤ fuel →
    (0 : UInt8) ∉ path → name.length = DIRSIZ →
      (∃ names, Iterates path name names ∧
        names.map nameOf = (components path).map (·.take DIRSIZ)) ∧
      elemsOf fuel path = (components path).map (·.take DIRSIZ) := by
  induction fuel with
  | zero =>
    intro path name hf h0 hn
    obtain rfl := List.length_eq_zero_iff.mp (Nat.le_zero.mp hf)
    exact ⟨⟨[], .done rfl, rfl⟩, rfl⟩
  | succ fuel ih =>
    intro path name hf h0 hn
    rcases skipelemInto_spec h0 hn with
      ⟨hnone, hskip, hcomp⟩ | ⟨s, rest, name', hsome, hskip, hcomp, hname, hlen, h0'⟩
    · rw [hcomp]
      exact ⟨⟨[], .done hnone, rfl⟩, elemsOf_none hskip⟩
    · have hlt := (skipelem_some hskip).1
      obtain ⟨⟨names, hit, hnames⟩, helems⟩ := ih (by omega) h0' hlen
      rw [hcomp, List.map_cons, elemsOf_succ hskip, helems]
      exact ⟨⟨name' :: names, .next hsome hit, by rw [List.map_cons, hname, hnames]⟩, rfl⟩

/-- Whoever compares or stores a name reads no further than its NUL. -/
theorem stored_nameOf (name : List UInt8) : stored (nameOf name) = stored name := by
  have key : ∀ (n : Nat) (l : List UInt8),
      strncpy ((l.take n).takeWhile (· != 0)) n = strncpy l n := by
    intro n
    induction n with
    | zero => intro l; rfl
    | succ n ih =>
      intro l
      cases l with
      | nil => rfl
      | cons c l =>
        by_cases hc : c = 0
        · subst hc
          rfl
        · rw [List.take_succ_cons, List.takeWhile_cons, if_pos (bne_iff_ne.mpr hc),
            strncpy, strncpy]
          simp only [List.headD_cons, List.tail_cons, hc, if_false, ih l]
  exact key DIRSIZ name

/-! ## Room in the inode table -/

variable {k k' : Kernel} {i ip : Inum} {u : Nat}

/-- The lock of `l` is held, and no other. -/
def Locks (k : Kernel) (l : Option Inum) : Prop := ∀ i, (k.itable i).locked = true ↔ l = some i

/-- Neither a reference nor a slot has come or gone. -/
structure Kernel.Same (k k' : Kernel) : Prop where
  refs : ∀ i, (k'.itable i).ref = (k.itable i).ref
  used : k'.used = k.used

/-- A reference to `i` has gone, and the slot with the last one. -/
structure Kernel.Dropped (k k' : Kernel) (i : Inum) : Prop where
  ref : (k'.itable i).ref = (k.itable i).ref - 1
  others : ∀ j, j ≠ i → (k'.itable j).ref = (k.itable j).ref
  used : k'.used = if (k.itable i).ref = 1 then k.used - 1 else k.used

/-- A reference to `i` has come, and a slot with the first one. -/
structure Kernel.Taken (k k' : Kernel) (i : Inum) : Prop where
  ref : (k'.itable i).ref = (k.itable i).ref + 1
  others : ∀ j, j ≠ i → (k'.itable j).ref = (k.itable j).ref
  used : k'.used = if (k.itable i).ref = 0 then k.used + 1 else k.used

theorem setInode_ref {f : Inode → Inode} (hf : ∀ x, (f x).ref = x.ref) (j : Inum) :
    ((k.setInode i f).itable j).ref = (k.itable j).ref := by
  by_cases hj : j = i
  · rw [hj, setInode_self, hf]
  · rw [setInode_of_ne hj]

theorem setInode_locked {f : Inode → Inode} (hf : ∀ x, (f x).locked = x.locked) (j : Inum) :
    ((k.setInode i f).itable j).locked = (k.itable j).locked := by
  by_cases hj : j = i
  · rw [hj, setInode_self, hf]
  · rw [setInode_of_ne hj]

theorem Kernel.Same.trans {k₁ : Kernel} (h : k.Same k₁) (h' : k₁.Same k') : k.Same k' :=
  ⟨fun i => (h'.refs i).trans (h.refs i), h'.used.trans h.used⟩

theorem load_keeps (k : Kernel) (i : Inum) : (∀ j, ((k.load i).itable j).ref = (k.itable j).ref) ∧
    ∀ j, ((k.load i).itable j).locked = (k.itable j).locked := by
  have hl : k.load i = k.setInode i fun x =>
      { x with
        type := (k.fs.disk i).type
        major := (k.fs.disk i).major
        minor := (k.fs.disk i).minor
        nlink := (k.fs.disk i).nlink
        valid := true } := rfl
  rw [hl]
  exact ⟨setInode_ref (by exact fun _ => rfl), setInode_locked (by exact fun _ => rfl)⟩

theorem drop_itable (k : Kernel) (i : Inum) : (k.drop i).itable =
    (k.setInode i fun x => { x with ref := x.ref - 1 }).itable := rfl

/-- `reclaim` keeps references and locks. -/
theorem reclaim_locks (hl : Locks k none) :
    wp (reclaim ip) (fun _ k' => Locks k' none ∧ k.Same k') (fun _ _ => False) k := by
  unfold reclaim
  rw [wp_bind, wp_modify, wp_bind, wp_modify, wp_bind, wp_modify, wp_modify]
  have hfree : ∀ (k : Kernel) (j : Inum),
      ((k.setInode ip fun i => { i with type := .free }).itable j).ref = (k.itable j).ref ∧
      ((k.setInode ip fun i => { i with type := .free }).itable j).locked = (k.itable j).locked :=
    fun k j => ⟨setInode_ref (by exact fun _ => rfl) j, setInode_locked (by exact fun _ => rfl) j⟩
  refine ⟨fun j => ?_, fun j => ?_, rfl⟩
  · rw [setInode_locked (by exact fun _ => rfl)]
    exact ((hfree (k.itrunc ip) j).2 ▸ hl j : _)
  · rw [setInode_ref (by exact fun _ => rfl)]
    exact (hfree (k.itrunc ip) j).1

theorem ilock_locks (hl : Locks k none) (hr : 0 < (k.itable ip).ref) :
    wp (ilock ip) (fun _ k' => Locks k' (some ip) ∧ k.Same k') (fun e _ => e = .ilockNoType) k := by
  have hfree : (k.itable ip).locked ≠ true := fun h => Option.some_ne_none _ ((hl ip).mp h).symm
  set k₁ := k.setInode ip fun i => { i with locked := true } with hk₁
  have hlock : Locks k₁ (some ip) := by
    intro j
    by_cases hji : j = ip
    · rw [hji, hk₁, setInode_self]
      exact ⟨fun _ => rfl, fun _ => rfl⟩
    · rw [hk₁, setInode_of_ne hji]
      exact ⟨fun h => absurd ((hl j).mp h).symm (Option.some_ne_none j),
        fun h => absurd (Option.some.inj h).symm hji⟩
  have hsame : k.Same k₁ := ⟨setInode_ref (by exact fun _ => rfl), rfl⟩
  unfold ilock
  rw [wp_bind, wp_get, wp_ite]
  refine ⟨fun h => absurd hr (by omega), fun _ => ?_⟩
  rw [wp_ite]
  refine ⟨fun h => absurd h hfree, fun _ => ?_⟩
  rw [wp_bind, wp_modify, ← hk₁, wp_ite]
  refine ⟨fun _ => ?_, fun _ => ⟨hlock, hsame⟩⟩
  rw [wp_bind, wp_modify, wp_bind, wp_get, wp_ite]
  obtain ⟨hlr, hll⟩ := load_keeps k₁ ip
  exact ⟨fun _ => rfl, fun _ => ⟨fun j => by rw [hll]; exact hlock j, hsame.trans ⟨hlr, rfl⟩⟩⟩

theorem iunlock_locks (hl : Locks k (some ip)) (hr : 0 < (k.itable ip).ref) :
    wp (iunlock ip) (fun _ k' => Locks k' none ∧ k.Same k') (fun _ _ => False) k := by
  unfold iunlock
  rw [wp_bind, wp_get, wp_ite]
  refine ⟨fun h => ?_, fun _ => ?_⟩
  · have hlocked := (hl ip).mpr rfl
    rcases h with h | h
    · exact Bool.false_ne_true (h.symm.trans hlocked)
    · omega
  · rw [wp_modify]
    refine ⟨fun j => ?_, setInode_ref (by exact fun _ => rfl), rfl⟩
    by_cases hji : j = ip
    · rw [hji, setInode_self]
      exact ⟨fun h => absurd h Bool.false_ne_true, fun h => absurd h.symm (Option.some_ne_none ip)⟩
    · rw [setInode_of_ne hji, hl j]
      exact ⟨fun h => absurd (Option.some.inj h).symm hji,
        fun h => absurd h.symm (Option.some_ne_none j)⟩

theorem drop_dropped (hl : Locks k none) : Locks (k.drop ip) none ∧ k.Dropped (k.drop ip) ip := by
  refine ⟨fun j => ?_, ?_, fun j hj => ?_, rfl⟩
  · rw [drop_itable, setInode_locked (by exact fun _ => rfl)]
    exact hl j
  · rw [drop_itable, setInode_self]
  · rw [drop_itable, setInode_of_ne hj]

theorem iput_locks (hl : Locks k none) :
    wp (iput ip) (fun _ k' => Locks k' none ∧ k.Dropped k' ip) (fun _ _ => False) k := by
  have hfree : (k.itable ip).locked ≠ true := fun h => Option.some_ne_none _ ((hl ip).mp h).symm
  unfold iput
  rw [wp_bind, wp_get, wp_ite]
  refine ⟨fun _ => ?_, fun _ => drop_dropped hl⟩
  rw [wp_ite]
  refine ⟨fun h => absurd h hfree, fun _ => ?_⟩
  refine (reclaim_locks hl).andThen fun _ k₁ h₁ => ?_
  obtain ⟨hl₁, hs⟩ := h₁
  obtain ⟨hl₂, hd⟩ := @drop_dropped _ ip hl₁
  rw [wp_modify]
  refine ⟨hl₂, hd.ref.trans (by rw [hs.refs]), fun j hj => (hd.others j hj).trans (hs.refs j), ?_⟩
  rw [hd.used, hs.refs, hs.used]

theorem iunlockput_locks (hl : Locks k (some ip)) (hr : 0 < (k.itable ip).ref) :
    wp (iunlockput ip) (fun _ k' => Locks k' none ∧ k.Dropped k' ip) (fun _ _ => False) k := by
  unfold iunlockput
  refine (iunlock_locks hl hr).andThen fun _ k₁ h₁ => ?_
  obtain ⟨hl₁, hs⟩ := h₁
  refine (iput_locks hl₁).mono fun _ k₂ h₂ => ?_
  obtain ⟨hl₂, hd⟩ := h₂
  refine ⟨hl₂, hd.ref.trans (by rw [hs.refs]), fun j hj => (hd.others j hj).trans (hs.refs j), ?_⟩
  rw [hd.used, hs.refs, hs.used]

theorem iget_locks {l : Option Inum} (hl : Locks k l) :
    wp (iget i) (fun _ k' => Locks k' l ∧ k.Taken k' i)
      (fun e _ => e = .igetNoInodes ∧ (k.itable i).ref = 0 ∧ k.used = NINODE) k := by
  unfold iget
  rw [wp_bind, wp_get, wp_ite]
  refine ⟨fun hr => ?_, fun hr => ?_⟩
  · rw [wp_modify]
    refine ⟨fun j => ?_, by rw [setInode_self], fun j hj => by rw [setInode_of_ne hj], ?_⟩
    · rw [setInode_locked (by exact fun _ => rfl)]
      exact hl j
    · rw [if_neg (by omega)]
      rfl
  · have hz : (k.itable i).ref = 0 := Nat.eq_zero_of_not_pos hr
    rw [wp_ite]
    refine ⟨fun hu => ⟨rfl, hz, hu⟩, fun _ => ?_⟩
    rw [wp_modify]
    have hnew : ({ k.setInode i fun ip => { ip with ref := 1, valid := false } with
        used := k.used + 1 } : Kernel).itable =
        (k.setInode i fun ip => { ip with ref := 1, valid := false }).itable := rfl
    refine ⟨fun j => ?_, ?_, fun j hj => ?_, by rw [if_pos hz]⟩
    · rw [hnew, setInode_locked (by exact fun _ => rfl)]
      exact hl j
    · rw [hnew, setInode_self, hz]
    · rw [hnew, setInode_of_ne hj]

theorem dirlookup_locks {l : Option Inum} (hl : Locks k l) (ht : (k.itable ip).type = .T_DIR)
    {name : Str} :
    wp (dirlookup ip name) (fun r k' => Locks k' l ∧
        match r with
        | none => k' = k
        | some (next, _) => k.Taken k' next)
      (fun e _ => e = .igetNoInodes ∧ k.used = NINODE) k := by
  unfold dirlookup
  rw [wp_bind, wp_get, wp_ite]
  refine ⟨fun h => absurd ht h, fun _ => ?_⟩
  split
  next => exact ⟨hl, rfl⟩
  next off hs =>
    exact ((iget_locks hl).monoStop fun _ _ he => ⟨he.1, he.2.2⟩).andThen fun _ _ h => h

/-- `namex` stands at `ip` with the reference it has to it; it began with `u` slots in
use, and needs at most two more. -/
structure Stands (u : Nat) (ip : Inum) (k : Kernel) : Prop where
  locks : Locks k none
  held : 0 < (k.itable ip).ref
  room : k.used + (if (k.itable ip).ref = 1 then 1 else 2) ≤ u + 2

/-- Why a walk that began with `u` slots in use stops: besides an inode that is not in
use, only for want of a slot. -/
def Stuck (u : Nat) (e : Halt) : Prop := e = .ilockNoType ∨ e = .igetNoInodes ∧ NINODE < u + 2

/-- One slot for the inode found, until the one it was found in is put back. -/
theorem Stands.next {k₁ k₂ : Kernel} {next : Inum} (h : Stands u ip k) (ht : k.Taken k₁ next)
    (hd : k₁.Dropped k₂ ip) (hl : Locks k₂ none) : Stands u next k₂ := by
  have hheld := h.held
  have hroom := h.room
  have hused := hd.used
  have htook := ht.used
  by_cases hni : next = ip
  · subst hni
    have href : (k₂.itable next).ref = (k.itable next).ref := by
      rw [hd.ref, ht.ref]
      omega
    have hone : (k₁.itable next).ref ≠ 1 := by
      rw [ht.ref]
      omega
    rw [if_neg hone] at hused
    rw [if_neg (by omega)] at htook
    exact ⟨hl, by rw [href]; exact hheld, by rw [href, hused, htook]; exact hroom⟩
  · have href : (k₂.itable next).ref = (k.itable next).ref + 1 := (hd.others next hni).trans ht.ref
    rw [ht.others ip (Ne.symm hni)] at hused
    refine ⟨hl, by omega, ?_⟩
    rw [href]
    split at hused <;> split at htook <;> split at hroom <;> split <;> omega

/-- **The loop of `namex`** comes to an end, unless `iget` finds no slot. -/
theorem walk_returns (parent : Bool) (fuel : Nat) : ∀ (ip : Inum) (path : Str) {k : Kernel},
    Stands u ip k → wp (walk parent fuel ip path) (fun _ k' => Locks k' none)
      (fun e _ => Stuck u e) k := by
  have hend : ∀ (ip : Inum) {k : Kernel}, Stands u ip k →
      wp (if parent = true then do
          iput ip
          pure none
        else pure (some (ip, ([] : Str)))) (fun _ k' => Locks k' none)
          (fun e _ => Stuck u e) k := by
    intro ip k h
    rw [wp_ite]
    exact ⟨fun _ => ((iput_locks h.locks).monoStop fun _ _ he => he.elim).andThen
      fun _ _ hd => hd.1, fun _ => h.locks⟩
  induction fuel with
  | zero =>
    intro ip path k h
    rw [walk.eq_def]
    exact hend ip h
  | succ fuel ih =>
    intro ip path k h
    rw [walk.eq_def]
    cases hs : skipelem path with
    | none =>
      simp only [hs]
      exact hend ip h
    | some r =>
      obtain ⟨name, rest⟩ := r
      simp only [hs]
      refine ((ilock_locks h.locks h.held).monoStop fun _ _ he => Or.inl he).andThen
        fun _ k₁ h₁ => ?_
      obtain ⟨hl₁, hsame⟩ := h₁
      have hheld₁ : 0 < (k₁.itable ip).ref := by
        rw [hsame.refs]
        exact h.held
      -- the ways out of the loop give the reference back
      have hput : ∀ {α : Type} (a : α), wp (do iunlockput ip; pure a) (fun _ k' => Locks k' none)
          (fun e _ => Stuck u e) k₁ := fun a =>
        ((iunlockput_locks hl₁ hheld₁).monoStop fun _ _ he => he.elim).andThen fun _ _ hd => hd.1
      rw [wp_bind, wp_get, wp_ite]
      refine ⟨fun _ => hput none, fun hd => ?_⟩
      rw [wp_ite]
      refine ⟨fun _ => ((iunlock_locks hl₁ hheld₁).monoStop fun _ _ he => he.elim).andThen
        fun _ _ hu => hu.1, fun _ => ?_⟩
      -- `iget` panics only when the table has no room for one more
      have hroom : NINODE = k₁.used → NINODE < u + 2 := fun hn => by
        have hr := h.room
        rw [← hsame.used, ← hn] at hr
        split at hr <;> omega
      refine ((dirlookup_locks hl₁ (not_not.mp hd)).monoStop
        fun _ _ he => Or.inr ⟨he.1, hroom he.2.symm⟩).andThen fun r k₂ h₂ => ?_
      obtain ⟨hl₂, h₂⟩ := h₂
      match r, h₂ with
      | none, h₂ =>
        subst h₂
        exact hput none
      | some (next, off), h₂ =>
        rw [wp_bind, wp_modify]
        have hheld₂ : 0 < (k₂.itable ip).ref := by
          by_cases hni : ip = next
          · subst hni
            rw [h₂.ref]
            exact Nat.succ_pos _
          · rw [h₂.others ip hni]
            exact hheld₁
        have htook : k.Taken (k₂.found ip name next) next :=
          ⟨by rw [← hsame.refs]; exact h₂.ref,
            fun j hj => (h₂.others j hj).trans (hsame.refs j),
            by rw [← hsame.refs, ← hsame.used]; exact h₂.used⟩
        refine ((iunlockput_locks (k := k₂.found ip name next) hl₂ hheld₂).monoStop
          fun _ _ he => he.elim).andThen fun _ k₃ h₃ => ?_
        exact ih next rest (h.next htook h₃.2 h₃.1)

/-- `namex` returns, unless `iget` finds no slot. -/
theorem namex_returns (hl : Locks k none) {p : Slot} {c : Inum} (hc : k.cwd p = some c)
    (hheld : 0 < (k.itable c).ref) (path : Str) (parent : Bool) :
    wp (namex p path parent) (fun _ k' => Locks k' none) (fun e _ => Stuck k.used e) k := by
  unfold namex
  rw [wp_ite]
  refine ⟨fun _ => ?_, fun _ => ?_⟩
  · refine ((iget_locks hl).monoStop fun _ _ he => Or.inr ⟨he.1, by omega⟩).andThen
      fun _ k₁ h₁ => ?_
    obtain ⟨hl₁, ht⟩ := h₁
    refine walk_returns parent path.length ROOTINO path
      ⟨hl₁, by rw [ht.ref]; exact Nat.succ_pos _, ?_⟩
    have hused := ht.used
    rw [ht.ref]
    split at hused <;> split <;> omega
  · have hcwd : wp (cwdOf p) (fun c' k' => c' = c ∧ k' = k) (fun e _ => Stuck k.used e) k := by
      unfold cwdOf
      rw [wp_bind, wp_get, hc]
      exact ⟨rfl, rfl⟩
    refine hcwd.andThen fun c' k₁ h₁ => ?_
    obtain ⟨rfl, rfl⟩ := h₁
    unfold idup
    rw [wp_bind, wp_modify]
    have href : ((k₁.setInode c' fun i => { i with ref := i.ref + 1 }).itable c').ref
        = (k₁.itable c').ref + 1 := by rw [setInode_self]
    refine walk_returns parent path.length c' path
      ⟨fun j => ?_, by rw [href]; exact Nat.succ_pos _, ?_⟩
    · rw [setInode_locked (by exact fun _ => rfl)]
      exact hl j
    · rw [href, if_neg (by omega)]
      exact Nat.le_refl _

/-! ## Where a path leads -/

variable {strict : Prop} {debt : Inum → Int} {T : Fs} {d : Inum} {names : List Str} {parent : Bool}

/-- On the way along `names`, one of them has to be looked up in what is no directory,
or is not there. With `parent` the last is not looked up. -/
def Fs.Blocked (T : Fs) (d : Inum) (names : List Str) (parent : Bool) : Prop :=
  ∃ before name after dp, names = before ++ name :: after ∧ T.arrive d before = some dp ∧
    (¬T.IsDir dp ∨ T.child dp name = none ∧ ¬(parent = true ∧ after = []))

namespace Fs

theorem blocked_of_next {next : Inum} {name : Str} (hd : T.IsDir d)
    (hc : T.child d name = some next)
    (h : T.Blocked next names parent) : T.Blocked d (name :: names) parent := by
  obtain ⟨before, n, after, dp, rfl, harr, hbad⟩ := h
  refine ⟨name :: before, n, after, dp, rfl, ?_, hbad⟩
  rw [arrive, if_pos hd, hc]
  exact harr

theorem Blocked.next {next : Inum} {name : Str} (hd : T.IsDir d) (hc : T.child d name = some next)
    (h : T.Blocked d (name :: names) parent) : T.Blocked next names parent := by
  obtain ⟨before, n, after, dp, hsplit, harr, hbad⟩ := h
  cases before with
  | nil =>
    obtain ⟨rfl, rfl⟩ := List.cons.inj hsplit
    obtain rfl := Option.some.inj harr
    rcases hbad with hbad | hbad
    · exact absurd hd hbad
    · exact absurd (hc.symm.trans hbad.1) (Option.some_ne_none next)
  | cons first before =>
    obtain ⟨rfl, rfl⟩ := List.cons.inj hsplit
    rw [arrive, if_pos hd, hc] at harr
    exact ⟨before, n, after, dp, rfl, harr, hbad⟩

/-- **There is no way**, or no component where there has to be one. -/
theorem destination_eq_none : ∀ {names : List Str} {d : Inum},
    T.destination d names parent = none ↔
      T.Blocked d names parent ∨ parent = true ∧ names = [] := by
  intro names
  induction names with
  | nil =>
    intro d
    rw [destination_nil]
    refine ⟨fun h => ?_, fun h => ?_⟩
    · split at h
      next hp => exact Or.inr ⟨hp, rfl⟩
      next => exact absurd h (Option.some_ne_none _)
    · rcases h with ⟨before, n, after, dp, hsplit, _⟩ | ⟨hp, _⟩
      · exact absurd hsplit.symm (by simp)
      · rw [if_pos hp]
  | cons name names ih =>
    intro d
    have hcons : ¬(parent = true ∧ name :: names = []) := fun h => List.cons_ne_nil _ _ h.2
    rw [or_iff_left hcons]
    by_cases hd : T.IsDir d
    swap
    · rw [destination_of_not_dir hd]
      exact ⟨fun _ => ⟨[], name, names, d, rfl, rfl, Or.inl hd⟩, fun _ => rfl⟩
    by_cases hlast : parent = true ∧ names = []
    · -- the last one is not looked up
      obtain ⟨rfl, rfl⟩ := hlast
      rw [destination_last hd]
      refine ⟨fun h => absurd h (Option.some_ne_none _), fun h => ?_⟩
      obtain ⟨before, n, after, dp, hsplit, harr, hbad⟩ := h
      have hone : before = [] ∧ after = [] := by
        cases before with
        | nil => exact ⟨rfl, (List.cons.inj hsplit).2.symm⟩
        | cons first before => exact absurd (List.cons.inj hsplit).2.symm (by simp)
      obtain ⟨rfl, rfl⟩ := hone
      obtain rfl := Option.some.inj harr
      rcases hbad with hbad | hbad
      · exact absurd hd hbad
      · exact absurd ⟨rfl, rfl⟩ hbad.2
    have hne : parent = true → names ≠ [] := fun hp hn => hlast ⟨hp, hn⟩
    cases hc : T.child d name with
    | none =>
      rw [destination_of_missing hd hc hne]
      exact ⟨fun _ => ⟨[], name, names, d, rfl, rfl, Or.inr ⟨hc, hlast⟩⟩, fun _ => rfl⟩
    | some next =>
      rw [destination_cons hd hc hne, ih, or_iff_left hlast]
      exact ⟨blocked_of_next hd hc, Blocked.next hd hc⟩

theorem destination_parent {dp : Inum} {name : Str} :
    T.destination d names true = some (dp, name) ↔
      T.arrive d names.dropLast = some dp ∧ T.IsDir dp ∧ names.getLast? = some name := by
  unfold destination
  rw [if_pos rfl]
  cases names.getLast? with
  | none =>
    exact ⟨fun h => absurd h.symm (Option.some_ne_none _),
      fun h => absurd h.2.2.symm (Option.some_ne_none _)⟩
  | some last =>
    cases T.arrive d names.dropLast with
    | none =>
      exact ⟨fun h => absurd h.symm (Option.some_ne_none _),
        fun h => absurd h.1.symm (Option.some_ne_none _)⟩
    | some dp' =>
      simp only
      split
      next hd =>
        refine ⟨fun h => ?_, fun h => ?_⟩
        · obtain ⟨rfl, rfl⟩ := Prod.mk.inj (Option.some.inj h)
          exact ⟨rfl, hd, rfl⟩
        · rw [Option.some.inj h.1, Option.some.inj h.2.2]
      next hd =>
        exact ⟨fun h => absurd h.symm (Option.some_ne_none _),
          fun h => absurd (Option.some.inj h.1 ▸ h.2.1) hd⟩

end Fs

/-! ## The result -/

/-- The components of a path, cut to `DIRSIZ` bytes. -/
def namesOf (path : Str) : List Str := (components path).map (·.take DIRSIZ)

/-- What `namei` is to do: follow the components. -/
def FollowsAll (T : Fs) (start : Inum) (path : Str) (r : Option Inum) : Prop :=
  r = T.arrive start (namesOf path) ∧ (r = none ↔ T.Blocked start (namesOf path) false)

/-- What `nameiparent` is to do: follow all components but the last, which is returned. -/
def FollowsParent (T : Fs) (start : Inum) (path : Str) (r : Option (Inum × Str)) : Prop :=
  (∀ dp name, r = some (dp, name) ↔
    T.arrive start (namesOf path).dropLast = some dp ∧ T.IsDir dp ∧
      (namesOf path).getLast? = some name) ∧
  (r = none ↔ T.Blocked start (namesOf path) true ∨ components path = [])

theorem namei_follows {start : Inum} {path : Str} :
    FollowsAll T start path ((T.destination start (namesOf path) false).map Prod.fst) := by
  have harr : (T.destination start (namesOf path) false).map Prod.fst
      = T.arrive start (namesOf path) := by
    unfold Fs.destination
    rw [if_neg Bool.false_ne_true]
    cases T.arrive start (namesOf path) with
    | none => rfl
    | some i => rfl
  refine ⟨harr, ?_⟩
  rw [Option.map_eq_none_iff, Fs.destination_eq_none]
  exact or_iff_left fun h => Bool.false_ne_true h.1

theorem nameiparent_follows {start : Inum} {path : Str} :
    FollowsParent T start path (T.destination start (namesOf path) true) := by
  refine ⟨fun dp name => Fs.destination_parent, ?_⟩
  rw [Fs.destination_eq_none]
  unfold namesOf
  rw [List.map_eq_nil_iff]
  exact or_congr Iff.rfl (and_iff_right rfl)

variable {R : Procs} {H : Inum → Nat} {own : List Inum}

theorem namex_follows (hT : Tree strict debt none T) (h : Mem R H own none none T k)
    (hl : Locks k none) {p : Slot} {c : Inum} (hc : R.cwd p = some c) (hp : CwdHeld R H p)
    {path : Str} (h0 : (0 : UInt8) ∉ path) (hok : PathOk R T p parent path) :
    wp (namex p path parent)
      (fun r k' => r = T.destination (R.start p path) (namesOf path) parent ∧ k'.fs =
        T ∧ Locks k' none)
      (fun e _ => e = .igetNoInodes ∧ NINODE < k.used + 2) k := by
  have hcwd : k.cwd p = some c := (congrFun (congrArg Procs.cwd h.procs) p).trans hc
  have hheld : 0 < (k.itable c).ref := by
    rw [h.refs]
    exact Nat.add_pos_left (hp c hc) _
  have hbuf : (List.replicate DIRSIZ (0 : UInt8)).length = DIRSIZ := List.length_replicate
  have hnames : elems path = namesOf path :=
    (iterates_components path.length (Nat.le_refl _) h0 hbuf).2
  refine (((namex_reached hT h hp hok).and (namex_returns hl hcwd hheld path parent)).monoStop
    fun e k' he => ?_).mono fun r k' hr => ?_
  · exact he.2.resolve_left he.1.1
  · obtain ⟨⟨hwalked, hdest⟩, hl'⟩ := hr
    rw [hnames] at hdest
    refine ⟨hdest, ?_, hl'⟩
    match r, hwalked with
    | none, hm => exact hm.fs
    | some (_, _), hm => exact hm.1.fs

/-- **Path parsing.** `skipelem` leaves the components of the path one after the
other, and `namei` and `nameiparent` return what the tree has at them; the disk is as
it was. With fewer than two slots of the inode table free they may panic instead. -/
theorem path_parsing {path : Str} (h0 : (0 : UInt8) ∉ path) :
    (∀ name : List UInt8, name.length = DIRSIZ →
      ∃ names, Iterates path name names ∧ names.map nameOf = namesOf path) ∧
    ∀ {strict : Prop} {debt : Inum → Int} {T : Fs} {R : Procs} {H : Inum → Nat} {own : List Inum}
      {k : Kernel} {p : Slot} {c : Inum}, Tree strict debt none T → Mem R H own none none T k →
      Locks k none → R.cwd p = some c → CwdHeld R H p →
      (PathOk R T p false path → wp (namei p path)
        (fun r k' => FollowsAll T (R.start p path) path r ∧ k'.fs = T)
        (fun e _ => e = .igetNoInodes ∧ NINODE < k.used + 2) k) ∧
      (PathOk R T p true path → wp (nameiparent p path)
        (fun r k' => FollowsParent T (R.start p path) path r ∧ k'.fs = T)
        (fun e _ => e = .igetNoInodes ∧ NINODE < k.used + 2) k) := by
  refine ⟨fun name hn => (iterates_components path.length (Nat.le_refl _) h0 hn).1, ?_⟩
  intro strict debt T R H own k p c hT h hl hc hp
  refine ⟨fun hok => ?_, fun hok => ?_⟩
  · unfold namei
    refine (namex_follows hT h hl hc hp h0 hok).andThen fun r k' hr => ?_
    obtain ⟨rfl, hfs, _⟩ := hr
    exact ⟨namei_follows, hfs⟩
  · unfold nameiparent
    refine (namex_follows hT h hl hc hp h0 hok).mono fun r k' hr => ?_
    obtain ⟨rfl, hfs, _⟩ := hr
    exact ⟨nameiparent_follows, hfs⟩

/-- `//..///a` in an empty root directory. -/
theorem path_parsing_root :
    (∀ name : List UInt8, name.length = DIRSIZ → ∃ names,
      Iterates [slash, slash, 46, 46, slash, slash, slash, 97] name names ∧
        names.map nameOf = [dotdot, [97]]) ∧
    wp (namei 0 [slash, slash, 46, 46, slash, slash, slash, 97]) (fun r _ => r = none)
      (fun _ _ => False) first ∧
    wp (nameiparent 0 [slash, slash, 46, 46, slash, slash, slash, 97])
      (fun r _ => r = some (ROOTINO, [97])) (fun _ _ => False) first := by
  obtain ⟨_, T, hT, hm⟩ := (first_boot.inv : Inv True first)
  have hfs : rootFs = T := hm.fs
  subst hfs
  have hok : ∀ parent, PathOk first.toProcs rootFs 0 parent
      [slash, slash, 46, 46, slash, slash, slash, 97] := fun parent v hv =>
    hT.attached (Fs.isDir_of_mem_visits _ _ _ v hv) v.2
  have hl : Locks first none := fun i =>
    ⟨fun h => absurd h Bool.false_ne_true, fun h => absurd h.symm (Option.some_ne_none i)⟩
  have hroom : ¬NINODE < first.used + 2 := by decide
  have hnul : (0 : UInt8) ∉ [slash, slash, 46, 46, slash, slash, slash, 97] := by decide
  obtain ⟨hskip, hwalk⟩ := path_parsing hnul
  obtain ⟨hnamei, hparent⟩ := hwalk hT hm hl (p := 0) (c := ROOTINO) rfl (holders_cwd _ 0)
  refine ⟨hskip, ((hnamei (hok false)).monoStop fun _ _ he => hroom he.2).mono fun r _ hr => ?_,
    ((hparent (hok true)).monoStop fun _ _ he => hroom he.2).mono fun r _ hr => ?_⟩
  · exact hr.1.1.trans (by decide +kernel)
  · exact (hr.1.1 ROOTINO [97]).mpr (by decide +kernel)

end Xv6.Names
