import Xv6.Names.Link
import Xv6.Lib.Run

/-!
# A directory is a finite map

One directory, from the empty content `ialloc` leaves it with (`create` enters `.` and
`..` by two calls of `dirlink`): entries are linked and removed in any order by callers
that hold the directory locked, and between two such calls anything may happen that
leaves its content alone. `bound` is what the directory should mean: the inode number
last linked under a name and not removed since. A name counts as the bytes it is
stored as.

> `dirlookup` finds exactly what is bound, at the slot of the one live entry with
> that name.

The step lemma is about a list of entries: writing one slot changes what the list
says about one name, because live entries have different names (`Apart`).
-/

namespace Xv6.Names

open Lib

/-! ## What a list of entries says -/

/-- Some entry gives `name` the number `inum`. -/
def Binds (es : List Dirent) (name : Str) (inum : Inum) : Prop :=
  inum ≠ 0 ∧ ∃ (off : Nat) (de : Dirent), es[off]? = some de ∧ de.inum = inum ∧
    namecmp name de.name = 0

/-- No two live entries have equal names. -/
def Apart (es : List Dirent) : Prop :=
  ∀ (i j : Nat) (a b : Dirent), es[i]? = some a → es[j]? = some b → a.inum ≠ 0 → b.inum ≠ 0 →
    namecmp a.name b.name = 0 → i = j

/-- What the entries give for a name. -/
def lookup (es : List Dirent) (name : Str) : Option Inum :=
  (es.find? fun de => de.inum ≠ 0 ∧ namecmp name de.name = 0).map Dirent.inum

variable {es : List Dirent} {name n : Str} {inum off : Nat} {de : Dirent}

theorem namecmp_symm {s t : Str} (h : namecmp s t = 0) : namecmp t s = 0 :=
  (namecmp_eq_zero t s).mpr ((namecmp_eq_zero s t).mp h).symm

theorem namecmp_trans {s t u : Str} (h : namecmp s t = 0) (h' : namecmp t u = 0) :
    namecmp s u = 0 :=
  (namecmp_eq_zero s u).mpr (((namecmp_eq_zero s t).mp h).trans ((namecmp_eq_zero t u).mp h'))

theorem namecmp_stored (s : Str) : namecmp s (stored s) = 0 :=
  (namecmp_eq_zero s (stored s)).mpr (stored_stored s).symm

theorem Apart.unique (h : Apart es) {a b : Inum} (ha : Binds es name a) (hb : Binds es name b) :
    a = b := by
  obtain ⟨ha0, i, x, hi, rfl, hx⟩ := ha
  obtain ⟨hb0, j, y, hj, rfl, hy⟩ := hb
  have hij := h i j x y hi hj ha0 hb0 (namecmp_trans (namecmp_symm hx) hy)
  rw [hij, hj, Option.some.injEq] at hi
  rw [hi]

theorem lookup_eq_some (h : Apart es) : lookup es name = some inum ↔ Binds es name inum := by
  constructor
  · intro hl
    obtain ⟨x, hx, rfl⟩ := Option.map_eq_some_iff.mp hl
    have hp : x.inum ≠ 0 ∧ namecmp name x.name = 0 := by simpa using List.find?_some hx
    obtain ⟨i, hi⟩ := List.mem_iff_getElem?.mp (List.mem_of_find?_eq_some hx)
    exact ⟨hp.1, i, x, hi, rfl, hp.2⟩
  · intro hb
    unfold lookup
    cases hf : es.find? fun de => de.inum ≠ 0 ∧ namecmp name de.name = 0 with
    | none =>
      obtain ⟨hb0, i, x, hi, rfl, hx⟩ := hb
      exact absurd (decide_eq_true ⟨hb0, hx⟩)
        (List.find?_eq_none.mp hf x (List.mem_iff_getElem?.mpr ⟨i, hi⟩))
    | some y =>
      have hp : y.inum ≠ 0 ∧ namecmp name y.name = 0 := by simpa using List.find?_some hf
      obtain ⟨j, hj⟩ := List.mem_iff_getElem?.mp (List.mem_of_find?_eq_some hf)
      rw [Option.map_some, h.unique ⟨hp.1, j, y, hj, rfl, hp.2⟩ hb]

theorem lookup_eq_none (h : Apart es) : lookup es name = none ↔ ∀ a, ¬Binds es name a := by
  rw [Option.eq_none_iff_forall_ne_some]
  exact forall_congr' fun a => not_congr (lookup_eq_some h)

/-! ## Writing one slot -/

theorem getElem?_setAt (hoff : off ≤ es.length) (j : Nat) :
    (setAt es off de)[j]? = if j = off then some de else es[j]? := by
  unfold setAt
  split
  next h =>
    rw [List.getElem?_set]
    by_cases hj : off = j
    · rw [if_pos hj, if_pos h, if_pos hj.symm]
    · rw [if_neg hj, if_neg (Ne.symm hj)]
  next h =>
    have hlen : off = es.length := by omega
    rw [List.getElem?_append]
    by_cases hj : j = off
    · rw [if_pos hj, if_neg (by omega), hj, hlen, Nat.sub_self]
      rfl
    · rw [if_neg hj]
      split
      next => rfl
      next hge =>
        rw [List.getElem?_eq_none (by rw [List.length_singleton]; omega),
          List.getElem?_eq_none (by omega)]

/-- A free slot takes a name no entry has. -/
theorem Apart.link (h : Apart es) (hoff : off ≤ es.length)
    (hfree : ∀ e, es[off]? = some e → e.inum = 0) (hn : lookup es name = none) (h0 : inum ≠ 0) :
    Apart (setAt es off ⟨inum, stored name⟩) ∧
    ∀ n, lookup (setAt es off ⟨inum, stored name⟩) n =
      if stored n = stored name then some inum else lookup es n := by
  have hnew : ∀ {j : Nat} {b : Dirent}, es[j]? = some b → b.inum ≠ 0 → namecmp name b.name ≠ 0 := by
    intro j b hj hb hc
    exact (lookup_eq_none h).mp hn b.inum ⟨hb, j, b, hj, rfl, hc⟩
  have hap : Apart (setAt es off ⟨inum, stored name⟩) := by
    intro i j a b hi hj ha hb hab
    rw [getElem?_setAt hoff] at hi hj
    split at hi
    next hio =>
      split at hj
      next hjo => rw [hio, hjo]
      next =>
        rw [Option.some.injEq] at hi
        rw [← hi] at hab
        exact absurd (namecmp_trans (namecmp_stored name) hab) (hnew hj hb)
    next =>
      split at hj
      next =>
        rw [Option.some.injEq] at hj
        rw [← hj] at hab
        exact absurd (namecmp_trans (namecmp_stored name) (namecmp_symm hab)) (hnew hi ha)
      next => exact h i j a b hi hj ha hb hab
  refine ⟨hap, fun n => Option.ext fun a => ?_⟩
  rw [lookup_eq_some hap]
  constructor
  · rintro ⟨ha0, i, x, hi, rfl, hx⟩
    rw [getElem?_setAt hoff] at hi
    split at hi
    next =>
      rw [Option.some.injEq] at hi
      rw [← hi] at hx ⊢
      have hs := (namecmp_eq_zero _ _).mp hx
      rw [stored_stored] at hs
      rw [if_pos hs]
    next =>
      have hs : stored n ≠ stored name := fun hs =>
        hnew hi ha0 (namecmp_trans ((namecmp_eq_zero _ _).mpr hs.symm) hx)
      rw [if_neg hs, lookup_eq_some h]
      exact ⟨ha0, i, x, hi, rfl, hx⟩
  · intro hl
    split at hl
    next hs =>
      rw [Option.some.injEq] at hl
      subst hl
      exact ⟨h0, off, ⟨inum, stored name⟩, by rw [getElem?_setAt hoff, if_pos rfl], rfl,
        namecmp_trans ((namecmp_eq_zero _ _).mpr hs) (namecmp_stored name)⟩
    next =>
      obtain ⟨ha0, i, x, hi, rfl, hx⟩ := (lookup_eq_some h).mp hl
      have hio : i ≠ off := fun hio => ha0 (hfree x (hio ▸ hi))
      exact ⟨ha0, i, x, by rw [getElem?_setAt hoff, if_neg hio]; exact hi, rfl, hx⟩

/-- A zeroed entry takes its name with it. -/
theorem Apart.remove (h : Apart es) {e : Dirent} (he : es[off]? = some e) (he0 : e.inum ≠ 0)
    (hen : namecmp name e.name = 0) (hz : de.inum = 0) :
    Apart (setAt es off de) ∧
    ∀ n, lookup (setAt es off de) n = if stored n = stored name then none else lookup es n := by
  have hoff : off ≤ es.length := Nat.le_of_lt (List.getElem?_eq_some_iff.mp he).1
  have hold : ∀ {i : Nat} {a : Dirent}, (setAt es off de)[i]? = some a → a.inum ≠ 0 → i ≠ off ∧
    es[i]? = some a := by
    intro i a hi ha
    rw [getElem?_setAt hoff] at hi
    split at hi
    next =>
      rw [Option.some.injEq] at hi
      exact absurd hz (hi ▸ ha)
    next hne => exact ⟨hne, hi⟩
  have hap : Apart (setAt es off de) := by
    intro i j a b hi hj ha hb hab
    exact h i j a b (hold hi ha).2 (hold hj hb).2 ha hb hab
  refine ⟨hap, fun n => Option.ext fun a => ?_⟩
  rw [lookup_eq_some hap]
  constructor
  · rintro ⟨ha0, i, x, hi, rfl, hx⟩
    obtain ⟨hne, hi⟩ := hold hi ha0
    have hs : stored n ≠ stored name := fun hs =>
      hne (h i off x e hi he ha0 he0 (namecmp_trans (namecmp_symm hx)
        (namecmp_trans ((namecmp_eq_zero _ _).mpr hs) hen)))
    rw [if_neg hs, lookup_eq_some h]
    exact ⟨ha0, i, x, hi, rfl, hx⟩
  · intro hl
    split at hl
    next => exact absurd hl.symm (Option.some_ne_none a)
    next hs =>
      obtain ⟨ha0, i, x, hi, rfl, hx⟩ := (lookup_eq_some h).mp hl
      have hio : i ≠ off := by
        intro hio
        rw [hio, he, Option.some.injEq] at hi
        rw [← hi] at hx
        exact hs ((namecmp_eq_zero _ _).mp (namecmp_trans hx (namecmp_symm hen)))
      exact ⟨ha0, i, x, by rw [getElem?_setAt hoff, if_neg hio]; exact hi, rfl, hx⟩

/-! ## The calls -/

/-- The entries of `dp`. -/
def Kernel.dir (k : Kernel) (dp : Inum) : List Dirent := (k.fs.disk dp).entries

/-- The caller holds `dp` locked, and it is a directory. -/
def Holds (dp : Inum) (k : Kernel) : Prop :=
  0 < (k.itable dp).ref ∧ (k.itable dp).locked = true ∧ (k.itable dp).type = .T_DIR

instance (dp : Inum) (k : Kernel) : Decidable (Holds dp k) := inferInstanceAs (Decidable (_ ∧ _))

/-- What `sys_unlink` asks of the inode before its entry goes. -/
def unlinkable (ip : Inum) : Sys Bool := do
  ilock ip
  let k ← get
  if (k.itable ip).nlink < 1 then stop .unlinkNlink
  else if (k.itable ip).type = .T_DIR ∧ k.fs.isdirempty ip = false then do
    iunlockput ip
    pure false
  else pure true

/-- `sys_unlink` from the locked directory to the zeroed entry: the inode whose entry
is gone. -/
def unlinkEntry (dp : Inum) (name : Str) : Sys (Option Inum) := do
  if namecmp name dot = 0 ∨ namecmp name dotdot = 0 then pure none
  else
    match ← dirlookup dp name with
    | none => pure none
    | some (ip, off) => do
      let may ← unlinkable ip
      if may = true then do
        let ok ← writei dp off ⟨0, List.replicate DIRSIZ 0⟩
        if ok = false then stop .unlinkWritei else pure (some ip)
      else pure none

/-- The end of `sys_unlink`, when the entry is gone. -/
def unlinkDone (dp ip : Inum) : Sys Int := do
  let k ← get
  if (k.itable ip).type = .T_DIR then setNlink dp (· - 1) else pure ⟨⟩
  iunlockput dp
  setNlink ip (· - 1)
  iunlockput ip
  end_op
  pure 0

/-- `sys_unlink` is these pieces. -/
theorem sysUnlink_eq (p : Slot) (path : Str) : sysUnlink p (some path) = (do
    begin_op
    match ← nameiparent p path with
    | none => do
      end_op
      pure (-1)
    | some (dp, name) => do
      ilock dp
      match ← unlinkEntry dp name with
      | none => unlinkBad dp
      | some ip => unlinkDone dp ip) := by
  show (begin_op >>= fun _ => _) = _
  refine bind_congr fun _ => bind_congr fun r => ?_
  match r with
  | none => rfl
  | some (dp, name) =>
    refine bind_congr fun _ => ?_
    unfold unlinkEntry
    split
    next => rfl
    next =>
      rw [bind_assoc]
      refine bind_congr fun r => ?_
      match r with
      | none => rfl
      | some (ip, off) =>
        show (ilock ip >>= fun _ => _) = ((unlinkable ip >>= fun _ => _) >>= fun _ => _)
        rw [bind_assoc]
        unfold unlinkable
        rw [bind_assoc]
        refine bind_congr fun _ => ?_
        rw [bind_assoc]
        refine bind_congr fun k => ?_
        split
        next => rfl
        next =>
          split
          next => rw [bind_assoc]; rfl
          next =>
            show (writei dp off _ >>= fun _ => _) =
              ((writei dp off _ >>= fun _ => _) >>= fun _ => _)
            rw [bind_assoc]
            refine bind_congr fun ok => ?_
            split
            next => rfl
            next => rfl

variable {k : Kernel} {dp ip : Inum}

/-- `iupdate` writes everything but the content. -/
theorem iupdate_dir : (k.iupdate ip).dir dp = k.dir dp := by
  show ((Function.update k.fs.disk ip _ : Inum → Dinode) dp).entries = (k.fs.disk dp).entries
  by_cases h : dp = ip
  · rw [h, Function.update_self]
  · rw [Function.update_of_ne h]

theorem itrunc_dir (h : dp ≠ ip) : (k.itrunc ip).dir dp = k.dir dp := by
  refine iupdate_dir.trans ?_
  show ((Function.update k.fs.disk ip _ : Inum → Dinode) dp).entries = (k.fs.disk dp).entries
  rw [Function.update_of_ne h]

/-- Nothing is promised of a call that stops. -/
def Stops : Halt → Kernel → Prop := fun _ _ => True

theorem iget_dir : wp (iget ip) (fun _ k' => k'.fs = k.fs ∧ k'.room = k.room ∧
    (∀ i, (k'.itable i).locked = (k.itable i).locked) ∧
    (ip = dp → 0 < (k.itable dp).ref → 1 < (k'.itable dp).ref)) Stops k := by
  unfold iget
  simp only [wp_bind, wp_get, wp_ite, wp_modify, wp_stop]
  refine ⟨fun hr => ⟨rfl, rfl, fun i => ?_, ?_⟩, fun hr => ⟨fun _ => trivial,
    fun _ => ⟨rfl, rfl, fun i => ?_, ?_⟩⟩⟩
  · by_cases hi : i = ip
    · rw [hi, setInode_self]
    · rw [setInode_of_ne hi]
  · rintro rfl h0
    rw [setInode_self]
    exact Nat.succ_lt_succ h0
  · show ((k.setInode ip _).itable i).locked = _
    by_cases hi : i = ip
    · rw [hi, setInode_self]
    · rw [setInode_of_ne hi]
  · rintro rfl h0
    exact absurd h0 hr

theorem iput_dir (h : ip = dp → 1 < (k.itable dp).ref) :
    wp (iput ip) (fun _ k' => k'.dir dp = k.dir dp) Stops k := by
  unfold iput reclaim
  simp only [wp_bind, wp_get, wp_ite, wp_modify, wp_stop]
  refine ⟨fun hr => ⟨fun _ => trivial, fun _ => ?_⟩, fun _ => rfl⟩
  have hne : dp ≠ ip := fun he => absurd (h he.symm) (by rw [he, hr.1]; exact Nat.lt_irrefl 1)
  exact iupdate_dir.trans (itrunc_dir hne)

theorem writei_dir {off : Nat} {de : Dirent} :
    wp (writei dp off de) (fun ok k' => (ok = false ∧ k'.dir dp = k.dir dp ∧
        (MAXFILE * BSIZE < (off + 1) * direntSize ∨
          (k.dir dp).length ≤ off ∧ off * direntSize % BSIZE = 0 ∧ k.room.headD false = false)) ∨
      (ok = true ∧ k'.dir dp = setAt (k.dir dp) off de)) Stops k := by
  unfold writei
  simp only [wp_bind, wp_get, wp_ite, wp_modify, wp_pure]
  refine ⟨fun hmax => .inl ⟨trivial, trivial, .inl hmax⟩, fun _ => ⟨fun hlt => .inr ⟨trivial, ?_⟩,
    fun hge => ⟨fun hroom => .inl ⟨trivial, iupdate_dir, .inr ⟨Nat.le_of_not_lt hge, hroom⟩⟩,
      fun _ => .inr ⟨trivial, ?_⟩⟩⟩⟩
  · refine iupdate_dir.trans ?_
    show ((Function.update k.fs.disk dp _ : Inum → Dinode) dp).entries = _
    rw [Function.update_self]
    exact (if_pos hlt).symm
  · refine iupdate_dir.trans ?_
    show ((Function.update k.fs.disk dp _ : Inum → Dinode) dp).entries = _
    rw [Function.update_self]
    exact (if_neg hge).symm

theorem ilock_dir : wp (ilock ip) (fun _ k' => k'.dir dp = k.dir dp) Stops k := by
  unfold ilock
  simp only [wp_bind, wp_get, wp_ite, wp_modify, wp_stop, wp_pure]
  exact ⟨fun _ => trivial, fun _ => ⟨fun _ => trivial, fun _ => ⟨fun _ => ⟨fun _ => trivial,
    fun _ => rfl⟩, fun _ => rfl⟩⟩⟩

theorem unlinkable_dir (h : (k.itable dp).locked = true) :
    wp (unlinkable ip) (fun _ k' => k'.dir dp = k.dir dp) Stops k := by
  -- the caller would wait for itself
  by_cases hne : dp = ip
  · unfold unlinkable ilock
    simp only [wp_bind, wp_get, wp_ite, wp_stop]
    exact ⟨fun _ => trivial, fun _ => ⟨fun _ => trivial, fun hc => absurd (hne ▸ h) hc⟩⟩
  unfold unlinkable
  refine (@ilock_dir k dp ip).andThen fun _ k₁ h₁ => ?_
  simp only [wp_bind, wp_get, wp_ite, wp_stop, wp_pure]
  refine ⟨fun _ => trivial, fun _ => ⟨fun _ => ?_, fun _ => h₁⟩⟩
  unfold iunlockput iunlock
  simp only [wp_bind, wp_get, wp_ite, wp_stop, wp_modify]
  refine ⟨fun _ => trivial, fun _ => (iput_dir fun he => absurd he.symm hne).mono fun _ k₂ h₂ => ?_⟩
  exact h₂.trans h₁

/-! ## One call -/

/-- `dirlookup`, when the caller holds the directory. -/
theorem dirlookup_eq (h : Holds dp k) (name : Str) : exec (dirlookup dp name) k =
    match k.fs.slotOf dp name with
    | none => (.ok none, k)
    | some off => exec (do iget (k.fs.inumAt dp off); pure (some (k.fs.inumAt dp off, off))) k := by
  show exec (if (k.itable dp).type ≠ .T_DIR then _ else _) k = _
  rw [if_neg (not_not.mpr h.2.2)]
  cases k.fs.slotOf dp name with
  | none => rfl
  | some off => rfl

/-- The slot found holds a live entry with that name. -/
theorem slotOf_eq_some (hs : k.fs.slotOf dp name = some off) : ∃ e, (k.dir dp)[off]? = some e ∧
    e.inum ≠ 0 ∧ e.inum = k.fs.inumAt dp off ∧ namecmp name e.name = 0 := by
  obtain ⟨hlt, hat, _⟩ := List.findIdx?_eq_some_iff_getElem.mp hs
  have hp := of_decide_eq_true hat
  have hj : (k.dir dp)[off]? = some (k.dir dp)[off] := List.getElem?_eq_getElem hlt
  refine ⟨_, hj, hp.1, ?_, hp.2⟩
  show _ = (((k.dir dp)[off]?).map Dirent.inum).getD 0
  rw [hj]
  rfl

theorem slotOf_eq_none (hs : k.fs.slotOf dp name = none) : lookup (k.dir dp) name = none := by
  unfold lookup
  rw [Option.map_eq_none_iff, List.find?_eq_none]
  exact fun e he => Bool.eq_false_iff.mp (List.findIdx?_eq_none_iff.mp hs e he)

/-- A `dirlink` that fails finds the name, the largest file or a full disk. -/
def Refused (dp : Inum) (name : Str) (k : Kernel) : Prop :=
  lookup (k.dir dp) name ≠ none ∨
  MAXFILE * BSIZE < (k.fs.freeSlot dp + 1) * direntSize ∨
  (k.dir dp).length ≤ k.fs.freeSlot dp ∧ k.fs.freeSlot dp * direntSize % BSIZE = 0 ∧
    k.room.headD false = false

theorem dirlink_dir (h : Holds dp k) (ha : Apart (k.dir dp)) (hi : inum < 65536) :
    wp (dirlink dp name inum) (fun ok k' =>
      (ok = false ∧ k'.dir dp = k.dir dp ∧ Refused dp name k) ∨
      (ok = true ∧ lookup (k.dir dp) name = none ∧
        k'.dir dp = setAt (k.dir dp) (k.fs.freeSlot dp) ⟨inum, stored name⟩)) Stops k := by
  unfold dirlink dirlookup
  rw [wp_bind, wp_bind, wp_get, wp_ite]
  refine ⟨fun _ => trivial, fun _ => ?_⟩
  split
  next hs =>
    rw [wp_pure, wp_bind, wp_get, Nat.mod_eq_of_lt hi]
    refine writei_dir.mono fun ok k' hk => ?_
    rcases hk with ⟨hok, hk, hw⟩ | ⟨hok, hk⟩
    · exact .inl ⟨hok, hk, .inr hw⟩
    · exact .inr ⟨hok, slotOf_eq_none hs, hk⟩
  next off hs =>
    obtain ⟨e, he, he0, _, hn⟩ := slotOf_eq_some hs
    have hl : lookup (k.dir dp) name ≠ none := fun hc =>
      (lookup_eq_none ha).mp hc e.inum ⟨he0, off, e, he, rfl, hn⟩
    rw [wp_bind]
    refine (@iget_dir _ dp _).mono fun _ k₁ h₁ => ?_
    rw [wp_pure]
    show wp (iput _ >>= fun _ => pure false) _ _ _
    rw [wp_bind]
    refine (iput_dir fun he => h₁.2.2.2 he h.1).mono fun _ k₂ h₂ => ?_
    refine .inl ⟨rfl, h₂.trans ?_, .inl hl⟩
    unfold Kernel.dir
    rw [h₁.1]

theorem unlinkEntry_dir (h : Holds dp k) :
    wp (unlinkEntry dp name) (fun r k' => (r = none ∧ k'.dir dp = k.dir dp) ∨
      ∃ ip off e, r = some ip ∧ (k.dir dp)[off]? = some e ∧ e.inum ≠ 0 ∧ e.inum = ip ∧
        namecmp name e.name = 0 ∧
        k'.dir dp = setAt (k.dir dp) off ⟨0, List.replicate DIRSIZ 0⟩) Stops k := by
  unfold unlinkEntry dirlookup
  rw [wp_ite]
  refine ⟨fun _ => .inl ⟨rfl, rfl⟩, fun _ => ?_⟩
  rw [wp_bind, wp_bind, wp_get, wp_ite]
  refine ⟨fun _ => trivial, fun _ => ?_⟩
  split
  next => exact .inl ⟨rfl, rfl⟩
  next off hs =>
    obtain ⟨e, he, he0, hei, hn⟩ := slotOf_eq_some hs
    rw [wp_bind]
    refine (@iget_dir _ dp _).mono fun _ k₁ h₁ => ?_
    have hd₁ : k₁.dir dp = k.dir dp := by
      unfold Kernel.dir
      rw [h₁.1]
    rw [wp_pure]
    show wp (unlinkable _ >>= fun _ => _) _ _ _
    rw [wp_bind]
    refine (@unlinkable_dir _ dp _ ((h₁.2.2.1 dp).trans h.2.1)).mono fun may k₂ h₂ => ?_
    rw [wp_ite]
    refine ⟨fun _ => ?_, fun _ => .inl ⟨rfl, h₂.trans hd₁⟩⟩
    rw [wp_bind]
    refine writei_dir.mono fun ok k₃ h₃ => ?_
    rw [wp_ite]
    refine ⟨fun _ => trivial, fun hok => ?_⟩
    rcases h₃ with ⟨hf, _⟩ | ⟨_, h₃⟩
    · exact absurd hf hok
    · exact .inr ⟨_, off, e, rfl, he, he0, hei, hn, by rw [h₃, h₂, hd₁]⟩

/-! ## Any number of calls -/

/-- The kernel, and what the directory should mean for a stored name. -/
structure Dir where
  k : Kernel
  bound : Str → Option Inum

inductive DirAct
  | link (name : Str) (inum : Inum)
  | unlink (name : Str)
  /-- Whatever else happens. -/
  | other (k : Kernel)

namespace Dir

variable {s s' : Dir} {a : DirAct}

def bind (s : Dir) (name : Str) (o : Option Inum) : Str → Option Inum :=
  Function.update s.bound (stored name) o

/-- A call that returns. -/
def step (dp : Inum) (s : Dir) : DirAct → Option Dir
  | .link name inum =>
    match exec (dirlink dp name inum) s.k with
    | (.ok ok, k) => some ⟨k, if ok = true then s.bind name (some inum) else s.bound⟩
    | (.error _, _) => none
  | .unlink name =>
    match exec (unlinkEntry dp name) s.k with
    | (.ok r, k) => some ⟨k, if r.isSome = true then s.bind name none else s.bound⟩
    | (.error _, _) => none
  | .other k => if k.dir dp = s.k.dir dp then some { s with k := k } else none

/-- What the callers see to. -/
def Ok (dp : Inum) (s : Dir) : DirAct → Prop
  | .link _ inum => Holds dp s.k ∧ 1 ≤ inum ∧ inum ≤ 65535
  | .unlink _ => Holds dp s.k
  | .other _ => True

instance (dp : Inum) (s : Dir) : ∀ a, Decidable (Ok dp s a)
  | .link _ _ => inferInstanceAs (Decidable (_ ∧ _))
  | .unlink _ => inferInstanceAs (Decidable (Holds _ _))
  | .other _ => isTrue trivial

/-- Just allocated. -/
def Start (dp : Inum) (s : Dir) : Prop := s.k.dir dp = [] ∧ ∀ n, s.bound n = none

structure Inv (dp : Inum) (s : Dir) : Prop where
  apart : Apart (s.k.dir dp)
  bound : ∀ name, s.bound (stored name) = lookup (s.k.dir dp) name

theorem Start.inv {dp : Inum} (h : Start dp s) : Inv dp s := by
  refine ⟨?_, fun name => ?_⟩
  · intro i j a b hi
    rw [h.1] at hi
    exact absurd hi.symm (Option.some_ne_none a)
  · rw [h.2, h.1]
    rfl

/-- The inode number `name` is bound to afterwards is `o`, and nothing else has changed. -/
def Rebinds (dp : Inum) (k k' : Kernel) (name : Str) (o : Option Inum) : Prop :=
  Apart (k'.dir dp) ∧
  ∀ n, lookup (k'.dir dp) n = if stored n = stored name then o else lookup (k.dir dp) n

theorem Inv.rebinds {dp : Inum} {k : Kernel} {name : Str} {o : Option Inum} (h : Inv dp s)
    (hk : Rebinds dp s.k k name o) : Inv dp ⟨k, s.bind name o⟩ := by
  refine ⟨hk.1, fun n => ?_⟩
  rw [hk.2]
  show Function.update s.bound (stored name) o (stored n) = _
  split
  next hn => rw [hn, Function.update_self]
  next hn => rw [Function.update_of_ne hn, h.bound]

theorem Inv.same {dp : Inum} {k : Kernel} (h : Inv dp s) (hk : k.dir dp = s.k.dir dp) :
    Inv dp ⟨k, s.bound⟩ := by
  refine ⟨?_, fun name => ?_⟩
  · show Apart (k.dir dp)
    rw [hk]
    exact h.apart
  · show _ = lookup (k.dir dp) name
    rw [hk]
    exact h.bound name

/-- **`dirlink`** on a directory that is a map. -/
theorem Inv.link {dp : Inum} {name : Str} {inum : Inum} {k : Kernel} {ok : Bool} (h : Inv dp s)
    (hh : Holds dp s.k) (h0 : 1 ≤ inum) (hi : inum ≤ 65535)
    (hx : exec (dirlink dp name inum) s.k = (.ok ok, k)) :
    (ok = true ∧ lookup (s.k.dir dp) name = none ∧ Rebinds dp s.k k name (some inum)) ∨
    (ok = false ∧ k.dir dp = s.k.dir dp ∧ Refused dp name s.k) := by
  rcases (dirlink_dir hh h.apart (Nat.lt_succ_of_le hi)).of_ok hx with ⟨hok, hk, hr⟩ | ⟨hok, hn, hk⟩
  · exact .inr ⟨hok, hk, hr⟩
  · have hset := h.apart.link (freeSlot_le s.k.fs dp) (fun e => inum_freeSlot) hn
      (Nat.one_le_iff_ne_zero.mp h0)
    exact .inl ⟨hok, hn, by unfold Rebinds; rw [hk]; exact hset⟩

/-- **The entry's removal** in a directory that is a map. -/
theorem Inv.unlink {dp : Inum} {name : Str} {k : Kernel} {r : Option Inum} (h : Inv dp s)
    (hh : Holds dp s.k) (hx : exec (unlinkEntry dp name) s.k = (.ok r, k)) :
    (∃ inum, r = some inum ∧ lookup (s.k.dir dp) name = some inum ∧ Rebinds dp s.k k name none) ∨
    (r = none ∧ k.dir dp = s.k.dir dp) := by
  rcases (unlinkEntry_dir hh).of_ok hx with hr | ⟨ip, off, e, hr, he, he0, hei, hn, hk⟩
  · exact .inr hr
  · have hset := h.apart.remove he he0 hn (rfl : (⟨0, List.replicate DIRSIZ 0⟩ : Dirent).inum = 0)
    refine .inl ⟨ip, hr, ?_, by unfold Rebinds; rw [hk]; exact hset⟩
    exact (lookup_eq_some h.apart).mpr ⟨hei ▸ he0, off, e, he, hei, hn⟩

theorem Inv.next {dp : Inum} (h : Inv dp s) (hok : Ok dp s a) (hs : step dp s a = some s') :
    Inv dp s' := by
  cases a with
  | link name inum =>
    simp only [step] at hs
    split at hs
    next ok k hx =>
      rw [Option.some.injEq] at hs
      rcases h.link hok.1 hok.2.1 hok.2.2 hx with ⟨rfl, _, hk⟩ | ⟨rfl, hk, _⟩
      · exact hs ▸ h.rebinds hk
      · exact hs ▸ h.same hk
    next => exact absurd hs.symm (Option.some_ne_none s')
  | unlink name =>
    simp only [step] at hs
    split at hs
    next r k hx =>
      rw [Option.some.injEq] at hs
      rcases h.unlink hok hx with ⟨inum, rfl, _, hk⟩ | ⟨rfl, hk⟩
      · exact hs ▸ h.rebinds hk
      · exact hs ▸ h.same hk
    next => exact absurd hs.symm (Option.some_ne_none s')
  | other k =>
    obtain ⟨hk, hs⟩ := Option.ite_none_right_eq_some.mp hs
    rw [Option.some.injEq] at hs
    exact hs ▸ h.same hk

/-- What `dirlookup` answers. -/
def Answers (dp : Inum) (k : Kernel) (name : Str) : Option Inum → Prop
  | none => exec (dirlookup dp name) k = (.ok none, k)
  | some inum => ∃ off e, (k.dir dp)[off]? = some e ∧ e.inum = inum ∧ stored e.name = stored name ∧
      exec (dirlookup dp name) k = exec (do iget inum; pure (some (inum, off))) k

theorem Inv.answers {dp : Inum} (h : Inv dp s) (hh : Holds dp s.k) (name : Str) :
    Answers dp s.k name (s.bound (stored name)) := by
  have hq := dirlookup_eq hh name
  rw [h.bound]
  cases hs : s.k.fs.slotOf dp name with
  | none =>
    rw [hs] at hq
    rw [slotOf_eq_none hs]
    exact hq
  | some off =>
    rw [hs] at hq
    obtain ⟨e, he, he0, hei, hn⟩ := slotOf_eq_some hs
    rw [(lookup_eq_some h.apart).mpr ⟨he0, off, e, he, rfl, hn⟩]
    exact ⟨off, e, he, rfl, ((namecmp_eq_zero _ _).mp hn).symm, by rw [hei]; exact hq⟩

/-- **A directory is a finite map.** -/
theorem directory_map {dp : Inum} (h : Reach (step dp) (Ok dp) (Start dp) s) :
    Apart (s.k.dir dp) ∧
    (Holds dp s.k → ∀ name, Answers dp s.k name (s.bound (stored name))) ∧
    (∀ name inum k, Holds dp s.k → 1 ≤ inum → inum ≤ 65535 →
      exec (dirlink dp name inum) s.k = (.ok true, k) →
        lookup (s.k.dir dp) name = none ∧ Rebinds dp s.k k name (some inum)) ∧
    (∀ name inum k, Holds dp s.k → 1 ≤ inum → inum ≤ 65535 →
      exec (dirlink dp name inum) s.k = (.ok false, k) →
        k.dir dp = s.k.dir dp ∧ Refused dp name s.k) ∧
    (∀ name inum k, Holds dp s.k → exec (unlinkEntry dp name) s.k = (.ok (some inum), k) →
      lookup (s.k.dir dp) name = some inum ∧ Rebinds dp s.k k name none) ∧
    (∀ name k, Holds dp s.k → exec (unlinkEntry dp name) s.k = (.ok none, k) →
      k.dir dp = s.k.dir dp) := by
  have hi := Reach.inv (fun _ => Start.inv) Inv.next h
  refine ⟨hi.apart, hi.answers, fun name inum k hh h0 h1 hx => ?_,
    fun name inum k hh h0 h1 hx => ?_,
    fun name inum k hh hx => ?_, fun name k hh hx => ?_⟩
  · rcases hi.link hh h0 h1 hx with ⟨_, hl⟩ | ⟨hc, _⟩
    · exact hl
    · exact absurd hc.symm Bool.false_ne_true
  · rcases hi.link hh h0 h1 hx with ⟨hc, _⟩ | ⟨_, hl⟩
    · exact absurd hc Bool.false_ne_true
    · exact hl
  · rcases hi.unlink hh hx with ⟨i, hr, hl⟩ | ⟨hc, _⟩
    · rw [Option.some.injEq] at hr
      exact hr ▸ hl
    · exact absurd hc (Option.some_ne_none inum)
  · rcases hi.unlink hh hx with ⟨i, hr, _⟩ | ⟨_, hl⟩
    · exact absurd hr.symm (Option.some_ne_none i)
    · exact hl

/-- Inode 2 has just been allocated as a directory, and 3 is a file. -/
def fresh : Dir where
  k := {
    fs := {
      ninodes := 10
      disk := fun i => ⟨if i = 2 then .T_DIR else if i = 3 then .T_FILE else .free, 0, 0, 1, [], []⟩
      born := fun _ => 0
      parent := fun _ => 0
      clock := 0
      lost := fun _ => 0 }
    itable := fun i => ⟨if i = 2 then 1 else 0, i = 2, i = 2, .T_DIR, 0, 0, 1⟩
    used := 1
    file := fun _ => ⟨.FD_NONE, 0, false, false, 0, 0, 0⟩
    life := fun _ => .running
    cwd := fun _ => none
    ofile := fun _ _ => none
    outstanding := 1
    room := [true]
    looked := [] }
  bound := fun _ => none

/-- `create`'s two entries; a name as long as the field, a longer one that is stored the
same, the first removed, and its slot taken by a short one. -/
def fourteen : List DirAct :=
  [.link dot 2, .link dotdot 1, .link (List.replicate 14 97) 3, .link (List.replicate 15 97) 4,
    .unlink (List.replicate 16 97), .link [98] 3]

theorem fourteen_run : (runFrom (guarded (step 2) (Ok 2)) fresh fourteen).map
    (fun s => (s.k.dir 2, s.bound (stored [98]), decide (Holds 2 s.k))) =
    some ([⟨2, stored dot⟩, ⟨1, stored dotdot⟩, ⟨3, stored [98]⟩], some 3, true) := by
  decide +kernel

theorem directory_map_fourteen : ∃ s : Dir,
    s.k.dir 2 = [⟨2, stored dot⟩, ⟨1, stored dotdot⟩, ⟨3, stored [98]⟩] ∧ Apart (s.k.dir 2) ∧
    Answers 2 s.k [98] (some 3) := by
  obtain ⟨s, hrun, hs⟩ := Option.map_eq_some_iff.mp fourteen_run
  obtain ⟨hok, hrun⟩ := runFrom_guarded fourteen hrun
  rw [Prod.mk.injEq, Prod.mk.injEq] at hs
  obtain ⟨hd, hb, hh⟩ := hs
  have hm := directory_map (Reach.of_run fourteen (.start ⟨rfl, fun _ => rfl⟩) hok hrun)
  exact ⟨s, hd, hm.1, hb ▸ hm.2.1 (of_decide_eq_true hh) [98]⟩

end Dir

end Xv6.Names
