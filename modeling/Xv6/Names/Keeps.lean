import Xv6.Names.Files

/-!
# Every call keeps the tree

Between two calls nothing is owed and the table holds what the processes and the files
hold: `Inv`. Each system call keeps it (`syscall_wp`), from a state in which its
lookups can be made (`WalkOk`) and a link more can be counted (`LinkOk`). With `strict`
it must not enter a name in a removed directory, nor remove a directory that is still
`..` of one removed earlier (`PlaceOk`).
-/

namespace Xv6.Names

open Lib
open Ftable (NFILE NOFILE FileId Fd FileType)

variable {strict : Prop} {debt : Inum → Int} {R R' : Procs} {H : Inum → Nat} {own : List Inum}
  {raw : Option Inum} {T T' : Fs} {k k' : Kernel} {i dp ip : Inum} {p : Slot}

def Inv (strict : Prop) (k : Kernel) : Prop :=
  Files k.toProcs ∧ Settled strict k.toProcs k.toProcs.holders [] k

theorem Settled.inv (hF : Files R) (h : Settled strict R R.holders [] k) : Inv strict k := by
  obtain ⟨T, hT, hm⟩ := h
  obtain rfl := hm.procs
  exact ⟨hF, T, hT, hm⟩

theorem Filed.inv (hT : Tree strict noDebt none T) (h : Filed R [] T k) : Inv strict k := by
  obtain ⟨R', hF, _, _, hm⟩ := h
  exact Settled.inv hF ⟨T, hT, hm⟩

/-! ## What a call needs -/

/-- A link more to what `path` names can be counted. -/
def LinksLeft (R : Procs) (T : Fs) (p : Slot) (path : Str) : Prop :=
  ∀ ip ∈ T.arrive (R.start p path) (elems path), (T.disk ip).nlink < 32767

/-- An empty directory that `path` names, other than by `.` or `..`, is `..` of no
other. -/
def NoOrphan (R : Procs) (T : Fs) (p : Slot) (path : Str) : Prop :=
  ∀ dp ∈ T.arrive (R.start p path) (elems path).dropLast, ∀ name ∈ (elems path).getLast?,
    namecmp name dot ≠ 0 → namecmp name dotdot ≠ 0 → ∀ ip ∈ T.child dp name,
      T.IsDir ip → T.isdirempty ip = true → ∀ d < T.ninodes, T.IsDir d → T.upOf d ≠ ip

/-- No `..` is looked up in a removed directory when the one it was created under has been
freed. -/
def WalkOk (k : Kernel) (a : Act) : Prop :=
  match a.call with
  | .sysOpen (some path) _ | .sysMkdir (some path) | .sysMknod (some path) _ _
  | .sysChdir (some path) | .kexec (some path) => PathOk k.toProcs k.fs a.proc false path
  | .sysLink (some old) (some new) =>
    PathOk k.toProcs k.fs a.proc false old ∧ PathOk k.toProcs k.fs a.proc true new
  | .sysUnlink (some path) => PathOk k.toProcs k.fs a.proc true path
  | _ => True

/-- No link is made to an inode that has 32767 links. -/
def LinkOk (k : Kernel) (a : Act) : Prop :=
  match a.call with
  | .sysLink (some old) (some _) => LinksLeft k.toProcs k.fs a.proc old
  | _ => True

/-- No name is entered in a removed directory, and no directory is removed that is `..`
of a directory removed earlier. -/
def PlaceOk (k : Kernel) (a : Act) : Prop :=
  match a.call with
  | .sysOpen (some path) omode =>
    omode &&& O_CREATE ≠ 0 → PlaceKept k.toProcs k.fs a.proc path
  | .sysMkdir (some path) | .sysMknod (some path) _ _ | .sysLink (some _) (some path) =>
    PlaceKept k.toProcs k.fs a.proc path
  | .sysUnlink (some path) => NoOrphan k.toProcs k.fs a.proc path
  | _ => True

instance (T : Fs) (d : Inum) : Decidable (T.removed d) := inferInstanceAs (Decidable (_ ∧ _))

instance (R : Procs) (T : Fs) (p : Slot) (path : Str) : Decidable (LinksLeft R T p path) :=
  inferInstanceAs (Decidable (∀ ip ∈ _, _))

instance (R : Procs) (T : Fs) (p : Slot) (path : Str) : Decidable (PlaceKept R T p path) :=
  inferInstanceAs (Decidable (∀ dp ∈ _, ∀ name ∈ _, _))

instance (R : Procs) (T : Fs) (p : Slot) (path : Str) : Decidable (NoOrphan R T p path) :=
  inferInstanceAs (Decidable (∀ dp ∈ _, ∀ name ∈ _, _ → _ → ∀ ip ∈ _, _ → _ → ∀ d < _, _))

instance (k : Kernel) (a : Act) : Decidable (LinkOk k a) := by
  unfold LinkOk
  split <;> infer_instance

instance (T : Fs) (v : Inum × Str) : Decidable (T.Attached v) :=
  inferInstanceAs (Decidable (_ → ¬(_ ∧ ∀ q < _, _ → _)))

instance (R : Procs) (T : Fs) (p : Slot) (parent : Bool) (path : Str) :
    Decidable (PathOk R T p parent path) := inferInstanceAs (Decidable (∀ v ∈ _, _))

instance (k : Kernel) (a : Act) : Decidable (WalkOk k a) := by
  unfold WalkOk
  split <;> infer_instance

instance (k : Kernel) (a : Act) : Decidable (PlaceOk k a) := by
  unfold PlaceOk
  split <;> infer_instance

/-! ## `create` and its callers -/

/-- A call that fails ends the transaction. -/
theorem end_settled {r : Int} (h : Settled strict R H own k) :
    wp (do
      end_op
      pure r) (fun _ k' => Settled strict R H own k') Safe k := by
  obtain ⟨T, hT, hm⟩ := h
  exact (end_op_wp hm).andThen fun _ _ h' => ⟨T, hT, h'⟩

/-- The reference goes, and the transaction ends. -/
theorem put_end {r : Int} (hT : Tree strict noDebt none T) (h : Mem R H (i :: own) none none T k) :
    wp (do
      iunlockput i
      end_op
      pure r) (fun _ k' => Settled strict R H own k') Safe k :=
  (iunlockput_settled hT h).andThen fun _ _ h' => end_settled h'

theorem make_wp (hT : Tree strict noDebt none T) (h : Mem R R.holders [] none none T k)
    {path : Option Str} {type : IType} (ht : type ≠ .free) {major minor : Int}
    (hok : ∀ s, path = some s → PathOk R T p false s)
    (hst : strict → ∀ s, path = some s → PlaceKept R T p s) :
    wp (make p path type major minor) (fun _ k' => Settled strict R R.holders [] k') Safe k := by
  unfold make
  refine (begin_op_wp h).andThen fun _ k₁ h₁ => ?_
  match path with
  | none => exact end_settled ⟨T, hT, h₁⟩
  | some path =>
  simp only
  refine (create_wp hT h₁ (holders_cwd R p) (hok path rfl) (fun hs => hst hs path rfl) ht
    major minor).andThen fun r k₂ h₂ => ?_
  match r, h₂ with
  | none, h₂ => exact end_settled h₂
  | some ip, ⟨T', hT', h₂⟩ => exact put_end hT' h₂

/-- The exits of `sys_open` that give up the inode. -/
theorem giveUp_wp (hT : Tree strict noDebt none T) (h : Mem R H (i :: own) none none T k) :
    wp (giveUp i) (fun _ k' => Settled strict R H own k') Safe k := by
  unfold giveUp
  exact put_end hT h

theorem openInode_wp (hT : Tree strict noDebt none T) (h : Mem R R.holders [] none none T k)
    {path : Str} {omode : BitVec 32} (hok : PathOk R T p false path)
    (hst : strict → omode &&& O_CREATE ≠ 0 → PlaceKept R T p path) :
    wp (openInode p path omode) (Created strict R R.holders) Safe k := by
  unfold openInode
  rw [wp_ite]
  refine ⟨fun hc => create_wp hT h (holders_cwd R p) hok (fun hs => hst hs hc)
    IType.noConfusion 0 0,
    fun _ => ?_⟩
  refine (namei_wp hT h (holders_cwd R p) hok).andThen fun r k₁ h₁ => ?_
  match r, h₁ with
  | none, h₁ => exact ⟨T, hT, h₁⟩
  | some ip, ⟨h₁, _, _⟩ =>
  refine (ilock_wp h₁ List.mem_cons_self fun j hj => (unread_eq hj).1).andThen fun _ k₂ h₂ => ?_
  rw [wp_bind, wp_get, wp_ite]
  refine ⟨fun _ => ?_, fun _ => ⟨T, hT, h₂⟩⟩
  exact (iunlockput_settled hT h₂).andThen fun _ _ h₃ => h₃

theorem sysOpen_wp (hF : Files R) (hT : Tree strict noDebt none T)
    (h : Mem R R.holders [] none none T k) {path : Option Str} {omode : BitVec 32}
    (hok : ∀ s, path = some s → PathOk R T p false s)
    (hst : strict → ∀ s, path = some s → omode &&& O_CREATE ≠ 0 → PlaceKept R T p s) :
    wp (sysOpen p path omode) (fun _ k' => Inv strict k') Safe k := by
  unfold sysOpen
  match path with
  | none => exact Settled.inv hF ⟨T, hT, h⟩
  | some path =>
  simp only
  refine (begin_op_wp h).andThen fun _ k₁ h₁ => ?_
  refine (openInode_wp hT h₁ (hok path rfl) fun hs => hst hs path rfl).andThen fun r k₂ h₂ => ?_
  match r, h₂ with
  | none, h₂ => exact (end_settled h₂).mono fun _ _ h₃ => h₃.inv hF
  | some ip, ⟨T', hT', h₂⟩ =>
  simp only
  rw [wp_bind, wp_get, wp_ite]
  have hag := h₂.agrees_of_mem (i := ip) List.mem_cons_self (Option.some_ne_none ip).symm
  refine ⟨fun _ => (giveUp_wp hT' h₂).mono fun _ _ h₃ => h₃.inv hF, fun _ => ?_⟩
  refine (filealloc_wp hF h₂).andThen fun r k₃ h₃ => ?_
  rcases h₃ with ⟨rfl, rfl⟩ | ⟨f, x, rfl, hx, _, _, hF₃, h₃⟩
  · exact (giveUp_wp hT' h₂).mono fun _ _ h₄ => h₄.inv hF
  simp only
  refine (fdalloc_wp hF₃ h₃).andThen fun r k₄ h₄ => ?_
  obtain ⟨R₄, hF₄, hfile, _, _, h₄⟩ := h₄
  match r with
  | none =>
    refine (fileclose_wp hF₄ hT' h₄).andThen fun _ k₅ h₅ => ?_
    obtain ⟨T₅, hT₅, R₅, hF₅, _, _, h₅⟩ := h₅
    exact (giveUp_wp hT₅ h₅).mono fun _ _ h₆ => h₆.inv hF₅
  | some fd =>
    have hnone : (R₄.file f).inode = none := by
      rw [hfile]
      simp [Procs.setFile, hx]
    have hfk : k₄.file f = x := by
      have hp := congrFun (congrArg Procs.file h₄.procs) f
      rw [hfile] at hp
      simpa [Procs.setFile] using hp
    -- the reference is the file's once the transaction is over
    have hend : ∀ {T₅ : Fs} {y : File} {k₅ : Kernel}, Tree strict noDebt none T₅ →
        y.inode = some ip → 0 < y.ref →
        Mem (R₄.setFile f y) R₄.holders [ip] none none T₅ k₅ →
        wp (do
          iunlock ip
          end_op
          pure (fd.val : Int)) (fun _ k' => Inv strict k') Safe k₅ := by
      intro T₅ y k₅ hT₅ hy hr h₅
      refine (iunlock_wp h₅).andThen fun _ k₆ h₆ => ?_
      refine (end_op_wp h₆).andThen fun _ k₇ h₇ => ?_
      refine Settled.inv (R := R₄.setFile f y)
        (hF₄.setFile fun hc => absurd hc (Nat.pos_iff_ne_zero.mp hr)) ⟨T₅, hT₅, ?_⟩
      exact h₇.hand h₇.procs rfl rfl rfl (fun j => (holders_setFile_take hnone hy j))
        fun j hj => absurd hj List.not_mem_nil
    have hrest : ∀ y : File, y.inode = some ip → 0 < y.ref → wp (do
        if omode &&& O_TRUNC ≠ 0 ∧ (k₂.itable ip).type = .T_FILE then modify (·.itrunc ip)
        else pure ⟨⟩
        iunlock ip
        end_op
        pure (fd.val : Int)) (fun _ k' => Inv strict k') Safe (k₄.setFile f y) := by
      intro y hy hr
      have h₅ : Mem (R₄.setFile f y) R₄.holders [ip] none none T' (k₄.setFile f y) :=
        h₄.procs_congr (by rw [← h₄.procs]; rfl) rfl rfl rfl rfl
      dsimp only
      rw [wp_ite]
      refine ⟨fun htr => ?_, fun _ => hend hT' hy hr h₅⟩
      have hnd : ¬T'.IsDir ip := fun hc => by
        have ht := hag.1.symm.trans htr.2
        unfold Fs.IsDir at hc
        rw [hc] at ht
        exact IType.noConfusion ht
      rw [wp_bind, wp_modify]
      refine hend (hT'.truncate hnd) hy hr ?_
      refine content_wp h₅ List.mem_cons_self (Option.some_ne_none ip).symm
        (fun j hj => Function.update_of_ne hj _ _) ?_ ?_ ?_ ?_ rfl ?_ rfl rfl
      · simp [Fs.truncate, Fs.setDinode]
      · simp [Fs.truncate, Fs.setDinode]
      · simp [Fs.truncate, Fs.setDinode]
      · simp [Fs.truncate, Fs.setDinode]
      · show Fs.truncate k₄.fs ip = _
        rw [h₄.fs]
    rw [wp_bind, wp_modify]
    refine hrest _ ?_ ?_
    · unfold File.inode
      by_cases hdev : (k₂.itable ip).type = .T_DEVICE
      · simp [hdev]
      · simp [hdev]
    · show 0 < (k₄.file f).ref
      rw [hfk]
      assumption

/-! ## Links -/

/-- A walk sees the directories only. -/
theorem Tree.SameDirs.child (h : Tree.SameDirs T T') {d : Inum} (hd : T.IsDir d) (name : Str) :
    T'.child d name = T.child d name := by
  unfold Fs.child Fs.slotOf Fs.inumAt
  rw [h.entries_of_dir hd]

theorem Tree.SameDirs.arrive (h : Tree.SameDirs T T') (names : List Str) :
    ∀ d, T'.arrive d names = T.arrive d names := by
  induction names with
  | nil => intro d; rfl
  | cons name names ih =>
    intro d
    rw [Fs.arrive, Fs.arrive]
    by_cases hd : T.IsDir d
    · rw [if_pos hd, if_pos ((h.isDir d).mpr hd), h.child hd]
      cases T.child d name with
      | none => rfl
      | some d' => exact ih d'
    · rw [if_neg hd, if_neg fun hc => hd ((h.isDir d).mp hc)]

theorem Tree.SameDirs.visits (h : Tree.SameDirs T T') (names : List Str) :
    ∀ d, T'.visits d names = T.visits d names := by
  induction names with
  | nil => intro d; rfl
  | cons name names ih =>
    intro d
    rw [Fs.visits, Fs.visits]
    by_cases hd : T.IsDir d
    · rw [if_pos hd, if_pos ((h.isDir d).mpr hd), h.child hd]
      cases T.child d name with
      | none => rfl
      | some d' => exact congrArg _ (ih d')
    · rw [if_neg hd, if_neg fun hc => hd ((h.isDir d).mp hc)]

theorem Tree.SameDirs.attached (h : Tree.SameDirs T T') {v : Inum × Str} (hv : T.Attached v) :
    T'.Attached v := fun hdd hc => hv hdd ⟨(h.removed _).mp hc.1, fun q hn hq hb =>
      hc.2 q (h.ninodes ▸ hn) ((h.isDir q).mpr hq) (by rw [h.born, h.parent]; exact hb)⟩

theorem Tree.SameDirs.pathOk (h : Tree.SameDirs T T') {path : Str} {parent : Bool}
    (hok : PathOk R T p parent path) : PathOk R T' p parent path := fun v hv => by
  rw [h.visits] at hv
  exact h.attached (hok v hv)

theorem sameDirs_setNlink (T : Fs) (i : Inum) (n : Int) : Tree.SameDirs T (T.setNlink i n) := by
  refine ⟨rfl, fun j => ?_, fun j => .inl ?_, rfl, rfl, rfl, rfl⟩
  · by_cases hj : j = i
    · subst hj
      simp [Fs.setNlink, Fs.setDinode]
    · simp [Fs.setNlink, Fs.setDinode, hj]
  · by_cases hj : j = i
    · subst hj
      simp [Fs.setNlink, Fs.setDinode]
    · simp [Fs.setNlink, Fs.setDinode, hj]

/-- `bad` of `sys_link`: what was owed is paid back. -/
theorem unmakeLink_wp (hT : Tree strict (owe noDebt ip 1) none T)
    (h : Mem R H [ip] none none T k) :
    wp (unmakeLink ip) (fun _ k' => Settled strict R H [] k') Safe k := by
  unfold unmakeLink
  have hu := h.used_of_mem (i := ip) List.mem_cons_self
  refine (ilock_wp h List.mem_cons_self fun j hj =>
    absurd hj.symm (Option.some_ne_none j)).andThen fun _ k₁ h₁ => ?_
  have hl := hT.links hu
  rw [owe_self] at hl
  have hr := hT.range hu
  have hd : noDebt ip = 0 := rfl
  refine (setNlink_wp (n := (T.disk ip).nlink - 1) h₁ List.mem_cons_self
    (Option.some_ne_none ip).symm (short_eq (by omega) (by omega))).andThen fun _ k₂ h₂ => ?_
  have hT₂ := hT.setNlink (n := (T.disk ip).nlink - 1) hu (by omega)
  rw [owe_back ip 1 _ (by omega)] at hT₂
  exact put_end hT₂ h₂

theorem sysLink_wp (hT : Tree strict noDebt none T) (h : Mem R R.holders [] none none T k)
    {old new : Option Str}
    (hok : ∀ s t, old = some s → new = some t → PathOk R T p false s ∧ PathOk R T p true t ∧
      LinksLeft R T p s)
    (hst : strict → ∀ s t, old = some s → new = some t → PlaceKept R T p t) :
    wp (sysLink p old new) (fun _ k' => Settled strict R R.holders [] k') Safe k := by
  unfold sysLink
  match old, new with
  | none, _ => exact ⟨T, hT, h⟩
  | some _, none => exact ⟨T, hT, h⟩
  | some old, some new =>
  obtain ⟨hold, hnew, hleft⟩ := hok old new rfl rfl
  simp only
  refine (begin_op_wp h).andThen fun _ k₁ h₁ => ?_
  refine (namei_wp hT h₁ (holders_cwd R p) hold).andThen fun r k₂ h₂ => ?_
  match r, h₂ with
  | none, h₂ => exact end_settled ⟨T, hT, h₂⟩
  | some ip, ⟨h₂, _, harr⟩ =>
  simp only
  refine (ilock_wp h₂ List.mem_cons_self fun j hj => (unread_eq hj).1).andThen fun _ k₃ h₃ => ?_
  rw [wp_bind, wp_get, wp_ite]
  refine ⟨fun _ => put_end hT h₃, fun hnd => ?_⟩
  have hu := h₃.used_of_mem (i := ip) List.mem_cons_self
  have hag := h₃.agrees_of_mem (i := ip) List.mem_cons_self (Option.some_ne_none ip).symm
  have hnd' : ¬T.IsDir ip := fun hc => hnd (hag.1.trans hc)
  have hr := hT.range hu
  have hlt := hleft ip harr
  -- the count goes up first, so that the inode owes a name until `dirlink`
  set n := (T.disk ip).nlink + 1 with hn
  refine (setNlink_wp (n := n) h₃ List.mem_cons_self (Option.some_ne_none ip).symm
    (short_eq (by omega) (by omega))).andThen fun _ k₄ h₄ => ?_
  have hT₄ := hT.setNlink (n := n) hu (by omega)
  rw [show n - (T.disk ip).nlink = 1 by omega] at hT₄
  have hsame := sameDirs_setNlink T ip n
  refine (iunlock_wp h₄).andThen fun _ k₅ h₅ => ?_
  refine (nameiparent_wp hT₄ h₅ (holders_cwd R p) (hsame.pathOk hnew)).andThen fun r k₆ h₆ => ?_
  match r, h₆ with
  | none, h₆ => exact unmakeLink_wp hT₄ h₆
  | some (dp, name), ⟨h₆, _, hd, harr', hlast'⟩ =>
  simp only
  have hone : ∀ j, (0 : Int) ≤ owe noDebt ip 1 j :=
    owe_nonneg (fun _ => Int.le_refl 0) ip Int.one_nonneg
  refine (ilock_wp h₆ List.mem_cons_self fun j hj =>
    absurd hj.symm (Option.some_ne_none j)).andThen fun _ k₇ h₇ => ?_
  have hiw : ip < 65536 := Nat.lt_of_lt_of_le (hT.bound hu).2 hT.width
  refine (dirlink_wp h₇ List.mem_cons_self hiw
    fun off _ => (Option.some_ne_none _).symm).andThen fun ok k₈ h₈ => ?_
  rcases h₈ with ⟨rfl, h₈⟩ | ⟨rfl, _, hso, hslot, h₈⟩
  · -- no room: the count goes back
    refine (iunlockput_tree hT₄ h₈ (hone dp)).andThen fun _ k₉ h₉ => ?_
    obtain ⟨T₉, hT₉, h₉, _⟩ := h₉
    rw [if_neg Bool.false_ne_true]
    exact unmakeLink_wp hT₉ h₉
  · -- the place is the same before and after the count went up
    have hd' : T.IsDir dp := (hsame.isDir dp).mp hd
    have hplace : strict → ¬(T.setNlink ip n).removed dp := fun hs hrm => by
      rw [hsame.arrive] at harr'
      refine hst hs old new rfl rfl dp harr' name hlast' ?_ ((hsame.removed dp).mp hrm)
      rw [← hsame.child hd', Fs.child, hso]
      rfl
    obtain ⟨hdots, hup0⟩ := hT₄.dots hd (Option.some_ne_none dp).symm
    have hnd₄ : ¬(T.setNlink ip n).IsDir ip := fun hc => hnd' ((hsame.isDir ip).mp hc)
    have hT₈ := hT₄.link (i := ip) hd (Option.some_ne_none dp).symm
      (two_le_freeSlot hdots (hT₄.ne_zero hd.used) hup0) (freeSlot_le _ dp) hslot
      (fun e he => inum_freeSlot he) ((hsame.used ip).mpr hu) (Option.some_ne_none ip).symm
      (fun hc => absurd hc hnd₄) hplace (stored name)
    rw [owe_back ip 1 (-1) (by omega), if_neg hnd₄, owe_zero] at hT₈
    refine (iunlockput_tree hT₈ h₈ (Int.le_refl 0)).andThen fun _ k₉ h₉ => ?_
    obtain ⟨T₉, hT₉, h₉, _⟩ := h₉
    rw [if_pos rfl]
    refine (iput_tree hT₉ h₉ (fun j hj => absurd hj List.not_mem_nil) (Int.le_refl 0)).andThen
      fun _ k₁₀ h₁₀ => ?_
    obtain ⟨T₁₀, hT₁₀, h₁₀, _⟩ := h₁₀
    exact end_settled ⟨T₁₀, hT₁₀, h₁₀⟩

/-! ## Removing a name -/

theorem unlinkBad_wp (hT : Tree strict noDebt none T) (h : Mem R H (i :: own) none none T k) :
    wp (unlinkBad i) (fun _ k' => Settled strict R H own k') Safe k := by
  unfold unlinkBad
  exact put_end hT h

/-- One less than a count that owes something. -/
theorem lower_wp (hT : Tree strict (owe debt i 1) none T) (h : Mem R H own none none T k)
    (hi : i ∈ own) (hd : 0 ≤ debt i) :
    wp (setNlink i (· - 1)) (fun _ k' => ∃ n, Tree strict debt none (T.setNlink i n) ∧
      Mem R H own none none (T.setNlink i n) k') Safe k := by
  have hu := h.used_of_mem hi
  have hl := hT.links hu
  rw [owe_self] at hl
  have hr := hT.range hu
  refine (setNlink_wp (n := (T.disk i).nlink - 1) h hi (Option.some_ne_none i).symm
    (short_eq (by omega) (by omega))).mono fun _ k₁ h₁ => ⟨_, ?_, h₁⟩
  have hT₁ := hT.setNlink (n := (T.disk i).nlink - 1) hu (by omega)
  rw [owe_owe, show (1 : Int) + ((T.disk i).nlink - 1 - (T.disk i).nlink) = 0 by omega,
    owe_zero] at hT₁
  exact hT₁

theorem unlinkAt_wp (hT : Tree strict noDebt none T) (h : Mem R H [ip, dp] none none T k)
    (hd : T.IsDir dp) {off : Nat} (h2 : 2 ≤ off) {e : Dirent}
    (he : (T.disk dp).entries[off]? = some e) (hip : e.inum = ip)
    (hst : strict → T.IsDir ip → (∀ e' ∈ T.kids ip, e'.inum = 0) ∧
      ∀ d, T.IsDir d → T.upOf d ≠ ip) :
    wp (unlinkAt dp ip off) (fun _ k' => Settled strict R H [] k') Safe k := by
  have hip0 : ip ≠ 0 := hT.ne_zero (h.used_of_mem List.mem_cons_self)
  have hone : ∀ j, (0 : Int) ≤ owe noDebt ip 1 j :=
    owe_nonneg (fun _ => Int.le_refl 0) ip Int.one_nonneg
  -- the child: its last link
  have hchild : ∀ {T₁ : Fs} {k₁ : Kernel}, Tree strict (owe noDebt ip 1) none T₁ →
      Mem R H [ip, dp] none none T₁ k₁ → wp (do
        iunlockput dp
        setNlink ip (· - 1)
        iunlockput ip
        end_op
        pure (0 : Int)) (fun _ k' => Settled strict R H [] k') Safe k₁ := by
    intro T₁ k₁ hT₁ h₁
    refine (iunlockput_tree hT₁ h₁.swap (hone dp)).andThen fun _ k₂ h₂ => ?_
    obtain ⟨T₂, hT₂, h₂, _⟩ := h₂
    refine (lower_wp hT₂ h₂ List.mem_cons_self (Int.le_refl 0)).andThen fun _ k₃ h₃ => ?_
    obtain ⟨n, hT₃, h₃⟩ := h₃
    exact put_end hT₃ h₃
  have hdp : dp ∈ [ip, dp] := List.mem_cons_of_mem ip List.mem_cons_self
  unfold unlinkAt
  refine (writei_wp h hdp (Option.some_ne_none dp).symm).andThen fun ok k₁ h₁ => ?_
  rcases h₁ with ⟨rfl, h₁⟩ | ⟨rfl, _, h₁⟩
  · exact h₁.safe Halt.noConfusion
  have hT₁ : Tree strict _ none (T.put dp off ⟨0, List.replicate DIRSIZ 0⟩) :=
    hT.unlink hd (Option.some_ne_none dp).symm h2 he (hip ▸ hip0) rfl
      fun hs hdi => hip ▸ hst hs (hip ▸ hdi)
  rw [hip] at hT₁
  rw [if_neg (by decide), wp_bind, wp_get]
  have htype : (k₁.itable ip).type = .T_DIR ↔ T.IsDir ip := by
    rw [(h₁.agrees_of_mem List.mem_cons_self (Option.some_ne_none ip).symm).1]
    exact Fs.put_isDir ip
  dsimp only
  rw [wp_ite]
  refine ⟨fun ht => ?_, fun ht => ?_⟩
  · rw [if_pos (htype.mp ht)] at hT₁
    refine (lower_wp hT₁ h₁ hdp (hone dp)).andThen fun _ k₂ h₂ => ?_
    obtain ⟨n, hT₂, h₂⟩ := h₂
    exact hchild hT₂ h₂
  · rw [if_neg fun hc => ht (htype.mpr hc), owe_zero] at hT₁
    exact hchild hT₁ h₁

theorem sysUnlink_wp (hT : Tree strict noDebt none T) (h : Mem R R.holders [] none none T k)
    {path : Option Str} (hok : ∀ s, path = some s → PathOk R T p true s)
    (hst : strict → ∀ s, path = some s → NoOrphan R T p s) :
    wp (sysUnlink p path) (fun _ k' => Settled strict R R.holders [] k') Safe k := by
  unfold sysUnlink
  match path with
  | none => exact ⟨T, hT, h⟩
  | some path =>
  simp only
  refine (begin_op_wp h).andThen fun _ k₁ h₁ => ?_
  refine (nameiparent_wp hT h₁ (holders_cwd R p) (hok path rfl)).andThen fun r k₂ h₂ => ?_
  match r, h₂ with
  | none, h₂ => exact end_settled ⟨T, hT, h₂⟩
  | some (dp, name), ⟨h₂, _, hd, harr, hlast⟩ =>
  simp only
  refine (ilock_wp h₂ List.mem_cons_self fun j hj =>
    absurd hj.symm (Option.some_ne_none j)).andThen fun _ k₃ h₃ => ?_
  rw [wp_ite]
  refine ⟨fun _ => unlinkBad_wp hT h₃, fun hname => ?_⟩
  have hatt : T.Attached (dp, name) := fun hc => absurd (.inr hc) hname
  refine (dirlookup_wp h₃ List.mem_cons_self fun _ off hso =>
    (hT.lookup hd (Option.some_ne_none dp).symm hso hatt).1).andThen fun r k₄ h₄ => ?_
  match r, h₄.2 with
  | none, ⟨_, h₄⟩ => exact unlinkBad_wp hT h₄
  | some (ip, off), ⟨hso, hip, h₄⟩ =>
  simp only
  refine (ilock_wp h₄ List.mem_cons_self fun j hj => (unread_eq hj).1).andThen fun _ k₅ h₅ => ?_
  rw [wp_bind, wp_get, wp_ite]
  refine ⟨fun _ => h₅.safe Halt.noConfusion, fun _ => ?_⟩
  have hag := (h₅.agrees_of_mem (i := ip) List.mem_cons_self (Option.some_ne_none ip).symm).1
  rw [wp_ite]
  refine ⟨fun _ => ?_, fun hempty => ?_⟩
  · refine (iunlockput_tree hT h₅ (Int.le_refl 0)).andThen fun _ k₆ h₆ => ?_
    obtain ⟨T₆, hT₆, h₆, _⟩ := h₆
    exact unlinkBad_wp hT₆ h₆
  -- neither `.` nor `..`, so the slot is one of the others
  obtain ⟨hdots, hup0⟩ := hT.dots hd (Option.some_ne_none dp).symm
  have hslot := Fs.slotOf_dotted hdots (hT.ne_zero hd.used) hup0 hso
  rw [← namecmp_eq_zero, ← namecmp_eq_zero] at hslot
  rcases hslot with ⟨hn, _⟩ | ⟨hn, _⟩ | ⟨_, _, h2, _, _, de, _, hde, hinum⟩
  · exact absurd (.inl hn) hname
  · exact absurd (.inr hn) hname
  have hall : T.IsDir ip → T.isdirempty ip = true := fun hdi => by
    rw [← h₅.fs]
    exact Bool.eq_true_of_not_eq_false fun hc => hempty ⟨hag.trans hdi, hc⟩
  have hchild : T.child dp name = some ip := by
    unfold Fs.child
    rw [hso, hip]
    rfl
  refine unlinkAt_wp hT h₅ hd h2 hde (hinum.trans hip.symm) fun hs hdi => ⟨fun e' he' => ?_, ?_⟩
  · have hnone := hall hdi
    unfold Fs.isdirempty at hnone
    rw [List.all_eq_true] at hnone
    rw [Fs.kids_of_dir hdi] at he'
    exact of_decide_eq_true (hnone e' he')
  · exact fun d hdd => hst hs path rfl dp harr name hlast (fun hc => hname (.inl hc))
      (fun hc => hname (.inr hc)) ip hchild hdi (hall hdi) d (hT.bound hdd.used).2 hdd

end Xv6.Names
