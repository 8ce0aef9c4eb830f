import Xv6.Vm.Argv
import Xv6.Vm.World
import Xv6.Files.Content

/-!
# `kexec` is all or nothing

Until the last step the old address space is untouched: `kexec` works on the pages that
were free when it was called, and `bad` gives back all of them. The last step swaps the
two address spaces and frees the old one, and cannot fail.

> `kexec_all_or_nothing`: on any file `kexec` does not panic; -1 leaves the process, the
> inode and the log as they were and every page free that was; otherwise the process
> has the new address space, and the old one is free.

The file is a list of bytes; `readi_bytesOf` says that it is what the `readi` of the file
system reads.
-/

namespace Xv6.Vm

open Lib

variable {D P : Frame → Prop} {root : Frame} {k k' : Kmem} {s s' : Calling}
  {file : Option (List UInt8)} {path : List UInt8} {argv : List (List UInt8)} {us : List Nat}
  {sz sp entry a f o v : Nat} {m : Me} {pt : Option Frame} {held : Bool}

/-- No call stops. -/
def NoStop : Panic → Calling → Prop := fun _ _ => False

theorem onMem_wp {α : Type} {c : Kern α} {Q : α → Kmem → Prop} (h : wp c Q NoPanic s.kmem) :
    wp (onMem c) (fun r s' => ∃ k', s' = { s with kmem := k' } ∧ Q r k') NoStop s := by
  unfold onMem
  rw [wp_zoom]
  exact h.mono fun r k' hr => ⟨k', rfl, hr⟩

/-- Nothing but memory has changed, and only where it was free. -/
structure Worked (P : Frame → Prop) (s s' : Calling) : Prop where
  is : s' = { s with kmem := s'.kmem }
  framed : Framed P s.kmem s'.kmem

/-! ## `bad` -/

/-- In an operation, with the inode locked. -/
def Calling.opened (s : Calling) (k : Kmem) : Calling :=
  { s with kmem := k, outstanding := s.outstanding + 1, ref := s.ref + 1, locked := true }

/-- `iunlockput(ip)` and `end_op()` undo `begin_op()`, `namei` and `ilock(ip)`. -/
theorem close_wp {Q : PUnit → Calling → Prop} (hul : s.locked = false)
    (h : Q ⟨⟩ { s with kmem := k }) : wp (do iunlockput; end_op) Q NoStop (s.opened k) := by
  have hs : { s with kmem := k } = Calling.mk k s.outstanding s.ref false s.proc := by rw [← hul]
  unfold iunlockput end_op
  simp only [wp_bind, wp_get, wp_ite, wp_modify]
  refine ⟨fun hc => ?_, fun _ => ?_⟩
  · rcases hc with hc | hc
    · exact absurd hc.symm Bool.false_ne_true
    · exact absurd hc (Nat.succ_ne_zero s.ref)
  · rw [hs] at h
    exact h

/-- What `bad` has to give back. -/
def Owed (P : Frame → Prop) (pt : Option Frame) (sz : Nat) (k : Kmem) : Prop :=
  match pt with
  | none => Pool P [] k
  | some root => Space P [] root k ∧ Sized root sz k

/-- **`bad`** gives back what there is of the new address space. -/
theorem bad_spec (hul : s.locked = false) (h : Owed P pt sz k) (hf : Framed P s.kmem k) :
    wp (bad pt sz held) (fun _ s' => Worked P s s' ∧ Pool P [] s'.kmem) NoStop
      (if held = true then s.opened k else { s with kmem := k }) := by
  have hip : ∀ k', Pool P [] k' → Framed P k k' → wp (badIp held)
      (fun _ s' => Worked P s s' ∧ Pool P [] s'.kmem) NoStop
      (if held = true then s.opened k' else { s with kmem := k' }) := by
    intro k' hp hf'
    unfold badIp
    cases held with
    | false => exact ⟨⟨rfl, hf.trans hf'⟩, hp⟩
    | true => exact close_wp hul ⟨⟨rfl, hf.trans hf'⟩, hp⟩
  unfold bad
  cases pt with
  | none => exact hip k h (Framed.refl P k)
  | some root =>
    have hfree := proc_freepagetable_space h.1 h.2
    cases held with
    | false =>
      refine (onMem_wp hfree).andThen fun _ s₁ h₁ => ?_
      obtain ⟨k₁, rfl, hp₁, hf₁⟩ := h₁
      exact hip k₁ hp₁ hf₁
    | true =>
      refine (@onMem_wp (s.opened k) _ _ _ hfree).andThen fun _ s₁ h₁ => ?_
      obtain ⟨k₁, rfl, hp₁, hf₁⟩ := h₁
      exact hip k₁ hp₁ hf₁

/-! ## The image and the stack -/

/-- What holds when `kexec` is called. -/
structure Callable (D : Frame → Prop) (s : Calling) : Prop where
  space : Space D [] s.proc.pagetable s.kmem
  sized : Sized s.proc.pagetable s.proc.sz s.kmem
  low : 0 < s.kmem.low
  /-- The trapframe is a page of the kernel. -/
  trapframe : ¬D s.proc.trapframe
  trapframe_lt : s.proc.trapframe < PHYSTOP / PGSIZE
  trampoline_lt : s.kmem.trampoline < PHYSTOP / PGSIZE
  unlocked : s.locked = false

/-- What `loadImage` leaves. -/
def Loaded (P : Frame → Prop) (s : Calling) (r : Option (Frame × Nat × Nat))
    (s' : Calling) : Prop :=
  Worked P s s' ∧ match r with
    | none => Pool P [] s'.kmem
    | some (root, sz, _) => Ready P [] root sz s'.kmem

theorem loadImage_spec (hpool : Pool P [] s.kmem) (hlow : 0 < s.kmem.low)
    (htf : s.proc.trapframe < PHYSTOP / PGSIZE) (htr : s.kmem.trampoline < PHYSTOP / PGSIZE)
    (hul : s.locked = false) : wp (loadImage file) (Loaded P s) NoStop s := by
  have hmem : PHYSTOP / PGSIZE < 2 ^ 52 := by decide
  unfold loadImage begin_op
  rw [wp_bind, wp_modify]
  cases file with
  | none => exact ⟨⟨rfl, Framed.refl P s.kmem⟩, hpool⟩
  | some content =>
    unfold namei
    simp only [wp_bind, wp_modify, wp_pure]
    unfold ilock
    simp only [wp_bind, wp_get, wp_ite, wp_modify]
    refine ⟨fun hc => absurd hc (Nat.succ_ne_zero s.ref), fun _ => ?_⟩
    have hno : ∀ {pt sz k}, Owed P pt sz k → Framed P s.kmem k →
        wp (bad pt sz true) (fun _ s' => Loaded P s none s') NoStop (s.opened k) :=
      fun h hf => @bad_spec P _ s _ _ true hul h hf
    refine ⟨fun _ => @hno none 0 s.kmem hpool (Framed.refl P s.kmem), fun _ => ?_⟩
    refine (@onMem_wp (s.opened s.kmem) _ _ _ (proc_pagetable_space hpool (Nat.lt_trans htr hmem)
      (Nat.lt_trans htf hmem))).mono fun r s₁ h₁ => ?_
    obtain ⟨k₁, rfl, hf₁, h₁⟩ := h₁
    cases r with
    | none => exact (wp_bind _ _).mpr (@hno none 0 k₁ h₁ hf₁)
    | some root =>
      obtain ⟨hs₁, hbare⟩ := h₁
      have himg₁ : Image P [] root 0 k₁ :=
        ⟨hs₁, hbare.sized, fun _ _ hlt => absurd hlt (Nat.not_lt_zero _), hf₁.low ▸ hlow⟩
      rw [wp_bind]
      refine (@onMem_wp (s.opened k₁) _ _ _ (loadPhdrs_image _ himg₁)).mono fun r s₂ h₂ => ?_
      obtain ⟨k₂, rfl, himg₂, hf₂⟩ := h₂
      obtain ⟨sz, ok⟩ := r
      have hf₂ := hf₁.trans hf₂
      show wp (if ok = false then _ else _) _ _ _
      rw [wp_ite]
      refine ⟨fun _ => (wp_bind _ _).mpr (@hno (some root) sz k₂ ⟨himg₂.space, himg₂.sized⟩ hf₂),
        fun _ => ?_⟩
      -- the inode is put here; `bad` has only the page table to free
      have hmax := himg₂.sized.max
      have hmod := PGROUNDUP_mod sz
      have himg₃ : Image P [] root (PGROUNDUP sz) k₂ := by
        have hround : PGROUNDUP (PGROUNDUP sz) = PGROUNDUP sz :=
          PGROUNDUP_of_mod (PGROUNDUP_le hmax) hmod
        refine ⟨himg₂.space,
          ⟨PGROUNDUP_le hmax, hround.symm ▸ himg₂.sized.below, himg₂.sized.above⟩,
          fun q hq hlt => himg₂.full q hq ?_, himg₂.low⟩
        unfold pages at hlt
        rwa [hround] at hlt
      rw [← bind_assoc]
      refine (wp_bind _ _).mpr (close_wp hul ?_)
      have hfail : ∀ {sz k}, Image P [] root sz k → Framed P s.kmem k →
          wp (bad (some root) sz false) (fun _ s' => Loaded P s none s') NoStop
            { s with kmem := k } :=
        fun h hf => @bad_spec P _ s _ (some root) false hul ⟨h.space, h.sized⟩ hf
      refine (wp_bind _ _).mpr ((@onMem_wp { s with kmem := k₂ } _ _ _ (uvmalloc_image himg₃
        (show PTE_W < 1024 by decide))).mono fun sz1 s₃ h₃ => ?_)
      obtain ⟨k₃, rfl, hf₃, h₃⟩ := h₃
      have hf₃ := hf₂.trans hf₃
      rw [wp_ite]
      rcases h₃ with ⟨rfl, himg₄⟩ | ⟨hsz, himg₄, hg⟩
      · exact ⟨fun _ => (wp_bind _ _).mpr (hfail himg₄ hf₃), fun hc => absurd rfl hc⟩
      have hsz : sz1 = PGROUNDUP sz + (USERSTACK + 1) * PGSIZE :=
        hsz.trans (Nat.max_eq_right (Nat.le_add_right _ _))
      subst hsz
      refine ⟨fun hc => absurd hc
        (Nat.ne_of_gt (Nat.lt_of_lt_of_le (by decide) (Nat.le_add_left _ _))),
        fun _ => ?_⟩
      rw [Nat.add_sub_cancel]
      refine (wp_bind _ _).mpr ((@onMem_wp { s with kmem := k₃ } _ _ _ (hg.ready himg₄ hmod)).mono
        fun _ s₄ h₄ => ?_)
      obtain ⟨k₄, rfl, hready, hf₄⟩ := h₄
      exact ⟨⟨rfl, hf₃.trans hf₄⟩, hready⟩

/-! ## The two address spaces -/

/-- The old address space, and the place of the new one. -/
def Calling.roots (s : Calling) (new : Option Frame) (b : Bool) : Option Frame :=
  if b = true then some s.proc.pagetable else new

theorem roots_update (s : Calling) (x y : Option Frame) :
    Function.update (s.roots x) false y = s.roots y := by
  funext b
  cases b with
  | true => rfl
  | false => rfl

theorem Callable.world (h : Callable D s) : World D [] (s.roots none) s.kmem := h.space.world

theorem part_none : Part (s.roots none) false k f ↔ f ∈ k.freelist := by
  refine ⟨fun hf => hf.elim id fun ⟨p, hp⟩ => ?_, .inl⟩
  exact absurd hp.symm (Option.some_ne_none f)

/-- The fields of the trapframe are set, and nothing else has happened in memory. -/
structure Fielded (tf : Frame) (k k' : Kmem) : Prop where
  mem : ∀ g, g ≠ tf → k'.mem g = k.mem g
  free : k'.freelist = k.freelist
  low : k'.low = k.low
  trampoline : k'.trampoline = k.trampoline

theorem Fielded.field (h : Fielded f k k') (o v : Nat) : Fielded f k (k'.setField f o v) :=
  ⟨fun g hg => (setPage_of_ne hg k' _).trans (h.mem g hg), h.free, h.low, h.trampoline⟩

/-- The page of the trapframe is in no address space. -/
theorem Fielded.tables {roots : Bool → Option Frame} (hk : Fielded f k k') (h : World D [] roots k)
    (hpa : ¬D f) {b : Bool} (hr : roots b = some root) : TablesKept root k k' :=
  tablesKept_of_ne (fun _ hx => hpa (h.split.of_own hx)) hk.mem hr

theorem Fielded.world {roots : Bool → Option Frame} (hk : Fielded f k k') (h : World D [] roots k)
    (hpa : ¬D f) : World D [] roots k' :=
  h.shuffle (fun _ _ hr => hk.tables h hpa hr) hk.low (by rw [hk.free])

theorem get_setField (hv : v < 2 ^ 64) : Bytes.get ((k.setField f o v).mem f) o 8 = v := by
  unfold Kmem.setField
  rw [setPage_self]
  exact Bytes.get_put _ _ _ (Nat.lt_of_lt_of_eq hv (by decide))

theorem get_setField_ne {o' : Nat} (h : o' + 8 ≤ o ∨ o + 8 ≤ o') :
    Bytes.get ((k.setField f o v).mem f) o' 8 = Bytes.get (k.mem f) o' 8 := by
  unfold Kmem.setField
  rw [setPage_self]
  exact Bytes.get_put_ne _ h

/-- What the user reads depends on the tables and the pages mapped. -/
theorem view_congr (h : Space P [] m.pagetable k) (hs : Sized m.pagetable m.sz k)
    (ht : TablesKept m.pagetable k k') (hmem : ∀ p f, k.own m.pagetable p = some f →
      k'.mem f = k.mem f)
    (a : Nat) : k'.view m a = k.view m a := by
  by_cases hmax : MAXVA ≤ a
  · rw [view_of_max hmax, view_of_max hmax]
  have ha := Nat.lt_of_not_le hmax
  have hleaf := ht.leaves (way a) rfl
  cases hw : k.leaf m.pagetable (way a) with
  | none => rw [view_of_none ha hw, view_of_none ha (hleaf.trans hw)]
  | some w =>
    rw [view_of_leaf ha hw, view_of_leaf ha (hleaf.trans hw)]
    split
    next => rfl
    next hu =>
      obtain ⟨hmine, hnode, _⟩ := user_leaf (p := m) h hs rfl hw hu
      rw [hmem _ _ (own_eq_some.mpr ⟨hmine, hnode⟩)]

theorem Marshalled.keep (h : Marshalled m argv sp us k) (hv : ∀ a, k'.view m a = k.view m a) :
    Marshalled m argv sp us k' where
  aligned := h.aligned
  strings := h.strings.imp fun _ _ hs => hs.keep fun b _ _ => hv b
  pointers := h.pointers.keep fun b _ _ => hv b
  fetched i hi := by
    unfold Kmem.fetch
    simp only [hv]
    exact h.fetched i hi
  apart := h.apart
  inside := h.inside

/-- A field of the trapframe of the process. -/
def Calling.trapframe (s : Calling) (o : Nat) : Nat := Bytes.get (s.kmem.mem s.proc.trapframe) o 8

/-- -1 was returned. -/
structure Unchanged (s s' : Calling) : Prop where
  rest : s' = { s with kmem := s'.kmem }
  /-- What was not free has not changed, the trapframe and the old address space with it. -/
  framed : Framed (· ∈ s.kmem.freelist) s.kmem s'.kmem
  free : s'.kmem.freelist.Perm s.kmem.freelist

/-- The process has a new address space. -/
structure Replaced (D : Frame → Prop) (argv : List (List UInt8)) (s s' : Calling) : Prop where
  outstanding : s'.outstanding = s.outstanding
  ref : s'.ref = s.ref
  locked : s'.locked = s.locked
  /-- What is not in the new address space is free. -/
  space : Space D [] s'.proc.pagetable s'.kmem
  sized : Sized s'.proc.pagetable s'.proc.sz s'.kmem
  mapped : ∀ a < s'.proc.sz, s'.kmem.leaf s'.proc.pagetable (way a) ≠ none
  /-- Two pages at the top are the guard and the stack. -/
  guard : ∀ a, s'.proc.sz - (USERSTACK + 1) * PGSIZE ≤ a → a < s'.proc.sz - USERSTACK * PGSIZE →
    s'.kmem.view ⟨s'.proc.sz, s'.proc.pagetable⟩ a = none
  freed : ∀ p f, s.kmem.own s.proc.pagetable p = some f → f ∈ s'.kmem.freelist
  memory : ∀ f, ¬D f → f ≠ s.proc.trapframe → s'.kmem.mem f = s.kmem.mem f
  kernel : s'.proc.trapframe = s.proc.trapframe ∧ s'.kmem.low = s.kmem.low ∧
    s'.kmem.trampoline = s.kmem.trampoline
  args : ∃ sp us, Marshalled ⟨s'.proc.sz, s'.proc.pagetable⟩ argv sp us s'.kmem ∧
    s'.trapframe 120 = sp ∧ s'.trapframe 48 = sp

theorem Pool.unchanged (h : Callable D s) (hp : Pool (Part (s.roots none) false s.kmem) [] s'.kmem)
    (hw : Worked (Part (s.roots none) false s.kmem) s s') : Unchanged s s' where
  rest := hw.is
  framed := ⟨fun f hf => hw.framed.mem f fun hc => hf (part_none.mp hc), hw.framed.low,
    hw.framed.trampoline⟩
  free := by
    refine (List.perm_ext_iff_of_nodup hp.nodup h.world.rest.nodup).mpr fun f => ?_
    rw [← part_none, hp.mem, List.nil_append]

/-! ## The last step -/

/-- The pages below the size, by their addresses. -/
theorem Ready.addr (h : Ready P [] root sz k) (ha : a < sz) : k.leaf root (way a) ≠ none := by
  refine h.mapped (way a) rfl ?_
  have hmax := h.sized.max
  have hround := le_PGROUNDUP hmax
  have hmul := pages_mul sz
  rw [TRAPFRAME_eq] at hmax
  rw [pageOf_way (by omega)]
  show a / PGSIZE < pages sz
  rw [PGSIZE_eq] at hmul ⊢
  omega

/-- The user cannot read the guard page. -/
theorem Ready.unread (h : Ready P [] root sz k) (hlo : sz - (USERSTACK + 1) * PGSIZE ≤ a)
    (hhi : a < sz - USERSTACK * PGSIZE) : k.view ⟨sz, root⟩ a = none := by
  have hmax := h.sized.max
  have hmod := h.mod
  have hroom := h.room
  have hguard := h.guard
  rw [TRAPFRAME_eq] at hmax
  rw [stack_size.1] at hroom hlo hguard
  rw [stack_size.2] at hhi
  rw [PGSIZE_eq] at hmod
  have ha : a < MAXVA := by
    rw [MAXVA_eq]
    omega
  have hbase : sz - 8192 < MAXVA := by
    rw [MAXVA_eq]
    omega
  have hpage : a / 4096 = (sz - 8192) / 4096 := by omega
  have hway := (way_eq_iff hbase ha).mpr hpage
  cases hw : k.leaf root (way a) with
  | none => exact absurd hw (h.addr (by omega))
  | some w =>
    have hzero := hguard w ((congrArg (k.leaf root) hway).symm.trans hw)
    exact (@view_of_leaf k w a ⟨sz, root⟩ ha hw).trans (if_pos hzero)

theorem commit_spec (h : Callable D s) (hr : Ready (Part (s.roots none) false s.kmem) [] root sz k)
    (hf : Framed (Part (s.roots none) false s.kmem) s.kmem k)
    (hm : Marshalled ⟨sz, root⟩ argv sp us k) :
    wp (commit root sz entry sp path) (fun _ s' => Replaced D argv s s') NoStop
      { s with kmem := k } := by
  have hworld : World D [] (s.roots (some root)) k := by
    rw [← roots_update s none (some root)]
    exact h.world.framed hf hr.space
  have hsp : sp < 2 ^ 64 := by
    have hin := hm.inside (sp, (argv.length + 1) * 8)
      (List.mem_append_right _ (List.mem_singleton_self _))
    have hmax := hr.sized.max
    have hle : sp ≤ sz := Nat.le_trans (Nat.le_add_right _ _) hin.2
    rw [TRAPFRAME_eq] at hmax
    omega
  unfold commit setTrapframe
  simp only [wp_bind, wp_modify, wp_get]
  have hfield : Fielded s.proc.trapframe k (((k.setField s.proc.trapframe 120 sp).setField
      s.proc.trapframe 24 entry).setField s.proc.trapframe 48 sp) :=
    (((⟨fun _ _ => rfl, rfl, rfl, rfl⟩ : Fielded s.proc.trapframe k k).field 120 sp).field 24
      entry).field 48 sp
  have hsp₂ :=
    @get_setField ((k.setField s.proc.trapframe 120 sp).setField s.proc.trapframe 24 entry)
    s.proc.trapframe 48 sp hsp
  have ha1₂ : Bytes.get ((((k.setField s.proc.trapframe 120 sp).setField
      s.proc.trapframe 24 entry).setField s.proc.trapframe 48 sp).mem
        s.proc.trapframe) 120 8 = sp := by
    rw [get_setField_ne (by omega), get_setField_ne (by omega), get_setField hsp]
  generalize (((k.setField s.proc.trapframe 120 sp).setField
      s.proc.trapframe 24 entry).setField s.proc.trapframe 48 sp) = k₂ at *
  have hw₂ := hfield.world hworld h.trapframe
  -- the old address space has not changed
  have hold : TablesKept s.proc.pagetable s.kmem k₂ := fun p t hp ht =>
    have hk := h.world.others hf (show true ≠ false by decide)
      (show s.roots none true = some s.proc.pagetable from rfl)
    (hfield.tables hworld h.trapframe (b := true) rfl p t hp ((hk.node (by omega)).trans ht)).trans
      (hk p t hp ht)
  refine (onMem_wp
    (proc_freepagetable_space (hw₂.space (i := true) rfl) (hold.leaves.sized h.sized))).mono
    fun _ s₃ h₃ => ?_
  obtain ⟨k₃, rfl, hp₃, hf₃⟩ := h₃
  have hw₃ := hw₂.framed (x := none) hf₃ hp₃
  have hspace : Space D [] root k₃ := hw₃.alone (i := false) rfl fun j hj => by
    cases j with
    | true => rfl
    | false => exact absurd rfl hj
  -- nor the new one, when the old one is freed
  have hnew₂ := hfield.tables hworld h.trapframe (b := false) rfl
  have hsame : ∀ p f, k.own root p = some f → k₃.mem f = k.mem f := by
    intro p f hp
    have hD : D f := hworld.split.of_own ((ownAt_of_some (i := false) rfl p).trans hp)
    have hown : k₂.ownAt (s.roots (some root)) (false, p) = some f :=
      (ownAt_of_some rfl p).trans ((hnew₂.own p).trans hp)
    rw [hf₃.mem f (hw₂.not_part (by decide) hown), hfield.mem f fun he => h.trapframe (he ▸ hD)]
  have hnew : TablesKept root k k₃ := fun p t hp ht => hsame p t ((own_table hp).trans ht)
  have hsized : Sized root sz k₃ := hnew.leaves.sized hr.sized
  have hview := @view_congr _ k k₃ ⟨sz, root⟩ hr.space hr.sized hnew hsame
  have htf : k₃.mem s.proc.trapframe = k₂.mem s.proc.trapframe :=
    hf₃.mem _ fun hc => h.trapframe (hw₂.of_part hc)
  refine ⟨rfl, rfl, rfl, hspace, hsized, fun a ha => ?_,
    fun a hlo hhi => (hview a).trans (hr.unread hlo hhi),
    fun p f hp => ?_, fun f hfD hne => ?_, ⟨rfl, ?_, ?_⟩, sp, us, hm.keep hview, ?_, ?_⟩
  · exact fun hc => hr.addr ha ((hnew.leaves _ rfl).symm.trans hc)
  · refine List.mem_append.mp ((hp₃.mem f).mp (.inr ⟨p, ?_⟩)) |>.resolve_left List.not_mem_nil
    exact (ownAt_of_some rfl p).trans ((hold.own p).trans hp)
  · show k₃.mem f = s.kmem.mem f
    rw [hf₃.mem f fun hc => hfD (hw₂.of_part hc), hfield.mem f hne,
      hf.mem f fun hc => hfD (h.world.of_part hc)]
  · exact hf₃.low.trans (hfield.low.trans hf.low)
  · exact hf₃.trampoline.trans (hfield.trampoline.trans hf.trampoline)
  · show Bytes.get (k₃.mem s.proc.trapframe) 120 8 = sp
    rw [htf]
    exact ha1₂
  · show Bytes.get (k₃.mem s.proc.trapframe) 48 8 = sp
    rw [htf]
    exact hsp₂

/-! ## The file -/

/-- The bytes of a file as `readi` gives them, when all blocks of the file are there. -/
theorem readi_bytesOf (V : Nat → Mkfs.Block) (d : Mkfs.Dinode) (off n : Nat) :
    readi (Files.bytesOf V d 0 d.size) off n = (Files.readSpec V d off n).2 := by
  have hlen : (Files.bytesOf V d 0 d.size).length = d.size := by
    unfold Files.bytesOf
    rw [List.length_map, List.length_range]
  unfold readi Files.readSpec
  rw [hlen]
  by_cases hin : off ≤ d.size ∧ off + n < 2 ^ 32
  · rw [if_neg (by omega), if_pos hin]
    refine List.ext_getElem? fun j => ?_
    unfold Files.bytesOf
    rw [List.getElem?_take, List.getElem?_drop, List.getElem?_map, List.getElem?_map]
    by_cases hj : j < min (off + n) d.size - off
    · rw [if_pos (by omega), List.getElem?_range (by omega), List.getElem?_range hj,
        Option.map_some,
        Option.map_some, Nat.zero_add]
    · rw [List.getElem?_eq_none (show (List.range (min (off + n) d.size - off)).length ≤ j by
        rw [List.length_range]; omega), Option.map_none]
      split
      next => rw [List.getElem?_eq_none (by rw [List.length_range]; omega), Option.map_none]
      next => rfl
  · rw [if_pos (by omega), if_neg hin]

/-! ## The call -/

/-- The layout of the arguments is more than the stack has. -/
def TooLong (argv : List (List UInt8)) : Prop := USERSTACK * PGSIZE < stackSize argv

/-- **`kexec`**: what it leaves, and when it fails. -/
theorem kexec_spec (h : Callable D s) (hargc : argv.length < MAXARG)
    (hlen : ∀ s ∈ argv, s.length + 1 < 2 ^ 31) :
    wp (kexec file path argv) (fun r s' =>
      (r = none ↔ (∃ s₁, exec (loadImage file) s = (.ok none, s₁)) ∨ TooLong argv) ∧ match r with
      | none => Unchanged s s'
      | some argc => argc = argv.length ∧ Replaced D argv s s') NoStop s := by
  unfold kexec
  refine (loadImage_spec (h.world.pool (i := false) rfl) h.low h.trapframe_lt h.trampoline_lt
    h.unlocked).told.andThen fun r s₁ h₁ => ?_
  obtain ⟨⟨hw, hr⟩, hrun⟩ := h₁
  cases r with
  | none => exact ⟨⟨fun _ => .inl ⟨s₁, hrun⟩, fun _ => rfl⟩, hr.unchanged h hw⟩
  | some r =>
    obtain ⟨root, sz, entry⟩ := r
    have hnot : ∀ s₂, exec (loadImage file) s ≠ (.ok none, s₂) := fun s₂ hc => by
      rw [hrun] at hc
      injection hc with hc
      injection hc with hc
      exact Option.some_ne_none _ hc
    obtain ⟨k₁, rfl⟩ : ∃ k, s₁ = { s with kmem := k } := ⟨_, hw.is⟩
    have hf₁ : Framed (Part (s.roots none) false s.kmem) s.kmem k₁ := hw.framed
    show wp (get >>= fun s => _) _ _ _
    rw [wp_bind, wp_get]
    refine (wp_bind _ _).mpr ((@onMem_wp { s with kmem := k₁ } _ _ _
      (pushArgs_spec hlen hargc hr rfl)).mono fun r s₂ h₂ => ?_)
    obtain ⟨k₂, rfl, hr₂, hf₂, h₂⟩ := h₂
    have hf₂ := hf₁.trans hf₂
    cases r with
    | none =>
      refine (wp_bind _ _).mpr ((@bad_spec _ _ s sz (some root) false h.unlocked
        ⟨hr₂.space, hr₂.sized⟩ hf₂).mono fun _ s₃ h₃ => ?_)
      exact ⟨⟨fun _ => .inr h₂, fun _ => rfl⟩, h₃.2.unchanged h h₃.1⟩
    | some sp =>
      obtain ⟨hfit, us, hm⟩ := h₂
      refine (wp_bind _ _).mpr ((commit_spec h hr₂ hf₂ hm).mono fun _ s₃ h₃ => ?_)
      refine ⟨⟨fun hc => absurd hc (Option.some_ne_none _), fun hc => ?_⟩, rfl, h₃⟩
      rcases hc with ⟨s₄, hc⟩ | hc
      · exact absurd hc (hnot s₄)
      · exact absurd hfit (Nat.not_le_of_lt hc)

/-- **exec is all or nothing**, on any file. -/
theorem kexec_all_or_nothing (h : Callable D s) (hargc : argv.length < MAXARG)
    (hlen : ∀ s ∈ argv, s.length + 1 < 2 ^ 31) :
    wp (kexec file path argv) (fun r s' => match r with
      | none => Unchanged s s'
      | some argc => argc = argv.length ∧ Replaced D argv s s') NoStop s :=
  (kexec_spec h hargc hlen).mono fun _ _ hr => hr.2

/-- A call of `exec` by the process that has touched nothing. -/
def called : Calling where
  kmem := roomy
  outstanding := 0
  ref := 1
  locked := false
  proc := ⟨8192, 524288, 524301, List.replicate 16 0⟩

theorem called_callable : Callable (· ∈ 524288 :: roomy.freelist) called where
  space := roomy_space
  sized := roomy_sized
  low := by decide
  trapframe := by decide
  trapframe_lt := by decide
  trampoline_lt := by decide
  unlocked := rfl

/-- A program of nothing: its header, with no segment. -/
def empty : List UInt8 := [0x7F, 0x45, 0x4C, 0x46] ++ List.replicate 60 0

/-- Two arguments that fill more than a page. -/
def longArgv : List (List UInt8) := List.replicate 2 (List.replicate 3000 97)

theorem exec_empty :
    ∃ s', exec (kexec (some empty) [47, 97] [[104, 105]]) called = (.ok (some 1), s') := by
  have hok : (exec (kexec (some empty) [47, 97] [[104, 105]]) called).1.toOption =
      some (some 1) := by
    decide +kernel
  cases hx : exec (kexec (some empty) [47, 97] [[104, 105]]) called with
  | mk r s' =>
    rw [hx] at hok
    cases r with
    | error e => exact absurd hok.symm (Option.some_ne_none _)
    | ok r =>
      obtain rfl := Option.some.inj hok
      exact ⟨s', rfl⟩

theorem longArgv_length : ∀ s ∈ longArgv, s.length + 1 < 2 ^ 31 := by
  intro s hs
  rw [List.eq_of_mem_replicate hs, List.length_replicate]
  decide

/-- The image is in place, and the second argument does not fit. -/
theorem exec_long : ∃ s', exec (kexec (some empty) [47, 97] longArgv) called = (.ok none, s') := by
  have hlong : TooLong longArgv := by
    unfold TooLong
    decide +kernel
  obtain ⟨r, s', hx, hr⟩ := (@kexec_spec _ called (some empty) [47, 97] longArgv called_callable
    (by decide) longArgv_length).returns fun _ _ he => he
  obtain rfl := hr.1.mpr (.inr hlong)
  exact ⟨s', hx⟩

theorem kexec_all_or_nothing_called :
    (∃ s', exec (kexec (some empty) [47, 97] [[104, 105]]) called = (.ok (some 1), s') ∧
      Replaced (· ∈ 524288 :: roomy.freelist) [[104, 105]] called s') ∧
    ∃ s', exec (kexec (some empty) [47, 97] longArgv) called = (.ok none, s') ∧
      Unchanged called s' := by
  obtain ⟨s₁, h₁⟩ := exec_empty
  obtain ⟨s₂, h₂⟩ := exec_long
  have hnew := (kexec_all_or_nothing called_callable (by decide) (by decide)).of_ok h₁
  exact ⟨⟨s₁, h₁, hnew.2⟩, s₂, h₂,
    (kexec_all_or_nothing called_callable (by decide) longArgv_length).of_ok h₂⟩

/-! ## The arguments -/

theorem exec_ok_none_iff {r₀ : Prop} {c : Call (Option Nat)}
    (h : wp c (fun r _ => r = none ↔ r₀) NoStop s) : (exec c s).1 = .ok none ↔ r₀ := by
  unfold wp at h
  cases hc : exec c s with
  | mk r s' =>
    rw [hc] at h
    cases r with
    | error e => exact h.elim
    | ok a => exact ⟨fun he => h.mp (Except.ok.inj he), fun h₀ => congrArg Except.ok (h.mpr h₀)⟩

theorem not_tooLong_nil : ¬TooLong [] := by
  unfold TooLong
  decide

/-- **exec passes the arguments on**: they are on the stack of the new program, one below
the other, and `exec` fails where it would fail without them or where they do not fit. -/
theorem kexec_marshals (h : Callable D s) (hargc : argv.length < MAXARG)
    (hlen : ∀ s ∈ argv, s.length + 1 < 2 ^ 31) :
    wp (kexec file path argv) (fun r s' => ∀ argc, r = some argc → argc = argv.length ∧
      ∃ sp us, s'.trapframe 120 = sp ∧ s'.trapframe 48 = sp ∧
        Marshalled ⟨s'.proc.sz, s'.proc.pagetable⟩ argv sp us s'.kmem ∧
        ∀ a, s'.proc.sz - (USERSTACK + 1) * PGSIZE ≤ a → a < s'.proc.sz - USERSTACK * PGSIZE →
          s'.kmem.view ⟨s'.proc.sz, s'.proc.pagetable⟩ a = none) NoStop s ∧
    ((exec (kexec file path argv) s).1 = .ok none ↔
      (exec (kexec file path []) s).1 = .ok none ∨ TooLong argv) := by
  have hargs := @kexec_spec D s file path argv h hargc hlen
  have hnone := @kexec_spec D s file path [] h (by decide) fun _ hs => absurd hs List.not_mem_nil
  constructor
  · refine hargs.mono fun r s' hr argc hc => ?_
    subst hc
    obtain ⟨hargc', hrep⟩ := hr.2
    obtain ⟨sp, us, hm, ha1, hsp⟩ := hrep.args
    exact ⟨hargc', sp, us, ha1, hsp, hm, hrep.guard⟩
  · rw [exec_ok_none_iff (hargs.mono fun _ _ hr => hr.1),
      exec_ok_none_iff (hnone.mono fun _ _ hr => hr.1),
      or_iff_left not_tooLong_nil]

theorem kexec_marshals_called :
    (∃ s', exec (kexec (some empty) [47, 97] [[104, 105]]) called = (.ok (some 1), s') ∧
      ∃ sp us, s'.trapframe 120 = sp ∧
        Marshalled ⟨s'.proc.sz, s'.proc.pagetable⟩ [[104, 105]] sp us s'.kmem) ∧
    ((exec (kexec (some empty) [47, 97] longArgv) called).1 = .ok none ↔
      (exec (kexec (some empty) [47, 97] []) called).1 = .ok none ∨ TooLong longArgv) := by
  obtain ⟨s', hx⟩ := exec_empty
  obtain ⟨-, sp, us, ha1, -, hm, -⟩ :=
    (kexec_marshals called_callable (by decide) (by decide)).1.of_ok hx 1 rfl
  exact ⟨⟨s', hx, sp, us, ha1, hm⟩,
    (kexec_marshals called_callable (by decide) longArgv_length).2⟩

end Xv6.Vm
