import Xv6.Vm.Free
import Xv6.Vm.Copy

/-!
# Faults, `sbrk`, and copying to and from user memory

Each of these keeps an address space what it is: the division of its pages, its size
above its pages, and everything that is not its own (`Kept`). A page is mapped at a
fault only where none is and only below `p->sz`.
-/

namespace Xv6.Vm

open Lib

variable {D : Frame → Prop} {held : List Frame} {root f pa : Frame} {k k' k'' : Kmem}
  {q : List (Fin 512)} {w : Pte} {sz newsz va : Nat} {perm : Nat} {p : Me}

/-- An address space of this size, after a call that began in `k`. -/
structure Kept (D : Frame → Prop) (held : List Frame) (root sz : Nat) (k k' : Kmem) : Prop where
  space : Space D held root k'
  sized : Sized root sz k'
  framed : Framed D k k'

theorem Kept.refl (h : Space D held root k) (hs : Sized root sz k) : Kept D held root sz k k :=
  ⟨h, hs, Framed.refl D k⟩

theorem Kept.trans {sz' : Nat} (h : Kept D held root sz k k') (h' : Kept D held root sz' k' k'') :
    Kept D held root sz' k k'' := ⟨h'.space, h'.sized, h.framed.trans h'.framed⟩

theorem Undone.kept (hu : Undone D held root k k') (h : Space D held root k)
    (hs : Sized root sz k) : Kept D held root sz k k' :=
  ⟨hu.space, hu.leaves.sized hs, hu.calm.framed h⟩

/-! ## Growing and shrinking -/

theorem Grown.kept (hg : Grown D held root perm (PGROUNDUP sz) (PGROUNDUP newsz) k k')
    (h : Space D held root k) (hs : Sized root sz k) (hle : sz ≤ newsz) (hnew : newsz ≤ TRAPFRAME) :
    Kept D held root newsz k k' := by
  have hmono := pages_mono hle hnew
  have hmax := pages_le hnew
  refine ⟨hg.space, ⟨hnew, fun q hq hlo hu => ?_, fun q w hq hu hw => ?_⟩, hg.calm.framed h⟩
  · have hlo : pages newsz ≤ pageOf q := hlo
    rw [hg.old q hq fun hc => Nat.not_lt_of_le hlo hc.2]
    exact hs.below q hq (Nat.le_trans hmono hlo) hu
  · rw [hg.old q hq fun hc => Nat.not_lt_of_le (Nat.le_trans hmax hu) hc.2] at hw
    exact hs.above q w hq hu hw

theorem Unmapped.kept (hu : Unmapped root (PGROUNDUP newsz) (pages sz - pages newsz) k k')
    (h : Space D held root k) (h' : Space D held root k') (hs : Sized root sz k)
    (hle : newsz ≤ sz) : Kept D held root newsz k k' := by
  have hmono := pages_mono hle hs.max
  have hmax := pages_le hs.max
  have hin : ∀ q, Within (PGROUNDUP newsz) (pages sz - pages newsz) q ↔
      pages newsz ≤ pageOf q ∧ pageOf q < pages sz := by
    intro q
    show (pages newsz ≤ _ ∧ _ < pages newsz + _) ↔ _
    omega
  refine ⟨h', ⟨Nat.le_trans hle hs.max, fun q hq hlo hut => ?_, fun q w hq hut hw => ?_⟩,
    hu.framed h ?_⟩
  · rw [hu.leaf q hq]
    split
    next => rfl
    next hw =>
      refine hs.below q hq (Nat.le_of_not_lt fun hc => hw ((hin q).mpr ⟨hlo, hc⟩)) hut
  · rw [hu.leaf q hq, if_neg fun hc => Nat.not_lt_of_le (Nat.le_trans hmax hut)
      ((hin q).mp hc).2] at hw
    exact hs.above q w hq hut hw
  · show pages newsz + _ ≤ _
    omega

theorem uvmalloc_kept (h : Space D held root k) (hs : Sized root sz k) (hx : perm < 1024)
    (hnew : newsz ≤ TRAPFRAME) : wp (uvmalloc root sz newsz perm) (fun r k' =>
      (r = 0 ∧ Kept D held root sz k k') ∨ Kept D held root r k k') NoPanic k := by
  have hperm : PTE_R ||| PTE_U ||| perm < 1024 := Nat.or_lt_two_pow (n := 10) (by decide) hx
  by_cases hle : sz ≤ newsz
  · refine (uvmalloc_space h hperm hle hnew hs.below).mono fun r k' h' => ?_
    rcases h' with ⟨hr, hu⟩ | ⟨rfl, hg⟩
    · exact .inl ⟨hr, hu.kept h hs⟩
    · exact .inr (hg.kept h hs hle hnew)
  · unfold uvmalloc
    rw [if_pos (Nat.lt_of_not_le hle)]
    exact .inr (Kept.refl h hs)

theorem uvmdealloc_kept (h : Space D held root k) (hs : Sized root sz k) :
    wp (uvmdealloc root sz newsz) (fun r k' => Kept D held root r k k') NoPanic k := by
  by_cases hle : newsz ≤ sz
  · refine (uvmdealloc_space h hle hs.max).mono fun r k' h' => ?_
    rw [h'.1]
    exact h'.2.2.kept h h'.2.1 hs hle
  · refine (uvmdealloc_same (Nat.le_of_lt (Nat.lt_of_not_le hle))).mono fun r k' h' => ?_
    rw [h'.1, h'.2]
    exact Kept.refl h hs

/-- A larger size fits too. -/
theorem Sized.grow (h : Sized root sz k) (hle : sz ≤ newsz) (hnew : newsz ≤ TRAPFRAME) :
    Sized root newsz k where
  max := hnew
  below q hq hlo hu := h.below q hq (Nat.le_trans (pages_mono hle hnew) hlo) hu
  above := h.above

theorem growproc_kept (h : Space D held p.pagetable k) (hs : Sized p.pagetable p.sz k) (n : Int) :
    wp (growproc p n) (fun r k' => Kept D held p.pagetable r.2 k k') NoPanic k := by
  have hsame := Kept.refl h hs
  unfold growproc
  rw [wp_ite]
  refine ⟨fun _ => ?_, fun _ => ?_⟩
  · rw [wp_ite]
    refine ⟨fun _ => hsame, fun hle => ?_⟩
    refine (uvmalloc_kept h hs (by decide) (Nat.le_of_not_lt hle)).andThen fun r k' h' => ?_
    rw [wp_ite]
    rcases h' with ⟨hr, hk⟩ | hk
    · exact ⟨fun _ => hk, fun hc => absurd hr hc⟩
    · refine ⟨fun hr => ?_, fun _ => hk⟩
      -- the new size was 0
      exact ⟨hk.space, hk.sized.grow (hr ▸ Nat.zero_le _) hs.max, hk.framed⟩
  · rw [wp_ite]
    refine ⟨fun _ => ?_, fun _ => hsame⟩
    exact (uvmdealloc_kept h hs).andThen fun r k' h' => h'

theorem sys_sbrk_kept (h : Space D held p.pagetable k) (hs : Sized p.pagetable p.sz k) (n t : Int) :
    wp (sys_sbrk p n t) (fun r k' => Kept D held p.pagetable r.2 k k') NoPanic k := by
  have hsame := Kept.refl h hs
  unfold sys_sbrk
  simp only [wp_ite]
  refine ⟨fun _ => ?_, fun _ => ⟨fun _ => hsame, fun hge => ⟨fun _ => hsame, fun hle => ?_⟩⟩⟩
  · refine (growproc_kept h hs n).andThen fun r k' h' => ?_
    obtain ⟨ok, sz⟩ := r
    simp only [wp_ite, wp_pure]
    exact ⟨fun _ => h', fun _ => h'⟩
  · exact ⟨h, hs.grow (Nat.le_of_not_lt hge) (Nat.le_of_not_lt hle), Framed.refl D k⟩

/-! ## Looking up -/

/-- What `walkaddr` finds. -/
def Kmem.addrOf (k : Kmem) (root va : Nat) : Frame :=
  if MAXVA ≤ va then 0
  else
    match k.leaf root (way va) with
    | none => 0
    | some w => if w &&& PTE_U = 0 then 0 else PTE2PA w

theorem walkaddr_wp (root va : Nat) :
    wp (walkaddr root va) (fun r k' => k' = k ∧ r = k.addrOf root va) NoPanic k := by
  unfold walkaddr Kmem.addrOf
  rw [wp_ite]
  refine ⟨fun hge => by rw [if_pos hge]; exact ⟨rfl, rfl⟩, fun hlt => ?_⟩
  rw [if_neg hlt]
  refine (walk_look (Nat.lt_of_not_le hlt)).andThen fun r k₀ h₀ => ?_
  obtain ⟨rfl, hr⟩ := h₀
  cases r with
  | none =>
    rw [leaf_none_of_none hr]
    exact ⟨rfl, rfl⟩
  | some ti =>
    obtain ⟨t, i⟩ := ti
    obtain ⟨rfl, hn⟩ := hr
    have hentry := leaf_of_found hn
    simp only [wp_bind, wp_get, wp_ite, wp_pure]
    refine ⟨fun hz => ?_, fun hv => ?_⟩
    · rw [leaf_eq_none.mpr (hentry ▸ hz)]
      exact ⟨trivial, rfl⟩
    · rw [leaf_eq_some.mpr ⟨hv, hentry⟩]
      refine ⟨fun hu => ⟨trivial, (if_pos hu).symm⟩, fun hu => ⟨trivial, (if_neg hu).symm⟩⟩

theorem ismapped_wp (hva : va < MAXVA) : wp (ismapped root va)
    (fun r k' => k' = k ∧ (r = false ↔ k.leaf root (way va) = none)) NoPanic k := by
  unfold ismapped
  refine (walk_look hva).andThen fun r k₀ h₀ => ?_
  obtain ⟨rfl, hr⟩ := h₀
  cases r with
  | none => exact ⟨rfl, fun _ => leaf_none_of_none hr, fun _ => rfl⟩
  | some ti =>
    obtain ⟨t, i⟩ := ti
    obtain ⟨rfl, hn⟩ := hr
    show wp (get >>= fun k => _) _ _ _
    rw [wp_bind, wp_get, wp_ite, leaf_eq_none, leaf_of_found hn]
    refine ⟨fun hv => ⟨rfl, fun hc => absurd hc.symm Bool.false_ne_true, fun hz => absurd hz hv⟩,
      fun hz => ⟨rfl, fun _ => not_not.mp hz, fun _ => rfl⟩⟩

/-! ## Faults -/

/-- The page `pa` is mapped at `va`, among the pages of the process. -/
def MappedAt (root va : Nat) (k : Kmem) (pa : Frame) : Prop :=
  Mine (way va) ∧ va < MAXVA ∧ k.node root (way va) = some pa

/-- The flags of a page that is faulted in. -/
def faultFlags : Nat := PTE_W ||| PTE_U ||| PTE_R

/-- Pages may have been faulted in, full of zeros. -/
structure Grew (D : Frame → Prop) (held : List Frame) (p : Me) (k k' : Kmem) : Prop where
  kept : Kept D held p.pagetable p.sz k k'
  calm : Calm p.pagetable k k'
  leaves : ∀ q, q.length = 3 → k'.leaf p.pagetable q = k.leaf p.pagetable q ∨
    k.leaf p.pagetable q = none ∧ pageOf q * PGSIZE < p.sz ∧
      ∃ f ∈ k.freelist, k'.leaf p.pagetable q = some (entryOf f faultFlags) ∧ k'.mem f = fun _ => 0

theorem Grew.refl (h : Space D held p.pagetable k) (hs : Sized p.pagetable p.sz k) :
    Grew D held p k k := ⟨Kept.refl h hs, Calm.refl p.pagetable k, fun _ _ => .inl rfl⟩

theorem Undone.grew (hu : Undone D held p.pagetable k k') (h : Space D held p.pagetable k)
    (hs : Sized p.pagetable p.sz k) : Grew D held p k k' :=
  ⟨hu.kept h hs, hu.calm, fun q hq => .inl (hu.leaves q hq)⟩

/-- The page at `va` has been faulted in as `pa`. -/
structure FaultedIn (p : Me) (va : Nat) (k k' : Kmem) (pa : Frame) : Prop where
  was : k.leaf p.pagetable (way va) = none
  lt : PGROUNDDOWN va < p.sz
  is : k'.leaf p.pagetable (way va) = some (entryOf pa faultFlags)

theorem vmfault_grew (h : Space D held p.pagetable k) (hs : Sized p.pagetable p.sz k) :
    wp (vmfault p p.pagetable va) (fun r k' => Grew D held p k k' ∧
      (k' = k ∨ k.leaf p.pagetable (way va) = none) ∧
      (r ≠ 0 → FaultedIn p va k k' r)) NoPanic k := by
  have hsame := Grew.refl h hs
  unfold vmfault
  rw [wp_ite]
  refine ⟨fun _ => ⟨hsame, .inl rfl, fun hc => absurd rfl hc⟩, fun hlt => ?_⟩
  have hround : PGROUNDDOWN va < p.sz :=
    Nat.lt_of_le_of_lt (PGROUNDDOWN_le va) (Nat.lt_of_not_le hlt)
  have hva : PGROUNDDOWN va < TRAPFRAME := Nat.lt_of_lt_of_le hround hs.max
  have hmax : PGROUNDDOWN va < MAXVA := Nat.lt_trans hva (by decide)
  have hmod := PGROUNDDOWN_mod va
  refine (ismapped_wp hmax).andThen fun r k₀ h₀ => ?_
  obtain ⟨rfl, hno⟩ := h₀
  rw [wp_ite]
  refine ⟨fun _ => ⟨hsame, .inl rfl, fun hc => absurd rfl hc⟩, fun hr => ?_⟩
  have hno := hno.mp (Bool.eq_false_iff.mpr hr)
  have hwas : k₀.leaf p.pagetable (way va) = none := by
    rw [← way_round]
    exact hno
  have hzero : ∀ k', Undone D held p.pagetable k₀ k' → wp (pure 0) (fun r k' =>
      Grew D held p k₀ k' ∧ (k' = k₀ ∨ k₀.leaf p.pagetable (way va) = none) ∧
      (r ≠ 0 → FaultedIn p va k₀ k' r)) NoPanic k' :=
    fun k' hu => ⟨hu.grew h hs, .inr hwas, fun hc => absurd rfl hc⟩
  unfold faultIn
  refine wp_mapFresh (x := fun _ => 0) h hva hmod hno (by decide) (fun _ _ _ => rfl) hzero hzero
    fun f k' hf hs' hc hl hz => ?_
  have h39 : PGROUNDDOWN va < 2 ^ 39 := Nat.lt_trans hmax (by decide)
  have hpage : pageOf (way (PGROUNDDOWN va)) = va / PGSIZE := by
    rw [pageOf_way h39]
    exact Nat.mul_div_cancel _ (by decide)
  have hnew : k'.leaf p.pagetable (way (PGROUNDDOWN va)) = some (entryOf f faultFlags) := by
    rw [hl _ rfl, if_pos rfl]
    rfl
  refine ⟨⟨⟨hs', ⟨hs.max, fun q hq hlo hu => ?_, fun q w hq hu hw => ?_⟩, hc.framed h⟩, hc,
    fun q hq => ?_⟩, .inr hwas, fun _ => ⟨hwas, hround, ?_⟩⟩
  · rw [hl q hq, if_neg]
    · exact hs.below q hq hlo hu
    · intro he
      rw [he, hpage] at hlo
      have hlt := (lt_pages hs.max (va / PGSIZE)).mpr hround
      exact Nat.not_lt_of_le hlo hlt
  · rw [hl q hq, if_neg] at hw
    · exact hs.above q w hq hu hw
    · intro he
      rw [he] at hu
      rcases mine_way hva hmod with hc | ⟨_, hc⟩
      · exact absurd hc (by decide : ¬3 ≤ 2)
      · exact Nat.not_lt_of_le hu hc
  · by_cases hqv : q = way (PGROUNDDOWN va)
    · subst hqv
      refine .inr ⟨hno, ?_, f, hf, hnew, hz⟩
      rw [hpage]
      exact hround
    · exact .inl ((hl q hq).trans (if_neg hqv))
  · rw [← way_round]
    exact hnew

theorem FaultedIn.mappedAt (hf : FaultedIn p va k k' pa) (hs : Sized p.pagetable p.sz k) :
    MappedAt p.pagetable (PGROUNDDOWN va) k' pa := by
  have hva : PGROUNDDOWN va < TRAPFRAME := Nat.lt_of_lt_of_le hf.lt hs.max
  refine ⟨mine_way hva (PGROUNDDOWN_mod va), Nat.lt_trans hva (by decide), ?_⟩
  rw [way_round, node_of_leaf rfl, hf.is, Option.map_some, PTE2PA_entryOf (by decide)]

theorem vmfault_kept (h : Space D held p.pagetable k) (hs : Sized p.pagetable p.sz k) :
    wp (vmfault p p.pagetable va) (fun r k' => Kept D held p.pagetable p.sz k k' ∧
      (r ≠ 0 → MappedAt p.pagetable (PGROUNDDOWN va) k' r)) NoPanic k :=
  (vmfault_grew h hs).mono fun _ _ hr => ⟨hr.1.kept, fun hne => (hr.2.2 hne).mappedAt hs⟩

/-- What `walkaddr` finds is a page of the process. -/
theorem Sized.mappedAt (hs : Sized root sz k) (h : k.addrOf root va ≠ 0) :
    MappedAt root va k (k.addrOf root va) := by
  unfold Kmem.addrOf at *
  split at h
  next => exact absurd rfl h
  next hlt =>
    rw [if_neg hlt]
    have hmax := Nat.lt_of_not_le hlt
    cases hw : k.leaf root (way va) with
    | none =>
      rw [hw] at h
      exact absurd rfl h
    | some w =>
      rw [hw] at h
      have h : (if w &&& PTE_U = 0 then 0 else PTE2PA w) ≠ 0 := h
      show MappedAt root va k (if w &&& PTE_U = 0 then 0 else PTE2PA w)
      split at h
      next => exact absurd rfl h
      next hu =>
        rw [if_neg hu]
        refine ⟨.inr ⟨rfl, Nat.lt_of_not_le fun hge => hu (hs.above _ w rfl hge hw).1⟩, hmax, ?_⟩
        rw [node_of_leaf rfl, hw]
        rfl

/-- Where `userPage` finds the page of `va`: it was mapped, or has been faulted in. -/
def Opened (p : Me) (va : Nat) (k k' : Kmem) (pa : Frame) : Prop :=
  k' = k ∧ pa = k.addrOf p.pagetable va ∨ FaultedIn p va k k' pa

theorem userPage_grew (h : Space D held p.pagetable k) (hs : Sized p.pagetable p.sz k) :
    wp (userPage p p.pagetable va) (fun r k' => Grew D held p k k' ∧
      (k' = k ∨ k.leaf p.pagetable (way va) = none) ∧ (r ≠ 0 → Opened p va k k' r)) NoPanic k := by
  unfold userPage
  refine (walkaddr_wp _ _).andThen fun r k₀ h₀ => ?_
  obtain ⟨rfl, hr⟩ := h₀
  rw [wp_ite]
  refine ⟨fun _ => ?_, fun _ => ⟨Grew.refl h hs, .inl rfl, fun _ => .inl ⟨rfl, hr⟩⟩⟩
  exact (vmfault_grew h hs).mono fun _ _ hr => ⟨hr.1, hr.2.1, fun hne => .inr (hr.2.2 hne)⟩

theorem userPage_kept (h : Space D held p.pagetable k) (hs : Sized p.pagetable p.sz k)
    (hva : va % PGSIZE = 0) : wp (userPage p p.pagetable va) (fun r k' =>
      Kept D held p.pagetable p.sz k k' ∧ (r ≠ 0 → MappedAt p.pagetable va k' r)) NoPanic k := by
  refine (userPage_grew h hs).mono fun r k' hr => ⟨hr.1.kept, fun hne => ?_⟩
  rcases hr.2.2 hne with ⟨rfl, ha⟩ | hf
  · rw [ha] at hne ⊢
    exact hs.mappedAt hne
  · rw [← PGROUNDDOWN_of_mod hva]
    exact hf.mappedAt hs

/-- A page of the process is not one of its tables. -/
theorem MappedAt.tables (hm : MappedAt root va k pa) (h : Space D held root k) (x : Page) :
    TablesKept root k (k.setPage pa x) := fun p t hp ht => by
  refine setPage_of_ne (fun (he : t = pa) => ?_) k x
  have hpq := h.node_inj (mine_table hp) hm.1 ht (he ▸ hm.2.2)
  rw [hpq] at hp
  exact absurd hp (by decide : ¬3 ≤ 2)

/-- Data is written to a page of the process. -/
theorem MappedAt.store (hm : MappedAt root va k pa) (h : Space D held root k) (hs : Sized root sz k)
    (x : Page) : Kept D held root sz k (k.setPage pa x) := by
  have hkept := hm.tables h x
  refine ⟨h.shuffle hkept rfl (List.Perm.refl _), hkept.leaves.sized hs, ⟨fun f hf => ?_, rfl, rfl⟩⟩
  exact setPage_of_ne (fun (he : f = pa) => hf (he ▸ h.of_node hm.1 hm.2.2)) k x

/-! ## Copying -/

theorem copyout_kept : ∀ (n : Nat) {src : List UInt8} {va : Nat} {k : Kmem}, src.length ≤ n →
    Space D held p.pagetable k → Sized p.pagetable p.sz k →
    wp (copyout p p.pagetable va src)
      (fun _ k' => Kept D held p.pagetable p.sz k k') NoPanic k := by
  intro n
  induction n with
  | zero =>
    intro src va k hn h hs
    unfold copyout
    rw [dif_pos (List.length_eq_zero_iff.mp (Nat.le_zero.mp hn))]
    exact Kept.refl h hs
  | succ n ih =>
    intro src va k hn h hs
    unfold copyout
    by_cases hsrc : src = []
    · rw [dif_pos hsrc]
      exact Kept.refl h hs
    · rw [dif_neg hsrc]
      simp only [wp_ite]
      refine ⟨fun _ => Kept.refl h hs, fun _ => ?_⟩
      refine (userPage_kept h hs (PGROUNDDOWN_mod va)).andThen fun pa k₁ h₁ => ?_
      obtain ⟨hk₁, hm₁⟩ := h₁
      rw [wp_ite]
      refine ⟨fun _ => hk₁, fun hne => ?_⟩
      have hm := hm₁ hne
      refine (walk_look hm.2.1).andThen fun r k₂ h₂ => ?_
      obtain ⟨rfl, hr⟩ := h₂
      cases r with
      | none =>
        have hno := leaf_none_of_none hr
        have hmap := hm.2.2
        rw [node_of_leaf rfl, hno] at hmap
        exact absurd hmap.symm (Option.some_ne_none pa)
      | some ti =>
        obtain ⟨t, i⟩ := ti
        show wp (get >>= fun k => _) _ _ _
        rw [wp_bind, wp_get, wp_ite]
        refine ⟨fun _ => hk₁, fun _ => ?_⟩
        unfold store
        rw [wp_bind, wp_modify]
        have hst := hm.store hk₁.space hk₁.sized
          (Bytes.blit (k₂.mem pa) (va - PGROUNDDOWN va) (src.take (chunk va src.length)))
        have hlen : (src.drop (chunk va src.length)).length ≤ n := by
          have hpos := @chunk_pos va _ (List.length_pos_iff.mpr hsrc)
          rw [List.length_drop]
          omega
        exact (ih hlen hst.space hst.sized).mono fun _ k' h' => (hk₁.trans hst).trans h'

theorem copyin_kept : ∀ (n : Nat) {len va : Nat} {k : Kmem}, len ≤ n →
    Space D held p.pagetable k → Sized p.pagetable p.sz k →
    wp (copyin p p.pagetable va len) (fun _ k' => Kept D held p.pagetable p.sz k k') NoPanic k := by
  intro n
  induction n with
  | zero =>
    intro len va k hn h hs
    unfold copyin
    rw [dif_pos (Nat.le_zero.mp hn)]
    exact Kept.refl h hs
  | succ n ih =>
    intro len va k hn h hs
    unfold copyin
    by_cases hl : len = 0
    · rw [dif_pos hl]
      exact Kept.refl h hs
    · rw [dif_neg hl]
      refine (userPage_kept h hs (PGROUNDDOWN_mod va)).andThen fun pa k₁ h₁ => ?_
      obtain ⟨hk₁, _⟩ := h₁
      rw [wp_ite]
      refine ⟨fun _ => hk₁, fun _ => ?_⟩
      rw [wp_bind, wp_get]
      have hpos := @chunk_pos va _ (Nat.pos_of_ne_zero hl)
      refine (ih (Nat.le_of_lt_succ
        (Nat.lt_of_lt_of_le (Nat.sub_lt (Nat.pos_of_ne_zero hl) hpos) hn))
        hk₁.space hk₁.sized).andThen fun r k₂ h₂ => ?_
      exact hk₁.trans h₂

end Xv6.Vm
