import Xv6.Vm.View

/-!
# `copyout` and `copyin`

> What `copyout` has copied is what the user reads there, nothing else in user memory
> reads differently, and a page that may not be written makes it fail
> (`copyout_exact`).

Each turn of the loop is a fault, if need be, and a store to one page. Memory outside the
pages that the user may write changes only where a page is faulted in: a free page, or an
entry in a page table, has to change for that.
-/

namespace Xv6.Vm

open Lib

variable {D : Frame → Prop} {held : List Frame} {f pa : Frame} {k k' k'' : Kmem}
  {w : Pte} {va a n : Nat} {p : Me} {src : List UInt8} {ok : Bool}

/-- The user may write at `a`, and something is there. -/
def Writable (p : Me) (k : Kmem) (a : Nat) : Prop :=
  a < MAXVA ∧ ∃ w, k.leaf p.pagetable (way a) = some w ∧ w &&& PTE_U ≠ 0 ∧ w &&& PTE_W ≠ 0 ∧
    PTE2PA w ≠ 0

/-- The user may not write at `a`: the page is not mapped and not below `p->sz`, or it is
mapped without `PTE_U` or `PTE_W`. -/
def Barred (p : Me) (k : Kmem) (a : Nat) : Prop :=
  MAXVA ≤ a ∨ k.leaf p.pagetable (way a) = none ∧ p.sz ≤ PGROUNDDOWN a ∨
    ∃ w, k.leaf p.pagetable (way a) = some w ∧ (w &&& PTE_U = 0 ∨ w &&& PTE_W = 0)

/-- `f` is mapped for the user to write. -/
def UserPage (p : Me) (k : Kmem) (f : Frame) : Prop :=
  ∃ q w, q.length = 3 ∧ k.leaf p.pagetable q = some w ∧ PTE2PA w = f ∧ w &&& PTE_U ≠ 0 ∧
    w &&& PTE_W ≠ 0

/-- Some page of the `n` bytes at `va` is not mapped. -/
def Untouched (p : Me) (k : Kmem) (va n : Nat) : Prop :=
  ∃ j < n, k.leaf p.pagetable (way (va + j)) = none

/-- What `copyout` of `src` to `va` has done. -/
structure CopiedOut (D : Frame → Prop) (held : List Frame) (p : Me) (va : Nat) (src : List UInt8)
    (k : Kmem) (ok : Bool) (k' : Kmem) : Prop where
  kept : Kept D held p.pagetable p.sz k k'
  stays : ∀ q w, q.length = 3 → k.leaf p.pagetable q = some w → k'.leaf p.pagetable q = some w
  busy : ∀ f, Busy p.pagetable k f → Busy p.pagetable k' f
  inside : ok = true → ∀ j < src.length, k'.view p (va + j) = some (src.getD j 0) ∧
    Writable p k' (va + j) ∧ ¬Barred p k (va + j)
  outside : ∀ a, a < va ∨ va + src.length ≤ a → k'.view p a = k.view p a
  memory : ∀ f, k'.mem f ≠ k.mem f → UserPage p k' f ∨
    Untouched p k va src.length ∧ ¬Busy p.pagetable k f

theorem Grew.stays (hg : Grew D held p k k') {q : List (Fin 512)} (hq : q.length = 3)
    (hw : k.leaf p.pagetable q = some w) : k'.leaf p.pagetable q = some w := by
  rcases hg.leaves q hq with he | ⟨hno, _⟩
  · exact he.trans hw
  · exact absurd (hw.symm.trans hno) (Option.some_ne_none w)

/-- What is barred stays so. -/
theorem Grew.barred (hg : Grew D held p k k') (h : Barred p k a) : Barred p k' a := by
  by_cases hmax : MAXVA ≤ a
  · exact Or.inl hmax
  rcases h with h | ⟨hno, hsz⟩ | ⟨w, hw, hbad⟩
  · exact absurd h hmax
  · refine Or.inr (Or.inl ⟨?_, hsz⟩)
    rcases hg.leaves (way a) rfl with he | ⟨_, hlt, _⟩
    · exact he.trans hno
    · rw [pageOf_way_mul (Nat.lt_of_not_le hmax)] at hlt
      omega
  · exact Or.inr (Or.inr ⟨w, hg.stays rfl hw, hbad⟩)

/-- Nothing has been copied yet. -/
theorem Grew.copiedOut (hg : Grew D held p k k') (h : Space D held p.pagetable k)
    (hs : Sized p.pagetable p.sz k) (hsrc : src ≠ [])
    (hc : k' = k ∨ k.leaf p.pagetable (way va) = none) :
    CopiedOut D held p va src k false k' where
  kept := hg.kept
  stays _ _ hq hw := hg.stays hq hw
  busy f hf := (hg.calm.busy f hf).1
  inside hok := absurd hok Bool.false_ne_true
  outside a _ := hg.view h hs a
  memory f hf := by
    rcases hc with rfl | hno
    · exact absurd rfl hf
    · exact Or.inr ⟨⟨0, List.length_pos_iff.mpr hsrc, hno⟩, fun hb => hf (hg.calm.busy f hb).2⟩

theorem CopiedOut.nil (h : Space D held p.pagetable k) (hs : Sized p.pagetable p.sz k) :
    CopiedOut D held p va [] k true k where
  kept := Kept.refl h hs
  stays _ _ _ hw := hw
  busy _ hf := hf
  inside _ j hj := absurd hj (Nat.not_lt_zero j)
  outside _ _ := rfl
  memory _ hf := absurd rfl hf

/-- What `userPage` opened is mapped for the user. -/
theorem Opened.leaf (ho : Opened p (PGROUNDDOWN va) k k' pa) (hne : pa ≠ 0) :
    va < MAXVA → ∃ w, k'.leaf p.pagetable (way va) = some w ∧ w &&& PTE_U ≠ 0 ∧ PTE2PA w = pa ∧
      (k.leaf p.pagetable (way va) = some w ∨
        k.leaf p.pagetable (way va) = none ∧ PGROUNDDOWN va < p.sz) := by
  intro hva
  rcases ho with ⟨rfl, ha⟩ | hf
  · unfold Kmem.addrOf at ha
    rw [if_neg (Nat.not_le_of_lt ((PGROUNDDOWN_lt_iff va).mpr hva)), way_round] at ha
    cases hw : k'.leaf p.pagetable (way va) with
    | none =>
      rw [hw] at ha
      exact absurd ha hne
    | some w =>
      rw [hw] at ha
      have ha : pa = if w &&& PTE_U = 0 then 0 else PTE2PA w := ha
      split at ha
      next => exact absurd ha hne
      next hu => exact ⟨w, rfl, hu, ha.symm, Or.inl rfl⟩
  · have hlt := hf.lt
    rw [PGROUNDDOWN_of_mod (PGROUNDDOWN_mod va)] at hlt
    have hwas := hf.was
    have his := hf.is
    rw [way_round] at hwas his
    exact ⟨_, his, (entryOf_user pa).1, PTE2PA_entryOf (by decide), Or.inr ⟨hwas, hlt⟩⟩

theorem chunk_eq (va len : Nat) : chunk va len = min (4096 - va % 4096) len := by
  unfold chunk
  rw [PGROUNDDOWN_eq, PGSIZE_eq]
  omega

/-- **One turn**, and the rest: a page is opened, its part of `src` is stored, and what
follows is copied to the next page. -/
theorem CopiedOut.turn {k₁ k₂ : Kmem} (h : Space D held p.pagetable k)
    (hs : Sized p.pagetable p.sz k)
    (hva : va < MAXVA) (hg : Grew D held p k k₁)
    (hc : k₁ = k ∨ k.leaf p.pagetable (way va) = none)
    (hw : k₁.leaf p.pagetable (way va) = some w) (hu : w &&& PTE_U ≠ 0) (hwr : w &&& PTE_W ≠ 0)
    (hne : PTE2PA w ≠ 0) (hsrc : src ≠ [])
    (hwas : k.leaf p.pagetable (way va) = some w ∨
      k.leaf p.pagetable (way va) = none ∧ PGROUNDDOWN va < p.sz)
    (hk₂ : k₂ = k₁.setPage (PTE2PA w) (Bytes.blit (k₁.mem (PTE2PA w)) (va % PGSIZE)
      (src.take (chunk va src.length))))
    (hrest : CopiedOut D held p (PGROUNDDOWN va + PGSIZE)
      (src.drop (chunk va src.length)) k₂ ok k') :
    CopiedOut D held p va src k ok k' := by
  have hs₁ := hg.kept.space
  have hz₁ := hg.kept.sized
  obtain ⟨hmine, hnode, hbusy⟩ := user_leaf hs₁ hz₁ rfl hw hu
  have hkept : TablesKept p.pagetable k₁ k₂ := fun q t hq ht => by
    rw [hk₂]
    exact setPage_of_ne (fun (he : t = PTE2PA w) => hbusy.2 q hq (he ▸ ht)) k₁ _
  have hstore : Kept D held p.pagetable p.sz k₁ k₂ := by
    rw [hk₂]
    exact MappedAt.store ⟨hmine, hva, hnode⟩ hs₁ hz₁ _
  have hn := chunk_eq va src.length
  set m := chunk va src.length with hm
  have hpos : 0 < src.length := List.length_pos_iff.mpr hsrc
  have hround := PGROUNDDOWN_eq va
  have htake : (src.take m).length = m := by
    rw [List.length_take]
    omega
  have hdrop : (src.drop m).length = src.length - m := List.length_drop
  have hview := fun a => view_store (l := src.take m) hs₁ hz₁ hva hw hu
    (by rw [htake, PGSIZE_eq]; omega) a
  rw [← hk₂, htake] at hview
  have hstays₂ : ∀ q x, q.length = 3 → k.leaf p.pagetable q = some x →
    k₂.leaf p.pagetable q = some x :=
    fun q x hq hx => (hkept.leaves q hq).trans (hg.stays hq hx)
  have hbusy₂ : ∀ f, Busy p.pagetable k₁ f → Busy p.pagetable k₂ f := by
    intro f hf
    refine ⟨?_, fun q hq hc => hf.2 q hq ((hkept.node (Nat.le_succ_of_le hq)).symm.trans hc)⟩
    rw [hk₂]
    exact hf.1
  have hPG := PGSIZE_eq
  have hsame : ∀ j < m, way (va + j) = way va := by
    intro j hj
    rw [← way_round (va + j), ← way_round va, PGROUNDDOWN_eq, PGROUNDDOWN_eq]
    congr 2
    omega
  -- an offset past the chunk is one into the next page
  have hnext : ∀ j, m ≤ j → j < src.length →
      PGROUNDDOWN va + PGSIZE + (j - m) = va + j ∧ j - m < (src.drop m).length := by
    intro j hj hlt
    rw [hdrop]
    omega
  refine ⟨(hg.kept.trans hstore).trans hrest.kept,
    fun q x hq hx => hrest.stays q x hq (hstays₂ q x hq hx),
    fun f hf => hrest.busy f (hbusy₂ f (hg.calm.busy f hf).1), fun hok j hj => ?_, fun a ha => ?_,
    fun f hf => ?_⟩
  · by_cases hjm : j < m
    · have hlt : va + j < MAXVA := by
        rw [MAXVA_eq] at hva ⊢
        omega
      refine ⟨?_, ⟨hlt, w, ?_, hu, hwr, hne⟩, ?_⟩
      · rw [hrest.outside _ (Or.inl (by omega)), hview, if_pos (by omega), Nat.add_sub_cancel_left,
          List.getD_eq_getElem?_getD, List.getElem?_take_of_lt hjm, ← List.getD_eq_getElem?_getD]
      · rw [hsame j hjm]
        exact hrest.stays _ _ rfl ((hkept.leaves _ rfl).trans hw)
      · have hpage : PGROUNDDOWN (va + j) = PGROUNDDOWN va := by
          rw [PGROUNDDOWN_eq, PGROUNDDOWN_eq]
          omega
        intro hbar
        rcases hbar with hbar | ⟨hno, hsz⟩ | ⟨x, hx, hbad⟩
        · omega
        · rw [hsame j hjm] at hno
          rcases hwas with hwas | hwas
          · exact absurd (hwas.symm.trans hno) (Option.some_ne_none w)
          · omega
        · rw [hsame j hjm] at hx
          rcases hwas with hwas | hwas
          · obtain rfl : w = x := Option.some.inj (hwas.symm.trans hx)
            exact hbad.elim hu hwr
          · exact absurd (hx.symm.trans hwas.1) (Option.some_ne_none x)
    · obtain ⟨haddr, hlt⟩ := hnext j (Nat.le_of_not_lt hjm) hj
      obtain ⟨hv, hwrit, hbar⟩ := hrest.inside hok (j - m) hlt
      rw [haddr] at hv hwrit hbar
      refine ⟨?_, hwrit, fun hc => hbar ?_⟩
      · rw [hv, List.getD_eq_getElem?_getD, List.getElem?_drop, ← List.getD_eq_getElem?_getD,
          show m + (j - m) = j by omega]
      · rcases hg.barred hc with hc | ⟨hno, hsz⟩ | ⟨x, hx, hbad⟩
        · exact Or.inl hc
        · exact Or.inr (Or.inl ⟨(hkept.leaves _ rfl).trans hno, hsz⟩)
        · exact Or.inr (Or.inr ⟨x, (hkept.leaves _ rfl).trans hx, hbad⟩)
  · have hrest' : k'.view p a = k₂.view p a := hrest.outside a (by rw [hdrop]; omega)
    rw [hrest', hview, if_neg (by omega)]
    exact hg.view h hs a
  · by_cases h₂ : k'.mem f = k₂.mem f
    · by_cases hfw : f = PTE2PA w
      · exact Or.inl ⟨way va, w, rfl, hrest.stays _ _ rfl ((hkept.leaves _ rfl).trans hw),
          hfw.symm, hu, hwr⟩
      · rw [h₂, hk₂, setPage_of_ne hfw] at hf
        rcases hc with rfl | hno
        · exact absurd rfl hf
        · exact Or.inr ⟨⟨0, hpos, hno⟩, fun hb => hf (hg.calm.busy f hb).2⟩
    · rcases hrest.memory f h₂ with hup | ⟨⟨j, hj, hno⟩, hnb⟩
      · exact Or.inl hup
      · rw [hdrop] at hj
        refine Or.inr ⟨⟨m + j, by omega, ?_⟩, fun hb => hnb (hbusy₂ f (hg.calm.busy f hb).1)⟩
        have haddr := (hnext (m + j) (by omega) (by omega)).1
        rw [Nat.add_sub_cancel_left] at haddr
        rw [haddr] at hno
        cases hx : k.leaf p.pagetable (way (va + (m + j))) with
        | none => rfl
        | some x => exact absurd ((hstays₂ _ x rfl hx).symm.trans hno) (Option.some_ne_none x)

theorem copyout_spec : ∀ (n : Nat) {src : List UInt8} {va : Nat} {k : Kmem}, src.length ≤ n →
    Space D held p.pagetable k → Sized p.pagetable p.sz k →
    wp (copyout p p.pagetable va src)
      (fun ok k' => CopiedOut D held p va src k ok k') NoPanic k := by
  intro n
  induction n with
  | zero =>
    intro src va k hn h hs
    obtain rfl := List.length_eq_zero_iff.mp (Nat.le_zero.mp hn)
    unfold copyout
    rw [dif_pos rfl]
    exact CopiedOut.nil h hs
  | succ n ih =>
    intro src va k hn h hs
    unfold copyout
    by_cases hsrc : src = []
    · subst hsrc
      rw [dif_pos rfl]
      exact CopiedOut.nil h hs
    rw [dif_neg hsrc]
    simp only [wp_ite]
    -- the three ways to fail: past `MAXVA`, no page, a page that is not writable
    refine ⟨fun _ => (Grew.refl h hs).copiedOut h hs hsrc (Or.inl rfl), fun hmax => ?_⟩
    have hva : va < MAXVA := (PGROUNDDOWN_lt_iff va).mp (Nat.lt_of_not_le hmax)
    refine (userPage_grew h hs).andThen fun pa k₁ h₁ => ?_
    obtain ⟨hg, hc, hopen⟩ := h₁
    rw [way_round] at hc
    rw [wp_ite]
    refine ⟨fun _ => hg.copiedOut h hs hsrc hc, fun hne => ?_⟩
    obtain ⟨w, hw, hu, hpa, hwas⟩ := (hopen hne).leaf hne hva
    refine (walk_look (Nat.lt_of_not_le hmax)).andThen fun r k₂ h₂ => ?_
    obtain ⟨rfl, hr⟩ := h₂
    cases r with
    | none =>
      have hno := leaf_none_of_none hr
      rw [way_round] at hno
      exact absurd (hw.symm.trans hno) (Option.some_ne_none w)
    | some ti =>
      obtain ⟨t, i⟩ := ti
      obtain ⟨rfl, hn₂⟩ := hr
      have hpte : k₂.pte t (PX 0 (PGROUNDDOWN va)) = w := by
        rw [← leaf_of_found hn₂, way_round]
        exact (leaf_eq_some.mp hw).2
      show wp (get >>= fun k => _) _ _ _
      rw [wp_bind, wp_get, wp_ite, hpte]
      refine ⟨fun _ => hg.copiedOut h hs hsrc hc, fun hwr => ?_⟩
      unfold store
      rw [wp_bind, wp_modify, ← hpa]
      have hoff : va - PGROUNDDOWN va = va % PGSIZE := by
        rw [PGROUNDDOWN_eq, PGSIZE_eq]
        omega
      rw [hoff]
      have hst := @MappedAt.store D held p.pagetable (PTE2PA w) k₂ p.sz va
        ⟨(user_leaf hg.kept.space hg.kept.sized rfl hw hu).1, hva,
          (user_leaf hg.kept.space hg.kept.sized rfl hw hu).2.1⟩ hg.kept.space hg.kept.sized
        (Bytes.blit (k₂.mem (PTE2PA w)) (va % PGSIZE) (src.take (chunk va src.length)))
      have hlen : (src.drop (chunk va src.length)).length ≤ n := by
        have hpos := @chunk_pos va _ (List.length_pos_iff.mpr hsrc)
        rw [List.length_drop]
        omega
      exact (ih hlen hst.space hst.sized).mono fun ok k' hrest =>
        CopiedOut.turn h hs hva hg hc hw hu hwr (hpa ▸ hne) hsrc hwas rfl hrest

/-! ## Reading back -/

/-- The bytes at `va`. -/
def Kmem.bytes (k : Kmem) (p : Me) (va len : Nat) : List UInt8 :=
  (List.range len).map fun j => (k.view p (va + j)).getD 0

theorem bytes_append (k : Kmem) (p : Me) (va m n : Nat) :
    k.bytes p va (m + n) = k.bytes p va m ++ k.bytes p (va + m) n := by
  unfold Kmem.bytes
  rw [List.range_add, List.map_append, List.map_map]
  refine congrArg _ (List.map_congr_left fun j _ => ?_)
  show (k.view p (va + (m + j))).getD 0 = _
  rw [Nat.add_assoc]

theorem bytes_of_view (h : ∀ j < src.length, k.view p (va + j) = some (src.getD j 0)) :
    k.bytes p va src.length = src := by
  unfold Kmem.bytes
  refine List.ext_getElem? fun j => ?_
  rw [List.getElem?_map]
  by_cases hj : j < src.length
  · have hsome := List.getElem?_eq_getElem hj
    rw [List.getElem?_range hj, Option.map_some, h j hj, Option.getD_some,
      List.getD_eq_getElem?_getD, hsome, Option.getD_some]
  · rw [List.getElem?_eq_none (by rw [List.length_range]; omega), Option.map_none,
      List.getElem?_eq_none (Nat.le_of_not_lt hj)]

/-- The user may read at `a`, and something is there. -/
def Readable (p : Me) (k : Kmem) (a : Nat) : Prop :=
  a < MAXVA ∧ ∃ w, k.leaf p.pagetable (way a) = some w ∧ w &&& PTE_U ≠ 0 ∧ PTE2PA w ≠ 0

theorem Writable.readable (h : Writable p k a) : Readable p k a := by
  obtain ⟨ha, w, hw, hu, _, hne⟩ := h
  exact ⟨ha, w, hw, hu, hne⟩

theorem addrOf_of_leaf (hva : va < MAXVA) (hw : k.leaf p.pagetable (way va) = some w)
    (hu : w &&& PTE_U ≠ 0) : k.addrOf p.pagetable (PGROUNDDOWN va) = PTE2PA w := by
  unfold Kmem.addrOf
  rw [if_neg (Nat.not_le_of_lt ((PGROUNDDOWN_lt_iff va).mpr hva)), way_round, hw]
  exact if_neg hu

/-- The bytes of one page. -/
theorem read_bytes (hva : va < MAXVA) (hw : k.leaf p.pagetable (way va) = some w)
    (hu : w &&& PTE_U ≠ 0) (hn : va % 4096 + n ≤ 4096) :
    k.read (PTE2PA w) (va % 4096) n = k.bytes p va n := by
  unfold Kmem.read Kmem.bytes
  refine List.map_congr_left fun j hj => ?_
  have hj := List.mem_range.mp hj
  rw [MAXVA_eq] at hva
  have hlt : va + j < MAXVA := by
    rw [MAXVA_eq]
    omega
  have hway : way (va + j) = way va := by
    rw [← way_round (va + j), ← way_round va, PGROUNDDOWN_eq, PGROUNDDOWN_eq]
    congr 2
    omega
  have hoff : (va + j) % 4096 = va % 4096 + j := by omega
  rw [view_of_leaf hlt (hway ▸ hw), if_neg hu, PGSIZE_eq, hoff]
  rfl

/-- **`copyin`** of what is mapped for the user. -/
theorem copyin_mapped : ∀ (n : Nat) {len va : Nat} {k : Kmem}, len ≤ n →
    (∀ j < len, Readable p k (va + j)) →
    wp (copyin p p.pagetable va len) (fun r k' => r = (k.bytes p va len, true) ∧
      k' = k) NoPanic k := by
  intro n
  induction n with
  | zero =>
    intro len va k hn _
    obtain rfl := Nat.le_zero.mp hn
    unfold copyin
    rw [dif_pos rfl]
    exact ⟨rfl, rfl⟩
  | succ n ih =>
    intro len va k hn hread
    unfold copyin
    by_cases hl : len = 0
    · subst hl
      rw [dif_pos rfl]
      exact ⟨rfl, rfl⟩
    rw [dif_neg hl]
    have hpos := Nat.pos_of_ne_zero hl
    obtain ⟨hva, w, hw, hu, hne⟩ := hread 0 hpos
    rw [Nat.add_zero] at hva hw
    have hopen : wp (userPage p p.pagetable (PGROUNDDOWN va)) (fun r k' => k' = k ∧ r = PTE2PA w)
        NoPanic k := by
      unfold userPage
      refine (walkaddr_wp _ _).andThen fun r k₁ h₁ => ?_
      obtain ⟨rfl, hr⟩ := h₁
      rw [addrOf_of_leaf hva hw hu] at hr
      rw [wp_ite, hr]
      exact ⟨fun hz => absurd hz hne, fun _ => ⟨rfl, rfl⟩⟩
    refine hopen.andThen fun r k₁ h₁ => ?_
    obtain ⟨rfl, rfl⟩ := h₁
    rw [wp_ite]
    refine ⟨fun hz => absurd hz hne, fun _ => ?_⟩
    rw [wp_bind, wp_get]
    have hm := chunk_eq va len
    have hround := PGROUNDDOWN_eq va
    have hPG := PGSIZE_eq
    set m := chunk va len with hmdef
    refine (ih (k := k₁) (by omega) fun j hj => ?_).andThen fun r k₂ h₂ => ?_
    · have haddr : PGROUNDDOWN va + PGSIZE + j = va + (m + j) := by omega
      rw [haddr]
      exact hread (m + j) (by omega)
    · obtain ⟨rfl, rfl⟩ := h₂
      refine ⟨?_, rfl⟩
      have hoff : va - PGROUNDDOWN va = va % 4096 := by omega
      rw [hoff, read_bytes hva hw hu (by omega)]
      by_cases hlast : m = len
      · rw [hlast, Nat.sub_self, show k₂.bytes p (PGROUNDDOWN va + PGSIZE) 0 = [] from rfl,
          List.append_nil]
      · rw [show PGROUNDDOWN va + PGSIZE = va + m by omega, ← bytes_append,
          show m + (len - m) = len by omega]

/-! ## A process that has touched nothing -/

/-- Five pages of memory: an empty page table, and four free pages. -/
def untouched : Kmem where
  mem _ _ := 0
  freelist := [524289, 524290, 524291, 524292]
  oom := []
  low := 524288
  trampoline := 0

/-- A process with 8192 bytes. -/
def idle : Me := ⟨8192, 524288⟩

theorem untouched_space : Space (· ∈ 524288 :: untouched.freelist) [] 524288 untouched :=
  Pool.space ⟨by decide, fun _ => Iff.rfl, fun f hf => by
    have hall : ∀ g ∈ 524288 :: untouched.freelist, untouched.low ≤ g ∧ g < PHYSTOP / PGSIZE := by
      decide
    exact hall f hf⟩ rfl

theorem leaf_zero {k : Kmem} {root : Frame} (hz : k.mem root = fun _ => 0) {q : List (Fin 512)}
    (hq : q.length = 3) : k.leaf root q = none := by
  cases q with
  | nil => exact absurd hq (by decide)
  | cons i q =>
    rw [leaf_eq_none, ← next_eq_none, ← node_cons]
    exact node_zero hz i q

theorem untouched_leaf {q : List (Fin 512)} (hq : q.length = 3) :
    untouched.leaf 524288 q = none := leaf_zero rfl hq

theorem untouched_sized : Sized 524288 8192 untouched where
  max := by decide
  below q hq _ _ := untouched_leaf hq
  above q w hq _ hw := absurd (hw.symm.trans (untouched_leaf hq)) (Option.some_ne_none w)

/-- The same with twelve free pages. -/
def roomy : Kmem := { untouched with freelist := (List.range 12).map (524289 + ·) }

theorem roomy_space : Space (· ∈ 524288 :: roomy.freelist) [] 524288 roomy :=
  Pool.space ⟨by decide, fun _ => Iff.rfl, fun f hf => by
    have hall : ∀ g ∈ 524288 :: roomy.freelist, roomy.low ≤ g ∧ g < PHYSTOP / PGSIZE := by
      decide
    exact hall f hf⟩ rfl

theorem roomy_sized : Sized 524288 8192 roomy where
  max := by decide
  below q hq _ _ := leaf_zero rfl hq
  above q w hq _ hw := absurd (hw.symm.trans (leaf_zero rfl hq)) (Option.some_ne_none w)

/-! ## The result -/

/-- **User copies touch exactly the user's bytes.** -/
theorem copyout_exact (h : Space D held p.pagetable k) (hs : Sized p.pagetable p.sz k)
    (dstva : Nat) (src : List UInt8) :
    wp (copyout p p.pagetable dstva src) (fun ok k' =>
      (ok = true → (∀ j < src.length, k'.view p (dstva + j) = some (src.getD j 0)) ∧
        exec (copyin p p.pagetable dstva src.length) k' = (.ok (src, true), k')) ∧
      (∀ a, a < dstva ∨ dstva + src.length ≤ a → k'.view p a = k.view p a) ∧
      ((∃ j < src.length, Barred p k (dstva + j)) → ok = false) ∧
      ∀ f, k'.mem f ≠ k.mem f → UserPage p k' f ∨
        Untouched p k dstva src.length ∧ (f ∈ k.freelist ∨ k.IsTable p.pagetable f)) NoPanic k := by
  refine (copyout_spec src.length (Nat.le_refl _) h hs).mono fun ok k' hc => ?_
  refine ⟨fun hok => ⟨fun j hj => (hc.inside hok j hj).1, ?_⟩, hc.outside, fun hbar => ?_,
    fun f hf => ?_⟩
  · have hin := copyin_mapped src.length (Nat.le_refl _) fun j hj =>
      (hc.inside hok j hj).2.1.readable
    have hbytes := bytes_of_view fun j hj => (hc.inside hok j hj).1
    rw [hbytes] at hin
    unfold wp at hin
    cases hx : exec (copyin p p.pagetable dstva src.length) k' with
    | mk r k'' =>
      rw [hx] at hin
      cases r with
      | ok r => rw [hin.1, hin.2]
      | error e => exact hin.elim
  · obtain ⟨j, hj, hbar⟩ := hbar
    exact Bool.eq_false_iff.mpr fun hok => (hc.inside hok j hj).2.2 hbar
  · refine (hc.memory f hf).imp id fun hu => ⟨hu.1, ?_⟩
    by_contra hno
    rw [not_or] at hno
    exact hu.2 ⟨hno.1, fun q hq hn => hno.2 ⟨q, hq, hn⟩⟩

/-- Three bytes across the end of the first page of a process that has touched nothing. -/
theorem copyout_exact_untouched : wp (copyout idle 524288 4095 [1, 2, 3]) (fun ok k' =>
    (ok = true → k'.view idle 4097 = some 3 ∧
      exec (copyin idle 524288 4095 3) k' = (.ok ([1, 2, 3], true), k')) ∧
    k'.view idle 4098 = some 0) NoPanic untouched := by
  refine (@copyout_exact _ _ untouched idle untouched_space untouched_sized 4095 [1, 2, 3]).mono
    fun ok k' hk => ⟨fun hok => ⟨(hk.1 hok).1 2 (by decide), (hk.1 hok).2⟩, ?_⟩
  rw [hk.2.1 4098 (Or.inr (by decide)), view_of_none (by decide) (untouched_leaf rfl)]
  decide

theorem untouched_copyout : (exec (copyout idle 524288 0 [7]) untouched).1.toOption = some true ∧
    (exec (copyout idle 524288 0 [7]) untouched).2.mem 524288 0 ≠ 0 := by
  decide +kernel

/-- A fault writes to a page table, which is not a page of the user. -/
theorem copyout_writes_table : ¬∀ {D : Frame → Prop} {held : List Frame} {p : Me} {k : Kmem},
    Space D held p.pagetable k → Sized p.pagetable p.sz k → ∀ (dstva : Nat) (src : List UInt8),
    wp (copyout p p.pagetable dstva src) (fun ok k' => ok = true →
      ∀ f, k'.mem f ≠ k.mem f → UserPage p k' f) NoPanic k := by
  intro hall
  have hcopy := (@hall _ _ idle untouched untouched_space untouched_sized 0 [7]).and
    (@copyout_kept _ _ idle 1 [7] 0 _ (Nat.le_refl 1) untouched_space untouched_sized)
  obtain ⟨hok, hmem⟩ := untouched_copyout
  unfold wp at hcopy
  cases hx : exec (copyout idle idle.pagetable 0 [7]) untouched with
  | mk r k' =>
    rw [show idle.pagetable = 524288 from rfl] at hx
    rw [hx] at hok hmem
    rw [show idle.pagetable = 524288 from rfl, hx] at hcopy
    cases r with
    | error e => exact hcopy.1
    | ok b =>
      obtain rfl : b = true := Option.some.inj hok
      obtain ⟨huser, hkept⟩ := hcopy
      obtain ⟨q, w, hq, hw, hf, hu, _⟩ := huser rfl 524288 fun he => hmem (congrFun he 0)
      -- the root of the page table is not mapped
      obtain ⟨hmine, hnode, _⟩ := user_leaf hkept.space hkept.sized hq hw hu
      rw [hf] at hnode
      have hnil := hkept.space.node_inj (p := []) (mine_table (Nat.zero_le 2)) hmine rfl hnode
      rw [← hnil] at hq
      exact absurd hq (by decide)

end Xv6.Vm
