import Xv6.Vm.Map

/-!
# Growing and shrinking

`uvmalloc` maps a fresh page of zeros at every page between the two sizes, or takes
back what it did: the pages it has mapped so far lie between the old size, rounded up,
and the page it stopped at, and that is what `uvmdealloc` unmaps. Tables that `walk`
made on the way stay; every other page is free again.
-/

namespace Xv6.Vm

open Lib

variable {D : Frame → Prop} {held : List Frame} {root f : Frame} {k k₀ k' k'' : Kmem}
  {q : List (Fin 512)} {oldsz newsz xperm perm lo a : Nat}

/-! ## Sizes -/

/-- The pages below a size. -/
def pages (sz : Nat) : Nat := PGROUNDUP sz / PGSIZE

theorem PGROUNDUP_eq {sz : Nat} (h : sz ≤ TRAPFRAME) :
    PGROUNDUP sz = (sz + 4095) / 4096 * 4096 := by
  unfold PGROUNDUP
  simp only [PGSIZE_eq, TRAPFRAME_eq] at *
  omega

theorem PGROUNDUP_mod (sz : Nat) : PGROUNDUP sz % PGSIZE = 0 := Nat.mul_mod_left _ _

theorem PGROUNDUP_le {sz : Nat} (h : sz ≤ TRAPFRAME) : PGROUNDUP sz ≤ TRAPFRAME := by
  rw [PGROUNDUP_eq h]
  simp only [TRAPFRAME_eq] at *
  omega

theorem le_PGROUNDUP {sz : Nat} (h : sz ≤ TRAPFRAME) : sz ≤ PGROUNDUP sz := by
  rw [PGROUNDUP_eq h]
  omega

theorem PGROUNDUP_mono {sz sz' : Nat} (h : sz ≤ sz') (h' : sz' ≤ TRAPFRAME) :
    PGROUNDUP sz ≤ PGROUNDUP sz' := by
  rw [PGROUNDUP_eq (Nat.le_trans h h'), PGROUNDUP_eq h']
  omega

/-- A size that is a number of pages. -/
theorem PGROUNDUP_of_mod {sz : Nat} (h : sz ≤ TRAPFRAME) (hm : sz % PGSIZE = 0) :
    PGROUNDUP sz = sz := by
  rw [PGROUNDUP_eq h]
  simp only [PGSIZE_eq] at hm
  omega

theorem pages_mono {sz sz' : Nat} (h : sz ≤ sz') (h' : sz' ≤ TRAPFRAME) : pages sz ≤ pages sz' :=
  Nat.div_le_div_right (PGROUNDUP_mono h h')

theorem pages_le {sz : Nat} (h : sz ≤ TRAPFRAME) : pages sz ≤ TRAPFRAME / PGSIZE :=
  Nat.div_le_div_right (PGROUNDUP_le h)

theorem pages_mul (sz : Nat) : pages sz * PGSIZE = PGROUNDUP sz :=
  Nat.div_mul_cancel (Nat.dvd_of_mod_eq_zero (PGROUNDUP_mod sz))

theorem int_eq {n : Nat} (h : n < 2 ^ 31) : int n = n := by
  unfold int
  rw [if_pos (by omega)]
  omega

/-! ## `uvmdealloc` -/

theorem uvmdealloc_same (h : oldsz ≤ newsz) :
    wp (uvmdealloc root oldsz newsz) (fun r k' => r = oldsz ∧ k' = k) NoPanic k := by
  unfold uvmdealloc
  rw [if_pos h]
  exact ⟨rfl, rfl⟩

/-- **`uvmdealloc`** unmaps the pages between the sizes. -/
theorem uvmdealloc_space (h : Space D held root k) (hle : newsz ≤ oldsz)
    (hold : oldsz ≤ TRAPFRAME) :
    wp (uvmdealloc root oldsz newsz) (fun r k' => r = newsz ∧ Space D held root k' ∧
      Unmapped root (PGROUNDUP newsz) (pages oldsz - pages newsz) k k') NoPanic k := by
  have hmono := PGROUNDUP_mono hle hold
  have hmax := PGROUNDUP_le hold
  have hdiff : (PGROUNDUP oldsz - PGROUNDUP newsz) / PGSIZE = pages oldsz - pages newsz := by
    rw [← pages_mul, ← pages_mul, ← Nat.sub_mul, Nat.mul_div_cancel _ (by decide)]
  have hint : int (pages oldsz - pages newsz) = pages oldsz - pages newsz := by
    refine int_eq (Nat.lt_of_le_of_lt (Nat.sub_le _ _) (Nat.lt_of_le_of_lt (pages_le hold) ?_))
    decide
  unfold uvmdealloc
  by_cases heq : oldsz ≤ newsz
  · have he : newsz = oldsz := Nat.le_antisymm hle heq
    rw [if_pos heq, he, Nat.sub_self]
    exact ⟨rfl, h, Unmapped.zero root _ k⟩
  · rw [if_neg heq]
    show wp (ite _ _ _) _ _ _
    rw [wp_ite, wp_bind]
    refine ⟨fun _ => ?_, fun hge => ?_⟩
    · rw [hdiff, hint]
      refine (uvmunmap_space h (PGROUNDUP_mod newsz) ?_).mono fun _ k' h' => ⟨rfl, h'⟩
      rw [Nat.sub_mul, pages_mul, pages_mul]
      omega
    · have hz : pages oldsz - pages newsz = 0 := by
        unfold pages
        rw [Nat.le_antisymm (Nat.le_of_not_lt hge) hmono, Nat.sub_self]
      rw [hz]
      exact ⟨rfl, h, Unmapped.zero root _ k⟩

/-- The pages that are free afterwards: those that were, and those unmapped. -/
theorem Unmapped.free {n : Nat} (h : Unmapped root a n k k') (hs : Space D held root k)
    (hs' : Space D held root k') (hle : a / PGSIZE + n ≤ TRAPFRAME / PGSIZE) (f : Frame) :
    f ∈ k'.freelist ↔ f ∈ k.freelist ∨
      ∃ q, q.length = 3 ∧ Within a n q ∧ k.node root q = some f := by
  have hmine : ∀ {q : List (Fin 512)}, q.length = 3 → Within a n q → Mine q := fun hq hw =>
    .inr ⟨hq, Nat.lt_of_lt_of_le hw.2 hle⟩
  have hin : ∀ {q : List (Fin 512)}, q.length = 3 → Within a n q → k'.node root q = none :=
    fun hq hw => by rw [node_of_leaf hq, h.leaf _ hq, if_pos hw, Option.map_none]
  have hout : ∀ {q : List (Fin 512)}, q.length = 3 → ¬Within a n q →
      k'.node root q = k.node root q :=
    fun hq hw => by rw [node_of_leaf hq, h.leaf _ hq, if_neg hw, node_of_leaf hq]
  constructor
  · intro hf
    rcases (hs.split.mem f).mp (hs'.of_free hf) with hc | ⟨q, hq⟩
    · rcases List.mem_append.mp hc with hc | hc
      · exact absurd hf (hs'.busy_held hc).1
      · exact .inl hc
    · obtain ⟨hm, hq⟩ := own_eq_some.mp hq
      have hno := hs'.not_free_of_node hm (f := f)
      rcases hm with ht | ⟨h3, _⟩
      · exact absurd hf (hno ((h.tables q ht).trans hq))
      · by_cases hw : Within a n q
        · exact .inr ⟨q, h3, hw, hq⟩
        · exact absurd hf (hno ((hout h3 hw).trans hq))
  · intro hf
    have hD : D f := by
      rcases hf with hf | ⟨q, h3, hw, hq⟩
      · exact hs.of_free hf
      · exact hs.of_node (hmine h3 hw) hq
    -- it is not in the caller's hands, and not in the tree
    have hnot : f ∉ held ∧ ∀ q, Mine q → k'.node root q ≠ some f := by
      rcases hf with hf | ⟨q, h3, hw, hq⟩
      · refine ⟨fun hc => (hs.busy_held hc).1 hf, fun r hr hrf => ?_⟩
        rcases hr with ht | ⟨h3, hu⟩
        · exact hs.not_free_of_node (mine_table ht) ((h.tables r ht).symm.trans hrf) hf
        · by_cases hw : Within a n r
          · rw [hin h3 hw] at hrf
            exact Option.some_ne_none f hrf.symm
          · exact hs.not_free_of_node (.inr ⟨h3, hu⟩) ((hout h3 hw).symm.trans hrf) hf
      · refine ⟨hs.not_held_of_node (hmine h3 hw) hq, fun r hr hrf => ?_⟩
        have hrq : k.node root r = some f → r = q := fun hc => hs.node_inj hr (hmine h3 hw) hc hq
        rcases hr with ht | ⟨h3', _⟩
        · have hl := hrq ((h.tables r ht).symm.trans hrf)
          rw [hl] at ht
          omega
        · by_cases hw' : Within a n r
          · rw [hin h3' hw'] at hrf
            exact Option.some_ne_none f hrf.symm
          · exact hw' (hrq ((hout h3' hw').symm.trans hrf) ▸ hw)
    rcases (hs'.split.mem f).mp hD with hc | ⟨q, hq⟩
    · exact (List.mem_append.mp hc).resolve_left hnot.1
    · obtain ⟨hm, hq⟩ := own_eq_some.mp hq
      exact absurd hq (hnot.2 q hm)

/-! ## `uvmalloc` -/

/-- A page of zeros that was free is mapped at `q`. -/
def Fresh (root : Frame) (perm : Nat) (k₀ k : Kmem) (q : List (Fin 512)) : Prop :=
  ∃ f ∈ k₀.freelist, k.leaf root q = some (PA2PTE f ||| perm ||| PTE_V) ∧ k.mem f = fun _ => 0

/-- The pages from `lo` up to `a` are new, and no other leaf has changed. -/
structure Grown (D : Frame → Prop) (held : List Frame) (root : Frame) (perm lo a : Nat)
    (k₀ k : Kmem) : Prop where
  space : Space D held root k
  calm : Calm root k₀ k
  new : ∀ q, q.length = 3 → lo / PGSIZE ≤ pageOf q → pageOf q < a / PGSIZE → Fresh root perm k₀ k q
  old : ∀ q, q.length = 3 → ¬(lo / PGSIZE ≤ pageOf q ∧ pageOf q < a / PGSIZE) →
    k.leaf root q = k₀.leaf root q

/-- No page is mapped from `lo` up to `TRAPFRAME`. -/
def FreeFrom (root : Frame) (lo : Nat) (k : Kmem) : Prop :=
  ∀ q, q.length = 3 → lo / PGSIZE ≤ pageOf q → pageOf q < TRAPFRAME / PGSIZE → k.leaf root q = none

/-- A page table of zeros maps nothing. -/
theorem freeFrom_zero (hz : k.mem root = fun _ => 0) : FreeFrom root lo k := by
  intro q hq _ _
  cases q with
  | nil => exact absurd hq (by decide)
  | cons i p =>
    rw [leaf_eq_none, ← next_eq_none, ← node_cons]
    exact node_zero hz i p

/-- The pages mapped so far came off the free list. -/
theorem Grown.fresh_busy (h : Grown D held root perm lo a k₀ k) (hperm : perm < 1024)
    (ha : a ≤ TRAPFRAME) (hq : q.length = 3) (hlo : lo / PGSIZE ≤ pageOf q)
    (hlt : pageOf q < a / PGSIZE) : ∃ f ∈ k₀.freelist, k.node root q = some f ∧
      k.leaf root q = some (PA2PTE f ||| perm ||| PTE_V) ∧ k.mem f = (fun _ => 0) ∧
      Busy root k f := by
  obtain ⟨f, hf, hl, hz⟩ := h.new q hq hlo hlt
  have hn : k.node root q = some f := by
    rw [node_of_leaf hq, hl, Option.map_some]
    exact congrArg some (next_eq_some.mp (next_made hperm)).2
  refine ⟨f, hf, hn, hl, hz, h.space.busy_leaf (.inr ⟨hq, ?_⟩) hq hn⟩
  exact Nat.lt_of_lt_of_le hlt (Nat.div_le_div_right ha)

/-- Nothing of it is lost when the tables grow. -/
theorem Grown.step (h : Grown D held root perm lo a k₀ k) (hperm : perm < 1024) (ha : a ≤ TRAPFRAME)
    (hu : Undone D held root k k') : Grown D held root perm lo a k₀ k' where
  space := hu.space
  calm := h.calm.trans hu.calm
  new q hq hlo hlt := by
    obtain ⟨f, hf, _, hleaf, hz, hb⟩ := h.fresh_busy hperm ha hq hlo hlt
    exact ⟨f, hf, (hu.leaves q hq).trans hleaf, (hu.calm.busy f hb).2.trans hz⟩
  old q hq hn := (hu.leaves q hq).trans (h.old q hq hn)

/-- **The undo**: exactly the pages mapped so far are unmapped. -/
theorem Grown.undo (h : Grown D held root perm lo a k₀ k) (h₀ : Space D held root k₀)
    (hperm : perm < 1024) (hfree : FreeFrom root lo k₀) (hlo : lo % PGSIZE = 0)
    (ham : a % PGSIZE = 0) (hle : lo ≤ a) (ha : a ≤ TRAPFRAME) :
    wp (uvmdealloc root a lo) (fun _ k' => Undone D held root k₀ k') NoPanic k := by
  refine (uvmdealloc_space h.space hle ha).mono fun _ k' h' => ?_
  obtain ⟨_, hs', hu⟩ := h'
  have hlo' : lo ≤ TRAPFRAME := Nat.le_trans hle ha
  have hpa : pages a = a / PGSIZE := by
    unfold pages
    rw [PGROUNDUP_of_mod ha ham]
  have hpl : pages lo = lo / PGSIZE := by
    unfold pages
    rw [PGROUNDUP_of_mod hlo' hlo]
  rw [PGROUNDUP_of_mod hlo' hlo, hpa, hpl] at hu
  have hdiv : lo / PGSIZE ≤ a / PGSIZE := Nat.div_le_div_right hle
  have hw : ∀ q, Within lo (a / PGSIZE - lo / PGSIZE) q ↔ lo / PGSIZE ≤ pageOf q ∧
    pageOf q < a / PGSIZE := by
    intro q
    unfold Within
    omega
  refine hu.undone h₀ hs' h.calm (fun q hq hin => ?_) fun q hq hout =>
    h.old q hq fun hc => hout ((hw q).mpr hc)
  have hin := (hw q).mp hin
  refine ⟨hfree q hq hin.1 (Nat.lt_of_lt_of_le hin.2 (Nat.div_le_div_right ha)), fun g hg => ?_⟩
  obtain ⟨f, hf, hn, _⟩ := h.fresh_busy hperm ha hq hin.1 hin.2
  rw [hn, Option.some.injEq] at hg
  exact hg ▸ hf

/-- The loop of `uvmalloc`. `hcap`: no page is left before `a` gets to `TRAPFRAME`, or the
size is not beyond it. -/
theorem uvmallocFrom_space (h₀ : Space D held root k₀) (hperm : PTE_R ||| PTE_U ||| xperm < 1024)
    (hfree : FreeFrom root lo k₀) (hlo : lo % PGSIZE = 0)
    (hcap : ∀ a k, Grown D held root (PTE_R ||| PTE_U ||| xperm) lo a k₀ k →
      lo ≤ a → a ≤ TRAPFRAME →
      a < newsz → a < TRAPFRAME) :
    ∀ (n : Nat) {a : Nat} {k : Kmem}, newsz ≤ a + n * PGSIZE → a % PGSIZE = 0 → lo ≤ a →
      a ≤ TRAPFRAME → a < newsz + PGSIZE →
      Grown D held root (PTE_R ||| PTE_U ||| xperm) lo a k₀ k →
      wp (uvmallocFrom root lo newsz xperm a) (fun r k' =>
        (r = 0 ∧ Undone D held root k₀ k') ∨
        (r = newsz ∧ newsz ≤ TRAPFRAME ∧
          Grown D held root (PTE_R ||| PTE_U ||| xperm) lo (PGROUNDUP newsz) k₀ k'))
        NoPanic k := by
  -- the end of the loop
  have hover : ∀ {a : Nat} {k : Kmem}, newsz ≤ a → a % PGSIZE = 0 → a ≤ TRAPFRAME →
      a < newsz + PGSIZE → Grown D held root (PTE_R ||| PTE_U ||| xperm) lo a k₀ k →
      wp (uvmallocFrom root lo newsz xperm a) (fun r k' =>
        (r = 0 ∧ Undone D held root k₀ k') ∨ (r = newsz ∧ newsz ≤ TRAPFRAME ∧
          Grown D held root (PTE_R ||| PTE_U ||| xperm) lo (PGROUNDUP newsz) k₀ k')) NoPanic k := by
    intro a k hge ham hmax hpast h
    unfold uvmallocFrom
    rw [dif_neg (Nat.not_lt_of_le hge)]
    have hnew := Nat.le_trans hge hmax
    have ha : a = PGROUNDUP newsz := by
      rw [PGROUNDUP_eq hnew]
      rw [PGSIZE_eq] at ham hpast
      omega
    exact .inr ⟨rfl, hnew, ha ▸ h⟩
  intro n
  induction n with
  | zero =>
    intro a k hn ham _ hmax hpast h
    rw [Nat.zero_mul, Nat.add_zero] at hn
    exact hover hn ham hmax hpast h
  | succ n ih =>
    intro a k hn ham hla hmax hpast h
    by_cases hlt : a < newsz
    swap
    · exact hover (Nat.le_of_not_lt hlt) ham hmax hpast h
    have hat := hcap a k h hla hmax hlt
    unfold uvmallocFrom
    rw [dif_pos hlt]
    have hpage : pageOf (way a) = a / PGSIZE := pageOf_way (Nat.lt_trans hat (by decide))
    have hno : k.leaf root (way a) = none := by
      rw [h.old (way a) rfl (by omega)]
      refine hfree (way a) rfl ?_ ?_
      · rw [hpage]
        exact Nat.div_le_div_right hla
      · rw [hpage]
        simp only [TRAPFRAME_eq, PGSIZE_eq] at *
        omega
    have hundo : ∀ k', Undone D held root k k' → wp (do let _ ← uvmdealloc root a lo; pure 0)
        (fun r k' => (r = 0 ∧ Undone D held root k₀ k') ∨ (r = newsz ∧ newsz ≤ TRAPFRAME ∧
          Grown D held root (PTE_R ||| PTE_U ||| xperm) lo (PGROUNDUP newsz) k₀ k')) NoPanic k' :=
      fun k' hu => ((h.step hperm hmax hu).undo h₀ hperm hfree hlo ham hla hmax).andThen
        fun _ k'' h'' => .inl ⟨rfl, h''⟩
    refine wp_mapFresh (x := fun _ => 0) h.space hat ham hno hperm (fun _ _ _ => rfl) hundo hundo
      fun f k' hf hs' hc hl hz => ?_
    -- one page more
    have hd : (a + PGSIZE) / PGSIZE = a / PGSIZE + 1 := Nat.add_div_right a (by decide)
    have hway : ∀ q, q.length = 3 → (q = way a ↔ pageOf q = a / PGSIZE) := fun q hq =>
      eq_way (Nat.lt_trans hat (by decide)) hq
    have hnext : a + PGSIZE ≤ TRAPFRAME := by
      simp only [TRAPFRAME_eq, PGSIZE_eq] at *
      omega
    refine ih (by rw [Nat.succ_mul] at hn; omega)
      ((Nat.add_mod_right a PGSIZE).trans ham) (by omega)
      hnext (by omega) ⟨hs', h.calm.trans hc, fun q hq hlq hqa => ?_, fun q hq hn => ?_⟩
    · rw [hd] at hqa
      by_cases hqw : q = way a
      · exact ⟨f, h.calm.fewer hf, by rw [hl q hq, if_pos hqw], hz⟩
      · have hne := mt (hway q hq).mpr hqw
        obtain ⟨g, hg, _, hleaf, hz, hb⟩ := h.fresh_busy hperm hmax hq hlq (by omega)
        exact ⟨g, hg, by rw [hl q hq, if_neg hqw]; exact hleaf, (hc.busy g hb).2.trans hz⟩
    · rw [hd] at hn
      have hqw : q ≠ way a := fun he => hn ⟨by
        rw [he, hpage]
        exact Nat.div_le_div_right hla, by
        rw [he, hpage]
        omega⟩
      rw [hl q hq, if_neg hqw]
      exact h.old q hq fun hc => hn ⟨hc.1, by omega⟩

/-- Before the first turn. -/
theorem Grown.start (h : Space D held root k) : Grown D held root perm lo lo k k :=
  ⟨h, Calm.refl root k, fun _ _ h₁ h₂ => absurd h₂ (Nat.not_lt_of_le h₁), fun _ _ _ => rfl⟩

/-- **`uvmalloc`.** -/
theorem uvmalloc_space (h : Space D held root k) (hperm : PTE_R ||| PTE_U ||| xperm < 1024)
    (hle : oldsz ≤ newsz) (hnew : newsz ≤ TRAPFRAME) (hfree : FreeFrom root (PGROUNDUP oldsz) k) :
    wp (uvmalloc root oldsz newsz xperm) (fun r k' =>
      (r = 0 ∧ Undone D held root k k') ∨
      (r = newsz ∧ Grown D held root (PTE_R ||| PTE_U ||| xperm) (PGROUNDUP oldsz)
        (PGROUNDUP newsz) k k')) NoPanic k := by
  have hold := Nat.le_trans hle hnew
  have hround := PGROUNDUP_eq hold
  unfold uvmalloc
  rw [if_neg (Nat.not_lt_of_le hle)]
  refine (uvmallocFrom_space h hperm hfree (PGROUNDUP_mod oldsz)
    (fun _ _ _ _ _ hlt => Nat.lt_of_lt_of_le hlt hnew) newsz
    (Nat.le_add_left_of_le (Nat.le_mul_of_pos_right newsz (by decide))) (PGROUNDUP_mod oldsz)
    (Nat.le_refl _) (PGROUNDUP_le hold) ?_ (Grown.start h)).mono fun r k' h' => ?_
  · rw [PGSIZE_eq]
    omega
  · exact h'.imp_right fun hr => ⟨hr.1, hr.2.2⟩

/-! ## The result -/

/-- Some path of at most two indices leads to it. -/
def Kmem.IsTable (k : Kmem) (root f : Frame) : Prop := ∃ p, p.length ≤ 2 ∧ k.node root p = some f

/-- A page that was free and is not any more is a table now. -/
theorem Undone.returned (h : Undone D held root k₀ k) (h₀ : Space D held root k₀)
    (hf : f ∈ k₀.freelist) :
    f ∈ k.freelist ∨ k.IsTable root f := by
  rcases (h.space.split.mem f).mp (h₀.of_free hf) with hc | ⟨q, hq⟩
  · rcases List.mem_append.mp hc with hc | hc
    · exact absurd hf (h₀.busy_held hc).1
    · exact .inl hc
  · obtain ⟨hm, hq⟩ := own_eq_some.mp hq
    rcases hm with hl | ⟨h3, hu⟩
    · exact .inr ⟨q, hl, hq⟩
    · rw [node_of_leaf h3, h.leaves q h3, ← node_of_leaf h3] at hq
      exact absurd hf (h₀.not_free_of_node (.inr ⟨h3, hu⟩) hq)

/-- What a `uvmalloc` that succeeds leaves, `uvmdealloc` takes back. -/
theorem Grown.restore (h : Grown D held root perm (PGROUNDUP oldsz) (PGROUNDUP newsz) k₀ k)
    (hle : oldsz ≤ newsz) (hnew : newsz ≤ TRAPFRAME) (hfree : FreeFrom root (PGROUNDUP oldsz) k₀) :
    wp (uvmdealloc root newsz oldsz) (fun _ k' => SameLeaves root k₀ k') NoPanic k := by
  refine (uvmdealloc_space h.space hle hnew).mono fun _ k' h' q hq => ?_
  have hmono := pages_mono hle hnew
  have hmax := pages_le hnew
  rw [h'.2.2.leaf q hq]
  split
  next hw =>
    obtain ⟨hlo, hhi⟩ := hw
    have hhi : pageOf q < pages oldsz + (pages newsz - pages oldsz) := hhi
    exact (hfree q hq hlo (by omega)).symm
  next hw =>
    refine h.old q hq fun hc => hw ⟨hc.1, ?_⟩
    have hlt : pageOf q < pages newsz := hc.2
    show pageOf q < pages oldsz + (pages newsz - pages oldsz)
    omega

/-- `uvmalloc` as its callers see it. -/
def Alloc (D : Frame → Prop) (held : List Frame) (root oldsz newsz xperm : Nat) (k : Kmem) (r : Nat)
    (k' : Kmem) : Prop :=
  (r = 0 ∧ Undone D held root k k' ∧ ∀ f ∈ k.freelist, f ∈ k'.freelist ∨ k'.IsTable root f) ∨
  (r = max oldsz newsz ∧
    Grown D held root (PTE_R ||| PTE_U ||| xperm) (PGROUNDUP oldsz) (PGROUNDUP newsz) k k' ∧
    wp (uvmdealloc root newsz oldsz) (fun _ k'' => SameLeaves root k k'') NoPanic k')

/-- The pages between the sizes are no longer mapped, and they are what is newly free. -/
def Dealloc (D : Frame → Prop) (held : List Frame) (root oldsz newsz : Nat) (k : Kmem) (r : Nat)
    (k' : Kmem) : Prop :=
  r = min oldsz newsz ∧ Space D held root k' ∧
  (∀ q, q.length = 3 → k'.leaf root q =
    if pages newsz ≤ pageOf q ∧ pageOf q < pages oldsz then none else k.leaf root q) ∧
  ∀ f, f ∈ k'.freelist ↔ f ∈ k.freelist ∨
    ∃ q, q.length = 3 ∧ pages newsz ≤ pageOf q ∧ pageOf q < pages oldsz ∧ k.node root q = some f

/-- **Growing and shrinking user memory.** -/
theorem uvmalloc_uvmdealloc (h : Space D held root k) (hx : xperm < 1024) (hold : oldsz ≤ TRAPFRAME)
    (hnew : newsz ≤ TRAPFRAME) (hfree : FreeFrom root (PGROUNDUP oldsz) k) :
    wp (uvmalloc root oldsz newsz xperm) (Alloc D held root oldsz newsz xperm k) NoPanic k ∧
    wp (uvmdealloc root oldsz newsz) (Dealloc D held root oldsz newsz k) NoPanic k := by
  have hperm : PTE_R ||| PTE_U ||| xperm < 1024 := Nat.or_lt_two_pow (n := 10) (by decide) hx
  constructor
  · by_cases hle : oldsz ≤ newsz
    · refine (uvmalloc_space h hperm hle hnew hfree).mono fun r k' h' => ?_
      rcases h' with ⟨hr, hu⟩ | ⟨hr, hg⟩
      · exact .inl ⟨hr, hu, fun f hf => hu.returned h hf⟩
      · exact .inr ⟨hr.trans (Nat.max_eq_right hle).symm, hg, hg.restore hle hnew hfree⟩
    · have hlt : newsz < oldsz := Nat.lt_of_not_le hle
      have hround : PGROUNDUP newsz / PGSIZE ≤ PGROUNDUP oldsz / PGSIZE :=
        pages_mono (Nat.le_of_lt hlt) hold
      unfold uvmalloc
      rw [if_pos hlt]
      refine .inr ⟨(Nat.max_eq_left (Nat.le_of_lt hlt)).symm, ⟨h, Calm.refl root k, fun q _ h₁ h₂ =>
        absurd h₂ (Nat.not_lt_of_le (Nat.le_trans hround h₁)), fun _ _ _ => rfl⟩, ?_⟩
      refine (uvmdealloc_same (Nat.le_of_lt hlt)).mono fun _ k'' h'' => ?_
      rw [h''.2]
      exact SameLeaves.refl root k
  · by_cases hle : newsz ≤ oldsz
    · refine (uvmdealloc_space h hle hold).mono fun r k' h' => ?_
      obtain ⟨hr, hs, hu⟩ := h'
      have hmono := pages_mono hle hold
      have hin : ∀ q, Within (PGROUNDUP newsz) (pages oldsz - pages newsz) q ↔
          pages newsz ≤ pageOf q ∧ pageOf q < pages oldsz := by
        intro q
        show (pages newsz ≤ _ ∧ _ < pages newsz + _) ↔ _
        omega
      refine ⟨hr.trans (Nat.min_eq_right hle).symm, hs, fun q hq => ?_, fun f => ?_⟩
      · rw [hu.leaf q hq]
        simp only [hin]
      · rw [hu.free h hs]
        · simp only [hin, and_assoc]
        · show pages newsz + _ ≤ _
          have hmax := pages_le hold
          omega
    · have hlt : oldsz < newsz := Nat.lt_of_not_le hle
      have hmono := pages_mono (Nat.le_of_lt hlt) hnew
      refine (uvmdealloc_same (Nat.le_of_lt hlt)).mono fun r k' h' => ?_
      obtain ⟨hr, rfl⟩ := h'
      refine ⟨hr.trans (Nat.min_eq_left (Nat.le_of_lt hlt)).symm, h, fun q _ => ?_, fun f => ?_⟩
      · rw [if_neg (by omega)]
      · refine ⟨.inl, fun hc => hc.elim id ?_⟩
        rintro ⟨q, _, h₁, h₂, _⟩
        omega

/-- Eight pages of zeros from `KERNBASE` on, of which the first is a page table. -/
def eight : Kmem where
  mem _ _ := 0
  freelist := [524289, 524290, 524291, 524292, 524293, 524294, 524295]
  oom := []
  low := 524288
  trampoline := 0

theorem eight_pool : Pool (· ∈ 524288 :: eight.freelist) [524288] eight where
  nodup := by decide
  mem _ := Iff.rfl
  ram f := by
    intro hf
    have hall : ∀ g ∈ 524288 :: eight.freelist, eight.low ≤ g ∧ g < PHYSTOP / PGSIZE := by decide
    exact hall f hf

theorem eight_space : Space (· ∈ 524288 :: eight.freelist) [] 524288 eight := eight_pool.space rfl

theorem uvmalloc_uvmdealloc_eight :
    wp (uvmalloc 524288 1 9000 PTE_W)
      (Alloc (· ∈ 524288 :: eight.freelist) [] 524288 1 9000 PTE_W eight) NoPanic eight ∧
    wp (uvmdealloc 524288 1 9000)
      (Dealloc (· ∈ 524288 :: eight.freelist) [] 524288 1 9000 eight) NoPanic eight :=
  uvmalloc_uvmdealloc eight_space (by decide) (by decide) (by decide) (freeFrom_zero rfl)

end Xv6.Vm
