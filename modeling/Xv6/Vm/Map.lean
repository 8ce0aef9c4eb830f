import Xv6.Vm.Walk

/-!
# Mapping and unmapping

`mappages` of one page enters one leaf or, when `walk` runs out of pages, none
(`mappages_space`). `uvmunmap` removes the leaves of a range of pages and gives the
pages back (`uvmunmap_space`); what is not mapped it skips.
-/

namespace Xv6.Vm

open Lib

variable {D : Frame → Prop} {held held' : List Frame} {root t f pa : Frame} {k k₀ k' k'' : Kmem}
  {p q : List (Fin 512)} {i : Fin 512} {w : Pte} {va perm a : Nat}

/-- **One leaf is written.** -/
theorem Space.leafStore (h : Space D held root k) (ht : k.node root [PX 1 va, PX 2 va] = some t)
    (hw : w < 2 ^ 64)
    (hp : ((if Mine (way va) then next w else none).toList ++ held').Perm
      ((k.own root (way va)).toList ++ held)) :
    Space D held' root (k.setPte t (PX 0 va) w) ∧
    (∀ q, q.length = 3 →
      (k.setPte t (PX 0 va) w).entry root q = if q = way va then w else k.entry root q) ∧
    (∀ q, q.length ≤ 2 → (k.setPte t (PX 0 va) w).node root q = k.node root q) ∧
    Calm root k (k.setPte t (PX 0 va) w) := by
  have hs : Stored root t (PX 0 va) [PX 1 va, PX 2 va] w k (k.setPte t (PX 0 va) w) := {
    at_ := ht
    len := Nat.le_refl 2
    is := rfl
    lt := hw
    old := fun hc => absurd hc (Nat.not_succ_le_self 1)
    new := fun hc => absurd hc (Nat.not_succ_le_self 1) }
  have hn : ∀ q, q.length ≤ 2 → (k.setPte t (PX 0 va) w).node root q = k.node root q := by
    intro q hq
    rw [hs.node h.tables_apart (by omega), if_neg]
    intro he
    rw [he] at hq
    exact absurd hq (by decide : ¬3 ≤ 2)
  refine ⟨h.store hs (fun hc => absurd hc (Nat.not_succ_le_self 1)) hp,
    fun q hq => hs.entry h.tables_apart hq,
    hn, ?_⟩
  refine ⟨fun g hg => ⟨⟨hg.1, fun q hq hc => hg.2 q hq ((hn q hq).symm.trans hc)⟩, ?_⟩,
    fun q u hq hu => (hn q hq).trans hu, fun _ hg => hg, rfl, rfl⟩
  have hgt : g ≠ t := fun he => hg.2 [PX 1 va, PX 2 va] (Nat.le_refl 2) (he ▸ ht)
  exact setPage_of_ne hgt _ _

theorem leaf_of_found (ht : k.node root [PX 1 va, PX 2 va] = some t) :
    k.entry root (way va) = k.pte t (PX 0 va) := entry_of_node ht

/-- A leaf that is not there owns nothing. -/
theorem own_of_leaf_none (h : k.leaf root (way va) = none) : k.own root (way va) = none := by
  unfold Kmem.own
  split
  next => rw [node_of_leaf rfl, h, Option.map_none]
  next => rfl

/-- One page more, in a free place. -/
theorem mappages_space (h : Space D held root k) (hva : va < MAXVA) (ha : va % PGSIZE = 0)
    (hnew : k.leaf root (way va) = none) (hperm : perm < 1024) (hpa : pa < 2 ^ 52)
    (hheld : (if Mine (way va) then some pa else none).toList ++ held' = held) :
    wp (mappages root va PGSIZE pa perm) (fun ok k' => Calm root k k' ∧
      (ok = false ∧ Space D held root k' ∧ SameLeaves root k k' ∨
       ok = true ∧ Space D held' root k' ∧ ∀ q, q.length = 3 → k'.leaf root q =
         if q = way va then some (PA2PTE pa ||| perm ||| PTE_V) else k.leaf root q))
      NoPanic k := by
  have hw : PA2PTE pa ||| perm ||| PTE_V < 2 ^ 64 := by
    rw [Nat.or_assoc]
    exact or_lt hpa (Nat.or_lt_two_pow (n := 10) hperm (by decide))
  have hnext := @next_made pa _ hperm
  unfold mappages
  rw [if_neg (not_not.mpr ha), if_neg (by decide), if_neg (by decide)]
  show wp (mappagesFrom root perm 0 va pa) _ _ _
  unfold mappagesFrom
  refine (walk_space h hva).andThen fun r k₁ h₁ => ?_
  obtain ⟨hs₁, hl₁, hc₁, hr₁⟩ := h₁
  cases r with
  | none => exact ⟨hc₁, .inl ⟨rfl, hs₁, hl₁⟩⟩
  | some ti =>
    obtain ⟨t, i⟩ := ti
    obtain ⟨rfl, ht⟩ := hr₁ t i rfl
    have hno : k₁.leaf root (way va) = none := (hl₁ (way va) rfl).trans hnew
    have hz : k₁.pte t (PX 0 va) &&& PTE_V = 0 := by
      rw [← leaf_of_found ht]
      exact leaf_eq_none.mp hno
    show wp (get >>= fun k => _) _ _ _
    rw [wp_bind, wp_get, wp_ite]
    refine ⟨fun hc => absurd hz hc, fun _ => ?_⟩
    rw [wp_bind, wp_modify]
    obtain ⟨hs₂, he₂, _, hc₂⟩ := hs₁.leafStore ht hw (by
      rw [own_of_leaf_none hno, hnext, hheld]
      exact List.Perm.refl _)
    refine ⟨hc₁.trans hc₂, .inr ⟨rfl, hs₂, fun q hq => ?_⟩⟩
    by_cases hqv : q = way va
    · rw [if_pos hqv, leaf_eq_some]
      refine ⟨?_, by rw [he₂ q hq, if_pos hqv]⟩
      exact (next_eq_some.mp hnext).1
    · rw [if_neg hqv, ← hl₁ q hq]
      exact leaf_congr (by rw [he₂ q hq, if_neg hqv])

/-! ## Unmapping -/

/-- The pages a range of addresses covers. -/
def Within (a n : Nat) (q : List (Fin 512)) : Prop :=
  a / PGSIZE ≤ pageOf q ∧ pageOf q < a / PGSIZE + n

instance (a n : Nat) (q : List (Fin 512)) : Decidable (Within a n q) :=
  inferInstanceAs (Decidable (_ ∧ _))

/-- The leaves of `n` pages from `a` on are gone, and nothing else is. -/
structure Unmapped (root : Frame) (a n : Nat) (k k' : Kmem) : Prop where
  leaf : ∀ q, q.length = 3 → k'.leaf root q = if Within a n q then none else k.leaf root q
  tables : ∀ q, q.length ≤ 2 → k'.node root q = k.node root q
  busy : ∀ g, Busy root k g → (∀ q, q.length = 3 → Within a n q → k.node root q ≠ some g) →
    Busy root k' g ∧ k'.mem g = k.mem g
  low : k'.low = k.low
  trampoline : k'.trampoline = k.trampoline

theorem Unmapped.zero (root : Frame) (a : Nat) (k : Kmem) : Unmapped root a 0 k k where
  leaf q _ := by
    rw [if_neg]
    unfold Within
    omega
  tables _ _ := rfl
  busy _ hg _ := ⟨hg, rfl⟩
  low := rfl
  trampoline := rfl

theorem within_succ {a n : Nat} : Within a (n + 1) q ↔
    pageOf q = a / PGSIZE ∨ Within (a + PGSIZE) n q := by
  have hd : (a + PGSIZE) / PGSIZE = a / PGSIZE + 1 := Nat.add_div_right a (by decide)
  unfold Within
  rw [hd]
  omega

/-- One page, then the others. -/
theorem Unmapped.succ {a n : Nat} (h : Unmapped root a 1 k k')
    (h' : Unmapped root (a + PGSIZE) n k' k'') : Unmapped root a (n + 1) k k'' := by
  have hleaf : ∀ {q}, q.length = 3 → ¬pageOf q = a / PGSIZE → k'.leaf root q = k.leaf root q :=
    fun {q} hq hn => by
      rw [h.leaf q hq, if_neg]
      unfold Within
      omega
  refine ⟨fun q hq => ?_, fun q hq => (h'.tables q hq).trans (h.tables q hq), fun g hg hno => ?_,
    h'.low.trans h.low, h'.trampoline.trans h.trampoline⟩
  · rw [h'.leaf q hq]
    by_cases hw : Within (a + PGSIZE) n q
    · rw [if_pos hw, if_pos (within_succ.mpr (.inr hw))]
    · rw [if_neg hw]
      by_cases hp : pageOf q = a / PGSIZE
      · rw [if_pos (within_succ.mpr (.inl hp)), h.leaf q hq, if_pos]
        unfold Within
        omega
      · rw [if_neg fun hc => (within_succ.mp hc).elim hp hw]
        exact hleaf hq hp
  · obtain ⟨hg₁, hm₁⟩ := h.busy g hg fun q hq hw =>
      hno q hq (within_succ.mpr (.inl (by unfold Within at hw; omega)))
    obtain ⟨hg₂, hm₂⟩ := h'.busy g hg₁ fun q hq hw hc => by
      refine hno q hq (within_succ.mpr (.inr hw)) ?_
      rw [← hc, node_of_leaf hq, node_of_leaf hq, hleaf hq]
      have hd : (a + PGSIZE) / PGSIZE = a / PGSIZE + 1 := Nat.add_div_right a (by decide)
      unfold Within at hw
      omega
    exact ⟨hg₂, hm₂.trans hm₁⟩

/-- Nothing mapped there. -/
theorem Unmapped.skip (hva : va < MAXVA) (h : k.leaf root (way va) = none) :
    Unmapped root va 1 k k where
  leaf q hq := by
    split
    next hw =>
      have hqv : q = way va := by
        rw [eq_way (Nat.lt_trans hva (by decide)) hq]
        unfold Within at hw
        omega
      rw [hqv, h]
    next => rfl
  tables _ _ := rfl
  busy _ hg _ := ⟨hg, rfl⟩
  low := rfl
  trampoline := rfl

/-- Nothing is mapped where `walk` finds no table. -/
theorem leaf_none_of_none (h : k.node root [PX 1 va, PX 2 va] = none) :
    k.leaf root (way va) = none := by
  rw [leaf_eq_none, show k.entry root (way va) = 0 from entry_of_none h]
  exact Nat.zero_and _

theorem mine_way (hva : va < TRAPFRAME) (ha : va % PGSIZE = 0) : Mine (way va) := by
  refine .inr ⟨rfl, ?_⟩
  rw [pageOf_way (Nat.lt_trans hva (by decide))]
  simp only [PGSIZE_eq, TRAPFRAME_eq] at *
  omega

/-- What follows the look-up of a mapped page that is to be freed. -/
theorem unmap_page (h : Space D held root k) (hva : va < TRAPFRAME) (ha : va % PGSIZE = 0)
    (ht : k.node root [PX 1 va, PX 2 va] = some t) (hv : k.pte t (PX 0 va) &&& PTE_V ≠ 0)
    (hg : Given (PTE2PA (k.pte t (PX 0 va))) k k') :
    Space D held root (k'.setPte t (PX 0 va) 0) ∧
    Unmapped root va 1 k (k'.setPte t (PX 0 va) 0) := by
  have hmine := mine_way hva ha
  have hmax : va < 2 ^ 39 := Nat.lt_trans hva (by decide)
  have hnode : k.node root (way va) = some (PTE2PA (k.pte t (PX 0 va))) :=
    (node_next ht _).trans (next_of_valid hv)
  generalize hf : PTE2PA (k.pte t (PX 0 va)) = f at *
  obtain ⟨hs₁, he₁, hn₁, hc₁⟩ := h.leafStore (w := 0) ht (by decide) (by
    rw [own_of_mine hmine, hnode, if_pos hmine]
    exact List.Perm.refl _)
  -- the page is not a table, so that it does not matter which of the two is done first
  have htf : t ≠ f := fun he => by
    have hne := h.node_inj (p := [PX 1 va, PX 2 va]) (mine_table (Nat.le_refl 2))
      hmine ht (he ▸ hnode)
    exact absurd (congrArg List.length hne) (Nat.succ_ne_self 2).symm
  have hmem : ∀ g, g ≠ f → (k'.setPte t (PX 0 va) 0).mem g = (k.setPte t (PX 0 va) 0).mem g := by
    intro g hgf
    by_cases hgt : g = t
    · rw [hgt]
      show (k'.setPage t _).mem t = (k.setPage t _).mem t
      rw [setPage_self, setPage_self, hg.mem t htf]
    · exact (setPage_of_ne hgt _ _).trans ((hg.mem g hgf).trans (setPage_of_ne hgt _ _).symm)
  have hfree : (k'.setPte t (PX 0 va) 0).freelist = f :: k.freelist := hg.free
  have hgiven : Given f (k.setPte t (PX 0 va) 0) (k'.setPte t (PX 0 va) 0) :=
    ⟨hfree, hmem, hg.low, hg.trampoline⟩
  have hkept := hgiven.kept hs₁
  refine ⟨hgiven.space hs₁, fun q hq => ?_, fun q hq => (hkept.node (by omega)).trans (hn₁ q hq),
    fun g hbusy hno => ?_, hg.low, hg.trampoline⟩
  · rw [hkept.leaf (Nat.le_of_eq hq)]
    by_cases hqv : q = way va
    · have hw : Within va 1 q := by
        rw [eq_way hmax hq] at hqv
        unfold Within
        omega
      rw [if_pos hw, leaf_eq_none, he₁ q hq, if_pos hqv]
      exact Nat.zero_and _
    · have hw : ¬Within va 1 q :=
        fun hw => hqv ((eq_way hmax hq).mpr (by unfold Within at hw; omega))
      rw [if_neg hw]
      exact leaf_congr (by rw [he₁ q hq, if_neg hqv])
  · have hgf : g ≠ f := fun he => hno (way va) rfl (by
      unfold Within
      rw [pageOf_way hmax]
      omega) (he ▸ hnode)
    obtain ⟨hb₁, hm₁⟩ := hc₁.busy g hbusy
    refine ⟨⟨fun hc => ?_, fun q hq hc => ?_⟩, (hmem g hgf).trans hm₁⟩
    · rw [hfree] at hc
      exact (List.mem_cons.mp hc).elim hgf hbusy.1
    · exact hb₁.2 q hq ((hkept.node (by omega)).symm.trans hc)

theorem uvmunmapFrom_space : ∀ (n : Nat) {a : Nat} {k : Kmem}, Space D held root k →
    a % PGSIZE = 0 → a + n * PGSIZE ≤ TRAPFRAME →
    wp (uvmunmapFrom root true n a)
      (fun _ k' => Space D held root k' ∧ Unmapped root a n k k') NoPanic k := by
  intro n
  induction n with
  | zero => intro a k h _ _; exact ⟨h, Unmapped.zero root a k⟩
  | succ n ih =>
    intro a k h ha hle
    have hva : a < TRAPFRAME := 
      Nat.lt_of_lt_of_le (Nat.lt_add_of_pos_right (Nat.mul_pos (Nat.succ_pos n) (by decide))) hle
    have hmax : a < MAXVA := Nat.lt_trans hva (by decide)
    have hnext : (a + PGSIZE) % PGSIZE = 0 := (Nat.add_mod_right a PGSIZE).trans ha
    have hle' : a + PGSIZE + n * PGSIZE ≤ TRAPFRAME := by
      rw [Nat.add_right_comm, Nat.add_assoc, ← Nat.succ_mul]
      exact hle
    -- what one turn leaves behind, the other turns go on from
    have hrest : ∀ {k₁ : Kmem}, Space D held root k₁ → Unmapped root a 1 k k₁ →
        wp (uvmunmapFrom root true n (a + PGSIZE))
          (fun _ k' => Space D held root k' ∧ Unmapped root a (n + 1) k k') NoPanic k₁ :=
      fun hs hu => (ih hs hnext hle').mono fun _ k₂ h₂ => ⟨h₂.1, hu.succ h₂.2⟩
    unfold uvmunmapFrom
    refine (walk_look hmax).andThen fun r k₀ h₀ => ?_
    obtain ⟨rfl, hr⟩ := h₀
    cases r with
    | none => exact hrest h (Unmapped.skip hmax (leaf_none_of_none hr))
    | some ti =>
      obtain ⟨t, i⟩ := ti
      obtain ⟨rfl, hn⟩ := hr
      simp only [wp_bind, wp_get, wp_ite, wp_modify]
      refine ⟨fun hz => ?_, fun hv => ⟨fun _ => ?_, fun hc => absurd trivial hc⟩⟩
      · refine hrest h (Unmapped.skip hmax ?_)
        rw [leaf_eq_none, leaf_of_found hn]
        exact hz
      · have hnode : k₀.node root (way a) = some (PTE2PA (k₀.pte t (PX 0 a))) :=
          (node_next hn _).trans (next_of_valid hv)
        refine (kfree_wp (h.ram _ (h.of_node (mine_way hva ha) hnode))).mono fun _ k₁ h₁ => ?_
        obtain ⟨hs₂, hu₂⟩ := unmap_page h hva ha hn hv h₁
        exact hrest hs₂ hu₂

/-- **`uvmunmap`** of pages below `TRAPFRAME`, which are freed. -/
theorem uvmunmap_space {a n : Nat} (h : Space D held root k) (ha : a % PGSIZE = 0)
    (hle : a + n * PGSIZE ≤ TRAPFRAME) : wp (uvmunmap root a n true)
      (fun _ k' => Space D held root k' ∧ Unmapped root a n k k') NoPanic k := by
  unfold uvmunmap
  rw [if_neg (not_not.mpr ha)]
  exact uvmunmapFrom_space n h ha hle

/-! ## A fresh page, or nothing -/

/-- What kept its pages took none. -/
theorem Space.fewer (h : Space D held root k) (h' : Space D held root k')
    (hb : ∀ g, Busy root k g → Busy root k' g)
    (ht : ∀ p t, p.length ≤ 2 → k.node root p = some t → k'.node root p = some t) :
    k'.freelist ⊆ k.freelist := by
  intro g hg
  rcases (h.split.mem g).mp (h'.of_free hg) with hc | ⟨q, hq⟩
  · rcases List.mem_append.mp hc with hc | hc
    · exact absurd hg (h'.busy_held hc).1
    · exact hc
  · obtain ⟨hm, hq⟩ := own_eq_some.mp hq
    rcases hm with hl | ⟨h3, hu⟩
    · exact absurd hg (h'.not_free_of_node (mine_table hl) (ht q g hl hq))
    · exact absurd hg (hb g (h.busy_leaf (.inr ⟨h3, hu⟩) h3 hq)).1

/-- As if nothing had been done, but for new tables. -/
structure Undone (D : Frame → Prop) (held : List Frame) (root : Frame) (k₀ k : Kmem) : Prop where
  space : Space D held root k
  calm : Calm root k₀ k
  leaves : SameLeaves root k₀ k

/-- Unmapping the pages that were mapped since, all of which were free, is undoing. -/
theorem Unmapped.undone {n : Nat} (hu : Unmapped root a n k k') (h₀ : Space D held root k₀)
    (hs' : Space D held root k') (hc : Calm root k₀ k)
    (hnew : ∀ q, q.length = 3 → Within a n q →
      k₀.leaf root q = none ∧ ∀ g, k.node root q = some g → g ∈ k₀.freelist)
    (hold : ∀ q, q.length = 3 → ¬Within a n q → k.leaf root q = k₀.leaf root q) :
    Undone D held root k₀ k' := by
  have hbusy : ∀ g, Busy root k₀ g → Busy root k' g ∧ k'.mem g = k₀.mem g := by
    intro g hg
    obtain ⟨hg₁, hm₁⟩ := hc.busy g hg
    obtain ⟨hg₂, hm₂⟩ := hu.busy g hg₁ fun q hq hin hn => hg.1 ((hnew q hq hin).2 g hn)
    exact ⟨hg₂, hm₂.trans hm₁⟩
  have htab : ∀ p t, p.length ≤ 2 → k₀.node root p = some t → k'.node root p = some t :=
    fun p t hp ht => (hu.tables p hp).trans (hc.tables p t hp ht)
  refine ⟨hs', ⟨hbusy, htab, h₀.fewer hs' (fun g hg => (hbusy g hg).1) htab, hu.low.trans hc.low,
    hu.trampoline.trans hc.trampoline⟩, fun q hq => ?_⟩
  rw [hu.leaf q hq]
  split
  next hin => exact (hnew q hq hin).1.symm
  next hout => exact hold q hq hout

/-- `kalloc` found no page. -/
theorem Undone.refl (h : Space D held root k) :
    Undone D held root k { k with oom := k.oom.tail } := by
  have hsame : TablesKept root k { k with oom := k.oom.tail } := fun _ _ _ _ => rfl
  exact ⟨h.shuffle hsame rfl (List.Perm.refl _),
    ⟨fun g hg => ⟨hg, rfl⟩, fun _ _ _ ht => ht, fun _ hg => hg, rfl, rfl⟩, hsame.leaves⟩

/-- A page taken and given back, with new tables in between. -/
theorem Taken.undone {k₂ k₃ : Kmem} (htk : Taken f k k₂) (h : Space D held root k)
    (hs₃ : Space D (f :: held) root k₃) (hc₃ : Calm root k₂ k₃) (hl₃ : SameLeaves root k₂ k₃)
    (hgv : Given f k₃ k') : Undone D held root k k' := by
  have hc := (htk.calm h).trans hc₃
  have hk' := hgv.kept hs₃
  have hs' := hgv.space hs₃
  have hb : ∀ g, Busy root k g → Busy root k' g ∧ k'.mem g = k.mem g := by
    intro g hg
    have hgf : g ≠ f := fun he => hg.1 (he ▸ htk.mem_free)
    obtain ⟨hg₃, hm₃⟩ := hc.busy g hg
    refine ⟨⟨fun hc => ?_, fun p hp hc => hg₃.2 p hp ((hk'.node (by omega)).symm.trans hc)⟩,
      (hgv.mem g hgf).trans hm₃⟩
    rw [hgv.free] at hc
    exact (List.mem_cons.mp hc).elim hgf hg₃.1
  have ht : ∀ p t, p.length ≤ 2 → k.node root p = some t → k'.node root p = some t :=
    fun p t hp ht => (hk'.node (by omega)).trans (hc.tables p t hp ht)
  exact ⟨hs', ⟨hb, ht, h.fewer hs' (fun g hg => (hb g hg).1) ht, hgv.low.trans hc.low,
    hgv.trampoline.trans hc.trampoline⟩, ((htk.kept h).leaves.trans hl₃).trans hk'.leaves⟩

/-- **A page is allocated, filled and mapped**, or given back: what `uvmalloc`, `uvmcopy`
and `vmfault` do for each page. -/
theorem wp_mapFresh {β : Type} {none₀ fail : Kern β} {done : Frame → Kern β} {fill : Kmem → Page}
    {x : Page} {Q : β → Kmem → Prop} (h : Space D held root k) (hva : va < TRAPFRAME)
    (ha : va % PGSIZE = 0) (hno : k.leaf root (way va) = none) (hperm : perm < 1024)
    (hx : ∀ f k₁, Taken f k k₁ → fill k₁ = x)
    (hnone : ∀ k', Undone D held root k k' → wp none₀ Q NoPanic k')
    (hfail : ∀ k', Undone D held root k k' → wp fail Q NoPanic k')
    (hdone : ∀ f k', f ∈ k.freelist → Space D held root k' → Calm root k k' →
      (∀ q, q.length = 3 → k'.leaf root q =
        if q = way va then some (PA2PTE f ||| perm ||| PTE_V) else k.leaf root q) →
      k'.mem f = x → wp (done f) Q NoPanic k') :
    wp (do
      match ← kalloc with
      | none => none₀
      | some mem => do
        modify fun k => k.setPage mem (fill k)
        let ok ← mappages root va PGSIZE mem perm
        if ok = false then do
          kfree mem
          fail
        else done mem) Q NoPanic k := by
  refine kalloc_wp.andThen fun r k₁ hr => ?_
  rcases hr with ⟨rfl, rfl⟩ | ⟨f, rfl, htk⟩
  · exact hnone _ (Undone.refl h)
  · show wp (modify _ >>= fun _ => _) _ _ _
    rw [wp_bind, wp_modify, hx f k₁ htk]
    have htk₂ := htk.setPage x
    have hs₂ := htk₂.space h
    have hl₂ := (htk₂.kept h).leaves
    have hram := (h.ram f (h.of_free htk.mem_free)).2
    refine (mappages_space hs₂ (Nat.lt_trans hva (by decide)) ha
      ((hl₂ (way va) rfl).trans hno) hperm
      (Nat.lt_trans hram (by decide))
      (by rw [if_pos (mine_way hva ha)]; rfl)).andThen fun ok k₃ h₃ => ?_
    obtain ⟨hc₃, h₃⟩ := h₃
    rcases h₃ with ⟨rfl, hs₃, hl₃⟩ | ⟨rfl, hs₃, hl₃⟩
    · rw [if_pos rfl, wp_bind]
      refine (kfree_wp (hs₃.ram f (hs₃.of_held List.mem_cons_self))).mono fun _ k₄ hgv => ?_
      exact hfail k₄ (htk₂.undone h hs₃ hc₃ hl₃ hgv)
    · rw [if_neg Bool.noConfusion]
      refine hdone f k₃ htk.mem_free hs₃ ((htk₂.calm h).trans hc₃) (fun q hq => ?_) ?_
      · rw [hl₃ q hq, hl₂ q hq]
      · exact (hc₃.busy f (hs₂.busy_held List.mem_cons_self)).2.trans (setPage_self k₁ f x)

end Xv6.Vm
