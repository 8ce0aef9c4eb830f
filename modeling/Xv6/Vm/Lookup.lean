import Xv6.Vm.Map

/-!
# A page table is a map

What a page table says about an address is one entry, found through three tables that
`walk` may have to make on the way out of free pages. Seen from outside there is only a
map from pages to entries (`lookup`):

> `mappages` adds a range to it, `uvmunmap` takes it away again, and neither touches
> the rest (`page_tables_map`).

The tables have to be a tree for this (`TableTree`): no table is reached on two paths, and
none is free. That no table is mapped as data either (`Proper`) is the caller's part:
`mappages` maps the page it is given, were it the table itself (`maps_itself`).
-/

namespace Xv6.Vm

open Lib

/-- The tables of `root` are distinct and none is free. -/
structure TableTree (root : Frame) (k : Kmem) : Prop where
  nodup : k.freelist.Nodup
  ram : ∀ f ∈ k.freelist, f < PHYSTOP / PGSIZE
  apart : Radix.Apart k.child root 3
  live : ∀ {p t}, p.length ≤ 2 → k.node root p = some t → t ∉ k.freelist

/-- A proper tree: no table is mapped as data. -/
structure Proper (root : Frame) (k : Kmem) : Prop extends TableTree root k where
  data : ∀ {p q t}, p.length ≤ 2 → k.node root p = some t → q.length = 3 → k.node root q ≠ some t

variable {root t f pa : Frame} {k k' k'' : Kmem} {p q : List (Fin 512)} {i : Fin 512}
  {va perm a n : Nat} {do_free : Bool}

/-- What an operation does to the tables: those there are stay, and new ones were free. -/
structure TablesGrown (root : Frame) (k k' : Kmem) : Prop where
  tables : ∀ p t, p.length ≤ 2 → k.node root p = some t → k'.node root p = some t
  new : ∀ p t, p.length ≤ 2 → k'.node root p = some t → k.node root p = some t ∨ t ∈ k.freelist
  fewer : k'.freelist ⊆ k.freelist
  low : k'.low = k.low

namespace TablesGrown

theorem refl (root : Frame) (k : Kmem) : TablesGrown root k k :=
  ⟨fun _ _ _ ht => ht, fun _ _ _ ht => Or.inl ht, fun _ hf => hf, rfl⟩

theorem trans (h : TablesGrown root k k') (h' : TablesGrown root k' k'') :
    TablesGrown root k k'' where
  tables p t hp ht := h'.tables p t hp (h.tables p t hp ht)
  new p t hp ht := by
    rcases h'.new p t hp ht with ht | hf
    · exact h.new p t hp ht
    · exact Or.inr (h.fewer hf)
  fewer _ hf := h.fewer (h'.fewer hf)
  low := h'.low.trans h.low

end TablesGrown

theorem apart_congr (ha : Radix.Apart k.child root 3)
    (hn : ∀ q, q.length ≤ 2 → k'.node root q = k.node root q) : Radix.Apart k'.child root 3 := by
  intro p q t hp hq hpt hqt
  have hp' : k.node root p = some t := (hn p (Nat.le_of_lt_succ hp)).symm.trans hpt
  have hq' : k.node root q = some t := (hn q (Nat.le_of_lt_succ hq)).symm.trans hqt
  exact ha hp hq hp' hq'

/-! ## A new table -/

/-- A page comes off the free list. -/
theorem TableTree.take (h : TableTree root k) (htk : Taken f k k') :
    TableTree root k' ∧ TablesKept root k k' ∧ f ∉ k'.freelist ∧ f < PHYSTOP / PGSIZE ∧
      ∀ p, p.length ≤ 2 → k'.node root p ≠ some f := by
  have hkept : TablesKept root k k' := fun _ _ hp ht =>
    htk.mem _ fun he => h.live hp ht (he ▸ htk.mem_free)
  have hnode : ∀ p, p.length ≤ 2 → k'.node root p = k.node root p := fun p hp =>
    hkept.node (Nat.le_succ_of_le hp)
  have hnd := h.nodup
  rw [htk.free] at hnd
  obtain ⟨hf, hnd⟩ := List.nodup_cons.mp hnd
  have hsub : k'.freelist ⊆ k.freelist := fun g hg => by
    rw [htk.free]
    exact List.mem_cons_of_mem f hg
  refine ⟨⟨hnd, fun g hg => h.ram g (hsub hg), apart_congr h.apart hnode, fun {p t} hp ht hc => ?_⟩,
    hkept, hf, h.ram f htk.mem_free, fun p hp hc => ?_⟩
  · exact h.live hp ((hnode p hp).symm.trans ht) (hsub hc)
  · exact h.live hp ((hnode p hp).symm.trans hc) htk.mem_free

/-- It becomes a table. -/
theorem TableTree.install (h : TableTree root k) (hff : f ∉ k.freelist)
    (hram : f < PHYSTOP / PGSIZE)
    (hft : ∀ p, p.length ≤ 2 → k.node root p ≠ some f) (hp : p.length ≤ 1)
    (ht : k.node root p = some t) (hi : k.pte t i &&& PTE_V = 0) (hz : k.mem f = fun _ => 0) :
    TableTree root (k.setPte t i (PA2PTE f ||| PTE_V)) ∧
    (∀ q, q.length ≤ 3 → (k.setPte t i (PA2PTE f ||| PTE_V)).node root q =
      if q = i :: p then some f else k.node root q) ∧
    ∀ q, q.length = 3 → (k.setPte t i (PA2PTE f ||| PTE_V)).entry root q = k.entry root q := by
  have hnext : next (PA2PTE f ||| PTE_V) = some f := by
    rw [← Nat.or_zero (PA2PTE f)]
    exact next_made (b := 0) (by decide)
  have hs : Stored root t i p (PA2PTE f ||| PTE_V) k (k.setPte t i (PA2PTE f ||| PTE_V)) := {
    at_ := ht
    len := by omega
    is := rfl
    lt := or_lt (Nat.lt_trans hram (by decide)) (by decide)
    old := fun _ => next_of_invalid hi
    new := fun _ u hu => by
      rw [hnext, Option.some.injEq] at hu
      subst hu
      exact ⟨fun he => hft p (by omega) (he ▸ ht), pte_zero hz⟩ }
  have hnode : ∀ q, q.length ≤ 3 → (k.setPte t i (PA2PTE f ||| PTE_V)).node root q =
      if q = i :: p then some f else k.node root q := fun q hq => by
    rw [hs.node h.apart hq, hnext]
  refine ⟨⟨h.nodup, h.ram, ?_, fun {q u} hq hu => ?_⟩, hnode, fun q hq => ?_⟩
  · intro q r u hq hr hqu hru
    have hqu := (hnode q (by omega)).symm.trans hqu
    have hru := (hnode r (by omega)).symm.trans hru
    split at hqu <;> split at hru
    next hqe hre => rw [hqe, hre]
    next => exact absurd ((Option.some.inj hqu) ▸ hru) (hft r (by omega))
    next => exact absurd ((Option.some.inj hru) ▸ hqu) (hft q (by omega))
    next => exact h.apart hq hr hqu hru
  · rw [hnode q (by omega)] at hu
    split at hu
    next => exact (Option.some.inj hu) ▸ hff
    next => exact h.live hq hu
  · rw [hs.entry h.apart hq, if_neg]
    intro he
    rw [he, List.length_cons] at hq
    omega

/-! ## `walk` -/

theorem walkFrom_tables : ∀ (level : Nat) {p : List (Fin 512)} {t : Frame} {k : Kmem},
    TableTree root k → p.length + level = 2 → k.node root p = some t →
    wp (walkFrom va true level t) (fun r k' => TableTree root k' ∧ SameLeaves root k k' ∧
      TablesGrown root k k' ∧ ∀ u i, r = some (u, i) →
        i = PX 0 va ∧ k'.node root (below va level p) = some u) NoPanic k := by
  intro level
  induction level with
  | zero =>
    intro p t k h _ ht
    refine ⟨h, SameLeaves.refl root k, TablesGrown.refl root k, fun u i hr => ?_⟩
    rw [Option.some.injEq, Prod.mk.injEq] at hr
    exact ⟨hr.2.symm, hr.1 ▸ ht⟩
  | succ level ih =>
    intro p t k h hl ht
    have hn := node_next ht (PX (level + 1) va)
    have hl' : (PX (level + 1) va :: p).length + level = 2 := by
      rw [List.length_cons]
      omega
    unfold walkFrom
    rw [wp_bind, wp_get, wp_ite]
    refine ⟨fun hv => ih h hl' (hn.trans (next_of_valid hv)), fun hv => ?_⟩
    rw [wp_ite]
    refine ⟨fun hc => absurd hc Bool.noConfusion, fun _ => ?_⟩
    refine kalloc_wp.andThen fun r k₁ hr => ?_
    rcases hr with ⟨rfl, rfl⟩ | ⟨page, rfl, htk⟩
    · exact ⟨⟨h.nodup, h.ram, h.apart, h.live⟩, SameLeaves.refl root k,
        ⟨fun _ _ _ ht => ht, fun _ _ _ ht => Or.inl ht, fun _ hf => hf, rfl⟩,
        fun u i hc => absurd hc.symm (Option.some_ne_none (u, i))⟩
    · show wp (memset page 0 >>= fun _ => _) _ _ _
      unfold memset
      rw [wp_bind, wp_modify, wp_bind, wp_modify]
      have htk₂ := htk.setPage (fun _ => 0)
      obtain ⟨hs₂, hk₂, hff, hram, hft⟩ := h.take htk₂
      have ht₂ := (hk₂.node (p := p) (by omega)).trans ht
      have hi₂ : (k₁.setPage page fun _ => 0).pte t (PX (level + 1) va) &&& PTE_V = 0 := by
        rw [pte_congr (hk₂ p t (by omega) ht)]
        exact not_not.mp hv
      obtain ⟨hs₃, hn₃, he₃⟩ := hs₂.install hff hram hft (by omega) ht₂ hi₂
        (setPage_self k₁ page fun _ => 0)
      have hc₃ : TablesGrown root k ((k₁.setPage page fun _ => 0).setPte t (PX (level + 1) va)
          (PA2PTE page ||| PTE_V)) := by
        refine ⟨fun q u hq hu => ?_, fun q u hq hu => ?_, fun g hg => ?_, htk₂.low⟩
        · rw [hn₃ q (by omega), if_neg]
          · exact (hk₂.node (by omega)).trans hu
          · intro he
            rw [he, hn, next_of_invalid (not_not.mp hv)] at hu
            exact Option.some_ne_none u hu.symm
        · rw [hn₃ q (by omega)] at hu
          split at hu
          next => exact Or.inr (Option.some.inj hu ▸ htk.mem_free)
          next => exact Or.inl ((hk₂.node (by omega)).symm.trans hu)
        · rw [htk₂.free]
          exact List.mem_cons_of_mem page hg
      refine (ih hs₃ hl' (by rw [hn₃ _ (by rw [List.length_cons]; omega), if_pos rfl])).mono
        fun r k₄ h₄ => ?_
      obtain ⟨hs₄, hl₄, hc₄, hr₄⟩ := h₄
      refine ⟨hs₄, fun q hq => ?_, hc₃.trans hc₄, hr₄⟩
      rw [hl₄ q hq, leaf_congr (he₃ q hq)]
      exact hk₂.leaves q hq

theorem walk_tables (h : TableTree root k) (hva : va < MAXVA) :
    wp (walk root va true) (fun r k' => TableTree root k' ∧ SameLeaves root k k' ∧
      TablesGrown root k k' ∧ ∀ t i, r = some (t, i) →
        i = PX 0 va ∧ k'.node root [PX 1 va, PX 2 va] = some t) NoPanic k := by
  unfold walk
  rw [if_neg (Nat.not_le_of_lt hva)]
  exact walkFrom_tables 2 h rfl rfl

/-- **One leaf is written**, whoever owns the page. -/
theorem setLeaf (ha : Radix.Apart k.child root 3) (ht : k.node root [PX 1 va, PX 2 va] = some t)
    {w : Pte} (hw : w < 2 ^ 64) :
    (∀ q, q.length = 3 →
      (k.setPte t (PX 0 va) w).entry root q = if q = way va then w else k.entry root q) ∧
    ∀ q, q.length ≤ 2 → (k.setPte t (PX 0 va) w).node root q = k.node root q := by
  have hs : Stored root t (PX 0 va) [PX 1 va, PX 2 va] w k (k.setPte t (PX 0 va) w) := {
    at_ := ht
    len := Nat.le_refl 2
    is := rfl
    lt := hw
    old := fun hc => absurd hc (Nat.not_succ_le_self 1)
    new := fun hc => absurd hc (Nat.not_succ_le_self 1) }
  refine ⟨fun q hq => hs.entry ha hq, fun q hq => ?_⟩
  rw [hs.node ha (by omega), if_neg]
  intro he
  rw [he] at hq
  exact absurd hq (by decide : ¬3 ≤ 2)

/-! ## `mappages` and `uvmunmap` -/

/-- `n` pages from `a` on are mapped to `pa` and what follows, and nothing else is new. -/
def Mapped (root : Frame) (a n : Nat) (pa : Frame) (perm : Nat) (k k' : Kmem) : Prop :=
  ∀ q, q.length = 3 → k'.leaf root q =
    if Within a n q then some (entryOf (pa + (pageOf q - a / PGSIZE)) perm) else k.leaf root q

theorem within_one {q : List (Fin 512)} (hva : va < MAXVA) (hq : q.length = 3) :
    Within va 1 q ↔ q = way va := by
  rw [eq_way (Nat.lt_trans hva (by decide)) hq]
  unfold Within
  omega

/-- One page, then the others. -/
theorem Mapped.succ (h : Mapped root a 1 pa perm k k')
    (h' : Mapped root (a + PGSIZE) n (pa + 1) perm k' k'') :
    Mapped root a (n + 1) pa perm k k'' := by
  have hd : (a + PGSIZE) / PGSIZE = a / PGSIZE + 1 := Nat.add_div_right a (by decide)
  intro q hq
  rw [h' q hq, h q hq]
  by_cases hw : Within (a + PGSIZE) n q
  · rw [if_pos hw, if_pos (within_succ.mpr (Or.inr hw))]
    have hoff : 1 + (pageOf q - (a + PGSIZE) / PGSIZE) = pageOf q - a / PGSIZE := by
      unfold Within at hw
      omega
    rw [Nat.add_assoc, hoff]
  · rw [if_neg hw]
    by_cases hone : Within a 1 q
    · rw [if_pos hone, if_pos]
      unfold Within at hone ⊢
      omega
    · rw [if_neg hone, if_neg]
      intro hc
      rcases within_succ.mp hc with hc | hc
      · exact hone (by unfold Within; omega)
      · exact hw hc

/-- The first of some pages, and the others. -/
theorem range_succ {m : Nat} (h : a + (n + 1) * PGSIZE ≤ m) :
    a < m ∧ a + PGSIZE + n * PGSIZE ≤ m := by
  rw [PGSIZE_eq] at h ⊢
  omega

/-- **One turn of `mappages`.** -/
theorem turn_tables {rest : Kern Bool} {Q : Bool → Kmem → Prop}
    (h : TableTree root k) (ha : a < MAXVA)
    (hpa : pa < 2 ^ 44) (hperm : perm < 1024) (hno : k.leaf root (way a) = none)
    (hfail : ∀ k₁, TableTree root k₁ → TablesGrown root k k₁ → Q false k₁)
    (hrest : ∀ k₁, TableTree root k₁ → TablesGrown root k k₁ → Mapped root a 1 pa perm k k₁ →
      wp rest Q NoPanic k₁) :
    wp (do
      match ← walk root a true with
      | none => pure false
      | some (t, i) => do
        let k ← get
        if k.pte t i &&& PTE_V ≠ 0 then stop .remap
        else do
          modify (·.setPte t i (PA2PTE pa ||| perm ||| PTE_V))
          rest) Q NoPanic k := by
  refine (walk_tables h ha).andThen fun r k₁ h₁ => ?_
  obtain ⟨hs₁, hl₁, hc₁, hr₁⟩ := h₁
  cases r with
  | none => exact hfail k₁ hs₁ hc₁
  | some ti =>
    obtain ⟨t, i⟩ := ti
    obtain ⟨rfl, ht⟩ := hr₁ t i rfl
    have hz : k₁.pte t (PX 0 a) &&& PTE_V = 0 := by
      rw [← leaf_of_found ht]
      exact leaf_eq_none.mp ((hl₁ (way a) rfl).trans hno)
    show wp (get >>= fun k => _) _ _ _
    rw [wp_bind, wp_get, wp_ite]
    refine ⟨fun hc => absurd hz hc, fun _ => ?_⟩
    rw [wp_bind, wp_modify]
    obtain ⟨he₂, hn₂⟩ := setLeaf hs₁.apart ht (entryOf_lt hpa hperm)
    refine hrest _ ⟨hs₁.nodup, hs₁.ram, apart_congr hs₁.apart hn₂, fun {p u} hp hu =>
        hs₁.live hp ((hn₂ p hp).symm.trans hu)⟩
      (hc₁.trans ⟨fun p u hp hu => (hn₂ p hp).trans hu,
        fun p u hp hu => Or.inl ((hn₂ p hp).symm.trans hu), fun _ hg => hg, rfl⟩) fun q hq => ?_
    by_cases hqv : q = way a
    · have hw := (within_one ha hq).mpr hqv
      have hzero : pageOf q - a / PGSIZE = 0 := by
        unfold Within at hw
        omega
      rw [if_pos hw, leaf_eq_some]
      refine ⟨entryOf_valid hperm, ?_⟩
      rw [hzero]
      exact (he₂ q hq).trans (if_pos hqv)
    · rw [if_neg fun hw => hqv ((within_one ha hq).mp hw), ← hl₁ q hq]
      exact leaf_congr ((he₂ q hq).trans (if_neg hqv))

theorem mappagesFrom_tables : ∀ (n : Nat) {a : Nat} {pa : Frame} {k : Kmem}, TableTree root k →
    a + (n + 1) * PGSIZE ≤ MAXVA → pa + (n + 1) ≤ 2 ^ 44 → perm < 1024 →
    (∀ q, q.length = 3 → Within a (n + 1) q → k.leaf root q = none) →
    wp (mappagesFrom root perm n a pa) (fun ok k' => TableTree root k' ∧ TablesGrown root k k' ∧
      (ok = true → Mapped root a (n + 1) pa perm k k')) NoPanic k := by
  have hfirst : ∀ {a n : Nat} {k : Kmem}, a < MAXVA →
      (∀ q, q.length = 3 → Within a (n + 1) q → k.leaf root q = none) →
      k.leaf root (way a) = none := by
    intro a n k ha hno
    refine hno (way a) rfl ?_
    unfold Within
    rw [pageOf_way (Nat.lt_trans ha (by decide))]
    omega
  intro n
  induction n with
  | zero =>
    intro a pa k h hle hpa hperm hno
    have ha := (range_succ hle).1
    unfold mappagesFrom
    exact turn_tables h ha hpa hperm (hfirst ha hno)
      (fun k₁ hs hg => ⟨hs, hg, fun hc => absurd hc Bool.false_ne_true⟩)
      fun k₁ hs hg hm => ⟨hs, hg, fun _ => hm⟩
  | succ n ih =>
    intro a pa k h hle hpa hperm hno
    obtain ⟨ha, hle'⟩ := range_succ hle
    have hpa' : pa + 1 + (n + 1) ≤ 2 ^ 44 := by
      rw [Nat.add_assoc, Nat.add_comm 1 (n + 1)]
      exact hpa
    have hlt : pa < 2 ^ 44 := Nat.lt_of_lt_of_le (Nat.lt_add_of_pos_right (Nat.succ_pos _)) hpa
    unfold mappagesFrom
    refine turn_tables h ha hlt hperm (hfirst ha hno)
      (fun k₁ hs hg => ⟨hs, hg, fun hc => absurd hc Bool.false_ne_true⟩) fun k₁ hs hg hm => ?_
    refine (ih hs hle' hpa' hperm fun q hq hw => ?_).mono fun ok k₂ h₂ => ?_
    · have hd : (a + PGSIZE) / PGSIZE = a / PGSIZE + 1 := Nat.add_div_right a (by decide)
      rw [hm q hq, if_neg, hno q hq (within_succ.mpr (Or.inr hw))]
      unfold Within at hw ⊢
      omega
    · obtain ⟨hs₂, hg₂, hm₂⟩ := h₂
      exact ⟨hs₂, hg.trans hg₂, fun hok => hm.succ (hm₂ hok)⟩

/-- The leaf of one page goes. -/
theorem clearLeaf (ha : Radix.Apart k.child root 3) (hva : va < MAXVA)
    (ht : k.node root [PX 1 va, PX 2 va] = some t) :
    Radix.Apart (k.setPte t (PX 0 va) 0).child root 3 ∧
    (∀ q, q.length ≤ 2 → (k.setPte t (PX 0 va) 0).node root q = k.node root q) ∧
    ∀ q, q.length = 3 → (k.setPte t (PX 0 va) 0).leaf root q =
      if Within va 1 q then none else k.leaf root q := by
  obtain ⟨he, hn⟩ := setLeaf ha ht (w := 0) (by decide)
  refine ⟨apart_congr ha hn, hn, fun q hq => ?_⟩
  by_cases hqv : q = way va
  · rw [if_pos ((within_one hva hq).mpr hqv), leaf_eq_none, he q hq, if_pos hqv]
    exact Nat.zero_and _
  · rw [if_neg fun hw => hqv ((within_one hva hq).mp hw)]
    exact leaf_congr ((he q hq).trans (if_neg hqv))

/-- What may be given to `kfree` while it is still mapped. -/
def Loose (root : Frame) (k : Kmem) (g : Frame) : Prop :=
  (k.low ≤ g ∧ g < PHYSTOP / PGSIZE) ∧ ∀ p, p.length ≤ 2 → k.node root p ≠ some g

theorem uvmunmapFrom_tables : ∀ (n : Nat) {a : Nat} {k : Kmem}, Radix.Apart k.child root 3 →
    a + n * PGSIZE ≤ MAXVA →
    (do_free = true → ∀ q g, q.length = 3 → Within a n q → k.node root q =
      some g → Loose root k g) →
    wp (uvmunmapFrom root do_free n a) (fun _ k' => ∀ q, q.length = 3 →
      k'.leaf root q = if Within a n q then none else k.leaf root q) NoPanic k := by
  intro n
  induction n with
  | zero =>
    intro a k _ _ _ q _
    rw [if_neg]
    unfold Within
    omega
  | succ n ih =>
    intro a k hap hle hfree
    obtain ⟨ha, hle'⟩ := range_succ hle
    have hd : (a + PGSIZE) / PGSIZE = a / PGSIZE + 1 := Nat.add_div_right a (by decide)
    -- what one turn leaves behind, the other turns go on from
    have hrest : ∀ {k₁ : Kmem}, Radix.Apart k₁.child root 3 → k₁.low = k.low →
        (∀ q, q.length ≤ 2 → k₁.node root q = k.node root q) →
        (∀ q, q.length = 3 → k₁.leaf root q = if Within a 1 q then none else k.leaf root q) →
        wp (uvmunmapFrom root do_free n (a + PGSIZE)) (fun _ k' => ∀ q, q.length = 3 →
          k'.leaf root q = if Within a (n + 1) q then none else k.leaf root q) NoPanic k₁ := by
      intro k₁ hap₁ hlow hn hl
      refine (ih hap₁ hle' fun hf q g hq hw hg => ?_).mono fun _ k₂ h₂ q hq => ?_
      · have hout : ¬Within a 1 q := by
          unfold Within at hw ⊢
          omega
        rw [node_of_leaf hq, hl q hq, if_neg hout, ← node_of_leaf hq] at hg
        obtain ⟨hram, hno⟩ := hfree hf q g hq (within_succ.mpr (Or.inr hw)) hg
        exact ⟨hlow ▸ hram, fun p hp => (hn p hp) ▸ hno p hp⟩
      · rw [h₂ q hq, hl q hq]
        by_cases hw : Within (a + PGSIZE) n q
        · rw [if_pos hw, if_pos (within_succ.mpr (Or.inr hw))]
        · rw [if_neg hw]
          by_cases hone : Within a 1 q
          · rw [if_pos hone, if_pos]
            unfold Within at hone ⊢
            omega
          · rw [if_neg hone, if_neg]
            intro hc
            rcases within_succ.mp hc with hc | hc
            · exact hone (by unfold Within; omega)
            · exact hw hc
    have hskip : k.leaf root (way a) = none → ∀ q : List (Fin 512), q.length = 3 →
        k.leaf root q = if Within a 1 q then none else k.leaf root q := by
      intro hno q hq
      split
      next hw => rw [(within_one ha hq).mp hw, hno]
      next => rfl
    unfold uvmunmapFrom
    refine (walk_look ha).andThen fun r k₀ h₀ => ?_
    obtain ⟨rfl, hr⟩ := h₀
    cases r with
    | none => exact hrest hap rfl (fun _ _ => rfl) (hskip (leaf_none_of_none hr))
    | some ti =>
      obtain ⟨t, i⟩ := ti
      obtain ⟨rfl, hn⟩ := hr
      simp only [wp_bind, wp_get, wp_ite, wp_modify]
      refine ⟨fun hz => ?_, fun hv => ⟨fun hf => ?_, fun _ => ?_⟩⟩
      · refine hrest hap rfl (fun _ _ => rfl) (hskip ?_)
        rw [leaf_eq_none, leaf_of_found hn]
        exact hz
      · have hnode : k₀.node root (way a) = some (PTE2PA (k₀.pte t (PX 0 a))) :=
          (node_next hn _).trans (next_of_valid hv)
        obtain ⟨hram, hno⟩ := hfree hf (way a) _ rfl
          (by unfold Within; rw [pageOf_way (Nat.lt_trans ha (by decide))]; omega) hnode
        refine (kfree_wp hram).mono fun _ k₁ h₁ => ?_
        have hkept : TablesKept root k₀ k₁ := fun p u hp hu => h₁.mem u fun he => hno p hp (he ▸ hu)
        have hn₁ : ∀ q, q.length ≤ 2 → k₁.node root q = k₀.node root q := fun q hq =>
          hkept.node (Nat.le_succ_of_le hq)
        obtain ⟨hap₂, hn₂, hl₂⟩ := clearLeaf (apart_congr hap hn₁) ha
          ((hn₁ [PX 1 a, PX 2 a] (Nat.le_refl 2)).trans hn)
        refine hrest hap₂ h₁.low (fun q hq => (hn₂ q hq).trans (hn₁ q hq)) fun q hq => ?_
        rw [hl₂ q hq, hkept.leaf (Nat.le_of_eq hq)]
      · obtain ⟨hap₂, hn₂, hl₂⟩ := clearLeaf hap ha hn
        exact hrest hap₂ rfl hn₂ hl₂

/-! ## Looking up -/

/-- `*walk(pagetable, va, 0)`, if it is valid. -/
def lookup (pagetable : Frame) (va : Nat) : Kern (Option Pte) := do
  match ← walk pagetable va false with
  | none => pure none
  | some (t, i) => do
    let k ← get
    if k.pte t i &&& PTE_V = 0 then pure none else pure (some (k.pte t i))

/-- `va` looks up as `r`. -/
def Looks (k : Kmem) (root : Frame) (va : Nat) (r : Option Pte) : Prop :=
  exec (lookup root va) k = (.ok r, k)

theorem looks_leaf (hva : va < MAXVA) : Looks k root va (k.leaf root (way va)) := by
  have hlook : wp (lookup root va) (fun r k' => r = k.leaf root (way va) ∧ k' = k) NoPanic k := by
    unfold lookup
    refine (walk_look hva).andThen fun r k₁ h₁ => ?_
    obtain ⟨rfl, hr⟩ := h₁
    cases r with
    | none => exact ⟨(leaf_none_of_none hr).symm, rfl⟩
    | some ti =>
      obtain ⟨t, i⟩ := ti
      obtain ⟨rfl, hn⟩ := hr
      have he := leaf_of_found hn
      rw [wp_bind, wp_get, wp_ite]
      refine ⟨fun hz => ⟨(leaf_eq_none.mpr (by rw [he]; exact hz)).symm, rfl⟩, fun hv => ⟨?_, rfl⟩⟩
      exact (leaf_eq_some.mpr ⟨hv, he⟩).symm
  unfold wp at hlook
  unfold Looks
  cases hx : exec (lookup root va) k with
  | mk r k' =>
    rw [hx] at hlook
    cases r with
    | ok r => rw [hlook.1, hlook.2]
    | error e => exact hlook.elim

theorem looks_iff (hva : va < MAXVA) {r : Option Pte} :
    Looks k root va r ↔ r = k.leaf root (way va) := by
  refine ⟨fun h => ?_, fun h => h ▸ looks_leaf hva⟩
  have hh := h.symm.trans (looks_leaf hva)
  exact Except.ok.inj (Prod.mk.inj hh).1

/-! ## A range -/

/-- None of the `n` pages from `pa` on is a table or free. -/
def Spare (root pa : Frame) (n : Nat) (k : Kmem) : Prop :=
  ∀ i < n, pa + i ∉ k.freelist ∧ ∀ p, p.length ≤ 2 → k.node root p ≠ some (pa + i)

/-- The map has got a range, as far as `walk` can tell, and `uvmunmap` takes it away
again. Pages that go to the free list then have to be pages of memory, and no tables. -/
structure MapsRange (root : Frame) (va size : Nat) (pa : Frame) (perm : Nat)
    (k k' : Kmem) : Prop where
  inside : ∀ va', va ≤ va' → va' < va + size → ∃ pte, Looks k' root va' (some pte) ∧
    PTE2PA pte = pa + (va' - va) / PGSIZE ∧ PTE_FLAGS pte = perm ||| PTE_V
  outside : ∀ va' < MAXVA, va' < va ∨ va + size ≤ va' → ∀ r, Looks k root va' r →
    Looks k' root va' r
  undone : ∀ do_free, (do_free = true → Spare root pa (size / PGSIZE) k ∧
      ∀ i < size / PGSIZE, k.low ≤ pa + i ∧ pa + i < PHYSTOP / PGSIZE) →
    wp (uvmunmap root va (size / PGSIZE) do_free)
      (fun _ k'' => ∀ va' < MAXVA, ∀ r, Looks k root va' r → Looks k'' root va' r) NoPanic k'

/-- Different pages have their entries in different places. -/
def SlotsApart (root : Frame) (k : Kmem) : Prop :=
  ∀ {va va' s s'}, va < MAXVA → va' < MAXVA → va / PGSIZE ≠ va' / PGSIZE →
    exec (walk root va false) k = (.ok (some s), k) →
    exec (walk root va' false) k = (.ok (some s'), k) → s ≠ s'

variable {size va' : Nat}

theorem within_way (ha : va % PGSIZE = 0) (hs : size % PGSIZE = 0) (hva' : va' < MAXVA) :
    Within va (size / PGSIZE) (way va') ↔ va ≤ va' ∧ va' < va + size := by
  unfold Within
  rw [pageOf_way (Nat.lt_trans hva' (by decide))]
  rw [PGSIZE_eq] at *
  omega

theorem Proper.slots (h : Proper root k) : SlotsApart root k := by
  intro va va' s s' hva hva' hne hw hw' he
  obtain ⟨t, i⟩ := s
  have hfound := (@walk_look root k va hva).of_ok hw
  have hfound' := (@walk_look root k va' hva').of_ok hw'
  subst he
  obtain ⟨hi, ht⟩ := hfound.2
  obtain ⟨hi', ht'⟩ := hfound'.2
  have hlen : ∀ a b : Fin 512, [a, b].length < 3 := fun _ _ => Nat.lt_succ_self 2
  have hpath := h.apart (hlen _ _) (hlen _ _) ht ht'
  refine hne (way_inj (Nat.lt_trans hva (by decide)) (Nat.lt_trans hva' (by decide)) ?_)
  unfold way
  rw [hpath, ← hi, hi']

theorem Mapped.range (hm : Mapped root va (size / PGSIZE) pa perm k k') (hs' : TableTree root k')
    (hg : TablesGrown root k k') (ha : va % PGSIZE = 0) (hs : size % PGSIZE = 0)
    (hle : va + size ≤ MAXVA)
    (hperm : perm < 1024)
    (hno : ∀ q, q.length = 3 → Within va (size / PGSIZE) q → k.leaf root q = none) :
    MapsRange root va size pa perm k k' where
  inside va' hlo hhi := by
    have hva' : va' < MAXVA := Nat.lt_of_lt_of_le hhi hle
    refine ⟨entryOf (pa + (va' - va) / PGSIZE) perm, ?_, PTE2PA_entryOf hperm, ?_⟩
    · rw [looks_iff hva', hm _ rfl, if_pos ((within_way ha hs hva').mpr ⟨hlo, hhi⟩),
        pageOf_way (Nat.lt_trans hva' (by decide))]
      have hoff : va' / PGSIZE - va / PGSIZE = (va' - va) / PGSIZE := by
        rw [PGSIZE_eq] at *
        omega
      rw [hoff]
    · unfold entryOf
      rw [Nat.or_assoc]
      exact PTE_FLAGS_or (Nat.or_lt_two_pow (n := 10) hperm (by decide))
  outside va' hva' hout r hr := by
    rw [looks_iff hva'] at hr ⊢
    rw [hm _ rfl, if_neg, hr]
    rw [within_way ha hs hva']
    omega
  undone do_free hfree := by
    have hle' : va + size / PGSIZE * PGSIZE ≤ MAXVA := by
      rw [Nat.div_mul_cancel (Nat.dvd_of_mod_eq_zero hs)]
      exact hle
    unfold uvmunmap
    rw [if_neg (not_not.mpr ha)]
    refine (uvmunmapFrom_tables _ hs'.apart hle' fun hf q g hq hw hgn => ?_).mono
      fun _ k'' hk'' va' hva' r hr => ?_
    · -- the page is one of those mapped
      obtain ⟨hspare, hram⟩ := hfree hf
      rw [node_of_leaf hq, hm q hq, if_pos hw, Option.map_some, Option.some.injEq,
        PTE2PA_entryOf hperm] at hgn
      have hi : pageOf q - va / PGSIZE < size / PGSIZE := by
        unfold Within at hw
        omega
      obtain ⟨hfl, hnt⟩ := hspare _ hi
      rw [hgn] at hfl hnt
      have hr := hram _ hi
      rw [hgn] at hr
      refine ⟨hg.low ▸ hr, fun p hp hc => ?_⟩
      rcases hg.new p g hp hc with hc | hc
      · exact hnt p hp hc
      · exact hfl hc
    · rw [looks_iff hva'] at hr ⊢
      rw [hk'' _ rfl, hm _ rfl, hr]
      split
      next hw => exact hno _ rfl hw
      next => rfl

/-- No free page is mapped. -/
def FreeUnmapped (root : Frame) (k : Kmem) : Prop :=
  ∀ f ∈ k.freelist, ∀ q, q.length = 3 → k.node root q ≠ some f

theorem Mapped.proper (hm : Mapped root va n pa perm k k') (hs' : TableTree root k')
    (h : Proper root k)
    (hg : TablesGrown root k k') (hperm : perm < 1024) (hspare : Spare root pa n k)
    (hfree : FreeUnmapped root k) : Proper root k' where
  toTableTree := hs'
  data {p q t} hp ht hq hc := by
    have hold := hg.new p t hp ht
    rw [node_of_leaf hq, hm q hq] at hc
    split at hc
    next hw =>
      rw [Option.map_some, Option.some.injEq, PTE2PA_entryOf hperm] at hc
      obtain ⟨hfl, hnt⟩ := hspare (pageOf q - va / PGSIZE) (by unfold Within at hw; omega)
      rw [hc] at hfl hnt
      rcases hold with hold | hold
      · exact hnt p hp hold
      · exact hfl hold
    next =>
      rw [← node_of_leaf hq] at hc
      rcases hold with hold | hold
      · exact h.data hp hold hq hc
      · exact hfree t hold q hq hc

/-- What `mappages` is called with for a range of pages that are not mapped. -/
structure Request (root : Frame) (va size : Nat) (pa : Frame) (perm : Nat) (k : Kmem) : Prop where
  aligned : va % PGSIZE = 0 ∧ size % PGSIZE = 0
  pos : 0 < size
  space : va + size ≤ MAXVA
  ram : pa * PGSIZE + size ≤ 2 ^ 56
  perm : perm < 1024
  fresh : ∀ va', va ≤ va' → va' < va + size → Looks k root va' none

/-! ## A table that maps nothing -/

/-- The page 3 is an empty page table, and the pages 1 and 2 are free. -/
def small : Kmem where
  mem _ _ := 0
  freelist := [1, 2]
  oom := []
  low := 1
  trampoline := 0

theorem small_node (i : Fin 512) (p : List (Fin 512)) : small.node 3 (i :: p) = none :=
  node_zero rfl i p

theorem small_proper : Proper 3 small where
  nodup := by decide
  ram := by decide
  apart {p q t} _ _ hp hq := by
    have hnil : ∀ {p : List (Fin 512)} {t : Frame}, small.node 3 p = some t → p = [] := by
      intro p t hp
      cases p with
      | nil => rfl
      | cons i p => exact absurd (hp.symm.trans (small_node i p)) (Option.some_ne_none t)
    rw [hnil hp, hnil hq]
  live {p t} _ hp := by
    cases p with
    | nil =>
      obtain rfl : 3 = t := Option.some.inj hp
      decide
    | cons i p => exact absurd (hp.symm.trans (small_node i p)) (Option.some_ne_none t)
  data {p q t} _ _ hq hc := by
    cases q with
    | nil => exact absurd hq (by decide)
    | cons i q => exact absurd (hc.symm.trans (small_node i q)) (Option.some_ne_none t)

theorem small_request {pa : Frame} (hpa : pa < 100) : Request 3 0 4096 pa 6 small where
  aligned := by decide
  pos := by decide
  space := by decide
  ram := Nat.le_trans
    (Nat.add_le_add_right (Nat.mul_le_mul_right _ (Nat.le_of_lt hpa)) _) (by decide)
  perm := by decide
  fresh va' _ hlt := by
    have hva' : va' < MAXVA := Nat.lt_trans hlt (by decide)
    rw [looks_iff hva']
    exact (leaf_none_of_none (small_node (PX 1 va') [PX 2 va'])).symm

theorem small_maps_9 : (exec (mappages 3 0 4096 9 6) small).1.toOption = some true := by
  decide +kernel

theorem small_maps_3 : (exec (mappages 3 0 4096 3 6) small).1.toOption = some true ∧
    (exec (mappages 3 0 4096 3 6) small).2.node 3 (way 0) = some 3 := by
  decide +kernel

/-! ## The result -/

/-- **Page tables implement a map.** The tables stay a tree; that none of them is mapped
as data depends on the pages that the caller has mapped. -/
theorem page_tables_map (h : Proper root k) (hr : Request root va size pa perm k) :
    wp (mappages root va size pa perm) (fun ok k' => ok = true →
      MapsRange root va size pa perm k k' ∧ TableTree root k' ∧
      (Spare root pa (size / PGSIZE) k → FreeUnmapped root k → Proper root k')) NoPanic k ∧
    SlotsApart root k := by
  refine ⟨?_, h.slots⟩
  obtain ⟨⟨ha, hs⟩, hpos, hle, hpa, hperm, hfresh⟩ := hr
  have hn : size / PGSIZE - 1 + 1 = size / PGSIZE := by
    rw [PGSIZE_eq] at hs ⊢
    omega
  have hno : ∀ q, q.length = 3 → Within va (size / PGSIZE) q → k.leaf root q = none := by
    intro q hq hw
    have hva' : pageOf q * PGSIZE < MAXVA := by
      unfold Within at hw
      rw [PGSIZE_eq] at ha hs hw ⊢
      omega
    have hq' : q = way (pageOf q * PGSIZE) := by
      rw [eq_way (Nat.lt_trans hva' (by decide)) hq, Nat.mul_div_cancel _ (by decide)]
    have hin := (within_way ha hs hva').mp (hq' ▸ hw)
    rw [hq']
    exact ((looks_iff hva').mp (hfresh _ hin.1 hin.2)).symm
  unfold mappages
  rw [if_neg (not_not.mpr ha), if_neg (not_not.mpr hs), if_neg (Nat.ne_of_gt hpos)]
  refine (mappagesFrom_tables (size / PGSIZE - 1) h.toTableTree ?_ ?_ hperm ?_).mono
    fun ok k' hk' hok => ?_
  · rw [hn, Nat.div_mul_cancel (Nat.dvd_of_mod_eq_zero hs)]
    exact hle
  · have hbound : ∀ f : Nat, f * 4096 + size ≤ 2 ^ 56 → f + size / 4096 ≤ 2 ^ 44 := fun f hf => by
      omega
    rw [hn]
    exact hbound pa hpa
  · rw [hn]
    exact hno
  · obtain ⟨hs', hg, hm⟩ := hk'
    have hm := hm hok
    rw [hn] at hm
    exact ⟨hm.range hs' hg ha hs hle hperm hno, hs', fun hspare hfree =>
      hm.proper hs' h hg hperm hspare hfree⟩

/-- An address in the first page, after the page 9 has been mapped there. -/
theorem page_tables_map_small : ∃ k', exec (mappages 3 0 4096 9 6) small = (.ok true, k') ∧
    (∃ pte, Looks k' 3 0x123 (some pte) ∧ PTE2PA pte = 9 ∧ PTE_FLAGS pte = 7) ∧ Proper 3 k' := by
  have hmap := (page_tables_map small_proper (@small_request 9 (by decide))).1
  have hok := small_maps_9
  unfold wp at hmap
  cases hx : exec (mappages 3 0 4096 9 6) small with
  | mk r k' =>
    rw [hx] at hmap hok
    cases r with
    | error e => exact absurd hok.symm (Option.some_ne_none true)
    | ok b =>
      obtain rfl : b = true := Option.some.inj hok
      obtain ⟨hrange, _, hproper⟩ := hmap rfl
      refine ⟨k', rfl, hrange.inside 0x123 (by decide) (by decide), hproper ?_ ?_⟩
      · intro i hi
        obtain rfl : i = 0 := Nat.lt_one_iff.mp hi
        refine ⟨by decide, fun p _ hc => ?_⟩
        cases p with
        | nil => exact absurd (Option.some.inj hc) (by decide)
        | cons i p => exact absurd (hc.symm.trans (small_node i p)) (Option.some_ne_none 9)
      · intro f _ q hq hc
        cases q with
        | nil => exact absurd hq (by decide)
        | cons i q => exact absurd (hc.symm.trans (small_node i q)) (Option.some_ne_none f)

/-- The page table itself is mapped: it is a proper tree no longer. -/
theorem maps_itself : ¬∀ (root : Frame) (k : Kmem) (va size : Nat) (pa : Frame) (perm : Nat),
    Proper root k → Request root va size pa perm k →
    wp (mappages root va size pa perm) (fun ok k' => ok = true → Proper root k') NoPanic k := by
  intro h
  have hmap := h 3 small 0 4096 3 6 small_proper (small_request (by decide))
  obtain ⟨hok, hnode⟩ := small_maps_3
  unfold wp at hmap
  cases hx : exec (mappages 3 0 4096 3 6) small with
  | mk r k' =>
    rw [hx] at hmap hok hnode
    cases r with
    | error e => exact hmap
    | ok b =>
      obtain rfl : b = true := Option.some.inj hok
      exact (hmap rfl).data (Nat.zero_le 2) (p := []) rfl rfl hnode

end Xv6.Vm
