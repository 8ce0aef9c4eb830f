import Xv6.Vm.Space

/-!
# Allocating, walking, mapping

What `kalloc`, `kfree`, `walk` and `mappages` do to a space. `Calm` is what they all
keep: a page that is neither free nor a table stays so, with its content. None of them
panics in a space.
-/

namespace Xv6.Vm

open Lib

/-- No call stops. -/
def NoPanic : Panic → Kmem → Prop := fun _ _ => False

/-- The entry at a path of three indices, if it maps a page. -/
def Kmem.leaf (k : Kmem) (root : Frame) (q : List (Fin 512)) : Option Pte :=
  if k.entry root q &&& PTE_V ≠ 0 then some (k.entry root q) else none

structure Calm (root : Frame) (k k' : Kmem) : Prop where
  busy : ∀ f, Busy root k f → Busy root k' f ∧ k'.mem f = k.mem f
  tables : ∀ p t, p.length ≤ 2 → k.node root p = some t → k'.node root p = some t
  fewer : k'.freelist ⊆ k.freelist
  low : k'.low = k.low
  trampoline : k'.trampoline = k.trampoline

/-- The same pages are mapped the same way. -/
def SameLeaves (root : Frame) (k k' : Kmem) : Prop :=
  ∀ q, q.length = 3 → k'.leaf root q = k.leaf root q

variable {D : Frame → Prop} {held held' : List Frame} {root t f pa : Frame} {k k' k'' : Kmem}
  {p q : List (Fin 512)} {i : Fin 512} {w : Pte} {va : Nat}

theorem leaf_eq_none : k.leaf root q = none ↔ k.entry root q &&& PTE_V = 0 := by
  unfold Kmem.leaf
  by_cases h : k.entry root q &&& PTE_V = 0
  · rw [if_neg (not_not.mpr h)]
    exact ⟨fun _ => h, fun _ => rfl⟩
  · rw [if_pos h]
    exact ⟨fun hc => absurd hc (Option.some_ne_none _), fun hc => absurd hc h⟩

theorem leaf_eq_some : k.leaf root q = some w ↔ w &&& PTE_V ≠ 0 ∧ k.entry root q = w := by
  unfold Kmem.leaf
  rw [Option.ite_none_right_eq_some, Option.some.injEq]
  constructor
  · rintro ⟨hv, rfl⟩
    exact ⟨hv, rfl⟩
  · rintro ⟨hv, rfl⟩
    exact ⟨hv, rfl⟩

theorem leaf_congr (h : k'.entry root q = k.entry root q) : k'.leaf root q = k.leaf root q := by
  unfold Kmem.leaf
  rw [h]

/-- The page a leaf maps is the node at its path. -/
theorem node_of_leaf (hq : q.length = 3) : k.node root q = (k.leaf root q).map PTE2PA := by
  cases q with
  | nil => exact absurd hq (by decide)
  | cons i p =>
    rw [node_cons]
    by_cases h : k.entry root (i :: p) &&& PTE_V = 0
    · rw [next_of_invalid h, leaf_eq_none.mpr h]
      rfl
    · rw [next_of_valid h, leaf_eq_some.mpr ⟨h, rfl⟩]
      rfl

theorem SameLeaves.refl (root : Frame) (k : Kmem) : SameLeaves root k k := fun _ _ => rfl

theorem SameLeaves.trans (h : SameLeaves root k k') (h' : SameLeaves root k' k'') :
    SameLeaves root k k'' := fun q hq => (h' q hq).trans (h q hq)

namespace Calm

theorem refl (root : Frame) (k : Kmem) : Calm root k k :=
  ⟨fun _ hf => ⟨hf, rfl⟩, fun _ _ _ ht => ht, fun _ hf => hf, rfl, rfl⟩

theorem trans (h : Calm root k k') (h' : Calm root k' k'') : Calm root k k'' where
  busy f hf := by
    obtain ⟨hf₁, hm₁⟩ := h.busy f hf
    obtain ⟨hf₂, hm₂⟩ := h'.busy f hf₁
    exact ⟨hf₂, hm₂.trans hm₁⟩
  tables p t hp ht := h'.tables p t hp (h.tables p t hp ht)
  fewer _ hf := h.fewer (h'.fewer hf)
  low := h'.low.trans h.low
  trampoline := h'.trampoline.trans h.trampoline

end Calm

theorem TablesKept.leaf (h : TablesKept root k k') (hq : q.length ≤ 3) :
    k'.leaf root q = k.leaf root q := leaf_congr (h.entry hq)

theorem TablesKept.leaves (h : TablesKept root k k') : SameLeaves root k k' := fun _ hq =>
  h.leaf (Nat.le_of_eq hq)

/-! ## `kalloc` and `kfree` -/

/-- The page `f` came off the free list, and nothing else happened in memory. -/
structure Taken (f : Frame) (k k' : Kmem) : Prop where
  free : k.freelist = f :: k'.freelist
  mem : ∀ g, g ≠ f → k'.mem g = k.mem g
  low : k'.low = k.low
  trampoline : k'.trampoline = k.trampoline

theorem kalloc_wp : wp kalloc (fun r k' =>
    (r = none ∧ k' = { k with oom := k.oom.tail }) ∨
    ∃ f, r = some f ∧ Taken f k k') NoPanic k := by
  unfold kalloc memset
  simp only [wp_bind, wp_get, wp_modify, wp_ite, wp_pure]
  refine ⟨fun _ => .inl ⟨trivial, trivial⟩, fun _ => ?_⟩
  split
  next => exact .inl ⟨rfl, rfl⟩
  next r rest hl =>
    simp only [wp_bind, wp_modify, wp_pure]
    exact .inr ⟨r, rfl, hl, fun g hg => setPage_of_ne hg _ _, rfl, rfl⟩

theorem Taken.setPage (h : Taken f k k') (x : Page) : Taken f k (k'.setPage f x) where
  free := h.free
  mem g hg := (setPage_of_ne hg k' x).trans (h.mem g hg)
  low := h.low
  trampoline := h.trampoline

theorem Taken.mem_free (h : Taken f k k') : f ∈ k.freelist := by
  rw [h.free]
  exact List.mem_cons_self

theorem Taken.kept (h : Taken f k k') (hs : Space D held root k) : TablesKept root k k' :=
  fun _ _ hp ht => h.mem _ fun he => hs.not_free_of_node (mine_table hp) ht (he ▸ h.mem_free)

/-- The caller has one page more. -/
theorem Taken.space (h : Taken f k k') (hs : Space D held root k) :
    Space D (f :: held) root k' := by
  refine hs.shuffle (h.kept hs) h.low ?_
  rw [h.free]
  exact List.perm_middle.symm

theorem Taken.calm (h : Taken f k k') (hs : Space D held root k) : Calm root k k' where
  busy g hg := by
    have hne : g ≠ f := fun he => hg.1 (he ▸ h.mem_free)
    refine ⟨⟨fun hc => hg.1 ?_, fun p hp hc => hg.2 p hp ?_⟩, h.mem g hne⟩
    · rw [h.free]
      exact List.mem_cons_of_mem f hc
    · exact ((h.kept hs).node (by omega)).symm.trans hc
  tables p t hp ht := ((h.kept hs).node (by omega)).trans ht
  fewer g hg := by
    rw [h.free]
    exact List.mem_cons_of_mem f hg
  low := h.low
  trampoline := h.trampoline

/-- The page `pa` went to the free list. -/
structure Given (pa : Frame) (k k' : Kmem) : Prop where
  free : k'.freelist = pa :: k.freelist
  mem : ∀ g, g ≠ pa → k'.mem g = k.mem g
  low : k'.low = k.low
  trampoline : k'.trampoline = k.trampoline

theorem kfree_wp (h : k.low ≤ pa ∧ pa < PHYSTOP / PGSIZE) :
    wp (kfree pa) (fun _ k' => Given pa k k') NoPanic k := by
  unfold kfree memset
  simp only [wp_bind, wp_get, wp_modify, wp_ite, wp_stop]
  refine ⟨fun hc => ?_, fun _ => ⟨rfl, fun g hg => setPage_of_ne hg _ _, rfl, rfl⟩⟩
  rcases hc with hc | hc
  · exact absurd h.1 (Nat.not_le_of_lt hc)
  · exact absurd h.2 (Nat.not_lt_of_le hc)

theorem Given.kept (h : Given f k k') (hs : Space D (f :: held) root k) : TablesKept root k k' :=
  fun _ _ hp ht => h.mem _ fun he =>
    hs.not_held_of_node (mine_table hp) ht (he ▸ List.mem_cons_self)

/-- The caller has one page less. -/
theorem Given.space (h : Given f k k') (hs : Space D (f :: held) root k) :
    Space D held root k' := by
  refine hs.shuffle (h.kept hs) h.low ?_
  rw [h.free]
  exact List.perm_middle

/-! ## `walk` -/

/-- The path from `p` down to the last table on the way to `va`. -/
def below (va : Nat) : Nat → List (Fin 512) → List (Fin 512)
  | 0, p => p
  | level + 1, p => below va level (PX (level + 1) va :: p)

theorem node_below_none : ∀ (level : Nat) {p : List (Fin 512)}, k.node root p = none →
    k.node root (below va level p) = none := by
  intro level
  induction level with
  | zero => intro p h; exact h
  | succ level ih => intro p h; exact ih (Radix.node_append_none (p := [PX (level + 1) va]) h)

theorem node_next (h : k.node root p = some t) (i : Fin 512) :
    k.node root (i :: p) = next (k.pte t i) := by
  rw [node_cons, entry_of_node h]

/-- What `walk` finds when it allocates nothing. -/
def Found (root : Frame) (va : Nat) (k : Kmem) : Option (Frame × Fin 512) → Prop
  | none => k.node root [PX 1 va, PX 2 va] = none
  | some (t, i) => i = PX 0 va ∧ k.node root [PX 1 va, PX 2 va] = some t

theorem walkFrom_look : ∀ (level : Nat) {p : List (Fin 512)} {t : Frame},
    k.node root p = some t → wp (walkFrom va false level t) (fun r k' => k' = k ∧
      match r with
      | none => k.node root (below va level p) = none
      | some (u, i) => i = PX 0 va ∧ k.node root (below va level p) = some u) NoPanic k := by
  intro level
  induction level with
  | zero => intro p t h; exact ⟨rfl, rfl, h⟩
  | succ level ih =>
    intro p t h
    have hn := node_next h (PX (level + 1) va)
    unfold walkFrom
    rw [wp_bind, wp_get, wp_ite]
    refine ⟨fun hv => ?_, fun hv => ?_⟩
    · exact ih (hn.trans (next_of_valid hv))
    · rw [wp_ite]
      refine ⟨fun _ => ⟨rfl, ?_⟩, fun hc => absurd rfl hc⟩
      exact node_below_none level (hn.trans (next_of_invalid (not_not.mp hv)))

theorem walk_look (hva : va < MAXVA) :
    wp (walk root va false) (fun r k' => k' = k ∧ Found root va k r) NoPanic k := by
  unfold walk
  rw [if_neg (Nat.not_le_of_lt hva)]
  refine (walkFrom_look 2 (p := []) rfl).mono fun r k' h => ⟨h.1, ?_⟩
  cases r with
  | none => exact h.2
  | some ti => exact h.2

/-- A new table. -/
theorem Space.install (h : Space D (f :: held) root k) (hp : p.length ≤ 1)
    (ht : k.node root p = some t) (hi : k.pte t i &&& PTE_V = 0) (hz : k.mem f = fun _ => 0) :
    Space D held root (k.setPte t i (PA2PTE f ||| PTE_V)) ∧
    (∀ q, q.length ≤ 3 → (k.setPte t i (PA2PTE f ||| PTE_V)).node root q =
      if q = i :: p then some f else k.node root q) ∧
    ∀ q, q.length = 3 → (k.setPte t i (PA2PTE f ||| PTE_V)).entry root q = k.entry root q := by
  have hf := List.mem_cons_self (a := f) (l := held)
  have hram := (h.ram f (h.of_held hf)).2
  have hnext : next (PA2PTE f ||| PTE_V) = some f := by
    rw [← Nat.or_zero (PA2PTE f)]
    exact next_made (b := 0) (by decide)
  have hs : Stored root t i p (PA2PTE f ||| PTE_V) k (k.setPte t i (PA2PTE f ||| PTE_V)) := {
    at_ := ht
    len := by omega
    is := rfl
    lt := or_lt (Nat.lt_trans hram (by decide)) (by decide)
    old := fun _ => next_of_invalid hi
    new := fun _ u hu => by
      rw [hnext, Option.some.injEq] at hu
      subst hu
      exact ⟨fun he => h.not_held_of_node (mine_table (by omega)) ht (he ▸ hf), pte_zero hz⟩ }
  have hlen : (i :: p).length ≤ 2 := by
    rw [List.length_cons]
    omega
  refine ⟨h.store hs (fun _ => ?_) ?_, fun q hq => ?_, fun q hq => ?_⟩
  · rw [or_and (by decide)]
    decide
  · have hown : k.own root (i :: p) = none := by
      rw [own_table hlen, node_next ht, next_of_invalid hi]
    rw [if_pos (mine_table hlen), hnext, hown]
    exact List.Perm.refl _
  · rw [hs.node h.tables_apart hq, hnext]
  · rw [hs.entry h.tables_apart hq, if_neg]
    intro he
    rw [he] at hq
    omega

theorem walkFrom_space : ∀ (level : Nat) {p : List (Fin 512)} {t : Frame} {k : Kmem},
    Space D held root k → p.length + level = 2 → k.node root p = some t →
    wp (walkFrom va true level t) (fun r k' => Space D held root k' ∧ SameLeaves root k k' ∧
      Calm root k k' ∧ ∀ u i, r = some (u, i) →
        i = PX 0 va ∧ k'.node root (below va level p) = some u) NoPanic k := by
  intro level
  induction level with
  | zero =>
    intro p t k h _ ht
    refine ⟨h, SameLeaves.refl root k, Calm.refl root k, fun u i hr => ?_⟩
    rw [Option.some.injEq, Prod.mk.injEq] at hr
    exact ⟨hr.2.symm, hr.1 ▸ ht⟩
  | succ level ih =>
    intro p t k h hl ht
    have hn := node_next ht (PX (level + 1) va)
    have hl' : (PX (level + 1) va :: p).length + level = 2 := by
      rw [List.length_cons]
      omega
    unfold walkFrom
    rw [wp_bind, wp_get, wp_ite]
    refine ⟨fun hv => ih h hl' (hn.trans (next_of_valid hv)), fun hv => ?_⟩
    rw [wp_ite]
    refine ⟨fun hc => absurd hc Bool.noConfusion, fun _ => ?_⟩
    refine kalloc_wp.andThen fun r k₁ hr => ?_
    rcases hr with ⟨rfl, rfl⟩ | ⟨page, rfl, htk⟩
    · -- no page: only what is to come of `kalloc` has changed
      have hsame : TablesKept root k { k with oom := k.oom.tail } := fun _ _ _ _ => rfl
      exact ⟨h.shuffle hsame rfl (List.Perm.refl _), hsame.leaves,
        ⟨fun f hf => ⟨hf, rfl⟩, fun _ _ _ ht => ht, fun _ hf => hf, rfl, rfl⟩,
        fun u i hc => absurd hc.symm (Option.some_ne_none (u, i))⟩
    · -- a new table: an entry leads to it, and it has none
      show wp (memset page 0 >>= fun _ => _) _ _ _
      unfold memset
      rw [wp_bind, wp_modify, wp_bind, wp_modify]
      have htk₂ := htk.setPage (fun _ => 0)
      have hs₂ := htk₂.space h
      have hk₂ := htk₂.kept h
      have ht₂ : (k₁.setPage page fun _ => 0).node root p = some t := (hk₂.node (by omega)).trans ht
      have hi₂ : (k₁.setPage page fun _ => 0).pte t (PX (level + 1) va) &&& PTE_V = 0 := by
        rw [pte_congr (hk₂ p t (by omega) ht)]
        exact not_not.mp hv
      obtain ⟨hs₃, hn₃, he₃⟩ := hs₂.install (by omega) ht₂ hi₂ (setPage_self k₁ page fun _ => 0)
      have hc₃ : Calm root k ((k₁.setPage page fun _ => 0).setPte t (PX (level + 1) va)
          (PA2PTE page ||| PTE_V)) := by
        refine ⟨fun g hg => ?_, fun q u hq hu => ?_, (htk₂.calm h).fewer, htk₂.low, htk₂.trampoline⟩
        · obtain ⟨hg₂, hm₂⟩ := (htk₂.calm h).busy g hg
          have hgp : g ≠ page := fun he => hg.1 (he ▸ htk.mem_free)
          refine ⟨⟨hg₂.1, fun q hq hc => ?_⟩, (setPage_of_ne ?_ _ _).trans hm₂⟩
          · rw [hn₃ q (by omega)] at hc
            split at hc
            next => exact hgp (Option.some.inj hc).symm
            next => exact hg₂.2 q hq hc
          · exact fun he => hg₂.2 p (by omega) (he ▸ ht₂)
        · rw [hn₃ q (by omega), if_neg]
          · exact (hk₂.node (by omega)).trans hu
          · intro he
            rw [he, hn, next_of_invalid (not_not.mp hv)] at hu
            exact Option.some_ne_none u hu.symm
      refine (ih hs₃ hl' (by rw [hn₃ _ (by rw [List.length_cons]; omega), if_pos rfl])).mono
        fun r k₄ h₄ => ?_
      obtain ⟨hs₄, hl₄, hc₄, hr₄⟩ := h₄
      refine ⟨hs₄, fun q hq => ?_, hc₃.trans hc₄, hr₄⟩
      rw [hl₄ q hq, leaf_congr (he₃ q hq)]
      exact hk₂.leaves q hq

/-- **`walk`** that allocates: new tables come off the free list, and no leaf changes. -/
theorem walk_space (h : Space D held root k) (hva : va < MAXVA) :
    wp (walk root va true) (fun r k' => Space D held root k' ∧ SameLeaves root k k' ∧
      Calm root k k' ∧ ∀ t i, r = some (t, i) →
        i = PX 0 va ∧ k'.node root [PX 1 va, PX 2 va] = some t) NoPanic k := by
  unfold walk
  rw [if_neg (Nat.not_le_of_lt hva)]
  exact walkFrom_space 2 h rfl rfl

end Xv6.Vm
