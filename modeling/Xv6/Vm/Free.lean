import Xv6.Vm.Grow
import Xv6.Vm.User

/-!
# Making and freeing an address space

`freewalk` is proved for a tree of any depth: while the entries of a table are gone
through, the tree that is left and the free list divide the same pages (`Tables`), and
the pages below one entry are a division of their own. At the end only the table is
left, and it is freed last.

> `proc_freepagetable_space`: an address space whose pages lie below its size is freed
> to the last page, and nothing else is touched.
-/

namespace Xv6.Vm

open Lib

variable {D : Frame → Prop} {held : List Frame} {root t f c : Frame} {k k₀ k' k'' : Kmem}
  {p q : List (Fin 512)} {i : Fin 512} {d sz va trapframe : Nat}

/-- What is not in `D` has not changed. -/
structure Framed (D : Frame → Prop) (k k' : Kmem) : Prop where
  mem : ∀ f, ¬D f → k'.mem f = k.mem f
  low : k'.low = k.low
  trampoline : k'.trampoline = k.trampoline

theorem Framed.refl (D : Frame → Prop) (k : Kmem) : Framed D k k := ⟨fun _ _ => rfl, rfl, rfl⟩

theorem Framed.trans (h : Framed D k k') (h' : Framed D k' k'') : Framed D k k'' :=
  ⟨fun f hf => (h'.mem f hf).trans (h.mem f hf), h'.low.trans h.low,
    h'.trampoline.trans h.trampoline⟩

theorem Calm.framed (hc : Calm root k k') (h : Space D held root k) : Framed D k k' :=
  ⟨fun f hf => (hc.busy f (h.busy_out hf)).2, hc.low, hc.trampoline⟩

theorem Unmapped.framed {a n : Nat} (hu : Unmapped root a n k k') (h : Space D held root k)
    (hle : a / PGSIZE + n ≤ TRAPFRAME / PGSIZE) : Framed D k k' :=
  ⟨fun f hf => (hu.busy f (h.busy_out hf) fun _ hq hw hn =>
    hf (h.of_node (.inr ⟨hq, Nat.lt_of_lt_of_le hw.2 hle⟩) hn)).2, hu.low, hu.trampoline⟩

/-! ## Trees without leaves -/

/-- The pages of `D` are free, held, or one of the tables of a tree of `d` levels that
maps nothing. -/
structure Tables (d : Nat) (D : Frame → Prop) (held : List Frame) (root : Frame) (k : Kmem) :
    Prop where
  split : Owner.Split D (held ++ k.freelist) fun p => if p.length < d then k.node root p else none
  ram : ∀ f, D f → k.low ≤ f ∧ f < PHYSTOP / PGSIZE
  inner : ∀ {p t} i, p.length + 2 ≤ d → k.node root p = some t →
    k.pte t i &&& (PTE_R ||| PTE_W ||| PTE_X) = 0
  bottom : ∀ p, p.length = d → k.node root p = none

theorem Space.tables (h : Space D held root k) (hno : ∀ q, q.length = 3 → k.leaf root q = none) :
    Tables 3 D held root k where
  split := h.split.congr fun p => by
    unfold Kmem.own
    split
    next hp => rw [if_pos (mine_table (Nat.le_of_lt_succ hp))]
    next hp =>
      split
      next hm =>
        have h3 : p.length = 3 := by
          have hle := hm.le
          omega
        rw [node_of_leaf h3, hno p h3]
        rfl
      next => rfl
  ram := h.ram
  inner i hp ht := h.inner i (by omega) ht
  bottom p hp := by rw [node_of_leaf hp, hno p hp, Option.map_none]

namespace Tables

theorem own_some (hp : p.length < d) (ht : k.node root p = some t) :
    (fun p : List (Fin 512) => if p.length < d then k.node root p else none) p = some t :=
  (if_pos hp).trans ht

theorem of_node (h : Tables d D held root k) (hp : p.length < d)
    (ht : k.node root p = some t) : D t :=
  h.split.of_own (own_some hp ht)

theorem inj (h : Tables d D held root k) (hp : p.length < d) (hq : q.length < d)
    (hpt : k.node root p = some t) (hqt : k.node root q = some t) : p = q :=
  h.split.inj (own_some hp hpt) (own_some hq hqt)

theorem pos (h : Tables d D held root k) : 0 < d := by
  refine Nat.pos_of_ne_zero fun hd => ?_
  have hb : k.node root [] = none := h.bottom [] hd.symm
  exact Option.some_ne_none root hb

/-- What is below the entry `i` of the root. -/
def Under (k : Kmem) (held : List Frame) (root : Frame) (i : Fin 512) (d : Nat)
    (f : Frame) : Prop :=
  f ∈ held ++ k.freelist ∨ ∃ r, (if (r ++ [i]).length < d + 1 then k.node root (r ++ [i]) else none)
    = some f

theorem node_under (hc : k.node root [i] = some c) (r : List (Fin 512)) :
    k.node root (r ++ [i]) = k.node c r := by
  show Radix.node k.child root (r ++ [i]) = _
  rw [Radix.node_append]
  show (k.node root [i]).bind _ = _
  rw [hc]
  rfl

/-- The tree below an entry. -/
theorem sub (h : Tables (d + 1) D held root k) (hc : k.node root [i] = some c) :
    Tables d (Under k held root i d) held c k where
  split := by
    have hpart := h.split.part (e := fun r => r ++ [i]) (List.append_left_injective [i])
    refine hpart.congr fun r => ?_
    rw [node_under hc, List.length_append, List.length_singleton]
    simp only [Nat.add_lt_add_iff_right]
  ram f hf := by
    refine h.ram f ?_
    rcases hf with hf | ⟨r, hr⟩
    · exact h.split.of_mem hf
    · exact h.split.of_own hr
  inner {r t} j hr ht := by
    rw [← node_under hc] at ht
    refine h.inner j ?_ ht
    rw [List.length_append, List.length_singleton]
    omega
  bottom r hr := by
    rw [← node_under hc]
    exact h.bottom _ (by rw [List.length_append, List.length_singleton, hr])

end Tables

/-- Pages without a tree, as a division. -/
theorem Pool.split {π : Type} (h : Pool D held k) :
    Owner.Split D (held ++ k.freelist) (fun _ : π => none) :=
  (Owner.Split.of_list h.nodup).of_iff h.mem

/-- One entry of the root is cleared, when the tree below it is free. -/
theorem Tables.clear (h : Tables (d + 1) D held root k) (hc : k.node root [i] = some c)
    (hp : Pool (Tables.Under k held root i d) held k')
    (hf : Framed (Tables.Under k held root i d) k k') :
    Tables (d + 1) D held root (k'.setPte root i 0) ∧ Framed D k (k'.setPte root i 0) ∧
    (k'.setPte root i 0).node root [i] = none ∧
    ∀ j, k.node root [j] = none → (k'.setPte root i 0).node root [j] = none := by
  have hroot : ∀ {p t}, p.length < d + 1 → (∀ r, p ≠ r ++ [i]) → k.node root p = some t →
      ¬Tables.Under k held root i d t := by
    rintro p t hl hne ht (hc | ⟨r, hr⟩)
    · exact h.split.apart (Tables.own_some hl ht) hc
    · exact hne r (h.split.inj (Tables.own_some hl ht) hr)
  have hnil : ∀ r : List (Fin 512), [] ≠ r ++ [i] := fun r hc => by
    have hl := congrArg List.length hc
    rw [List.length_append] at hl
    simp at hl
  have hrootmem := hf.mem root (hroot (p := []) (Nat.succ_pos d) hnil rfl)
  -- the entries of the tables that are left
  have hpte : ∀ {p t} j, p.length < d + 1 → (∀ r, p ≠ r ++ [i]) → k.node root p = some t →
      (p ≠ [] ∨ j ≠ i) → (k'.setPte root i 0).pte t j = k.pte t j := by
    intro p t j hl hne ht hj
    have htr : t ≠ root ∨ j ≠ i := by
      refine hj.imp_left fun hp he => hp ?_
      exact h.inj hl (Nat.succ_pos d) ht (he ▸ rfl : k.node root [] = some t)
    rw [pte_setPte_of_ne htr]
    exact pte_congr (hf.mem t (hroot hl hne ht)) j
  have hgone : (k'.setPte root i 0).node root [i] = none := by
    rw [node_cons, entry_of_node (p := []) rfl, pte_setPte_self (by decide)]
    exact next_of_invalid (Nat.zero_and _)
  have hin : ∀ r, (k'.setPte root i 0).node root (r ++ [i]) = none := fun r =>
    Radix.node_append_none hgone
  have hout : ∀ p : List (Fin 512), p.length ≤ d + 1 → (∀ r, p ≠ r ++ [i]) →
      (k'.setPte root i 0).node root p = k.node root p := by
    intro p
    induction p with
    | nil => intro _ _; rfl
    | cons j p ih =>
      intro hl hne
      have hp : ∀ r, p ≠ r ++ [i] := fun r hc => hne (j :: r) (by rw [hc, List.cons_append])
      have hn := ih (Nat.le_of_succ_le hl) hp
      cases ht : k.node root p with
      | none => rw [node_cons, node_cons, entry_of_none ht, entry_of_none (hn.trans ht)]
      | some t =>
        rw [node_cons, node_cons, entry_of_node ht, entry_of_node (hn.trans ht)]
        rw [hpte j hl hp ht]
        by_cases hpn : p = []
        · exact .inr fun hj => hne [] (by rw [hpn, hj, List.nil_append])
        · exact .inl hpn
  refine ⟨⟨?_, fun f hfD => ?_, fun {p t} j hl ht => ?_, fun p hl => ?_⟩, ⟨fun f hfD => ?_, hf.low,
    hf.trampoline⟩, hgone, fun j hj => ?_⟩
  · refine h.split.join (e := fun r => r ++ [i]) hp.split (fun r => ?_) fun p hne => ?_
    · rw [hin r, ite_self]
    · split
      next hl => exact hout p (Nat.le_of_lt hl) hne
      next => rfl
  · rw [show (k'.setPte root i 0).low = k.low from hf.low]
    exact h.ram f hfD
  · by_cases hpe : ∃ r, p = r ++ [i]
    · obtain ⟨r, rfl⟩ := hpe
      rw [hin r] at ht
      exact absurd ht.symm (Option.some_ne_none t)
    · have hne : ∀ r, p ≠ r ++ [i] := fun r he => hpe ⟨r, he⟩
      rw [hout p (by omega) hne] at ht
      by_cases hz : p = [] ∧ j = i
      · obtain ⟨rfl, rfl⟩ := hz
        have ht : some root = some t := ht
        rw [← Option.some.inj ht, pte_setPte_self (by decide)]
        exact Nat.zero_and _
      · rw [hpte j (by omega) hne ht (Decidable.not_and_iff_or_not.mp hz)]
        exact h.inner j hl ht
  · by_cases hpe : ∃ r, p = r ++ [i]
    · obtain ⟨r, rfl⟩ := hpe
      exact hin r
    · rw [hout p (Nat.le_of_eq hl) fun r he => hpe ⟨r, he⟩]
      exact h.bottom p hl
  · have hne : f ≠ root := fun he => hfD (he ▸ h.of_node (p := []) (Nat.succ_pos d) rfl)
    refine (setPage_of_ne hne _ _).trans (hf.mem f ?_)
    rintro (hc | ⟨r, hr⟩)
    · exact hfD (h.split.of_mem hc)
    · exact hfD (h.split.of_own hr)
  · by_cases hji : j = i
    · rw [hji]
      exact hgone
    · rw [hout [j] (by simp) fun r hc => ?_]
      · exact hj
      · have hl := congrArg List.getLast? hc
        rw [List.getLast?_append_of_ne_nil _ (List.cons_ne_nil i [])] at hl
        simp only [List.getLast?_singleton, Option.some.injEq] at hl
        exact hji hl

/-! ## `freewalk` -/

theorem mem_indices (i : Fin 512) : i ∈ indices := by
  unfold indices
  exact List.mem_finRange i

theorem wp_each {α : Type} {g : α → Kern PUnit} {I : List α → Kmem → Prop}
    (hstep : ∀ a as k, I (a :: as) k → wp (g a) (fun _ k' => I as k') NoPanic k) :
    ∀ (as : List α) (k : Kmem), I as k → wp (each g as) (fun _ k' => I [] k') NoPanic k := by
  intro as
  induction as with
  | nil => intro k h; exact h
  | cons a as ih => intro k h; exact (hstep a as k h).andThen fun _ k' h' => ih k' h'

/-- The loop of `freewalk` is done with the entries that are not in `rest`. -/
structure Freeing (d : Nat) (D : Frame → Prop) (held : List Frame) (root : Frame) (k₀ : Kmem)
    (rest : List (Fin 512)) (k : Kmem) : Prop where
  tables : Tables (d + 1) D held root k
  framed : Framed D k₀ k
  gone : ∀ i, i ∉ rest → k.node root [i] = none

/-- **`freewalk`** frees the tables of a tree that maps nothing. -/
theorem freewalk_tables : ∀ (d : Nat) {D : Frame → Prop} {root : Frame} {k : Kmem},
    Tables d D held root k →
    wp (freewalk d root) (fun _ k' => Pool D held k' ∧ Framed D k k') NoPanic k := by
  intro d
  induction d with
  | zero => intro D root k h; exact absurd h.pos (Nat.lt_irrefl 0)
  | succ d ih =>
    intro D root k h
    unfold freewalk
    -- the loop: the entries in `rest` are still to be freed
    have hstep : ∀ i rest k₁, Freeing d D held root k (i :: rest) k₁ →
        wp (freeEntry (freewalk d) root i)
          (fun _ k₂ => Freeing d D held root k rest k₂) NoPanic k₁ :=
      ?_
    · rw [wp_bind]
      refine (wp_each (I := Freeing d D held root k) hstep indices k
        ⟨h, Framed.refl D k, fun i hi => absurd (mem_indices i) hi⟩).mono fun _ k₁ h₁ => ?_
      obtain ⟨ht, hf, hno⟩ := h₁
      -- no table is left below: the page itself goes
      have hnone : ∀ {p}, p ≠ [] → k₁.node root p = none := by
        intro p hp
        obtain ⟨r, i, rfl⟩ := (List.eq_nil_or_concat' p).resolve_left hp
        exact Radix.node_append_none (hno i List.not_mem_nil)
      have hD := ht.of_node (p := []) (Nat.succ_pos d) rfl
      refine (kfree_wp (ht.ram root hD)).mono fun _ k₂ hg => ?_
      refine ⟨⟨?_, fun f => ?_, fun f hfD => ?_⟩, hf.trans ⟨fun f hfD => ?_, hg.low, hg.trampoline⟩⟩
      · rw [hg.free]
        refine List.perm_middle.nodup_iff.mpr (List.nodup_cons.mpr ⟨?_, ht.split.nodup⟩)
        exact ht.split.apart (Tables.own_some (p := []) (Nat.succ_pos d) rfl)
      · rw [ht.split.mem, hg.free, List.perm_middle.mem_iff, List.mem_cons, or_comm]
        refine or_congr_left ⟨?_, fun he => ⟨[], he ▸ rfl⟩⟩
        rintro ⟨p, hp⟩
        by_cases hpn : p = []
        · rw [hpn] at hp
          exact (Option.some.inj hp).symm
        · rw [hnone hpn, ite_self] at hp
          exact absurd hp.symm (Option.some_ne_none f)
      · rw [hg.low]
        exact ht.ram f hfD
      · exact hg.mem f fun he => hfD (he ▸ hD)
    · intro i rest k₁ h₁
      obtain ⟨ht, hf, hno⟩ := h₁
      have hnode : k₁.node root [i] = next (k₁.pte root i) := by
        rw [node_cons, entry_of_node (p := []) rfl]
      have hrest : ∀ k₂ : Kmem, k₂.node root [i] = none →
          (∀ j, k₁.node root [j] = none → k₂.node root [j] = none) →
          ∀ j, j ∉ rest → k₂.node root [j] = none := by
        intro k₂ hi hkeep j hj
        by_cases hji : j = i
        · rw [hji]
          exact hi
        · exact hkeep j (hno j fun hc => (List.mem_cons.mp hc).elim hji hj)
      unfold freeEntry
      rw [wp_bind, wp_get, wp_ite]
      refine ⟨fun hv => ?_, fun hv => ?_⟩
      · have hc := hnode.trans (next_of_valid hv.1)
        refine (ih (ht.sub hc)).andThen fun _ k₂ h₂ => ?_
        obtain ⟨ht₃, hf₃, hi₃, hk₃⟩ := ht.clear hc h₂.1 h₂.2
        exact ⟨ht₃, hf.trans hf₃, hrest _ hi₃ hk₃⟩
      · rw [wp_ite]
        have hinv : ¬(k₁.pte root i &&& PTE_V ≠ 0) := fun hvalid => by
          cases d with
          | zero =>
            have hb := ht.bottom [i] rfl
            rw [hnode, next_of_valid hvalid] at hb
            exact Option.some_ne_none _ hb
          | succ d =>
            have hin := ht.inner (p := []) i (by simp) (rfl : k₁.node root [] = some root)
            exact hv ⟨hvalid, hin⟩
        refine ⟨fun hc => absurd hc hinv, fun _ => ⟨ht, hf, hrest k₁ ?_ fun _ hj => hj⟩⟩
        rw [hnode]
        exact next_of_invalid (not_not.mp hinv)

theorem freewalk_space (h : Space D held root k) (hno : ∀ q, q.length = 3 → k.leaf root q = none) :
    wp (freewalk 3 root) (fun _ k' => Pool D held k' ∧ Framed D k k') NoPanic k :=
  freewalk_tables 3 (h.tables hno)

/-! ## The address space of a process -/

/-- The pages of a process lie below its size, and from `TRAPFRAME` on there are at most the
two pages that every process has there, which are not for the user. -/
structure Sized (root sz : Nat) (k : Kmem) : Prop where
  max : sz ≤ TRAPFRAME
  below : FreeFrom root (PGROUNDUP sz) k
  above : ∀ q w, q.length = 3 → TRAPFRAME / PGSIZE ≤ pageOf q → k.leaf root q = some w →
    w &&& PTE_U = 0 ∧ (q = way TRAMPOLINE ∨ q = way TRAPFRAME)

theorem SameLeaves.sized (hl : SameLeaves root k k') (h : Sized root sz k) : Sized root sz k' where
  max := h.max
  below q hq h₁ h₂ := (hl q hq).trans (h.below q hq h₁ h₂)
  above q w hq hu hw := h.above q w hq hu ((hl q hq).symm.trans hw)

/-- Unmapping one of the two. -/
theorem uvmunmap_special (h : Space D held root k) (hva : TRAPFRAME ≤ va) (hmax : va < MAXVA)
    (ha : va % PGSIZE = 0) : wp (uvmunmap root va 1 false)
      (fun _ k' => Space D held root k' ∧ Unmapped root va 1 k k' ∧ Calm root k k') NoPanic k := by
  have h39 : va < 2 ^ 39 := Nat.lt_trans hmax (by decide)
  have hmine : ¬Mine (way va) := by
    rintro (hc | ⟨_, hc⟩)
    · exact absurd hc (by decide : ¬3 ≤ 2)
    · rw [pageOf_way h39] at hc
      exact absurd (Nat.div_le_div_right hva) (Nat.not_le_of_lt hc)
  have hown : k.own root (way va) = none := if_neg hmine
  unfold uvmunmap uvmunmapFrom uvmunmapFrom
  rw [if_neg (not_not.mpr ha)]
  refine (walk_look hmax).andThen fun r k₀ h₀ => ?_
  obtain ⟨rfl, hr⟩ := h₀
  cases r with
  | none => exact ⟨h, Unmapped.skip hmax (leaf_none_of_none hr), Calm.refl root k₀⟩
  | some ti =>
    obtain ⟨t, i⟩ := ti
    obtain ⟨rfl, hn⟩ := hr
    simp only [wp_bind, wp_get, wp_ite, wp_modify]
    refine ⟨fun hz => ⟨h, Unmapped.skip hmax ?_, Calm.refl root k₀⟩,
      fun _ => ⟨fun hc => absurd hc Bool.noConfusion,
      fun _ => ?_⟩⟩
    · rw [leaf_eq_none, leaf_of_found hn]
      exact hz
    · obtain ⟨hs₁, he₁, hn₁, hc₁⟩ := h.leafStore (w := 0) hn (by decide) (by
        rw [hown, if_neg hmine])
      refine ⟨hs₁, ⟨fun q hq => ?_, hn₁, fun g hg _ => hc₁.busy g hg, rfl, rfl⟩, hc₁⟩
      have hw : Within va 1 q ↔ q = way va := by
        rw [eq_way h39 hq]
        unfold Within
        omega
      by_cases hqv : q = way va
      · rw [if_pos (hw.mpr hqv), leaf_eq_none, he₁ q hq, if_pos hqv]
        exact Nat.zero_and _
      · rw [if_neg (mt hw.mp hqv)]
        exact leaf_congr (by rw [he₁ q hq, if_neg hqv])

theorem uvmfree_space (h : Space D held root k) (hsz : sz ≤ TRAPFRAME)
    (hbelow : FreeFrom root (PGROUNDUP sz) k)
    (habove : ∀ q, q.length = 3 → TRAPFRAME / PGSIZE ≤ pageOf q → k.leaf root q = none) :
    wp (uvmfree root sz) (fun _ k' => Pool D held k' ∧ Framed D k k') NoPanic k := by
  have hround := PGROUNDUP_le hsz
  unfold uvmfree
  show wp (ite _ _ _) _ _ _
  rw [wp_ite]
  constructor
  · intro _
    have hle : 0 + PGROUNDUP sz / PGSIZE * PGSIZE ≤ TRAPFRAME := by
      rw [Nat.zero_add]
      exact Nat.le_trans (Nat.div_mul_le_self _ _) hround
    refine (uvmunmap_space h (Nat.zero_mod _) hle).andThen fun _ k₁ h₁ => ?_
    obtain ⟨hs₁, hu₁⟩ := h₁
    have hf₁ := hu₁.framed h (by
      rw [Nat.zero_div, Nat.zero_add]
      exact Nat.div_le_div_right hround)
    refine (freewalk_space hs₁ fun q hq => ?_).mono fun _ k₂ h₂ => ⟨h₂.1, hf₁.trans h₂.2⟩
    rw [hu₁.leaf q hq]
    split
    next => rfl
    next hw =>
      by_cases hlt : pageOf q < TRAPFRAME / PGSIZE
      · refine hbelow q hq (Nat.le_of_not_lt fun hc => hw ⟨?_, ?_⟩) hlt
        · rw [Nat.zero_div]
          exact Nat.zero_le _
        · rw [Nat.zero_div, Nat.zero_add]
          exact hc
      · exact habove q hq (Nat.le_of_not_lt hlt)
  · intro hz
    have hsz0 : sz = 0 := Nat.eq_zero_of_not_pos hz
    refine freewalk_space h fun q hq => ?_
    by_cases hlt : pageOf q < TRAPFRAME / PGSIZE
    · refine hbelow q hq ?_ hlt
      rw [hsz0]
      exact Nat.zero_le _
    · exact habove q hq (Nat.le_of_not_lt hlt)

theorem way_TRAMPOLINE : pageOf (way TRAMPOLINE) = TRAPFRAME / PGSIZE + 1 := by decide

theorem way_TRAPFRAME : pageOf (way TRAPFRAME) = TRAPFRAME / PGSIZE := by decide

theorem special_ne : way TRAMPOLINE ≠ way TRAPFRAME := by decide

/-- The page of one of the two, as a range. -/
theorem within_special (hmax : va < MAXVA) (hq : q.length = 3) : Within va 1 q ↔ q = way va := by
  rw [eq_way (Nat.lt_trans hmax (by decide)) hq]
  unfold Within
  omega

/-- **`proc_freepagetable`** frees the whole address space. -/
theorem proc_freepagetable_space (h : Space D held root k) (hs : Sized root sz k) :
    wp (proc_freepagetable root sz) (fun _ k' => Pool D held k' ∧ Framed D k k') NoPanic k := by
  unfold proc_freepagetable
  refine (uvmunmap_special h (by decide) (by decide) (by decide)).andThen fun _ k₁ h₁ => ?_
  obtain ⟨hs₁, hu₁, hc₁⟩ := h₁
  refine (uvmunmap_special hs₁ (Nat.le_refl _) (by decide) (by decide)).andThen fun _ k₂ h₂ => ?_
  obtain ⟨hs₂, hu₂, hc₂⟩ := h₂
  have hleaf : ∀ q, q.length = 3 → k₂.leaf root q =
      if q = way TRAPFRAME then none else if q = way TRAMPOLINE then none else k.leaf root q := by
    intro q hq
    rw [hu₂.leaf q hq, hu₁.leaf q hq]
    simp only [within_special (show TRAPFRAME < MAXVA by decide) hq,
      within_special (show TRAMPOLINE < MAXVA by decide) hq]
  have hframe : Framed D k k₂ := (hc₁.framed h).trans (hc₂.framed hs₁)
  refine (uvmfree_space hs₂ hs.max (fun q hq h₁ h₂ => ?_) fun q hq hu => ?_).mono
    fun _ k₃ h₃ => ⟨h₃.1, hframe.trans h₃.2⟩
  · rw [hleaf q hq]
    split
    next => rfl
    next =>
      split
      next => rfl
      next => exact hs.below q hq h₁ h₂
  · rw [hleaf q hq]
    split
    next => rfl
    next hne =>
      split
      next => rfl
      next hne' =>
        cases hw : k.leaf root q with
        | none => rfl
        | some w => exact absurd (hs.above q w hq hu hw).2 (not_or.mpr ⟨hne', hne⟩)

/-- A page off the free list, where there is no tree. -/
theorem Taken.pool (h : Taken f k k') (hp : Pool D held k) : Pool D (f :: held) k' where
  nodup := by
    have hn := hp.nodup
    rw [h.free] at hn
    exact List.perm_middle.nodup_iff.mp hn
  mem g := by
    rw [hp.mem, h.free]
    exact List.perm_middle.mem_iff
  ram g hg := by
    rw [h.low]
    exact hp.ram g hg

theorem Taken.framed (h : Taken f k k') (hf : D f) : Framed D k k' :=
  ⟨fun g hg => h.mem g fun he => hg (he ▸ hf), h.low, h.trampoline⟩

theorem uvmcreate_space (h : Pool D held k) : wp uvmcreate (fun r k' => Framed D k k' ∧
    match r with
    | none => Pool D held k'
    | some root => Space D held root k' ∧ ∀ q, q.length = 3 → k'.leaf root q = none) NoPanic k := by
  unfold uvmcreate
  refine kalloc_wp.andThen fun r k₁ hr => ?_
  rcases hr with ⟨rfl, rfl⟩ | ⟨root, rfl, htk⟩
  · exact ⟨⟨fun _ _ => rfl, rfl, rfl⟩, h.nodup, h.mem, h.ram⟩
  · have htk₂ := htk.setPage (fun _ => 0)
    have hz := setPage_self k₁ root fun _ => 0
    have hD : D root := by
      rw [h.mem]
      exact List.mem_append_right _ htk.mem_free
    refine ⟨htk₂.framed hD, (htk₂.pool h).space hz, fun q hq => ?_⟩
    cases q with
    | nil => exact absurd hq (by decide)
    | cons i p =>
      rw [leaf_eq_none, ← next_eq_none, ← node_cons]
      exact node_zero hz i p

/-- What a new page table maps: the two special pages. -/
def Bare (root trampoline trapframe : Frame) (k : Kmem) : Prop :=
  ∀ q, q.length = 3 → k.leaf root q =
    if q = way TRAPFRAME then some (PA2PTE trapframe ||| (PTE_R ||| PTE_W) ||| PTE_V)
    else if q = way TRAMPOLINE then some (PA2PTE trampoline ||| (PTE_R ||| PTE_X) ||| PTE_V)
    else none

theorem Bare.sized {trampoline : Frame} (h : Bare root trampoline trapframe k) :
    Sized root 0 k where
  max := Nat.zero_le _
  below q hq _ hu := by
    rw [h q hq, if_neg, if_neg]
    · intro he
      rw [he, way_TRAMPOLINE] at hu
      omega
    · intro he
      rw [he, way_TRAPFRAME] at hu
      exact Nat.lt_irrefl _ hu
  above q w hq _ hw := by
    rw [h q hq] at hw
    split at hw
    next he =>
      rw [Option.some.injEq, Nat.or_assoc] at hw
      rw [← hw, or_and (by decide)]
      exact ⟨by decide, .inr he⟩
    next =>
      split at hw
      next he =>
        rw [Option.some.injEq, Nat.or_assoc] at hw
        rw [← hw, or_and (by decide)]
        exact ⟨by decide, .inl he⟩
      next => exact absurd hw.symm (Option.some_ne_none w)

theorem not_mine_special (h : va = TRAMPOLINE ∨ va = TRAPFRAME) : ¬Mine (way va) := by
  rintro (hc | ⟨_, hc⟩)
  · exact absurd hc (by decide : ¬3 ≤ 2)
  · rcases h with rfl | rfl
    · rw [way_TRAMPOLINE] at hc
      omega
    · rw [way_TRAPFRAME] at hc
      exact Nat.lt_irrefl _ hc

/-- **`proc_pagetable`** makes a page table that maps the two special pages, or takes
nothing. -/
theorem proc_pagetable_space (h : Pool D held k) (htr : k.trampoline < 2 ^ 52)
    (htf : trapframe < 2 ^ 52) : wp (proc_pagetable trapframe) (fun r k' => Framed D k k' ∧
      match r with
      | none => Pool D held k'
      | some root => Space D held root k' ∧ Bare root k.trampoline trapframe k') NoPanic k := by
  unfold proc_pagetable
  refine (uvmcreate_space h).andThen fun r k₂ h₂ => ?_
  obtain ⟨hf₂, h₂⟩ := h₂
  cases r with
  | none => exact ⟨hf₂, h₂⟩
  | some root =>
    obtain ⟨hs₂, hno₂⟩ := h₂
    show wp (get >>= fun k => _) _ _ _
    rw [wp_bind, wp_get, hf₂.trampoline]
    refine (mappages_space hs₂ (by decide) (by decide) (hno₂ _ rfl) (by decide) htr
      (by rw [if_neg (not_mine_special (.inl rfl))]; rfl)).andThen fun ok k₃ h₃ => ?_
    obtain ⟨hc₃, h₃⟩ := h₃
    have hf₃ := hf₂.trans (hc₃.framed hs₂)
    rcases h₃ with ⟨rfl, hs₃, hl₃⟩ | ⟨rfl, hs₃, hl₃⟩
    · rw [if_pos rfl]
      have hno₃ : ∀ q, q.length = 3 → k₃.leaf root q = none := fun q hq =>
        (hl₃ q hq).trans (hno₂ q hq)
      refine (uvmfree_space hs₃ (Nat.zero_le _) (fun q hq _ _ => hno₃ q hq) fun q hq _ =>
        hno₃ q hq).andThen fun _ k₄ h₄ => ?_
      exact ⟨hf₃.trans h₄.2, h₄.1⟩
    · rw [if_neg Bool.noConfusion]
      have hno₃ : k₃.leaf root (way TRAPFRAME) = none := by
        rw [hl₃ _ rfl, if_neg special_ne.symm]
        exact hno₂ _ rfl
      refine (mappages_space hs₃ (by decide) (by decide) hno₃ (by decide) htf
        (by rw [if_neg (not_mine_special (.inr rfl))]; rfl)).andThen fun ok k₄ h₄ => ?_
      obtain ⟨hc₄, h₄⟩ := h₄
      have hf₄ := hf₃.trans (hc₄.framed hs₃)
      rcases h₄ with ⟨rfl, hs₄, hl₄⟩ | ⟨rfl, hs₄, hl₄⟩
      · rw [if_pos rfl]
        refine (uvmunmap_special hs₄ (by decide) (by decide) (by decide)).andThen fun _ k₅ h₅ => ?_
        obtain ⟨hs₅, hu₅, hc₅⟩ := h₅
        have hno₅ : ∀ q, q.length = 3 → k₅.leaf root q = none := by
          intro q hq
          rw [hu₅.leaf q hq, hl₄ q hq, hl₃ q hq]
          simp only [within_special (show TRAMPOLINE < MAXVA by decide) hq]
          split
          next => rfl
          next => exact hno₂ q hq
        refine (uvmfree_space hs₅ (Nat.zero_le _) (fun q hq _ _ => hno₅ q hq) fun q hq _ =>
          hno₅ q hq).andThen fun _ k₆ h₆ => ?_
        exact ⟨(hf₄.trans (hc₅.framed hs₄)).trans h₆.2, h₆.1⟩
      · rw [if_neg Bool.noConfusion]
        refine ⟨hf₄, hs₄, fun q hq => ?_⟩
        rw [hl₄ q hq, hl₃ q hq, hno₂ q hq]

end Xv6.Vm
