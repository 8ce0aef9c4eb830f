import Xv6.Vm.Grow

/-!
# Copying an address space

`uvmcopy` gives the child a page of its own for every page the parent has mapped below
`sz`, with the same content and flags. The parent's pages are outside the division of
the child's (`Outside`), so that nothing `uvmcopy` writes is the parent's; where it
fails, what the child got so far is unmapped again.
-/

namespace Xv6.Vm

open Lib

variable {D : Frame → Prop} {held : List Frame} {old new f : Frame} {k k₀ k' : Kmem}
  {q : List (Fin 512)} {sz i : Nat} {w : Pte}

/-- The tables of `root` and the pages it maps are somebody else's. -/
def Outside (D : Frame → Prop) (root : Frame) (k : Kmem) : Prop :=
  ∀ p f, p.length ≤ 3 → k.node root p = some f → ¬D f

/-- Everything of `root` is where it was, with its content. -/
structure Intact (root : Frame) (k k' : Kmem) : Prop where
  leaf : ∀ q, q.length = 3 → k'.leaf root q = k.leaf root q
  node : ∀ p, p.length ≤ 3 → k'.node root p = k.node root p
  mem : ∀ p f, p.length ≤ 3 → k.node root p = some f → k'.mem f = k.mem f

/-- What is written is not the other's. -/
theorem Calm.intact (hc : Calm new k k') (hs : Space D held new k) (ho : Outside D old k) :
    Intact old k k' := by
  have hmem : ∀ p f, p.length ≤ 3 → k.node old p = some f → k'.mem f = k.mem f :=
    fun p f hp hf => (hc.busy f (hs.busy_out (ho p f hp hf))).2
  have hk : TablesKept old k k' := fun p t hp ht => hmem p t (by omega) ht
  exact ⟨fun q hq => hk.leaf (Nat.le_of_eq hq), fun p hp => hk.node hp, hmem⟩

/-- What an address space owns is outside. -/
theorem Outside.own (ho : Outside D root k) (p : List (Fin 512)) (f : Frame)
    (hp : k.own root p = some f) : ¬D f := by
  obtain ⟨hm, hn⟩ := own_eq_some.mp hp
  exact ho p f hm.le hn

/-- The page at `q` is a copy of the parent's page, where the parent has one. -/
def CopyAt (old new : Frame) (k₀ k : Kmem) (q : List (Fin 512)) : Prop :=
  match k₀.leaf old q with
  | none => k.leaf new q = none
  | some w => ∃ f ∈ k₀.freelist,
      k.leaf new q = some (PA2PTE f ||| PTE_FLAGS w ||| PTE_V) ∧ k.mem f = k₀.mem (PTE2PA w)

/-- The pages below `i` are copied, and the child has no others. -/
structure Copied (D : Frame → Prop) (held : List Frame) (old new : Frame) (i : Nat) (k₀ k : Kmem) :
    Prop where
  space : Space D held new k
  calm : Calm new k₀ k
  copy : ∀ q, q.length = 3 → pageOf q < i / PGSIZE → CopyAt old new k₀ k q
  rest : ∀ q, q.length = 3 → i / PGSIZE ≤ pageOf q → k.leaf new q = k₀.leaf new q

/-- A page the child has got. -/
theorem Copied.busy (h : Copied D held old new i k₀ k) (hi : i ≤ TRAPFRAME) (hq : q.length = 3)
    (hlt : pageOf q < i / PGSIZE) (hf : k.node new q = some f) :
    f ∈ k₀.freelist ∧ Busy new k f := by
  have hc := h.copy q hq hlt
  have hm : Mine q := .inr ⟨hq, Nat.lt_of_lt_of_le hlt (Nat.div_le_div_right hi)⟩
  refine ⟨?_, h.space.busy_leaf hm hq hf⟩
  unfold CopyAt at hc
  rw [node_of_leaf hq] at hf
  cases hw : k₀.leaf old q with
  | none =>
    rw [hw] at hc
    have hc : k.leaf new q = none := hc
    rw [hc] at hf
    exact absurd hf.symm (Option.some_ne_none f)
  | some w =>
    rw [hw] at hc
    obtain ⟨g, hg, hl, _⟩ := hc
    rw [hl, Option.map_some, Option.some.injEq, (next_eq_some.mp (next_made (flags_lt w))).2] at hf
    exact hf ▸ hg

/-- A copy stays one while its page and the leaf do. -/
theorem CopyAt.mono (h : CopyAt old new k₀ k q) (hq : q.length = 3)
    (hl : k'.leaf new q = k.leaf new q)
    (hm : ∀ f, k.node new q = some f → k'.mem f = k.mem f) : CopyAt old new k₀ k' q := by
  unfold CopyAt at *
  cases hw : k₀.leaf old q with
  | none =>
    rw [hw] at h
    exact hl.trans h
  | some w =>
    rw [hw] at h
    obtain ⟨f, hf, hlf, hmf⟩ := h
    refine ⟨f, hf, hl.trans hlf, (hm f ?_).trans hmf⟩
    rw [node_of_leaf hq, hlf, Option.map_some, (next_eq_some.mp (next_made (flags_lt w))).2]

theorem Copied.step (h : Copied D held old new i k₀ k) (hi : i ≤ TRAPFRAME)
    (hu : Undone D held new k k') : Copied D held old new i k₀ k' where
  space := hu.space
  calm := h.calm.trans hu.calm
  copy q hq hlt := (h.copy q hq hlt).mono hq (hu.leaves q hq) fun f hf =>
    (hu.calm.busy f (h.busy hi hq hlt hf).2).2
  rest q hq hge := (hu.leaves q hq).trans (h.rest q hq hge)

/-- **The undo**: the child's pages go back. -/
theorem Copied.undo (h : Copied D held old new i k₀ k) (h₀ : Space D held new k₀)
    (hfree : FreeFrom new 0 k₀) (hi : i ≤ TRAPFRAME) :
    wp (uvmcopyErr new i) (fun r k' => r = false ∧ Undone D held new k₀ k') NoPanic k := by
  have hle : 0 + i / PGSIZE * PGSIZE ≤ TRAPFRAME := by
    rw [Nat.zero_add]
    exact Nat.le_trans (Nat.div_mul_le_self i PGSIZE) hi
  have hw : ∀ q, Within 0 (i / PGSIZE) q ↔ pageOf q < i / PGSIZE := by
    intro q
    unfold Within
    rw [Nat.zero_div]
    omega
  refine (uvmunmap_space h.space (Nat.zero_mod _) hle).andThen fun _ k' h' => ⟨rfl, ?_⟩
  refine h'.2.undone h₀ h'.1 h.calm (fun q hq hin => ?_) fun q hq hout =>
    h.rest q hq (Nat.le_of_not_lt fun hc => hout ((hw q).mpr hc))
  have hlt := (hw q).mp hin
  exact ⟨hfree q hq (by rw [Nat.zero_div]; exact Nat.zero_le _)
    (Nat.lt_of_lt_of_le hlt (Nat.div_le_div_right hi)), fun g hg => (h.busy hi hq hlt hg).1⟩

/-- One page on, where the parent has none. -/
theorem Copied.skip (h : Copied D held old new i k₀ k) (hi : i < TRAPFRAME)
    (hfree : FreeFrom new 0 k₀) (hno : k₀.leaf old (way i) = none) :
    Copied D held old new (i + PGSIZE) k₀ k where
  space := h.space
  calm := h.calm
  copy q hq hlt := by
    rw [Nat.add_div_right i (by decide)] at hlt
    by_cases hqi : pageOf q = i / PGSIZE
    · have hqw : q = way i := (eq_way (Nat.lt_trans hi (by decide)) hq).mpr hqi
      unfold CopyAt
      rw [hqw, hno]
      show k.leaf new (way i) = none
      rw [← hqw, h.rest q hq (Nat.le_of_eq hqi.symm)]
      refine hfree q hq (by rw [Nat.zero_div]; exact Nat.zero_le _) ?_
      rw [hqi]
      simp only [TRAPFRAME_eq, PGSIZE_eq] at *
      omega
    · exact h.copy q hq (by omega)
  rest q hq hge := by
    rw [Nat.add_div_right i (by decide)] at hge
    exact h.rest q hq (by omega)

theorem uvmcopyFrom_space (h₀ : Space D held new k₀)
    (ho : ∀ p f, k₀.own old p = some f → ¬D f)
    (hfree : FreeFrom new 0 k₀) (hsz : sz ≤ TRAPFRAME) :
    ∀ (n : Nat) {i : Nat} {k : Kmem}, PGROUNDUP sz = i + n * PGSIZE → i % PGSIZE = 0 →
      Copied D held old new i k₀ k → wp (uvmcopyFrom old new sz i) (fun r k' =>
        (r = false ∧ Undone D held new k₀ k') ∨
        (r = true ∧ Copied D held old new (PGROUNDUP sz) k₀ k')) NoPanic k := by
  intro n
  induction n with
  | zero =>
    intro i k hi _ h
    have hge : ¬i < sz := by
      have hle := le_PGROUNDUP hsz
      omega
    unfold uvmcopyFrom
    rw [dif_neg hge]
    refine .inr ⟨rfl, ?_⟩
    rw [hi, Nat.zero_mul]
    exact h
  | succ n ih =>
    intro i k hi him h
    have hstep : i + (n + 1) * PGSIZE = i + PGSIZE + n * PGSIZE := by
      rw [Nat.succ_mul]
      omega
    have heq := PGROUNDUP_eq hsz
    have hlt : i < sz := by
      rw [hstep] at hi
      rw [PGSIZE_eq] at hi him
      omega
    have hit : i < TRAPFRAME := Nat.lt_of_lt_of_le hlt hsz
    have hmax : i < MAXVA := Nat.lt_trans hit (by decide)
    have hmem : ∀ p f, k₀.own old p = some f → k.mem f = k₀.mem f := fun p f hp =>
      (h.calm.busy f (h₀.busy_out (ho p f hp))).2
    have hin : TablesKept old k₀ k := fun p t hp ht => hmem p t ((own_table hp).trans ht)
    have hnext : ∀ {k' : Kmem}, Copied D held old new (i + PGSIZE) k₀ k' →
        wp (uvmcopyFrom old new sz (i + PGSIZE)) (fun r k' =>
          (r = false ∧ Undone D held new k₀ k') ∨
          (r = true ∧ Copied D held old new (PGROUNDUP sz) k₀ k')) NoPanic k' :=
      fun h' => ih (hi.trans hstep) ((Nat.add_mod_right i PGSIZE).trans him) h'
    unfold uvmcopyFrom
    rw [dif_pos hlt]
    refine (walk_look hmax).andThen fun r k₁ h₁ => ?_
    obtain ⟨rfl, hr⟩ := h₁
    cases r with
    -- no table, so no page: nothing is copied
    | none => exact hnext (h.skip hit hfree ((hin.leaves _ rfl).symm.trans (leaf_none_of_none hr)))
    | some ti =>
      obtain ⟨t, j⟩ := ti
      obtain ⟨rfl, hn⟩ := hr
      have hentry := leaf_of_found hn
      show wp (get >>= fun k => _) _ _ _
      rw [wp_bind, wp_get, wp_ite]
      refine ⟨fun hz => hnext (h.skip hit hfree ?_), fun hv => ?_⟩
      · rw [← hin.leaves _ rfl, leaf_eq_none, hentry]
        exact hz
      · have hleaf : k₁.leaf old (way i) = some (k₁.pte t (PX 0 i)) := leaf_eq_some.mpr ⟨hv, hentry⟩
        have hleaf₀ := (hin.leaves (way i) rfl).symm.trans hleaf
        have hpage : pageOf (way i) = i / PGSIZE := pageOf_way (Nat.lt_trans hit (by decide))
        have hnode₀ : k₀.node old (way i) = some (PTE2PA (k₁.pte t (PX 0 i))) := by
          rw [node_of_leaf rfl, hleaf₀, Option.map_some]
        have hown₀ := own_eq_some.mpr ⟨mine_way hit him, hnode₀⟩
        have hsrc := hmem (way i) _ hown₀
        have hnoD := ho (way i) _ hown₀
        generalize hpte : k₁.pte t (PX 0 i) = pte at *
        have hno : k₁.leaf new (way i) = none := by
          rw [h.rest (way i) rfl (Nat.le_of_eq hpage.symm)]
          refine hfree (way i) rfl (by rw [Nat.zero_div]; exact Nat.zero_le _) ?_
          rw [hpage]
          simp only [TRAPFRAME_eq, PGSIZE_eq] at *
          omega
        -- `err`: what was mapped so far is unmapped
        have hundo : ∀ k', Undone D held new k₁ k' → wp (uvmcopyErr new i) (fun r k' =>
            (r = false ∧ Undone D held new k₀ k') ∨
            (r = true ∧ Copied D held old new (PGROUNDUP sz) k₀ k')) NoPanic k' := fun k' hu =>
          ((h.step (Nat.le_of_lt hit) hu).undo h₀ hfree (Nat.le_of_lt hit)).mono
            fun _ _ hr => .inl hr
        -- the page that is copied is still the parent's
        have hfill : ∀ f k₂, Taken f k₁ k₂ → k₂.mem (PTE2PA pte) = k₀.mem (PTE2PA pte) :=
          fun f k₂ htk => by
          have hne : PTE2PA pte ≠ f := fun he => hnoD (he ▸ h.space.of_free htk.mem_free)
          exact (htk.mem _ hne).trans hsrc
        refine wp_mapFresh h.space hit him hno (flags_lt pte)
          hfill hundo hundo fun f k' hf hs' hc hl hx => hnext ?_
        refine ⟨hs', h.calm.trans hc, fun q hq hqi => ?_, fun q hq hqi => ?_⟩
        · rw [Nat.add_div_right i (by decide)] at hqi
          by_cases hqw : q = way i
          · unfold CopyAt
            rw [hqw, hleaf₀]
            exact ⟨f, h.calm.fewer hf, by rw [hl (way i) rfl, if_pos rfl], hx⟩
          · have hne := mt (eq_way (Nat.lt_trans hit (by decide)) hq).mpr hqw
            refine (h.copy q hq (by omega)).mono hq (by rw [hl q hq, if_neg hqw]) fun g hg => ?_
            exact (hc.busy g (h.busy (Nat.le_of_lt hit) hq (by omega) hg).2).2
        · rw [Nat.add_div_right i (by decide)] at hqi
          have hqw : q ≠ way i := fun he => by
            rw [he, hpage] at hqi
            omega
          rw [hl q hq, if_neg hqw]
          exact h.rest q hq (by omega)

/-- **`uvmcopy`.** -/
theorem uvmcopy_space (h : Space D held new k) (ho : ∀ p f, k.own old p = some f → ¬D f)
    (hfree : FreeFrom new 0 k) (hsz : sz ≤ TRAPFRAME) : wp (uvmcopy old new sz) (fun r k' =>
      (r = false ∧ Undone D held new k k') ∨
      (r = true ∧ Copied D held old new (PGROUNDUP sz) k k')) NoPanic k := by
  refine uvmcopyFrom_space h ho hfree hsz (pages sz) ?_ (Nat.zero_mod _)
    ⟨h, Calm.refl new k, fun q _ hlt => absurd hlt (by rw [Nat.zero_div]; exact Nat.not_lt_zero _),
      fun _ _ _ => rfl⟩
  rw [pages_mul, Nat.zero_add]

/-! ## The result -/

theorem flags_valid (h : w &&& PTE_V ≠ 0) : PTE_FLAGS w ||| PTE_V = PTE_FLAGS w := by
  have hand : PTE_FLAGS w &&& PTE_V = PTE_V := by
    unfold PTE_FLAGS
    rw [Nat.and_assoc]
    show w &&& PTE_V = PTE_V
    exact Nat.le_antisymm Nat.and_le_right (Nat.pos_of_ne_zero h)
  refine Nat.eq_of_testBit_eq fun n => ?_
  rw [← hand, Nat.testBit_or, Nat.testBit_and]
  cases (PTE_FLAGS w).testBit n with
  | false => rfl
  | true => rfl

theorem lt_pages (h : sz ≤ TRAPFRAME) (n : Nat) : n < pages sz ↔ n * PGSIZE < sz := by
  unfold pages
  rw [PGROUNDUP_eq h, PGSIZE_eq]
  omega

/-- The child has a page of its own where the parent has one below `sz`, with the
parent's content and flags, and none elsewhere. -/
def CopyOf (old new : Frame) (sz : Nat) (k k' : Kmem) (q : List (Fin 512)) : Prop :=
  match if pageOf q * PGSIZE < sz then k.leaf old q else none with
  | none => k'.leaf new q = none
  | some w => ∃ w', k'.leaf new q = some w' ∧ PTE_FLAGS w' = PTE_FLAGS w ∧
      k'.mem (PTE2PA w') = k.mem (PTE2PA w) ∧
      ∀ p, p.length ≤ 3 → k'.node old p ≠ some (PTE2PA w')

/-- No two virtual pages share a page. -/
def Unshared (root : Frame) (k : Kmem) : Prop :=
  ∀ q q' f, q.length = 3 → q'.length = 3 → pageOf q < TRAPFRAME / PGSIZE →
    pageOf q' < TRAPFRAME / PGSIZE → k.node root q = some f → k.node root q' = some f → q = q'

theorem Copied.copyOf (h : Copied D held old new (PGROUNDUP sz) k k') (hs : Space D held new k)
    (ho : Outside D old k) (hfree : FreeFrom new 0 k) (hsz : sz ≤ TRAPFRAME) (hq : q.length = 3)
    (hu : pageOf q < TRAPFRAME / PGSIZE) : CopyOf old new sz k k' q := by
  unfold CopyOf
  by_cases hlt : pageOf q * PGSIZE < sz
  · rw [if_pos hlt]
    have hc := h.copy q hq ((lt_pages hsz _).mpr hlt)
    unfold CopyAt at hc
    cases hw : k.leaf old q with
    | none =>
      rw [hw] at hc
      exact hc
    | some w =>
      rw [hw] at hc
      obtain ⟨f, hf, hl, hm⟩ := hc
      have hfl := flags_lt w
      have hpa := (next_eq_some.mp (@next_made f _ hfl)).2
      refine ⟨_, hl, ?_, by rw [hpa]; exact hm, fun p hp hc => ?_⟩
      · rw [Nat.or_assoc, flags_valid (leaf_eq_some.mp hw).1]
        exact PTE_FLAGS_or hfl
      · rw [hpa, (h.calm.intact hs ho).node p hp] at hc
        exact ho p f hp hc (hs.of_free hf)
  · rw [if_neg hlt]
    show k'.leaf new q = none
    rw [h.rest q hq (Nat.le_of_not_lt fun hc => hlt ((lt_pages hsz _).mp hc))]
    exact hfree q hq (by rw [Nat.zero_div]; exact Nat.zero_le _) hu

/-- **Fork copies memory exactly and privately.** -/
theorem uvmcopy_private (h : Space D held new k) (ho : Outside D old k) (hfree : FreeFrom new 0 k)
    (hsz : sz ≤ TRAPFRAME) : wp (uvmcopy old new sz) (fun r k' =>
      Intact old k k' ∧ Space D held new k' ∧
      (r = true ∧ Unshared new k' ∧
        (∀ q, q.length = 3 → pageOf q < TRAPFRAME / PGSIZE → CopyOf old new sz k k' q) ∨
       r = false ∧ FreeFrom new 0 k' ∧ ∀ f ∈ k.freelist, f ∈ k'.freelist ∨ k'.IsTable new f))
      NoPanic k := by
  refine (uvmcopy_space h ho.own hfree hsz).mono fun r k' hr => ?_
  rcases hr with ⟨hr, hu⟩ | ⟨hr, hc⟩
  · refine ⟨hu.calm.intact h ho, hu.space,
      .inr ⟨hr, fun q hq h₁ h₂ => ?_, fun f hf => hu.returned h hf⟩⟩
    rw [hu.leaves q hq]
    exact hfree q hq h₁ h₂
  · refine ⟨hc.calm.intact h ho, hc.space, .inl ⟨hr, fun q q' f hq hq' hu hu' hf hf' => ?_,
      fun q hq hu => hc.copyOf h ho hfree hsz hq hu⟩⟩
    exact hc.space.node_inj (.inr ⟨hq, hu⟩) (.inr ⟨hq', hu'⟩) hf hf'

/-- A parent with a page at 0, behind two tables, and a child with an empty page table. -/
def parent : Kmem where
  mem f := if f = 524288 then Bytes.put (fun _ => 0) 0 8 (PA2PTE 524289 ||| PTE_V)
    else if f = 524289 then Bytes.put (fun _ => 0) 0 8 (PA2PTE 524290 ||| PTE_V)
    else if f = 524290 then Bytes.put (fun _ => 0) 0 8 (PA2PTE 524291 ||| PTE_R ||| PTE_U ||| PTE_V)
    else fun _ => 0
  freelist := [524293, 524294, 524295, 524296]
  oom := [false, true]
  low := 524288
  trampoline := 0

theorem parent_closed : ∀ t ∈ [524288, 524289, 524290, 524291], ∀ i,
    (next (parent.pte t i)).all (· ∈ [524288, 524289, 524290, 524291]) = true := by
  decide +kernel

theorem parent_outside : Outside (· ∈ 524292 :: parent.freelist) 524288 parent := by
  have hin : ∀ (p : List (Fin 512)) (f : Frame), parent.node 524288 p = some f →
      f ∈ [524288, 524289, 524290, 524291] := by
    intro p
    induction p with
    | nil =>
      intro f hf
      rw [← Option.some.inj hf]
      exact List.mem_cons_self
    | cons i p ih =>
      intro f hf
      obtain ⟨t, ht, hc⟩ := Option.bind_eq_some_iff.mp hf
      have hall := parent_closed t (ih t ht) i
      have hc : next (parent.pte t i) = some f := hc
      rw [hc] at hall
      exact of_decide_eq_true hall
  intro p f _ hf hD
  have hdis : ∀ g ∈ [524288, 524289, 524290, 524291], g ∉ 524292 :: parent.freelist := by decide
  exact hdis f (hin p f hf) hD

theorem parent_space : Space (· ∈ 524292 :: parent.freelist) [] 524292 parent :=
  Pool.space ⟨by decide, fun _ => Iff.rfl, fun f hf => by
    have hall : ∀ g ∈ 524292 :: parent.freelist, parent.low ≤ g ∧ g < PHYSTOP / PGSIZE := by decide
    exact hall f hf⟩ rfl

theorem uvmcopy_private_parent : wp (uvmcopy 524288 524292 5000) (fun r k' =>
    Intact 524288 parent k' ∧ Space (· ∈ 524292 :: parent.freelist) [] 524292 k' ∧
    (r = true ∧ Unshared 524292 k' ∧ (∀ q, q.length = 3 → pageOf q < TRAPFRAME / PGSIZE →
      CopyOf 524288 524292 5000 parent k' q) ∨
     r = false ∧ FreeFrom 524292 0 k' ∧
      ∀ f ∈ parent.freelist, f ∈ k'.freelist ∨ k'.IsTable 524292 f)) NoPanic parent :=
  uvmcopy_private parent_space parent_outside (freeFrom_zero rfl) (by decide)

end Xv6.Vm
