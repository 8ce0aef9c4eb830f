import Xv6.Vm.Free

/-!
# Several address spaces

`World D held roots k` divides the pages of `D` between the free list, the kernel
(`held`), and the address spaces that `roots` names: each page has one owner. A call
that works on one address space sees the division of the free pages and the pages of
that space only:

> `World.space`, `World.pool`: what the call starts from; `World.update`: what it leaves
> is a division of the whole again, and no other address space has changed.
-/

namespace Xv6.Vm

open Lib

variable {ι : Type} {D : Frame → Prop} {held held' : List Frame} {root old : Frame}
  {k k' k'' : Kmem} {roots : ι → Option Frame} {i j : ι} {f pa : Frame}

/-- What the address space `i` has at a path. -/
def Kmem.ownAt (k : Kmem) (roots : ι → Option Frame) (x : ι × List (Fin 512)) : Option Frame :=
  (roots x.1).bind fun root => k.own root x.2

structure World (D : Frame → Prop) (held : List Frame) (roots : ι → Option Frame) (k : Kmem) :
    Prop where
  split : Owner.Split D (held ++ k.freelist) (k.ownAt roots)
  ram : ∀ f, D f → k.low ≤ f ∧ f < PHYSTOP / PGSIZE
  inner : ∀ {i root}, roots i = some root → ∀ {p t} j, p.length ≤ 1 → k.node root p = some t →
    k.pte t j &&& (PTE_R ||| PTE_W ||| PTE_X) = 0

/-- The free pages and the pages of the address space `i`. -/
def Part (roots : ι → Option Frame) (i : ι) (k : Kmem) (f : Frame) : Prop :=
  f ∈ k.freelist ∨ ∃ p, k.ownAt roots (i, p) = some f

theorem ownAt_of_some (h : roots i = some root) (p : List (Fin 512)) :
    k.ownAt roots (i, p) = k.own root p := by
  unfold Kmem.ownAt
  rw [h]
  rfl

theorem ownAt_of_none (h : roots i = none) (p : List (Fin 512)) : k.ownAt roots (i, p) = none := by
  unfold Kmem.ownAt
  rw [h]
  rfl

namespace World

theorem of_part (h : World D held roots k) (hf : Part roots i k f) : D f :=
  hf.elim (fun hc => h.split.of_mem (List.mem_append_right _ hc)) fun ⟨_, hq⟩ => h.split.of_own hq

/-- The division without what the kernel holds. -/
theorem rest (h : World D held roots k) : Owner.Split (fun f => D f ∧ f ∉ held) k.freelist
    (k.ownAt roots) where
  nodup := (List.nodup_append.mp h.split.nodup).2.1
  mem f := by
    have hsep := (List.nodup_append.mp h.split.nodup).2.2
    rw [h.split.mem, List.mem_append]
    constructor
    · rintro ⟨(hc | hc) | hc, hn⟩
      · exact absurd hc hn
      · exact .inl hc
      · exact .inr hc
    · rintro (hc | ⟨q, hq⟩)
      · exact ⟨.inl (.inr hc), fun hh => hsep f hh f hc rfl⟩
      · exact ⟨.inr ⟨q, hq⟩, fun hh => h.split.apart hq (List.mem_append_left _ hh)⟩
  apart hq hc := h.split.apart hq (List.mem_append_right _ hc)
  inj := h.split.inj

theorem part_split (h : World D held roots k) (i : ι) :
    Owner.Split (Part roots i k) k.freelist fun p => k.ownAt roots (i, p) :=
  h.rest.part (Prod.mk_right_injective i)

/-- **One address space.** -/
theorem space (h : World D held roots k) (hi : roots i = some root) :
    Space (Part roots i k) [] root k where
  split := (h.part_split i).congr fun p => (ownAt_of_some hi p).symm
  ram f hf := h.ram f (h.of_part hf)
  inner := h.inner hi

/-- **The free pages**, where there is no address space. -/
theorem pool (h : World D held roots k) (hi : roots i = none) : Pool (Part roots i k) [] k where
  nodup := (h.part_split i).nodup
  mem f := by
    rw [List.nil_append]
    refine ⟨fun hf => hf.elim id fun ⟨p, hp⟩ => ?_, .inl⟩
    rw [ownAt_of_none hi] at hp
    exact absurd hp.symm (Option.some_ne_none f)
  ram f hf := h.ram f (h.of_part hf)

/-- What another address space has is not in the part. -/
theorem not_part (h : World D held roots k) (hij : j ≠ i) {p : List (Fin 512)}
    (hp : k.ownAt roots (j, p) = some f) : ¬Part roots i k f := by
  rintro (hc | ⟨q, hq⟩)
  · exact h.split.apart hp (List.mem_append_right _ hc)
  · exact hij (congrArg Prod.fst (h.split.inj hp hq))

/-- What the kernel holds is not in the part. -/
theorem held_not_part (h : World D held roots k) (hf : f ∈ held) : ¬Part roots i k f := by
  rintro (hc | ⟨q, hq⟩)
  · exact (List.nodup_append.mp h.split.nodup).2.2 f hf f hc rfl
  · exact h.split.apart hq (List.mem_append_left _ hf)

/-- The other address spaces are not touched. -/
theorem others (h : World D held roots k) (hf : Framed (Part roots i k) k k') (hij : j ≠ i)
    (hj : roots j = some root) : TablesKept root k k' := fun p t hp ht =>
  hf.mem t (h.not_part hij (p := p) (by rw [ownAt_of_some hj, own_table hp, ht]))

end World

/-- What a call has made of the address space `i`. -/
def Left (D : Frame → Prop) (x : Option Frame) (k : Kmem) : Prop :=
  match x with
  | some root => Space D [] root k
  | none => Pool D [] k

theorem Left.split {x : Option Frame} (h : Left D x k) :
    Owner.Split D k.freelist fun p => x.bind fun root => k.own root p := by
  cases x with
  | some root => exact Space.split h
  | none => exact Pool.split h

/-- **A call on one address space**, as a step of the whole: the tables of the others are
as they were. -/
theorem World.update [DecidableEq ι] (h : World D held roots k)
    (hk : ∀ j root, j ≠ i → roots j = some root → TablesKept root k k') (hlow : k'.low = k.low)
    {x : Option Frame} (hx : Left (Part roots i k) x k') :
    World D held (Function.update roots i x) k' := by
  have hself : ∀ p, k'.ownAt (Function.update roots i x) (i, p) = x.bind fun r => k'.own r p :=
    fun p => by
      unfold Kmem.ownAt
      rw [Function.update_self]
  have hother : ∀ {j}, j ≠ i → ∀ p, k'.ownAt (Function.update roots i x) (j, p) =
    k.ownAt roots (j, p) := by
    intro j hj p
    have hup : Function.update roots i x j = roots j := Function.update_of_ne hj x roots
    cases hr : roots j with
    | none => rw [ownAt_of_none (hup.trans hr), ownAt_of_none hr]
    | some r => rw [ownAt_of_some (hup.trans hr), ownAt_of_some hr, (hk j r hj hr).own p]
  -- the division without what is held, and then with it
  have hrest : Owner.Split (fun f => D f ∧ f ∉ held) k'.freelist
      (k'.ownAt (Function.update roots i x)) :=
    h.rest.join hx.split hself fun q hq => hother (fun he => hq q.2 (Prod.ext he rfl)) q.2
  refine ⟨⟨?_, fun f => ?_, fun {f q} hq hc => ?_, hrest.inj⟩, fun f hfD => ?_, ?_⟩
  · refine List.nodup_append.mpr ⟨(List.nodup_append.mp h.split.nodup).1, hrest.nodup, ?_⟩
    rintro f hh g hg rfl
    exact (hrest.of_mem hg).2 hh
  · rw [List.mem_append, or_assoc, ← hrest.mem]
    refine ⟨fun hD => ?_,
      fun hc => hc.elim (fun hh => h.split.of_mem (List.mem_append_left _ hh)) And.left⟩
    by_cases hh : f ∈ held
    · exact .inl hh
    · exact .inr ⟨hD, hh⟩
  · rcases List.mem_append.mp hc with hc | hc
    · exact (hrest.of_own hq).2 hc
    · exact hrest.apart hq hc
  · rw [hlow]
    exact h.ram f hfD
  · intro j r hr p t n hp ht
    by_cases hj : j = i
    · subst hj
      rw [Function.update_self] at hr
      subst hr
      exact Space.inner hx n hp ht
    · rw [Function.update_of_ne hj] at hr
      have hk := hk j r hj hr
      have ht : k.node r p = some t := (hk.node (by omega)).symm.trans ht
      rw [pte_congr (hk p t (by omega) ht)]
      exact h.inner hr n hp ht

/-- Where nothing else has changed in memory at all. -/
theorem World.framed [DecidableEq ι] (h : World D held roots k) (hf : Framed (Part roots i k) k k')
    {x : Option Frame} (hx : Left (Part roots i k) x k') :
    World D held (Function.update roots i x) k' :=
  h.update (fun _ _ hj hr => h.others hf hj hr) hf.low hx

/-! ## Pages that the kernel takes and gives -/

/-- Neither the tables nor the free list of any address space change. -/
theorem World.shuffle (h : World D held roots k)
    (hm : ∀ i root, roots i = some root → TablesKept root k k')
    (hlow : k'.low = k.low) (hp : (held' ++ k'.freelist).Perm (held ++ k.freelist)) :
    World D held' roots k' where
  split := by
    refine (h.split.congr fun x => ?_).perm hp
    obtain ⟨i, p⟩ := x
    cases hr : roots i with
    | none => rw [ownAt_of_none hr, ownAt_of_none hr]
    | some r => rw [ownAt_of_some hr, ownAt_of_some hr, (hm i r hr).own p]
  ram f hf := by
    rw [hlow]
    exact h.ram f hf
  inner {i root} hr {p t} n hl ht := by
    have hk := hm i root hr
    have ht : k.node root p = some t := (hk.node (by omega)).symm.trans ht
    rw [pte_congr (hk p t (by omega) ht)]
    exact h.inner hr n hl ht

/-- A page that is not in any address space. -/
theorem tablesKept_of_ne (hpa : ∀ x, k.ownAt roots x ≠ some pa)
    (hmem : ∀ g, g ≠ pa → k'.mem g = k.mem g) (hr : roots i = some root) : TablesKept root k k' :=
    fun p t hp ht => hmem t fun he => by
  refine hpa (i, p) ?_
  rw [ownAt_of_some hr, own_table hp, ht, he]

theorem World.take (h : World D held roots k) (htk : Taken f k k') :
    World D (f :: held) roots k' := by
  refine h.shuffle (fun i r hr => tablesKept_of_ne (fun x hx => ?_) htk.mem hr) htk.low ?_
  · exact h.split.apart hx (List.mem_append_right _ htk.mem_free)
  · rw [htk.free]
    exact List.perm_middle.symm

theorem World.give (h : World D (f :: held) roots k) (hgv : Given f k k') :
    World D held roots k' := by
  refine h.shuffle (fun i r hr => tablesKept_of_ne (fun x hx => ?_) hgv.mem hr) hgv.low ?_
  · exact h.split.apart hx (List.mem_append_left _ List.mem_cons_self)
  · rw [hgv.free]
    exact List.perm_middle

/-! ## One address space, as a world -/

/-- The one address space there is. -/
theorem Space.world (h : Space D held root k) :
    World D held (fun b => if b = true then some root else none) k where
  split := by
    have hone : ∀ p, k.ownAt (fun b => if b = true then some root else none)
      (true, p) = k.own root p :=
      fun p => ownAt_of_some rfl p
    have hno : ∀ p, k.ownAt (fun b => if b = true then some root else none) (false, p) = none :=
      fun p => ownAt_of_none rfl p
    refine ⟨h.split.nodup, fun f => ?_, fun {f q} hq => ?_, fun {q r f} hq hr => ?_⟩
    · rw [h.split.mem]
      refine or_congr_right ⟨fun ⟨p, hp⟩ => ⟨(true, p), (hone p).trans hp⟩, ?_⟩
      rintro ⟨⟨b, p⟩, hp⟩
      cases b with
      | true => exact ⟨p, (hone p).symm.trans hp⟩
      | false => exact absurd (hp.symm.trans (hno p)) (Option.some_ne_none f)
    · obtain ⟨b, p⟩ := q
      cases b with
      | true => exact h.split.apart ((hone p).symm.trans hq)
      | false => exact absurd (hq.symm.trans (hno p)) (Option.some_ne_none f)
    · obtain ⟨b, p⟩ := q
      obtain ⟨c, p'⟩ := r
      cases b with
      | false => exact absurd (hq.symm.trans (hno p)) (Option.some_ne_none f)
      | true =>
        cases c with
        | false => exact absurd (hr.symm.trans (hno p')) (Option.some_ne_none f)
        | true => rw [h.split.inj ((hone p).symm.trans hq) ((hone p').symm.trans hr)]
  ram := h.ram
  inner {b r} hr := by
    cases b with
    | false => exact absurd hr.symm (Option.some_ne_none r)
    | true =>
      obtain rfl := Option.some.inj hr
      exact h.inner

/-- The one that is left. -/
theorem World.alone (h : World D held roots k) (hi : roots i = some root)
    (hno : ∀ j, j ≠ i → roots j = none) : Space D held root k where
  split := by
    refine ⟨h.split.nodup, fun f => ?_, fun {f p} hp => ?_, fun {p q f} hp hq => ?_⟩
    · rw [h.split.mem]
      refine or_congr_right ⟨?_, fun ⟨p, hp⟩ => ⟨(i, p), (ownAt_of_some hi p).trans hp⟩⟩
      rintro ⟨⟨j, p⟩, hp⟩
      by_cases hj : j = i
      · subst hj
        exact ⟨p, (ownAt_of_some hi p).symm.trans hp⟩
      · rw [ownAt_of_none (hno j hj)] at hp
        exact absurd hp.symm (Option.some_ne_none f)
    · exact h.split.apart ((ownAt_of_some hi p).trans hp)
    · exact congrArg Prod.snd
        (h.split.inj ((ownAt_of_some hi p).trans hp) ((ownAt_of_some hi q).trans hq))
  ram := h.ram
  inner := h.inner hi

end Xv6.Vm
