import Xv6.Vm.Fault

/-!
# User memory as bytes

What a user program would read at an address: the byte of the page mapped there for the
user, and 0 on a page below `p->sz` that has not been touched (`Kmem.view`).

> A fault changes nothing of this (`Grew.view`): the page it maps is new, and all zeros.
> A store to a page changes the bytes stored and no others (`view_store`), since no
> other address leads to that page.
-/

namespace Xv6.Vm

open Lib

variable {D : Frame → Prop} {held : List Frame} {root f pa t : Frame} {k k' k'' : Kmem}
  {q : List (Fin 512)} {w : Pte} {va a off : Nat} {p : Me}

/-- What is read at `va`; `none` where the user may not read. -/
def Kmem.view (k : Kmem) (p : Me) (va : Nat) : Option UInt8 :=
  if MAXVA ≤ va then none
  else
    match k.leaf p.pagetable (way va) with
    | none => if PGROUNDDOWN va < p.sz then some 0 else none
    | some w => if w &&& PTE_U = 0 then none else some (k.mem (PTE2PA w) (va % PGSIZE))

theorem PGROUNDDOWN_lt_iff (va : Nat) : PGROUNDDOWN va < MAXVA ↔ va < MAXVA := by
  rw [PGROUNDDOWN_eq, MAXVA_eq]
  omega

theorem pageOf_way_mul (h : va < MAXVA) : pageOf (way va) * PGSIZE = PGROUNDDOWN va := by
  rw [pageOf_way (Nat.lt_trans h (by decide))]
  rfl

theorem view_of_max (h : MAXVA ≤ va) : k.view p va = none := if_pos h

theorem view_of_leaf (hva : va < MAXVA) (hw : k.leaf p.pagetable (way va) = some w) :
    k.view p va = if w &&& PTE_U = 0 then none else some (k.mem (PTE2PA w) (va % PGSIZE)) := by
  unfold Kmem.view
  rw [if_neg (Nat.not_le_of_lt hva), hw]

theorem view_of_none (hva : va < MAXVA) (hno : k.leaf p.pagetable (way va) = none) :
    k.view p va = if PGROUNDDOWN va < p.sz then some 0 else none := by
  unfold Kmem.view
  rw [if_neg (Nat.not_le_of_lt hva), hno]

/-- A leaf for the user is a page of the process, and its frame is not free. -/
theorem user_leaf (h : Space D held root k) (hs : Sized root p.sz k) (hq : q.length = 3)
    (hw : k.leaf root q = some w) (hu : w &&& PTE_U ≠ 0) :
    Mine q ∧ k.node root q = some (PTE2PA w) ∧ Busy root k (PTE2PA w) := by
  have hmine : Mine q := Or.inr ⟨hq, Nat.lt_of_not_le fun hge => hu (hs.above q w hq hge hw).1⟩
  have hnode : k.node root q = some (PTE2PA w) := by
    rw [node_of_leaf hq, hw, Option.map_some]
  exact ⟨hmine, hnode, h.busy_leaf hmine hq hnode⟩

theorem entryOf_user (f : Frame) : entryOf f faultFlags &&& PTE_U ≠ 0 ∧
    entryOf f faultFlags &&& PTE_W ≠ 0 := by
  rw [entryOf_and (by decide), entryOf_and (by decide)]
  decide

/-- **A fault is not seen** by the user. -/
theorem Grew.view (hg : Grew D held p k k') (h : Space D held p.pagetable k)
    (hs : Sized p.pagetable p.sz k) (va : Nat) : k'.view p va = k.view p va := by
  by_cases hva : MAXVA ≤ va
  · rw [view_of_max hva, view_of_max hva]
  have hva := Nat.lt_of_not_le hva
  rcases hg.leaves (way va) rfl with he | ⟨hno, hlt, f, _, hf, hz⟩
  · cases hw : k.leaf p.pagetable (way va) with
    | none => rw [view_of_none hva hw, view_of_none hva (he.trans hw)]
    | some w =>
      rw [view_of_leaf hva hw, view_of_leaf hva (he.trans hw)]
      split
      next => rfl
      next hu => rw [(hg.calm.busy _ (user_leaf h hs rfl hw hu).2.2).2]
  · rw [pageOf_way_mul hva] at hlt
    rw [view_of_none hva hno, view_of_leaf hva hf, if_neg (entryOf_user f).1, if_pos hlt,
      PTE2PA_entryOf (by decide), hz]

/-- Two addresses of one page. -/
theorem way_eq_iff (hva : va < MAXVA) (ha : a < MAXVA) : way a = way va ↔ a / 4096 = va / 4096 := by
  refine ⟨fun h => way_inj (Nat.lt_trans ha (by decide)) (Nat.lt_trans hva (by decide)) h,
    fun h => ?_⟩
  rw [← way_round a, ← way_round va, PGROUNDDOWN_eq, PGROUNDDOWN_eq, h]

/-- **A store to a user page** is seen where it goes, and nowhere else. -/
theorem view_store (h : Space D held p.pagetable k) (hs : Sized p.pagetable p.sz k)
    (hva : va < MAXVA) (hw : k.leaf p.pagetable (way va) = some w) (hu : w &&& PTE_U ≠ 0)
    {l : List UInt8} (hoff : va % PGSIZE + l.length ≤ PGSIZE) (a : Nat) :
    (k.setPage (PTE2PA w) (Bytes.blit (k.mem (PTE2PA w)) (va % PGSIZE) l)).view p a =
      if va ≤ a ∧ a < va + l.length then some (l.getD (a - va) 0) else k.view p a := by
  obtain ⟨hmine, hnode, hbusy⟩ := user_leaf h hs rfl hw hu
  set k₁ := k.setPage (PTE2PA w) (Bytes.blit (k.mem (PTE2PA w)) (va % PGSIZE) l) with hk₁
  have hkept : TablesKept p.pagetable k k₁ := fun q t hq ht =>
    setPage_of_ne (fun (he : t = PTE2PA w) => hbusy.2 q hq (he ▸ ht)) k _
  have hleaf : k₁.leaf p.pagetable (way a) = k.leaf p.pagetable (way a) := hkept.leaves _ rfl
  rw [MAXVA_eq] at hva
  rw [PGSIZE_eq] at hoff hk₁
  by_cases hmax : MAXVA ≤ a
  · rw [view_of_max hmax, view_of_max hmax, if_neg]
    rw [MAXVA_eq] at hmax
    omega
  have ha := Nat.lt_of_not_le hmax
  by_cases hpage : a / 4096 = va / 4096
  · -- an address of the page itself
    have hwa : k.leaf p.pagetable (way a) = some w := by
      rw [(way_eq_iff (by rw [MAXVA_eq]; exact hva) ha).mpr hpage]
      exact hw
    rw [view_of_leaf ha hwa, view_of_leaf ha (hleaf.trans hwa), if_neg hu, if_neg hu, hk₁,
      setPage_self,
      PGSIZE_eq]
    split
    next hin =>
      have hsplit : a % 4096 = va % 4096 + (a - va) := by omega
      rw [hsplit, Bytes.blit_of_in _ (by omega)]
    next hout => rw [Bytes.blit_of_out _ (by omega)]
  · rw [if_neg (by omega)]
    cases hwa : k.leaf p.pagetable (way a) with
    | none => rw [view_of_none ha hwa, view_of_none ha (hleaf.trans hwa)]
    | some w' =>
      rw [view_of_leaf ha hwa, view_of_leaf ha (hleaf.trans hwa)]
      split
      next => rfl
      next hu' =>
        have hne : PTE2PA w' ≠ PTE2PA w := fun he => by
          obtain ⟨hmine', hnode', _⟩ := user_leaf h hs rfl hwa hu'
          have hway := h.node_inj hmine' hmine hnode' (he ▸ hnode)
          exact hpage ((way_eq_iff (by rw [MAXVA_eq]; exact hva) ha).mp hway)
        rw [hk₁, setPage_of_ne hne]

end Xv6.Vm
