import Xv6.Vm.Pte
import Xv6.Lib.Owner

/-!
# Who owns a page

A page table is a radix tree in memory (`Kmem.node`): the paths of up to two indices
lead to its tables, those of three to the pages mapped. `Space D held root k` divides
the pages of `D`:

> each is on the free list, or in the hands of the caller (`held`), or a table of
> `root`, or mapped below `TRAPFRAME`, and is so once.

Everything else in memory is somebody else's. Two lemmas change a space: memory
changes outside the tables (`Space.shuffle`), or one entry of one table changes
(`Space.store`).
-/

namespace Xv6.Vm

open Lib

namespace Kmem

/-- What `pagetable[i]` leads to. -/
def child (k : Kmem) (pagetable : Frame) (i : Fin 512) : Option Frame := next (k.pte pagetable i)

def node (k : Kmem) (root : Frame) : List (Fin 512) → Option Frame := Radix.node k.child root

/-- The entry at a path: the first index is the one into the last table. -/
def entry (k : Kmem) (root : Frame) : List (Fin 512) → Pte
  | [] => 0
  | i :: p =>
    match k.node root p with
    | none => 0
    | some t => k.pte t i

end Kmem

/-- The paths to what belongs to an address space: its tables, and the pages below
`TRAPFRAME`. -/
def Mine (p : List (Fin 512)) : Prop :=
  p.length ≤ 2 ∨ p.length = 3 ∧ pageOf p < TRAPFRAME / PGSIZE

instance (p : List (Fin 512)) : Decidable (Mine p) := inferInstanceAs (Decidable (_ ∨ _))

def Kmem.own (k : Kmem) (root : Frame) (p : List (Fin 512)) : Option Frame :=
  if Mine p then k.node root p else none

structure Space (D : Frame → Prop) (held : List Frame) (root : Frame) (k : Kmem) : Prop where
  split : Owner.Split D (held ++ k.freelist) (k.own root)
  ram : ∀ f, D f → k.low ≤ f ∧ f < PHYSTOP / PGSIZE
  /-- An entry that leads to a table grants nothing. -/
  inner : ∀ {p t} i, p.length ≤ 1 → k.node root p = some t →
    k.pte t i &&& (PTE_R ||| PTE_W ||| PTE_X) = 0

variable {D : Frame → Prop} {held held' : List Frame} {root t f : Frame} {k k' k'' : Kmem}
  {p q : List (Fin 512)} {i : Fin 512} {w : Pte}

theorem Mine.le (h : Mine p) : p.length ≤ 3 := by
  rcases h with h | h
  · omega
  · omega

theorem mine_table (h : p.length ≤ 2) : Mine p := .inl h

theorem own_of_mine (h : Mine p) : k.own root p = k.node root p := if_pos h

theorem own_table (h : p.length ≤ 2) : k.own root p = k.node root p := if_pos (.inl h)

theorem own_eq_some : k.own root p = some f ↔ Mine p ∧ k.node root p = some f :=
  Option.ite_none_right_eq_some

theorem entry_of_node (h : k.node root p = some t) : k.entry root (i :: p) = k.pte t i := by
  show (match k.node root p with | none => 0 | some t => k.pte t i) = _
  rw [h]

theorem entry_of_none (h : k.node root p = none) : k.entry root (i :: p) = 0 := by
  show (match k.node root p with | none => 0 | some t => k.pte t i) = _
  rw [h]

theorem node_cons (k : Kmem) (root : Frame) (i : Fin 512) (p : List (Fin 512)) :
    k.node root (i :: p) = next (k.entry root (i :: p)) := by
  cases h : k.node root p with
  | none =>
    rw [entry_of_none h, next_of_invalid (Nat.zero_and _)]
    exact Radix.node_append_none (p := [i]) h
  | some t =>
    rw [entry_of_node h]
    exact Radix.node_of_some h

/-! ## Reading and writing entries -/

@[simp] theorem setPage_self (k : Kmem) (pa : Frame) (x : Page) : (k.setPage pa x).mem pa = x := by
  show Function.update k.mem pa x pa = x
  rw [Function.update_self]

theorem setPage_of_ne {pa pa' : Frame} (h : pa' ≠ pa) (k : Kmem) (x : Page) :
    (k.setPage pa x).mem pa' = k.mem pa' := by
  show Function.update k.mem pa x pa' = _
  rw [Function.update_of_ne h]

theorem pte_congr {t : Frame} (h : k'.mem t = k.mem t) (i : Fin 512) : k'.pte t i = k.pte t i := by
  unfold Kmem.pte
  rw [h]

theorem pte_setPte_self (hw : w < 2 ^ 64) : (k.setPte t i w).pte t i = w := by
  unfold Kmem.pte Kmem.setPte
  rw [setPage_self]
  exact Bytes.get_put _ _ _ (Nat.lt_of_lt_of_eq hw (by decide))

theorem pte_setPte_of_ne {u : Frame} {j : Fin 512} (h : u ≠ t ∨ j ≠ i) :
    (k.setPte t i w).pte u j = k.pte u j := by
  by_cases hu : u = t
  · have hj : (j : Nat) ≠ i := fun he => h.elim (fun hc => hc hu) fun hc => hc (Fin.ext he)
    unfold Kmem.pte Kmem.setPte
    rw [hu, setPage_self]
    exact Bytes.get_put_ne _ (by omega)
  · exact pte_congr (setPage_of_ne hu k _) j

/-- A page of zeros has no entries. -/
theorem pte_zero (h : k.mem t = fun _ => 0) (i : Fin 512) : k.pte t i = 0 := by
  unfold Kmem.pte
  rw [h]
  exact Bytes.get_zero fun _ _ => rfl

/-! ## Memory outside the tables -/

/-- A page that is neither free nor a table. -/
def Busy (root : Frame) (k : Kmem) (f : Frame) : Prop :=
  f ∉ k.freelist ∧ ∀ p, p.length ≤ 2 → k.node root p ≠ some f

/-- Nothing is done to the tables. -/
def TablesKept (root : Frame) (k k' : Kmem) : Prop :=
  ∀ p t, p.length ≤ 2 → k.node root p = some t → k'.mem t = k.mem t

theorem TablesKept.node (h : TablesKept root k k') (hp : p.length ≤ 3) :
    k'.node root p = k.node root p := by
  refine Radix.node_congr (n := 3) (fun p t hp ht i => ?_) p hp
  show next _ = next _
  rw [pte_congr (h p t (Nat.le_of_lt_succ hp) ht) i]

theorem TablesKept.entry (h : TablesKept root k k') (hq : q.length ≤ 3) :
    k'.entry root q = k.entry root q := by
  cases q with
  | nil => rfl
  | cons i p =>
    have hp : p.length ≤ 2 := Nat.le_of_succ_le_succ hq
    have hn := h.node (Nat.le_succ_of_le hp)
    cases ht : k.node root p with
    | none => rw [entry_of_none ht, entry_of_none (hn.trans ht)]
    | some t => rw [entry_of_node ht, entry_of_node (hn.trans ht), pte_congr (h p t hp ht)]

theorem TablesKept.own (h : TablesKept root k k') (p : List (Fin 512)) :
    k'.own root p = k.own root p := by
  unfold Kmem.own
  split
  next hp => exact h.node hp.le
  next => rfl

namespace Space

theorem of_held (h : Space D held root k) (hf : f ∈ held) : D f :=
  h.split.of_mem (List.mem_append_left _ hf)

theorem of_free (h : Space D held root k) (hf : f ∈ k.freelist) : D f :=
  h.split.of_mem (List.mem_append_right _ hf)

theorem of_node (h : Space D held root k) (hp : Mine p) (hf : k.node root p = some f) : D f :=
  h.split.of_own (own_eq_some.mpr ⟨hp, hf⟩)

theorem node_inj (h : Space D held root k) (hp : Mine p) (hq : Mine q)
    (hpf : k.node root p = some f) (hqf : k.node root q = some f) : p = q :=
  h.split.inj (own_eq_some.mpr ⟨hp, hpf⟩) (own_eq_some.mpr ⟨hq, hqf⟩)

theorem tables_apart (h : Space D held root k) : Radix.Apart k.child root 3 := fun hp hq =>
  h.node_inj (mine_table (Nat.le_of_lt_succ hp)) (mine_table (Nat.le_of_lt_succ hq))

theorem not_free_of_node (h : Space D held root k) (hp : Mine p) (hf : k.node root p = some f) :
    f ∉ k.freelist := fun hc =>
  h.split.apart (own_eq_some.mpr ⟨hp, hf⟩) (List.mem_append_right _ hc)

theorem not_held_of_node (h : Space D held root k) (hp : Mine p) (hf : k.node root p = some f) :
    f ∉ held := fun hc =>
  h.split.apart (own_eq_some.mpr ⟨hp, hf⟩) (List.mem_append_left _ hc)

/-- What the caller holds is neither free nor a table. -/
theorem busy_held (h : Space D held root k) (hf : f ∈ held) : Busy root k f :=
  ⟨fun hc => (List.nodup_append.mp h.split.nodup).2.2 f hf f hc rfl,
    fun _ hp hc => h.not_held_of_node (mine_table hp) hc hf⟩

/-- What is mapped is neither free nor a table. -/
theorem busy_leaf (h : Space D held root k) (hp : Mine p) (hl : p.length = 3)
    (hf : k.node root p = some f) : Busy root k f :=
  ⟨h.not_free_of_node hp hf, fun q hq hc => by
    have he := h.node_inj hp (mine_table hq) hf hc
    rw [he] at hl
    omega⟩

/-- What is somebody else's is neither free nor a table. -/
theorem busy_out (h : Space D held root k) (hf : ¬D f) : Busy root k f :=
  ⟨fun hc => hf (h.of_free hc), fun _ hp hc => hf (h.of_node (mine_table hp) hc)⟩

/-- **The tables stay as they are**, and the caller and the free list exchange pages. -/
theorem shuffle (h : Space D held root k) (hm : TablesKept root k k') (hlow : k'.low = k.low)
    (hp : (held' ++ k'.freelist).Perm (held ++ k.freelist)) : Space D held' root k' where
  split := (h.split.congr hm.own).perm hp
  ram f hf := by
    rw [hlow]
    exact h.ram f hf
  inner {p t} i hl ht := by
    have ht : k.node root p = some t := (hm.node (by omega)).symm.trans ht
    rw [pte_congr (hm p t (by omega) ht) i]
    exact h.inner i hl ht

end Space

/-! ## An empty page table -/

/-- The pages of `D` are free or in the hands of the caller. -/
structure Pool (D : Frame → Prop) (held : List Frame) (k : Kmem) : Prop where
  nodup : (held ++ k.freelist).Nodup
  mem : ∀ f, D f ↔ f ∈ held ++ k.freelist
  ram : ∀ f, D f → k.low ≤ f ∧ f < PHYSTOP / PGSIZE

theorem node_zero (hz : k.mem root = fun _ => 0) (i : Fin 512) (p : List (Fin 512)) :
    k.node root (i :: p) = none := by
  have hone : ∀ j, k.node root [j] = none := fun j => by
    rw [node_cons, entry_of_node (p := []) rfl, pte_zero hz]
    exact next_of_invalid (Nat.zero_and _)
  rcases List.eq_nil_or_concat' (i :: p) with hc | ⟨q, j, hq⟩
  · exact absurd hc (List.cons_ne_nil i p)
  · rw [hq]
    exact Radix.node_append_none (hone j)

/-- A page of zeros is a page table that maps nothing. -/
theorem Pool.space (h : Pool D (root :: held) k) (hz : k.mem root = fun _ => 0) :
    Space D held root k := by
  have hown : ∀ p, k.own root p = if p = [] then some root else none := by
    intro p
    cases p with
    | nil => rfl
    | cons i p =>
      rw [if_neg (List.cons_ne_nil i p)]
      unfold Kmem.own
      rw [node_zero hz, ite_self]
  have hroot : ∀ {p f}, k.own root p = some f ↔ p = [] ∧ f = root := fun {p f} => by
    rw [hown, Option.ite_none_right_eq_some, Option.some.injEq, eq_comm (a := root)]
  refine ⟨⟨(List.nodup_cons.mp h.nodup).2, fun f => ?_, fun {f q} hq hc => ?_,
    fun {q r f} hq hr => (hroot.mp hq).1.trans (hroot.mp hr).1.symm⟩, h.ram, fun {p t} i _ ht => ?_⟩
  · rw [h.mem, List.cons_append, List.mem_cons]
    constructor
    · rintro (rfl | hf)
      · exact .inr ⟨[], hroot.mpr ⟨rfl, rfl⟩⟩
      · exact .inl hf
    · rintro (hf | ⟨q, hq⟩)
      · exact .inr hf
      · exact .inl (hroot.mp hq).2
  · exact (List.nodup_cons.mp h.nodup).1 ((hroot.mp hq).2 ▸ hc)
  · cases p with
    | nil =>
      have ht : some root = some t := ht
      rw [← Option.some.inj ht, pte_zero hz]
      exact Nat.zero_and _
    | cons j p =>
      rw [node_zero hz] at ht
      exact absurd ht.symm (Option.some_ne_none t)

/-! ## One entry -/

/-- An entry of a table is written. -/
structure Stored (root t : Frame) (i : Fin 512) (p : List (Fin 512)) (w : Pte) (k k' : Kmem) :
    Prop where
  at_ : k.node root p = some t
  len : p.length ≤ 2
  is : k' = k.setPte t i w
  lt : w < 2 ^ 64
  /-- Nothing was below an entry that leads to a table, and nothing is. -/
  old : p.length ≤ 1 → k.child t i = none
  new : p.length ≤ 1 → ∀ u, next w = some u → u ≠ t ∧ ∀ j, k.pte u j = 0

namespace Stored

theorem child_self (h : Stored root t i p w k k') : k'.child t i = next w := by
  show next (k'.pte t i) = _
  rw [h.is, pte_setPte_self h.lt]

theorem node (h : Stored root t i p w k k') (ha : Radix.Apart k.child root 3) (hq : q.length ≤ 3) :
    k'.node root q = if q = i :: p then next w else k.node root q := by
  have hlen := h.len
  have hsame : ∀ u j, u ≠ t ∨ j ≠ i → k'.child u j = k.child u j := fun u j hne => by
    show next (k'.pte u j) = next (k.pte u j)
    rw [h.is, pte_setPte_of_ne hne]
  have hdeep : p.length ≤ 1 ∨ p.length + 1 = 3 := by omega
  have hu := Radix.node_update ha h.at_ (by omega) h.child_self hsame
    (hdeep.imp_left fun hp => h.old hp)
    (hdeep.imp_left fun hp u hu j => by
      obtain ⟨hne, hz⟩ := h.new hp u hu
      rw [hsame u j (.inl hne)]
      show next (k.pte u j) = none
      rw [hz]
      rfl) q hq
  split
  next he => exact hu.2 he
  next he => exact hu.1 he

/-- An entry other than the one written reads the same, as long as what the written one
leads to is empty. -/
theorem entry (h : Stored root t i p w k k') (ha : Radix.Apart k.child root 3) (hq : q.length = 3) :
    k'.entry root q = if q = i :: p then w else k.entry root q := by
  cases q with
  | nil => exact absurd hq (by decide)
  | cons j r =>
    have hr : r.length = 2 := Nat.succ.inj hq
    have hlen := h.len
    have hn := h.node ha (q := r) (by omega)
    by_cases hri : r = i :: p
    · -- the table is new, and empty
      have hp1 : p.length ≤ 1 := by
        rw [hri, List.length_cons] at hr
        omega
      have hne : j :: r ≠ i :: p := fun he => by
        have hl := congrArg List.length he
        rw [List.length_cons, List.length_cons] at hl
        omega
      have hold : k.node root r = none := by
        rw [hri]
        exact (Radix.node_of_some h.at_).trans (h.old hp1)
      rw [if_neg hne, entry_of_none hold]
      rw [if_pos hri] at hn
      cases hw : next w with
      | none => exact entry_of_none (hn.trans hw)
      | some u =>
        obtain ⟨hut, hz⟩ := h.new hp1 u hw
        rw [entry_of_node (hn.trans hw), h.is, pte_setPte_of_ne (.inl hut), hz]
    · rw [if_neg hri] at hn
      cases hu : k.node root r with
      | none =>
        rw [entry_of_none (hn.trans hu), if_neg, entry_of_none hu]
        intro he
        rw [(List.cons.inj he).2, h.at_] at hu
        exact Option.some_ne_none t hu
      | some u =>
        rw [entry_of_node (hn.trans hu), h.is]
        by_cases he : j :: r = i :: p
        · obtain ⟨rfl, rfl⟩ := List.cons.inj he
          rw [h.at_, Option.some.injEq] at hu
          rw [if_pos rfl, ← hu, pte_setPte_self h.lt]
        · rw [if_neg he, entry_of_node hu]
          refine pte_setPte_of_ne ?_
          by_cases hut : u = t
          · have hrp := ha (by omega) (by omega) hu (hut ▸ h.at_)
            exact .inr fun hj => he (by rw [hj, hrp])
          · exact .inl hut

end Stored

/-- **One entry is written**: what it led to and what the caller had are, together, what
it leads to and what the caller has. -/
theorem Space.store (h : Space D held root k) (hs : Stored root t i p w k k')
    (hin : p.length ≤ 1 → w &&& (PTE_R ||| PTE_W ||| PTE_X) = 0)
    (hp : ((if Mine (i :: p) then next w else none).toList ++ held').Perm
      ((k.own root (i :: p)).toList ++ held)) : Space D held' root k' where
  split := by
    have hfl : k'.freelist = k.freelist := by
      rw [hs.is]
      rfl
    have hm := h.split.move (i :: p)
      (if Mine (i :: p) then next w else none) (show (_ ++ (held' ++ k'.freelist)).Perm _ by
        rw [hfl, ← List.append_assoc, ← List.append_assoc]
        exact hp.append_right k.freelist)
    refine hm.congr fun q => ?_
    by_cases hq : q = i :: p
    · rw [hq, Function.update_self]
      unfold Kmem.own
      split
      next hmine => rw [hs.node h.tables_apart hmine.le, if_pos rfl]
      next => rfl
    · rw [Function.update_of_ne hq]
      unfold Kmem.own
      split
      next hmine => rw [hs.node h.tables_apart hmine.le, if_neg hq]
      next => rfl
  ram f hf := by
    rw [hs.is]
    exact h.ram f hf
  inner {q u} j hl hu := by
    have hlen := hs.len
    rw [hs.node h.tables_apart (by omega)] at hu
    rw [hs.is]
    split at hu
    next hq =>
      have hp1 : p.length ≤ 1 := by
        rw [hq, List.length_cons] at hl
        omega
      obtain ⟨hut, hz⟩ := hs.new hp1 u hu
      rw [pte_setPte_of_ne (.inl hut), hz]
      exact Nat.zero_and _
    next =>
      by_cases hj : u = t ∧ j = i
      · obtain ⟨rfl, rfl⟩ := hj
        rw [pte_setPte_self hs.lt]
        refine hin ?_
        rwa [← h.node_inj (mine_table (by omega)) (mine_table hlen) hu hs.at_]
      · rw [pte_setPte_of_ne (Decidable.not_and_iff_or_not.mp hj)]
        exact h.inner j hl hu

end Xv6.Vm
