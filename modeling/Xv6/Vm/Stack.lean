import Xv6.Vm.Image
import Xv6.Vm.CopyOut

/-!
# The user stack of a new program

`uvmclear` takes the lowest page of the stack from the user, and the pages above it can
be written (`Ready`). `copyout` to mapped pages does not fail, and it does not need to
know whose they are (`copyout_mapped`): in `kexec` the page table is not the one of the
process that is running.
-/

namespace Xv6.Vm

open Lib

variable {D : Frame → Prop} {held : List Frame} {root pa : Frame} {k k' k'' : Kmem}
  {q : List (Fin 512)} {w : Pte} {sz va a n : Nat} {p m : Me} {src : List UInt8}

/-! ## `uvmclear` -/

/-- An entry without `PTE_U`. -/
def cleared (pte : Pte) : Pte := pte &&& (2 ^ 64 - 1 - PTE_U)

theorem cleared_lt (pte : Pte) : cleared pte < 2 ^ 64 :=
  Nat.lt_of_le_of_lt Nat.and_le_right (by decide)

theorem cleared_valid (pte : Pte) : cleared pte &&& PTE_V = pte &&& PTE_V := by
  unfold cleared
  rw [Nat.and_assoc]
  rfl

theorem cleared_addr (h : w < 2 ^ 64) : PTE2PA (cleared w) = PTE2PA w := by
  unfold PTE2PA cleared
  rw [Nat.shiftRight_and_distrib, show (2 ^ 64 - 1 - PTE_U) >>> 10 = 2 ^ 54 - 1 by decide,
    Nat.and_two_pow_sub_one_eq_mod, Nat.mod_eq_of_lt]
  rw [Nat.shiftRight_eq_div_pow]
  exact Nat.div_lt_of_lt_mul (Nat.lt_of_lt_of_eq h (by decide))

theorem next_cleared (h : w < 2 ^ 64) : next (cleared w) = next w := by
  unfold next
  rw [cleared_valid, cleared_addr h]

/-- **`uvmclear`** of a page that is mapped. -/
theorem uvmclear_space (h : Space D held root k) (hva : va < MAXVA)
    (hw : k.leaf root (way va) = some w) :
    wp (uvmclear root va) (fun _ k' => Space D held root k' ∧ Calm root k k' ∧
      ∀ q, q.length = 3 → k'.leaf root q = if q = way va then some (cleared w) else k.leaf root q)
      NoPanic k := by
  obtain ⟨hv, hentry⟩ := leaf_eq_some.mp hw
  unfold uvmclear
  refine (walk_look hva).andThen fun r k₁ h₁ => ?_
  obtain ⟨rfl, hr⟩ := h₁
  cases r with
  | none => exact absurd (hw.symm.trans (leaf_none_of_none hr)) (Option.some_ne_none w)
  | some ti =>
    obtain ⟨t, i⟩ := ti
    obtain ⟨rfl, hn⟩ := hr
    have hpte : k₁.pte t (PX 0 va) = w := (leaf_of_found hn).symm.trans hentry
    have hlt : w < 2 ^ 64 := hpte ▸ Nat.lt_of_lt_of_eq (Bytes.get_lt _ _ _) (by decide)
    have hnode : k₁.node root (way va) = next w := (node_next hn _).trans (congrArg next hpte)
    obtain ⟨hs, he, _, hc⟩ := h.leafStore hn (cleared_lt w) (by
      rw [next_cleared hlt, ← hnode]
      exact List.Perm.refl _)
    rw [← hpte] at hs he hc
    refine ⟨hs, hc, fun q hq => ?_⟩
    have he : (k₁.setPte t (PX 0 va) (cleared (k₁.pte t (PX 0 va)))).entry root q =
      if q = way va then cleared w else k₁.entry root q := hpte ▸ he q hq
    by_cases hqv : q = way va
    · rw [if_pos hqv] at he ⊢
      exact leaf_eq_some.mpr ⟨cleared_valid w ▸ hv, he⟩
    · rw [if_neg hqv] at he ⊢
      exact leaf_congr he

/-! ## The stack -/

structure Ready (D : Frame → Prop) (held : List Frame) (root sz : Nat) (k : Kmem) : Prop where
  space : Space D held root k
  sized : Sized root sz k
  mapped : ∀ q, q.length = 3 → pageOf q < pages sz → k.leaf root q ≠ none
  mod : sz % PGSIZE = 0
  room : (USERSTACK + 1) * PGSIZE ≤ sz
  /-- The page below is the guard. -/
  guard : ∀ w, k.leaf root (way (sz - (USERSTACK + 1) * PGSIZE)) = some w → w &&& PTE_U = 0
  stack : ∀ a, sz - USERSTACK * PGSIZE ≤ a → a < sz → Writable ⟨sz, root⟩ k a

theorem stack_size : (USERSTACK + 1) * PGSIZE = 8192 ∧ USERSTACK * PGSIZE = 4096 := ⟨rfl, rfl⟩

/-- **The two pages of the stack.** -/
theorem Grown.ready (hg : Grown D held root (PTE_R ||| PTE_U ||| PTE_W) (PGROUNDUP sz)
      (PGROUNDUP (sz + (USERSTACK + 1) * PGSIZE)) k k')
    (h : Image D held root (sz + (USERSTACK + 1) * PGSIZE) k') (hsz : sz % PGSIZE = 0) :
    wp (uvmclear root sz) (fun _ k'' => Ready D held root (sz + (USERSTACK + 1) * PGSIZE) k'' ∧
      Framed D k' k'') NoPanic k' := by
  have hmax := h.sized.max
  obtain ⟨h2, h1⟩ := stack_size
  rw [TRAPFRAME_eq, h2] at hmax
  rw [PGSIZE_eq] at hsz
  have hround : PGROUNDUP sz = sz := PGROUNDUP_of_mod (by rw [TRAPFRAME_eq]; omega) hsz
  have hround' : PGROUNDUP (sz + (USERSTACK + 1) * PGSIZE) = sz + 8192 :=
    PGROUNDUP_of_mod h.sized.max (by rw [h2, PGSIZE_eq]; omega)
  have hva : sz < MAXVA := by
    rw [MAXVA_eq]
    omega
  have hpages : pages (sz + (USERSTACK + 1) * PGSIZE) = sz / 4096 + 2 := by
    unfold pages
    rw [hround', PGSIZE_eq]
    omega
  have hpage : pageOf (way sz) = sz / 4096 := pageOf_way (Nat.lt_trans hva (by decide))
  obtain ⟨w, hw, _⟩ := h.full (way sz) rfl (by omega)
  refine (uvmclear_space h.space hva hw).mono fun _ k₁ h₁ => ?_
  obtain ⟨hs₁, hc₁, hl₁⟩ := h₁
  have hother : ∀ q, q.length = 3 → pageOf q ≠ sz / 4096 → k₁.leaf root q = k'.leaf root q := by
    intro q hq hne
    rw [hl₁ q hq, if_neg fun (he : q = way sz) => hne (he ▸ hpage)]
  have hno : k₁.leaf root (way sz) = some (cleared w) := by rw [hl₁ (way sz) rfl, if_pos rfl]
  refine ⟨⟨hs₁, ⟨h.sized.max, fun q hq hlo hu => ?_, fun q w' hq hu hw' => ?_⟩,
    fun q hq hlt => ?_, ?_,
    Nat.le_add_left _ _, fun w' hw' => ?_, fun a hlo hhi => ?_⟩, hc₁.framed h.space⟩
  · rw [hround', PGSIZE_eq] at hlo
    rw [hother q hq (by omega)]
    refine h.sized.below q hq ?_ hu
    rwa [hround', PGSIZE_eq]
  · have hu' := hu
    rw [TRAPFRAME_eq, PGSIZE_eq] at hu'
    rw [hother q hq (by omega)] at hw'
    exact h.sized.above q w' hq hu hw'
  · rw [hl₁ q hq]
    split
    next => exact Option.some_ne_none _
    next =>
      obtain ⟨w', hw', _⟩ := h.full q hq hlt
      rw [hw']
      exact Option.some_ne_none w'
  · rw [h2, PGSIZE_eq]
    omega
  · rw [Nat.add_sub_cancel, hno, Option.some.injEq] at hw'
    rw [← hw']
    unfold cleared
    rw [Nat.and_assoc, show (2 ^ 64 - 1 - PTE_U) &&& PTE_U = 0 by decide]
    exact Nat.and_zero w
  · -- the page above the guard is one of the new ones
    rw [h2, h1] at hlo
    rw [h2] at hhi
    have ha : a < MAXVA := by
      rw [MAXVA_eq]
      omega
    have hpa : pageOf (way a) = a / 4096 := pageOf_way (Nat.lt_trans ha (by decide))
    obtain ⟨f, hf, hl, _⟩ := hg.new (way a) rfl (by rw [hround, PGSIZE_eq]; omega)
      (by rw [hround', PGSIZE_eq]; omega)
    have hleaf : k₁.leaf root (way a) = some (entryOf f (PTE_R ||| PTE_U ||| PTE_W)) :=
      (hother (way a) rfl (by omega)).trans hl
    have hnode : k₁.node root (way a) = some f := by
      rw [node_of_leaf rfl, hleaf, Option.map_some, PTE2PA_entryOf (by decide)]
    have hfD : D f := hs₁.of_node (.inr ⟨rfl, by
      rw [hpa, TRAPFRAME_eq, PGSIZE_eq]
      omega⟩) hnode
    refine ⟨ha, _, hleaf, ?_, ?_, ?_⟩
    · rw [entryOf_and (by decide)]
      decide
    · rw [entryOf_and (by decide)]
      decide
    · rw [PTE2PA_entryOf (by decide)]
      exact Nat.ne_of_gt (Nat.lt_of_lt_of_le h.low (h.space.ram f hfD).1)

/-! ## Copying to pages that are there -/

/-- What `copyout` of `src` to `va` leaves when it faults nothing in. -/
structure Written (D : Frame → Prop) (held : List Frame) (m : Me) (va : Nat) (src : List UInt8)
    (k k' : Kmem) : Prop where
  kept : Kept D held m.pagetable m.sz k k'
  tables : TablesKept m.pagetable k k'
  view : ∀ a, k'.view m a =
    if va ≤ a ∧ a < va + src.length then some (src.getD (a - va) 0) else k.view m a

/-- One chunk, then the others. -/
theorem Written.turn {c : Nat} (hc : c ≤ src.length) {va' : Nat}
    (hva' : c < src.length → va' = va + c)
    (h : Written D held m va (src.take c) k k') (h' : Written D held m va' (src.drop c) k' k'') :
    Written D held m va src k k'' where
  kept := h.kept.trans h'.kept
  tables p t hp ht := (h'.tables p t hp ((h.tables.node (by omega)).trans ht)).trans
    (h.tables p t hp ht)
  view a := by
    have htake : (src.take c).length = c := List.length_take_of_le hc
    rw [h'.view a, h.view a, List.length_drop, htake]
    by_cases hlast : c < src.length
    · rw [hva' hlast]
      by_cases hin : va ≤ a ∧ a < va + src.length
      · rw [if_pos hin]
        by_cases hfirst : a < va + c
        · rw [if_neg (by omega), if_pos ⟨hin.1, hfirst⟩, List.getD_eq_getElem?_getD,
            List.getD_eq_getElem?_getD, List.getElem?_take_of_lt (by omega)]
        · rw [if_pos (by omega), List.getD_eq_getElem?_getD, List.getD_eq_getElem?_getD,
            List.getElem?_drop, show c + (a - (va + c)) = a - va by omega]
      · rw [if_neg (by omega), if_neg (by omega), if_neg hin]
    · have hall : c = src.length := by omega
      rw [if_neg (by omega), hall, List.take_length]

/-- **`copyout` to writable pages**, whatever process is running. -/
theorem copyout_mapped : ∀ (n : Nat) {src : List UInt8} {va : Nat} {k : Kmem}, src.length ≤ n →
    Space D held m.pagetable k → Sized m.pagetable m.sz k →
    (∀ j < src.length, Writable m k (va + j)) →
    wp (copyout p m.pagetable va src)
      (fun ok k' => ok = true ∧ Written D held m va src k k') NoPanic k := by
  intro n
  induction n with
  | zero =>
    intro src va k hn h hs _
    obtain rfl := List.length_eq_zero_iff.mp (Nat.le_zero.mp hn)
    unfold copyout
    rw [dif_pos rfl]
    refine ⟨rfl, Kept.refl h hs, fun _ _ _ _ => rfl, fun a => ?_⟩
    rw [List.length_nil, if_neg (by omega)]
  | succ n ih =>
    intro src va k hn h hs hwr
    unfold copyout
    by_cases hsrc : src = []
    · subst hsrc
      rw [dif_pos rfl]
      refine ⟨rfl, Kept.refl h hs, fun _ _ _ _ => rfl, fun a => ?_⟩
      rw [List.length_nil, if_neg (by omega)]
    rw [dif_neg hsrc]
    have hpos := List.length_pos_iff.mpr hsrc
    obtain ⟨hva, w, hw, hu, hwrite, hne⟩ := hwr 0 hpos
    rw [Nat.add_zero] at hva hw
    have hva0 := (PGROUNDDOWN_lt_iff va).mpr hva
    -- `walkaddr` finds the page, so that `vmfault` is not called
    have hopen : wp (userPage p m.pagetable (PGROUNDDOWN va)) (fun r k' => k' = k ∧ r = PTE2PA w)
        NoPanic k := by
      unfold userPage
      refine (walkaddr_wp _ _).andThen fun r k₁ h₁ => ?_
      obtain ⟨rfl, hr⟩ := h₁
      rw [addrOf_of_leaf hva hw hu] at hr
      rw [wp_ite, hr]
      exact ⟨fun hz => absurd hz hne, fun _ => ⟨rfl, rfl⟩⟩
    rw [wp_ite]
    refine ⟨fun hc => absurd hva0 (Nat.not_lt_of_le hc), fun _ => ?_⟩
    refine hopen.andThen fun r k₁ h₁ => ?_
    obtain ⟨rfl, rfl⟩ := h₁
    rw [wp_ite]
    refine ⟨fun hz => absurd hz hne, fun _ => ?_⟩
    refine (walk_look hva0).andThen fun r k₂ h₂ => ?_
    obtain ⟨rfl, hr⟩ := h₂
    cases r with
    | none =>
      have hno := leaf_none_of_none hr
      rw [way_round] at hno
      exact absurd (hw.symm.trans hno) (Option.some_ne_none w)
    | some ti =>
      obtain ⟨t, i⟩ := ti
      obtain ⟨rfl, hn₂⟩ := hr
      have hpte : k₂.pte t (PX 0 (PGROUNDDOWN va)) = w := by
        rw [← leaf_of_found hn₂, way_round]
        exact (leaf_eq_some.mp hw).2
      show wp (get >>= fun k => _) _ _ _
      rw [wp_bind, wp_get, wp_ite, hpte]
      refine ⟨fun hz => absurd hz hwrite, fun _ => ?_⟩
      unfold store
      rw [wp_bind, wp_modify]
      have hc := chunk_eq va src.length
      have hround := PGROUNDDOWN_eq va
      have hPG := PGSIZE_eq
      have hoff : va - PGROUNDDOWN va = va % PGSIZE := by
        rw [PGSIZE_eq]
        omega
      rw [hoff]
      set c := chunk va src.length with hcdef
      have hmapped : MappedAt m.pagetable va k₂ (PTE2PA w) :=
        ⟨(user_leaf h hs rfl hw hu).1, hva, (user_leaf h hs rfl hw hu).2.1⟩
      -- one page is written, and the rest is the loop
      have hfirst : Written D held m va (src.take c) k₂
          (k₂.setPage (PTE2PA w) (Bytes.blit (k₂.mem (PTE2PA w)) (va % PGSIZE) (src.take c))) :=
        ⟨hmapped.store h hs _, hmapped.tables h _, view_store h hs hva hw hu (by
          rw [List.length_take, PGSIZE_eq]
          omega)⟩
      refine (ih (by rw [List.length_drop]; omega) hfirst.kept.space hfirst.kept.sized
        fun j hj => ?_).mono
        fun ok k₃ h₃ => ⟨h₃.1, hfirst.turn (by omega) (by omega) h₃.2⟩
      rw [List.length_drop] at hj
      obtain ⟨ha, w', hw', hrest⟩ := hwr (c + j) (by omega)
      have haddr : PGROUNDDOWN va + PGSIZE + j = va + (c + j) := by omega
      rw [haddr]
      exact ⟨ha, w', (hfirst.tables.leaves _ rfl).trans hw', hrest⟩

theorem Written.ready (hw : Written D held ⟨sz, root⟩ va src k k') (h : Ready D held root sz k) :
    Ready D held root sz k' where
  space := hw.kept.space
  sized := hw.kept.sized
  mapped q hq hlt := by
    rw [hw.tables.leaves q hq]
    exact h.mapped q hq hlt
  mod := h.mod
  room := h.room
  guard w hl := h.guard w ((hw.tables.leaves _ rfl).symm.trans hl)
  stack a hlo hhi := by
    obtain ⟨ha, w, hl, hrest⟩ := h.stack a hlo hhi
    exact ⟨ha, w, (hw.tables.leaves _ rfl).trans hl, hrest⟩

end Xv6.Vm
