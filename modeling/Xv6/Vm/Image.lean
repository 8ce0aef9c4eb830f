import Xv6.Vm.Exec
import Xv6.Vm.View
import Mathlib.Data.Fintype.Card

/-!
# Loading a program

The sizes in the headers of a file are 64 bits wide and can be anything, so `uvmalloc`
is asked for memory far beyond `TRAPFRAME`. It does not get there:

> `few_pages`: where every page below a size is mapped, to a page of memory of its own,
> the size is at most that of memory, which is less than `TRAPFRAME`.

What `loadPhdrs` keeps is `Image`: an address space of this size where every page below
the size is mapped for the user. `loadseg` finds each page of a segment in it, and
whatever the file makes it fail at, `proc_freepagetable` can take the image apart.
-/

namespace Xv6.Vm

open Lib

variable {D : Frame → Prop} {held : List Frame} {root pa : Frame} {k k' k'' : Kmem}
  {q : List (Fin 512)} {w : Pte} {sz newsz va n xperm : Nat} {content : List UInt8}

/-- Every page below the size is mapped for the user. -/
def Full (root sz : Nat) (k : Kmem) : Prop :=
  ∀ q, q.length = 3 → pageOf q < pages sz → ∃ w, k.leaf root q = some w ∧ w &&& PTE_U ≠ 0

structure Image (D : Frame → Prop) (held : List Frame) (root sz : Nat) (k : Kmem) : Prop where
  space : Space D held root k
  sized : Sized root sz k
  full : Full root sz k
  /-- Page 0 is not memory. -/
  low : 0 < k.low

/-! ## Memory is small -/

theorem pageOf_way_page (h : n < TRAPFRAME / PGSIZE) : pageOf (way (n * PGSIZE)) = n := by
  rw [pageOf_way]
  · exact Nat.mul_div_cancel n (by decide)
  · rw [PGSIZE_eq]
    rw [TRAPFRAME_eq, PGSIZE_eq] at h
    omega

/-- **Every page mapped takes a page of memory.** -/
theorem few_pages (h : Space D held root k) (hn : n ≤ TRAPFRAME / PGSIZE)
    (hfull : ∀ q, q.length = 3 → pageOf q < n → k.leaf root q ≠ none) : n ≤ PHYSTOP / PGSIZE := by
  have hway : ∀ i : Fin n, pageOf (way (i * PGSIZE)) = i := fun i =>
    pageOf_way_page (Nat.lt_of_lt_of_le i.isLt hn)
  have hmine : ∀ i : Fin n, Mine (way (i * PGSIZE)) := fun i => by
    refine .inr ⟨rfl, ?_⟩
    rw [hway]
    exact Nat.lt_of_lt_of_le i.isLt hn
  have hex : ∀ i : Fin n, ∃ f, k.node root (way (i * PGSIZE)) = some f := fun i => by
    obtain ⟨w, hw⟩ :=
      Option.ne_none_iff_exists'.mp (hfull (way (i * PGSIZE)) rfl ((hway i).symm ▸ i.isLt))
    exact ⟨PTE2PA w, by rw [node_of_leaf rfl, hw, Option.map_some]⟩
  choose frame hframe using hex
  generalize hN : PHYSTOP / PGSIZE = N
  have hlt : ∀ i, frame i < N := fun i => hN ▸ (h.ram _ (h.of_node (hmine i) (hframe i))).2
  have hinj : Function.Injective fun i => (⟨frame i, hlt i⟩ : Fin N) := by
    intro i j hij
    have hij : frame i = frame j := congrArg Fin.val hij
    have hp := h.node_inj (hmine i) (hmine j) (hframe i) (hij ▸ hframe j)
    exact Fin.ext (by rw [← hway i, ← hway j, hp])
  have hcard := Fintype.card_le_of_injective _ hinj
  rwa [Fintype.card_fin, Fintype.card_fin] at hcard

/-- What the pages between the two sizes are when `uvmalloc` returns. -/
theorem Grown.image (hg : Grown D held root (PTE_R ||| PTE_U ||| xperm) (PGROUNDUP sz)
    (PGROUNDUP newsz) k k')
    (h : Image D held root sz k) (hx : xperm < 1024) (hle : sz ≤ newsz) (hnew : newsz ≤ TRAPFRAME) :
    Image D held root newsz k' := by
  have hperm : PTE_R ||| PTE_U ||| xperm < 1024 := Nat.or_lt_two_pow (n := 10) (by decide) hx
  have hk := hg.kept h.space h.sized hle hnew
  refine ⟨hk.space, hk.sized, fun q hq hlt => ?_, hk.framed.low ▸ h.low⟩
  by_cases hlo : pages sz ≤ pageOf q
  · obtain ⟨f, _, hl, _⟩ := hg.new q hq hlo hlt
    refine ⟨_, hl, ?_⟩
    rw [Nat.or_assoc, or_and (by decide), Nat.and_or_distrib_right, Nat.and_or_distrib_right,
      Nat.and_or_distrib_right]
    intro hz
    have hu : PTE_U &&& PTE_U = 0 :=
      (Nat.or_eq_zero_iff.mp (Nat.or_eq_zero_iff.mp (Nat.or_eq_zero_iff.mp hz).1).1).2
    exact absurd hu (by decide)
  · obtain ⟨w, hw, hu⟩ := h.full q hq (Nat.lt_of_not_le hlo)
    exact ⟨w, (hg.old q hq fun hc => hlo hc.1).trans hw, hu⟩

/-- **`uvmalloc`, whatever size it is asked for.** -/
theorem uvmalloc_image (h : Image D held root sz k) (hx : xperm < 1024) :
    wp (uvmalloc root sz newsz xperm) (fun r k' => Framed D k k' ∧
      ((r = 0 ∧ Image D held root sz k') ∨ (r = max sz newsz ∧ Image D held root r k' ∧
        Grown D held root (PTE_R ||| PTE_U ||| xperm) (PGROUNDUP sz)
          (PGROUNDUP r) k k'))) NoPanic k := by
  have hperm : PTE_R ||| PTE_U ||| xperm < 1024 := Nat.or_lt_two_pow (n := 10) (by decide) hx
  unfold uvmalloc
  rw [wp_ite]
  refine ⟨fun hlt => ?_, fun hge => ?_⟩
  · exact ⟨Framed.refl D k,
      .inr ⟨(Nat.max_eq_left (Nat.le_of_lt hlt)).symm, h, Grown.start h.space⟩⟩
  have hge := Nat.le_of_not_lt hge
  have hround := PGROUNDUP_eq h.sized.max
  have hcap : ∀ a k', Grown D held root (PTE_R ||| PTE_U ||| xperm) (PGROUNDUP sz) a k k' →
      PGROUNDUP sz ≤ a → a ≤ TRAPFRAME → a < newsz → a < TRAPFRAME := by
    intro a k' hg _ hat _
    have hfew := few_pages hg.space (Nat.div_le_div_right (c := PGSIZE) hat) fun q hq hlt => ?_
    · have hmem : PHYSTOP / PGSIZE < TRAPFRAME / PGSIZE := by decide
      have hdiv := Nat.lt_of_le_of_lt hfew hmem
      exact Nat.lt_of_not_le fun hc => absurd (Nat.div_le_div_right (c := PGSIZE) hc)
        (Nat.not_le_of_lt hdiv)
    · by_cases hlo : pages sz ≤ pageOf q
      · obtain ⟨f, _, hl, _⟩ := hg.new q hq hlo hlt
        rw [hl]
        exact Option.some_ne_none _
      · obtain ⟨w, hw, _⟩ := h.full q hq (Nat.lt_of_not_le hlo)
        rw [hg.old q hq fun hc => hlo hc.1, hw]
        exact Option.some_ne_none w
  refine (uvmallocFrom_space h.space hperm h.sized.below (PGROUNDUP_mod sz) hcap newsz
    (Nat.le_add_left_of_le (Nat.le_mul_of_pos_right newsz (by decide))) (PGROUNDUP_mod sz)
    (Nat.le_refl _) (PGROUNDUP_le h.sized.max) ?_ (Grown.start h.space)).mono fun r k' hr => ?_
  · rw [PGSIZE_eq]
    omega
  · rcases hr with ⟨hr, hu⟩ | ⟨rfl, hnew, hg⟩
    · have hk := hu.kept h.space h.sized
      refine ⟨hk.framed, .inl ⟨hr, hk.space, hk.sized, fun q hq hlt => ?_, hk.framed.low ▸ h.low⟩⟩
      obtain ⟨w, hw, hu'⟩ := h.full q hq hlt
      exact ⟨w, (hu.leaves q hq).trans hw, hu'⟩
    · have hi := hg.image h hx hge hnew
      exact ⟨hg.calm.framed h.space, .inr ⟨(Nat.max_eq_right hge).symm, hi, hg⟩⟩

/-! ## Reading the file -/

theorem Image.addr (h : Image D held root sz k) (hva : va < sz) : k.addrOf root va ≠ 0 := by
  have hmax : va < TRAPFRAME := Nat.lt_of_lt_of_le hva h.sized.max
  have hpage : pageOf (way va) < pages sz := by
    rw [pageOf_way (Nat.lt_trans hmax (by decide))]
    have hround := le_PGROUNDUP h.sized.max
    have hmul := pages_mul sz
    show va / PGSIZE < pages sz
    rw [PGSIZE_eq] at hmul ⊢
    omega
  obtain ⟨w, hw, hu⟩ := h.full (way va) rfl hpage
  obtain ⟨hmine, hnode, _⟩ := user_leaf (p := ⟨sz, root⟩) h.space h.sized rfl hw hu
  unfold Kmem.addrOf
  rw [if_neg (Nat.not_le_of_lt (Nat.lt_trans hmax (by decide))), hw]
  show (if w &&& PTE_U = 0 then 0 else PTE2PA w) ≠ 0
  rw [if_neg hu]
  exact Nat.ne_of_gt (Nat.lt_of_lt_of_le h.low (h.space.ram _ (h.space.of_node hmine hnode)).1)

theorem Image.store (h : Image D held root sz k) (hm : MappedAt root va k pa) (x : Page) :
    Image D held root sz (k.setPage pa x) ∧ Framed D k (k.setPage pa x) := by
  have hk := hm.store h.space h.sized x
  refine ⟨⟨hk.space, hk.sized, fun q hq hlt => ?_, h.low⟩, hk.framed⟩
  obtain ⟨w, hw, hu⟩ := h.full q hq hlt
  exact ⟨w, ((hm.tables h.space x).leaves q hq).trans hw, hu⟩

/-- **`loadseg`** finds every page of the segment. -/
theorem loadsegFrom_image {offset n : Nat} (hle : va + n ≤ sz) : ∀ (m : Nat) {i : Nat} {k : Kmem},
    n - i ≤ m → Image D held root sz k →
    wp (loadsegFrom root va content offset n i)
      (fun _ k' => Image D held root sz k' ∧ Framed D k k')
      NoPanic k := by
  intro m
  induction m with
  | zero =>
    intro i k hm h
    unfold loadsegFrom
    rw [dif_neg (by omega)]
    exact ⟨h, Framed.refl D k⟩
  | succ m ih =>
    intro i k hm h
    unfold loadsegFrom
    by_cases hi : i < n
    swap
    · rw [dif_neg hi]
      exact ⟨h, Framed.refl D k⟩
    rw [dif_pos hi]
    have hne : k.addrOf root (va + i) ≠ 0 := h.addr (by omega)
    refine (walkaddr_wp _ _).andThen fun pa k₁ h₁ => ?_
    obtain ⟨rfl, rfl⟩ := h₁
    rw [wp_ite]
    refine ⟨fun hz => absurd hz hne, fun _ => ?_⟩
    obtain ⟨hi₁, hf₁⟩ :=
      h.store (h.sized.mappedAt hne) (Bytes.blit (k₁.mem (k₁.addrOf root (va + i))) 0
      (readi content ((offset + i) % 2 ^ 32) (if n - i < PGSIZE then n - i else PGSIZE)))
    unfold store
    rw [wp_bind, wp_modify, wp_ite]
    refine ⟨fun _ => ⟨hi₁, hf₁⟩, fun _ => ?_⟩
    exact (ih (by rw [PGSIZE_eq]; omega) hi₁).mono fun _ k₂ h₂ => ⟨h₂.1, hf₁.trans h₂.2⟩

theorem flags2perm_lt (flags : Nat) : flags2perm flags < 1024 := by
  unfold flags2perm
  split <;> split <;> decide

/-- **The loop over the program headers**: by induction on how many are left. -/
theorem loadPhdrs_image : ∀ (n : Nat) {off sz : Nat} {k : Kmem}, Image D held root sz k →
    wp (loadPhdrs root content n off sz)
      (fun r k' => Image D held root r.1 k' ∧ Framed D k k') NoPanic k := by
  intro n
  induction n with
  | zero => intro off sz k h; exact ⟨h, Framed.refl D k⟩
  | succ n ih =>
    intro off sz k h
    unfold loadPhdrs
    simp only [wp_ite]
    generalize readi content (off % 2 ^ 32) proghdrSize = b
    have hstop : Image D held root sz k ∧ Framed D k k := ⟨h, Framed.refl D k⟩
    refine ⟨fun _ => hstop, fun _ => ⟨fun _ => ih h, fun _ => ⟨fun _ => hstop, fun hfile =>
      ⟨fun _ => hstop, fun hwrap => ⟨fun _ => hstop, fun _ => ?_⟩⟩⟩⟩⟩
    refine (uvmalloc_image h (flags2perm_lt _)).andThen fun sz1 k₁ h₁ => ?_
    obtain ⟨hf₁, h₁⟩ := h₁
    rw [wp_ite]
    rcases h₁ with ⟨rfl, hi₁⟩ | ⟨hsz, hi₁, _⟩
    · exact ⟨fun _ => ⟨hi₁, hf₁⟩, fun hne => absurd rfl hne⟩
    refine ⟨fun hz => ⟨?_, hf₁⟩, fun _ => ?_⟩
    · have hsz0 : sz = 0 := by omega
      exact hsz0.trans hz.symm ▸ hi₁
    have hle : (proghdr b).vaddr + (proghdr b).filesz % 2 ^ 32 ≤ sz1 := by
      have hmod := Nat.mod_le (proghdr b).filesz (2 ^ 32)
      have hnowrap : (proghdr b).vaddr + (proghdr b).memsz < 2 ^ 64 := by
        have hv : (proghdr b).vaddr < 256 ^ 8 := Bytes.get_lt _ _ _
        have hm : (proghdr b).memsz < 256 ^ 8 := Bytes.get_lt _ _ _
        omega
      omega
    refine (loadsegFrom_image hle _ (Nat.le_refl _) hi₁).andThen fun ok k₂ h₂ => ?_
    have hf₂ := hf₁.trans h₂.2
    rw [wp_ite]
    exact ⟨fun _ => ⟨h₂.1, hf₂⟩, fun _ => (ih h₂.1).mono fun _ k₃ h₃ => ⟨h₃.1, hf₂.trans h₃.2⟩⟩

end Xv6.Vm
