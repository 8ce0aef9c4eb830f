import Xv6.Vm.CopyOut

/-!
# `copyinstr`

`copyin` and `copyout` fault a page in when they come to one below `p->sz` that is not
mapped. `copyinstr` does not: it looks pages up with `walkaddr` alone.

> `copyinstr` agrees with reading byte by byte through `copyin` if and only if the string
> does not run into a page that has not been touched (`copyinstr_agrees_iff`).

Such a page is all zeros, so that for `copyin` the string would end right there.
-/

namespace Xv6.Vm

open Lib

variable {D : Frame → Prop} {held : List Frame} {root : Frame} {k k' : Kmem}
  {w : Pte} {va max m n : Nat} {p : Me} {get get' : Nat → Option UInt8} {s : List UInt8}

/-! ## Strings -/

/-- What comes of reading bytes at `va` and after it until a NUL: the bytes, the NUL with
them, and whether there was one among the first `n`. -/
def stringAt (get : Nat → Option UInt8) : Nat → Nat → List UInt8 × Bool
  | _, 0 => ([], false)
  | va, n + 1 =>
    match get va with
    | none => ([], false)
    | some c => if c = 0 then ([0], true)
      else (c :: (stringAt get (va + 1) n).1, (stringAt get (va + 1) n).2)

theorem stringAt_none (h : get va = none) : stringAt get va (n + 1) = ([], false) := by
  unfold stringAt
  rw [h]

theorem stringAt_zero (h : get va = some 0) : stringAt get va (n + 1) = ([0], true) := by
  unfold stringAt
  rw [h]
  exact if_pos rfl

theorem stringAt_cons {c : UInt8} (h : get va = some c) (hc : c ≠ 0) : stringAt get va (n + 1) =
    (c :: (stringAt get (va + 1) n).1, (stringAt get (va + 1) n).2) := by
  rw [stringAt, h]
  exact if_neg hc

theorem stringAt_length (get : Nat → Option UInt8) : ∀ n va, (stringAt get va n).1.length ≤ n := by
  intro n
  induction n with
  | zero => intro va; exact Nat.le_refl 0
  | succ n ih =>
    intro va
    cases hg : get va with
    | none =>
      rw [stringAt_none hg]
      exact Nat.zero_le _
    | some c =>
      by_cases hc : c = 0
      · subst hc
        rw [stringAt_zero hg]
        exact Nat.succ_le_succ (Nat.zero_le n)
      · rw [stringAt_cons hg hc]
        exact Nat.succ_le_succ (ih (va + 1))

/-- Reading on after `m` bytes. -/
theorem stringAt_append : ∀ (m : Nat) {va : Nat}, (∀ j < m, (get (va + j)).isSome) →
    stringAt get va (m + n) = if (stringAt get va m).2 = true then ((stringAt get va m).1, true)
      else ((stringAt get va m).1 ++ (stringAt get (va + m) n).1, (stringAt get (va + m) n).2) := by
  intro m
  induction m with
  | zero =>
    intro va _
    rw [Nat.zero_add]
    exact (if_neg Bool.false_ne_true).symm
  | succ m ih =>
    intro va hsome
    obtain ⟨c, hc⟩ := Option.isSome_iff_exists.mp (hsome 0 (Nat.succ_pos m))
    rw [Nat.add_zero] at hc
    rw [Nat.add_right_comm]
    by_cases hz : c = 0
    · subst hz
      rw [stringAt_zero hc, stringAt_zero hc]
      exact (if_pos rfl).symm
    · have hsome' : ∀ j < m, (get (va + 1 + j)).isSome := fun j hj => by
        rw [Nat.add_assoc, Nat.add_comm 1 j]
        exact hsome (j + 1) (Nat.succ_lt_succ hj)
      rw [stringAt_cons hc hz, stringAt_cons hc hz, ih hsome', Nat.add_assoc, Nat.add_comm 1 m]
      split
      next h => rfl
      next h => rfl

/-- The string of `get'` ends where `get` cannot read on, or it is the same. -/
theorem stringAt_agree (hle : ∀ a c, get a = some c → get' a = some c)
    (hz : ∀ a, get a = none → get' a = none ∨ get' a = some 0) : ∀ (n : Nat) {va : Nat},
    ((stringAt get va n).2 = (stringAt get' va n).2 ∧
      ((stringAt get' va n).2 = true → stringAt get va n = stringAt get' va n)) ↔
    ¬∃ j < n, (∀ i < j, ∃ c, c ≠ 0 ∧ get (va + i) = some c) ∧ get (va + j) = none ∧
      get' (va + j) = some 0 := by
  intro n
  induction n with
  | zero =>
    intro va
    exact ⟨fun _ ⟨j, hj, _⟩ => absurd hj (Nat.not_lt_zero j), fun _ => ⟨rfl, fun _ => rfl⟩⟩
  | succ n ih =>
    intro va
    cases hg : get va with
    | none =>
      rcases hz va hg with hn | h0
      · rw [stringAt_none hg, stringAt_none hn]
        refine ⟨fun _ ⟨j, _, hbefore, _, hj⟩ => ?_, fun _ => ⟨rfl, fun _ => rfl⟩⟩
        rcases Nat.eq_zero_or_pos j with rfl | hpos
        · exact absurd (hn.symm.trans hj).symm (Option.some_ne_none 0)
        · obtain ⟨c, _, hc⟩ := hbefore 0 hpos
          exact absurd (hg.symm.trans hc).symm (Option.some_ne_none c)
      · rw [stringAt_none hg, stringAt_zero h0]
        refine ⟨fun h => absurd h.1 Bool.false_ne_true, fun h => absurd ?_ h⟩
        exact ⟨0, Nat.succ_pos n, fun i hi => absurd hi (Nat.not_lt_zero i), hg, h0⟩
    | some c =>
      have hg' := hle va c hg
      by_cases hc : c = 0
      · subst hc
        rw [stringAt_zero hg, stringAt_zero hg']
        refine ⟨fun _ ⟨j, _, hbefore, hj, _⟩ => ?_, fun _ => ⟨rfl, fun _ => rfl⟩⟩
        rcases Nat.eq_zero_or_pos j with rfl | hpos
        · exact absurd (hg.symm.trans hj) (Option.some_ne_none 0)
        · obtain ⟨c, hne, hc⟩ := hbefore 0 hpos
          exact hne (Option.some.inj (hc.symm.trans hg))
      · rw [stringAt_cons hg hc, stringAt_cons hg' hc]
        have hstep : (∃ j < n + 1, (∀ i < j, ∃ c, c ≠ 0 ∧ get (va + i) = some c) ∧
              get (va + j) = none ∧ get' (va + j) = some 0) ↔
            ∃ j < n, (∀ i < j, ∃ c, c ≠ 0 ∧ get (va + 1 + i) = some c) ∧
              get (va + 1 + j) = none ∧ get' (va + 1 + j) = some 0 := by
          have hshift : ∀ i, va + (i + 1) = va + 1 + i := fun i => by omega
          constructor
          · rintro ⟨j, hj, hbefore, hnone, hzero⟩
            cases j with
            | zero => exact absurd (hg.symm.trans hnone) (Option.some_ne_none c)
            | succ j =>
              rw [hshift] at hnone hzero
              exact ⟨j, Nat.lt_of_succ_lt_succ hj,
                fun i hi => hshift i ▸ hbefore (i + 1) (Nat.succ_lt_succ hi), hnone, hzero⟩
          · rintro ⟨j, hj, hbefore, hnone, hzero⟩
            refine ⟨j + 1, Nat.succ_lt_succ hj, fun i hi => ?_, (hshift j).symm ▸ hnone,
              (hshift j).symm ▸ hzero⟩
            cases i with
            | zero => exact ⟨c, hc, hg⟩
            | succ i => exact (hshift i).symm ▸ hbefore i (Nat.lt_of_succ_lt_succ hi)
        rw [hstep, ← ih]
        refine and_congr_right fun hflag => ⟨fun h ht => ?_, fun h ht => ?_⟩
        · have hcons := h ht
          exact Prod.ext (List.cons.inj (Prod.mk.inj hcons).1).2 hflag
        · rw [h ht]

theorem stringAt_snoc : ∀ {n va : Nat}, (stringAt get va n).2 = true →
    ∃ s, (stringAt get va n).1 = s ++ [0] := by
  intro n
  induction n with
  | zero => intro va h; exact absurd h Bool.false_ne_true
  | succ n ih =>
    intro va h
    cases hg : get va with
    | none =>
      rw [stringAt_none hg] at h
      exact absurd h Bool.false_ne_true
    | some c =>
      by_cases hc : c = 0
      · subst hc
        exact ⟨[], by rw [stringAt_zero hg]; rfl⟩
      · rw [stringAt_cons hg hc] at h ⊢
        obtain ⟨s, hs⟩ := ih h
        exact ⟨c :: s, by rw [hs]; rfl⟩

/-! ## What `copyinstr` does -/

/-- What is read at `va` on a page that is mapped. -/
def Kmem.touched (k : Kmem) (p : Me) (va : Nat) : Option UInt8 :=
  if k.leaf p.pagetable (way va) = none then none else k.view p va

theorem touched_of_leaf (hva : va < MAXVA) (hw : k.leaf p.pagetable (way va) = some w)
    (hu : w &&& PTE_U ≠ 0) : k.touched p va = some (k.mem (PTE2PA w) (va % PGSIZE)) := by
  unfold Kmem.touched
  rw [if_neg (by rw [hw]; exact Option.some_ne_none w), view_of_leaf hva hw, if_neg hu]

theorem touched_of_addr (h : Space D held p.pagetable k) (hs : Sized p.pagetable p.sz k)
    (hlow : 0 < k.low) (ha : k.addrOf p.pagetable (PGROUNDDOWN va) = 0) :
    k.touched p va = none := by
  unfold Kmem.touched
  by_cases hva : MAXVA ≤ va
  · rw [view_of_max hva, ite_self]
  have hva := Nat.lt_of_not_le hva
  cases hw : k.leaf p.pagetable (way va) with
  | none => exact if_pos rfl
  | some w =>
    rw [if_neg (Option.some_ne_none w), view_of_leaf hva hw]
    split
    next => rfl
    next hu =>
      -- a page of the process is not the page 0
      rw [addrOf_of_leaf hva hw hu] at ha
      obtain ⟨hmine, hnode, _⟩ := user_leaf h hs rfl hw hu
      have hram := (h.ram _ (h.of_node hmine hnode)).1
      rw [ha] at hram
      exact absurd hlow (Nat.not_lt_of_le hram)

/-- The inner loop reads the string, as far as the page goes. -/
theorem scanPage_eq {page : Page} : ∀ (n : Nat) {off va : Nat},
    (∀ j < n, get (va + j) = some (page (off + j))) → scanPage page off n = stringAt get va n := by
  intro n
  induction n with
  | zero => intro off va _; rfl
  | succ n ih =>
    intro off va h
    have h0 := h 0 (Nat.succ_pos n)
    rw [Nat.add_zero, Nat.add_zero] at h0
    have hrest : scanPage page (off + 1) n = stringAt get (va + 1) n := ih fun j hj => by
      rw [Nat.add_assoc, Nat.add_assoc, Nat.add_comm 1 j]
      exact h (j + 1) (Nat.succ_lt_succ hj)
    unfold scanPage
    split
    next hz =>
      rw [hz] at h0
      exact (stringAt_zero h0).symm
    next hz => rw [stringAt_cons h0 hz, hrest]

/-- **`copyinstr`** reads what is mapped, and faults nothing in. -/
theorem copyinstr_spec (h : Space D held p.pagetable k) (hs : Sized p.pagetable p.sz k)
    (hlow : 0 < k.low) : ∀ (n : Nat) {max va : Nat}, max ≤ n →
    wp (copyinstr p.pagetable va max) (fun r k' => r = stringAt (k.touched p) va max ∧ k' = k)
      NoPanic k := by
  intro n
  induction n with
  | zero =>
    intro max va hn
    obtain rfl := Nat.le_zero.mp hn
    unfold copyinstr
    rw [dif_pos rfl]
    exact ⟨rfl, rfl⟩
  | succ n ih =>
    intro max va hn
    unfold copyinstr
    by_cases hm : max = 0
    · subst hm
      rw [dif_pos rfl]
      exact ⟨rfl, rfl⟩
    rw [dif_neg hm]
    obtain ⟨max', rfl⟩ := Nat.exists_eq_succ_of_ne_zero hm
    refine (walkaddr_wp _ _).andThen fun r k₁ h₁ => ?_
    obtain ⟨rfl, hr⟩ := h₁
    rw [wp_ite]
    refine ⟨fun hz => ?_, fun hne => ?_⟩
    · exact ⟨(stringAt_none (touched_of_addr h hs hlow (hr.symm.trans hz))).symm, rfl⟩
    have hva : va < MAXVA := by
      by_contra hge
      refine hne (hr.trans (if_pos ?_))
      exact Nat.le_of_not_lt fun hc => hge ((PGROUNDDOWN_lt_iff va).mp hc)
    obtain ⟨w, hw, hu, hpa, _⟩ := Opened.leaf (Or.inl ⟨rfl, hr⟩) hne hva
    subst hpa
    rw [wp_bind, wp_get]
    have hchunk := chunk_eq va (max' + 1)
    have hround := PGROUNDDOWN_eq va
    have hPG := PGSIZE_eq
    set m := chunk va (max' + 1) with hmdef
    have hbytes :
      ∀ j < m, k₁.touched p (va + j) = some (k₁.mem (PTE2PA w) (va - PGROUNDDOWN va + j)) := by
      intro j hj
      rw [MAXVA_eq] at hva
      have hlt : va + j < MAXVA := by
        rw [MAXVA_eq]
        omega
      have hway : way (va + j) = way va := by
        rw [← way_round (va + j), ← way_round va, PGROUNDDOWN_eq, PGROUNDDOWN_eq]
        congr 2
        omega
      have hoff : (va + j) % PGSIZE = va - PGROUNDDOWN va + j := by
        rw [hround, PGSIZE_eq]
        omega
      rw [touched_of_leaf hlt (hway ▸ hw) hu, hoff]
    have hscan := scanPage_eq m hbytes
    have happ := stringAt_append (n := max' + 1 - m) m fun j hj =>
      Option.isSome_iff_exists.mpr ⟨_, hbytes j hj⟩
    rw [show m + (max' + 1 - m) = max' + 1 by omega] at happ
    show wp (if (scanPage _ _ _).2 = true then pure ((scanPage _ _ _).1, true) else _) _ _ _
    rw [hscan, wp_ite]
    refine ⟨fun hgot => ?_, fun hgot => ?_⟩
    · exact ⟨by rw [happ, if_pos hgot], rfl⟩
    · refine (ih (by omega)).andThen fun r k₂ h₂ => ?_
      obtain ⟨rfl, rfl⟩ := h₂
      refine ⟨?_, rfl⟩
      rw [happ, if_neg hgot]
      by_cases hlast : max' + 1 - m = 0
      · rw [hlast]
        rfl
      · rw [show PGROUNDDOWN va + PGSIZE = va + m by omega]

/-! ## Byte by byte -/

/-- A string is read by `copyin`, one byte at a time, up to the first NUL in `max`. -/
def readString (p : Me) (pagetable : Frame) : Nat → Nat → Kern (Option (List UInt8))
  | _, 0 => pure none
  | srcva, max + 1 => do
    let (bytes, ok) ← copyin p pagetable srcva 1
    if ok = false then pure none
    else if bytes.headD 0 = 0 then pure (some [])
    else do
      let rest ← readString p pagetable (srcva + 1) max
      pure (rest.map (bytes.headD 0 :: ·))

/-- `kalloc` finds a page `n` times. -/
def Plenty (n : Nat) (k : Kmem) : Prop := (∀ b ∈ k.oom, b = false) ∧ n ≤ k.freelist.length

/-- Whatever the reason to stop. -/
def Whatever : Panic → Kmem → Prop := fun _ _ => True

theorem kalloc_plenty (hk : Plenty (n + 1) k) :
    wp kalloc (fun r k' => ∃ f, r = some f ∧ f ∈ k.freelist ∧ Plenty n k') Whatever k := by
  have hoom : k.oom.headD false ≠ true := by
    cases ho : k.oom with
    | nil => exact Bool.false_ne_true
    | cons b rest =>
      have hb := hk.1 b (by rw [ho]; exact List.mem_cons_self)
      subst hb
      exact Bool.false_ne_true
  unfold kalloc memset
  rw [wp_bind, wp_get, wp_bind, wp_modify, wp_ite]
  refine ⟨fun hc => absurd hc hoom, fun _ => ?_⟩
  cases hl : k.freelist with
  | nil =>
    have hlen := hk.2
    rw [hl] at hlen
    exact absurd hlen (Nat.not_succ_le_zero n)
  | cons f rest =>
    simp only [wp_bind, wp_modify, wp_pure]
    refine ⟨f, rfl, List.mem_cons_self, fun b hb => hk.1 b (List.mem_of_mem_tail hb), ?_⟩
    have hlen := hk.2
    rw [hl] at hlen
    exact Nat.le_of_succ_le_succ hlen

theorem walkFrom_plenty : ∀ (level : Nat) {t : Frame} {k : Kmem}, Plenty (level + n) k →
    wp (walkFrom va true level t) (fun r k' => r ≠ none ∧ Plenty n k') Whatever k := by
  intro level
  induction level with
  | zero =>
    intro t k hk
    rw [Nat.zero_add] at hk
    exact ⟨Option.some_ne_none _, hk⟩
  | succ level ih =>
    intro t k hk
    rw [Nat.add_right_comm] at hk
    unfold walkFrom
    rw [wp_bind, wp_get, wp_ite]
    refine ⟨fun _ => ih ⟨hk.1, Nat.le_of_succ_le hk.2⟩, fun _ => ?_⟩
    rw [wp_ite]
    refine ⟨fun hc => absurd hc Bool.noConfusion, fun _ => ?_⟩
    refine (kalloc_plenty hk).andThen fun r k₁ h₁ => ?_
    obtain ⟨f, rfl, _, hk₁⟩ := h₁
    show wp (memset f 0 >>= fun _ => _) _ _ _
    unfold memset
    rw [wp_bind, wp_modify, wp_bind, wp_modify]
    exact ih hk₁

theorem mappages_plenty {pa : Frame} {perm : Nat} (hk : Plenty 2 k) :
    wp (mappages root va PGSIZE pa perm) (fun ok _ => ok = true) Whatever k := by
  unfold mappages
  rw [wp_ite]
  refine ⟨fun _ => trivial, fun _ => ?_⟩
  rw [if_neg (by decide), if_neg (by decide)]
  show wp (mappagesFrom root perm 0 va pa) _ _ _
  unfold mappagesFrom walk
  have hwalk : wp (if MAXVA ≤ va then stop .walk else walkFrom va true 2 root)
      (fun r _ => r ≠ none) Whatever k := by
    rw [wp_ite]
    exact ⟨fun _ => trivial, fun _ => (walkFrom_plenty (n := 0) 2 hk).mono fun _ _ h => h.1⟩
  refine hwalk.andThen fun r k₁ hr => ?_
  cases r with
  | none => exact absurd rfl hr
  | some ti =>
    obtain ⟨t, i⟩ := ti
    show wp (get >>= fun k => _) _ _ _
    rw [wp_bind, wp_get, wp_ite]
    exact ⟨fun _ => trivial, fun _ => rfl⟩

/-- A page below `p->sz` that is not mapped can be had. -/
theorem userPage_plenty (hk : Plenty 3 k) (hfree : ∀ f ∈ k.freelist, f ≠ 0) (hva : va < MAXVA)
    (hno : k.leaf p.pagetable (way va) = none) (hlt : PGROUNDDOWN va < p.sz) :
    wp (userPage p p.pagetable (PGROUNDDOWN va)) (fun r _ => r ≠ 0) Whatever k := by
  have hmax := (PGROUNDDOWN_lt_iff va).mpr hva
  have hno' : k.leaf p.pagetable (way (PGROUNDDOWN va)) = none := by
    rw [way_round]
    exact hno
  have hround : PGROUNDDOWN (PGROUNDDOWN va) = PGROUNDDOWN va :=
    PGROUNDDOWN_of_mod (PGROUNDDOWN_mod va)
  have hany : ∀ {e : Panic} {k' : Kmem}, NoPanic e k' → Whatever e k' := fun _ => trivial
  unfold userPage
  refine ((walkaddr_wp _ _).monoStop fun _ _ => hany).andThen fun r k₁ h₁ => ?_
  obtain ⟨rfl, hr⟩ := h₁
  have haddr : k₁.addrOf p.pagetable (PGROUNDDOWN va) = 0 := by
    unfold Kmem.addrOf
    rw [if_neg (Nat.not_le_of_lt hmax), hno']
  rw [wp_ite, hr]
  refine ⟨fun _ => ?_, fun hc => absurd haddr hc⟩
  unfold vmfault
  rw [wp_ite, hround]
  refine ⟨fun hc => absurd hlt (Nat.not_lt_of_le hc), fun _ => ?_⟩
  refine ((ismapped_wp hmax).monoStop fun _ _ => hany).andThen fun m k₂ h₂ => ?_
  obtain ⟨rfl, hm⟩ := h₂
  rw [wp_ite, hm.mpr hno']
  refine ⟨fun hc => absurd hc Bool.false_ne_true, fun _ => ?_⟩
  unfold faultIn
  refine (kalloc_plenty hk).andThen fun r k₃ h₃ => ?_
  obtain ⟨f, rfl, hf, hk₃⟩ := h₃
  show wp (memset f 0 >>= fun _ => _) _ _ _
  unfold memset
  rw [wp_bind, wp_modify]
  have hk₄ : Plenty 2 (k₃.setPage f fun _ => 0) := ⟨hk₃.1, hk₃.2⟩
  refine (mappages_plenty hk₄).andThen fun ok k₅ hok => ?_
  rw [wp_ite]
  exact ⟨fun hc => absurd (hc.symm.trans hok) Bool.false_ne_true, fun _ => hfree f hf⟩

theorem copyin_zero (p : Me) (root va : Nat) : copyin p root va 0 = pure ([], true) := by
  unfold copyin
  exact dif_pos rfl

/-- **One byte by `copyin`**: what the user reads there, if anything. -/
theorem copyin_one (h : Space D held p.pagetable k) (hs : Sized p.pagetable p.sz k)
    (hlow : 0 < k.low) (hk : Plenty 3 k) :
    wp (copyin p p.pagetable va 1) (fun r k' => match k.view p va with
      | none => r.2 = false
      | some c => r = ([c], true) ∧ (k.touched p va ≠ none → k' = k)) NoPanic k := by
  have hframe : ∀ f, D f → f ≠ 0 := fun f hf he => by
    have hram := (h.ram f hf).1
    rw [he] at hram
    exact absurd hlow (Nat.not_lt_of_le hram)
  by_cases htouch : k.touched p va = none
  swap
  · -- a page that is mapped
    have hleaf : k.leaf p.pagetable (way va) ≠ none := fun hc => htouch (if_pos hc)
    have htv : k.touched p va = k.view p va := if_neg hleaf
    have hva : va < MAXVA := by
      by_contra hge
      exact htouch (htv.trans (view_of_max (Nat.le_of_not_lt hge)))
    obtain ⟨w, hw⟩ := Option.ne_none_iff_exists'.mp hleaf
    have hu : w &&& PTE_U ≠ 0 := fun hc => by
      rw [htv, view_of_leaf hva hw, if_pos hc] at htouch
      exact htouch rfl
    obtain ⟨hmine, hnode, _⟩ := user_leaf h hs rfl hw hu
    refine (copyin_mapped 1 (Nat.le_refl 1) fun j hj => ?_).mono fun r k' hr => ?_
    · obtain rfl := Nat.lt_one_iff.mp hj
      exact ⟨hva, w, hw, hu, hframe _ (h.of_node hmine hnode)⟩
    · obtain ⟨rfl, rfl⟩ := hr
      have hv : k'.view p va = some (k'.mem (PTE2PA w) (va % PGSIZE)) := by
        rw [view_of_leaf hva hw, if_neg hu]
      rw [hv]
      refine ⟨?_, fun _ => rfl⟩
      show ([(k'.view p (va + 0)).getD 0], true) = _
      rw [Nat.add_zero, hv]
      rfl
  unfold copyin
  rw [dif_neg Nat.one_ne_zero]
  cases hv : k.view p va with
  | none =>
    -- there is no page to be had
    refine (userPage_grew h hs).andThen fun r k₁ h₁ => ?_
    rw [wp_ite]
    refine ⟨fun _ => rfl, fun hne => absurd hv ?_⟩
    have hva : va < MAXVA := by
      by_contra hge
      have hge := Nat.le_of_not_lt fun hc => hge ((PGROUNDDOWN_lt_iff va).mp hc)
      rcases h₁.2.2 hne with ⟨_, ha⟩ | hf
      · exact hne (ha.trans (if_pos hge))
      · have hlt := hf.lt
        rw [PGROUNDDOWN_of_mod (PGROUNDDOWN_mod va)] at hlt
        have hmax : TRAPFRAME < MAXVA := by decide
        have := hs.max
        omega
    obtain ⟨w, _, hu, _, hwas⟩ := (h₁.2.2 hne).leaf hne hva
    rcases hwas with hw | ⟨hno, hlt⟩
    · rw [view_of_leaf hva hw, if_neg hu]
      exact Option.some_ne_none _
    · rw [view_of_none hva hno, if_pos hlt]
      exact Option.some_ne_none _
  | some c =>
    have hno : k.leaf p.pagetable (way va) = none := by
      by_contra hne
      unfold Kmem.touched at htouch
      rw [if_neg hne, hv] at htouch
      exact Option.some_ne_none c htouch
    have hva : va < MAXVA := by
      by_contra hge
      rw [view_of_max (Nat.le_of_not_lt hge)] at hv
      exact Option.some_ne_none c hv.symm
    have hlt : PGROUNDDOWN va < p.sz := by
      by_contra hge
      rw [view_of_none hva hno, if_neg hge] at hv
      exact Option.some_ne_none c hv.symm
    have hopen := (@userPage_grew _ _ _ (PGROUNDDOWN va) _ h hs).and
      (userPage_plenty hk (fun f hf => hframe f (h.of_free hf)) hva hno hlt)
    refine (hopen.monoStop fun _ _ he => he.1).andThen fun r k₁ h₁ => ?_
    obtain ⟨⟨hg, _, hopened⟩, hne⟩ := h₁
    obtain ⟨w, hw, hu, hpa, _⟩ := (hopened hne).leaf hne hva
    subst hpa
    rw [wp_ite]
    refine ⟨fun hc => absurd hc hne, fun _ => ?_⟩
    rw [wp_bind, wp_get]
    have hchunk : chunk va 1 = 1 := by
      rw [chunk_eq]
      omega
    have hoff : va - PGROUNDDOWN va = va % 4096 := by
      rw [PGROUNDDOWN_eq]
      omega
    rw [hchunk, hoff]
    show wp (copyin p p.pagetable _ 0 >>= fun r => pure
      (k₁.read (PTE2PA w) (va % 4096) 1 ++ r.1, r.2))
      _ _ _
    rw [copyin_zero, wp_bind, wp_pure, wp_pure]
    refine ⟨?_, fun hc => absurd htouch hc⟩
    rw [read_bytes hva hw hu (by omega)]
    show ([(k₁.view p (va + 0)).getD 0] ++ [], true) = _
    rw [Nat.add_zero, hg.view h hs, hv]
    rfl

/-- What `readString` returns when the bytes read are those of a string. -/
def stringOf (r : List UInt8 × Bool) : Option (List UInt8) :=
  if r.2 = true then some r.1.dropLast else none

theorem stringOf_zero : stringOf ([0], true) = some [] := rfl

theorem stringOf_cons {c : UInt8} : stringOf (c :: (stringAt get va n).1, (stringAt get va n).2) =
    (stringOf (stringAt get va n)).map (c :: ·) := by
  unfold stringOf
  by_cases h : (stringAt get va n).2 = true
  · obtain ⟨s, hs⟩ := stringAt_snoc h
    rw [if_pos h, if_pos h, hs, ← List.cons_append, List.dropLast_concat, List.dropLast_concat]
    rfl
  · rw [if_neg h, if_neg h]
    rfl

/-- **Byte by byte** the string is what the user would read. -/
theorem readString_spec (hlow : 0 < k.low) (hk : Plenty 3 k) (h : Space D held p.pagetable k)
    (hs : Sized p.pagetable p.sz k) : ∀ (max : Nat) {va : Nat},
    wp (readString p p.pagetable va max) (fun r _ => r = stringOf (stringAt (k.view p) va max))
      NoPanic k := by
  intro max
  induction max with
  | zero => intro va; rfl
  | succ max ih =>
    intro va
    unfold readString
    refine (@copyin_one _ _ _ va _ h hs hlow hk).andThen fun r k₁ h₁ => ?_
    obtain ⟨bytes, ok⟩ := r
    show wp (if ok = false then _ else _) _ _ _
    cases hv : k.view p va with
    | none =>
      rw [hv] at h₁
      rw [wp_ite, stringAt_none hv]
      exact ⟨fun _ => rfl, fun hc => absurd h₁ hc⟩
    | some c =>
      rw [hv] at h₁
      obtain ⟨hr, hsame⟩ := h₁
      obtain ⟨rfl, rfl⟩ := Prod.mk.inj hr
      rw [wp_ite, wp_ite]
      refine ⟨fun hc => absurd hc.symm Bool.false_ne_true, fun _ => ⟨fun hz => ?_, fun hz => ?_⟩⟩
      · obtain rfl : c = 0 := hz
        rw [stringAt_zero hv, stringOf_zero]
        rfl
      · -- the page was mapped, since a new one is all zeros
        have htouch : k.touched p va ≠ none := by
          intro hno
          unfold Kmem.touched at hno
          split at hno
          next hleaf =>
            have hva : va < MAXVA := by
              by_contra hge
              rw [view_of_max (Nat.le_of_not_lt hge)] at hv
              exact Option.some_ne_none c hv.symm
            rw [view_of_none hva hleaf] at hv
            split at hv
            next => exact hz (Option.some.inj hv).symm
            next => exact Option.some_ne_none c hv.symm
          next => exact Option.some_ne_none c (hv.symm.trans hno)
        obtain rfl := hsame htouch
        refine (@ih (va + 1)).andThen fun rest k₂ hrest => ?_
        rw [hrest, stringAt_cons hv hz]
        exact stringOf_cons.symm

/-! ## The result -/

/-- `copyinstr` stores the string and a NUL, and returns 0, exactly when the string can be
read byte by byte; else it returns -1. It stores at most `max` bytes. -/
def Agrees (p : Me) (k : Kmem) (srcva max : Nat) : Prop :=
  ∃ r o, (exec (copyinstr p.pagetable srcva max) k).1 = .ok r ∧
    (exec (readString p p.pagetable srcva max) k).1 = .ok o ∧
    (∀ s, r = (s ++ [0], true) ↔ o = some s) ∧ (o = none → r.2 = false) ∧ r.1.length ≤ max

/-- The string at `srcva` runs into a page below `p->sz` that has not been touched. -/
def RunsInto (p : Me) (k : Kmem) (srcva max : Nat) : Prop :=
  ∃ j < max, (∀ i < j, ∃ c, c ≠ 0 ∧ k.touched p (srcva + i) = some c) ∧
    k.touched p (srcva + j) = none ∧ k.view p (srcva + j) = some 0

theorem agrees_iff {r r' : List UInt8 × Bool} (hr' : r' = stringAt get va n) :
    ((∀ s, r = (s ++ [0], true) ↔ stringOf r' = some s) ∧ (stringOf r' = none → r.2 = false)) ↔
      (r.2 = r'.2 ∧ (r'.2 = true → r = r')) := by
  have hsnoc : r'.2 = true → ∃ s, r' = (s ++ [0], true) ∧ stringOf r' = some s := fun h => by
    subst hr'
    obtain ⟨s, hs⟩ := stringAt_snoc h
    refine ⟨s, Prod.ext hs h, ?_⟩
    unfold stringOf
    rw [if_pos h, hs, List.dropLast_concat]
  have hnone : r'.2 = false → stringOf r' = none := fun h => by
    unfold stringOf
    rw [h]
    rfl
  cases hb : r'.2 with
  | false =>
    rw [hnone hb]
    refine ⟨fun h => ⟨h.2 rfl, fun hc => absurd hc Bool.false_ne_true⟩,
      fun h => ⟨fun s => ⟨fun hc => ?_, fun hc => absurd hc.symm (Option.some_ne_none s)⟩,
        fun _ => h.1⟩⟩
    have hflag := h.1
    rw [hc] at hflag
    exact absurd hflag.symm Bool.false_ne_true
  | true =>
    obtain ⟨s, hs, hos⟩ := hsnoc hb
    rw [hos]
    refine ⟨fun h => ?_, fun h => ⟨fun s' => ?_, fun hc => absurd hc (Option.some_ne_none s)⟩⟩
    · have hrs := (h.1 s).mpr rfl
      exact ⟨by rw [hrs], fun _ => hrs.trans hs.symm⟩
    · rw [h.2 rfl, hs]
      refine ⟨fun hc => ?_, fun hc => by rw [Option.some.inj hc]⟩
      rw [List.append_cancel_right (Prod.mk.inj hc).1]

/-- **`copyinstr` agrees with `copyin`** if and only if the string does not run into a page
that has not been touched. -/
theorem copyinstr_agrees_iff (h : Space D held p.pagetable k) (hs : Sized p.pagetable p.sz k)
    (hlow : 0 < k.low) (hk : Plenty 3 k) (srcva max : Nat) :
    Agrees p k srcva max ↔ ¬RunsInto p k srcva max := by
  have hcopy := @copyinstr_spec _ _ _ _ h hs hlow max max srcva (Nat.le_refl max)
  have hread := @readString_spec _ _ _ _ hlow hk h hs max srcva
  have hle : ∀ a c, k.touched p a = some c → k.view p a = some c := fun a c hc => by
    unfold Kmem.touched at hc
    split at hc
    next => exact absurd hc.symm (Option.some_ne_none c)
    next => exact hc
  have hz : ∀ a, k.touched p a = none → k.view p a = none ∨ k.view p a = some 0 := fun a ha => by
    unfold Kmem.touched at ha
    split at ha
    next hno =>
      by_cases hmax : MAXVA ≤ a
      · exact Or.inl (view_of_max hmax)
      · rw [view_of_none (Nat.lt_of_not_le hmax) hno]
        split
        next => exact Or.inr rfl
        next => exact Or.inl rfl
    next => exact Or.inl ha
  have hiff := (@agrees_iff srcva max (k.view p) (stringAt (k.touched p) srcva max) _ rfl).trans
    (stringAt_agree hle hz max)
  unfold wp at hcopy hread
  unfold Agrees RunsInto
  rw [← hiff]
  cases hx : exec (copyinstr p.pagetable srcva max) k with
  | mk r k₁ =>
    cases hy : exec (readString p p.pagetable srcva max) k with
    | mk o k₂ =>
      rw [hx] at hcopy
      rw [hy] at hread
      cases r with
      | error e => exact hcopy.elim
      | ok r =>
        cases o with
        | error e => exact hread.elim
        | ok o =>
          obtain rfl := hcopy.1
          obtain rfl := hread
          constructor
          · rintro ⟨r', o', hr, ho, h₁, h₂, _⟩
            obtain rfl := Except.ok.inj hr
            obtain rfl := Except.ok.inj ho
            exact ⟨h₁, h₂⟩
          · rintro ⟨h₁, h₂⟩
            exact ⟨_, _, rfl, rfl, h₁, h₂, stringAt_length _ max srcva⟩

/-- The process has stored a string in its second page. -/
def spoken : Kmem := (exec (copyout idle 524288 4096 [104, 105, 0]) roomy).2

theorem spoken_kept : Kept (· ∈ 524288 :: roomy.freelist) [] 524288 8192 roomy spoken := by
  obtain ⟨b, k', hx, hkept⟩ := (@copyout_kept _ _ idle 3 [104, 105, 0] 4096 roomy (Nat.le_refl 3)
    roomy_space roomy_sized).returns fun _ _ he => he
  have hk : spoken = k' := congrArg Prod.snd hx
  exact hk ▸ hkept

/-- The characters of the string are there, and those before it are not. -/
theorem spoken_touched : spoken.touched idle 4096 = some 104 ∧ spoken.touched idle 4097 = some 105 ∧
    spoken.touched idle 4098 = some 0 ∧ spoken.touched idle 0 = none ∧
    spoken.view idle 0 = some 0 := by
  decide +kernel

theorem spoken_plenty : 0 < spoken.low ∧ Plenty 3 spoken := by
  unfold Plenty
  decide +kernel

/-- The string is found by both; below it, in a page that was not touched, `copyin` alone finds
the empty one. -/
theorem copyinstr_agrees_iff_spoken : Agrees idle spoken 4096 3 ∧ ¬Agrees idle spoken 0 1 := by
  obtain ⟨h, i, z, hnone, hzero⟩ := spoken_touched
  have hiff := fun srcva max => @copyinstr_agrees_iff _ _ spoken idle spoken_kept.space
    spoken_kept.sized spoken_plenty.1 spoken_plenty.2 srcva max
  refine ⟨(hiff 4096 3).mpr ?_, fun ha => (hiff 0 1).mp ha ?_⟩
  · rintro ⟨j, hj, -, hno, -⟩
    obtain rfl | rfl | rfl : j = 0 ∨ j = 1 ∨ j = 2 := by omega
    · exact Option.some_ne_none 104 (h.symm.trans hno)
    · exact Option.some_ne_none 105 (i.symm.trans hno)
    · exact Option.some_ne_none 0 (z.symm.trans hno)
  · exact ⟨0, Nat.one_pos, fun j hj => absurd hj (Nat.not_lt_zero j), hnone, hzero⟩

theorem untouched_strings :
    (exec (copyinstr 524288 0 1) untouched).1.toOption = some ([], false) ∧
    (exec (readString idle 524288 0 1) untouched).1.toOption = some (some []) := by
  decide +kernel

/-- The empty string at 0, for a process of 8192 bytes that has touched none of them. -/
theorem copyinstr_untouched : ¬Agrees idle untouched 0 1 := by
  rintro ⟨r, o, hr, ho, hstore, _⟩
  obtain ⟨hcopy, hread⟩ := untouched_strings
  have hr' : (exec (copyinstr 524288 0 1) untouched).1 = .ok r := hr
  have ho' : (exec (readString idle 524288 0 1) untouched).1 = .ok o := ho
  rw [hr'] at hcopy
  rw [ho'] at hread
  obtain rfl := Option.some.inj hcopy
  obtain rfl := Option.some.inj hread
  have hbad := (hstore []).mpr rfl
  exact absurd (Prod.mk.inj hbad).2 Bool.false_ne_true

end Xv6.Vm
