import Xv6.Files.Writei

/-!
# Giving the blocks of a file back

`itrunc` frees the blocks one by one. `Freed` says which slots have given theirs back:
the owners are the old ones without those (`without`), and nothing but the bitmap was
touched.

  > `itrunc_wp`: afterwards no slot of the inode has a block, every other slot has the
  > one it had, and of the blocks only the bitmap and the block with the inode differ.

The entries of the block for addresses are read before they are freed and never cleared, so
that for a while they name blocks that are free: the slots are counted as freed, whatever
the bytes say, and the block itself goes last.
-/

namespace Xv6.Files

open Lib
open Mkfs (Block Dinode Superblock nonzero nonzero_eq BSIZE NDIRECT NINDIRECT MAXFILE)

variable {sb : Superblock} {pick : Nat → Option Nat} {s s' s'' s₁ : Fs} {ip : Nat}
  {own : Nat × Mkfs.Slot → Option Nat} {S : List Mkfs.Slot} {E : Panic → Fs → Prop}

/-- The owners, but for the slots `S` of inode `ip`. -/
def without (own : Nat × Mkfs.Slot → Option Nat) (ip : Nat) (S : List Mkfs.Slot) :
    Nat × Mkfs.Slot → Option Nat := fun q => if q.1 = ip ∧ q.2 ∈ S then none else own q

theorem without_nil : without own ip [] = own := by
  funext q
  exact if_neg fun h => List.not_mem_nil h.2

theorem without_cons (σ : Mkfs.Slot) :
    without own ip (σ :: S) = Function.update (without own ip S) (ip, σ) none := by
  funext q
  by_cases hq : q = (ip, σ)
  · rw [hq, Function.update_self]
    exact if_pos ⟨rfl, List.mem_cons_self⟩
  · rw [Function.update_of_ne hq]
    unfold without
    refine if_congr (and_congr_right fun hi => ?_) rfl rfl
    rw [List.mem_cons]
    exact or_iff_right fun hσ => hq (Prod.ext hi hσ)

theorem without_of_notMem {i : Nat} {σ : Mkfs.Slot} (h : σ ∉ S) :
    without own ip S (i, σ) = own (i, σ) :=
  if_neg fun hc => h hc.2

/-- A slot that has no block has given it back. -/
theorem without_skip {σ : Mkfs.Slot} (h : own (ip, σ) = none) :
    without own ip (σ :: S) = without own ip S := by
  rw [without_cons, Function.update_eq_self_iff]
  unfold without
  split
  next => rfl
  next => exact h.symm

/-- From `s` to `s'` the slots `S` of inode `ip` have given their blocks back. -/
structure Freed (sb : Superblock) (own : Nat × Mkfs.Slot → Option Nat) (s s' : Fs) (ip : Nat)
    (S : List Mkfs.Slot) : Prop where
  coherent : Coherent s'
  owned : Owned sb s'.view (without own ip S)
  blocks : ∀ c, ¬Bitmap sb c → s'.view c = s.view c
  memory : ∀ j, j ≠ ip → s'.ino j = s.ino j
  same : s'.ino ip = { s.ino ip with addrs := (s'.ino ip).addrs }
  disk : s'.disk = s.disk
  valid : s'.valid = s.valid
  ref : s'.ref = s.ref
  op : ∀ b, b ∈ s'.op ↔ b ∈ s.op ∨ ∃ σ a, σ ∈ S ∧ own (ip, σ) = some a ∧ b = BBLOCK sb a

theorem Freed.refl (hc : Coherent s) (ho : Owned sb s.view own) : Freed sb own s s ip [] where
  coherent := hc
  owned := by rw [without_nil]; exact ho
  blocks _ _ := rfl
  memory _ _ := rfl
  same := rfl
  disk := rfl
  valid := rfl
  ref := rfl
  op _ := ⟨.inl, fun h => h.elim id fun ⟨_, _, hσ, _⟩ => absurd hσ List.not_mem_nil⟩

theorem Freed.skip (h : Freed sb own s s' ip S) {σ : Mkfs.Slot} (hσ : own (ip, σ) = none) :
    Freed sb own s s' ip (σ :: S) :=
  { h with
    owned := by rw [without_skip hσ]; exact h.owned
    op := by
      intro b
      rw [h.op]
      refine or_congr_right ⟨?_, ?_⟩
      · rintro ⟨τ, a, hτ, ha⟩
        exact ⟨τ, a, List.mem_cons_of_mem σ hτ, ha⟩
      · rintro ⟨τ, a, hτ, ha, hb⟩
        rcases List.mem_cons.mp hτ with rfl | hτ
        · rw [hσ] at ha
          cases ha
        · exact ⟨τ, a, hτ, ha, hb⟩ }

/-- What only looks, or changes addresses of `ip`. -/
theorem Freed.look (h : Freed sb own s s' ip S) {I : Nat → Dinode} (hw : Wrote s' s'' s'.view I [])
    (hi : ∀ j, j ≠ ip → I j = s'.ino j) (hs : I ip = { s'.ino ip with addrs := (I ip).addrs }) :
    Freed sb own s s'' ip S where
  coherent := hw.coherent
  owned := by rw [hw.view]; exact h.owned
  blocks c hc := by rw [hw.view]; exact h.blocks c hc
  memory j hj := by rw [hw.ino, hi j hj]; exact h.memory j hj
  same := by rw [hw.ino, hs, h.same]
  disk := hw.disk.trans h.disk
  valid := hw.valid.trans h.valid
  ref := hw.ref.trans h.ref
  op b := (hw.op b).trans ((or_iff_left List.not_mem_nil).trans (h.op b))

/-- **One block is freed**: the panic of `bfree` is out of reach, as the block has an owner. -/
theorem Freed.bfree (h : Freed sb own s s' ip S) {σ : Mkfs.Slot} {a : Nat} (hσ : σ ∉ S)
    (ha : own (ip, σ) = some a) (hh : BBLOCK sb a ∉ s'.held) :
    wp (bfree sb pick a) (fun _ s'' => Freed sb own s s'' ip (σ :: S) ∧ s''.held = s'.held ∧
      s''.ino = s'.ino) E s' := by
  have hown : without own ip S (ip, σ) = some a := (without_of_notMem hσ).trans ha
  have hbit : Bitmap sb (BBLOCK sb a) := ⟨a, (h.owned.data hown).2, rfl⟩
  refine bfree_wp h.coherent hh (h.owned.used hown) fun s₁ hw hheld => ⟨?_, hheld, hw.ino⟩
  refine ⟨hw.coherent, ?_, fun c hc => ?_, fun j hj => ?_, ?_, hw.disk.trans h.disk,
    hw.valid.trans h.valid, hw.ref.trans h.ref, fun b => ?_⟩
  · rw [hw.view, without_cons]
    exact h.owned.give hown
  · rw [hw.view, ← h.blocks c hc]
    exact Function.update_of_ne (fun (he : c = BBLOCK sb a) => hc (he ▸ hbit)) _ _
  · rw [hw.ino]
    exact h.memory j hj
  · rw [hw.ino]
    exact h.same
  · rw [hw.op, h.op, List.mem_singleton]
    constructor
    · rintro ((hb | ⟨τ, c, hτ, hc⟩) | rfl)
      · exact .inl hb
      · exact .inr ⟨τ, c, List.mem_cons_of_mem σ hτ, hc⟩
      · exact .inr ⟨σ, a, List.mem_cons_self, ha, rfl⟩
    · rintro (hb | ⟨τ, c, hτ, hc, hb⟩)
      · exact .inl (.inl hb)
      · rcases List.mem_cons.mp hτ with rfl | hτ
        · rw [ha] at hc
          exact .inr (hb.trans (by rw [Option.some.inj hc]))
        · exact .inl (.inr ⟨τ, c, hτ, hc, hb⟩)

/-! ## The loops -/

theorem nonzero_eq_none {a : Nat} (h : a = 0) : nonzero a = none := if_pos h

/-- The slots that a loop has not come to, when it has freed the first. -/
theorem left_of_freed {f : Nat → Mkfs.Slot} {i : Nat} {is : List Nat} (hi : i ∉ is)
    (hf : ∀ k, k ∈ is → f k = f i → k = i) (hS : ∀ k, k ∈ is → f k ∉ S) :
    ∀ k, k ∈ is → f k ∉ f i :: S := by
  intro k hk hc
  rcases List.mem_cons.mp hc with hc | hc
  · exact hi (hf k hk hc ▸ hk)
  · exact hS k hk hc

theorem freed_cons (f : Nat → Mkfs.Slot) (i : Nat) (is : List Nat) (S : List Mkfs.Slot) :
    (is.map f).reverse ++ f i :: S = ((i :: is).map f).reverse ++ S := by
  rw [List.map_cons, List.reverse_cons, List.append_assoc, List.singleton_append]

/-- **The loop over `ip->addrs`.** -/
theorem freeDirect_wp : ∀ (is : List Nat) (S : List Mkfs.Slot) (s' : Fs), is.Nodup →
    (∀ i, i ∈ is → i < NDIRECT) → Freed sb own s s' ip S → s'.held = [] →
    (∀ i, i ∈ is → slotOf i ∉ S ∧ own (ip, slotOf i) = nonzero ((s'.ino ip).addrs i)) →
    wp (freeDirect sb pick ip is)
      (fun _ s'' => Freed sb own s s'' ip ((is.map slotOf).reverse ++ S) ∧
      s''.held = [] ∧ (∀ i, i ∈ is → (s''.ino ip).addrs i = 0) ∧
      ∀ i, i ∉ is → (s''.ino ip).addrs i = (s'.ino ip).addrs i) E s' := by
  have hM : NDIRECT < MAXFILE := by decide
  intro is
  induction is with
  | nil =>
    intro S s' _ _ h hh _
    exact ⟨h, hh, fun i hi => absurd hi List.not_mem_nil, fun _ _ => rfl⟩
  | cons i is ih =>
    intro S s' hnd hlt h hh hown
    obtain ⟨hi, hnd⟩ := List.nodup_cons.mp hnd
    obtain ⟨hσ, ha⟩ := hown i List.mem_cons_self
    have hid : i < NDIRECT := hlt i List.mem_cons_self
    have hlt' : ∀ k, k ∈ is → k < NDIRECT := fun k hk => hlt k (List.mem_cons_of_mem i hk)
    have hS : ∀ k, k ∈ is → slotOf k ∉ slotOf i :: S :=
      left_of_freed hi (fun k hk he => slotOf_inj (by have := hlt' k hk; omega) (by omega) he)
        fun k hk => (hown k (List.mem_cons_of_mem i hk)).1
    have hlist := freed_cons slotOf i is S
    unfold freeDirect
    rw [wp_bind, wp_get, wp_ite]
    refine ⟨fun h0 => ?_, fun h0 => ?_⟩
    · -- no block
      rw [nonzero_eq_none h0] at ha
      refine (ih (slotOf i :: S) s' hnd hlt' (h.skip ha) hh
        fun k hk => ⟨hS k hk, (hown k (List.mem_cons_of_mem i hk)).2⟩).mono fun _ s'' hr => ?_
      obtain ⟨hf, hh', hz, hk⟩ := hr
      refine ⟨hlist ▸ hf, hh', fun k hkm => ?_,
        fun k hkn => hk k fun hc => hkn (List.mem_cons_of_mem i hc)⟩
      rcases List.mem_cons.mp hkm with rfl | hkm
      · rw [hk k hi, h0]
      · exact hz k hkm
    · -- the block is freed, and the address set to 0
      rw [nonzero_eq h0] at ha
      refine (h.bfree hσ ha (by rw [hh]; exact List.not_mem_nil)).andThen fun _ s₁ hr => ?_
      obtain ⟨hf₁, hh₁, hi₁⟩ := hr
      rw [hh] at hh₁
      rw [wp_bind]
      have hw := Wrote.setInode hf₁.coherent ip (setAddr i 0 (s₁.ino ip))
      have hf₂ := hf₁.look hw (fun j hj => Function.update_of_ne hj _ _)
        (by rw [Function.update_self]; rfl)
      generalize hs₂ :
        ({ s₁ with ino := Function.update s₁.ino ip (setAddr i 0 (s₁.ino ip)) } : Fs) = s₂ at hf₂
      have haddr : ∀ k, (s₂.ino ip).addrs k = if k = i then 0 else (s'.ino ip).addrs k := by
        intro k
        rw [← hs₂, ← hi₁]
        show (Function.update s₁.ino ip (setAddr i 0 (s₁.ino ip)) ip).addrs k = _
        rw [Function.update_self]
        exact Function.update_apply _ _ _ _
      have hh₂ : s₂.held = [] := by rw [← hs₂]; exact hh₁
      show wp (freeDirect sb pick ip is) _ E
        { s₁ with ino := Function.update s₁.ino ip (setAddr i 0 (s₁.ino ip)) }
      rw [hs₂]
      refine (ih (slotOf i :: S) s₂ hnd hlt' hf₂ hh₂ fun k hk => ⟨hS k hk, ?_⟩).mono
        fun _ s'' hr => ?_
      · rw [haddr, if_neg (show ¬k = i from fun he => hi (he ▸ hk))]
        exact (hown k (List.mem_cons_of_mem i hk)).2
      · obtain ⟨hf, hh', hz, hk⟩ := hr
        refine ⟨hlist ▸ hf, hh', fun k hkm => ?_, fun k hkn => ?_⟩
        · rcases List.mem_cons.mp hkm with rfl | hkm
          · rw [hk k hi, haddr, if_pos rfl]
          · exact hz k hkm
        · rw [hk k fun hc => hkn (List.mem_cons_of_mem i hc), haddr,
            if_neg (show ¬k = i from fun he => hkn (he ▸ List.mem_cons_self))]

/-- **The loop over the entries** of the block for addresses, which is held. -/
theorem freeEntries_wp {a : Block} : ∀ (js : List Nat) (S : List Mkfs.Slot) (s' : Fs),
    js.Nodup → (∀ j, j ∈ js → j < NINDIRECT) → Freed sb own s s' ip S →
    (∀ c, c ∈ s'.held → ¬Bitmap sb c) →
    (∀ j, j ∈ js → slotOf (NDIRECT + j) ∉ S ∧
      own (ip, slotOf (NDIRECT + j)) = nonzero (Bytes.get a (4 * j) 4)) →
    wp (freeEntries sb pick a js) (fun _ s'' =>
      Freed sb own s s'' ip ((js.map fun j => slotOf (NDIRECT + j)).reverse ++ S) ∧
        s''.held = s'.held ∧
      s''.ino = s'.ino) E s' := by
  have hM : MAXFILE = NDIRECT + NINDIRECT := rfl
  intro js
  induction js with
  | nil =>
    intro S s' _ _ h _ _
    exact ⟨h, rfl, rfl⟩
  | cons j js ih =>
    intro S s' hnd hlt h hh hown
    obtain ⟨hj, hnd⟩ := List.nodup_cons.mp hnd
    obtain ⟨hσ, ha⟩ := hown j List.mem_cons_self
    have hjd : j < NINDIRECT := hlt j List.mem_cons_self
    have hlt' : ∀ k, k ∈ js → k < NINDIRECT := fun k hk => hlt k (List.mem_cons_of_mem j hk)
    have hinj : ∀ k, k ∈ js → slotOf (NDIRECT + k) = slotOf (NDIRECT + j) → k = j := by
      intro k hk he
      have := slotOf_inj (by have := hlt' k hk; omega) (by omega) he
      omega
    have hS : ∀ k, k ∈ js → slotOf (NDIRECT + k) ∉ slotOf (NDIRECT + j) :: S ∧
        own (ip, slotOf (NDIRECT + k)) = nonzero (Bytes.get a (4 * k) 4) := by
      have hleft := left_of_freed (f := fun j => slotOf (NDIRECT + j)) hj hinj
        fun k hk => (hown k (List.mem_cons_of_mem j hk)).1
      exact fun k hk => ⟨hleft k hk, (hown k (List.mem_cons_of_mem j hk)).2⟩
    rw [← freed_cons (fun j => slotOf (NDIRECT + j)) j js S]
    unfold freeEntries
    rw [wp_ite]
    refine ⟨fun h0 => ?_, fun h0 => ?_⟩
    · rw [nonzero_eq_none h0] at ha
      exact ih _ s' hnd hlt' (h.skip ha) hh hS
    · rw [nonzero_eq h0] at ha
      have hd := h.owned.data ((without_of_notMem hσ).trans ha)
      refine (h.bfree hσ ha fun hc => hh _ hc ⟨_, hd.2, rfl⟩).andThen fun _ s₁ hr => ?_
      obtain ⟨hf₁, hh₁, hi₁⟩ := hr
      refine (ih _ s₁ hnd hlt' hf₁ (by rw [hh₁]; exact hh) hS).mono fun _ s'' hr => ?_
      exact ⟨hr.1, hr.2.1.trans hh₁, hr.2.2.trans hi₁⟩

theorem slotOf_entry {j : Nat} (hj : j < NINDIRECT) : slotOf (NDIRECT + j) = .entry ⟨j, hj⟩ := by
  unfold slotOf
  rw [dif_neg (by omega)]
  exact congrArg Mkfs.Slot.entry (Fin.ext (by
    show (NDIRECT + j - NDIRECT) % NINDIRECT = j
    rw [Nat.add_sub_cancel_left, Nat.mod_eq_of_lt hj]))

/-- Every slot is one of a file's blocks, or the block for addresses. -/
theorem slot_cases (σ : Mkfs.Slot) : σ = .indirect ∨ (∃ i, i < NDIRECT ∧ σ = slotOf i) ∨
    ∃ j, j < NINDIRECT ∧ σ = slotOf (NDIRECT + j) := by
  cases σ with
  | direct i =>
    refine .inr (.inl ⟨i, i.isLt, ?_⟩)
    unfold slotOf
    rw [dif_pos i.isLt]
  | indirect => exact .inl rfl
  | entry j =>
    exact .inr (.inr ⟨j, j.isLt, (slotOf_entry j.isLt).symm⟩)

/-- The slots of the direct blocks have been freed. -/
def Directs : List Mkfs.Slot := ((List.range NDIRECT).map slotOf).reverse

theorem mem_Directs {σ : Mkfs.Slot} : σ ∈ Directs ↔ ∃ i, i < NDIRECT ∧ σ = slotOf i := by
  unfold Directs
  rw [List.mem_reverse, List.mem_map]
  constructor
  · rintro ⟨i, hi, rfl⟩
    exact ⟨i, List.mem_range.mp hi, rfl⟩
  · rintro ⟨i, hi, rfl⟩
    exact ⟨i, List.mem_range.mpr hi, rfl⟩

/-- **The block for addresses**: its entries, and then itself. -/
theorem freeIndirect_wp (hl : Layout sb) (h : Freed sb own s s' ip Directs) (hh : s'.held = [])
    (hown : ∀ σ : Mkfs.Slot, own (ip, σ) = nonzero (σ.addr s.view (s.ino ip)))
    (hind : (s'.ino ip).addrs NDIRECT = (s.ino ip).addrs NDIRECT) :
    wp (freeIndirect sb pick ip) (fun _ s'' => (∃ S, Freed sb own s s'' ip S ∧
      ∀ σ, σ ∈ S ∨ own (ip, σ) = none) ∧ s''.held = [] ∧ (s''.ino ip).addrs NDIRECT = 0 ∧
      ∀ i, i < NDIRECT → (s''.ino ip).addrs i = (s'.ino ip).addrs i) E s' := by
  have hM : MAXFILE = NDIRECT + NINDIRECT := rfl
  unfold freeIndirect
  rw [wp_bind, wp_get, wp_ite]
  refine ⟨fun h0 => ⟨⟨Directs, h, fun σ => ?_⟩, hh, h0, fun _ _ => rfl⟩, fun h0 => ?_⟩
  · rw [hind] at h0
    rcases slot_cases σ with rfl | hd | ⟨j, hj, rfl⟩
    · exact .inr ((hown _).trans (nonzero_eq_none h0))
    · exact .inl (mem_Directs.mpr hd)
    · rw [hown, slotOf_entry hj]
      exact .inr (nonzero_eq_none (if_pos h0))
  generalize hi : (s'.ino ip).addrs NDIRECT = ind at h0
  have hi₀ : (s.ino ip).addrs NDIRECT = ind := hind.symm.trans hi
  have hself : own (ip, .indirect) = some ind := by
    rw [hown, ← hi₀]
    exact nonzero_eq (show (s.ino ip).addrs NDIRECT ≠ 0 by rw [hi₀]; exact h0)
  have hout : Mkfs.Slot.indirect ∉ Directs := by
    rw [mem_Directs]
    rintro ⟨i, -, hc⟩
    exact slotOf_ne_indirect i hc.symm
  have hdata : Data sb ind := h.owned.data ((without_of_notMem hout).trans hself)
  have hnb := hl.not_bitmap hdata
  refine (bread_wp h.coherent (by rw [hh]; exact List.not_mem_nil) fun s₁ hw hh₁ => ?_ :
    wp (bread pick ind)
      (fun a s₁ => a = s.view ind ∧ Freed sb own s s₁ ip Directs ∧ s₁.held = [ind] ∧
      s₁.ino = s'.ino) E s').andThen fun a s₁ hr => ?_
  · exact ⟨h.blocks ind hnb, h.look hw (fun _ _ => rfl) rfl, by rw [hh₁, hh], hw.ino⟩
  obtain ⟨rfl, h₁, hh₁, hi₁⟩ := hr
  have hentry : ∀ j, j ∈ List.range NINDIRECT → slotOf (NDIRECT + j) ∉ Directs ∧
      own (ip, slotOf (NDIRECT + j)) = nonzero (Bytes.get (s.view ind) (4 * j) 4) := by
    intro j hj
    have hj := List.mem_range.mp hj
    refine ⟨fun hc => ?_, ?_⟩
    · obtain ⟨i, hid, he⟩ := mem_Directs.mp hc
      have := slotOf_inj (by omega) (by omega) he
      omega
    · rw [hown, slotOf_entry hj, entry_addr (by rw [hi₀]; exact h0), hi₀]
  refine (freeEntries_wp (List.range NINDIRECT) Directs s₁ List.nodup_range
    (fun j hj => List.mem_range.mp hj)
    h₁ (fun c hc => ?_) hentry).andThen fun _ s₂ hr => ?_
  · rw [hh₁, List.mem_singleton] at hc
    rw [hc]
    exact hnb
  obtain ⟨h₂, hh₂, hi₂⟩ := hr
  rw [wp_bind]
  show wp (do bfree sb pick ind; setInode ip (setAddr NDIRECT 0)) _ E (s₂.drop ind)
  have h₃ := h₂.look ((Wrote.refl h₂.coherent).drop ind) (fun _ _ => rfl) rfl
  have hh₃ : (s₂.drop ind).held = [] := by
    show s₂.held.erase ind = []
    rw [hh₂, hh₁, List.erase_cons_head]
  have hi₃ : (s₂.drop ind).ino = s'.ino := hi₂.trans hi₁
  refine (h₃.bfree ?_ hself (by rw [hh₃]; exact List.not_mem_nil)).andThen fun _ s₄ hr => ?_
  · intro hc
    rcases List.mem_append.mp hc with hc | hc
    · obtain ⟨j, -, he⟩ := List.mem_map.mp (List.mem_reverse.mp hc)
      exact slotOf_ne_indirect _ he
    · exact hout hc
  obtain ⟨h₄, hh₄, hi₄⟩ := hr
  rw [hi₃] at hi₄
  have hw := Wrote.setInode h₄.coherent ip (setAddr NDIRECT 0 (s₄.ino ip))
  have h₅ := h₄.look hw (fun j hj => Function.update_of_ne hj _ _)
    (by rw [Function.update_self]; rfl)
  have haddr : ∀ k, (Function.update s₄.ino ip (setAddr NDIRECT 0 (s₄.ino ip)) ip).addrs k
      = if k = NDIRECT then 0 else (s'.ino ip).addrs k := by
    intro k
    rw [Function.update_self, hi₄]
    exact Function.update_apply _ _ _ _
  refine ⟨⟨_, h₅, fun σ => ?_⟩, hh₄.trans hh₃, (haddr NDIRECT).trans (if_pos rfl), fun i hid =>
    (haddr i).trans (if_neg (Nat.ne_of_lt hid))⟩
  rcases slot_cases σ with rfl | hd | ⟨j, hj, rfl⟩
  · exact .inl List.mem_cons_self
  · exact .inl (List.mem_cons_of_mem _ (List.mem_append_right _ (mem_Directs.mpr hd)))
  · exact .inl (List.mem_cons_of_mem _ (List.mem_append_left _
      (List.mem_reverse.mpr (List.mem_map.mpr ⟨j, List.mem_range.mpr hj, rfl⟩))))

/-! ## The inode follows -/

/-- After inode `ip` became `d`, in memory and on the disk. -/
structure Synced (sb : Superblock) (own : Nat × Mkfs.Slot → Option Nat) (s s' : Fs) (ip : Nat)
    (d : Dinode) : Prop where
  coherent : Coherent s'
  held : s'.held = []
  ino : s'.ino = Function.update s.ino ip d
  owned : Owned sb s'.view own
  blocks : ∀ c, c ≠ IBLOCK sb ip → s'.view c = s.view c
  inode : (onDisk sb s'.view ip).Same d
  other : ∀ j, j ≠ ip → (onDisk sb s'.view j).Same (onDisk sb s.view j)
  disk : s'.disk = s.disk
  valid : s'.valid = s.valid
  ref : s'.ref = s.ref
  op : s'.op = IBLOCK sb ip :: s.op

/-- `iupdate` calls `log_write` once. -/
theorem iupdate_op : wp (iupdate sb pick ip) (fun _ s' => s'.op = IBLOCK sb ip :: s.op)
    (fun _ _ => True) s := by
  unfold iupdate bread
  simp only [wp_bind, wp_get, wp_ite]
  refine ⟨fun _ => trivial, fun _ => ?_⟩
  show IBLOCK sb ip :: (s.load pick (IBLOCK sb ip)).op = _
  rw [(load_rest s _).2.2.2.1]

/-- A change to the inode in memory, and `iupdate(ip)`. -/
theorem sync_wp (hl : Layout sb) (hc : Coherent s) (hh : s.held = []) (ho : Owned sb s.view own)
    (hip : ip < sb.ninodes) {f : Dinode → Dinode} (hf : (f (s.ino ip)).Fits) :
    wp (do setInode ip f; iupdate sb pick ip)
      (fun _ s' => Synced sb own s s' ip (f (s.ino ip))) E s := by
  have hset := Wrote.setInode hc ip (f (s.ino ip))
  rw [wp_bind]
  show wp (iupdate sb pick ip) _ E { s with ino := Function.update s.ino ip (f (s.ino ip)) }
  generalize hs₁ : ({ s with ino := Function.update s.ino ip (f (s.ino ip)) } : Fs) = s₁ at hset
  have hop : s₁.op = s.op := by rw [← hs₁]
  have hheld : s₁.held = [] := by rw [← hs₁]; exact hh
  have hupdate :
    wp (iupdate sb pick ip) (fun _ s' => Wrote s₁ s' (setOnDisk sb s₁.view ip (s₁.ino ip)) s₁.ino
      [IBLOCK sb ip] ∧ s'.held = s₁.held) E s₁ :=
    iupdate_wp hset.coherent (by rw [hheld]; exact List.not_mem_nil) fun s' hw hh' => ⟨hw, hh'⟩
  refine ((hupdate.and iupdate_op).mono fun _ s' hr => ?_).monoStop fun _ _ he => he.1
  obtain ⟨⟨hw, hh'⟩, hop'⟩ := hr
  rw [hop] at hop'
  rw [hset.view, hset.ino, Function.update_self] at hw
  refine ⟨hw.coherent, hh'.trans hheld, hw.ino, ?_, fun c hcb => ?_, ?_,
    fun j hj => ?_, hw.disk.trans hset.disk,
    hw.valid.trans hset.valid, hw.ref.trans hset.ref, hop'⟩
  · rw [hw.view]
    exact ho.view fun c hcb => setOnDisk_bitmap hl hip _ hcb
  · rw [hw.view]
    exact Function.update_of_ne hcb _ _
  · rw [hw.view]
    exact onDisk_self hf
  · rw [hw.view]
    exact onDisk_ne hj

/-! ## The calls -/

/-- The owners, but for inode `ip`. -/
def bare (own : Nat × Mkfs.Slot → Option Nat) (ip : Nat) : Nat × Mkfs.Slot → Option Nat :=
  fun q => if q.1 = ip then none else own q

theorem without_all (h : ∀ σ, σ ∈ S ∨ own (ip, σ) = none) : without own ip S = bare own ip := by
  funext q
  obtain ⟨i, σ⟩ := q
  unfold without bare
  dsimp only
  by_cases hi : i = ip
  · subst hi
    rw [if_pos rfl]
    rcases h σ with hσ | hσ
    · exact if_pos ⟨rfl, hσ⟩
    · rw [hσ]
      exact ite_self _
  · rw [if_neg fun hc => hi hc.1, if_neg hi]

/-- After inode `ip` gave its blocks back and became `d`. -/
structure Truncated (sb : Superblock) (own : Nat × Mkfs.Slot → Option Nat) (s s' : Fs) (ip : Nat)
    (d : Dinode) : Prop where
  coherent : Coherent s'
  held : s'.held = []
  ino : s'.ino = Function.update s.ino ip d
  owned : Owned sb s'.view (bare own ip)
  blocks : ∀ c, ¬Bitmap sb c → c ≠ IBLOCK sb ip → s'.view c = s.view c
  inode : (onDisk sb s'.view ip).Same d
  other : ∀ j, j < sb.ninodes → j ≠ ip → (onDisk sb s'.view j).Same (onDisk sb s.view j)
  disk : s'.disk = s.disk
  valid : s'.valid = s.valid
  ref : s'.ref = s.ref
  op : ∀ b, b ∈ s'.op ↔ b = IBLOCK sb ip ∨ b ∈ s.op ∨ ∃ σ a, own (ip, σ) = some a ∧ b = BBLOCK sb a

/-- **`itrunc`**. -/
theorem itrunc_wp (hl : Layout sb) (hc : Coherent s) (hh : s.held = []) (ho : Owned sb s.view own)
    (hip : ip < sb.ninodes) (hfit : (s.ino ip).Fits)
    (hown : ∀ σ : Mkfs.Slot, own (ip, σ) = nonzero (σ.addr s.view (s.ino ip))) :
    wp (itrunc sb pick ip)
      (fun _ s' => ∃ a, Truncated sb own s s' ip { s.ino ip with size := 0, addrs := a } ∧
      ∀ i, i ≤ NDIRECT → a i = 0) E s := by
  have hdirect : ∀ i, i ∈ List.range NDIRECT → slotOf i ∉ ([] : List Mkfs.Slot) ∧
      own (ip, slotOf i) = nonzero ((s.ino ip).addrs i) := by
    intro i hi
    refine ⟨List.not_mem_nil, ?_⟩
    rw [hown]
    unfold slotOf
    rw [dif_pos (List.mem_range.mp hi)]
    rfl
  unfold itrunc
  refine (freeDirect_wp (List.range NDIRECT) [] s List.nodup_range
    (fun i hi => List.mem_range.mp hi)
    (Freed.refl hc ho) hh hdirect).andThen fun _ s₁ hr => ?_
  obtain ⟨h₁, hh₁, hz₁, hk₁⟩ := hr
  rw [List.append_nil] at h₁
  refine (freeIndirect_wp hl h₁ hh₁ hown
    (hk₁ _ fun hc => Nat.lt_irrefl _ (List.mem_range.mp hc))).andThen
    fun _ s₂ hr => ?_
  obtain ⟨⟨S, h₂, hS⟩, hh₂, hz₂, hk₂⟩ := hr
  have ho₂ := h₂.owned
  rw [without_all hS] at ho₂
  -- all addresses are 0 by now
  have hempty : ∀ i, i ≤ NDIRECT → (s₂.ino ip).addrs i = 0 := by
    intro i hi
    rcases Nat.lt_or_eq_of_le hi with hi | rfl
    · rw [hk₂ i hi, hz₁ i (List.mem_range.mpr hi)]
    · exact hz₂
  have hd : ({ s₂.ino ip with size := 0 } : Dinode)
      = { s.ino ip with size := 0, addrs := (s₂.ino ip).addrs } := by rw [h₂.same]
  refine (sync_wp hl h₂.coherent hh₂ ho₂ hip (f := fun d => { d with size := 0 }) ?_).mono
    fun _ s' h => ?_
  · rw [hd]
    refine ⟨hfit.type, hfit.major, hfit.minor, hfit.nlink, Nat.pow_pos (by omega), fun i hi => ?_⟩
    rw [hempty i hi]
    exact Nat.pow_pos (by omega)
  rw [hd] at h
  refine ⟨(s₂.ino ip).addrs, ⟨h.coherent, h.held, ?_, h.owned, fun c hcb hne => ?_, h.inode,
    fun j hj hne => ?_,
    h.disk.trans h₂.disk, h.valid.trans h₂.valid, h.ref.trans h₂.ref, fun b => ?_⟩, hempty⟩
  · rw [h.ino]
    funext j
    by_cases hj : j = ip
    · rw [hj, Function.update_self, Function.update_self]
    · rw [Function.update_of_ne hj, Function.update_of_ne hj, h₂.memory j hj]
  · rw [h.blocks c hne, h₂.blocks c hcb]
  · have ho := h.other j hne
    rwa [onDisk_congr (V := s.view) (h₂.blocks _ ?_)] at ho
    rintro ⟨b, -, he⟩
    exact hl.inode_ne hj b he
  · rw [h.op, List.mem_cons, h₂.op]
    refine or_congr_right (or_congr_right ⟨?_, ?_⟩)
    · rintro ⟨σ, c, -, hc⟩
      exact ⟨σ, c, hc⟩
    · rintro ⟨σ, c, hc, hb⟩
      refine ⟨σ, c, (hS σ).resolve_right fun hn => ?_, hc, hb⟩
      rw [hn] at hc
      cases hc

/-- The emptied inode is changed once more. -/
theorem Truncated.sync {d d' : Dinode} (h : Truncated sb own s s₁ ip d)
    (h' : Synced sb (bare own ip) s₁ s' ip d') : Truncated sb own s s' ip d' where
  coherent := h'.coherent
  held := h'.held
  ino := by rw [h'.ino, h.ino, Function.update_idem]
  owned := h'.owned
  blocks c hc hne := (h'.blocks c hne).trans (h.blocks c hc hne)
  inode := h'.inode
  other j hj hne := (h'.other j hne).trans (h.other j hj hne)
  disk := h'.disk.trans h.disk
  valid := h'.valid.trans h.valid
  ref := h'.ref.trans h.ref
  op b := by rw [h'.op, List.mem_cons, h.op, or_self_left]

/-- After `ip->valid = 0` and `ip->ref--`. -/
def Fs.forget (s : Fs) (ip : Nat) : Fs :=
  { s with
    valid := Function.update s.valid ip false
    ref := Function.update s.ref ip (s.ref ip - 1) }

/-- The last reference to an inode without links. -/
def Dying (s : Fs) (ip : Nat) : Prop := s.ref ip = 1 ∧ s.valid ip = true ∧ (s.ino ip).nlink = 0

/-- **`iput`** frees a dying inode, and only counts for another. -/
theorem iput_wp (hl : Layout sb) (hc : Coherent s) (hh : s.held = []) (ho : Owned sb s.view own)
    (hip : ip < sb.ninodes) (hfit : Dying s ip → (s.ino ip).Fits)
    (hown : Dying s ip → ∀ σ : Mkfs.Slot, own (ip, σ) = nonzero (σ.addr s.view (s.ino ip))) :
    wp (iput sb pick ip) (fun _ s' =>
      (Dying s ip → ∃ a s₁,
        Truncated sb own s s₁ ip { s.ino ip with type := 0, size := 0, addrs := a } ∧
        (∀ i, i ≤ NDIRECT → a i = 0) ∧ (∃ o, s₁.op = IBLOCK sb ip :: o ∧ IBLOCK sb ip ∈ o) ∧
        s' = s₁.forget ip) ∧
      (¬Dying s ip → s' = { s with ref := Function.update s.ref ip (s.ref ip - 1) })) E s := by
  unfold iput
  rw [wp_bind, wp_get, wp_ite]
  refine ⟨fun hd => ?_, fun hd => ⟨fun hc => absurd hc hd, fun _ => rfl⟩⟩
  refine (itrunc_wp hl hc hh ho hip (hfit hd) (hown hd)).andThen fun _ s₁ hr => ?_
  obtain ⟨a, h₁, ha⟩ := hr
  have hself : s₁.ino ip = { s.ino ip with size := 0, addrs := a } := by
    rw [h₁.ino, Function.update_self]
  have hsync := @sync_wp sb pick s₁ ip _ E hl h₁.coherent h₁.held h₁.owned hip
    (f := fun d => { d with type := 0 }) (by
      have hfit := hfit hd
      rw [hself]
      refine ⟨Nat.pow_pos (by omega), hfit.major, hfit.minor, hfit.nlink, Nat.pow_pos (by omega),
        fun i hi => ?_⟩
      show a i < _
      rw [ha i hi]
      exact Nat.pow_pos (by omega))
  rw [hself] at hsync
  rw [wp_bind] at hsync ⊢
  refine hsync.mono fun _ s₂ h₂ => ?_
  refine (wp_bind _ _).mpr (h₂.mono fun _ s₃ h₃ => ?_)
  exact ⟨fun _ => ⟨a, s₃, h₁.sync h₃, ha, ⟨s₁.op, h₃.op, (h₁.op _).mpr (.inl rfl)⟩, rfl⟩,
    fun hn => absurd hd hn⟩

/-- The loop of `ialloc`. -/
theorem iallocFrom_wp {type : Nat} :
    ∀ fuel inum (s₁ : Fs), Wrote s s₁ s.view s.ino [] → s₁.held = [] →
    wp (iallocFrom sb pick type fuel inum) (fun r s' =>
      (r = none → Wrote s s' s.view s.ino [] ∧ s'.held = []) ∧
      ∀ i, r = some i → inum ≤ i ∧ i < sb.ninodes ∧ (onDisk sb s.view i).type = 0 ∧ ∃ s₂,
        Wrote s s₂ (setOnDisk sb s.view i ⟨type, 0, 0, 0, 0, fun _ => 0⟩) s.ino [IBLOCK sb i] ∧
        s₂.held = [] ∧ exec (iget i) s₂ = (.ok ⟨⟩, s')) E s₁ := by
  intro fuel
  induction fuel with
  | zero =>
    intro inum s₁ hw hh
    exact ⟨fun _ => ⟨hw, hh⟩, fun i hi => absurd hi.symm (Option.some_ne_none i)⟩
  | succ fuel ih =>
    intro inum s₁ hw hh
    unfold iallocFrom
    rw [wp_ite]
    refine ⟨fun hlt => ?_,
      fun _ => ⟨fun _ => ⟨hw, hh⟩, fun i hi => absurd hi.symm (Option.some_ne_none i)⟩⟩
    rw [wp_bind]
    refine bread_wp hw.coherent (by rw [hh]; exact List.not_mem_nil) fun s₂ hw₂ hh₂ => ?_
    rw [hw.view, hw.ino] at hw₂
    rw [hh] at hh₂
    rw [hw.view, wp_ite]
    refine ⟨fun h0 => ?_, fun _ => ?_⟩
    · -- the inode is free: it is cleared, given its type and logged
      refine logged_bind_wp hw₂.coherent (by rw [hh₂]; exact List.mem_cons_self)
        fun s₃ hw₃ hh₃ => ?_
      rw [hw₂.view, hw₂.ino] at hw₃
      rw [hh₂, List.erase_cons_head] at hh₃
      refine ⟨fun hn => absurd hn (Option.some_ne_none inum), fun i hi => ?_⟩
      obtain rfl : inum = i := Option.some.inj hi
      exact ⟨le_rfl, hlt, h0, s₃, (hw.look hw₂).trans hw₃, hh₃, rfl⟩
    · rw [wp_bind]
      have hdrop : (s₂.drop (IBLOCK sb inum)).held = [] := by
        show s₂.held.erase _ = []
        rw [hh₂, List.erase_cons_head]
      refine (ih (inum + 1) _ ((hw.look hw₂).drop (IBLOCK sb inum)) hdrop).mono fun r s' hr => ?_
      refine ⟨hr.1, fun i hi => ?_⟩
      obtain ⟨hle, hrest⟩ := hr.2 i hi
      exact ⟨by omega, hrest⟩

end Xv6.Files
