import Xv6.Files.Copy
import Xv6.Files.Update

/-!
# The loop of `writei`

`Tracked` is what holds at every turn: the bytes from `off₀` up to `off` are those of
the source, the other bytes of the file and the other files are as they were, and
every block that a byte is in is there. A turn keeps it (`Tracked.got` for `bmap`,
`Tracked.store` for the copy), and so the loop ends in one of three ways (`Outcome`):

  > `writeFrom_outcome`: everything is written, or the disk is full, or the source
  > could not be read.

`Tracked` also counts: the blocks that were missing and are there now are those that
are no longer free.
-/

namespace Xv6.Files

open Lib
open Lib.Bytes (blit)
open Mkfs (Block Dinode Superblock zeroes BSIZE NDIRECT NINDIRECT MAXFILE)

variable {sb : Superblock} {pick : Nat → Option Nat} {s₀ s s' : Fs} {ip : Nat}
  {E : Panic → Fs → Prop}

/-- Byte `k` of a file. -/
def fileByte (V : Nat → Block) (d : Dinode) (k : Nat) : UInt8 :=
  V ((slotOf (k / BSIZE)).addr V d) (k % BSIZE)

/-- The block that byte `k` of the file is in is there. -/
def Mapped (V : Nat → Block) (d : Dinode) (k : Nat) : Prop := (slotOf (k / BSIZE)).addr V d ≠ 0

/-- How many blocks from `a` on and before `b` the file does not have. -/
def missing (V : Nat → Block) (d : Dinode) (a b : Nat) : Nat :=
  (List.range b).countP fun bn => a ≤ bn ∧ (slotOf bn).addr V d = 0

theorem missing_succ (V : Nat → Block) (d : Dinode) {a b : Nat} (h : a ≤ b) :
    missing V d a (b + 1) = missing V d a b + if (slotOf b).addr V d = 0 then 1 else 0 := by
  unfold missing
  rw [List.range_succ, List.countP_append, List.countP_singleton]
  simp only [h, true_and, decide_eq_true_eq]

theorem missing_self (V : Nat → Block) (d : Dinode) (a : Nat) : missing V d a a = 0 := by
  refine List.countP_eq_zero.mpr fun bn hbn => ?_
  have hlt := List.mem_range.mp hbn
  rw [decide_eq_true_eq]
  omega

theorem missing_mono (V : Nat → Block) (d : Dinode) (a : Nat) {b c : Nat} (h : b ≤ c) :
    missing V d a b ≤ missing V d a c :=
  List.Sublist.countP_le (List.range_sublist.mpr h)

/-- From `s₀` to `s` the bytes from `off₀` to `off` were written. -/
structure Written (sb : Superblock) (s₀ s : Fs) (ip : Nat) (off₀ off : Nat)
    (src : Nat → UInt8) : Prop
    extends Added sb s₀ s ip where
  held : s.held = []
  disk : s.disk = s₀.disk
  valid : s.valid = s₀.valid
  ref : s.ref = s₀.ref
  pinned : ∀ b, b ∈ s₀.lh → b ∈ s.lh
  data : ∀ i (σ : Mkfs.Slot), Live sb s₀.ino i → i ≠ ip → σ ≠ .indirect →
    σ.addr s₀.view (s₀.ino i) ≠ 0 → s.view (σ.addr s₀.view (s₀.ino i)) =
    s₀.view (σ.addr s₀.view (s₀.ino i))
  mapped : ∀ k, k < (s₀.ino ip).size ∨ k < off → Mapped s.view (s.ino ip) k
  byte : ∀ k, k < (s₀.ino ip).size ∨ k < off → fileByte s.view (s.ino ip) k =
    if off₀ ≤ k ∧ k < off then src (k - off₀) else fileByte s₀.view (s₀.ino ip) k

/-- The same, at a turn of the loop: the blocks from `e` on were not looked at. -/
structure Tracked (sb : Superblock) (s₀ s : Fs) (ip : Nat) (off₀ off e : Nat)
    (src : Nat → UInt8) : Prop
    extends Written sb s₀ s ip off₀ off src where
  log : ∀ b, b ∈ s.lh → b ∈ s₀.lh ∨ Logs sb s₀ ip b ∨
    ∃ k, off₀ ≤ k ∧ k < off ∧ b = (slotOf (k / BSIZE)).addr s.view (s.ino ip)
  /-- the blocks of the file that were not written to -/
  own : ∀ bn, bn < MAXFILE → (slotOf bn).addr s₀.view (s₀.ino ip) ≠ 0 →
    (∀ k, off₀ ≤ k → k < off → k / BSIZE ≠ bn) →
      s.view ((slotOf bn).addr s₀.view (s₀.ino ip)) = s₀.view ((slotOf bn).addr s₀.view (s₀.ino ip))
  only : ∀ bn, e ≤ bn → bn < MAXFILE → (slotOf bn).addr s₀.view (s₀.ino ip) = 0 →
    (slotOf bn).addr s.view (s.ino ip) = 0
  count : ∀ fb, e ≤ fb + 1 → fb < MAXFILE → (slotOf fb).addr s₀.view (s₀.ino ip) ≠ 0 →
    (freeList sb s.view).length + missing s₀.view (s₀.ino ip) (off₀ / BSIZE) e =
    (freeList sb s₀.view).length

variable {off₀ off e : Nat} {src : Nat → UInt8}

theorem Tracked.refl (hs : Sound sb s₀) (hh : s₀.held = []) (hoff : off₀ ≤ (s₀.ino ip).size)
    (hm : ∀ k, k < (s₀.ino ip).size → Mapped s₀.view (s₀.ino ip) k) :
    Tracked sb s₀ s₀ ip off₀ off₀ (off₀ / BSIZE) src where
  toAdded := Added.refl hs
  held := hh
  disk := rfl
  valid := rfl
  ref := rfl
  pinned _ h := h
  log _ h := .inl h
  data _ _ _ _ _ _ := rfl
  mapped k hk := hm k (by omega)
  byte k _ := by rw [if_neg (by omega)]
  own _ _ _ _ := rfl
  only _ _ _ h := h
  count _ _ _ _ := by rw [missing_self, Nat.add_zero]

/-! ## A block is got -/

/-- With an entry there is a block for addresses. -/
theorem indirect_of_entry {V : Nat → Block} {d : Dinode} {fb : Nat} (h : (slotOf fb).addr V d ≠ 0)
    (hd : ¬fb < NDIRECT) : d.addrs NDIRECT ≠ 0 := by
  intro hz
  refine h ?_
  unfold slotOf
  rw [dif_neg hd]
  exact if_pos hz

/-- Before a block that is there, nothing but the blocks themselves has to be allocated. -/
theorem Tracked.direct (h : Tracked sb s₀ s ip off₀ off e src)
    (hip : Live sb s₀.ino ip) {bn fb : Nat}
    (hle : bn ≤ fb) (hfb : (slotOf fb).addr s₀.view (s₀.ino ip) ≠ 0) : Direct s ip bn := by
  by_cases hd : bn < NDIRECT
  · exact .inl hd
  · have hind := indirect_of_entry hfb (by omega)
    have hk := h.keep ip .indirect hip hind
    exact .inr fun hz => hind (hk.symm.trans hz)

/-- What was got by `bmap`. -/
theorem Tracked.got (h : Tracked sb s₀ s ip off₀ off e src) (hip : Live sb s₀.ino ip) {bn a : Nat}
    (hg : Got sb s s' ip (slotOf bn) a) (hh : s'.held = []) (he : e = bn) (hb : off₀ / BSIZE ≤ bn)
    (hbn : bn < MAXFILE) (h₁ : Direct s ip bn → (slotOf bn).addr s.view (s.ino ip) =
      0 → One sb s s' a) :
    Tracked sb s₀ s' ip off₀ off (if a = 0 then MAXFILE + 1 else bn + 1) src := by
  have hip' := (h.live ip).mpr hip
  obtain ⟨L, hgr⟩ := hg.grown
  have hkeep : ∀ {σ : Mkfs.Slot}, σ.addr s.view (s.ino ip) ≠ 0 →
      σ.addr s'.view (s'.ino ip) = σ.addr s.view (s.ino ip) := fun hne => hgr.keep ip _ hip' hne
  refine
    { toAdded := h.toAdded.trans hgr.toAdded hip
      held := hh
      disk := hgr.wrote.disk.trans h.disk
      valid := hgr.wrote.valid.trans h.valid
      ref := hgr.wrote.ref.trans h.ref
      pinned := fun b hb => (hgr.wrote.lh b).mpr (.inl (h.pinned b hb))
      data := fun i σ hi hne hσ h0 => ?_
      mapped := fun k hk => ?_
      byte := fun k hk => ?_
      log := fun b hb => ?_
      own := fun bn' hlt h0 hk => ?_
      only := fun bn' he' hlt h0 => ?_
      count := fun fb he' hlt hfb => ?_ }
  · have hk := h.keep i σ hi h0
    have hd := hgr.data i σ ((h.live i).mpr hi) hσ (by rw [hk]; exact h0)
    rw [hk] at hd
    rw [hd]
    exact h.data i σ hi hne hσ h0
  · have hm := h.mapped k hk
    unfold Mapped at hm ⊢
    rw [hkeep hm]
    exact hm
  · have hm := h.mapped k hk
    rw [← h.byte k hk]
    unfold fileByte
    unfold Mapped at hm
    rw [hkeep hm, hgr.data ip _ hip' (slotOf_ne_indirect _) hm]
  · rcases (hgr.wrote.lh b).mp hb with hb | hb
    · rcases h.log b hb with hb | hb | ⟨k, hk, hko, rfl⟩
      · exact .inl hb
      · exact .inr (.inl hb)
      · exact .inr (.inr ⟨k, hk, hko, (hkeep (h.mapped k (.inr hko))).symm⟩)
    · exact .inr (.inl (h.toAdded.logs hip (hgr.log b hb)))
  · have hk' := h.keep ip _ hip h0
    have hd := hgr.data ip _ hip' (slotOf_ne_indirect bn') (by rw [hk']; exact h0)
    rw [hk'] at hd
    rw [hd]
    exact h.own bn' hlt h0 hk
  · by_cases ha : a = 0
    · rw [if_pos ha] at he'
      omega
    · rw [if_neg ha] at he'
      refine hg.only _ (fun hc => ?_) (slotOf_ne_indirect _) (h.only bn' (by omega) hlt h0)
      have := slotOf_inj hlt hbn hc
      omega
  · by_cases ha : a = 0
    · rw [if_pos ha] at he'
      omega
    · rw [if_neg ha] at he' ⊢
      have hcount := h.count fb (by omega) hlt hfb
      rw [he] at hcount
      rw [missing_succ _ _ hb]
      by_cases h0 : (slotOf bn).addr s₀.view (s₀.ino ip) = 0
      · -- a missing block takes a free one
        have hone := h₁ (h.direct hip (by omega) hfb) (h.only bn (by omega) hbn h0)
        unfold One at hone
        rw [if_neg ha] at hone
        rw [if_pos h0]
        omega
      · have hk := h.keep ip (slotOf bn) hip h0
        have hw := hg.look (by rw [hk]; exact h0)
        rw [if_neg h0, hw.view]
        exact hcount

/-- Nothing was got: the disk has the free blocks that were needed before this one. -/
theorem Tracked.full (h : Tracked sb s₀ s ip off₀ off e src) (hip : Live sb s₀.ino ip) {bn : Nat}
    (hg : Got sb s s' ip (slotOf bn) 0) (he : e = bn)
    (h₁ : Direct s ip bn → (slotOf bn).addr s.view (s.ino ip) = 0 → One sb s s' 0) :
    (slotOf bn).addr s₀.view (s₀.ino ip) = 0 ∧ ∀ fb, bn < fb → fb < MAXFILE →
      (slotOf fb).addr s₀.view (s₀.ino ip) ≠ 0 →
        missing s₀.view (s₀.ino ip) (off₀ / BSIZE) bn = (freeList sb s₀.view).length := by
  have hz := (hg.full rfl).1
  refine ⟨?_, fun fb hlt hfm hfb => ?_⟩
  · by_contra h0
    have hk := h.keep ip (slotOf bn) hip h0
    exact h0 (hk.symm.trans hz)
  · have hone := h₁ (h.direct hip (by omega) hfb) hz
    unfold One at hone
    rw [if_pos rfl] at hone
    have hcount := h.count fb (by omega) hfm hfb
    rw [hone, he, List.length_nil, Nat.zero_add] at hcount
    exact hcount

/-! ## The copy -/

/-- A store to a block of data does not move a block. -/
theorem store_addr (hs : Sound sb s) {i : Nat} {σ : Mkfs.Slot} {L : List Nat} {f : Block}
    (hi : Live sb s.ino i) (hσ : σ ≠ .indirect) (h0 : σ.addr s.view (s.ino i) ≠ 0)
    (hw : Wrote s s' (Function.update s.view (σ.addr s.view (s.ino i)) f) s.ino L) {j : Nat}
    (hj : Live sb s.ino j) (τ : Mkfs.Slot) :
    τ.addr s'.view (s'.ino j) = τ.addr s.view (s.ino j) := by
  rw [hw.ino, hw.view]
  refine addr_congr τ (fun _ _ => rfl) fun hz => Function.update_of_ne (fun he => ?_) _ _
  exact hσ (hs.owned.once (τ := .indirect) hi hj h0 he.symm).2

theorem Added.store (hl : Layout sb) (hs : Sound sb s) {σ : Mkfs.Slot} {L : List Nat} {f : Block}
    (hip : Live sb s.ino ip) (hσ : σ ≠ .indirect) (h0 : σ.addr s.view (s.ino ip) ≠ 0)
    (hw : Wrote s s' (Function.update s.view (σ.addr s.view (s.ino ip)) f) s.ino L) :
    Added sb s s' ip := by
  have hd := hs.owned.addr_data hip h0
  have hbit : ∀ c, Bitmap sb c → s'.view c = s.view c := by
    intro c hc
    rw [hw.view]
    exact Function.update_of_ne (fun he => hl.not_bitmap hd (by rw [he] at hc; exact hc)) _ _
  have haddr : ∀ j, Live sb s.ino j → ∀ τ : Mkfs.Slot, τ.addr s'.view (s'.ino j) =
    τ.addr s.view (s.ino j) :=
    fun j hj τ => store_addr hs hip hσ h0 hw hj τ
  have hown : owner sb s'.view s'.ino = owner sb s.view s.ino := by
    funext p
    obtain ⟨j, τ⟩ := p
    unfold owner
    dsimp only
    rw [hw.ino]
    by_cases hj : Live sb s.ino j
    · have hja := haddr j hj τ
      rw [hw.ino] at hja
      rw [if_pos hj, if_pos hj, hja]
    · rw [if_neg hj, if_neg hj]
  refine ⟨hw.coherent, ?_, fun j _ => by rw [hw.ino], by rw [hw.ino], fun i τ hi _ => haddr i hi τ,
    fun i hi => ?_, fun b hb hu => (used_congr hbit hb).mpr hu, fun τ hz hn => ?_⟩
  · rw [hown]
    exact hs.owned.view hbit
  · rw [hw.view]
    exact Function.update_of_ne (hl.not_inode hd hi) _ _
  · rw [haddr ip hip τ] at hn
    exact absurd hz hn

/-- The bytes of a block after a copy to it. -/
theorem fileByte_store (hs : Sound sb s) {bn : Nat} {L : List Nat} {f : Block}
    (hip : Live sb s.ino ip) (h0 : (slotOf bn).addr s.view (s.ino ip) ≠ 0)
    (hw : Wrote s s' (Function.update s.view ((slotOf bn).addr s.view (s.ino ip)) f)
      s.ino L) {k : Nat}
    (hk : Mapped s.view (s.ino ip) k) (hbn : bn < MAXFILE) (hkm : k / BSIZE < MAXFILE) :
    fileByte s'.view (s'.ino ip) k =
      if k / BSIZE = bn then f (k % BSIZE) else fileByte s.view (s.ino ip) k := by
  unfold fileByte
  rw [store_addr hs hip (slotOf_ne_indirect bn) h0 hw hip, hw.view]
  split
  next he => rw [he, Function.update_self]
  next hne =>
    rw [Function.update_of_ne fun he => ?_]
    exact hne (slotOf_inj hkm hbn (hs.owned.once hip hip hk he).2)

/-- A store to one block of the file. -/
theorem Written.touch (h : Written sb s₀ s ip off₀ off src) (hl : Layout sb)
    (hip : Live sb s₀.ino ip)
    {bn off' : Nat} {f : Block} {L : List Nat} (hbn : bn < MAXFILE)
    (h0 : (slotOf bn).addr s.view (s.ino ip) ≠ 0)
    (hw : Wrote s s' (Function.update s.view ((slotOf bn).addr s.view (s.ino ip)) f) s.ino L)
    (hh : s'.held = [])
    (hmap : ∀ k, k < (s₀.ino ip).size ∨ k < off' → k / BSIZE < MAXFILE ∧ Mapped s.view (s.ino ip) k)
    (hbyte : ∀ k, k < (s₀.ino ip).size ∨ k < off' →
      (if k / BSIZE = bn then f (k % BSIZE) else fileByte s.view (s.ino ip) k) =
        if off₀ ≤ k ∧ k < off' then src (k - off₀) else fileByte s₀.view (s₀.ino ip) k) :
    Written sb s₀ s' ip off₀ off' src := by
  have hip' := (h.live ip).mpr hip
  have hsl := slotOf_ne_indirect bn
  refine
    { toAdded := h.toAdded.trans (Added.store hl h.sound hip' hsl h0 hw) hip
      held := hh
      disk := hw.disk.trans h.disk
      valid := hw.valid.trans h.valid
      ref := hw.ref.trans h.ref
      pinned := fun b hb => (hw.lh b).mpr (.inl (h.pinned b hb))
      data := fun i σ hi hne hσ hz => ?_
      mapped := fun k hk => ?_
      byte := fun k hk => ?_ }
  · have hk := h.keep i σ hi hz
    have hi' := (h.live i).mpr hi
    rw [hw.view, Function.update_of_ne, h.data i σ hi hne hσ hz]
    intro he
    exact hne (h.owned.once hi' hip' (by rw [hk]; exact hz) (hk.trans he)).1
  · have hmk := (hmap k hk).2
    unfold Mapped at hmk ⊢
    rw [store_addr h.sound hip' hsl h0 hw hip']
    exact hmk
  · obtain ⟨hkm, hmk⟩ := hmap k hk
    rw [fileByte_store h.sound hip' h0 hw hmk hbn hkm]
    exact hbyte k hk

/-- **A piece is copied**, and logged. -/
theorem Tracked.store (h : Tracked sb s₀ s ip off₀ off e src) (hl : Layout sb)
    (hip : Live sb s₀.ino ip)
    {m : Nat} {l : List UInt8} (h0 : (slotOf (off / BSIZE)).addr s.view (s.ino ip) ≠ 0)
    (hm : off % BSIZE + m ≤ BSIZE) (hpos : 0 < m) (hlen : l.length = m) (hle : off₀ ≤ off)
    (hmax : off + m ≤ MAXFILE * BSIZE) (hsize : (s₀.ino ip).size ≤ MAXFILE * BSIZE)
    (hsrc : ∀ k, k < m → l.getD k 0 = src (off - off₀ + k))
    (hw : Wrote s s' (Function.update s.view ((slotOf (off / BSIZE)).addr s.view (s.ino ip))
      (blit (s.view ((slotOf (off / BSIZE)).addr s.view (s.ino ip))) (off % BSIZE) l)) s.ino
      [(slotOf (off / BSIZE)).addr s.view (s.ino ip)])
    (hh : s'.held = []) : Tracked sb s₀ s' ip off₀ (off + m) e src := by
  have hB : BSIZE = 1024 := rfl
  have hM : MAXFILE = 268 := rfl
  rw [hM, hB] at hmax hsize
  have hip' := (h.live ip).mpr hip
  have hsl := slotOf_ne_indirect (off / BSIZE)
  have haddr : ∀ τ : Mkfs.Slot, τ.addr s'.view (s'.ino ip) = τ.addr s.view (s.ino ip) :=
    fun τ => store_addr h.sound hip' hsl h0 hw hip' τ
  have hd := h.owned.addr_data hip' h0
  have hbm : off / BSIZE < MAXFILE := by
    rw [hB, hM]
    omega
  have hfree : freeList sb s'.view = freeList sb s.view := by
    refine List.filter_congr fun b hb => ?_
    rw [decide_eq_decide, used_congr (fun c hc => ?_) (List.mem_range.mp hb)]
    rw [hw.view]
    exact Function.update_of_ne (fun he => hl.not_bitmap hd (by rw [he] at hc; exact hc)) _ _
  have hmap : ∀ k, k < (s₀.ino ip).size ∨ k < off + m → k / BSIZE < MAXFILE ∧ Mapped s.view
    (s.ino ip) k := by
    intro k hk
    refine ⟨by rw [hB, hM]; omega, ?_⟩
    by_cases hko : k < (s₀.ino ip).size ∨ k < off
    · exact h.mapped k hko
    · -- a byte that is written now
      unfold Mapped
      rwa [show k / BSIZE = off / BSIZE by rw [hB] at hm ⊢; omega]
  -- the bytes of this block are the new ones where it was written, and the old ones elsewhere
  have hbyte : ∀ k, k < (s₀.ino ip).size ∨ k < off + m →
      (if k / BSIZE = off / BSIZE then
        blit (s.view ((slotOf (off / BSIZE)).addr s.view (s.ino ip))) (off % BSIZE) l (k % BSIZE)
        else fileByte s.view (s.ino ip) k) =
        if off₀ ≤ k ∧ k < off + m then src (k - off₀) else fileByte s₀.view (s₀.ino ip) k := by
    intro k hk
    by_cases hin : off ≤ k ∧ k < off + m
    · have hdiv : k / BSIZE = off / BSIZE := by
        rw [hB] at hm ⊢
        omega
      have hmod : k % BSIZE = off % BSIZE + (k - off) := by
        rw [hB] at hm hdiv ⊢
        omega
      rw [if_pos hdiv, if_pos ⟨by omega, hin.2⟩, hmod, Bytes.blit_of_in _ (by omega),
        hsrc _ (by omega),
        show off - off₀ + (k - off) = k - off₀ by omega]
    · have hold : (if k / BSIZE = off / BSIZE then
          blit (s.view ((slotOf (off / BSIZE)).addr s.view (s.ino ip))) (off % BSIZE) l (k % BSIZE)
          else fileByte s.view (s.ino ip) k) = fileByte s.view (s.ino ip) k := by
        split
        next hdiv =>
          rw [Bytes.blit_of_out _ (by rw [hB] at hm hdiv ⊢; omega)]
          unfold fileByte
          rw [hdiv]
        next => rfl
      have hko : k < (s₀.ino ip).size ∨ k < off := by omega
      rw [hold, h.byte k hko]
      by_cases hkk : off₀ ≤ k ∧ k < off
      · rw [if_pos hkk, if_pos ⟨hkk.1, by omega⟩]
      · rw [if_neg hkk, if_neg (by omega)]
  refine
    { toWritten := h.toWritten.touch hl hip hbm h0 hw hh hmap hbyte
      log := fun b hb => ?_
      own := fun bn' hlt hz hk => ?_
      only := fun bn' he' hlt hz => ?_
      count := fun fb he' hlt hfb => ?_ }
  · rcases (hw.lh b).mp hb with hb | hb
    · rcases h.log b hb with hb | hb | ⟨k, hk, hko, rfl⟩
      · exact .inl hb
      · exact .inr (.inl hb)
      · exact .inr (.inr ⟨k, hk, by omega, (haddr _).symm⟩)
    · exact .inr (.inr ⟨off, hle, by omega, (List.mem_singleton.mp hb).trans (haddr _).symm⟩)
  · have hk' := h.keep ip _ hip hz
    rw [hw.view, Function.update_of_ne, h.own bn' hlt hz fun k h1 h2 => hk k h1 (by omega)]
    intro he
    have hsame := (h.owned.once hip' hip' (by rw [hk']; exact hz) (hk'.trans he)).2
    exact hk off hle (by omega) (slotOf_inj hlt hbm hsame).symm
  · rw [haddr]
    exact h.only bn' he' hlt hz
  · rw [hfree]
    exact h.count fb he' hlt hfb

/-! ## The loop -/

/-- After reading a block, storing to its buffer, and letting it go without `log_write`. -/
def Fs.smear (pick : Nat → Option Nat) (s : Fs) (a : Nat) (f : Block → Block) : Fs :=
  Fs.drop { s.load pick a with
    cache := Function.update (s.load pick a).cache a (((s.load pick a).cache a).map f) } a

variable {mem : Mem} {user_src : Bool} {addr n : Nat}

/-- The bytes of the source. -/
def srcByte (mem : Mem) (user_src : Bool) (addr k : Nat) : UInt8 :=
  (byteAt mem user_src (addr + k)).getD 0

/-- The length of the piece at `tot`. -/
def piece (off₀ n tot : Nat) : Nat := min (n - tot) (BSIZE - (off₀ + tot) % BSIZE)

/-- There is no block for the piece at `tot`: it was missing, and the free blocks are used up. -/
structure Filled (sb : Superblock) (s₀ : Fs) (ip off₀ n tot : Nat) : Prop where
  lt : tot < n
  empty : (slotOf ((off₀ + tot) / BSIZE)).addr s₀.view (s₀.ino ip) = 0
  count : ∀ fb, (off₀ + tot) / BSIZE < fb → fb < MAXFILE →
    (slotOf fb).addr s₀.view (s₀.ino ip) ≠ 0 →
    missing s₀.view (s₀.ino ip) (off₀ / BSIZE) ((off₀ + tot) / BSIZE) = (freeList sb s₀.view).length

/-- The piece at `tot` goes to block `a`, and only its first bytes `l` could be read. -/
structure Fault (sb : Superblock) (mem : Mem) (user_src : Bool) (addr n : Nat) (s₀ : Fs)
    (ip off₀ tot : Nat)
    (s₁ : Fs) (a : Nat) (l : List UInt8) : Prop where
  lt : tot < n
  start : tot = 0 ∨ (off₀ + tot) % BSIZE = 0
  written : Tracked sb s₀ s₁ ip off₀ (off₀ + tot) ((off₀ + tot) / BSIZE + 1)
    (srcByte mem user_src addr)
  slot : (slotOf ((off₀ + tot) / BSIZE)).addr s₁.view (s₁.ino ip) = a
  ne_zero : a ≠ 0
  fresh : (slotOf ((off₀ + tot) / BSIZE)).addr s₀.view (s₀.ino ip) = 0 → s₁.view a =
    zeroes ∧ a ∈ s₁.lh
  copy : either_copyin mem user_src (addr + tot) (piece off₀ n tot) = (l, false)

/-- How the loop of `writei` ends, when `tot` bytes are written. -/
inductive Outcome (sb : Superblock) (pick : Nat → Option Nat) (mem : Mem)
    (user_src : Bool) (addr n : Nat)
    (s₀ : Fs) (ip off₀ tot : Nat) (s' : Fs) : Prop
  | all (htot : tot = n) (h : Written sb s₀ s' ip off₀ (off₀ + tot) (srcByte mem user_src addr))
  | full (hf : Filled sb s₀ ip off₀ n tot) (hfree : freeList sb s'.view = [])
      (h : Written sb s₀ s' ip off₀ (off₀ + tot) (srcByte mem user_src addr))
  | fault (s₁ : Fs) (a : Nat) (l : List UInt8)
    (hf : Fault sb mem user_src addr n s₀ ip off₀ tot s₁ a l)
      (hs : s' = s₁.smear pick a fun data => blit data ((off₀ + tot) % BSIZE) l)

/-- **The loop of `writei`**: by induction on its turns. -/
theorem writeFrom_outcome (hl : Layout sb) (hip : Live sb s₀.ino ip)
    (hmax : off₀ + n ≤ MAXFILE * BSIZE)
    (hsize : (s₀.ino ip).size ≤ MAXFILE * BSIZE) :
    ∀ fuel tot e (s : Fs), n - tot ≤ fuel → tot ≤ n →
      (tot < n → e = (off₀ + tot) / BSIZE ∧ (tot = 0 ∨ (off₀ + tot) % BSIZE = 0)) →
      (∀ k, k < tot → byteAt mem user_src (addr + k) ≠ none) →
      Tracked sb s₀ s ip off₀ (off₀ + tot) e (srcByte mem user_src addr) →
      wp (writeFrom sb pick mem ip user_src n fuel tot (off₀ + tot) (addr + tot)) (fun r s' =>
        r.2 = off₀ + r.1 ∧ r.1 ≤ n ∧ (∀ k, k < r.1 → byteAt mem user_src (addr + k) ≠ none) ∧
          Outcome sb pick mem user_src addr n s₀ ip off₀ r.1 s') E s := by
  have hB : BSIZE = 1024 := rfl
  have hM : MAXFILE = 268 := rfl
  intro fuel
  induction fuel with
  -- by induction on what is left to write; `e` is the first block that has not been looked at
  | zero =>
    intro tot e s hfuel htot _ hread hw
    exact ⟨rfl, htot, hread, .all (by omega) hw.toWritten⟩
  | succ fuel ih =>
    intro tot e s hfuel htot he hread hw
    unfold writeFrom
    rw [wp_ite]
    refine ⟨fun hlt => ?_, fun hge => ⟨rfl, htot, hread, .all (by omega) hw.toWritten⟩⟩
    obtain ⟨he, hstart⟩ := he hlt
    have hbn : (off₀ + tot) / BSIZE < MAXFILE := by
      rw [hM, hB] at hmax
      rw [hM, hB]
      omega
    have hlo : off₀ / BSIZE ≤ (off₀ + tot) / BSIZE := Nat.div_le_div_right (by omega)
    have hip' := (hw.live ip).mpr hip
    rw [wp_bind]
    refine (bmap_got (E := E) hl hw.sound hw.held hip' hbn).mono fun a s₁ h₁ => ?_
    obtain ⟨hgot, hh₁, hone⟩ := h₁
    have hw₁ := hw.got hip hgot hh₁ he hlo hbn hone
    rw [wp_ite]
    refine ⟨fun ha => ?_, fun ha => ?_⟩
    · -- `bmap` found no block: the disk is full
      subst ha
      obtain ⟨hz, hc⟩ := hw.full hip hgot he hone
      rw [if_pos rfl] at hw₁
      exact ⟨rfl, htot, hread, .full ⟨hlt, hz, hc⟩ (hgot.full rfl).2 hw₁.toWritten⟩
    · rw [if_neg ha] at hw₁
      have hslot := hgot.slot ha
      have hip₁ := (hw₁.live ip).mpr hip
      have hload := @Wrote.load _ pick hw₁.coherent a
      have hheld : (s₁.load pick a).held = [a] := by rw [(load_rest s₁ a).1, hh₁]
      rw [wp_bind]
      refine bread_load (by rw [hh₁]; exact List.not_mem_nil) ?_
      dsimp only
      rw [show min (n - tot) (BSIZE - (off₀ + tot) % BSIZE) = piece off₀ n tot from rfl]
      have hcop := either_copyin_copied mem user_src (addr + tot) (piece off₀ n tot)
      cases hr : either_copyin mem user_src (addr + tot) (piece off₀ n tot) with
      | mk l ok =>
        rw [hr] at hcop
        dsimp only
        rw [wp_bind]
        cases ok with
        -- the copy failed: the buffer may be changed, and is not logged
        | false =>
          have hfresh := fun h0 => hgot.fresh (hw.only _ (by rw [he]) hbn h0) ha
          exact ⟨rfl, htot, hread, .fault s₁ a l ⟨hlt, hstart, hw₁, hslot, ha, hfresh, hr⟩ rfl⟩
        -- the piece is in the block, and the loop goes on behind it
        | true =>
          have hlen : l.length = piece off₀ n tot := hcop.all rfl
          have hpos : 0 < piece off₀ n tot := by
            unfold piece
            rw [hB]
            omega
          rw [← wp_bind, if_neg (show ¬(true = false) from Bool.noConfusion)]
          refine logged_bind_wp (f := fun data => blit data ((off₀ + tot) % BSIZE) l) hload.coherent
            (by rw [hheld]; exact List.mem_singleton.mpr rfl) fun s₂ hw₂ hh₂ => ?_
          rw [hload.view, hload.ino] at hw₂
          rw [hheld, List.erase_cons_head] at hh₂
          have hst := hw₁.store hl hip (m := piece off₀ n tot) (l := l) (by rw [hslot]; exact ha)
            (by unfold piece; rw [hB]; omega) hpos hlen (Nat.le_add_right _ _)
            (by unfold piece; omega) hsize ?_ (by rw [hslot]; exact hload.trans hw₂) hh₂
          · have hnext := ih (tot + piece off₀ n tot) ((off₀ + tot) / BSIZE + 1) s₂
              (by omega) (by unfold piece; omega) ?_ ?_ (by rw [← Nat.add_assoc]; exact hst)
            · rw [← Nat.add_assoc, ← Nat.add_assoc] at hnext
              exact hnext
            · intro hlt'
              unfold piece at hlt' ⊢
              rw [hB] at hlt' ⊢
              omega
            · intro k hk
              by_cases hkt : k < tot
              · exact hread k hkt
              · have hb := hcop.bytes (k - tot) (by dsimp only; rw [hlen]; omega)
                rw [show addr + tot + (k - tot) = addr + k by omega] at hb
                rw [hb]
                exact Option.some_ne_none _
          · intro k hk
            have hb := hcop.bytes k (by rw [hlen]; exact hk)
            unfold srcByte
            rw [show off₀ + tot - off₀ + k = tot + k by omega, ← Nat.add_assoc]
            dsimp only at hb
            rw [hb, Option.getD_some]

end Xv6.Files
