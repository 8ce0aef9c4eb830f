import Mathlib.Data.List.Perm.Basic
import Xv6.Files.Alloc
import Xv6.Lib.Owner

/-!
# Who has which block

The places an address can be in are the slots of the inodes (`Mkfs.Slot`). `owner`
says which block a slot has, and `Owned` that the data blocks are divided between the
slots and the bitmap's free blocks, each of them once.

The division need not be that of the inodes at the time: while a file is freed, the
blocks go one by one, and its addresses last.
-/

namespace Xv6.Files

open Lib
open Lib.Owner (Split)
open Mkfs (Block Dinode Superblock zeroes nonzero BSIZE NDIRECT NINDIRECT MAXFILE BPB)

instance : DecidableEq Mkfs.Slot := fun σ τ =>
  decidable_of_iff (σ.pos = τ.pos) ⟨Mkfs.Slot.pos_inj, fun h => h ▸ rfl⟩

/-- The slot of the block `bn` of a file. -/
def slotOf (bn : Nat) : Mkfs.Slot :=
  if h : bn < NDIRECT then .direct ⟨bn, h⟩ else .entry
    ⟨(bn - NDIRECT) % NINDIRECT, Nat.mod_lt _ (by decide)⟩

theorem slotOf_pos {bn : Nat} (h : bn < MAXFILE) : (slotOf bn).pos = some bn := by
  have hM : MAXFILE = NDIRECT + NINDIRECT := rfl
  unfold slotOf
  split
  next => rfl
  next hd =>
    show some (NDIRECT + (bn - NDIRECT) % NINDIRECT) = some bn
    rw [Nat.mod_eq_of_lt (by omega), show NDIRECT + (bn - NDIRECT) = bn by omega]

theorem slotOf_inj {bn bn' : Nat} (h : bn < MAXFILE) (h' : bn' < MAXFILE)
    (he : slotOf bn = slotOf bn') :
    bn = bn' := by
  have hp := slotOf_pos h
  rw [he, slotOf_pos h'] at hp
  exact (Option.some.inj hp).symm

theorem slotOf_ne_indirect (bn : Nat) : slotOf bn ≠ .indirect := by
  unfold slotOf
  split <;> exact Mkfs.Slot.noConfusion

section Owned

variable {sb : Superblock}

/-- An inode that is in use. -/
def Live (sb : Superblock) (I : Nat → Dinode) (i : Nat) : Prop := i < sb.ninodes ∧ (I i).type ≠ 0

instance (I : Nat → Dinode) (i : Nat) : Decidable (Live sb I i) :=
  inferInstanceAs (Decidable (_ ∧ _))

/-- What the slot of an inode has. -/
def owner (sb : Superblock) (V : Nat → Block) (I : Nat → Dinode) (p : Nat × Mkfs.Slot) :
    Option Nat :=
  if Live sb I p.1 then nonzero (p.2.addr V (I p.1)) else none

def Data (sb : Superblock) (b : Nat) : Prop := nmeta sb ≤ b ∧ b < sb.size

instance (V : Nat → Block) (b : Nat) : Decidable (used sb V b) :=
  inferInstanceAs (Decidable (_ ≠ _))

def freeList (sb : Superblock) (V : Nat → Block) : List Nat :=
  (List.range sb.size).filter fun b => nmeta sb ≤ b ∧ ¬used sb V b

theorem mem_freeList {V : Nat → Block} {b : Nat} : b ∈ freeList sb V ↔ Data sb b ∧
    ¬used sb V b := by
  unfold freeList Data
  rw [List.mem_filter, List.mem_range, decide_eq_true_iff]
  constructor
  · exact fun h => ⟨⟨h.2.1, h.1⟩, h.2.2⟩
  · exact fun h => ⟨h.1.2, h.1.1, h.2⟩

theorem freeList_nodup (V : Nat → Block) : (freeList sb V).Nodup := List.nodup_range.filter _

structure Owned (sb : Superblock) (V : Nat → Block)
    (own : Nat × Mkfs.Slot → Option Nat) : Prop where
  split : Split (Data sb) (freeList sb V) own
  rest : ∀ b, b < nmeta sb → used sb V b

variable {V V' : Nat → Block} {I : Nat → Dinode} {own : Nat × Mkfs.Slot → Option Nat}
  {p : Nat × Mkfs.Slot} {a : Nat}

theorem Owned.data (h : Owned sb V own) (hp : own p = some a) : Data sb a := h.split.of_own hp

theorem Owned.used (h : Owned sb V own) (hp : own p = some a) : used sb V a := by
  by_contra hn
  exact h.split.apart hp (mem_freeList.mpr ⟨h.data hp, hn⟩)

theorem Owned.used_iff (h : Owned sb V own) {b : Nat} (hb : Data sb b) :
    Files.used sb V b ↔ ∃ p, own p = some b := by
  constructor
  · intro hu
    refine ((h.split.mem b).mp hb).resolve_left fun hm => ?_
    exact (mem_freeList.mp hm).2 hu
  · rintro ⟨p, hp⟩
    exact h.used hp

theorem Owned.free_data (h : Owned sb V own) {b : Nat} (hb : b < sb.size)
    (hn : ¬Files.used sb V b) :
    Data sb b := by
  refine ⟨?_, hb⟩
  by_contra hlt
  exact hn (h.rest b (by omega))

/-- A block of data is none of the bitmap. -/
theorem Layout.not_bitmap (hl : Layout sb) (ha : Data sb a) : ¬Bitmap sb a := by
  rintro ⟨b, hb, rfl⟩
  have := hl.bitmap b hb
  have := ha.1
  omega

/-- Nor is it one with inodes. -/
theorem Layout.not_inode (hl : Layout sb) (ha : Data sb a) {i : Nat} (hi : i < sb.ninodes) :
    IBLOCK sb i ≠ a := by
  have h1 := hl.inodes i hi
  have h2 := @bmapstart_le sb a
  have h3 := hl.bitmap a ha.2
  have h4 := ha.1
  omega

/-- Only the bitmap tells which blocks are free. -/
theorem Owned.view (h : Owned sb V own) (hv : ∀ c, Bitmap sb c → V' c = V c) :
    Owned sb V' own := by
  have hfree : freeList sb V' = freeList sb V := by
    refine List.filter_congr fun b hb => ?_
    rw [decide_eq_decide, used_congr hv (List.mem_range.mp hb)]
  refine ⟨by rw [hfree]; exact h.split, fun b hb => ?_⟩
  by_cases hs : b < sb.size
  · exact (used_congr hv hs).mpr (h.rest b hb)
  · exact absurd hb (by unfold nmeta; omega)

/-- What is not a free block, `balloc` leaves alone. -/
theorem take_of_ne {c : Nat} (hc : ¬Bitmap sb c) (hs : a < sb.size) (hne : c ≠ a) :
    Files.take sb V a c = V c := by
  unfold Files.take setBit
  rw [Function.update_of_ne hne, Function.update_of_ne fun he => hc ⟨a, hs, he⟩]

theorem take_self : Files.take sb V a a = zeroes := Function.update_self _ _ _

theorem used_take (hl : Layout sb) (ha : Data sb a) {b : Nat} (hb : b < sb.size) :
    Files.used sb (Files.take sb V a) b ↔ Files.used sb V b ∨ b = a := by
  rw [← used_setBit]
  refine used_congr (fun c hc => ?_) hb
  exact Function.update_of_ne (fun (he : c = a) => hl.not_bitmap ha (he ▸ hc)) _ _

theorem freeList_take (hl : Layout sb) (ha : Data sb a) (hn : ¬Files.used sb V a) :
    (freeList sb V).Perm (a :: freeList sb (Files.take sb V a)) := by
  refine (List.perm_ext_iff_of_nodup (freeList_nodup _) (List.nodup_cons.mpr
    ⟨fun hm => (mem_freeList.mp hm).2 ((used_take hl ha ha.2).mpr (.inr rfl)),
      freeList_nodup _⟩)).mpr
      fun b => ?_
  rw [List.mem_cons, mem_freeList, mem_freeList]
  constructor
  · rintro ⟨hb, hu⟩
    by_cases he : b = a
    · exact .inl he
    · exact .inr ⟨hb, fun hc => ((used_take hl ha hb.2).mp hc).elim hu he⟩
  · rintro (rfl | ⟨hb, hu⟩)
    · exact ⟨ha, hn⟩
    · exact ⟨hb, fun hc => hu ((used_take hl ha hb.2).mpr (.inl hc))⟩

/-- **A free block** gets an owner. -/
theorem Owned.take (h : Owned sb V own) (hl : Layout sb) (ha : a < sb.size)
    (hn : ¬Files.used sb V a) (hp : own p = none) :
    Owned sb (Files.take sb V a) (Function.update own p (some a)) := by
  have hd := h.free_data ha hn
  refine ⟨h.split.put hp (freeList_take hl hd hn), fun b hb => ?_⟩
  by_cases hs : b < sb.size
  · exact (used_take hl hd hs).mpr (.inl (h.rest b hb))
  · exact absurd hb (by unfold nmeta; omega)

theorem freeList_clearBit (ha : Data sb a) (hu : Files.used sb V a) :
    (freeList sb (clearBit sb V a)).Perm (a :: freeList sb V) := by
  refine (List.perm_ext_iff_of_nodup (freeList_nodup _) (List.nodup_cons.mpr
    ⟨fun hm => (mem_freeList.mp hm).2 hu, freeList_nodup _⟩)).mpr fun b => ?_
  rw [List.mem_cons, mem_freeList, mem_freeList, used_clearBit]
  constructor
  · rintro ⟨hb, hn⟩
    by_cases he : b = a
    · exact .inl he
    · exact .inr ⟨hb, fun hc => hn ⟨hc, he⟩⟩
  · rintro (rfl | ⟨hb, hn⟩)
    · exact ⟨ha, fun hc => hc.2 rfl⟩
    · exact ⟨hb, fun hc => hn hc.1⟩

/-- **An owner** gives its block back. -/
theorem Owned.give (h : Owned sb V own) (hp : own p = some a) :
    Owned sb (clearBit sb V a) (Function.update own p none) := by
  have hd := h.data hp
  refine ⟨h.split.give hp (freeList_clearBit hd (h.used hp)), fun b hb => ?_⟩
  rw [used_clearBit]
  exact ⟨h.rest b hb, fun he => by have := hd.1; omega⟩

/-! ## The owners are the slots -/

theorem owner_some {i : Nat} {σ : Mkfs.Slot} : owner sb V I (i, σ) = some a ↔
    Live sb I i ∧ σ.addr V (I i) = a ∧ a ≠ 0 := by
  unfold owner nonzero
  dsimp only
  by_cases hl : Live sb I i
  · rw [if_pos hl]
    by_cases h0 : σ.addr V (I i) = 0
    · rw [if_pos h0, h0]
      exact ⟨fun h => (by cases h), fun h => absurd h.2.1.symm h.2.2⟩
    · rw [if_neg h0, Option.some_inj]
      exact ⟨fun h => ⟨hl, h, h ▸ h0⟩, fun h => h.2.1⟩
  · rw [if_neg hl]
    exact ⟨fun h => (by cases h), fun h => absurd h.1 hl⟩

theorem owner_none {i : Nat} {σ : Mkfs.Slot} (hi : Live sb I i) :
    owner sb V I (i, σ) = none ↔ σ.addr V (I i) = 0 := by
  unfold owner nonzero
  dsimp only
  rw [if_pos hi]
  split
  next h0 => exact ⟨fun _ => h0, fun _ => rfl⟩
  next h0 => exact ⟨fun h => (by cases h), fun h => absurd h h0⟩

theorem Owned.addr_data (h : Owned sb V (owner sb V I)) {i : Nat} {σ : Mkfs.Slot} (hi : Live sb I i)
    (h0 : σ.addr V (I i) ≠ 0) : Data sb (σ.addr V (I i)) :=
  h.data (owner_some.mpr ⟨hi, rfl, h0⟩)

theorem Owned.once (h : Owned sb V (owner sb V I)) {i j : Nat} {σ τ : Mkfs.Slot} (hi : Live sb I i)
    (hj : Live sb I j) (h0 : σ.addr V (I i) ≠ 0) (he : σ.addr V (I i) = τ.addr V (I j)) :
    i = j ∧ σ = τ := by
  have hs := owner_some.mpr ⟨hi, rfl, h0⟩
  have ht : owner sb V I (j, τ) = some (σ.addr V (I i)) := owner_some.mpr ⟨hj, he.symm, h0⟩
  exact Prod.mk.inj (h.split.inj hs ht)

/-- One slot changes. -/
theorem owner_update {I' : Nat → Dinode} {ip : Nat} {σ : Mkfs.Slot} (hip : Live sb I' ip)
    (hlive : ∀ i, Live sb I' i ↔ Live sb I i)
    (hother : ∀ i τ, Live sb I i → (i, τ) ≠ (ip, σ) → τ.addr V' (I' i) = τ.addr V (I i)) :
    owner sb V' I' = Function.update (owner sb V I) (ip, σ) (nonzero (σ.addr V' (I' ip))) := by
  funext q
  obtain ⟨i, τ⟩ := q
  by_cases hq : (i, τ) = (ip, σ)
  · rw [hq, Function.update_self]
    exact if_pos hip
  · rw [Function.update_of_ne hq]
    unfold owner
    dsimp only
    by_cases hi : Live sb I i
    · rw [if_pos ((hlive i).mpr hi), if_pos hi, hother i τ hi hq]
    · rw [if_neg fun h => hi ((hlive i).mp h), if_neg hi]

/-- The slots of an inode depend on its addresses, and on the block for addresses. -/
theorem addr_congr {d d' : Dinode} (σ : Mkfs.Slot) (hd : ∀ i, i ≤ NDIRECT → d'.addrs i = d.addrs i)
    (hv : d.addrs NDIRECT ≠ 0 → V' (d.addrs NDIRECT) = V (d.addrs NDIRECT)) :
    σ.addr V' d' = σ.addr V d := by
  cases σ with
  | direct i => exact hd i (Nat.le_of_lt i.isLt)
  | indirect => exact hd NDIRECT le_rfl
  | entry j =>
    show (if d'.addrs NDIRECT = 0 then 0 else _) = if d.addrs NDIRECT = 0 then 0 else _
    rw [hd NDIRECT le_rfl]
    split
    next => rfl
    next h0 => rw [hv h0]

end Owned

end Xv6.Files
