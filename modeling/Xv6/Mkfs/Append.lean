import Mathlib.Data.List.GetD
import Xv6.Mkfs.Inode

/-!
# `iappend`

The blocks of a file are in a list `B`, in the order of the file; `ind` is the block
with the addresses from `NDIRECT` on, or 0 when there is none. `Mapped` says that the
inode has these addresses, `Stored` that the blocks have the bytes of the file and
zeroes after them.

A turn of the loop puts the piece that fits into the block `off` is in, which is a
block of the file or the next free one (`blockOf_spec`), and so the file gets the
bytes of `p`:

  > `appendLoop_spec`: what the loop leaves is the file with `p` at its end, and only
  > blocks of the file, old and new ones, are written.
-/

namespace Xv6.Mkfs

open Lib
open Lib.Bytes (put get get_put get_put_ne get_congr)

/-- The blocks of a file, with the one for addresses. -/
def refs (B : List Nat) (ind : Nat) : List Nat := B ++ if ind = 0 then [] else [ind]

theorem mem_refs {B : List Nat} {ind b : Nat} : b ∈ refs B ind ↔ b ∈ B ∨ (ind ≠ 0 ∧ b = ind) := by
  unfold refs
  by_cases h : ind = 0 <;> simp [h]

/-- The addresses of the inode are `B` and `ind`. -/
structure Mapped (img : Nat → Block) (d : Dinode) (B : List Nat) (ind : Nat) : Prop where
  direct : ∀ i, i < NDIRECT → d.addrs i = B.getD i 0
  indirect : d.addrs NDIRECT = ind
  small : ind = 0 → B.length ≤ NDIRECT
  entries : ind ≠ 0 → ∀ j, j < NINDIRECT → get (img ind) (4 * j) 4 = B.getD (NDIRECT + j) 0
  length : B.length ≤ MAXFILE

/-- The file has its blocks for itself. -/
structure Owns (freeblock : Nat) (B : List Nat) (ind : Nat) : Prop where
  nodup : (refs B ind).Nodup
  data : ∀ b, b ∈ refs B ind → nmeta ≤ b ∧ b < freeblock

/-- The blocks have the bytes `c`, and zeroes after them. -/
def Stored (img : Nat → Block) (B : List Nat) (c : List UInt8) : Prop :=
  ∀ k, k < BSIZE * B.length → img (B.getD (k / BSIZE) 0) (k % BSIZE) = c.getD k 0

/-- Nothing was written to the free blocks yet. -/
def Fresh (m : Mk) : Prop := ∀ b, m.freeblock ≤ b → m.img b = zeroes

/-- From one list of blocks to a longer one: the new blocks are the first free ones, and
no other block is written. -/
structure Grows (m m' : Mk) (B : List Nat) (ind : Nat) (B' : List Nat) (ind' : Nat) : Prop where
  freeinode : m'.freeinode = m.freeinode
  le : m.freeblock ≤ m'.freeblock
  mem : ∀ b, b ∈ refs B' ind' ↔ b ∈ refs B ind ∨ (m.freeblock ≤ b ∧ b < m'.freeblock)
  nodup : (refs B' ind').Nodup
  keep : ∀ b, b ∉ refs B' ind' → m'.img b = m.img b

section Grows

variable {m m' m'' : Mk} {B B' B'' : List Nat} {ind ind' ind'' : Nat}

theorem Grows.trans (h : Grows m m' B ind B' ind') (h' : Grows m' m'' B' ind' B'' ind'') :
    Grows m m'' B ind B'' ind'' := by
  have hmem : ∀ b, b ∈ refs B'' ind'' ↔ b ∈ refs B ind ∨ (m.freeblock ≤ b ∧ b < m''.freeblock) := by
    intro b
    have h1 := h.le
    have h2 := h'.le
    rw [h'.mem b, h.mem b, or_assoc]
    refine or_congr_right ?_
    omega
  refine ⟨h'.freeinode.trans h.freeinode, h.le.trans h'.le, hmem, h'.nodup, fun b hb => ?_⟩
  have hb' : b ∉ refs B' ind' := fun hn => hb ((h'.mem b).mpr (.inl hn))
  rw [h'.keep b hb, h.keep b hb']

theorem Grows.owns (h : Grows m m' B ind B' ind') (ho : Owns m.freeblock B ind)
    (hn : nmeta ≤ m.freeblock) : Owns m'.freeblock B' ind' := by
  refine ⟨h.nodup, fun b hb => ?_⟩
  have hle := h.le
  rcases (h.mem b).mp hb with hold | hnew
  · have hb := ho.data b hold
    omega
  · omega

theorem Grows.fresh (h : Grows m m' B ind B' ind') (ho : Owns m.freeblock B ind) (hf : Fresh m) :
    Fresh m' := by
  intro b hb
  have hle := h.le
  have hout : b ∉ refs B' ind' := by
    intro hmem
    rcases (h.mem b).mp hmem with hold | hnew
    · have hlt := (ho.data b hold).2
      omega
    · omega
  rw [h.keep b hout]
  exact hf b (by omega)

/-- A write to a block of the file. -/
theorem Grows.of_wsect (ho : (refs B ind).Nodup) {x : Nat} (hx : x ∈ refs B ind)
    (hlt : x < 2 ^ 22) (buf : Block) : Grows m (wsect m x buf) B ind B ind := by
  rw [wsect_eq hlt]
  refine ⟨rfl, le_rfl, fun b => ⟨.inl, fun h => h.resolve_right ?_⟩, ho, fun b hb => ?_⟩
  · show ¬ (m.freeblock ≤ b ∧ b < m.freeblock)
    omega
  · have hne : b ≠ x := fun heq => hb (heq ▸ hx)
    exact Function.update_of_ne hne _ _

end Grows

/-! ## The bytes of a file -/

theorem getD_mem {B : List Nat} {i : Nat} (h : i < B.length) : B.getD i 0 ∈ B := by
  rw [List.getD_eq_getElem _ _ h]
  exact List.getElem_mem h

theorem getD_inj {B : List Nat} (hn : B.Nodup) {i j : Nat} (hi : i < B.length) (hj : j < B.length)
    (h : B.getD i 0 = B.getD j 0) : i = j := by
  rw [List.getD_eq_getElem _ _ hi, List.getD_eq_getElem _ _ hj] at h
  exact (List.Nodup.getElem_inj_iff hn).mp h

theorem Stored.congr {img img' : Nat → Block} {B : List Nat} {c : List UInt8}
    (h : Stored img B c) (hk : ∀ b, b ∈ B → img' b = img b) : Stored img' B c := by
  intro k hlt
  have hB : BSIZE = 1024 := rfl
  rw [hk _ (getD_mem (Nat.div_lt_of_lt_mul hlt))]
  exact h k hlt

/-- A new block of zeroes at the end. -/
theorem Stored.concat {img : Nat → Block} {B : List Nat} {c : List UInt8} {x : Nat}
    (h : Stored img B c) (hx : img x = zeroes) (hc : c.length ≤ BSIZE * B.length) :
    Stored img (B ++ [x]) c := by
  intro k hk
  have hB : BSIZE = 1024 := rfl
  rw [List.length_append, List.length_singleton] at hk
  by_cases hlt : k < BSIZE * B.length
  · rw [List.getD_append _ _ _ _ (Nat.div_lt_of_lt_mul hlt)]
    exact h k hlt
  · have hdiv : k / BSIZE = B.length := by
      rw [hB] at hk hlt ⊢
      omega
    rw [hdiv, List.getD_append_right _ _ _ _ le_rfl, Nat.sub_self,
      List.getD_eq_default _ _ (by omega : c.length ≤ k)]
    show img x _ = 0
    rw [hx]
    rfl

/-- The bytes `q` are put into the block the file ends in. -/
theorem Stored.blit {img : Nat → Block} {B : List Nat} {c q : List UInt8}
    (h : Stored img B c) (hn : B.Nodup) {fbn : Nat} (hfbn : fbn = c.length / BSIZE)
    (hlt : fbn < B.length) (hq : c.length + q.length ≤ (fbn + 1) * BSIZE) :
    Stored (Function.update img (B.getD fbn 0)
      (Bytes.blit (img (B.getD fbn 0)) (c.length - fbn * BSIZE) q)) B (c ++ q) := by
  have hB : BSIZE = 1024 := rfl
  intro k hk
  have hkB : k / BSIZE < B.length := Nat.div_lt_of_lt_mul hk
  have hold := h k hk
  rw [hB] at hfbn hq hkB hold ⊢
  by_cases hkf : k / 1024 = fbn
  · rw [hkf] at hold ⊢
    rw [Function.update_self]
    by_cases hin : c.length ≤ k ∧ k < c.length + q.length
    · have hoff : k % 1024 = c.length - fbn * 1024 + (k - c.length) := by omega
      rw [hoff, Bytes.blit_of_in _ (by omega), List.getD_append_right _ _ _ _ hin.1]
    · rw [Bytes.blit_of_out _ (by omega), hold]
      rcases Nat.lt_or_ge k c.length with hc | hc
      · rw [List.getD_append _ _ _ _ hc]
      · rw [List.getD_eq_default _ _ hc,
          List.getD_eq_default _ _ (by rw [List.length_append]; omega)]
  · have hne : B.getD (k / 1024) 0 ≠ B.getD fbn 0 := fun heq => hkf (getD_inj hn hkB hlt heq)
    rw [Function.update_of_ne hne, hold]
    rcases Nat.lt_or_ge k c.length with hc | hc
    · rw [List.getD_append _ _ _ _ hc]
    · rw [List.getD_eq_default _ _ hc,
        List.getD_eq_default _ _ (by rw [List.length_append]; omega)]

/-! ## The block of a turn -/

/-- The addresses are those of the same file, with new blocks of zeroes at its end. -/
structure Extends (m : Mk) (d : Dinode) (B : List Nat) (ind : Nat)
    (m' : Mk) (d' : Dinode) (B' : List Nat) (ind' : Nat) : Prop where
  mapped : Mapped m'.img d' B' ind'
  grows : Grows m m' B ind B' ind'
  rest : ∃ a, d' = { d with addrs := a }
  len : B.length ≤ B'.length
  stored : ∀ c, Stored m.img B c → c.length ≤ BSIZE * B.length → Stored m'.img B' c

theorem Extends.trans {m m' m'' : Mk} {d d' d'' : Dinode} {B B' B'' : List Nat}
    {ind ind' ind'' : Nat}
    (h : Extends m d B ind m' d' B' ind') (h' : Extends m' d' B' ind' m'' d'' B'' ind'') :
    Extends m d B ind m'' d'' B'' ind'' := by
  obtain ⟨a, ha⟩ := h.rest
  obtain ⟨a', ha'⟩ := h'.rest
  refine ⟨h'.mapped, h.grows.trans h'.grows, ⟨a', ?_⟩, h.len.trans h'.len, fun c hs hc => ?_⟩
  · rw [ha', ha]
  · exact h'.stored c (h.stored c hs hc) (hc.trans (Nat.mul_le_mul_left _ h.len))

section Turn

variable {m : Mk} {d : Dinode} {B : List Nat} {ind : Nat}

theorem Extends.refl (hm : Mapped m.img d B ind) (ho : Owns m.freeblock B ind) :
    Extends m d B ind m d B ind := by
  refine ⟨hm, ⟨rfl, le_rfl, fun b => ⟨.inl, fun h => h.resolve_right ?_⟩, ho.nodup, fun _ _ => rfl⟩,
    ⟨d.addrs, rfl⟩, le_rfl, fun _ h _ => h⟩
  omega

/-- Only the block for addresses and the addresses matter. -/
theorem Mapped.congr {img : Nat → Block} {d' : Dinode} (hm : Mapped m.img d B ind)
    (hi : ind ≠ 0 → img ind = m.img ind) (ha : ∀ i, i ≤ NDIRECT → d'.addrs i = d.addrs i) :
    Mapped img d' B ind := by
  refine ⟨fun i h => ?_, ?_, hm.small, fun h0 j hj => ?_, hm.length⟩
  · rw [ha i h.le, hm.direct i h]
  · rw [ha _ le_rfl, hm.indirect]
  · rw [hi h0, hm.entries h0 j hj]

theorem Owns.ne_zero (ho : Owns m.freeblock B ind) {i : Nat} (hi : i < B.length) :
    B.getD i 0 ≠ 0 := by
  have hpos : nmeta ≤ B.getD i 0 := (ho.data _ (mem_refs.mpr (.inl (getD_mem hi)))).1
  have h47 : nmeta = 47 := rfl
  omega

theorem Owns.nodup_data (ho : Owns m.freeblock B ind) : B.Nodup :=
  (List.nodup_append.mp ho.nodup).1

theorem Owns.ind_not_mem (ho : Owns m.freeblock B ind) (h0 : ind ≠ 0) : ind ∉ B := by
  intro hmem
  have hn := ho.nodup
  unfold refs at hn
  rw [if_neg h0] at hn
  exact (List.nodup_append.mp hn).2.2 ind hmem ind (List.mem_singleton.mpr rfl) rfl

theorem Owns.free_not_mem (ho : Owns m.freeblock B ind) : m.freeblock ∉ refs B ind := by
  intro hmem
  have hlt := (ho.data _ hmem).2
  omega

theorem mem_refs_concat {x b : Nat} : b ∈ refs (B ++ [x]) ind ↔ b ∈ refs B ind ∨ b = x := by
  rw [mem_refs, mem_refs, List.mem_append, List.mem_singleton]
  tauto

theorem Owns.nodup_concat (ho : Owns m.freeblock B ind) :
    (refs (B ++ [m.freeblock]) ind).Nodup := by
  have hperm : (refs (B ++ [m.freeblock]) ind).Perm (m.freeblock :: refs B ind) := by
    unfold refs
    rw [List.append_assoc, List.singleton_append]
    exact List.perm_middle
  exact hperm.nodup_iff.mpr (List.nodup_cons.mpr ⟨ho.free_not_mem, ho.nodup⟩)

/-- The next block of the file is the first free one, in the inode. -/
theorem extends_direct (hm : Mapped m.img d B ind) (ho : Owns m.freeblock B ind) (hf : Fresh m)
    (hlt : B.length < NDIRECT) :
    Extends m d B ind { m with freeblock := m.freeblock + 1 }
      { d with addrs := Function.update d.addrs B.length m.freeblock }
      (B ++ [m.freeblock]) ind := by
  refine ⟨⟨fun i hi => ?_, ?_, fun _ => ?_, fun h0 j hj => ?_, ?_⟩,
    ⟨rfl, Nat.le_succ _, fun b => ?_, ho.nodup_concat, fun _ _ => rfl⟩, ⟨_, rfl⟩, ?_,
    fun c hs hc => ?_⟩
  · show Function.update d.addrs B.length m.freeblock i = _
    by_cases hib : i = B.length
    · rw [hib, Function.update_self, List.getD_append_right _ _ _ _ le_rfl, Nat.sub_self]
      rfl
    · rw [Function.update_of_ne hib, hm.direct i hi]
      rcases Nat.lt_or_ge i B.length with hl | hl
      · rw [List.getD_append _ _ _ _ hl]
      · rw [List.getD_eq_default _ _ hl,
          List.getD_eq_default _ _ (by rw [List.length_append, List.length_singleton]; omega)]
  · show Function.update d.addrs B.length m.freeblock NDIRECT = ind
    rw [Function.update_of_ne (by omega), hm.indirect]
  · rw [List.length_append, List.length_singleton]
    omega
  · show get (m.img ind) (4 * j) 4 = _
    rw [hm.entries h0 j hj, List.getD_eq_default _ _ (by omega), List.getD_eq_default _ _
      (by rw [List.length_append, List.length_singleton]; omega)]
  · have h268 : MAXFILE = NDIRECT + 256 := rfl
    rw [List.length_append, List.length_singleton]
    omega
  · show b ∈ refs (B ++ [m.freeblock]) ind ↔ b ∈ refs B ind ∨
      (m.freeblock ≤ b ∧ b < m.freeblock + 1)
    rw [mem_refs_concat]
    refine or_congr_right ?_
    omega
  · rw [List.length_append]
    exact Nat.le_add_right _ _
  · exact hs.concat (hf _ le_rfl) hc

/-- The block for addresses is the first free one. -/
theorem extends_indirect (hm : Mapped m.img d B ind) (ho : Owns m.freeblock B ind) (hf : Fresh m)
    (hn : nmeta ≤ m.freeblock) (hlen : B.length = NDIRECT) (hind : ind = 0) :
    Extends m d B ind { m with freeblock := m.freeblock + 1 }
      { d with addrs := Function.update d.addrs NDIRECT m.freeblock } B m.freeblock := by
  have h47 : nmeta = 47 := rfl
  have h0 : m.freeblock ≠ 0 := by omega
  have hnew : m.freeblock ∉ B := fun hmem => ho.free_not_mem (mem_refs.mpr (.inl hmem))
  refine ⟨⟨fun i hi => ?_, ?_, fun hz => absurd hz h0, fun _ j _ => ?_, hm.length⟩,
    ⟨rfl, Nat.le_succ _, fun b => ?_, ?_, fun _ _ => rfl⟩, ⟨_, rfl⟩, le_rfl, fun c hs hc => hs⟩
  · show Function.update d.addrs NDIRECT m.freeblock i = _
    rw [Function.update_of_ne (by omega), hm.direct i hi]
  · show Function.update d.addrs NDIRECT m.freeblock NDIRECT = _
    rw [Function.update_self]
  · rw [List.getD_eq_default _ _ (by omega : B.length ≤ NDIRECT + j)]
    show get (m.img m.freeblock) (4 * j) 4 = 0
    rw [hf _ le_rfl]
    exact Bytes.get_zero fun _ _ => rfl
  · show b ∈ refs B m.freeblock ↔ b ∈ refs B ind ∨ (m.freeblock ≤ b ∧ b < m.freeblock + 1)
    rw [mem_refs, mem_refs]
    constructor
    · rintro (h | ⟨-, h⟩)
      · exact .inl (.inl h)
      · exact .inr ⟨h.ge, by omega⟩
    · rintro ((h | ⟨h, -⟩) | h)
      · exact .inl h
      · exact absurd hind h
      · exact .inr ⟨h0, by omega⟩
  · unfold refs
    rw [if_neg h0]
    exact List.nodup_append.mpr ⟨ho.nodup_data, List.nodup_singleton _, fun a ha b hb =>
      fun heq => hnew (List.mem_singleton.mp hb ▸ heq ▸ ha)⟩

/-- The next block of the file is the first free one, in the block for addresses. -/
theorem extends_entry (hm : Mapped m.img d B ind) (ho : Owns m.freeblock B ind) (hf : Fresh m)
    (hge : NDIRECT ≤ B.length) (hmax : B.length < MAXFILE) (h0 : ind ≠ 0)
    (hF : m.freeblock < 2 ^ 22) :
    Extends m d B ind
      (wsect { m with freeblock := m.freeblock + 1 } ind
        (put (m.img ind) (4 * (B.length - NDIRECT)) 4 m.freeblock)) d (B ++ [m.freeblock]) ind := by
  have hNM : MAXFILE = NDIRECT + NINDIRECT := rfl
  have hind : ind ∈ refs B ind := mem_refs.mpr (.inr ⟨h0, rfl⟩)
  have hlt : ind < m.freeblock := (ho.data ind hind).2
  have hindB : ind ∉ B := ho.ind_not_mem h0
  rw [wsect_eq (by omega)]
  refine ⟨⟨fun i hi => ?_, hm.indirect, fun hz => absurd hz h0, fun _ j hj => ?_, ?_⟩,
    ⟨rfl, Nat.le_succ _, fun b => ?_, ho.nodup_concat, fun b hb => ?_⟩, ⟨d.addrs, rfl⟩, ?_,
    fun c hs hc => ?_⟩
  · rw [hm.direct i hi, List.getD_append _ _ _ _ (by omega)]
  · show get (Function.update m.img ind _ ind) (4 * j) 4 = _
    rw [Function.update_self]
    rcases Nat.lt_trichotomy (NDIRECT + j) B.length with hl | hl | hl
    · rw [get_put_ne _ (by omega), hm.entries h0 j hj, List.getD_append _ _ _ _ hl]
    · have hj' : j = B.length - NDIRECT := by omega
      rw [hj', get_put _ _ _ (by omega), ← hj', hl, List.getD_append_right _ _ _ _ le_rfl,
        Nat.sub_self]
      rfl
    · rw [get_put_ne _ (by omega), hm.entries h0 j hj, List.getD_eq_default _ _ hl.le,
        List.getD_eq_default _ _ (by rw [List.length_append, List.length_singleton]; omega)]
  · rw [List.length_append, List.length_singleton]
    omega
  · show b ∈ refs (B ++ [m.freeblock]) ind ↔ b ∈ refs B ind ∨
      (m.freeblock ≤ b ∧ b < m.freeblock + 1)
    rw [mem_refs_concat]
    refine or_congr_right ?_
    omega
  · have hne : b ≠ ind := fun heq => hb (mem_refs_concat.mpr (.inl (heq ▸ hind)))
    exact Function.update_of_ne hne _ _
  · rw [List.length_append]
    exact Nat.le_add_right _ _
  · have hs' : Stored (Function.update m.img ind
        (put (m.img ind) (4 * (B.length - NDIRECT)) 4 m.freeblock)) B c := by
      refine hs.congr fun b hb => ?_
      have hne : b ≠ ind := fun heq => hindB (heq ▸ hb)
      exact Function.update_of_ne hne _ _
    refine hs'.concat ?_ hc
    rw [Function.update_of_ne (by omega)]
    exact hf _ le_rfl

/-- `if(indirect[fbn - NDIRECT] == 0)` and what is under it. -/
def entryBlock (m : Mk) (d : Dinode) (fbn : Nat) (indirect : Block) : Mk × Dinode × Nat :=
  let o := 4 * (fbn - NDIRECT)
  if get indirect o 4 = 0 then
    let indirect := put indirect o 4 m.freeblock
    (wsect { m with freeblock := m.freeblock + 1 } (d.addrs NDIRECT) indirect, d, get indirect o 4)
  else (m, d, get indirect o 4)

theorem blockOf_of_ge {fbn : Nat} (hge : NDIRECT ≤ fbn) :
    blockOf m d fbn = (rsect (addr m d NDIRECT).1 ((addr m d NDIRECT).2.addrs NDIRECT)).map
      (entryBlock (addr m d NDIRECT).1 (addr m d NDIRECT).2 fbn) := by
  unfold blockOf
  rw [if_neg (by omega)]
  rfl

/-- The block for addresses is there, or is made. -/
theorem addr_indirect (hm : Mapped m.img d B ind) (ho : Owns m.freeblock B ind) (hf : Fresh m)
    (hn : nmeta ≤ m.freeblock) (hge : NDIRECT ≤ B.length) :
    ∃ ind', Extends m d B ind (addr m d NDIRECT).1 (addr m d NDIRECT).2 B ind' ∧ ind' ≠ 0 ∧
      (addr m d NDIRECT).1.freeblock ≤ max (ind' + 1) m.freeblock ∧ ind' ≤ m.freeblock := by
  unfold addr
  rw [hm.indirect]
  by_cases h0 : ind = 0
  · rw [if_pos h0]
    have hlen : B.length = NDIRECT := Nat.le_antisymm (hm.small h0) hge
    have h47 : nmeta = 47 := rfl
    exact ⟨m.freeblock, extends_indirect hm ho hf hn hlen h0, by omega, le_max_left _ _, le_rfl⟩
  · rw [if_neg h0]
    have hlt := (ho.data ind (mem_refs.mpr (.inr ⟨h0, rfl⟩))).2
    exact ⟨ind, .refl hm ho, h0, le_max_right _ _, hlt.le⟩

/-- What a turn of the loop has after `x` was found. -/
structure Found (m : Mk) (d : Dinode) (B : List Nat) (ind fbn : Nat) (r : Mk × Dinode × Nat)
    (B' : List Nat) (ind' : Nat) : Prop where
  ext : Extends m d B ind r.1 r.2.1 B' ind'
  length : B'.length = max B.length (fbn + 1)
  block : r.2.2 = B'.getD fbn 0
  free : r.1.freeblock ≤ max (r.2.2 + 1) FSSIZE
  hi : r.1.freeblock ≤ FSSIZE + 1

theorem length_concat (B : List Nat) (x : Nat) :
    (B ++ [x]).length = max B.length (B.length + 1) := by
  rw [List.length_append, List.length_singleton]
  omega

theorem getD_concat (B : List Nat) (x : Nat) : (B ++ [x]).getD B.length 0 = x := by
  rw [List.getD_append_right _ _ _ _ le_rfl, Nat.sub_self]
  rfl

theorem addr_direct (hm : Mapped m.img d B ind) (ho : Owns m.freeblock B ind) (hf : Fresh m)
    (hF : m.freeblock ≤ FSSIZE) {fbn : Nat} (hle : fbn ≤ B.length) (hdir : fbn < NDIRECT) :
    ∃ B', Found m d B ind fbn
      ((addr m d fbn).1, (addr m d fbn).2, (addr m d fbn).2.addrs fbn) B' ind := by
  unfold addr
  by_cases hold : fbn < B.length
  · rw [hm.direct fbn hdir, if_neg (ho.ne_zero hold)]
    refine ⟨B, .refl hm ho, ?_, hm.direct fbn hdir, le_max_of_le_right hF,
      hF.trans (Nat.le_succ _)⟩
    omega
  · have hfbn : fbn = B.length := by omega
    rw [hm.direct fbn hdir, if_pos (List.getD_eq_default _ _ (by omega)), hfbn]
    have hx : Function.update d.addrs B.length m.freeblock B.length = m.freeblock :=
      Function.update_self _ _ _
    refine ⟨_, extends_direct hm ho hf (by omega), length_concat _ _, ?_, ?_, Nat.succ_le_succ hF⟩
    · exact hx.trans (getD_concat B m.freeblock).symm
    · show m.freeblock + 1 ≤ max (Function.update d.addrs B.length m.freeblock B.length + 1) FSSIZE
      rw [hx]
      exact le_max_left _ _

theorem entryBlock_spec (hm : Mapped m.img d B ind) (ho : Owns m.freeblock B ind) (hf : Fresh m)
    (hF : m.freeblock ≤ FSSIZE) (h0 : ind ≠ 0) {fbn : Nat} (hle : fbn ≤ B.length)
    (hge : NDIRECT ≤ fbn) (hmax : fbn < MAXFILE) :
    ∃ B', Found m d B ind fbn (entryBlock m d fbn (m.img ind)) B' ind := by
  have hNM : MAXFILE = NDIRECT + NINDIRECT := rfl
  have hF2 : FSSIZE = 2000 := rfl
  have hentry : get (m.img ind) (4 * (fbn - NDIRECT)) 4 = B.getD fbn 0 := by
    rw [hm.entries h0 _ (by omega), show NDIRECT + (fbn - NDIRECT) = fbn by omega]
  unfold entryBlock
  dsimp only
  rw [hentry, hm.indirect]
  by_cases hold : fbn < B.length
  · rw [if_neg (ho.ne_zero hold)]
    refine ⟨B, .refl hm ho, ?_, rfl, le_max_of_le_right hF, hF.trans (Nat.le_succ _)⟩
    omega
  · have hfbn : fbn = B.length := by omega
    rw [if_pos (List.getD_eq_default _ _ (by omega)), hfbn]
    have hx : get (put (m.img ind) (4 * (B.length - NDIRECT)) 4 m.freeblock)
        (4 * (B.length - NDIRECT)) 4 = m.freeblock := get_put _ _ _ (by omega)
    rw [hx]
    exact ⟨_, extends_entry hm ho hf (by omega) (by omega) h0 (by omega), length_concat _ _,
      (getD_concat B m.freeblock).symm, le_max_left _ _, Nat.succ_le_succ hF⟩

/-- **The block of a turn**: it is the block `fbn` of the file. -/
theorem blockOf_spec (hm : Mapped m.img d B ind) (ho : Owns m.freeblock B ind) (hf : Fresh m)
    (hn : nmeta ≤ m.freeblock) (hF : m.freeblock ≤ FSSIZE) {fbn : Nat} (hle : fbn ≤ B.length)
    (hmax : fbn < MAXFILE) {r : Mk × Dinode × Nat} (h : blockOf m d fbn = some r) :
    ∃ B' ind', Found m d B ind fbn r B' ind' := by
  have hF2 : FSSIZE = 2000 := rfl
  by_cases hdir : fbn < NDIRECT
  · unfold blockOf at h
    rw [if_pos hdir] at h
    cases h
    obtain ⟨B', hB'⟩ := addr_direct hm ho hf hF hle hdir
    exact ⟨B', ind, hB'⟩
  · obtain ⟨ind1, he, h0, hfree, hle1⟩ := addr_indirect hm ho hf hn (by omega)
    rw [blockOf_of_ge (by omega), he.mapped.indirect] at h
    generalize addr m d NDIRECT = r1 at h he hfree
    obtain ⟨m1, d1⟩ := r1
    dsimp only at h he hfree
    obtain ⟨buf, hr, rfl⟩ := Option.map_eq_some_iff.mp h
    obtain ⟨hind, rfl⟩ := rsect_some (by omega) hr
    have hF1 : m1.freeblock ≤ FSSIZE := by omega
    obtain ⟨B', hB'⟩ := entryBlock_spec he.mapped (he.grows.owns ho hn)
      (he.grows.fresh ho hf) hF1 h0
      hle (by omega) hmax
    exact ⟨B', ind1, he.trans hB'.ext, hB'.length, hB'.block, hB'.free, hB'.hi⟩

end Turn

/-! ## The loop -/

/-- The inode has the file `c`, in the blocks `B`. -/
structure Holds (img : Nat → Block) (d : Dinode) (c : List UInt8) (B : List Nat)
    (ind : Nat) : Prop where
  mapped : Mapped img d B ind
  size : d.size = c.length
  length : B.length = (c.length + (BSIZE - 1)) / BSIZE
  stored : Stored img B c

/-- What holds of the free blocks. -/
structure Room (m : Mk) : Prop where
  fresh : Fresh m
  lo : nmeta ≤ m.freeblock
  hi : m.freeblock ≤ FSSIZE

/-- The file is longer by `p`. -/
structure Appended (m : Mk) (d : Dinode) (c : List UInt8) (B : List Nat)
    (ind : Nat) (p : List UInt8)
    (r : Mk × Dinode) (B' : List Nat) (ind' : Nat) : Prop where
  holds : Holds r.1.img r.2 (c ++ p) B' ind'
  grows : Grows m r.1 B ind B' ind'
  hi : r.1.freeblock ≤ FSSIZE
  rest : ∃ a n, r.2 = { d with addrs := a, size := n }

theorem le_blocks {c : List UInt8} {B : List Nat}
    (h : B.length = (c.length + (BSIZE - 1)) / BSIZE) :
    c.length ≤ BSIZE * B.length := by
  have hB : BSIZE = 1024 := rfl
  rw [hB] at h ⊢
  omega

/-- A turn: the piece `q` is put where the file ends. -/
theorem turn_spec {m : Mk} {d : Dinode} {c q : List UInt8} {B : List Nat} {ind : Nat}
    (hh : Holds m.img d c B ind) (ho : Owns m.freeblock B ind) (hr : Room m)
    (hmax : d.size / BSIZE < MAXFILE) {r : Mk × Dinode × Nat}
    (hb : blockOf m d (d.size / BSIZE) = some r) {buf : Block} (hbuf : rsect r.1 r.2.2 = some buf)
    (hq : 0 < q.length) (hfit : c.length + q.length ≤ (d.size / BSIZE + 1) * BSIZE) :
    ∃ B' ind', Appended m d c B ind q
      (wsect r.1 r.2.2 (Bytes.blit buf (d.size - d.size / BSIZE * BSIZE) q),
        { r.2.1 with size := d.size + q.length }) B' ind' := by
  have hB : BSIZE = 1024 := rfl
  have hF : FSSIZE = 2000 := rfl
  have hsize := hh.size
  have hlen := hh.length
  have hle : d.size / BSIZE ≤ B.length := by
    rw [hB] at hlen ⊢
    omega
  obtain ⟨B', ind', hf⟩ := blockOf_spec hh.mapped ho hr.fresh hr.lo hr.hi hle hmax hb
  obtain ⟨m1, d1, x⟩ := r
  have hx : x = B'.getD (d.size / BSIZE) 0 := hf.block
  have hfree := hf.free
  have hlen' : B'.length = max B.length (d.size / BSIZE + 1) := hf.length
  have hfree1 : m1.freeblock ≤ FSSIZE + 1 := hf.hi
  dsimp only at hbuf hfree ⊢
  have ho' : Owns m1.freeblock B' ind' := hf.ext.grows.owns ho hr.lo
  have hxB : x ∈ B' := hx ▸ getD_mem (by omega)
  have hxmem : x ∈ refs B' ind' := mem_refs.mpr (.inl hxB)
  have hx22 : x < 2 ^ 22 := by
    have hlt := (ho'.data x hxmem).2
    omega
  obtain ⟨hxF, rfl⟩ := rsect_some hx22 hbuf
  have hs : Stored m1.img B' c := hf.ext.stored c hh.stored (le_blocks hlen)
  have hcq : (c ++ q).length = c.length + q.length := List.length_append
  refine ⟨B', ind',
    ⟨⟨?_, ?_, ?_, ?_⟩, hf.ext.grows.trans (.of_wsect ho'.nodup hxmem hx22 _), ?_, ?_⟩⟩
  · refine hf.ext.mapped.congr (fun h0 => ?_) fun _ _ => rfl
    have hne : ind' ≠ x := fun heq => ho'.ind_not_mem h0 (heq ▸ hxB)
    show (wsect m1 x _).img ind' = m1.img ind'
    rw [wsect_eq hx22]
    exact Function.update_of_ne hne _ _
  · show d.size + q.length = _
    omega
  · rw [hB] at hlen hfit hlen' ⊢
    omega
  · show Stored (wsect m1 x _).img B' (c ++ q)
    rw [wsect_eq hx22]
    show Stored (Function.update m1.img x _) B' (c ++ q)
    rw [hx]
    have hblit := hs.blit (q := q) ho'.nodup_data (by rw [hsize])
      (by omega) hfit
    rwa [← hsize] at hblit
  · show (wsect m1 x _).freeblock ≤ FSSIZE
    rw [wsect_eq hx22]
    show m1.freeblock ≤ FSSIZE
    omega
  · obtain ⟨a, ha⟩ := hf.ext.rest
    have hd1 : d1 = { d with addrs := a } := ha
    exact ⟨a, d.size + q.length, by rw [hd1]⟩

/-- **The loop**: by induction on its turns. -/
theorem appendLoop_spec (fuel : Nat) :
    ∀ {m : Mk} {d : Dinode} {c p : List UInt8} {B : List Nat} {ind : Nat} {r : Mk × Dinode},
      Holds m.img d c B ind → Owns m.freeblock B ind → Room m → p.length ≤ fuel →
      appendLoop fuel m d p = some r → ∃ B' ind', Appended m d c B ind p r B' ind' := by
  have hB : BSIZE = 1024 := rfl
  have hdone : ∀ {m : Mk} {d : Dinode} {c : List UInt8} {B : List Nat} {ind : Nat},
      Holds m.img d c B ind → Owns m.freeblock B ind → Room m →
      Appended m d c B ind [] (m, d) B ind := by
    intro m d c B ind hh ho hr
    have hrefl := Extends.refl hh.mapped ho
    refine ⟨?_, hrefl.grows, hr.hi, ⟨d.addrs, d.size, rfl⟩⟩
    rw [List.append_nil]
    exact hh
  induction fuel with
  | zero =>
    intro m d c p B ind r hh ho hr hp h
    cases h
    cases List.eq_nil_of_length_eq_zero (Nat.le_zero.mp hp)
    exact ⟨B, ind, hdone hh ho hr⟩
  | succ fuel ih =>
    intro m d c p B ind r hh ho hr hp h
    unfold appendLoop at h
    dsimp only at h
    split at h
    next hnil =>
      cases h
      cases hnil
      exact ⟨B, ind, hdone hh ho hr⟩
    next hnil =>
      split at h
      next hmax =>
        obtain ⟨r1, hb, h⟩ := Option.bind_eq_some_iff.mp h
        obtain ⟨buf, hbuf, h⟩ := Option.bind_eq_some_iff.mp h
        have hsize := hh.size
        have hpos : 0 < p.length := List.length_pos_of_ne_nil hnil
        -- the piece that fits into the block
        generalize hn1 : min p.length ((d.size / BSIZE + 1) * BSIZE - d.size) = n1 at h
        have hlt : d.size < (d.size / BSIZE + 1) * BSIZE := by
          rw [hB]
          omega
        have hq : (p.take n1).length = n1 := by
          rw [List.length_take]
          omega
        obtain ⟨B1, ind1, h1⟩ := turn_spec (q := p.take n1) hh ho hr hmax hb hbuf
          (by omega) (by omega)
        rw [hq] at h1
        have ho1 := h1.grows.owns ho hr.lo
        have hr1 : Room _ := ⟨h1.grows.fresh ho hr.fresh, hr.lo.trans h1.grows.le, h1.hi⟩
        obtain ⟨B', ind', h'⟩ := ih h1.holds ho1 hr1 (by rw [List.length_drop]; omega) h
        obtain ⟨a, n, hd1⟩ := h1.rest
        obtain ⟨a', n', hd'⟩ := h'.rest
        refine ⟨B', ind', ?_, h1.grows.trans h'.grows, h'.hi, ⟨a', n', ?_⟩⟩
        · have hholds := h'.holds
          rw [List.append_assoc, List.take_append_drop] at hholds
          exact hholds
        · dsimp only at hd1
          rw [hd', hd1]
      next => cases h

/-! ## On the image -/

section OnImage

variable {img : Nat → Block} {d : Dinode} {c : List UInt8} {B : List Nat} {ind : Nat}

theorem Holds.congr {img' : Nat → Block} {d' : Dinode} (hh : Holds img d c B ind)
    (hk : ∀ b, b ∈ refs B ind → img' b = img b) (hd : d'.Same d) : Holds img' d' c B ind := by
  refine ⟨⟨fun i hi => ?_, ?_, hh.mapped.small, fun h0 j hj => ?_, hh.mapped.length⟩, ?_,
    hh.length, ?_⟩
  · rw [hd.addrs i hi.le, hh.mapped.direct i hi]
  · rw [hd.addrs _ le_rfl, hh.mapped.indirect]
  · rw [hk ind (mem_refs.mpr (.inr ⟨h0, rfl⟩)), hh.mapped.entries h0 j hj]
  · rw [hd.size, hh.size]
  · exact hh.stored.congr fun b hb => hk b (mem_refs.mpr (.inl hb))

/-- An inode that was read fits. -/
theorem dinodeOf_fits (img : Nat → Block) (inum : Nat) : (dinodeOf img inum).Fits :=
  ⟨Bytes.get_lt _ _ 2, Bytes.get_lt _ _ 2, Bytes.get_lt _ _ 2, Bytes.get_lt _ _ 2,
    Bytes.get_lt _ _ 4, fun _ _ => Bytes.get_lt _ _ 4⟩

/-- And it fits with the addresses and the size of a file. -/
theorem Holds.fits {d0 : Dinode} {a : Nat → Nat} {n freeblock : Nat} (h0 : d0.Fits)
    (hh : Holds img { d0 with addrs := a, size := n } c B ind) (ho : Owns freeblock B ind)
    (hF : freeblock ≤ FSSIZE) : ({ d0 with addrs := a, size := n } : Dinode).Fits := by
  have hF2 : FSSIZE = 2000 := rfl
  have hB : BSIZE = 1024 := rfl
  have hM : MAXFILE = 268 := rfl
  refine ⟨h0.type, h0.major, h0.minor, h0.nlink, ?_, fun i hi => ?_⟩
  · have hsize : n = c.length := hh.size
    have hle := le_blocks hh.length
    have hlen := hh.mapped.length
    show n < 256 ^ 4
    rw [hB] at hle
    omega
  · show a i < 256 ^ 4
    rcases Nat.lt_or_ge i NDIRECT with hlt | hge
    · have hi : a i = B.getD i 0 := hh.mapped.direct i hlt
      rw [hi]
      rcases Nat.lt_or_ge i B.length with hl | hl
      · have hb := (ho.data _ (mem_refs.mpr (.inl (getD_mem hl)))).2
        omega
      · rw [List.getD_eq_default _ _ hl]
        omega
    · have hi : a i = ind := by
        rw [Nat.le_antisymm hi hge]
        exact hh.mapped.indirect
      rw [hi]
      by_cases hz : ind = 0
      · omega
      · have hb := (ho.data _ (mem_refs.mpr (.inr ⟨hz, rfl⟩))).2
        omega

end OnImage

/-- A file on the image. -/
def HasFile (m : Mk) (inum : Nat) (c : List UInt8) (B : List Nat) (ind : Nat) : Prop :=
  Holds m.img (dinodeOf m.img inum) c B ind

/-- What `iappend` does to the image. -/
structure IAppended (m : Mk) (inum : Nat) (c p : List UInt8) (B : List Nat) (ind : Nat) (m' : Mk)
    (B' : List Nat) (ind' : Nat) : Prop where
  file : HasFile m' inum (c ++ p) B' ind'
  type : (dinodeOf m'.img inum).type = (dinodeOf m.img inum).type
  freeinode : m'.freeinode = m.freeinode
  le : m.freeblock ≤ m'.freeblock
  mem : ∀ b, b ∈ refs B' ind' ↔ b ∈ refs B ind ∨ (m.freeblock ≤ b ∧ b < m'.freeblock)
  owns : Owns m'.freeblock B' ind'
  room : Room m'
  keep : ∀ b, b ∉ refs B' ind' → b ≠ IBLOCK inum → m'.img b = m.img b
  other : ∀ i, InBlocks i → i ≠ inum → (dinodeOf m'.img i).Same (dinodeOf m.img i)

/-- **`iappend`**. -/
theorem iappend_spec {m m' : Mk} {inum : Nat} {c p : List UInt8} {B : List Nat} {ind : Nat}
    (hin : InBlocks inum) (hh : HasFile m inum c B ind) (ho : Owns m.freeblock B ind) (hr : Room m)
    (h : iappend m inum p = some m') : ∃ B' ind', IAppended m inum c p B ind m' B' ind' := by
  have h47 : nmeta = 47 := rfl
  unfold iappend at h
  rw [rinode_eq hin, Option.bind_some] at h
  obtain ⟨r, hl, hw⟩ := Option.bind_eq_some_iff.mp h
  obtain ⟨B', ind', ha⟩ := appendLoop_spec _ hh ho hr le_rfl hl
  obtain ⟨m1, d1⟩ := r
  obtain ⟨a, n, hd1⟩ := ha.rest
  dsimp only at hw hd1
  rw [winode_eq hin] at hw
  cases hw
  have ho' : Owns m1.freeblock B' ind' := ha.grows.owns ho hr.lo
  have hr' : Room m1 := ⟨ha.grows.fresh ho hr.fresh, hr.lo.trans ha.grows.le, ha.hi⟩
  have hholds : Holds m1.img d1 (c ++ p) B' ind' := ha.holds
  have hfits : d1.Fits := by
    rw [hd1] at hholds ⊢
    exact hholds.fits (dinodeOf_fits _ _) ho' hr'.hi
  -- the blocks for inodes are not blocks of the file
  have hout : ∀ i, InBlocks i → IBLOCK i ∉ refs B' ind' := by
    intro i hi hmem
    have hlt : IBLOCK i < 46 := IBLOCK_lt hi
    have hge := (ho'.data _ hmem).1
    omega
  have hset : ∀ b, b ≠ IBLOCK inum → setImg m1.img inum d1 b = m1.img b :=
    fun b hb => setImg_of_ne _ _ hb
  refine ⟨B', ind', ?_, ?_, ha.grows.freeinode, ha.grows.le, ha.grows.mem, ho',
    ⟨?_, hr'.lo, hr'.hi⟩,
    fun b hb hi => ?_, fun i hi hne => ?_⟩
  · refine hholds.congr (fun b hb => hset b fun heq => ?_) (dinodeOf_self _ _ hfits)
    exact hout inum hin (heq ▸ hb)
  · have htype := (dinodeOf_self m1.img inum hfits).type
    exact htype.trans (by rw [hd1])
  · intro b hb
    have hlt : IBLOCK inum < 46 := IBLOCK_lt hin
    have hlo := hr'.lo
    have hb : m1.freeblock ≤ b := hb
    exact (hset b (by omega)).trans (hr'.fresh b hb)
  · exact (hset b hi).trans (ha.grows.keep b hb)
  · have hsame := dinodeOf_ne m1.img d1 hne
    rwa [dinodeOf_congr (ha.grows.keep _ (hout i hi))] at hsame

end Xv6.Mkfs
