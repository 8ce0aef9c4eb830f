import Xv6.Files.View
import Xv6.Mkfs.WellFormed

/-!
# The bitmap

`used sb V b` is the bit of block `b`. `balloc` takes a block whose bit is clear, sets
the bit and fills the block with zeroes; it gives up only when the bits of all blocks
are set (`balloc_wp`). `bfree` clears a bit that is set (`bfree_wp`).

The blocks of the inodes, the bitmap and the data follow each other on the disk
(`Layout`), so that neither of them writes to the blocks of the inodes.
-/

namespace Xv6.Files

open Lib
open Mkfs (Block Dinode Superblock zeroes BPB IPB marked or_bit)

variable {sb : Superblock} {pick : Nat → Option Nat}

/-! ## Bits -/

theorem marked_eq (f : Block) (bi : Nat) : marked f bi ↔ f (bi / 8) &&& mask bi ≠ 0 := Iff.rfl

theorem marked_set (f : Block) (bi bj : Nat) :
    marked (Function.update f (bi / 8) (f (bi / 8) ||| mask bi)) bj ↔ marked f bj ∨ bj = bi := by
  unfold marked mask
  by_cases h : bj / 8 = bi / 8
  · rw [h, Function.update_self, or_bit _ (Nat.mod_lt _ (by omega)) (Nat.mod_lt _ (by omega)), ← h]
    exact or_congr_right (by omega)
  · rw [Function.update_of_ne h]
    exact ⟨.inl, fun ho => ho.resolve_right fun he => h (he ▸ rfl)⟩

theorem and_not_bit (x : UInt8) {j k : Nat} (hj : j < 8) (hk : k < 8) :
    (x &&& ~~~ (1 <<< UInt8.ofNat k)) &&& (1 <<< UInt8.ofNat j) ≠ 0 ↔
      x &&& (1 <<< UInt8.ofNat j) ≠ 0 ∧ j ≠ k := by
  have hmask : ∀ j k : Fin 8, (~~~ ((1 : UInt8) <<< UInt8.ofNat k)) &&& (1 <<< UInt8.ofNat j)
      = if j = k then 0 else (1 : UInt8) <<< UInt8.ofNat j := by
    decide
  have hjk := hmask ⟨j, hj⟩ ⟨k, hk⟩
  rw [UInt8.and_assoc, hjk]
  by_cases h : j = k
  · simp [h]
  · simp [h]

theorem marked_clear (f : Block) (bi bj : Nat) :
    marked (Function.update f (bi / 8) (f (bi / 8) &&& ~~~ mask bi)) bj ↔
    marked f bj ∧ bj ≠ bi := by
  unfold marked mask
  by_cases h : bj / 8 = bi / 8
  · rw [h, Function.update_self, and_not_bit _ (Nat.mod_lt _ (by omega)) (Nat.mod_lt _ (by omega)),
      ← h]
    exact and_congr_right fun _ => by omega
  · rw [Function.update_of_ne h]
    exact ⟨fun hm => ⟨hm, fun he => h (he ▸ rfl)⟩, fun ha => ha.1⟩

/-- The bit of `b` in the bitmap. -/
def used (sb : Superblock) (V : Nat → Block) (b : Nat) : Prop := marked (V (BBLOCK sb b)) (b % BPB)

theorem BBLOCK_inj {b c : Nat} (h : BBLOCK sb c = BBLOCK sb b) : c / BPB = b / BPB := by
  unfold BBLOCK at h
  omega

/-- The blocks seen after the bit of `b` was set. -/
def setBit (sb : Superblock) (V : Nat → Block) (b : Nat) : Nat → Block :=
  Function.update V (BBLOCK sb b)
    (Function.update (V (BBLOCK sb b)) (b % BPB / 8)
      (V (BBLOCK sb b) (b % BPB / 8) ||| mask (b % BPB)))

def clearBit (sb : Superblock) (V : Nat → Block) (b : Nat) : Nat → Block :=
  Function.update V (BBLOCK sb b)
    (Function.update (V (BBLOCK sb b)) (b % BPB / 8)
      (V (BBLOCK sb b) (b % BPB / 8) &&& ~~~ mask (b % BPB)))

theorem eq_of_div_mod {b c n : Nat} (hd : c / n = b / n) (hm : c % n = b % n) : c = b := by
  rw [← Nat.div_add_mod c n, hd, hm, Nat.div_add_mod]

theorem used_setBit (V : Nat → Block) (b c : Nat) :
    used sb (setBit sb V b) c ↔ used sb V c ∨ c = b := by
  unfold used setBit
  by_cases h : BBLOCK sb c = BBLOCK sb b
  · rw [h, Function.update_self, marked_set]
    exact or_congr_right ⟨eq_of_div_mod (BBLOCK_inj h), fun he => he ▸ rfl⟩
  · rw [Function.update_of_ne h]
    exact ⟨.inl, fun ho => ho.resolve_right fun he => h (he ▸ rfl)⟩

theorem used_clearBit (V : Nat → Block) (b c : Nat) :
    used sb (clearBit sb V b) c ↔ used sb V c ∧ c ≠ b := by
  unfold used clearBit
  by_cases h : BBLOCK sb c = BBLOCK sb b
  · rw [h, Function.update_self, marked_clear]
    exact and_congr_right fun _ =>
      not_congr ⟨eq_of_div_mod (BBLOCK_inj h), fun he => he ▸ rfl⟩
  · rw [Function.update_of_ne h]
    exact ⟨fun hu => ⟨hu, fun he => h (he ▸ rfl)⟩, fun ha => ha.1⟩

/-! ## The layout of the disk -/

/-- The blocks that are not for data. -/
def nmeta (sb : Superblock) : Nat := sb.size - sb.nblocks

structure Layout (sb : Superblock) : Prop where
  inodes : ∀ i, i < sb.ninodes → IBLOCK sb i < sb.bmapstart
  bitmap : ∀ b, b < sb.size → BBLOCK sb b < nmeta sb
  boot : 0 < nmeta sb
  size : sb.size < 2 ^ 32

theorem bmapstart_le (b : Nat) : sb.bmapstart ≤ BBLOCK sb b := Nat.le_add_left _ _

theorem Layout.inode_ne (hl : Layout sb) {i : Nat} (hi : i < sb.ninodes) (b : Nat) :
    IBLOCK sb i ≠ BBLOCK sb b := by
  have h1 := hl.inodes i hi
  have h2 := @bmapstart_le sb b
  omega

/-- The blocks of the bitmap. -/
def Bitmap (sb : Superblock) (c : Nat) : Prop := ∃ b, b < sb.size ∧ c = BBLOCK sb b

theorem used_congr {V V' : Nat → Block} (h : ∀ c, Bitmap sb c → V' c = V c) {b : Nat}
    (hb : b < sb.size) :
    used sb V' b ↔ used sb V b := by
  unfold used
  rw [h _ ⟨b, hb, rfl⟩]

/-! ## Taking a block -/

/-- The blocks seen after `b` was allocated. -/
def take (sb : Superblock) (V : Nat → Block) (b : Nat) : Nat → Block :=
  Function.update (setBit sb V b) b zeroes

theorem scan_some {data : Block} {b bi : Nat} (h : scan sb data b = some bi) :
    bi < BPB ∧ b + bi < sb.size ∧ ¬marked data bi := by
  unfold scan at h
  have hm := List.mem_range.mp (List.mem_of_find?_eq_some h)
  have hz : (data (bi / 8) &&& mask bi == 0) = true := by simpa using List.find?_some h
  refine ⟨by omega, by omega, ?_⟩
  rw [marked_eq, not_not]
  exact eq_of_beq hz

theorem scan_none {data : Block} {b bi : Nat} (h : scan sb data b = none) (hbi : bi < BPB)
    (hb : b + bi < sb.size) : marked data bi := by
  unfold scan at h
  have hf := List.find?_eq_none.mp h bi (List.mem_range.mpr (by omega))
  rw [marked_eq]
  intro hz
  exact hf (beq_iff_eq.mpr hz)

variable {s s' : Fs} {E : Panic → Fs → Prop}

/-- What `balloc` leaves. -/
structure Balloc (sb : Superblock) (s s' : Fs) (a : Nat) : Prop where
  held : s'.held = s.held
  full : a = 0 → Wrote s s' s.view s.ino [] ∧ ∀ b, b < sb.size → used sb s.view b
  taken : a ≠ 0 → a < sb.size ∧ ¬used sb s.view a ∧
    Wrote s s' (take sb s.view a) s.ino [BBLOCK sb a, a]

theorem bzero_wp {b : Nat} {Q : PUnit → Fs → Prop} (hc : Coherent s) (hb : b ∉ s.held)
    (h : ∀ s', Wrote s s' (Function.update s.view b zeroes) s.ino [b] → s'.held =
      s.held → Q ⟨⟩ s') :
    wp (bzero pick b) Q E s := by
  unfold bzero
  rw [wp_bind]
  refine bread_wp hc hb fun s₁ hw hh => ?_
  refine logged_wp hw.coherent (by rw [hh]; exact List.mem_cons_self) fun s₂ hw₂ hh₂ => ?_
  rw [hw.view, hw.ino] at hw₂
  exact h s₂ (hw.trans hw₂) (by rw [hh₂, hh, List.erase_cons_head])

/-- The blocks held are none of the bitmap, and marked in it. -/
structure Holds (sb : Superblock) (s : Fs) : Prop where
  bitmap : ∀ c, c ∈ s.held → ¬Bitmap sb c
  used : ∀ c, c ∈ s.held → used sb s.view c

/-- **The loop of `balloc`**: by induction on the blocks of the bitmap. -/
theorem ballocFrom_wp (hm : used sb s.view 0) :
    ∀ fuel b (s₁ : Fs), Wrote s s₁ s.view s.ino [] → s₁.held = s.held → Holds sb s →
      b % BPB = 0 → sb.size < b + fuel * BPB + 1 → (∀ c, c < b → c < sb.size → used sb s.view c) →
      wp (ballocFrom sb pick fuel b) (fun a s' => Balloc sb s s' a) E s₁ := by
  have hBPB : BPB = 8192 := rfl
  intro fuel
  induction fuel with
  | zero =>
    intro b s₁ hw hh _ _ hle hall
    exact ⟨hh, fun _ => ⟨hw, fun c hc => hall c (by omega) hc⟩, fun h => absurd rfl h⟩
  | succ fuel ih =>
    intro b s₁ hw hh hs hb hle hall
    unfold ballocFrom
    rw [wp_ite]
    refine ⟨fun hlt => ?_, fun hlt =>
      ⟨hh, fun _ => ⟨hw, fun c hc => hall c (by omega) hc⟩, fun h => absurd rfl h⟩⟩
    rw [wp_bind]
    have hbit : BBLOCK sb b ∉ s₁.held := fun hn => hs.bitmap _ (hh ▸ hn) ⟨b, hlt, rfl⟩
    refine bread_wp hw.coherent hbit fun s₂ hw₂ hh₂ => ?_
    rw [hw.view, hw.ino] at hw₂
    rw [hw.view]
    have hin : BBLOCK sb b ∈ s₂.held := by
      rw [hh₂]
      exact List.mem_cons_self
    cases hscan : scan sb (s.view (BBLOCK sb b)) b with
    | some bi =>
      obtain ⟨hbi, hbs, hfree⟩ := scan_some hscan
      have hdiv : BBLOCK sb (b + bi) = BBLOCK sb b := by
        unfold BBLOCK
        rw [hBPB] at hb hbi ⊢
        omega
      have hmod : (b + bi) % BPB = bi := by
        rw [hBPB] at hb hbi ⊢
        omega
      have hfree' : ¬used sb s.view (b + bi) := by
        unfold used
        rwa [hdiv, hmod]
      have hne : b + bi ≠ 0 := fun h0 => hfree' (h0 ▸ hm)
      -- the bit, then the block
      refine logged_bind_wp hw₂.coherent hin fun s₃ hw₃ hh₃ => ?_
      rw [hw₂.view, hw₂.ino, show Function.update s.view (BBLOCK sb b) _
        = setBit sb s.view (b + bi) by unfold setBit; rw [hdiv, hmod]] at hw₃
      have hheld : s₃.held = s.held := by rw [hh₃, hh₂, List.erase_cons_head, hh]
      rw [wp_bind]
      refine bzero_wp hw₃.coherent (fun hn => hfree' (hs.used _ (hheld ▸ hn))) fun s₄ hw₄ hh₄ => ?_
      rw [hw₃.view, hw₃.ino] at hw₄
      refine ⟨hh₄.trans hheld, fun h0 => absurd h0 hne, fun _ => ⟨hbs, hfree', ?_⟩⟩
      rw [hdiv]
      exact ((hw.look hw₂).trans hw₃).trans hw₄
    | none =>
      have hmarked : ∀ bi, bi < BPB → b + bi < sb.size → marked (s.view (BBLOCK sb b)) bi :=
        fun bi hbi hbs => scan_none hscan hbi hbs
      rw [wp_bind]
      refine ih (b + BPB) _ ((hw.look hw₂).drop (BBLOCK sb b)) ?_ hs
        (by rw [Nat.add_mod_right]; exact hb) (by rw [Nat.succ_mul] at hle; omega)
        fun c hc hcs => ?_
      · show (s₂.held).erase (BBLOCK sb b) = s.held
        rw [hh₂, List.erase_cons_head, hh]
      · by_cases hcb : c < b
        · exact hall c hcb hcs
        · have hdiv : BBLOCK sb c = BBLOCK sb b := by
            unfold BBLOCK
            rw [hBPB] at hb hc ⊢
            omega
          have hk := hmarked (c - b) (by omega) (by omega)
          unfold used
          rw [hdiv, show c % BPB = c - b by rw [hBPB] at hb hc ⊢; omega]
          exact hk

theorem balloc_wp (hc : Coherent s) (hm : used sb s.view 0) (hs : Holds sb s) :
    wp (balloc sb pick) (fun a s' => Balloc sb s s' a) E s := by
  have hBPB : BPB = 8192 := rfl
  refine ballocFrom_wp hm _ _ s (Wrote.refl hc) rfl hs (Nat.zero_mod _) ?_
    fun c hc => absurd hc (Nat.not_lt_zero c)
  rw [hBPB]
  omega

/-! ## Giving it back -/

theorem bfree_wp {b : Nat} {Q : PUnit → Fs → Prop} (hc : Coherent s) (hheld : BBLOCK sb b ∉ s.held)
    (hu : used sb s.view b)
    (h : ∀ s', Wrote s s' (clearBit sb s.view b) s.ino [BBLOCK sb b] → s'.held = s.held → Q ⟨⟩ s') :
    wp (bfree sb pick b) Q E s := by
  unfold bfree
  rw [wp_bind]
  refine bread_wp hc hheld fun s₁ hw hh => ?_
  show wp (ite _ _ _) _ _ _
  rw [wp_ite]
  refine ⟨fun hz => absurd hz hu, fun _ => ?_⟩
  refine logged_wp hw.coherent (by rw [hh]; exact List.mem_cons_self) fun s₂ hw₂ hh₂ => ?_
  rw [hw.view, hw.ino] at hw₂
  exact h s₂ (hw.trans hw₂) (by rw [hh₂, hh, List.erase_cons_head])

end Xv6.Files
