import Mathlib.Logic.Function.Basic
import Mathlib.Data.Nat.ModEq
import Mathlib.Data.List.Range

/-!
# Ring buffers with wrapping counters

A ring of `cap` cells is addressed by two free-running `w`-bit counters: the
reader's position `rd` and the writer's position `wr`, of which only
`wr - rd` (modulo `2^w`) and the residues modulo `cap` matter. As long as
`cap ∣ 2^w` the counters may wrap any number of times: the residue of a wrapped
counter is the residue of the unwrapped one (`toNat_add_mod`), and
`rd + (wr - rd)` lands on `wr` modulo `cap` (`toNat_sub_mod`).

`contents` is the FIFO view — the `len` cells from a position on — and the two
moves of a ring are `contents_blit` (fill free cells in one contiguous run) and
`contents_split` (hand out a prefix). `contents_blit_free` is the frame fact:
scribbling on free cells does not touch the view.
-/

namespace Xv6.Lib.Ring

variable {α : Type*} {cap : Nat}

/-- Overwrite the `len` cells from `dst` on with `src 0, src 1, …`. -/
def blit (data : Nat → α) (dst len : Nat) (src : Nat → α) : Nat → α :=
  fun k => if dst ≤ k ∧ k < dst + len then src (k - dst) else data k

@[simp] theorem blit_zero (data : Nat → α) (dst : Nat) (src : Nat → α) :
    blit data dst 0 src = data := by
  funext k
  unfold blit
  rw [if_neg (by omega)]

theorem blit_succ (data : Nat → α) (dst len : Nat) (src : Nat → α) :
    blit data dst (len + 1) src
      = Function.update (blit data dst len src) (dst + len) (src len) := by
  funext k
  by_cases hk : k = dst + len
  · subst hk
    simp [blit]
  · rw [Function.update_of_ne hk]
    unfold blit
    by_cases hin : dst ≤ k ∧ k < dst + len
    · rw [if_pos (by omega), if_pos hin]
    · rw [if_neg (by omega), if_neg hin]

/-- Outside the written run nothing changes. -/
theorem blit_of_notMem {data : Nat → α} {dst len k : Nat} {src : Nat → α}
    (h : k < dst ∨ dst + len ≤ k) : blit data dst len src k = data k := by
  unfold blit
  rw [if_neg (by omega)]

/-- Inside it the source shows. -/
theorem blit_of_mem {data : Nat → α} {dst len k : Nat} {src : Nat → α} (h : k < len) :
    blit data dst len src (dst + k) = src k := by
  unfold blit
  rw [if_pos (by omega), Nat.add_sub_cancel_left]

/-- The FIFO view: `len` cells from position `pos` on. -/
def contents (cap : Nat) (data : Nat → α) (pos len : Nat) : List α :=
  (List.range len).map fun k => data ((pos + k) % cap)

@[simp] theorem length_contents (data : Nat → α) (pos len : Nat) :
    (contents cap data pos len).length = len := by
  simp [contents]

@[simp] theorem contents_zero (data : Nat → α) (pos : Nat) :
    contents cap data pos 0 = [] := rfl

/-- Only the residue of the position matters. -/
theorem contents_mod (data : Nat → α) {pos pos' : Nat} (len : Nat)
    (h : pos % cap = pos' % cap) : contents cap data pos len = contents cap data pos' len := by
  unfold contents
  apply List.map_congr_left
  intro k _
  rw [Nat.ModEq.add_right k (show pos ≡ pos' [MOD cap] from h)]

/-- Handing out a prefix of the view. -/
theorem contents_split (cap : Nat) (data : Nat → α) (pos m n : Nat) :
    contents cap data pos (m + n)
      = contents cap data pos m ++ contents cap data (pos + m) n := by
  unfold contents
  rw [List.range_add, List.map_append, List.map_map]
  congr 1
  apply List.map_congr_left
  intro k _
  show data ((pos + (m + k)) % cap) = data ((pos + m + k) % cap)
  rw [Nat.add_assoc]

/-- Two positions less than one lap apart are different cells. -/
theorem mod_ne_of_lt_lap (cap pos : Nat) {i j : Nat} (hij : i < j) (hlap : j < i + cap) :
    (pos + i) % cap ≠ (pos + j) % cap := by
  intro he
  have hd : cap ∣ (pos + j) - (pos + i) :=
    (Nat.modEq_iff_dvd' (by omega)).mp he
  have hz := Nat.eq_zero_of_dvd_of_lt hd (by omega)
  omega

/-- A cell at distance `j` inside a run that does not cross the end of the ring. -/
theorem mod_add_of_run {pos len j : Nat} (hrun : pos % cap + len ≤ cap) (hj : j < len) :
    (pos + j) % cap = pos % cap + j := by
  rw [Nat.add_mod, Nat.mod_eq_of_lt (by omega : j < cap), Nat.mod_eq_of_lt (by omega)]

/-- **Scribbling on free cells** leaves the view alone: a contiguous run that
starts right behind the `used` occupied cells and fits the free part. -/
theorem contents_blit_free {data src : Nat → α} {pos used len : Nat}
    (hrun : (pos + used) % cap + len ≤ cap) (hfree : used + len ≤ cap) :
    contents cap (blit data ((pos + used) % cap) len src) pos used
      = contents cap data pos used := by
  unfold contents
  apply List.map_congr_left
  intro k hk
  have hk := List.mem_range.mp hk
  apply blit_of_notMem
  -- an occupied cell inside the run would be two positions within one lap
  by_contra hin
  have hj : (pos + k) % cap - (pos + used) % cap < len := by omega
  have hrun' := mod_add_of_run hrun hj
  refine mod_ne_of_lt_lap cap pos (i := k)
    (j := used + ((pos + k) % cap - (pos + used) % cap)) (by omega) (by omega) ?_
  rw [← Nat.add_assoc, hrun']
  omega

/-- A run just written reads back. -/
theorem contents_blit_run {data src : Nat → α} {pos len : Nat} (hrun : pos % cap + len ≤ cap) :
    contents cap (blit data (pos % cap) len src) pos len = (List.range len).map src := by
  unfold contents
  apply List.map_congr_left
  intro k hk
  have hk := List.mem_range.mp hk
  rw [mod_add_of_run hrun hk, blit_of_mem hk]

/-- **Filling free cells** appends to the view. -/
theorem contents_blit {data src : Nat → α} {pos used len : Nat}
    (hrun : (pos + used) % cap + len ≤ cap) (hfree : used + len ≤ cap) :
    contents cap (blit data ((pos + used) % cap) len src) pos (used + len)
      = contents cap data pos used ++ (List.range len).map src := by
  rw [contents_split, contents_blit_free hrun hfree, contents_blit_run hrun]

/-! ## Wrapping counters -/

variable {w : Nat}

/-- A wrapped sum has the residue of the plain one. -/
theorem toNat_add_mod (hcap : cap ∣ 2 ^ w) (x : BitVec w) (k : Nat) :
    (x + BitVec.ofNat w k).toNat % cap = (x.toNat + k) % cap := by
  rw [BitVec.toNat_add, BitVec.toNat_ofNat, Nat.add_mod_mod, Nat.mod_mod_of_dvd _ hcap]

/-- The writer's cell is the reader's cell plus the distance. -/
theorem toNat_sub_mod (hcap : cap ∣ 2 ^ w) (rd wr : BitVec w) :
    (rd.toNat + (wr - rd).toNat) % cap = wr.toNat % cap := by
  have h : rd + (wr - rd) = wr := by
    rw [BitVec.add_comm, BitVec.sub_add_cancel]
  conv_rhs => rw [← h, BitVec.toNat_add, Nat.mod_mod_of_dvd _ hcap]

/-- Advancing the writer by `k` widens the distance by `k`, short of a lap of
the counter itself. -/
theorem toNat_sub_add {rd wr : BitVec w} {k : Nat} (hk : (wr - rd).toNat + k < 2 ^ w) :
    (wr + BitVec.ofNat w k - rd).toNat = (wr - rd).toNat + k := by
  rw [← BitVec.sub_add_comm, BitVec.toNat_add, BitVec.toNat_ofNat, Nat.add_mod_mod,
    Nat.mod_eq_of_lt hk]

/-- Advancing the reader by `k` narrows it by `k`. -/
theorem toNat_sub_sub {rd wr : BitVec w} {k : Nat} (hk : k ≤ (wr - rd).toNat) :
    (wr - (rd + BitVec.ofNat w k)).toNat = (wr - rd).toNat - k := by
  have hlt : k < 2 ^ w := Nat.lt_of_le_of_lt hk (wr - rd).isLt
  rw [← BitVec.sub_sub, BitVec.toNat_sub_of_le]
  · rw [BitVec.toNat_ofNat, Nat.mod_eq_of_lt hlt]
  · rw [BitVec.le_def, BitVec.toNat_ofNat, Nat.mod_eq_of_lt hlt]
    exact hk

end Xv6.Lib.Ring
