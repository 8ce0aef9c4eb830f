import Xv6.Mkfs.Machine

/-!
# Inodes on the image

What `winode` stores `rinode` reads back (`dinodeAt_setDinode`), and the other
inodes of the block are as before (`dinodeAt_ne`). As long as the numbers are below
`16 * ninodeblocks`, the inodes are in blocks of their own.
-/

namespace Xv6.Mkfs

open Lib
open Lib.Bytes (put blit get get_put get_put_ne get_congr put_of_out)

/-- The values fit their fields. -/
structure Dinode.Fits (d : Dinode) : Prop where
  type : d.type < 256 ^ 2
  major : d.major < 256 ^ 2
  minor : d.minor < 256 ^ 2
  nlink : d.nlink < 256 ^ 2
  size : d.size < 256 ^ 4
  addrs : ∀ i, i ≤ NDIRECT → d.addrs i < 256 ^ 4

/-- The same `struct dinode`. -/
structure Dinode.Same (d d' : Dinode) : Prop where
  type : d.type = d'.type
  major : d.major = d'.major
  minor : d.minor = d'.minor
  nlink : d.nlink = d'.nlink
  size : d.size = d'.size
  addrs : ∀ i, i ≤ NDIRECT → d.addrs i = d'.addrs i

theorem Dinode.Same.trans {d d' d'' : Dinode} (h : d.Same d') (h' : d'.Same d'') : d.Same d'' :=
  ⟨h.type.trans h'.type, h.major.trans h'.major, h.minor.trans h'.minor, h.nlink.trans h'.nlink,
    h.size.trans h'.size, fun i hi => (h.addrs i hi).trans (h'.addrs i hi)⟩

/-- The stores to `addrs`. -/
theorem get_addrs (f : Block) (o : Nat) (a : Nat → Nat) (n : Nat) :
    (∀ o' w, o' + w ≤ o ∨ o + 4 * n ≤ o' →
      get ((List.range n).foldl (fun f i => put f (o + 4 * i) 4 (a i)) f) o' w = get f o' w) ∧
    ∀ i, i < n → a i < 256 ^ 4 →
      get ((List.range n).foldl (fun f i => put f (o + 4 * i) 4 (a i)) f) (o + 4 * i) 4 = a i := by
  induction n with
  | zero => exact ⟨fun _ _ _ => rfl, fun i hi => absurd hi (Nat.not_lt_zero i)⟩
  | succ n ih =>
    rw [List.range_succ, List.foldl_append]
    refine ⟨fun o' w h => ?_, fun i hi ha => ?_⟩
    · show get (put _ (o + 4 * n) 4 (a n)) o' w = _
      rw [get_put_ne _ (by omega), ih.1 o' w (by omega)]
    · show get (put _ (o + 4 * n) 4 (a n)) (o + 4 * i) 4 = _
      by_cases hn : i = n
      · rw [hn, get_put _ _ _ (hn ▸ ha)]
      · rw [get_put_ne _ (by omega)]
        exact ih.2 i (by omega) ha

/-- A byte that no store to `addrs` goes to. -/
theorem foldl_put_of_out (f : Block) (o : Nat) (a : Nat → Nat) (n : Nat) {k : Nat}
    (hk : k < o ∨ o + 4 * n ≤ k) :
    (List.range n).foldl (fun f i => put f (o + 4 * i) 4 (a i)) f k = f k := by
  induction n with
  | zero => rfl
  | succ n ih =>
    rw [List.range_succ, List.foldl_append]
    show put _ (o + 4 * n) 4 (a n) k = _
    rw [put_of_out _ (by omega), ih (by omega)]

/-- **Round trip**. -/
theorem dinodeAt_setDinode (f : Block) (o : Nat) {d : Dinode} (h : d.Fits) :
    (dinodeAt (setDinode f o d) o).Same d := by
  have hrest : ∀ o' w, o' + w ≤ o + 12 → get (setDinode f o d) o' w
      = get (put (put (put (put (put f o 2 d.type) (o + 2) 2 d.major) (o + 4) 2 d.minor) (o + 6) 2
        d.nlink) (o + 8) 4 d.size) o' w :=
    fun o' w hw => (get_addrs _ (o + 12) d.addrs 13).1 o' w (.inl hw)
  refine ⟨?_, ?_, ?_, ?_, ?_, ?_⟩
  · show get (setDinode f o d) o 2 = _
    rw [hrest o 2 (by omega), get_put_ne _ (by omega), get_put_ne _ (by omega),
      get_put_ne _ (by omega), get_put_ne _ (by omega), get_put _ _ _ h.type]
  · show get (setDinode f o d) (o + 2) 2 = _
    rw [hrest (o + 2) 2 (by omega), get_put_ne _ (by omega), get_put_ne _ (by omega),
      get_put_ne _ (by omega), get_put _ _ _ h.major]
  · show get (setDinode f o d) (o + 4) 2 = _
    rw [hrest (o + 4) 2 (by omega), get_put_ne _ (by omega), get_put_ne _ (by omega),
      get_put _ _ _ h.minor]
  · show get (setDinode f o d) (o + 6) 2 = _
    rw [hrest (o + 6) 2 (by omega), get_put_ne _ (by omega), get_put _ _ _ h.nlink]
  · show get (setDinode f o d) (o + 8) 4 = _
    rw [hrest (o + 8) 4 (by omega), get_put _ _ _ h.size]
  · intro i hi
    have hi13 : i < 13 := Nat.lt_succ_of_le hi
    exact (get_addrs _ (o + 12) d.addrs 13).2 i hi13 (h.addrs i hi)

theorem setDinode_of_out (f : Block) {o k : Nat} (d : Dinode) (hk : k < o ∨ o + dinodeSize ≤ k) :
    setDinode f o d k = f k := by
  have h64 : dinodeSize = 64 := rfl
  unfold setDinode
  rw [show (fun (f : Block) i => put f (o + 12 + 4 * i) 4 (d.addrs i))
      = fun f i => put f (o + 12 + 4 * i) 4 (d.addrs i) from rfl,
    foldl_put_of_out _ (o + 12) d.addrs (NDIRECT + 1) (show _ ∨ o + 12 + 4 * 13 ≤ k by omega),
    put_of_out _ (by omega), put_of_out _ (by omega), put_of_out _ (by omega),
    put_of_out _ (by omega), put_of_out _ (by omega)]

/-- Blocks that have the bytes of a `struct dinode` in common have it in common. -/
theorem dinodeAt_congr {f g : Block} {o : Nat} (h : ∀ k, k < dinodeSize → f (o + k) = g (o + k)) :
    (dinodeAt f o).Same (dinodeAt g o) := by
  have h64 : dinodeSize = 64 := rfl
  have hget : ∀ i w, i + w ≤ 64 → get f (o + i) w = get g (o + i) w := fun i w hw =>
    get_congr fun k hk => by rw [Nat.add_assoc]; exact h (i + k) (by omega)
  refine ⟨hget 0 2 (by omega), hget 2 2 (by omega), hget 4 2 (by omega), hget 6 2 (by omega),
    hget 8 4 (by omega), fun i hi => ?_⟩
  have hi12 : i ≤ 12 := hi
  show get f (o + 12 + 4 * i) 4 = get g (o + 12 + 4 * i) 4
  rw [Nat.add_assoc]
  exact hget (12 + 4 * i) 4 (by omega)

/-! ## Sectors -/

theorem seek_of_lt {sec : Nat} (h : sec < 2 ^ 22) : seek sec = sec := by
  have hB : BSIZE = 1024 := rfl
  unfold seek
  rw [hB, Nat.mod_eq_of_lt (by omega), Nat.mul_div_cancel _ (by omega)]

theorem rsect_eq {m : Mk} {sec : Nat} (h : sec < 2 ^ 22) :
    rsect m sec = if sec < FSSIZE then some (m.img sec) else none := by
  unfold rsect
  rw [seek_of_lt h]

theorem rsect_some {m : Mk} {sec : Nat} {buf : Block} (h : sec < 2 ^ 22)
    (hr : rsect m sec = some buf) : sec < FSSIZE ∧ buf = m.img sec := by
  rw [rsect_eq h] at hr
  split at hr
  next hlt =>
    cases hr
    exact ⟨hlt, rfl⟩
  next => cases hr

theorem wsect_eq {m : Mk} {sec : Nat} {buf : Block} (h : sec < 2 ^ 22) :
    wsect m sec buf = { m with img := Function.update m.img sec buf } := by
  unfold wsect
  rw [seek_of_lt h]

/-! ## Inodes by number -/

/-- Inode `inum` of the image. -/
def dinodeOf (img : Nat → Block) (inum : Nat) : Dinode :=
  dinodeAt (img (IBLOCK inum)) (dinodeOff inum)

/-- The number is in the blocks for inodes. -/
def InBlocks (inum : Nat) : Prop := inum < IPB * ninodeblocks

theorem IBLOCK_lt {inum : Nat} (h : InBlocks inum) : IBLOCK inum < bmapstart := by
  have h208 : inum < 208 := h
  show inum / 16 + 33 < 46
  omega

theorem rinode_eq {m : Mk} {inum : Nat} (h : InBlocks inum) :
    rinode m inum = some (dinodeOf m.img inum) := by
  have hlt : IBLOCK inum < 46 := IBLOCK_lt h
  have hF : FSSIZE = 2000 := rfl
  unfold rinode
  rw [rsect_eq (by omega), if_pos (by omega)]
  rfl

/-- The image with inode `inum` written. -/
def setImg (img : Nat → Block) (inum : Nat) (d : Dinode) : Nat → Block :=
  Function.update img (IBLOCK inum) (setDinode (img (IBLOCK inum)) (dinodeOff inum) d)

theorem winode_eq {m : Mk} {inum : Nat} (h : InBlocks inum) (d : Dinode) :
    winode m inum d = some { m with img := setImg m.img inum d } := by
  have hlt : IBLOCK inum < 46 := IBLOCK_lt h
  have hF : FSSIZE = 2000 := rfl
  unfold winode
  rw [rsect_eq (by omega), if_pos (by omega), Option.map_some, wsect_eq (by omega)]
  rfl

theorem dinodeOf_self (img : Nat → Block) (inum : Nat) {d : Dinode} (h : d.Fits) :
    (dinodeOf (setImg img inum d) inum).Same d := by
  unfold dinodeOf setImg
  rw [Function.update_self]
  exact dinodeAt_setDinode _ _ h

/-- The other inodes stay. -/
theorem dinodeOf_ne (img : Nat → Block) {inum inum' : Nat} (d : Dinode) (h : inum' ≠ inum) :
    (dinodeOf (setImg img inum d) inum').Same (dinodeOf img inum') := by
  unfold dinodeOf setImg
  by_cases hb : IBLOCK inum' = IBLOCK inum
  · rw [hb, Function.update_self]
    refine dinodeAt_congr fun k hk => setDinode_of_out _ d ?_
    have hb' : inum' / 16 + 33 = inum / 16 + 33 := hb
    have hk : k < 64 := hk
    show inum' % 16 * 64 + k < inum % 16 * 64 ∨ inum % 16 * 64 + 64 ≤ inum' % 16 * 64 + k
    omega
  · rw [Function.update_of_ne hb]
    exact dinodeAt_congr fun _ _ => rfl

/-- Images with the same blocks for inodes have the same inodes. -/
theorem dinodeOf_congr {img img' : Nat → Block} {inum : Nat}
    (h : img' (IBLOCK inum) = img (IBLOCK inum)) : dinodeOf img' inum = dinodeOf img inum := by
  unfold dinodeOf
  rw [h]

theorem setImg_of_ne (img : Nat → Block) {inum b : Nat} (d : Dinode) (h : b ≠ IBLOCK inum) :
    setImg img inum d b = img b := Function.update_of_ne h _ _

/-- A block of zeroes has an inode of zeroes. -/
theorem dinodeAt_zero {f : Block} {o : Nat} (h : ∀ k, k < dinodeSize → f (o + k) = 0) :
    (dinodeAt f o).Same ⟨0, 0, 0, 0, 0, fun _ => 0⟩ := by
  have h64 : dinodeSize = 64 := rfl
  have hget : ∀ i w, i + w ≤ 64 → get f (o + i) w = 0 := fun i w hw =>
    Bytes.get_zero fun k hk => by rw [Nat.add_assoc]; exact h (i + k) (by omega)
  refine ⟨hget 0 2 (by omega), hget 2 2 (by omega), hget 4 2 (by omega), hget 6 2 (by omega),
    hget 8 4 (by omega), fun i hi => ?_⟩
  have hi12 : i ≤ 12 := hi
  show get f (o + 12 + 4 * i) 4 = 0
  rw [Nat.add_assoc]
  exact hget (12 + 4 * i) 4 (by omega)

end Xv6.Mkfs
