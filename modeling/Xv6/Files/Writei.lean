import Xv6.Files.Write

/-!
# What `writei` leaves

After the loop the size and the inode on the disk follow (`Written.finish`):

  > `Wrotei`: the file has the bytes that were written, its other bytes are as before,
  > its inode on the disk is the one in memory, and nothing else is changed.

`writei_wp` puts the parts together: a refusal without any change, or one of the
three ends of the loop.
-/

namespace Xv6.Files

open Lib
open Lib.Bytes (blit)
open Mkfs (Block Dinode Superblock zeroes BSIZE NDIRECT NINDIRECT MAXFILE)

variable {sb : Superblock} {pick : Nat → Option Nat} {s₀ s s' : Fs} {ip : Nat}
  {E : Panic → Fs → Prop}

structure Wrotei (sb : Superblock) (s₀ s : Fs) (ip off tot : Nat) (src : Nat → UInt8) : Prop where
  sound : Sound sb s
  held : s.held = []
  size : (s.ino ip).size = max (s₀.ino ip).size (off + tot)
  same : s.ino ip = { s₀.ino ip with size := (s.ino ip).size, addrs := (s.ino ip).addrs }
  mapped : ∀ k, k < (s.ino ip).size → Mapped s.view (s.ino ip) k
  byte : ∀ k, k < (s.ino ip).size → fileByte s.view (s.ino ip) k =
    if off ≤ k ∧ k < off + tot then src (k - off) else fileByte s₀.view (s₀.ino ip) k
  inode : (onDisk sb s.view ip).Same (s.ino ip)
  other : ∀ j, j ≠ ip → s.ino j = s₀.ino j ∧
    (j < sb.ninodes → (onDisk sb s.view j).Same (onDisk sb s₀.view j))
  addrs : ∀ j (σ : Mkfs.Slot), j ≠ ip → Live sb s₀.ino j → σ.addr s₀.view (s₀.ino j) ≠ 0 →
    σ.addr s.view (s.ino j) = σ.addr s₀.view (s₀.ino j)
  data : ∀ j (σ : Mkfs.Slot), j ≠ ip → Live sb s₀.ino j → σ ≠ .indirect →
    σ.addr s₀.view (s₀.ino j) ≠ 0 →
    s.view (σ.addr s₀.view (s₀.ino j)) = s₀.view (σ.addr s₀.view (s₀.ino j))
  disk : s.disk = s₀.disk
  valid : s.valid = s₀.valid
  ref : s.ref = s₀.ref
  pinned : ∀ b, b ∈ s₀.lh → b ∈ s.lh

/-- `if(off > ip->size) ip->size = off;` -/
def bump (off : Nat) (d : Dinode) : Dinode := if d.size < off then { d with size := off } else d

theorem bump_addrs (off : Nat) (d : Dinode) : (bump off d).addrs = d.addrs := by
  unfold bump
  split <;> rfl

theorem bump_size (off : Nat) (d : Dinode) : (bump off d).size = max d.size off := by
  unfold bump
  split
  next h => exact (Nat.max_eq_right (Nat.le_of_lt h)).symm
  next h => exact (Nat.max_eq_left (Nat.le_of_not_lt h)).symm

theorem bump_rest (off : Nat) (d : Dinode) : bump off d = { d with size := (bump off d).size } := by
  unfold bump
  split <;> rfl

/-- The size of an inode is of no concern to its slots. -/
theorem addr_of_addrs {V : Nat → Block} {d d' : Dinode} (h : d'.addrs = d.addrs) (σ : Mkfs.Slot) :
    σ.addr V d' = σ.addr V d :=
  addr_congr σ (fun i _ => by rw [h]) fun _ => rfl

theorem owner_of_addrs {V : Nat → Block} {I I' : Nat → Dinode} (h : ∀ i, (I' i).addrs = (I i).addrs)
    (ht : ∀ i, (I' i).type = (I i).type) : owner sb V I' = owner sb V I := by
  funext p
  obtain ⟨i, σ⟩ := p
  have hl : Live sb I' i ↔ Live sb I i := by
    unfold Live
    rw [ht i]
  unfold owner
  dsimp only
  by_cases hi : Live sb I i
  · rw [if_pos (hl.mpr hi), if_pos hi, addr_of_addrs (h i)]
  · rw [if_neg fun hc => hi (hl.mp hc), if_neg hi]

/-- **The inode is written**, with its new size. -/
theorem Written.finish {off tot : Nat} {src : Nat → UInt8}
    (h : Written sb s₀ s ip off (off + tot) src)
    (hl : Layout sb) (hip : Live sb s₀.ino ip) (hfit : (s₀.ino ip).Fits)
    (hmax : off + tot ≤ MAXFILE * BSIZE)
    (hw : Wrote { s with ino := Function.update s.ino ip (bump (off + tot) (s.ino ip)) } s'
      (setOnDisk sb s.view ip (bump (off + tot) (s.ino ip)))
      (Function.update s.ino ip (bump (off + tot) (s.ino ip))) [IBLOCK sb ip])
    (hh : s'.held = s.held) : Wrotei sb s₀ s' ip off tot src := by
  have hB : BSIZE = 1024 := rfl
  have hM : MAXFILE = 268 := rfl
  have hip' := (h.live ip).mpr hip
  have hself : s'.ino ip = bump (off + tot) (s.ino ip) := by rw [hw.ino, Function.update_self]
  have hne : ∀ j, j ≠ ip → s'.ino j = s.ino j := fun j hj => by
    rw [hw.ino, Function.update_of_ne hj]
  have haddrs : ∀ i, (s'.ino i).addrs = (s.ino i).addrs := by
    intro i
    by_cases hi : i = ip
    · rw [hi, hself, bump_addrs]
    · rw [hne i hi]
  have htype : ∀ i, (s'.ino i).type = (s.ino i).type := by
    intro i
    by_cases hi : i = ip
    · rw [hi, hself, bump_rest]
    · rw [hne i hi]
  have hsize₀ : (s.ino ip).size = (s₀.ino ip).size := by rw [h.same]
  have hsize : (s'.ino ip).size = max (s₀.ino ip).size (off + tot) := by
    rw [hself, bump_size, hsize₀]
  -- the block with the inode is none of a file
  have hdata : ∀ c, Data sb c → s'.view c = s.view c := fun c hc => by
    rw [hw.view]
    exact setOnDisk_data hl hip.1 _ hc
  have hslot : ∀ i, Live sb s.ino i → ∀ σ : Mkfs.Slot, σ.addr s'.view (s'.ino i) =
    σ.addr s.view (s.ino i) := by
    intro i hi σ
    refine addr_congr σ (fun k _ => by rw [haddrs]) fun hz => ?_
    exact hdata _ (h.owned.addr_data (σ := .indirect) hi hz)
  have hlt : ∀ k, k < (s'.ino ip).size → k < (s₀.ino ip).size ∨ k < off + tot := by
    intro k hk
    rw [hsize] at hk
    omega
  have hmap : ∀ k, k < (s'.ino ip).size → Mapped s.view (s.ino ip) k :=
    fun k hk => h.mapped k (hlt k hk)
  have hfits : (bump (off + tot) (s.ino ip)).Fits := by
    refine ⟨?_, ?_, ?_, ?_, ?_, fun i hi => ?_⟩
    · rw [bump_rest, h.same]
      exact hfit.type
    · rw [bump_rest, h.same]
      exact hfit.major
    · rw [bump_rest, h.same]
      exact hfit.minor
    · rw [bump_rest, h.same]
      exact hfit.nlink
    · rw [bump_size, hsize₀]
      have h4 := hfit.size
      rw [hB, hM] at hmax
      omega
    · rw [bump_addrs]
      exact h.owned.fits hl hip' hi
  refine ⟨⟨hw.coherent, ?_⟩, hh.trans h.held, hsize, ?_, fun k hk => ?_, fun k hk => ?_, ?_,
    fun j hj => ⟨?_, fun hjn => ?_⟩,
    fun j σ hj hlj h0 => ?_, fun j σ hj hlj hσ h0 => ?_, hw.disk.trans h.disk,
    hw.valid.trans h.valid,
    hw.ref.trans h.ref, fun b hb => (hw.lh b).mpr (.inl (h.pinned b hb))⟩
  · rw [owner_of_addrs haddrs htype, hw.view]
    exact h.owned.setOnDisk hl hip.1 _
  · rw [hself, bump_rest, h.same]
  · have hm := hmap k hk
    unfold Mapped at hm ⊢
    rw [hslot ip hip']
    exact hm
  · have hm := hmap k hk
    rw [← h.byte k (hlt k hk)]
    unfold fileByte
    unfold Mapped at hm
    rw [hslot ip hip', hdata _ (h.owned.addr_data hip' hm)]
  · rw [hself, hw.view]
    exact onDisk_self hfits
  · exact (hne j hj).trans (h.other j hj)
  · rw [hw.view, ← onDisk_congr (h.inodes j hjn)]
    exact onDisk_ne hj
  · rw [hslot j ((h.live j).mpr hlj)]
    exact h.keep j σ hlj h0
  · have hk := h.keep j σ hlj h0
    have hd := h.owned.addr_data ((h.live j).mpr hlj) (by rw [hk]; exact h0)
    rw [hk] at hd
    rw [hdata _ hd]
    exact h.data j σ hlj hj hσ h0

/-! ## The call -/

/-- When `writei` returns -1 at once. -/
def Refused (d : Dinode) (off n : Nat) : Prop :=
  d.size < off ∨ (off + n) % 2 ^ 32 < off ∨ MAXFILE * BSIZE < (off + n) % 2 ^ 32

theorem not_refused {d : Dinode} {off n : Nat} (hoff : off < 2 ^ 32) (hn : n < 2 ^ 32)
    (h : ¬Refused d off n) : off ≤ d.size ∧ off + n ≤ MAXFILE * BSIZE := by
  have hM : MAXFILE * BSIZE = 274432 := rfl
  unfold Refused at h
  rw [hM] at h ⊢
  omega

/-- The blocks of a file that its size asks for. -/
structure Allocated (s : Fs) (ip : Nat) : Prop where
  size : (s.ino ip).size ≤ MAXFILE * BSIZE
  mapped : ∀ k, k < (s.ino ip).size → Mapped s.view (s.ino ip) k

variable {mem : Mem} {user_src : Bool} {addr off n : Nat}

/-- What is left of `writei` after its loop. -/
def finish (sb : Superblock) (pick : Nat → Option Nat) (ip tot off : Nat) : Kern Int := do
  setInode ip (bump off)
  iupdate sb pick ip
  pure (tot : Int)

theorem finish_wp {Q : Int → Fs → Prop} {tot : Nat} {src : Nat → UInt8} {s₀ : Fs}
    (h : Written sb s₀ s ip off (off + tot) src) (hl : Layout sb) (hip : Live sb s₀.ino ip)
    (hfit : (s₀.ino ip).Fits) (hmax : off + tot ≤ MAXFILE * BSIZE)
    (hQ : ∀ s', Wrotei sb s₀ s' ip off tot src → freeList sb s'.view =
      freeList sb s.view → Q tot s') :
    wp (finish sb pick ip tot (off + tot)) Q E s := by
  have hset := Wrote.setInode h.coherent ip (bump (off + tot) (s.ino ip))
  unfold finish
  rw [wp_bind]
  show wp (iupdate sb pick ip >>= _) Q E _
  rw [wp_bind]
  refine iupdate_wp hset.coherent (by show _ ∉ s.held; rw [h.held]; exact List.not_mem_nil)
    fun s₂ hw hh => ?_
  rw [hset.view, hset.ino, Function.update_self] at hw
  refine hQ s₂ (h.finish hl hip hfit hmax hw hh) (List.filter_congr fun b hb => ?_)
  rw [decide_eq_decide, used_congr (fun c hc => ?_) (List.mem_range.mp hb)]
  rw [hw.view]
  exact setOnDisk_bitmap hl hip.1 _ hc

/-- **`writei`**: it is refused, or its loop comes to one of its ends. -/
theorem writei_wp {Q : Int → Fs → Prop} (hl : Layout sb) (hs : Sound sb s) (hh : s.held = [])
    (hip : Live sb s.ino ip) (hfit : (s.ino ip).Fits) (ha : Allocated s ip) (hoff : off < 2 ^ 32)
    (hn : n < 2 ^ 32) (hrefused : Refused (s.ino ip) off n → Q (-1) s)
    (hall : ¬Refused (s.ino ip) off n → ∀ s', (∀ k, k < n → byteAt mem user_src (addr + k) ≠ none) →
      Wrotei sb s s' ip off n (srcByte mem user_src addr) → Q n s')
    (hfull : ¬Refused (s.ino ip) off n → ∀ (tot : Nat) (s' : Fs),
      (∀ k, k < tot → byteAt mem user_src (addr + k) ≠ none) → Filled sb s ip off n tot →
      freeList sb s'.view = [] → Wrotei sb s s' ip off tot (srcByte mem user_src addr) → Q tot s')
    (hfault : ¬Refused (s.ino ip) off n → ∀ (tot : Nat) (s₁ : Fs) a l,
      (∀ k, k < tot → byteAt mem user_src (addr + k) ≠ none) →
      Fault sb mem user_src addr n s ip off tot s₁ a l →
        wp (finish sb pick ip tot (off + tot)) Q E
          (s₁.smear pick a fun data => blit data ((off + tot) % BSIZE) l)) :
    wp (writei sb pick mem ip user_src addr off n) Q E s := by
  unfold writei
  rw [wp_bind, wp_get, wp_ite]
  refine ⟨fun hr => hrefused (hr.elim .inl fun h => .inr (.inl h)), fun hr₁ => ?_⟩
  rw [wp_ite]
  refine ⟨fun hr => hrefused (.inr (.inr hr)), fun hr₂ => ?_⟩
  have hnr : ¬Refused (s.ino ip) off n := by
    unfold Refused
    tauto
  obtain ⟨hle, hmax⟩ := not_refused hoff hn hnr
  have hloop : wp (writeFrom sb pick mem ip user_src n n 0 (off + 0) (addr + 0)) (fun r s' =>
      r.2 = off + r.1 ∧ r.1 ≤ n ∧ (∀ k, k < r.1 → byteAt mem user_src (addr + k) ≠ none) ∧
        Outcome sb pick mem user_src addr n s ip off r.1 s') E s :=
    writeFrom_outcome hl hip hmax ha.size n 0 (off / BSIZE) s (by omega) (Nat.zero_le n)
      (fun _ => ⟨rfl, .inl rfl⟩) (fun k hk => absurd hk (Nat.not_lt_zero k))
      (Tracked.refl hs hh hle ha.mapped)
  rw [wp_bind]
  refine hloop.mono fun r s₁ hr => ?_
  obtain ⟨tot, off'⟩ := r
  obtain ⟨hoff', htot, hread, hout⟩ := hr
  dsimp only at hoff' htot hout
  subst hoff'
  show wp (finish sb pick ip tot (off + tot)) Q E s₁
  cases hout with
  | all htot' h =>
    refine finish_wp h hl hip hfit (by omega) fun s' hw _ => ?_
    rw [htot'] at hw hread ⊢
    exact hall hnr s' hread hw
  | full hf hfree h =>
    exact finish_wp h hl hip hfit (by omega) fun s' hw hfr => hfull hnr tot s' hread hf
      (hfr.trans hfree) hw
  | fault s₂ a l hf hs₂ =>
    rw [hs₂]
    exact hfault hnr tot s₂ a l hread hf

end Xv6.Files
