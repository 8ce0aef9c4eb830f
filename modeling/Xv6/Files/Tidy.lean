import Xv6.Files.Content
import Xv6.Files.Trunc

/-!
# Between two calls

`Tidy` is what holds of the file system when no call of it is under way: every block of
data has the owner that the inodes on the disk say, what the size of a file asks for is
there, and an inode in memory is the one on the disk.

  > Every call keeps it, and leaves every other inode as it is on the disk (`Turn`).

The calls that empty an inode (`itrunc`, `iput`, and `ialloc`, which makes an empty one) are
one argument, `Tidy.reset`.
-/

namespace Xv6.Files

open Lib
open Mkfs (Block Dinode Superblock nonzero BSIZE NDIRECT NINDIRECT MAXFILE)

variable {sb : Superblock} {pick : Nat → Option Nat} {s s' : Fs} {ip : Nat} {E : Panic → Fs → Prop}

/-- What the size of a file asks for is there. -/
structure Complete (V : Nat → Block) (d : Dinode) : Prop where
  size : d.size ≤ MAXFILE * BSIZE
  mapped : ∀ k, k < d.size → Mapped V d k

structure Tidy (sb : Superblock) (s : Fs) : Prop where
  coherent : Coherent s
  held : s.held = []
  owned : Owned sb s.view (owner sb s.view (onDisk sb s.view))
  whole : ∀ i, Live sb (onDisk sb s.view) i → Complete s.view (onDisk sb s.view i)
  copies : ∀ i, i < sb.ninodes → 0 < s.ref i → s.valid i = true →
    (onDisk sb s.view i).Same (s.ino i) ∧ (s.ino i).type ≠ 0

/-- A call on inode `ip` that takes no block. -/
structure Turn (sb : Superblock) (s s' : Fs) (ip : Nat) : Prop where
  tidy : Tidy sb s'
  other : ∀ j, j < sb.ninodes → j ≠ ip → (onDisk sb s'.view j).Same (onDisk sb s.view j)
  indirect : (onDisk sb s'.view ip).addrs NDIRECT = 0 ∨
    ((onDisk sb s'.view ip).type = (onDisk sb s.view ip).type ∧
      (onDisk sb s'.view ip).addrs NDIRECT = (onDisk sb s.view ip).addrs NDIRECT)

theorem Same.symm {d d' : Dinode} (h : d.Same d') : d'.Same d :=
  ⟨h.type.symm, h.major.symm, h.minor.symm, h.nlink.symm, h.size.symm,
    fun i hi => (h.addrs i hi).symm⟩

theorem Same.fits {d d' : Dinode} (h : d.Same d') (hf : d.Fits) : d'.Fits where
  type := h.type ▸ hf.type
  major := h.major ▸ hf.major
  minor := h.minor ▸ hf.minor
  nlink := h.nlink ▸ hf.nlink
  size := h.size ▸ hf.size
  addrs i hi := h.addrs i hi ▸ hf.addrs i hi

theorem onDisk_fits (V : Nat → Block) (i : Nat) : (onDisk sb V i).Fits :=
  ⟨Bytes.get_lt _ _ _, Bytes.get_lt _ _ _, Bytes.get_lt _ _ _, Bytes.get_lt _ _ _,
    Bytes.get_lt _ _ _,
    fun _ _ => Bytes.get_lt _ _ _⟩

theorem Complete.congr {V V' : Nat → Block} {d d' : Dinode} (h : Complete V d)
    (hd : d'.size = d.size)
    (ha : ∀ σ : Mkfs.Slot, σ.addr V' d' = σ.addr V d) : Complete V' d' := by
  refine ⟨hd ▸ h.size, fun k hk => ?_⟩
  unfold Mapped
  rw [ha]
  exact h.mapped k (hd ▸ hk)

/-! ## An inode in memory -/

/-- The process has locked inode `ip`. -/
structure Locked (sb : Superblock) (s : Fs) (ip : Nat) : Prop where
  lt : ip < sb.ninodes
  ref : 0 < s.ref ip
  valid : s.valid ip = true

theorem Tidy.same (h : Tidy sb s) (hk : Locked sb s ip) : (onDisk sb s.view ip).Same (s.ino ip) :=
  (h.copies ip hk.lt hk.ref hk.valid).1

theorem Tidy.live (h : Tidy sb s) (hk : Locked sb s ip) : Live sb (onDisk sb s.view) ip := by
  obtain ⟨hs, ht⟩ := h.copies ip hk.lt hk.ref hk.valid
  exact ⟨hk.lt, hs.type ▸ ht⟩

theorem Tidy.fits (h : Tidy sb s) (hk : Locked sb s ip) : (s.ino ip).Fits :=
  Same.fits (h.same hk) (onDisk_fits _ _)

theorem Tidy.inodes (h : Tidy sb s) (hk : Locked sb s ip) :
    owner sb s.view (inodes sb s ip) = owner sb s.view (onDisk sb s.view) := by
  refine owner_same fun i _ => ?_
  by_cases hi : i = ip
  · rw [hi, inodes_self]
    exact Same.symm (h.same hk)
  · rw [inodes_ne hi]
    exact Same.refl _

theorem Tidy.ready (h : Tidy sb s) (hk : Locked sb s ip) : Ready sb s ip where
  coherent := h.coherent
  held := h.held
  live := ⟨hk.lt, (h.copies ip hk.lt hk.ref hk.valid).2⟩
  fits := h.fits hk
  owned := by rw [h.inodes hk]; exact h.owned

theorem Tidy.allocated (h : Tidy sb s) (hk : Locked sb s ip) : Allocated s ip := by
  have hw := (h.whole ip (h.live hk)).congr (h.same hk).size.symm fun σ =>
    addr_same (Same.symm (h.same hk)) σ
  exact ⟨hw.size, hw.mapped⟩

theorem Tidy.slots (h : Tidy sb s) (hk : Locked sb s ip) (σ : Mkfs.Slot) :
    owner sb s.view (onDisk sb s.view) (ip, σ) = nonzero (σ.addr s.view (s.ino ip)) := by
  unfold owner
  rw [if_pos (h.live hk), addr_same (h.same hk)]

/-! ## The other inodes -/

/-- What is said of the blocks outside the bitmap and the inodes. -/
theorem Tidy.slot_same (h : Tidy sb s) {V' : Nat → Block} {j : Nat}
    (hj : Live sb (onDisk sb s.view) j)
    (hs : (onDisk sb V' j).Same (onDisk sb s.view j))
    (hb : ∀ c, Data sb c → V' c = s.view c) (σ : Mkfs.Slot) :
    σ.addr V' (onDisk sb V' j) = σ.addr s.view (onDisk sb s.view j) := by
  rw [addr_same hs]
  exact addr_congr σ (fun _ _ => rfl) fun hz => hb _ (h.owned.addr_data (σ := .indirect) hj hz)

/-- **An inode is emptied**, or an empty one is made. -/
theorem Tidy.reset (h : Tidy sb s) (hc : Coherent s') (hh : s'.held = []) {d : Dinode}
    (ho : Owned sb s'.view (bare (owner sb s.view (onDisk sb s.view)) ip))
    (hb : ∀ c, Data sb c → s'.view c = s.view c)
    (hd : (onDisk sb s'.view ip).Same d) (h0 : d.size = 0)
    (ha : ∀ i, i ≤ NDIRECT → d.addrs i = 0)
    (hother : ∀ j, j < sb.ninodes → j ≠ ip → (onDisk sb s'.view j).Same (onDisk sb s.view j))
    (hmem : ∀ j, j ≠ ip → s'.ino j = s.ino j ∧ s'.valid j = s.valid j ∧ s'.ref j = s.ref j)
    (hcopy : 0 < s'.ref ip → s'.valid ip = true → d.Same (s'.ino ip) ∧ (s'.ino ip).type ≠ 0) :
    Turn sb s s' ip := by
  have hnone : ∀ σ : Mkfs.Slot, σ.addr s'.view (onDisk sb s'.view ip) = 0 := by
    intro σ
    rw [addr_same hd]
    cases σ with
    | direct i => exact ha i (Nat.le_of_lt i.isLt)
    | indirect => exact ha NDIRECT le_rfl
    | entry j => exact if_pos (ha NDIRECT le_rfl)
  have hlive :
    ∀ j, j ≠ ip → (Live sb (onDisk sb s'.view) j ↔ Live sb (onDisk sb s.view) j) := fun j hj =>
    and_congr_right fun hjn => by rw [(hother j hjn hj).type]
  refine ⟨⟨hc, hh, ?_, fun j hj => ?_, fun j hjn hr hv => ?_⟩, hother, .inl (hnone .indirect)⟩
  · have heq : owner sb s'.view (onDisk sb s'.view) =
      bare (owner sb s.view (onDisk sb s.view)) ip := by
      funext q
      obtain ⟨j, σ⟩ := q
      unfold bare owner
      dsimp only
      by_cases hj : j = ip
      · rw [if_pos hj, hj, hnone]
        exact ite_self _
      · rw [if_neg hj]
        by_cases hl : Live sb (onDisk sb s.view) j
        · rw [if_pos ((hlive j hj).mpr hl), if_pos hl, h.slot_same hl (hother j hl.1 hj) hb]
        · rw [if_neg fun hl' => hl ((hlive j hj).mp hl'), if_neg hl]
    rw [heq]
    exact ho
  · by_cases hjp : j = ip
    · have hz : (onDisk sb s'.view j).size = 0 := by rw [hjp, hd.size, h0]
      refine ⟨hz ▸ Nat.zero_le _, fun k hk => ?_⟩
      rw [hz] at hk
      exact absurd hk (Nat.not_lt_zero k)
    · have hl := (hlive j hjp).mp hj
      exact (h.whole j hl).congr (hother j hl.1 hjp).size fun σ => h.slot_same hl
        (hother j hl.1 hjp) hb σ
  · by_cases hjp : j = ip
    · subst hjp
      obtain ⟨hs, ht⟩ := hcopy hr hv
      exact ⟨hd.trans hs, ht⟩
    · obtain ⟨hi, hv', hr'⟩ := hmem j hjp
      rw [hi]
      obtain ⟨hs, ht⟩ := h.copies j hjn (hr' ▸ hr) (hv' ▸ hv)
      exact ⟨(hother j hjn hjp).trans hs, ht⟩

/-- A call that only looks. -/
theorem Tidy.look (h : Tidy sb s) (hw : Wrote s s' s.view s.ino []) (hh : s'.held = []) :
    Turn sb s s' ip := by
  refine ⟨⟨hw.coherent, hh, ?_, ?_, ?_⟩, fun j _ _ => ?_, .inr ?_⟩
  · rw [hw.view]
    exact h.owned
  · rw [hw.view]
    exact h.whole
  · rw [hw.view, hw.ino, hw.ref, hw.valid]
    exact h.copies
  · rw [hw.view]
    exact Same.refl _
  · rw [hw.view]
    exact ⟨rfl, rfl⟩

/-! ## The calls that empty an inode -/

theorem Truncated.data {own : Nat × Mkfs.Slot → Option Nat} {d : Dinode} (hl : Layout sb)
    (h : Truncated sb own s s' ip d) (hip : ip < sb.ninodes) {c : Nat} (hc : Data sb c) :
    s'.view c = s.view c :=
  h.blocks c (hl.not_bitmap hc) fun he => hl.not_inode hc hip he.symm

theorem Tidy.itrunc (hl : Layout sb) (h : Tidy sb s) (hk : Locked sb s ip) :
    wp (itrunc sb pick ip) (fun _ s' => Turn sb s s' ip) E s := by
  refine (itrunc_wp hl h.coherent h.held h.owned hk.lt (h.fits hk) (h.slots hk)).mono
    fun _ s' hr => ?_
  obtain ⟨a, ht, ha⟩ := hr
  refine h.reset ht.coherent ht.held ht.owned (fun c hc => ht.data hl hk.lt hc)
    ht.inode rfl ha ht.other
    (fun j hj => ⟨by rw [ht.ino, Function.update_of_ne hj], by rw [ht.valid], by rw [ht.ref]⟩)
    fun _ _ => ?_
  rw [ht.ino, Function.update_self]
  exact ⟨Same.refl _, (h.copies ip hk.lt hk.ref hk.valid).2⟩

theorem Dying.locked (h : Dying s ip) (hip : ip < sb.ninodes) : Locked sb s ip :=
  ⟨hip, by rw [h.1]; exact Nat.one_pos, h.2.1⟩

/-- The dying inode is free. -/
theorem Tidy.freed (hl : Layout sb) (h : Tidy sb s) (hip : ip < sb.ninodes) {d : Dinode} {s₁ : Fs}
    (ht : Truncated sb (owner sb s.view (onDisk sb s.view)) s s₁ ip d) (h0 : d.size = 0)
    (ha : ∀ i, i ≤ NDIRECT → d.addrs i = 0) : Turn sb s (s₁.forget ip) ip := by
  have hc : Coherent (s₁.forget ip) := ⟨ht.coherent.clean, ht.coherent.pinned, ht.coherent.held⟩
  refine h.reset hc ht.held ht.owned (fun c hc => ht.data hl hip hc) ht.inode h0 ha ht.other
    (fun j hj => ⟨?_, ?_, ?_⟩) fun _ hv => ?_
  · show s₁.ino j = s.ino j
    rw [ht.ino, Function.update_of_ne hj]
  · show Function.update s₁.valid ip false j = s.valid j
    rw [Function.update_of_ne hj, ht.valid]
  · show Function.update s₁.ref ip _ j = s.ref j
    rw [Function.update_of_ne hj, ht.ref]
  · have hv : Function.update s₁.valid ip false ip = true := hv
    rw [Function.update_self] at hv
    cases hv

/-- Another reference to an inode, or one reference less. -/
theorem Tidy.count (h : Tidy sb s) {r : Nat} {v : Bool}
    (hr : 0 < r → v = true → 0 < s.ref ip ∧ s.valid ip = true) :
    Turn sb s { s with
      valid := Function.update s.valid ip v
      ref := Function.update s.ref ip r } ip := by
  refine ⟨⟨⟨h.coherent.clean, h.coherent.pinned, h.coherent.held⟩, h.held, h.owned, h.whole,
    fun j hjn hr' hv' => ?_⟩, fun j _ _ => Same.refl _, .inr ⟨rfl, rfl⟩⟩
  have hr' : 0 < Function.update s.ref ip r j := hr'
  have hv' : Function.update s.valid ip v j = true := hv'
  by_cases hj : j = ip
  · subst hj
    rw [Function.update_self] at hr' hv'
    obtain ⟨h1, h2⟩ := hr hr' hv'
    exact h.copies j hjn h1 h2
  · rw [Function.update_of_ne hj] at hr' hv'
    exact h.copies j hjn hr' hv'

theorem Tidy.iput (hl : Layout sb) (h : Tidy sb s) (hip : ip < sb.ninodes) :
    wp (iput sb pick ip) (fun _ s' => Turn sb s s' ip) E s := by
  refine (iput_wp hl h.coherent h.held h.owned hip (fun hd => h.fits (hd.locked hip))
    fun hd => h.slots (hd.locked hip)).mono fun _ s' hr => ?_
  by_cases hd : Dying s ip
  · obtain ⟨a, s₁, ht, ha, -, rfl⟩ := hr.1 hd
    exact h.freed hl hip ht rfl ha
  · rw [hr.2 hd]
    have hcount := @Tidy.count sb s ip h (s.ref ip - 1) (s.valid ip) fun hr hv => ⟨by omega, hv⟩
    rwa [Function.update_eq_self] at hcount

theorem Tidy.iget (h : Tidy sb s) : wp (iget ip) (fun _ s' => Turn sb s s' ip) E s := by
  show Turn sb s { s with
    valid := if s.ref ip = 0 then Function.update s.valid ip false else s.valid
    ref := _ } ip
  split
  next => exact h.count fun _ hv => (by cases hv)
  next hr =>
    have hcount := @Tidy.count sb s ip h (s.ref ip + 1) (s.valid ip) fun _ hv => ⟨by omega, hv⟩
    rwa [Function.update_eq_self] at hcount

/-- `ialloc` makes an empty inode of one that is free. -/
theorem Tidy.ialloc (hl : Layout sb) (h : Tidy sb s) {type : Nat} (ht : type < 256 ^ 2) :
    wp (ialloc sb pick type) (fun r s' => (r = none → ∀ j, Turn sb s s' j) ∧
      ∀ i, r = some i → i < sb.ninodes ∧ Turn sb s s' i) E s := by
  refine (iallocFrom_wp sb.ninodes 1 s (Wrote.refl h.coherent) h.held).mono fun r s' hr =>
    ⟨fun hn => ?_, fun i hi => ?_⟩
  · obtain ⟨hw, hh⟩ := hr.1 hn
    exact fun _ => h.look hw hh
  · obtain ⟨-, hin, h0, s₂, hw, hh, hs'⟩ := hr.2 i hi
    have hfree : ¬Live sb (onDisk sb s.view) i := fun hl => hl.2 h0
    have hself : (onDisk sb s₂.view i).Same ⟨type, 0, 0, 0, 0, fun _ => 0⟩ := by
      rw [hw.view]
      refine onDisk_self ⟨ht, ?_, ?_, ?_, ?_, fun _ _ => ?_⟩ <;> exact Nat.pow_pos (by omega)
    have hturn : Turn sb s s₂ i := by
      refine h.reset hw.coherent hh ?_ (fun c hc => ?_) hself rfl (fun _ _ => rfl)
        (fun j hj hne => ?_)
        (fun j _ => ⟨by rw [hw.ino], by rw [hw.valid], by rw [hw.ref]⟩) fun hr' hv' => ?_
      · have hbare : bare (owner sb s.view (onDisk sb s.view)) i =
          owner sb s.view (onDisk sb s.view) := by
          funext q
          unfold bare
          split
          next hq => exact (if_neg (hq ▸ hfree)).symm
          next => rfl
        rw [hbare, hw.view]
        exact h.owned.view fun c hc => setOnDisk_bitmap hl hin _ hc
      · rw [hw.view]
        exact setOnDisk_data hl hin _ hc
      · rw [hw.view]
        exact onDisk_ne hne
      · rw [hw.ref] at hr'
        rw [hw.valid] at hv'
        exact absurd (h.live ⟨hin, hr', hv'⟩) hfree
    have hget := (@Tidy.iget sb s₂ i (fun _ _ => False) hturn.tidy).of_ok hs'
    have hv : s'.view = s₂.view := by
      rw [← (Prod.mk.inj hs').2]
      rfl
    refine ⟨hin, hget.tidy, fun j hj hne => (hget.other j hj hne).trans (hturn.other j hj hne),
      .inl ?_⟩
    rw [hv, hself.addrs NDIRECT le_rfl]

/-! ## The others -/

theorem Tidy.ilock (h : Tidy sb s) (hip : ip < sb.ninodes) :
    wp (ilock sb pick ip) (fun _ s' => Turn sb s s' ip ∧ Locked sb s' ip)
      (fun e _ => e = .ilock ∨ e = .noType) s := by
  unfold Files.ilock
  rw [wp_bind, wp_get, wp_ite]
  refine ⟨fun _ => .inl rfl, fun hr => ?_⟩
  have hr : 0 < s.ref ip := by omega
  rw [wp_ite]
  refine ⟨fun hv => ?_,
    fun hv => ⟨h.look (Wrote.refl h.coherent) h.held, hip, hr, by simpa using hv⟩⟩
  rw [wp_bind]
  refine bread_wp h.coherent (by rw [h.held]; exact List.not_mem_nil) fun s₁ hw hh => ?_
  rw [wp_bind]
  show wp (brelse _ >>= _) _ _ { s₁ with ino := Function.update s₁.ino ip (onDisk sb s.view ip) }
  rw [wp_bind]
  show wp (modify _ >>= _) _ _ (Fs.drop { s₁ with ino := _ } (IBLOCK sb ip))
  rw [wp_bind]
  refine (wp_ite _ _).mpr ⟨fun _ => .inr rfl, fun ht => ?_⟩
  have hheld : s₁.held.erase (IBLOCK sb ip) = [] := by rw [hh, h.held, List.erase_cons_head]
  have hcoh : ∀ {b}, b ∈ s₁.held.erase (IBLOCK sb ip) → s₁.cache b ≠ none := by
    intro b hb
    rw [hheld] at hb
    exact absurd hb List.not_mem_nil
  refine ⟨⟨⟨⟨hw.coherent.clean, hw.coherent.pinned, hcoh⟩, hheld, ?_, ?_, fun j hjn hr' hv' => ?_⟩,
    fun j _ _ => ?_, .inr ?_⟩, hip, ?_, Function.update_self ..⟩
  · show Owned sb s₁.view (owner sb s₁.view (onDisk sb s₁.view))
    rw [hw.view]
    exact h.owned
  · show ∀ i, Live sb (onDisk sb s₁.view) i → Complete s₁.view (onDisk sb s₁.view i)
    rw [hw.view]
    exact h.whole
  · show (onDisk sb s₁.view j).Same (Function.update s₁.ino ip (onDisk sb s.view ip) j) ∧
      (Function.update s₁.ino ip (onDisk sb s.view ip) j).type ≠ 0
    have hv' : Function.update s₁.valid ip true j = true := hv'
    have hr' : 0 < s₁.ref j := hr'
    rw [hw.view, hw.ino]
    by_cases hj : j = ip
    · rw [hj, Function.update_self]
      exact ⟨Same.refl _, ht⟩
    · rw [Function.update_of_ne hj, hw.valid] at hv'
      rw [Function.update_of_ne hj]
      exact h.copies j hjn (hw.ref ▸ hr') hv'
  · show (onDisk sb s₁.view j).Same _
    rw [hw.view]
    exact Same.refl _
  · show (onDisk sb s₁.view ip).type = _ ∧ (onDisk sb s₁.view ip).addrs NDIRECT = _
    rw [hw.view]
    exact ⟨rfl, rfl⟩
  · show 0 < s₁.ref ip
    rw [hw.ref]
    exact hr

/-- The links and the device of an inode, set by `create`, `link` and `unlink` before `iupdate`. -/
def setLinks (major minor nlink : Nat) (d : Dinode) : Dinode := { d with major, minor, nlink }

theorem Tidy.links (hl : Layout sb) (h : Tidy sb s) (hk : Locked sb s ip) {major minor nlink : Nat}
    (hmajor : major < 256 ^ 2) (hminor : minor < 256 ^ 2) (hnlink : nlink < 256 ^ 2) :
    wp (do setInode ip (setLinks major minor nlink); iupdate sb pick ip)
      (fun _ s' => Turn sb s s' ip) E s := by
  have hfit := h.fits hk
  refine (sync_wp hl h.coherent h.held h.owned hk.lt
    ⟨hfit.type, hmajor, hminor, hnlink, hfit.size, hfit.addrs⟩).mono fun _ s' hs => ?_
  obtain ⟨hsame, htype⟩ := h.copies ip hk.lt hk.ref hk.valid
  have hdata : ∀ c, Data sb c → s'.view c = s.view c := fun c hc =>
    hs.blocks c fun he => hl.not_inode hc hk.lt he.symm
  have htypes : ∀ j, j < sb.ninodes → (onDisk sb s'.view j).type = (onDisk sb s.view j).type := by
    intro j _
    by_cases hj : j = ip
    · rw [hj, hs.inode.type, hsame.type]
      rfl
    · rw [(hs.other j hj).type]
  have hsizes : ∀ j, (onDisk sb s'.view j).size = (onDisk sb s.view j).size := by
    intro j
    by_cases hj : j = ip
    · rw [hj, hs.inode.size, hsame.size]
      rfl
    · rw [(hs.other j hj).size]
  have haddrs : ∀ j i, i ≤ NDIRECT → (onDisk sb s'.view j).addrs i =
    (onDisk sb s.view j).addrs i := by
    intro j i hi
    by_cases hj : j = ip
    · rw [hj, hs.inode.addrs i hi, hsame.addrs i hi]
      rfl
    · rw [(hs.other j hj).addrs i hi]
  have hlive : ∀ j, Live sb (onDisk sb s'.view) j ↔ Live sb (onDisk sb s.view) j := fun j =>
    and_congr_right fun hjn => by rw [htypes j hjn]
  have hslots : ∀ j, Live sb (onDisk sb s.view) j → ∀ σ : Mkfs.Slot,
      σ.addr s'.view (onDisk sb s'.view j) = σ.addr s.view (onDisk sb s.view j) := fun j hj σ =>
    addr_congr σ (fun i hi => haddrs j i hi) fun hz =>
      hdata _ (h.owned.addr_data (σ := .indirect) hj hz)
  refine ⟨⟨hs.coherent, hs.held, ?_, fun j hj => ?_, fun j hjn hr hv => ?_⟩,
    fun j _ hj => hs.other j hj,
    .inr ⟨htypes ip hk.lt, haddrs ip NDIRECT le_rfl⟩⟩
  · have heq : owner sb s'.view (onDisk sb s'.view) = owner sb s.view (onDisk sb s.view) := by
      funext q
      unfold owner
      by_cases hj : Live sb (onDisk sb s.view) q.1
      · rw [if_pos ((hlive q.1).mpr hj), if_pos hj, hslots q.1 hj]
      · rw [if_neg fun hj' => hj ((hlive q.1).mp hj'), if_neg hj]
    rw [heq]
    exact hs.owned
  · have hj' := (hlive j).mp hj
    exact (h.whole j hj').congr (hsizes j) (hslots j hj')
  · rw [hs.ino]
    by_cases hj : j = ip
    · rw [hj, Function.update_self]
      exact ⟨hs.inode, htype⟩
    · rw [Function.update_of_ne hj]
      obtain ⟨h1, h2⟩ := h.copies j hjn (hs.ref ▸ hr) (hs.valid ▸ hv)
      exact ⟨(hs.other j hj).trans h1, h2⟩

/-- The end of a transaction. -/
theorem Tidy.commit (h : Tidy sb s) : Turn sb s s.commit ip := by
  have hv := commit_view s
  refine ⟨⟨h.coherent.commit, h.held, ?_, ?_, ?_⟩,
    fun j _ _ => ?_, .inr (by rw [hv]; exact ⟨rfl, rfl⟩)⟩
  · rw [hv]
    exact h.owned
  · rw [hv]
    exact h.whole
  · rw [hv]
    exact h.copies
  · rw [hv]
    exact Same.refl _

end Xv6.Files
