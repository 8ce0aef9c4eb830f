import Xv6.Files.Only
import Xv6.Files.Writei

/-!
# A file is an array of bytes

`Ready` is what an inode is between two calls: it is in memory, its blocks are its
own, and those of the other inodes, which are on the disk, are theirs.

  > `byte_array`: `writei` replaces the bytes it says it has written, and the file grows
  > to hold them; `readi` returns the bytes there are.

The loop of `readi` only looks (`readFrom_wp`), because every block of the file is there.
-/

namespace Xv6.Files

open Lib
open Mkfs (Block Dinode Superblock BSIZE NDIRECT NINDIRECT MAXFILE)

variable {sb : Superblock} {pick : Nat → Option Nat} {s s' : Fs} {ip : Nat} {mem : Mem}

/-- The inodes: `ip` as it is in memory, the others as they are on the disk. -/
def inodes (sb : Superblock) (s : Fs) (ip : Nat) : Nat → Dinode :=
  Function.update (onDisk sb s.view) ip (s.ino ip)

theorem inodes_self : inodes sb s ip ip = s.ino ip := Function.update_self _ _ _

theorem inodes_ne {j : Nat} (h : j ≠ ip) : inodes sb s ip j = onDisk sb s.view j :=
  Function.update_of_ne h _ _

/-- Inode `ip` is locked, and every block has its owner. -/
structure Ready (sb : Superblock) (s : Fs) (ip : Nat) : Prop where
  coherent : Coherent s
  held : s.held = []
  live : ip < sb.ninodes ∧ (s.ino ip).type ≠ 0
  fits : (s.ino ip).Fits
  owned : Owned sb s.view (owner sb s.view (inodes sb s ip))

theorem Coherent.inodes (h : Coherent s) (O : Nat → Dinode) : Coherent (s.inodes O) :=
  ⟨h.clean, h.pinned, h.held⟩

theorem Ready.sound (h : Ready sb s ip) : Sound sb (s.inodes (inodes sb s ip)) :=
  ⟨h.coherent.inodes _, h.owned⟩

theorem Ready.isLive (h : Ready sb s ip) : Live sb (inodes sb s ip) ip := by
  unfold Live
  rw [inodes_self]
  exact h.live

theorem Allocated.inodes (h : Allocated s ip) : Allocated (s.inodes (inodes sb s ip)) ip := by
  refine ⟨?_, fun k hk => ?_⟩
  · show (Files.inodes sb s ip ip).size ≤ _
    rw [inodes_self]
    exact h.size
  · have hk : k < (Files.inodes sb s ip ip).size := hk
    show Mapped s.view (Files.inodes sb s ip ip) k
    rw [inodes_self] at hk ⊢
    exact h.mapped k hk

theorem Ready.fits_inodes (h : Ready sb s ip) : ((s.inodes (inodes sb s ip)).ino ip).Fits := by
  show (Files.inodes sb s ip ip).Fits
  rw [inodes_self]
  exact h.fits

/-! ## Reading -/

variable {E : Panic → Fs → Prop}

/-- The bytes from `off` on. -/
def bytesOf (V : Nat → Block) (d : Dinode) (off n : Nat) : List UInt8 :=
  (List.range n).map fun k => fileByte V d (off + k)

theorem bytesOf_append (V : Nat → Block) (d : Dinode) (off m n : Nat) :
    bytesOf V d off m ++ bytesOf V d (off + m) n = bytesOf V d off (m + n) := by
  unfold bytesOf
  rw [List.range_add, List.map_append, List.map_map]
  simp only [Function.comp_def, Nat.add_assoc]

/-- The bytes of a block. -/
theorem bytesOf_block (V : Nat → Block) (d : Dinode) {off m : Nat} (h : off % BSIZE + m ≤ BSIZE) :
    (List.range m).map (fun k => V ((slotOf (off / BSIZE)).addr V d) (off % BSIZE + k)) =
    bytesOf V d off m := by
  have hB : BSIZE = 1024 := rfl
  refine List.map_congr_left fun k hk => ?_
  have hk := List.mem_range.mp hk
  unfold fileByte
  rw [hB] at h ⊢
  rw [show (off + k) / 1024 = off / 1024 by omega, show (off + k) % 1024 = off % 1024 + k by omega]

/-- **The loop of `readi`**: by induction on its turns. -/
theorem readFrom_wp (hl : Layout sb) (hs : Sound sb s) (hip : Live sb s.ino ip)
    (ha : Allocated s ip)
    {user_dst : Bool} {addr n off₀ : Nat} (hn : off₀ + n ≤ (s.ino ip).size)
    (hd : ∀ k, k < n → storable mem user_dst (addr + k)) :
    ∀ fuel tot (s₁ : Fs), n - tot ≤ fuel → tot ≤ n → Wrote s s₁ s.view s.ino [] → s₁.held = [] →
      wp (readFrom sb pick mem ip user_dst n fuel tot (off₀ + tot) (addr + tot)) (fun r s' =>
        r = ((n : Int), bytesOf s.view (s.ino ip) (off₀ + tot) (n - tot)) ∧
          Wrote s s' s.view s.ino [] ∧
          s'.held = []) E s₁ := by
  have hB : BSIZE = 1024 := rfl
  have hM : MAXFILE = 268 := rfl
  have hsize := ha.size
  rw [hM, hB] at hsize
  intro fuel
  induction fuel with
  | zero =>
    intro tot s₁ hfuel htot hw hh
    rw [show tot = n by omega]
    refine ⟨?_, hw, hh⟩
    rw [Nat.sub_self]
    rfl
  | succ fuel ih =>
    intro tot s₁ hfuel htot hw hh
    unfold readFrom
    rw [wp_ite]
    refine ⟨fun hlt => ?_, fun hge => ⟨?_, hw, hh⟩⟩
    · have hs₁ : Sound sb s₁ := by
        refine ⟨hw.coherent, ?_⟩
        rw [hw.view, hw.ino]
        exact hs.owned
      have hbn : (off₀ + tot) / BSIZE < MAXFILE := by
        rw [hM, hB]
        omega
      -- a byte of the file has a block, so that `bmap` takes none
      have hm := ha.mapped (off₀ + tot) (by omega)
      unfold Mapped at hm
      rw [wp_bind]
      refine (bmap_got hl hs₁ hh (by rw [hw.ino]; exact hip) hbn).mono fun a s₂ h₂ => ?_
      obtain ⟨hgot, hh₂, -⟩ := h₂
      have hlook := hgot.look (by rw [hw.view, hw.ino]; exact hm)
      have hfull := hgot.full
      have hslot := hgot.slot
      rw [hw.view, hw.ino] at hlook hfull
      rw [hlook.view, hlook.ino] at hslot
      rw [wp_ite]
      refine ⟨fun hz => absurd (hfull hz).1 hm, fun hz => ?_⟩
      have hw₂ := hw.look hlook
      rw [wp_bind]
      refine bread_wp hw₂.coherent (by rw [hh₂]; exact List.not_mem_nil) fun s₃ hw₃ hh₃ => ?_
      rw [hw₂.view, hw₂.ino] at hw₃
      -- the whole piece can be stored
      have hall : either_copyout mem user_dst (addr + tot)
        (min (n - tot) (BSIZE - (off₀ + tot) % BSIZE))
          = (min (n - tot) (BSIZE - (off₀ + tot) % BSIZE), true) :=
        either_copyout_all mem fun k hk => by
          rw [Nat.add_assoc]
          exact hd (tot + k) (by omega)
      dsimp only
      rw [hall]
      dsimp only
      rw [wp_bind, hw₂.view, ← hslot hz]
      have hmm : (off₀ + tot) % BSIZE + min (n - tot) (BSIZE - (off₀ + tot) % BSIZE) ≤ BSIZE := by
        rw [hB]
        omega
      rw [bytesOf_block _ _ hmm]
      generalize hme : min (n - tot) (BSIZE - (off₀ + tot) % BSIZE) = m at *
      have hpos : 0 < m ∧ tot + m ≤ n := by
        rw [hB] at hme
        omega
      have hw₄ := (hw₂.look hw₃).drop ((slotOf ((off₀ + tot) / BSIZE)).addr s.view (s.ino ip))
      have hh₄ : (s₃.drop ((slotOf ((off₀ + tot) / BSIZE)).addr s.view (s.ino ip))).held = [] := by
        show s₃.held.erase _ = []
        rw [hh₃, hh₂, hslot hz, List.erase_cons_head]
      have hnext := ih (tot + m) _ (by omega) hpos.2 hw₄ hh₄
      rw [← Nat.add_assoc, ← Nat.add_assoc] at hnext
      rw [if_neg (show ¬(true = false) from Bool.noConfusion)]
      show wp (readFrom sb pick mem ip user_dst n fuel (tot + m) (off₀ + tot + m)
        (addr + tot + m) >>= _) _ E
        (s₃.drop _)
      rw [wp_bind]
      refine hnext.mono fun r s₅ h₅ => ?_
      obtain ⟨hr, hw₅, hh₅⟩ := h₅
      rw [hr]
      refine ⟨?_, hw₅, hh₅⟩
      rw [bytesOf_append, show m + (n - (tot + m)) = n - tot by omega]
    · rw [show tot = n by omega, Nat.sub_self]
      rfl

/-- What `readi` returns. -/
def readSpec (V : Nat → Block) (d : Dinode) (off n : Nat) : Int × List UInt8 :=
  if off ≤ d.size ∧ off + n < 2 ^ 32 then
    ((min (off + n) d.size - off : Nat), bytesOf V d off (min (off + n) d.size - off))
  else (0, [])

theorem readi_wp (hl : Layout sb) (hs : Sound sb s) (hh : s.held = []) (hip : Live sb s.ino ip)
    (ha : Allocated s ip) {user_dst : Bool} {addr off n : Nat}
    (hoff : off < 2 ^ 32) (hn : n < 2 ^ 32)
    (hd : ∀ k, k < n → storable mem user_dst (addr + k)) :
    wp (readi sb pick mem ip user_dst addr off n) (fun r s' =>
      r = readSpec s.view (s.ino ip) off n ∧ Wrote s s' s.view s.ino [] ∧ s'.held = []) E s := by
  have hrefl := Wrote.refl hs.coherent
  unfold readi readSpec
  rw [wp_bind, wp_get, wp_ite]
  refine ⟨fun hr => ⟨?_, hrefl, hh⟩, fun hr => ?_⟩
  · rw [if_neg (by omega)]
  · have hsum : (off + n) % 2 ^ 32 = off + n := by omega
    have hin : off ≤ (s.ino ip).size ∧ off + n < 2 ^ 32 := by omega
    dsimp only
    rw [if_pos hin, hsum]
    generalize hm : (if (s.ino ip).size < off + n then (s.ino ip).size - off else n) = m
    have hmin : min (off + n) (s.ino ip).size - off = m := by
      rw [← hm]
      split <;> omega
    have hle : off + m ≤ (s.ino ip).size ∧ m ≤ n := by
      rw [← hmin]
      omega
    rw [hmin]
    exact readFrom_wp hl hs hip ha hle.1 (fun k hk => hd k (by omega)) m 0 s (by omega)
      (Nat.zero_le m) hrefl hh

/-! ## The array -/

/-- The disk is full. -/
def Full (sb : Superblock) (s : Fs) : Prop := ∀ b, b < sb.size → used sb s.view b

/-- Inode `j` and its bytes are as before. -/
structure Untouched (sb : Superblock) (s s' : Fs) (j : Nat) : Prop where
  inode : (onDisk sb s'.view j).Same (onDisk sb s.view j)
  byte : ∀ k, k / BSIZE < MAXFILE → Mapped s.view (onDisk sb s.view j) k →
    Mapped s'.view (onDisk sb s'.view j) k ∧
      fileByte s'.view (onDisk sb s'.view j) k = fileByte s.view (onDisk sb s.view j) k

/-- After `tot` bytes of the source were written at `off`. -/
structure Replaced (sb : Superblock) (s s' : Fs) (ip off tot : Nat) (src : Nat → UInt8) : Prop where
  size : (s'.ino ip).size = max (s.ino ip).size (off + tot)
  byte : ∀ k, k < (s'.ino ip).size → fileByte s'.view (s'.ino ip) k =
    if off ≤ k ∧ k < off + tot then src (k - off) else fileByte s.view (s.ino ip) k
  rest : s'.ino ip = { s.ino ip with size := (s'.ino ip).size, addrs := (s'.ino ip).addrs }
  inode : (onDisk sb s'.view ip).Same (s'.ino ip)
  memory : ∀ j, j ≠ ip → s'.ino j = s.ino j
  other : ∀ j, j ≠ ip → Live sb (onDisk sb s.view) j → Untouched sb s s' j
  ready : Ready sb s' ip
  allocated : Allocated s' ip

theorem addr_same {V : Nat → Block} {d d' : Dinode} (h : d'.Same d) (σ : Mkfs.Slot) :
    σ.addr V d' = σ.addr V d :=
  addr_congr σ (fun i hi => h.addrs i hi) fun _ => rfl

theorem owner_same {V : Nat → Block} {I I' : Nat → Dinode} (h : ∀ i, i < sb.ninodes →
    (I' i).Same (I i)) :
    owner sb V I' = owner sb V I := by
  funext p
  obtain ⟨i, σ⟩ := p
  have hl : Live sb I' i ↔ Live sb I i := and_congr_right fun hi => by rw [(h i hi).type]
  unfold owner
  dsimp only
  by_cases hi : Live sb I i
  · rw [if_pos (hl.mpr hi), if_pos hi, addr_same (h i hi.1)]
  · rw [if_neg fun hc => hi (hl.mp hc), if_neg hi]

/-- Seen with the other inodes where they are. -/
theorem Wrotei.replaced {off tot : Nat} {src : Nat → UInt8} {s'' : Fs} (hl : Layout sb)
    (hr : Ready sb s ip)
    (ha : Allocated s ip) (h : Wrotei sb (s.inodes (inodes sb s ip)) s' ip off tot src)
    (hmax : off + tot ≤ MAXFILE * BSIZE) (hs : s''.inodes s'.ino = s')
    (hi : s''.ino = Function.update s.ino ip (s'.ino ip)) : Replaced sb s s'' ip off tot src := by
  have hB : BSIZE = 1024 := rfl
  have hM : MAXFILE = 268 := rfl
  have hv : (s''.inodes s'.ino).view = s'.view := congrArg Fs.view hs
  have hv : s''.view = s'.view := hv
  have hheld : (s''.inodes s'.ino).held = s'.held := congrArg Fs.held hs
  have hself : s''.ino ip = s'.ino ip := by rw [hi, Function.update_self]
  have hbase : (s.inodes (inodes sb s ip)).ino ip = s.ino ip := inodes_self
  have hsize := h.size
  have hsame := h.same
  have hbyte := h.byte
  rw [hbase] at hsize hsame hbyte
  have htype : (s'.ino ip).type = (s.ino ip).type := by rw [hsame]
  have hlive : Live sb s'.ino ip := ⟨hr.live.1, by rw [htype]; exact hr.live.2⟩
  have hother : ∀ j, j ≠ ip → s'.ino j = onDisk sb s.view j := fun j hj =>
    (h.other j hj).1.trans (inodes_ne hj)
  have hdisk : ∀ j, j ≠ ip → j < sb.ninodes → (onDisk sb s'.view j).Same (onDisk sb s.view j) :=
    fun j hj hjn => (h.other j hj).2 hjn
  have hinodes : ∀ i, i < sb.ninodes → (inodes sb s'' ip i).Same (s'.ino i) := by
    intro i hin
    by_cases hii : i = ip
    · rw [hii, inodes_self, hself]
      exact Same.refl _
    · rw [inodes_ne hii, hv, hother i hii]
      exact hdisk i hii hin
  refine ⟨by rw [hself]; exact hsize,
    fun k hk => ?_, by rw [hself]; exact hsame, by rw [hself, hv]; exact h.inode,
    fun j hj => by rw [hi, Function.update_of_ne hj], fun j hj hlj => ⟨?_, fun k hkm hk => ?_⟩,
    ⟨?_, ?_, ?_, ?_, ?_⟩, ⟨?_, fun k hk => ?_⟩⟩
  · rw [hself] at hk
    rw [hself, hv]
    exact hbyte k hk
  · rw [hv]
    exact hdisk j hj hlj.1
  · -- the blocks of the other inode are as they were
    have hlj' : Live sb (s.inodes (inodes sb s ip)).ino j := by
      show Live sb (inodes sb s ip) j
      unfold Live
      rw [inodes_ne hj]
      exact hlj
    have hij : (s.inodes (inodes sb s ip)).ino j = onDisk sb s.view j := inodes_ne hj
    have h0 : (slotOf (k / BSIZE)).addr (s.inodes (inodes sb s ip)).view
      ((s.inodes (inodes sb s ip)).ino j) ≠ 0 := by
      rw [hij]
      exact hk
    have haddr := h.addrs j _ hj hlj' h0
    have hdata := h.data j _ hj hlj' (slotOf_ne_indirect _) h0
    rw [hij] at haddr hdata h0
    rw [hother j hj] at haddr
    have hnew : (slotOf (k / BSIZE)).addr s'.view (onDisk sb s'.view j)
        = (slotOf (k / BSIZE)).addr s.view (onDisk sb s.view j) := by
      rw [addr_same (hdisk j hj hlj.1)]
      exact haddr
    unfold Mapped fileByte
    rw [hv, hnew]
    exact ⟨hk, congrFun hdata _⟩
  · have hc := h.sound.coherent
    rw [← hs] at hc
    exact ⟨hc.clean, hc.pinned, hc.held⟩
  · exact hheld.trans h.held
  · rw [hself]
    exact hlive
  · rw [hself]
    have h4 := ha.size
    rw [hM, hB] at h4 hmax
    refine ⟨?_, ?_, ?_, ?_, ?_, fun i hle => h.sound.owned.fits hl hlive hle⟩
    · rw [hsame]; exact hr.fits.type
    · rw [hsame]; exact hr.fits.major
    · rw [hsame]; exact hr.fits.minor
    · rw [hsame]; exact hr.fits.nlink
    · rw [hsize]
      omega
  · rw [hv, owner_same hinodes]
    exact h.sound.owned
  · rw [hself, hsize]
    exact Nat.max_le.mpr ⟨ha.size, hmax⟩
  · rw [hself] at hk
    rw [hself, hv]
    exact h.mapped k hk

theorem full_of_freeList {V : Nat → Block} {own : Nat × Mkfs.Slot → Option Nat}
    (ho : Owned sb V own)
    (h : freeList sb V = []) {b : Nat} (hb : b < sb.size) : used sb V b := by
  by_contra hn
  have hm := mem_freeList.mpr ⟨ho.free_data hb hn, hn⟩
  rw [h] at hm
  cases hm

/-- What a call of `writei` leaves when its source can be read. -/
def WriteSpec (sb : Superblock) (s : Fs) (ip off n : Nat) (src : Nat → UInt8) (r : Int)
    (s' : Fs) : Prop :=
  if (s.ino ip).size < off ∨ 2 ^ 32 ≤ off + n ∨ MAXFILE * BSIZE < off + n then r = -1 ∧ s' = s
  else ∃ tot : Nat, r = tot ∧ tot ≤ n ∧ (tot < n → Full sb s') ∧ Replaced sb s s' ip off tot src

/-- What a call of `readi` leaves when its destination can be written. -/
def ReadSpec (sb : Superblock) (s : Fs) (ip off n : Nat) (r : Int × List UInt8) (s' : Fs) : Prop :=
  r = readSpec s.view (s.ino ip) off n ∧ s'.view = s.view ∧ s'.ino = s.ino ∧
    (∀ b, b ∈ s'.lh ↔ b ∈ s.lh) ∧
    Ready sb s' ip

/-- **`writei` and `readi` implement an array of bytes.** -/
theorem byte_array (hl : Layout sb) (hr : Ready sb s ip) (ha : Allocated s ip) {off n : Nat}
    (hoff : off < 2 ^ 32)
    (hn : n < 2 ^ 32) (user : Bool) (addr : Nat) :
    ((∀ k, k < n → byteAt mem user (addr + k) ≠ none) →
      wp (writei sb pick mem ip user addr off n) (WriteSpec sb s ip off n (srcByte mem user addr))
        (fun _ _ => False) s) ∧
    ((∀ k, k < n → storable mem user (addr + k)) →
      wp (readi sb pick mem ip user addr off n) (ReadSpec sb s ip off n) (fun _ _ => False) s) := by
  have hM : MAXFILE * BSIZE = 274432 := rfl
  have ha' : Allocated (s.inodes (inodes sb s ip)) ip := ha.inodes
  have hfit := hr.fits_inodes
  have hino : (s.inodes (inodes sb s ip)).ino ip = s.ino ip := inodes_self
  have hrefuse : Refused (s.ino ip) off n ↔
      ((s.ino ip).size < off ∨ 2 ^ 32 ≤ off + n ∨ MAXFILE * BSIZE < off + n) := by
    unfold Refused
    rw [hM]
    omega
  refine ⟨fun hsrc => ?_, fun hdst => ?_⟩
  · refine (only_writei sb pick mem user addr off n).wp inodes_self
      (writei_wp hl hr.sound hr.held hr.isLive hfit ha'
      hoff hn (fun hre _ s'' hs hi => ?_) (fun hre s' _ h _ s'' hs hi => ?_)
      (fun hre tot s' _ hf hfree h _ s'' hs hi => ?_) fun hre tot s₁ a l _ hf => ?_)
    all_goals rw [hino, hrefuse] at hre
    · unfold WriteSpec
      rw [if_pos hre]
      rw [hino, Function.update_eq_self] at hi
      refine ⟨rfl, ?_⟩
      calc s'' = (s''.inodes (inodes sb s ip)).inodes s''.ino := rfl
        _ = (s.inodes (inodes sb s ip)).inodes
          s.ino := by rw [hi, show s''.inodes (inodes sb s ip) = _ from hs]
        _ = s := rfl
    · unfold WriteSpec
      rw [if_neg hre]
      exact ⟨n, rfl, le_rfl, fun hlt => absurd hlt (Nat.lt_irrefl n),
        h.replaced hl hr ha (by omega) hs hi⟩
    · unfold WriteSpec
      rw [if_neg hre]
      have hlt := hf.lt
      have hrep := h.replaced hl hr ha (by omega) hs hi
      refine ⟨tot, rfl, by omega, fun _ b hb => ?_, hrep⟩
      have hv : (s''.inodes s'.ino).view = s'.view := congrArg Fs.view hs
      have hv : s''.view = s'.view := hv
      rw [← hv] at hfree
      exact full_of_freeList hrep.ready.owned hfree hb
    · -- the source can be read
      have hcop := either_copyin_copied mem user (addr + tot) (piece off n tot)
      rw [hf.copy] at hcop
      obtain ⟨hlen, hstop⟩ := hcop.stop rfl
      have hlt := hf.lt
      refine absurd hstop ?_
      dsimp only at hlen ⊢
      rw [Nat.add_assoc]
      refine hsrc _ ?_
      unfold piece at hlen
      omega
  · refine (only_readi sb pick mem user addr off n).wp inodes_self
      ((readi_wp hl hr.sound hr.held hr.isLive ha'
      hoff hn hdst).mono fun r s' h _ s'' hs hi => ?_)
    obtain ⟨hres, hw, hh⟩ := h
    rw [hino] at hres
    have hv : (s''.inodes s'.ino).view = s'.view := congrArg Fs.view hs
    have hv : s''.view = s.view := hv.trans hw.view
    have hi : s''.ino = s.ino := by
      rw [hi, hw.ino, hino, Function.update_eq_self]
    have hheld : (s''.inodes s'.ino).held = s'.held := congrArg Fs.held hs
    have hlh : (s''.inodes s'.ino).lh = s'.lh := congrArg Fs.lh hs
    have hlh : s''.lh = s'.lh := hlh
    have hc := hw.coherent
    rw [← hs] at hc
    refine ⟨hres, hv, hi, fun b => ?_, ⟨hc.clean, hc.pinned, hc.held⟩, hheld.trans hh, ?_, ?_, ?_⟩
    · rw [hlh, hw.lh b]
      exact or_iff_left List.not_mem_nil
    · rw [hi]
      exact hr.live
    · rw [hi]
      exact hr.fits
    · unfold inodes
      rw [hv, hi]
      exact hr.owned

/-! ## An empty file -/

/-- A disk of 40 blocks, 20 of them for data. -/
def small : Superblock := ⟨Mkfs.FSMAGIC, 40, 20, 16, 0, 0, 2, 3⟩

theorem small_layout : Layout small where
  inodes i hi := by
    have hi : i < 16 := hi
    show i / 16 + 2 < 3
    omega
  bitmap b hb := by
    have hb : b < 40 := hb
    show b / 8192 + 3 < 20
    omega
  boot := by decide
  size := by decide

/-- Inode 1 has just been allocated, and is locked. -/
def blank : Fs where
  disk b := if b = 3 then Mkfs.bitmap 20 else Mkfs.zeroes
  cache _ := none
  lh := []
  held := []
  turn := 0
  op := []
  ino _ := ⟨Mkfs.T_FILE, 0, 0, 1, 0, fun _ => 0⟩
  valid i := i == 1
  ref i := if i = 1 then 1 else 0

theorem blank_used {b : Nat} (hb : b < 40) : used small blank.view b ↔ b < 20 := by
  have hz : BBLOCK small b = 3 := by
    show b / 8192 + 3 = 3
    omega
  have hm : b % Mkfs.BPB = b := Nat.mod_eq_of_lt (show b < 8192 by omega)
  unfold used
  rw [hz, hm]
  exact Mkfs.marked_bitmap 20 b

theorem blank_owner (p : Nat × Mkfs.Slot) :
    owner small blank.view (inodes small blank 1) p = none := by
  obtain ⟨i, σ⟩ := p
  unfold owner
  split
  next hlive =>
    obtain ⟨hi, ht⟩ := hlive
    dsimp only at hi ht ⊢
    by_cases h1 : i = 1
    · rw [h1, inodes_self]
      cases σ <;> rfl
    · rw [inodes_ne h1] at ht
      refine absurd ?_ ht
      refine Bytes.get_zero fun k _ => ?_
      have hi : i < 16 := hi
      have hb : IBLOCK small i = 2 := by
        show i / 16 + 2 = 2
        omega
      rw [hb]
      rfl
  next => rfl

theorem blank_ready : Ready small blank 1 where
  coherent := ⟨fun h => (by cases h), fun h => (by cases h), fun h => (by cases h)⟩
  held := rfl
  live := ⟨by decide, by decide⟩
  fits := ⟨by decide, by decide, by decide, by decide, by decide, fun _ _ => Nat.two_pow_pos 32⟩
  owned := by
    refine ⟨⟨freeList_nodup _, fun b => ?_, fun {b q} hq => ?_, fun {q r b} hq => ?_⟩,
      fun b hb => ?_⟩
    · rw [mem_freeList]
      constructor
      · intro hd
        have hd2 : b < 40 := hd.2
        have hd1 : 20 ≤ b := hd.1
        exact .inl ⟨hd, by rw [blank_used hd2]; omega⟩
      · rintro (h | ⟨q, hq⟩)
        · exact h.1
        · rw [blank_owner] at hq
          cases hq
    · rw [blank_owner] at hq
      cases hq
    · rw [blank_owner] at hq
      cases hq
    · have hb : b < 20 := hb
      exact (blank_used (by omega)).mpr hb

theorem blank_allocated : Allocated blank 1 where
  size := Nat.zero_le _
  mapped k hk := absurd hk (Nat.not_lt_zero k)

/-- A page of the kernel. -/
def kernelMem : Mem := ⟨fun _ => none, fun _ => false, fun va => UInt8.ofNat va⟩

/-- Three bytes are written to the empty file; on the file they make, a write goes over two
of them and on into the next block, and a read takes them from its second byte on. -/
theorem byte_array_filled : ∃ s, exec (writei small (fun _ => none) kernelMem 1 false 7 0 3) blank =
      (.ok 3, s) ∧ fileByte s.view (s.ino 1) 2 = 9 ∧
    wp (writei small (fun _ => none) kernelMem 1 false 20 1 1030)
      (WriteSpec small s 1 1 1030 (srcByte kernelMem false 20)) (fun _ _ => False) s ∧
    wp (readi small (fun _ => none) kernelMem 1 false 7 1 5) (fun r s' =>
      r = readSpec s.view (s.ino 1) 1 5 ∧ s'.view = s.view) (fun _ _ => False) s := by
  have hret : (exec (writei small (fun _ => none) kernelMem 1 false 7 0 3) blank).1.toOption =
      some 3 := by
    decide +kernel
  have hwrite : wp (writei small (fun _ => none) kernelMem 1 false 7 0 3)
      (WriteSpec small blank 1 0 3 (srcByte kernelMem false 7)) (fun _ _ => False) blank :=
    (byte_array small_layout blank_ready blank_allocated (by decide) (by decide) false 7).1
      fun _ _ => Option.some_ne_none _
  obtain ⟨r, s, hx, hspec⟩ := hwrite.returns (fun _ _ he => he)
  rw [hx] at hret
  obtain rfl := Option.some.inj hret
  unfold WriteSpec at hspec
  rw [if_neg (by decide)] at hspec
  obtain ⟨tot, htot, -, -, hrep⟩ := hspec
  obtain rfl : tot = 3 := by omega
  refine ⟨s, hx, ?_,
    (byte_array small_layout hrep.ready hrep.allocated (by decide) (by decide) false 20).1
      fun _ _ => Option.some_ne_none _,
    ((byte_array small_layout hrep.ready hrep.allocated (by decide) (by decide) false 7).2
      fun _ _ hc => Bool.noConfusion hc).mono fun _ _ hr => ⟨hr.1, hr.2.1⟩⟩
  have hsize : (s.ino 1).size = 3 := hrep.size
  rw [hrep.byte 2 (by omega)]
  rfl

end Xv6.Files
