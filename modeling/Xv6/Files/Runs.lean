import Xv6.Lib.Run
import Xv6.Files.Ended

/-!
# Every block has one owner

The calls of the file system in any order, on any inodes, each with the buffers that are
recycled meanwhile.

  > `always_divided`: after every call the bit of a block is set exactly when a slot has it,
  > and one slot has it only; what the size of a file asks for is there; and no call comes
  > to free a block that is free.

Some blocks of data may be seen as what is not on the disk (`Ended`), but their bytes say
nothing about who has which block: the state is `Alike` a tidy one. What is on the disk when
the log is empty is divided in the same way.
-/

namespace Xv6.Files

open Lib
open Mkfs (Block Dinode Superblock nonzero BSIZE NDIRECT NINDIRECT MAXFILE)

variable {sb : Superblock} {pick : Nat → Option Nat} {s s' t t' : Fs} {ip : Nat} {D D' : Nat → Prop}
  {V V' : Nat → Block}

/-- The blocks are divided between the slots of the inodes in use and the bitmap. -/
structure Divided (sb : Superblock) (V : Nat → Block) : Prop where
  bit : ∀ b, Data sb b →
    (used sb V b ↔ ∃ i σ, Live sb (onDisk sb V) i ∧ Mkfs.Slot.addr V (onDisk sb V i) σ = b)
  once : ∀ i j (σ τ : Mkfs.Slot), Live sb (onDisk sb V) i → Live sb (onDisk sb V) j →
    σ.addr V (onDisk sb V i) ≠ 0 → σ.addr V (onDisk sb V i) =
    τ.addr V (onDisk sb V j) → i = j ∧ σ = τ
  data : ∀ i (σ : Mkfs.Slot), Live sb (onDisk sb V) i → σ.addr V (onDisk sb V i) ≠ 0 →
    Data sb (σ.addr V (onDisk sb V i))
  rest : ∀ b, b < nmeta sb → used sb V b
  size : ∀ i, Live sb (onDisk sb V) i → (onDisk sb V i).size ≤ MAXFILE * BSIZE
  there : ∀ i bn, Live sb (onDisk sb V) i → bn < ((onDisk sb V i).size + BSIZE - 1) / BSIZE →
    (slotOf bn).addr V (onDisk sb V i) ≠ 0

theorem Owned.divided (h : Owned sb V (owner sb V (onDisk sb V))) (hl : Layout sb)
    (hw : ∀ i, Live sb (onDisk sb V) i → Complete V (onDisk sb V i)) : Divided sb V where
  bit b hb := by
    rw [h.used_iff hb]
    constructor
    · rintro ⟨⟨i, σ⟩, hp⟩
      obtain ⟨hi, ha, -⟩ := owner_some.mp hp
      exact ⟨i, σ, hi, ha⟩
    · rintro ⟨i, σ, hi, rfl⟩
      have hpos := hl.boot
      have hle := hb.1
      exact ⟨(i, σ), owner_some.mpr ⟨hi, rfl, by omega⟩⟩
  once _ _ _ _ hi hj h0 he := h.once hi hj h0 he
  data _ _ hi h0 := h.addr_data hi h0
  rest := h.rest
  size i hi := (hw i hi).size
  there i bn hi hlt := by
    have hB : BSIZE = 1024 := rfl
    have hm := (hw i hi).mapped (bn * BSIZE) (by rw [hB] at hlt ⊢; omega)
    unfold Mapped at hm
    rwa [Nat.mul_div_cancel _ (by rw [hB]; omega)] at hm

/-- The other way round. -/
theorem Divided.owned (hl : Layout sb) (h : Divided sb V) :
    Owned sb V (owner sb V (onDisk sb V)) := by
  refine ⟨⟨freeList_nodup V, fun b => ?_, fun {b q} hq hm => ?_, fun {q r b} hq hr => ?_⟩, h.rest⟩
  · constructor
    · intro hb
      by_cases hu : used sb V b
      · obtain ⟨i, σ, hi, ha⟩ := (h.bit b hb).mp hu
        have hpos := hl.boot
        have hle := hb.1
        exact .inr ⟨(i, σ), owner_some.mpr ⟨hi, ha, by omega⟩⟩
      · exact .inl (mem_freeList.mpr ⟨hb, hu⟩)
    · rintro (hm | ⟨⟨i, σ⟩, hq⟩)
      · exact (mem_freeList.mp hm).1
      · obtain ⟨hi, rfl, h0⟩ := owner_some.mp hq
        exact h.data i σ hi h0
  · obtain ⟨i, σ⟩ := q
    obtain ⟨hi, rfl, h0⟩ := owner_some.mp hq
    exact (mem_freeList.mp hm).2 ((h.bit _ (h.data i σ hi h0)).mpr ⟨i, σ, hi, rfl⟩)
  · obtain ⟨i, σ⟩ := q
    obtain ⟨j, τ⟩ := r
    obtain ⟨hi, rfl, h0⟩ := owner_some.mp hq
    obtain ⟨hj, he, -⟩ := owner_some.mp hr
    obtain ⟨rfl, rfl⟩ := h.once i j σ τ hi hj h0 he.symm
    rfl

theorem Divided.complete (h : Divided sb V) {i : Nat} (hi : Live sb (onDisk sb V) i) :
    Complete V (onDisk sb V i) := by
  have hB : BSIZE = 1024 := rfl
  refine ⟨h.size i hi, fun k hk => h.there i (k / BSIZE) hi ?_⟩
  rw [hB]
  omega

/-- Blocks without addresses do not matter. -/
theorem Tidy.divided (hl : Layout sb) (h : Tidy sb t) (hD : ∀ b, D b → Plain sb t.view b)
    (hV : ∀ b, ¬D b → V b = t.view b) : Divided sb V := by
  have hinode : ∀ i, i < sb.ninodes → onDisk sb V i = onDisk sb t.view i := fun i hi =>
    onDisk_congr (hV _ fun hd => hl.not_inode (hD _ hd).1 hi rfl)
  have hlive : ∀ i, Live sb (onDisk sb V) i ↔ Live sb (onDisk sb t.view) i := fun i =>
    and_congr_right fun hi => by rw [hinode i hi]
  have hslot : ∀ i, Live sb (onDisk sb t.view) i → ∀ σ : Mkfs.Slot,
      σ.addr V (onDisk sb V i) = σ.addr t.view (onDisk sb t.view i) := by
    intro i hi σ
    rw [hinode i hi.1]
    exact addr_congr σ (fun _ _ => rfl) fun _ => hV _ fun hd => (hD _ hd).2 i hi rfl
  have howner : owner sb V (onDisk sb V) = owner sb t.view (onDisk sb t.view) := by
    funext q
    unfold owner
    by_cases hi : Live sb (onDisk sb t.view) q.1
    · rw [if_pos ((hlive q.1).mpr hi), if_pos hi, hslot q.1 hi]
    · rw [if_neg fun hi' => hi ((hlive q.1).mp hi'), if_neg hi]
  refine Owned.divided ?_ hl fun i hi => ?_
  · rw [howner]
    exact h.owned.view fun c hc => hV c fun hd => hl.not_bitmap (hD c hd).1 hc
  · have hi' := (hlive i).mp hi
    exact (h.whole i hi').congr (by rw [hinode i hi.1]) (hslot i hi')

/-! ## The calls -/

inductive Call
  | iget (inum : Nat)
  | ialloc (type : Nat)
  | ilock (ip : Nat)
  | readi (ip : Nat) (mem : Mem) (user_dst : Bool) (dst off n : Nat)
  | writei (ip : Nat) (mem : Mem) (user_src : Bool) (src off n : Nat)
  | itrunc (ip : Nat)
  /-- `create`, `link` or `unlink` sets fields of an inode, and calls `iupdate` -/
  | links (ip major minor nlink : Nat)
  | iput (ip : Nat)
  /-- the last operation of a transaction ends -/
  | commit

def Call.run (sb : Superblock) (pick : Nat → Option Nat) : Call → Kern PUnit
  | iget inum => Files.iget inum
  | ialloc type => do
    let _ ← Files.ialloc sb pick type
    pure ⟨⟩
  | ilock ip => Files.ilock sb pick ip
  | readi ip mem user_dst dst off n => do
    let _ ← Files.readi sb pick mem ip user_dst dst off n
    pure ⟨⟩
  | writei ip mem user_src src off n => do
    let _ ← Files.writei sb pick mem ip user_src src off n
    pure ⟨⟩
  | itrunc ip => Files.itrunc sb pick ip
  | links ip major minor nlink => do
    setInode ip (setLinks major minor nlink)
    iupdate sb pick ip
  | iput ip => Files.iput sb pick ip
  | commit => modify Fs.commit

/-- What a caller sees to: the inode is locked, and the arguments have their types. -/
def Call.Ok (sb : Superblock) (s : Fs) : Call → Prop
  | iget _ | commit => True
  | ialloc type => type < 2 ^ 16
  | ilock ip | iput ip => ip < sb.ninodes
  | readi ip _ _ _ off n | writei ip _ _ _ off n => Locked sb s ip ∧ off < 2 ^ 32 ∧ n < 2 ^ 32
  | itrunc ip => Locked sb s ip
  | links ip major minor nlink => Locked sb s ip ∧ major < 2 ^ 16 ∧ minor < 2 ^ 16 ∧ nlink < 2 ^ 16

/-- A panic is the end. -/
def call (sb : Superblock) (pick : Nat → Option Nat) (s : Fs) (c : Call) : Option Fs :=
  match exec (c.run sb pick) s with
  | (.ok _, s') => some s'
  | (.error _, _) => none

/-! ## What a call keeps -/

def Kept (sb : Superblock) (s : Fs) : Prop :=
  ∃ t D, Tidy sb t ∧ Alike D s t ∧ ∀ b, D b → Plain sb t.view b

theorem Plain.turn (hl : Layout sb) {b : Nat} (h : Plain sb t.view b) (ht : Turn sb t t' ip) :
    Plain sb t'.view b := by
  have hpos := hl.boot
  have hle := h.1.1
  refine ⟨h.1, fun j hj => ?_⟩
  by_cases hjp : j = ip
  · subst hjp
    rcases ht.indirect with h0 | ⟨htype, he⟩
    · rw [h0]
      omega
    · rw [he]
      exact h.2 j ⟨hj.1, htype ▸ hj.2⟩
  · have hsame := ht.other j hj.1 hjp
    rw [hsame.addrs NDIRECT le_rfl]
    exact h.2 j ⟨hj.1, hsame.type ▸ hj.2⟩

variable {α : Type}

/-- **A call that takes no block**: what it does to a tidy state, it does to one that is alike. -/
theorem Kept.turn {m : Kern α} {E : Panic → Fs → Prop} (hl : Layout sb)
    (hD : ∀ b, D b → Plain sb t.view b)
    (hb : both m m (fun _ s' _ t' => Alike D s' t') s t)
    (ht : wp m (fun _ t' => ∃ j, Turn sb t t' j) (fun e _ => ∀ t', E e t') t) :
    wp m (fun _ s' => Kept sb s') E s := by
  refine ((hb.wp ht).mono fun _ s' hr => ?_).monoStop fun e s' ⟨_, he⟩ => he s'
  obtain ⟨_, t', ha, j, hj⟩ := hr
  exact ⟨t', D, hj.tidy, ha, fun b hb => (hD b hb).turn hl hj⟩

theorem Alike.locked (h : Alike D s t) (hk : Locked sb s ip) : Locked sb t ip :=
  ⟨hk.lt, h.ref ▸ hk.ref, h.valid ▸ hk.valid⟩

/-- The block for addresses of an inode that is locked is not one that differs. -/
theorem Tidy.indirect (h : Tidy sb t) (hD : ∀ b, D b → Plain sb t.view b) (hk : Locked sb t ip) :
    ¬D ((t.ino ip).addrs NDIRECT) := by
  intro hd
  refine (hD _ hd).2 ip (h.live hk) ?_
  exact (h.same hk).addrs NDIRECT le_rfl

/-- **`writei`** is another matter: a block that it takes may hold addresses. -/
theorem Kept.writei (hl : Layout sb) (ht : Tidy sb t) (h : Alike D s t)
    (hD : ∀ b, D b → Plain sb t.view b)
    (hk : Locked sb t ip) {mem : Mem} {user : Bool} {addr off n : Nat} (hoff : off < 2 ^ 32)
    (hn : n < 2 ^ 32) :
    wp (Files.writei sb pick mem ip user addr off n) (fun _ s' => Kept sb s')
      (fun _ _ => False) s := by
  have hbits : ∀ c, Bitmap sb c → ¬D c := fun c hc hd => hl.not_bitmap (hD c hd).1 hc
  have hagree : Agree D ip s t := ⟨D, fun _ hd => hd, h, fun _ => ht.indirect hD hk⟩
  refine ((@Agree.writei sb pick D s t ip mem hbits hagree user addr off n).wp
    (ht.writei hl hk hoff hn)).mono (fun _ s' hr => ?_) |>.monoStop fun _ _ ⟨_, he⟩ => he
  obtain ⟨_, t', ⟨-, D₁, hD₁, ha₁, hind⟩, u, D₂, hg, ha₂, hD₂⟩ := hr
  refine ⟨u, _, hg.tidy, ha₁.trans ha₂, fun b hb => hb.elim (fun hb => ?_) (hD₂ b)⟩
  have hp := hD b (hD₁ b hb)
  refine ⟨hp.1, fun j hj he => ?_⟩
  by_cases hjp : j = ip
  · subst hjp
    have hsame := (hg.tidy.same hg.locked).addrs NDIRECT le_rfl
    rw [← ha₂.ino, he] at hsame
    have hpos := hl.boot
    have hle := hp.1.1
    rw [← hsame] at hind
    exact hind (by omega) hb
  · have hsame := hg.other j hj.1 hjp
    rw [hsame.addrs NDIRECT le_rfl] at he
    exact hp.2 j ⟨hj.1, hsame.type ▸ hj.2⟩ he

/-- No bit was set or cleared, and nothing was logged. -/
structure Looked (sb : Superblock) (s s' : Fs) : Prop where
  bit : ∀ b, b < sb.size → (used sb s'.view b ↔ used sb s.view b)
  lh : ∀ b, b ∈ s'.lh ↔ b ∈ s.lh
  op : ∀ b, b ∈ s'.op ↔ b ∈ s.op

theorem Kept.readi (hl : Layout sb) (ht : Tidy sb t) (h : Alike D s t)
    (hD : ∀ b, D b → Plain sb t.view b)
    (hk : Locked sb t ip) {mem : Mem} {user : Bool} {dst off n : Nat} (hoff : off < 2 ^ 32)
    (hn : n < 2 ^ 32) :
    wp (Files.readi sb pick mem ip user dst off n) (fun _ s' => Kept sb s' ∧ Looked sb s s')
      (fun _ _ => False) s := by
  have hbits : ∀ c, Bitmap sb c → ¬D c := fun c hc hd => hl.not_bitmap (hD c hd).1 hc
  have hagree : Agree D ip s t := ⟨D, fun _ hd => hd, h, fun _ => ht.indirect hD hk⟩
  refine ((@Agree.readi sb pick D s t ip mem hbits hagree user dst off n).wp
    (ht.readi hl hk hoff hn)).mono (fun _ s' hr => ?_) |>.monoStop fun _ _ ⟨_, he⟩ => he
  obtain ⟨_, t', ⟨-, D₁, hD₁, ha, -⟩, hw, hh⟩ := hr
  have hturn : Turn sb t t' ip := ht.look hw hh
  refine ⟨⟨t', D₁, hturn.tidy, ha, fun b hb => (hD b (hD₁ b hb)).turn hl hturn⟩, fun b hb => ?_,
    fun b => ?_,
    fun b => ?_⟩
  · refine used_congr (fun c hc => ?_) hb
    rw [ha.view fun hd => hbits c hc (hD₁ c hd), hw.view, h.view (hbits c hc)]
  · rw [ha.lh, hw.lh, h.lh]
    exact or_iff_left List.not_mem_nil
  · rw [ha.op, hw.op, h.op]
    exact or_iff_left List.not_mem_nil

/-- **The step**: one case for each call. -/
theorem Kept.call (hl : Layout sb) {c : Call} (h : Kept sb s) (hok : c.Ok sb s) :
    wp (c.run sb pick) (fun _ s' => Kept sb s') (fun e _ => e = .ilock ∨ e = .noType) s := by
  obtain ⟨t, D, ht, ha, hD⟩ := h
  have hbits : ∀ c, Bitmap sb c → ¬D c := fun c hc hd => hl.not_bitmap (hD c hd).1 hc
  have hinodes : ∀ i, i < sb.ninodes → ¬D (IBLOCK sb i) :=
    fun i hi hd => hl.not_inode (hD _ hd).1 hi rfl
  cases c with
  | iget inum => exact Kept.turn hl hD ha.iget (ht.iget.mono fun _ _ h => ⟨inum, h⟩)
  | ialloc type =>
    have hok : type < 2 ^ 16 := hok
    have htype : type < 256 ^ 2 := by omega
    refine Kept.turn hl hD ((ha.ialloc hinodes).bind fun _ _ _ _ hr => both.pure hr.2)
      ((ht.ialloc hl htype).andThen fun r t' hr => ?_)
    cases r with
    | none => exact ⟨0, hr.1 rfl 0⟩
    | some i => exact ⟨i, (hr.2 i rfl).2⟩
  | ilock ip =>
    refine Kept.turn hl hD (ha.ilock (hinodes ip hok))
      ((ht.ilock hok).mono (fun _ _ h => ⟨ip, h.1⟩) |>.monoStop
      fun _ _ he _ => he)
  | readi ip mem user dst off n =>
    obtain ⟨hk, hoff, hn⟩ := hok
    refine (wp_bind _ _).mpr (((Kept.readi hl ht ha hD (ha.locked hk) hoff hn).monoStop ?_).mono ?_)
    · exact fun _ _ h => h.elim
    · exact fun _ _ h => h.1
  | writei ip mem user src off n =>
    obtain ⟨hk, hoff, hn⟩ := hok
    refine (wp_bind _ _).mpr
      (((Kept.writei hl ht ha hD (ha.locked hk) hoff hn).monoStop ?_).mono ?_)
    · exact fun _ _ h => h.elim
    · exact fun _ _ h => h
  | itrunc ip =>
    have hk := ha.locked hok
    exact Kept.turn hl hD (ha.itrunc hl hbits ht hk fun _ => ht.indirect hD hk)
      ((ht.itrunc hl hk).mono fun _ _ h => ⟨ip, h⟩)
  | links ip major minor nlink =>
    obtain ⟨hk, hmajor, hminor, hnlink⟩ := hok
    refine Kept.turn hl hD ((ha.store ip _).bind fun _ _ _ _ hr => hr.1.iupdate.mono
      fun _ _ _ _ hr => hr.1)
      ((ht.links hl (ha.locked hk) ?_ ?_ ?_).mono fun _ _ h => ⟨ip, h⟩) <;> assumption
  | iput ip =>
    exact Kept.turn hl hD (ha.iput hl hbits ht hok fun hk _ => ht.indirect hD hk)
      ((ht.iput hl hok).mono fun _ _ h => ⟨ip, h⟩)
  | commit =>
    exact Kept.turn hl hD (both.modify ha.commit)
      (show ∃ j, Turn sb t t.commit j from ⟨0, ht.commit⟩)

/-! ## Runs -/

/-- Where a run begins: the inodes in memory are those on the disk. -/
structure Start (sb : Superblock) (s : Fs) : Prop where
  divided : Divided sb s.view
  coherent : Coherent s
  held : s.held = []
  copies : ∀ i, i < sb.ninodes → 0 < s.ref i → s.valid i = true →
    (onDisk sb s.view i).Same (s.ino i) ∧ (s.ino i).type ≠ 0

theorem Start.tidy (hl : Layout sb) (h : Start sb s) : Tidy sb s :=
  ⟨h.coherent, h.held, h.divided.owned hl, fun _ hi => h.divided.complete hi, h.copies⟩

/-- The run lemma. -/
theorem Reach.kept (hl : Layout sb) (h : Reach (call sb pick) (fun s c => c.Ok sb s) (Start sb) s) :
    Kept sb s := by
  refine h.inv (fun s h0 => ?_) fun {s s' c} hk hok hc => ?_
  · exact ⟨s, fun _ => False, h0.tidy hl, Alike.refl h0.coherent, fun _ hd => hd.elim⟩
  · unfold call at hc
    split at hc
    next a s₁ hx =>
      cases hc
      exact (hk.call hl hok).of_ok hx
    next => cases hc

/-- **In every run** the blocks are divided after every call, on the disk too when the log is
empty; no call frees a block that is free, and `readi` takes none. -/
theorem always_divided (hl : Layout sb)
    (h : Reach (call sb pick) (fun s c => c.Ok sb s) (Start sb) s) :
    Divided sb s.view ∧ (s.lh = [] → Divided sb s.disk) ∧
      ∀ c : Call, c.Ok sb s → wp (c.run sb pick)
        (fun _ s' => (∃ ip mem user dst off n, c = .readi ip mem user dst off n) → Looked sb s s')
        (fun e _ => e = .ilock ∨ e = .noType) s := by
  have hk := Reach.kept hl h
  obtain ⟨t, D, ht, ha, hD⟩ := hk
  refine ⟨ht.divided hl hD fun b hb => ha.view hb, fun hlh => ht.divided hl hD fun b hb => ?_,
    fun c hok => ?_⟩
  · have hn : b ∉ t.lh := by
      rw [← ha.lh, hlh]
      exact List.not_mem_nil
    rw [ha.disk b hb hn, ht.coherent.view_eq hn]
  · have hcall := @Kept.call sb pick s hl c ⟨t, D, ht, ha, hD⟩ hok
    cases c with
    | readi ip mem user dst off n =>
      obtain ⟨hk, hoff, hn⟩ := hok
      refine (wp_bind _ _).mpr
        (((Kept.readi hl ht ha hD (ha.locked hk) hoff hn).monoStop ?_).mono ?_)
      · exact fun _ _ h => h.elim
      · exact fun _ _ h _ => h.2
    | _ => exact hcall.mono fun _ _ _ hr => by simp at hr

/-- A file system without files, before the first call. -/
def fresh : Fs := { blank with valid := fun _ => false, ref := fun _ => 0 }

theorem fresh_type (i : Nat) (hi : i < small.ninodes) : (onDisk small fresh.view i).type = 0 := by
  have hb : IBLOCK small i = 2 := by
    have hi : i < 16 := hi
    show i / 16 + 2 = 2
    omega
  refine Bytes.get_zero fun k _ => ?_
  rw [hb]
  rfl

theorem fresh_start : Start small fresh where
  divided := by
    have hnone : ∀ i, ¬Live small (onDisk small fresh.view) i :=
      fun i hi => hi.2 (fresh_type i hi.1)
    refine ⟨fun b hb => ⟨fun hu => ?_, fun ⟨i, _, hi, _⟩ => absurd hi (hnone i)⟩,
      fun i _ _ _ hi => absurd hi (hnone i), fun i _ hi => absurd hi (hnone i), fun b hb => ?_,
      fun i hi => absurd hi (hnone i), fun i _ hi => absurd hi (hnone i)⟩
    · have hlo : 20 ≤ b := hb.1
      have hlt : b < 20 := (blank_used hb.2).mp hu
      omega
    · have hb : b < 20 := hb
      exact (blank_used (by omega)).mpr hb
  coherent := ⟨fun h => (by cases h), fun h => (by cases h), fun h => (by cases h)⟩
  held := rfl
  copies i _ hr := absurd hr (Nat.lt_irrefl 0)

instance {i : Nat} (s : Fs) : Decidable (Locked sb s i) :=
  decidable_of_iff (i < sb.ninodes ∧ 0 < s.ref i ∧ s.valid i = true)
    ⟨fun h => ⟨h.1, h.2.1, h.2.2⟩, fun h => ⟨h.lt, h.ref, h.valid⟩⟩

instance (s : Fs) : ∀ c : Call, Decidable (c.Ok sb s)
  | .iget _ | .commit => .isTrue trivial
  | .ialloc type => inferInstanceAs (Decidable (type < 2 ^ 16))
  | .ilock ip | .iput ip => inferInstanceAs (Decidable (ip < sb.ninodes))
  | .readi ip _ _ _ off n | .writei ip _ _ _ off n =>
    inferInstanceAs (Decidable (Locked sb s ip ∧ off < 2 ^ 32 ∧ n < 2 ^ 32))
  | .itrunc ip => inferInstanceAs (Decidable (Locked sb s ip))
  | .links ip major minor nlink => inferInstanceAs
    (Decidable (Locked sb s ip ∧ major < 2 ^ 16 ∧ minor < 2 ^ 16 ∧ nlink < 2 ^ 16))

/-- A file is made and written to, a transaction ends, and it is cut and written to again. -/
def written : List Call :=
  [.ialloc Mkfs.T_FILE, .ilock 1, .writei 1 kernelMem false 7 0 3, .commit, .itrunc 1,
    .writei 1 kernelMem false 7 0 5]

/-- The file has given its block back and has one again, and reading it takes none. -/
theorem always_divided_written :
    ∃ s, runFrom (call small fun _ => none) fresh written = some s ∧ (s.ino 1).size = 5 ∧
      (s.ino 1).addrs 0 = 20 ∧ Divided small s.view ∧
      wp (Call.run small (fun _ => none) (.readi 1 kernelMem false 7 0 5))
        (fun _ s' => Looked small s s') (fun e _ => e = .ilock ∨ e = .noType) s := by
  have hobs : (runFrom (guarded (call small fun _ => none) fun s c => c.Ok small s) fresh
      written).map (fun s => ((s.ino 1).size, (s.ino 1).addrs 0, decide (Locked small s 1))) =
      some (5, 20, true) := by
    decide +kernel
  obtain ⟨s, hs, hobs⟩ := Option.map_eq_some_iff.mp hobs
  obtain ⟨hsize, hobs⟩ := Prod.mk.inj hobs
  obtain ⟨haddr, hlocked⟩ := Prod.mk.inj hobs
  obtain ⟨hok, hrun⟩ := runFrom_guarded _ hs
  obtain ⟨hdivided, -, hcall⟩ :=
    always_divided small_layout (.of_run _ (.start fresh_start) hok hrun)
  have hread : Call.Ok small s (.readi 1 kernelMem false 7 0 5) :=
    ⟨of_decide_eq_true hlocked, by decide, by decide⟩
  exact ⟨s, hrun, hsize, haddr, hdivided,
    (hcall _ hread).mono fun _ _ h => h ⟨1, kernelMem, false, 7, 0, 5, rfl⟩⟩

end Xv6.Files
