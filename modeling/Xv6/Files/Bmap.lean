import Xv6.Files.Slots

/-!
# Finding the block of an offset

`bmap` finds the block in its slot, or puts a new block there. `Grown` says what
becomes of the rest: every address that was there is still there, the data of the
files is as before, and what is logged is the bitmap, new blocks and the block for
addresses.

  > `bmap_got`: 0 is for a disk without free blocks only; else the block is the one in
  > the slot, and it is full of zeroes when it is new.

The three ways to a new block (an address, the block for addresses, an entry of it)
are one argument, `Grown.of_take`.
-/

namespace Xv6.Files

open Lib
open Lib.Bytes (put)
open Mkfs (Block Dinode Superblock zeroes nonzero BSIZE NDIRECT NINDIRECT MAXFILE BPB)

variable {sb : Superblock} {pick : Nat → Option Nat} {s s' s'' : Fs} {ip : Nat} {L L' : List Nat}
  {E : Panic → Fs → Prop}

/-- What the calls of this file start from: blocks have their owners. -/
structure Sound (sb : Superblock) (s : Fs) : Prop where
  coherent : Coherent s
  owned : Owned sb s.view (owner sb s.view s.ino)

/-- Addresses are added to inode `ip`: those that were there are still there, and a new one is
that of a block that was free. -/
structure Added (sb : Superblock) (s s' : Fs) (ip : Nat) : Prop where
  coherent : Coherent s'
  owned : Owned sb s'.view (owner sb s'.view s'.ino)
  other : ∀ j, j ≠ ip → s'.ino j = s.ino j
  same : s'.ino ip = { s.ino ip with addrs := (s'.ino ip).addrs }
  keep : ∀ i (σ : Mkfs.Slot), Live sb s.ino i → σ.addr s.view (s.ino i) ≠ 0 →
    σ.addr s'.view (s'.ino i) = σ.addr s.view (s.ino i)
  inodes : ∀ i, i < sb.ninodes → s'.view (IBLOCK sb i) = s.view (IBLOCK sb i)
  grow : ∀ b, b < sb.size → used sb s.view b → used sb s'.view b
  new : ∀ σ : Mkfs.Slot, σ.addr s.view (s.ino ip) = 0 → σ.addr s'.view (s'.ino ip) ≠ 0 →
    ¬used sb s.view (σ.addr s'.view (s'.ino ip))

theorem Added.sound (h : Added sb s s' ip) : Sound sb s' := ⟨h.coherent, h.owned⟩

theorem Added.type (h : Added sb s s' ip) (i : Nat) : (s'.ino i).type = (s.ino i).type := by
  by_cases hi : i = ip
  · rw [hi, h.same]
  · rw [h.other i hi]

theorem Added.live (h : Added sb s s' ip) (i : Nat) : Live sb s'.ino i ↔ Live sb s.ino i := by
  unfold Live
  rw [h.type i]

theorem Added.refl (hs : Sound sb s) : Added sb s s ip where
  coherent := hs.coherent
  owned := hs.owned
  other _ _ := rfl
  same := rfl
  keep _ _ _ _ := rfl
  inodes _ _ := rfl
  grow _ _ hu := hu
  new _ h0 hn := absurd h0 hn

theorem Added.trans (h : Added sb s s' ip) (h' : Added sb s' s'' ip) (hip : Live sb s.ino ip) :
    Added sb s s'' ip where
  coherent := h'.coherent
  owned := h'.owned
  other j hj := (h'.other j hj).trans (h.other j hj)
  same := by rw [h'.same, h.same]
  keep i σ hi h0 := by
    have hk := h.keep i σ hi h0
    rw [← hk]
    exact h'.keep i σ ((h.live i).mpr hi) (by rw [hk]; exact h0)
  inodes i hi := (h'.inodes i hi).trans (h.inodes i hi)
  grow b hb hu := h'.grow b hb (h.grow b hb hu)
  new σ h0 hn := by
    by_cases h1 : σ.addr s'.view (s'.ino ip) = 0
    · intro hu
      have hd := h'.owned.addr_data ((h'.live ip).mpr ((h.live ip).mpr hip)) hn
      exact h'.new σ h1 hn (h.grow _ hd.2 hu)
    · rw [h'.keep ip σ ((h.live ip).mpr hip) h1]
      exact h.new σ h0 h1

/-- Only blocks that are seen, and inodes, matter. -/
theorem Added.of_same (h : Added sb s s' ip) (hc : Coherent s'') (hv : s''.view = s'.view)
    (hi : s''.ino = s'.ino) : Added sb s s'' ip := by
  obtain ⟨-, h1, h2, h3, h4, h5, h6, h7⟩ := h
  rw [← hv, ← hi] at h1 h4 h7
  rw [← hi] at h2 h3
  rw [← hv] at h5 h6
  exact ⟨hc, h1, h2, h3, h4, h5, h6, h7⟩

/-- What may be logged when blocks are added. -/
def Logs (sb : Superblock) (s : Fs) (ip b : Nat) : Prop :=
  Bitmap sb b ∨ (Data sb b ∧ ¬used sb s.view b) ∨ (b = (s.ino ip).addrs NDIRECT ∧ b ≠ 0)

/-- Blocks are added, and no data is changed. -/
structure Grown (sb : Superblock) (s s' : Fs) (ip : Nat) (L : List Nat) : Prop
    extends Added sb s s' ip where
  wrote : Wrote s s' s'.view s'.ino L
  data : ∀ i (σ : Mkfs.Slot), Live sb s.ino i → σ ≠ .indirect → σ.addr s.view (s.ino i) ≠ 0 →
    s'.view (σ.addr s.view (s.ino i)) = s.view (σ.addr s.view (s.ino i))
  log : ∀ b, b ∈ L → Logs sb s ip b

/-- Nothing was added. -/
theorem Grown.of_look (hs : Sound sb s) (h : Wrote s s' s.view s.ino []) : Grown sb s s' ip [] where
  toAdded := (Added.refl hs).of_same h.coherent h.view h.ino
  wrote := by rw [h.view, h.ino]; exact h
  data i σ _ _ _ := by rw [h.view]
  log b hb := by cases hb

/-- What is logged later might have been logged before. -/
theorem Added.logs (h : Added sb s s' ip) (hip : Live sb s.ino ip) {b : Nat}
    (hb : Logs sb s' ip b) :
    Logs sb s ip b := by
  rcases hb with hm | ⟨hd, hu⟩ | ⟨he, hn⟩
  · exact .inl hm
  · exact .inr (.inl ⟨hd, fun hc => hu (h.grow b hd.2 hc)⟩)
  · -- the block for addresses is the old one, or a new one
    by_cases h0 : (s.ino ip).addrs NDIRECT = 0
    · have hn' : (s'.ino ip).addrs NDIRECT ≠ 0 := he ▸ hn
      have hd := h.owned.addr_data (σ := .indirect) ((h.live ip).mpr hip) hn'
      rw [he]
      exact .inr (.inl ⟨hd, h.new .indirect h0 hn'⟩)
    · have hk := h.keep ip .indirect hip h0
      exact .inr (.inr ⟨he.trans hk, hn⟩)

theorem Grown.trans (h : Grown sb s s' ip L) (h' : Grown sb s' s'' ip L') (hip : Live sb s.ino ip) :
    Grown sb s s'' ip (L ++ L') where
  toAdded := h.toAdded.trans h'.toAdded hip
  wrote := h.wrote.trans h'.wrote
  data i σ hi hσ h0 := by
    have hk := h.keep i σ hi h0
    have hd := h'.data i σ ((h.live i).mpr hi) hσ (by rw [hk]; exact h0)
    rw [hk] at hd
    rw [hd, h.data i σ hi hσ h0]
  log b hb := by
    rcases List.mem_append.mp hb with hb | hb
    · exact h.log b hb
    · exact h.toAdded.logs hip (h'.log b hb)

/-- A new block `a` in the empty slot `σ` of inode `ip`. -/
structure Puts (sb : Superblock) (s s' : Fs) (ip : Nat) (σ : Mkfs.Slot) (a : Nat)
    (L : List Nat) : Prop where
  lt : a < sb.size
  free : ¬used sb s.view a
  empty : σ.addr s.view (s.ino ip) = 0
  wrote : Wrote s s' s'.view s'.ino L
  view : ∀ c, (s.ino ip).addrs NDIRECT = 0 ∨ c ≠ (s.ino ip).addrs NDIRECT →
    s'.view c = take sb s.view a c
  other : ∀ j, j ≠ ip → s'.ino j = s.ino j
  same : s'.ino ip = { s.ino ip with addrs := (s'.ino ip).addrs }
  slot : σ.addr s'.view (s'.ino ip) = a
  rest : ∀ τ : Mkfs.Slot, τ ≠ σ → τ.addr s'.view (s'.ino ip) = τ.addr s.view (s.ino ip)
  log : ∀ b, b ∈ L → b = BBLOCK sb a ∨ b = a ∨ (b = (s.ino ip).addrs NDIRECT ∧ b ≠ 0)
  zero : s'.view a = zeroes
  logged : a ∈ L

/-- The bitmap is that of `balloc`. -/
theorem Puts.bitmap {σ : Mkfs.Slot} {a : Nat} (hp : Puts sb s s' ip σ a L) (hl : Layout sb)
    (hs : Sound sb s) (hip : Live sb s.ino ip) {c : Nat} (hc : Bitmap sb c) :
    s'.view c = take sb s.view a c := by
  refine hp.view c ?_
  by_cases hz : (s.ino ip).addrs NDIRECT = 0
  · exact .inl hz
  · refine .inr fun he => hl.not_bitmap (hs.owned.addr_data (σ := .indirect) hip hz) ?_
    rw [he] at hc
    exact hc

/-- **Putting a block into a slot** adds it. -/
theorem Puts.grown {σ : Mkfs.Slot} {a : Nat} (hp : Puts sb s s' ip σ a L) (hl : Layout sb)
    (hs : Sound sb s) (hip : Live sb s.ino ip) : Grown sb s s' ip L := by
  have ⟨ha, hn, h0, hw, hV, hI, hsame, hself, hτ, hlog, _, _⟩ := hp
  have ho := hs.owned
  have hda := ho.free_data ha hn
  have ha0 : a ≠ 0 := fun he => hn (he ▸ ho.rest 0 hl.boot)
  have hlive : ∀ i, Live sb s'.ino i ↔ Live sb s.ino i := by
    intro i
    unfold Live
    by_cases hi : i = ip
    · rw [hi, hsame]
    · rw [hI i hi]
  -- the blocks of other slots are as before
  have hkeep : ∀ {i : Nat} {τ : Mkfs.Slot}, Live sb s.ino i → τ.addr s.view (s.ino i) ≠ 0 →
      (i, τ) ≠ (ip, .indirect) → s'.view (τ.addr s.view (s.ino i)) =
      s.view (τ.addr s.view (s.ino i)) := by
    intro i τ hi hne hp
    have hd := ho.addr_data hi hne
    have hu := ho.used (owner_some.mpr ⟨hi, rfl, hne⟩)
    rw [hV _ ?_, take_of_ne (hl.not_bitmap hd) ha fun he => hn (he ▸ hu)]
    by_cases hz : (s.ino ip).addrs NDIRECT = 0
    · exact .inl hz
    · refine .inr fun he => hp ?_
      obtain ⟨h1, h2⟩ := ho.once (τ := .indirect) hi hip hne he
      rw [h1, h2]
  have hbit : ∀ c, Bitmap sb c → s'.view c = take sb s.view a c :=
    fun c hc => hp.bitmap hl hs hip hc
  have hothers : ∀ i τ, Live sb s.ino i → (i, τ) ≠ (ip, σ) →
      τ.addr s'.view (s'.ino i) = τ.addr s.view (s.ino i) := by
    intro i τ hi hp
    by_cases hii : i = ip
    · subst hii
      exact hτ τ fun he => hp (he ▸ rfl)
    · rw [hI i hii]
      refine addr_congr τ (fun _ _ => rfl) fun hz => ?_
      exact hkeep (τ := .indirect) hi hz fun he => hii (Prod.mk.inj he).1
  have hown : Owned sb s'.view (owner sb s'.view s'.ino) := by
    have ht := (ho.take hl ha hn ((owner_none hip).mpr h0)).view hbit
    rwa [owner_update ((hlive ip).mpr hip) hlive hothers, hself, Mkfs.nonzero_eq ha0]
  refine ⟨⟨hw.coherent, hown, hI, hsame, fun i τ hi hne => ?_, fun i hi => ?_, fun b hb hu => ?_,
    fun τ hz hne => ?_⟩, hw, fun i τ hi hτi hne => hkeep hi hne fun he => hτi (Prod.mk.inj he).2,
    fun b hb => ?_⟩
  · refine hothers i τ hi fun he => hne ?_
    obtain ⟨rfl, rfl⟩ := Prod.mk.inj he
    exact h0
  · rw [hV _ ?_, take_of_ne ?_ ha fun he => hl.not_inode hda hi he]
    · rintro ⟨b, -, he⟩
      exact hl.inode_ne hi b he
    · by_cases hz : (s.ino ip).addrs NDIRECT = 0
      · exact .inl hz
      · exact .inr (hl.not_inode (ho.addr_data (σ := .indirect) hip hz) hi)
  · exact (used_congr hbit hb).mpr ((used_take hl hda hb).mpr (.inl hu))
  · by_cases he : τ = σ
    · rw [he, hself]
      exact hn
    · exact absurd hz (by rw [hτ τ he] at hne; exact hne)
  · rcases hlog b hb with rfl | rfl | h
    · exact .inl ⟨a, ha, rfl⟩
    · exact .inr (.inl ⟨hda, hn⟩)
    · exact .inr (.inr h)

/-! ## What comes of asking for a block -/

/-- `a` is what was got for the slot `σ` of inode `ip`. -/
structure Got (sb : Superblock) (s s' : Fs) (ip : Nat) (σ : Mkfs.Slot) (a : Nat) : Prop where
  grown : ∃ L, Grown sb s s' ip L
  slot : a ≠ 0 → σ.addr s'.view (s'.ino ip) = a
  full : a = 0 → σ.addr s.view (s.ino ip) = 0 ∧ freeList sb s'.view = []
  empty : a = 0 → σ.addr s'.view (s'.ino ip) = 0
  look : σ.addr s.view (s.ino ip) ≠ 0 → Wrote s s' s.view s.ino []
  fresh : σ.addr s.view (s.ino ip) = 0 → a ≠ 0 → s'.view a = zeroes ∧ a ∈ s'.lh
  only : ∀ τ : Mkfs.Slot, τ ≠ σ → τ ≠ .indirect → τ.addr s.view (s.ino ip) = 0 →
    τ.addr s'.view (s'.ino ip) = 0

/-- One free block is gone, or there is none. -/
def One (sb : Superblock) (s s' : Fs) (a : Nat) : Prop :=
  if a = 0 then freeList sb s.view = []
  else (freeList sb s.view).length = (freeList sb s'.view).length + 1

/-- It was there. -/
theorem Got.of_look (hs : Sound sb s) (h : Wrote s s' s.view s.ino []) {σ : Mkfs.Slot}
    (h0 : σ.addr s.view (s.ino ip) ≠ 0) : Got sb s s' ip σ (σ.addr s.view (s.ino ip)) where
  grown := ⟨[], Grown.of_look hs h⟩
  slot _ := by rw [h.view, h.ino]
  full hz := absurd hz h0
  empty hz := absurd hz h0
  look _ := h
  fresh hz := absurd hz h0
  only τ _ _ hz := by rw [h.view, h.ino]; exact hz

/-- There was no free block. -/
theorem Got.of_full (hs : Sound sb s) (h : Wrote s s' s.view s.ino []) {σ : Mkfs.Slot}
    (h0 : σ.addr s.view (s.ino ip) = 0) (hf : freeList sb s.view = []) : Got sb s s' ip σ 0 where
  grown := ⟨[], Grown.of_look hs h⟩
  slot hz := absurd rfl hz
  full _ := ⟨h0, by rw [h.view]; exact hf⟩
  empty _ := by rw [h.view, h.ino]; exact h0
  look hz := absurd h0 hz
  fresh _ hz := absurd rfl hz
  only τ _ _ hz := by rw [h.view, h.ino]; exact hz

/-- **A new block was got.** -/
theorem Puts.got {σ : Mkfs.Slot} {a : Nat} (hp : Puts sb s s' ip σ a L) (hl : Layout sb)
    (hs : Sound sb s) (hip : Live sb s.ino ip) : Got sb s s' ip σ a ∧ One sb s s' a := by
  have ha0 : a ≠ 0 := fun he => hp.free (he ▸ hs.owned.rest 0 hl.boot)
  refine ⟨⟨⟨L, hp.grown hl hs hip⟩, fun _ => hp.slot, fun h => absurd h ha0, fun h => absurd h ha0,
    fun h => absurd hp.empty h,
    fun _ _ => ⟨hp.zero, (hp.wrote.lh a).mpr (.inr hp.logged)⟩,
    fun τ hτ _ hz => by rw [hp.rest τ hτ, hz]⟩, ?_⟩
  have hfree : freeList sb s'.view = freeList sb (take sb s.view a) :=
    List.filter_congr fun b hb => by
      rw [decide_eq_decide, used_congr (fun c hc => hp.bitmap hl hs hip hc) (List.mem_range.mp hb)]
  unfold One
  rw [if_neg ha0, hfree, (freeList_take hl (hs.owned.free_data hp.lt hp.free) hp.free).length_eq,
    List.length_cons]

theorem freeList_eq_nil {V : Nat → Block} (h : ∀ b, b < sb.size → used sb V b) :
    freeList sb V = [] := by
  refine List.eq_nil_iff_forall_not_mem.mpr fun b hb => ?_
  obtain ⟨hd, hn⟩ := mem_freeList.mp hb
  exact hn (h b hd.2)

/-- The slot of `ip->addrs[i]`. -/
def addrSlot (i : Nat) : Mkfs.Slot := if h : i < NDIRECT then .direct ⟨i, h⟩ else .indirect

theorem addrSlot_addr {V : Nat → Block} {d : Dinode} {i : Nat} (hi : i ≤ NDIRECT) :
    (addrSlot i).addr V d = d.addrs i := by
  unfold addrSlot
  split
  next => rfl
  next h => rw [show i = NDIRECT by omega]; rfl

/-- An address is set: the other slots have what they had. -/
theorem addr_setAddr {V V' : Nat → Block} {d : Dinode} {i a : Nat} {τ : Mkfs.Slot}
    (hτ : τ ≠ addrSlot i) (h0 : i = NDIRECT → d.addrs NDIRECT = 0 ∧ V' a = zeroes)
    (hv : d.addrs NDIRECT ≠ 0 → V' (d.addrs NDIRECT) = V (d.addrs NDIRECT)) :
    τ.addr V' (setAddr i a d) = τ.addr V d := by
  have hne : ∀ j, j ≤ NDIRECT → τ = addrSlot j → (setAddr i a d).addrs j = d.addrs j := by
    rintro j hj rfl
    exact Function.update_of_ne (fun he => hτ (by rw [he])) _ _
  cases τ with
  | direct j => exact hne j (Nat.le_of_lt j.isLt) (by unfold addrSlot; rw [dif_pos j.isLt])
  | indirect => exact hne NDIRECT le_rfl (by unfold addrSlot; rw [dif_neg (Nat.lt_irrefl _)])
  | entry j =>
    by_cases hi' : i = NDIRECT
    · -- the block for addresses is new: it has no entries, and there were none
      obtain ⟨hz, hzero⟩ := h0 hi'
      have h1 : (setAddr i a d).addrs NDIRECT = a := by
        rw [← hi']
        exact Function.update_self _ _ _
      show (if (setAddr i a d).addrs NDIRECT = 0 then 0 else _) =
        if d.addrs NDIRECT = 0 then 0 else _
      rw [h1, if_pos hz]
      split
      next => rfl
      next =>
        rw [hzero]
        exact Bytes.get_zero fun _ _ => rfl
    · have h1 : (setAddr i a d).addrs NDIRECT = d.addrs NDIRECT :=
        Function.update_of_ne (fun he => hi' he.symm) _ _
      show (if (setAddr i a d).addrs NDIRECT = 0 then 0 else _) =
        if d.addrs NDIRECT = 0 then 0 else _
      rw [h1]
      split
      next => rfl
      next hz => rw [hv hz]

/-! ## The three ways -/

theorem Wrote.rebase {V : Nat → Block} {I : Nat → Dinode} (h : Wrote s s' V I L) :
    Wrote s s' s'.view s'.ino L := by
  rw [h.view, h.ino]
  exact h

theorem addrOf_wp (hl : Layout sb) (hs : Sound sb s) (hh : Holds sb s)
    (hip : Live sb s.ino ip) {i : Nat}
    (hi : i ≤ NDIRECT) :
    wp (addrOf sb pick ip i) (fun a s' => Got sb s s' ip (addrSlot i) a ∧ s'.held = s.held ∧
      ((s.ino ip).addrs i = 0 → One sb s s' a) ∧ (a = 0 → Wrote s s' s.view s.ino [])) E s := by
  unfold addrOf
  simp only [wp_bind, wp_get]
  rw [wp_ite]
  refine ⟨fun hz => ?_, fun hz => ?_⟩
  · rw [wp_bind]
    refine (balloc_wp hs.coherent (hs.owned.rest 0 hl.boot) hh).mono fun a s₁ hb => ?_
    rw [wp_ite]
    refine ⟨fun ha => ?_, fun ha => ?_⟩
    · subst ha
      obtain ⟨hw, hall⟩ := hb.full rfl
      have hfull := freeList_eq_nil hall
      refine ⟨Got.of_full hs hw (by rw [addrSlot_addr hi]; exact hz) hfull, hb.held, fun _ => ?_,
        fun _ => hw⟩
      unfold One
      rw [if_pos rfl]
      exact hfull
    · obtain ⟨has, hn, hw⟩ := hb.taken ha
      have hda := hs.owned.free_data has hn
      have hw₂ : Wrote s { s₁ with ino := Function.update s.ino ip (setAddr i a (s.ino ip)) }
          (take sb s.view a) (Function.update s.ino ip (setAddr i a (s.ino ip)))
          [BBLOCK sb a, a] := by
        have ht := hw.trans (Wrote.setInode hw.coherent ip (setAddr i a (s₁.ino ip)))
        rw [List.append_nil, hw.ino, hw.view] at ht
        exact ht
      have hp : Puts sb s { s₁ with ino := Function.update s.ino ip (setAddr i a (s.ino ip)) } ip
          (addrSlot i) a [BBLOCK sb a, a] := by
        refine ⟨has, hn, by rw [addrSlot_addr hi]; exact hz, hw₂.rebase,
          fun c _ => by rw [hw₂.view],
          fun j hj => Function.update_of_ne hj _ _, ?_, ?_, fun τ hτ => ?_, fun b hb => ?_, ?_,
          List.mem_cons_of_mem _ (List.mem_singleton.mpr rfl)⟩
        · dsimp only
          rw [Function.update_self]
          rfl
        · rw [addrSlot_addr hi]
          dsimp only
          rw [Function.update_self]
          exact Function.update_self _ _ _
        · dsimp only
          rw [Function.update_self, hw₂.view]
          refine addr_setAddr hτ (fun hi' => ⟨hi' ▸ hz, take_self⟩) fun hz' => ?_
          have hu := hs.owned.used
            (owner_some.mpr ⟨hip, rfl, hz'⟩ : owner sb s.view s.ino (ip, .indirect) = _)
          refine take_of_ne (hl.not_bitmap (hs.owned.addr_data (σ := .indirect) hip hz')) has
            fun he => ?_
          exact hn (he ▸ hu)
        · rcases List.mem_cons.mp hb with rfl | hb
          · exact .inl rfl
          · exact .inr (.inl (List.mem_singleton.mp hb))
        · rw [hw₂.view]
          exact take_self
      obtain ⟨hgot, hone⟩ := hp.got hl hs hip
      rw [← hw.ino] at hgot hone
      exact ⟨hgot, hb.held, fun _ => hone, fun h0 => absurd h0 ha⟩
  · have hlook := Got.of_look (σ := addrSlot i) hs (Wrote.refl hs.coherent)
      (by rw [addrSlot_addr hi]; exact hz)
    rw [addrSlot_addr hi] at hlook
    exact ⟨hlook, rfl, fun h0 => absurd h0 hz, fun h0 => absurd h0 hz⟩

theorem entry_addr {V : Nat → Block} {d : Dinode} {j : Fin NINDIRECT} (h : d.addrs NDIRECT ≠ 0) :
    (Mkfs.Slot.entry j).addr V d = Bytes.get (V (d.addrs NDIRECT)) (4 * j) 4 := if_neg h

theorem entryOf_wp (hl : Layout sb) (hs : Sound sb s) (hheld : s.held = []) (hip : Live sb s.ino ip)
    (hind : (s.ino ip).addrs NDIRECT ≠ 0) (j : Fin NINDIRECT) :
    wp (entryOf sb pick ((s.ino ip).addrs NDIRECT) j) (fun a s' =>
      Got sb s s' ip (.entry j) a ∧ s'.held = [] ∧
        ((Mkfs.Slot.entry j).addr s.view (s.ino ip) = 0 → One sb s s' a) ∧
        (a = 0 → Wrote s s' s.view s.ino [])) E s := by
  have hentry := entry_addr (V := s.view) (j := j) hind
  have hown : owner sb s.view s.ino (ip, .indirect) = some ((s.ino ip).addrs NDIRECT) :=
    owner_some.mpr ⟨hip, rfl, hind⟩
  have hdata := hs.owned.data hown
  generalize hi : (s.ino ip).addrs NDIRECT = ind at hind hentry hown hdata
  unfold entryOf
  rw [wp_bind]
  refine bread_wp hs.coherent (by rw [hheld]; exact List.not_mem_nil) fun s₁ hw₁ hh₁ => ?_
  rw [hheld] at hh₁
  have hdrop : (s₁.drop ind).held = [] := by
    show s₁.held.erase ind = []
    rw [hh₁, List.erase_cons_head]
  rw [wp_ite, ← hentry]
  refine ⟨fun hz => ?_, fun hz => ?_⟩
  · -- the entry is empty: a block is taken for it
    rw [wp_bind]
    have hh : Holds sb s₁ := by
      refine ⟨fun c hc => ?_, fun c hc => ?_⟩
      · rw [hh₁] at hc
        rw [List.mem_singleton.mp hc]
        exact hl.not_bitmap hdata
      · rw [hh₁] at hc
        rw [List.mem_singleton.mp hc, hw₁.view]
        exact hs.owned.used hown
    refine (balloc_wp hw₁.coherent (by rw [hw₁.view]; exact hs.owned.rest 0 hl.boot) hh).mono
      fun a s₂ hb => ?_
    have hh₂ := hb.held.trans hh₁
    rw [wp_ite]
    refine ⟨fun ha => ?_, fun ha => ?_⟩
    · -- the disk is full
      subst ha
      obtain ⟨hw₂, hall⟩ := hb.full rfl
      rw [hw₁.view, hw₁.ino] at hw₂
      rw [hw₁.view] at hall
      have hfull := freeList_eq_nil hall
      have hw := (hw₁.look hw₂).drop ind
      refine ⟨Got.of_full hs hw hz hfull, ?_, fun _ => ?_, fun _ => hw⟩
      · show s₂.held.erase ind = []
        rw [hh₂, List.erase_cons_head]
      · unfold One
        rw [if_pos rfl]
        exact hfull
    · -- block `a` is taken, and the entry set to it
      obtain ⟨has, hn, hw₂⟩ := hb.taken ha
      rw [hw₁.view] at hn
      rw [hw₁.view, hw₁.ino] at hw₂
      refine logged_bind_wp hw₂.coherent (by rw [hh₂]; exact List.mem_singleton.mpr rfl)
        fun s₃ hw₃ hh₃ => ?_
      rw [hw₂.view, hw₂.ino] at hw₃
      rw [hh₂, List.erase_cons_head] at hh₃
      have hw := (hw₁.trans hw₂).trans hw₃
      have hne : ind ≠ a := fun he => hn (he ▸ hs.owned.used hown)
      have hkeep : take sb s.view a ind = s.view ind := take_of_ne (hl.not_bitmap hdata) has hne
      rw [hkeep] at hw
      have hnow : s₃.view ind = put (s.view ind) (4 * j) 4 a := by
        rw [hw.view, Function.update_self]
      have ha32 : a < 256 ^ 4 := by
        have := hl.size
        omega
      have hsame : s₃.ino = s.ino := hw.ino
      have hp : Puts sb s s₃ ip (.entry j) a ([] ++ [BBLOCK sb a, a] ++ [ind]) := by
        refine ⟨has, hn, hz, hw.rebase, fun c hc => ?_, fun i _ => by rw [hsame], by rw [hsame], ?_,
          fun τ hτ => ?_, fun b hb => ?_, ?_, by simp⟩
        · rw [hi] at hc
          rw [hw.view]
          exact Function.update_of_ne (hc.resolve_left hind) _ _
        · rw [hsame, entry_addr (by rw [hi]; exact hind), hi, hnow]
          exact Bytes.get_put _ _ _ ha32
        · rw [hsame]
          cases τ with
          | direct i => rfl
          | indirect => rfl
          | entry i =>
            have hij : i.val ≠ j.val := fun he => hτ (by rw [Fin.ext he])
            rw [entry_addr (by rw [hi]; exact hind), entry_addr (by rw [hi]; exact hind), hi, hnow]
            exact Bytes.get_put_ne _ (by omega)
        · rw [List.nil_append, List.mem_append, List.mem_singleton] at hb
          rcases hb with hb | rfl
          · rcases List.mem_cons.mp hb with rfl | hb
            · exact .inl rfl
            · exact .inr (.inl (List.mem_singleton.mp hb))
          · exact .inr (.inr ⟨hi.symm, hind⟩)
        · rw [hw.view, Function.update_of_ne hne.symm]
          exact take_self
      obtain ⟨hgot, hone⟩ := hp.got hl hs hip
      exact ⟨hgot, hh₃, fun _ => hone, fun h0 => absurd h0 ha⟩
  · -- the block is there
    exact ⟨Got.of_look hs (hw₁.drop ind) hz, hdrop, fun h0 => absurd h0 hz, fun h0 => absurd h0 hz⟩

/-! ## All of it -/

/-- Nothing else has to be allocated for the block `bn`. -/
def Direct (s : Fs) (ip bn : Nat) : Prop := bn < NDIRECT ∨ (s.ino ip).addrs NDIRECT ≠ 0

/-- **`bmap`**. -/
theorem bmap_got (hl : Layout sb) (hs : Sound sb s) (hheld : s.held = [])
    (hip : Live sb s.ino ip) {bn : Nat}
    (hbn : bn < MAXFILE) :
    wp (bmap sb pick ip bn) (fun a s' => Got sb s s' ip (slotOf bn) a ∧ s'.held = [] ∧
      (Direct s ip bn → (slotOf bn).addr s.view (s.ino ip) = 0 → One sb s s' a)) E s := by
  have hM : MAXFILE = NDIRECT + NINDIRECT := rfl
  have hnone : ∀ c, c ∉ s.held := fun c => by
    rw [hheld]
    exact List.not_mem_nil
  have hh : Holds sb s := ⟨fun c hc => absurd hc (hnone c), fun c hc => absurd hc (hnone c)⟩
  unfold bmap
  rw [wp_ite]
  refine ⟨fun hd => ?_, fun hd => ?_⟩
  · have hslot : slotOf bn = addrSlot bn := by
      unfold slotOf addrSlot
      rw [dif_pos hd, dif_pos hd]
    refine (addrOf_wp hl hs hh hip (Nat.le_of_lt hd)).mono fun a s' h => ?_
    rw [hslot]
    refine ⟨h.1, h.2.1.trans hheld, fun _ h0 => h.2.2.1 ?_⟩
    rwa [addrSlot_addr (Nat.le_of_lt hd)] at h0
  rw [wp_ite]
  refine ⟨fun hlt => ?_, fun hge => absurd (by omega) hge⟩
  have hslot : slotOf bn = .entry ⟨bn - NDIRECT, hlt⟩ := by
    unfold slotOf
    rw [dif_neg hd]
    exact congrArg Mkfs.Slot.entry (Fin.ext (Nat.mod_eq_of_lt hlt))
  have hindirect : addrSlot NDIRECT = .indirect := dif_neg (Nat.lt_irrefl _)
  rw [wp_bind]
  refine (addrOf_wp hl hs hh hip le_rfl).mono fun ind s₁ h₁ => ?_
  obtain ⟨hgot, hheld₁, hone₁, hfull₁⟩ := h₁
  rw [hindirect] at hgot
  rw [wp_ite]
  refine ⟨fun hz => ?_, fun hz => ?_⟩
  · -- no block for addresses, and so no entries
    subst hz
    have hnone : (slotOf bn).addr s.view (s.ino ip) = 0 := by
      rw [hslot]
      exact if_pos (hgot.full rfl).1
    have hw := hfull₁ rfl
    have hf := (hgot.full rfl).2
    rw [hw.view] at hf
    refine ⟨Got.of_full hs hw hnone hf, hheld₁.trans hheld, fun hd' => ?_⟩
    exact absurd (hgot.full rfl).1 (hd'.resolve_left hd)
  · obtain ⟨L₁, hg₁⟩ := hgot.grown
    have hip₁ := (hg₁.live ip).mpr hip
    have hind : (s₁.ino ip).addrs NDIRECT = ind := hgot.slot hz
    have hentry := @entryOf_wp sb pick s₁ ip E hl hg₁.sound (hheld₁.trans hheld) hip₁
      (by rw [hind]; exact hz) ⟨bn - NDIRECT, hlt⟩
    rw [hind] at hentry
    refine hentry.mono fun a s₂ h₂ => ?_
    obtain ⟨hgot₂, hheld₂, hone₂, -⟩ := h₂
    rw [← hslot] at hgot₂ hone₂
    obtain ⟨L₂, hg₂⟩ := hgot₂.grown
    -- an entry that was not there is not there in a new block for addresses either
    have hempty : ∀ τ : Mkfs.Slot, τ ≠ .indirect → τ.addr s.view (s.ino ip) = 0 →
        τ.addr s₁.view (s₁.ino ip) = 0 := fun τ hτ h0 => hgot.only τ hτ hτ h0
    have hlook : (slotOf bn).addr s.view (s.ino ip) ≠ 0 → Wrote s s₁ s.view s.ino [] := by
      intro h0
      refine hgot.look fun hz' => h0 ?_
      rw [hslot]
      exact if_pos hz'
    refine ⟨⟨⟨_, hg₁.trans hg₂ hip⟩, hgot₂.slot, fun ha => ?_, hgot₂.empty, fun h0 => ?_,
      fun h0 ha => ?_,
      fun τ hτ hi h0 => hgot₂.only τ hτ hi (hempty τ hi h0)⟩, hheld₂, fun hd' h0 => ?_⟩
    · refine ⟨?_, (hgot₂.full ha).2⟩
      by_contra h0
      have hw := hlook h0
      have hz₁ := (hgot₂.full ha).1
      rw [hw.view, hw.ino] at hz₁
      exact h0 hz₁
    · have hw := hlook h0
      have hw₂ := hgot₂.look (by rw [hw.view, hw.ino]; exact h0)
      rw [hw.view, hw.ino] at hw₂
      exact hw.look hw₂
    · exact hgot₂.fresh (hempty _ (slotOf_ne_indirect bn) h0) ha
    · have hind₀ := hd'.resolve_left hd
      have hw := hgot.look hind₀
      have ho := hone₂ (by rw [hw.view, hw.ino]; exact h0)
      unfold One at ho ⊢
      rwa [hw.view] at ho

end Xv6.Files
