import Xv6.Lib.Both
import Xv6.Files.Tidy

/-!
# Blocks that do not matter

A write that fails in the middle leaves bytes in a buffer that are not on the disk, and
whoever reads the block later sees the one or the other. `Alike D` compares a file system with
another whose blocks `D` may be different in every way.

  > No call depends on what is in a block of data, unless it is a block for addresses:
  > from two such states it goes the same way, and ends in two such states.

A block that is allocated is filled with zeroes, and is no longer one of `D`; this is how it
can become a block for addresses (`Agree`, for the calls that allocate).
-/

namespace Xv6.Files

open Lib
open Mkfs (Block Dinode Superblock zeroes BSIZE NDIRECT NINDIRECT MAXFILE)

/-- The same but for the content of the blocks `D`. -/
structure Alike (D : Nat → Prop) (s t : Fs) : Prop where
  lh : s.lh = t.lh
  held : s.held = t.held
  turn : s.turn = t.turn
  op : s.op = t.op
  ino : s.ino = t.ino
  valid : s.valid = t.valid
  ref : s.ref = t.ref
  cached : ∀ b, s.cache b = none ↔ t.cache b = none
  cache : ∀ b, ¬D b → s.cache b = t.cache b
  disk : ∀ b, ¬D b → b ∉ t.lh → s.disk b = t.disk b
  pinned : ∀ b, b ∈ t.lh → t.cache b ≠ none
  kept : ∀ b, b ∈ t.held → t.cache b ≠ none

variable {sb : Superblock} {pick : Nat → Option Nat} {D D' D₀ : Nat → Prop}
  {s s' t t' u : Fs} {ip : Nat}

theorem Alike.refl (h : Coherent s) : Alike D s s where
  lh := rfl
  held := rfl
  turn := rfl
  op := rfl
  ino := rfl
  valid := rfl
  ref := rfl
  cached _ := Iff.rfl
  cache _ _ := rfl
  disk _ _ _ := rfl
  pinned _ := h.pinned
  kept _ := h.held

theorem Alike.trans (h : Alike D s t) (h' : Alike D' t u) : Alike (fun b => D b ∨ D' b) s u where
  lh := h.lh.trans h'.lh
  held := h.held.trans h'.held
  turn := h.turn.trans h'.turn
  op := h.op.trans h'.op
  ino := h.ino.trans h'.ino
  valid := h.valid.trans h'.valid
  ref := h.ref.trans h'.ref
  cached b := (h.cached b).trans (h'.cached b)
  cache b hb := (h.cache b fun hd => hb (.inl hd)).trans (h'.cache b fun hd => hb (.inr hd))
  disk b hb hl := (h.disk b (fun hd => hb (.inl hd)) (h'.lh ▸ hl)).trans
    (h'.disk b (fun hd => hb (.inr hd)) hl)
  pinned := h'.pinned
  kept := h'.kept

/-- The others are seen alike. -/
theorem Alike.view (h : Alike D s t) {b : Nat} (hb : ¬D b) : s.view b = t.view b := by
  unfold Fs.view
  rw [h.cache b hb]
  cases hc : t.cache b with
  | some data => rfl
  | none => rw [Option.getD_none, Option.getD_none, h.disk b hb fun hm => h.pinned b hm hc]

/-! ## Buffers -/

theorem Alike.load (h : Alike D s t) (b : Nat) : Alike D (s.load pick b) (t.load pick b) := by
  have hrest := @load_rest pick s b
  have hrest' := @load_rest pick t b
  cases hc : t.cache b with
  -- the block is cached on both sides
  | some data =>
    have hs : s.cache b ≠ none :=
      fun hn => absurd ((h.cached b).mp hn) (by rw [hc]; exact Option.some_ne_none _)
    obtain ⟨data', hs⟩ := Option.ne_none_iff_exists'.mp hs
    have hl : s.load pick b = { s with held := b :: s.held } := by
      unfold Fs.load
      rw [hs]
    have hl' : t.load pick b = { t with held := b :: t.held } := by
      unfold Fs.load
      rw [hc]
    rw [hl, hl']
    refine { h with held := congrArg (b :: ·) h.held, kept := fun c hm => ?_ }
    rcases List.mem_cons.mp hm with rfl | hm
    · rw [show t.cache c = some data from hc]
      exact Option.some_ne_none data
    · exact h.kept c hm
  -- the same buffer is recycled on both sides, and the block is read from the disk
  | none =>
    have hs : s.cache b = none := (h.cached b).mpr hc
    have hl : s.load pick b = { s with
        cache := Function.update (s.recycle (pick s.turn)) b (some (s.disk b))
        held := b :: s.held
        turn := s.turn + 1 } := by
      unfold Fs.load
      rw [hs]
    have hl' : t.load pick b = { t with
        cache := Function.update (t.recycle (pick t.turn)) b (some (t.disk b))
        held := b :: t.held
        turn := t.turn + 1 } := by
      unfold Fs.load
      rw [hc]
    have hrec : ∀ c, (s.recycle (pick s.turn) c = none ↔ t.recycle (pick t.turn) c = none) ∧
        (¬D c → s.recycle (pick s.turn) c = t.recycle (pick t.turn) c) := by
      intro c
      rw [h.turn]
      unfold Fs.recycle
      cases pick t.turn with
      | none => exact ⟨h.cached c, h.cache c⟩
      | some v =>
        dsimp only
        rw [h.held, h.lh]
        split
        next => exact ⟨h.cached c, h.cache c⟩
        next =>
          by_cases hv : c = v
          · rw [hv, Function.update_self, Function.update_self]
            exact ⟨Iff.rfl, fun _ => rfl⟩
          · rw [Function.update_of_ne hv, Function.update_of_ne hv]
            exact ⟨h.cached c, h.cache c⟩
    have hkeep : ∀ c, t.cache c ≠ none → c ∈ t.held ∨ c ∈ t.lh →
        Function.update (t.recycle (pick t.turn)) b (some (t.disk b)) c ≠ none := by
      intro c hn hm
      by_cases hcb : c = b
      · rw [hcb, Function.update_self]
        exact Option.some_ne_none _
      · rw [Function.update_of_ne hcb]
        rcases recycle_cases t (pick t.turn) c with he | ⟨-, hh, hl⟩
        · rw [he]
          exact hn
        · exact absurd hm (not_or.mpr ⟨hh, hl⟩)
    rw [hl, hl']
    refine { h with
      held := congrArg (b :: ·) h.held
      turn := congrArg (· + 1) h.turn
      cached := fun c => ?_
      cache := fun c hn => ?_
      pinned := fun c hm => hkeep c (h.pinned c hm) (.inr hm)
      kept := fun c hm => ?_ }
    · show Function.update (s.recycle (pick s.turn)) b (some (s.disk b)) c = none ↔
        Function.update (t.recycle (pick t.turn)) b (some (t.disk b)) c = none
      by_cases hcb : c = b
      · rw [hcb, Function.update_self, Function.update_self]
        exact iff_of_false (Option.some_ne_none _) (Option.some_ne_none _)
      · rw [Function.update_of_ne hcb, Function.update_of_ne hcb]
        exact (hrec c).1
    · show Function.update _ b _ c = Function.update _ b _ c
      by_cases hcb : c = b
      · rw [hcb, Function.update_self, Function.update_self,
          h.disk b (hcb ▸ hn) fun hm => h.pinned b hm hc]
      · rw [Function.update_of_ne hcb, Function.update_of_ne hcb]
        exact (hrec c).2 hn
    · rcases List.mem_cons.mp hm with rfl | hm
      · show Function.update (t.recycle (pick t.turn)) c (some (t.disk c)) c ≠ none
        rw [Function.update_self]
        exact Option.some_ne_none _
      · exact hkeep c (h.kept c hm) (.inl hm)

/-- What is read is the same, unless the block does not matter. -/
theorem Alike.bread (h : Alike D s t) (b : Nat) :
    both (bread pick b) (bread pick b) (fun x s' y t' => Alike D s' t' ∧
      (¬D b → x = y) ∧ y = t.view b ∧
      t'.held = b :: t.held ∧ t'.ino = t.ino) s t := by
  refine both.get (both.ite (by rw [h.held]) (fun _ => both.stop _) fun _ => ?_)
  refine both.bind
    (both.modify (R := fun _ s' _ t' => s' = s.load pick b ∧ t' = t.load pick b) ⟨rfl, rfl⟩)
    fun _ s' _ t' hr => ?_
  obtain ⟨rfl, rfl⟩ := hr
  have hrest := @load_rest pick t b
  exact both.pure ⟨h.load b, fun hb => h.view hb, rfl, hrest.1, hrest.2.2.2.2.1⟩

theorem Alike.drop (h : Alike D s t) (b : Nat) : Alike D (s.drop b) (t.drop b) :=
  { h with
    held := congrArg (List.erase · b) h.held
    kept := fun c hm => h.kept c (List.mem_of_mem_erase hm) }

theorem Alike.poke (h : Alike D s t) (b : Nat) (f : Block → Block) :
    Alike D { s with cache := Function.update s.cache b ((s.cache b).map f) }
      { t with cache := Function.update t.cache b ((t.cache b).map f) } := by
  have hnone : ∀ (r : Fs) c, Function.update r.cache b ((r.cache b).map f) c = none ↔
      r.cache c = none := by
    intro r c
    by_cases hc : c = b
    · rw [hc, Function.update_self, Option.map_eq_none_iff]
    · rw [Function.update_of_ne hc]
  refine { h with
    cached := fun c => ?_
    cache := fun c hn => ?_
    pinned := fun c hm hn => h.pinned c hm ((hnone t c).mp hn)
    kept := fun c hm hn => h.kept c hm ((hnone t c).mp hn) }
  · exact (hnone s c).trans ((h.cached c).trans (hnone t c).symm)
  · show Function.update _ b _ c = Function.update _ b _ c
    by_cases hc : c = b
    · rw [hc, Function.update_self, Function.update_self, h.cache b (hc ▸ hn)]
    · rw [Function.update_of_ne hc, Function.update_of_ne hc]
      exact h.cache c hn

/-- `log_write`, of a block that is held. -/
theorem Alike.log (h : Alike D s t) {b : Nat} (hb : b ∈ t.held) :
    Alike D { s with lh := if b ∈ s.lh then s.lh else s.lh ++ [b], op := b :: s.op }
      { t with lh := if b ∈ t.lh then t.lh else t.lh ++ [b], op := b :: t.op } := by
  have hmem : ∀ c, c ∈ (if b ∈ t.lh then t.lh else t.lh ++ [b]) ↔ c ∈ t.lh ∨ c = b :=
    mem_edit_lh t b id
  refine { h with
    lh := ?_
    op := congrArg (b :: ·) h.op
    disk := fun c hn hm => h.disk c hn fun hc => hm ((hmem c).mpr (.inl hc))
    pinned := fun c hm => ?_ }
  · show (if b ∈ s.lh then s.lh else s.lh ++ [b]) = if b ∈ t.lh then t.lh else t.lh ++ [b]
    rw [h.lh]
  · rcases (hmem c).mp hm with hm | rfl
    · exact h.pinned c hm
    · exact h.kept c hb

/-- **A block is filled**, and logged: it is the same in both. -/
theorem Alike.fill (h : Alike D s t) {b : Nat} (hb : b ∈ t.held) (data : Block) :
    Alike (fun c => D c ∧ c ≠ b) (s.edit b fun _ => data) (t.edit b fun _ => data) := by
  have he := (h.poke b fun _ => data).log hb
  refine { he with cache := fun c hn => ?_, disk := fun c hn hm => ?_ }
  · by_cases hc : c = b
    · have hs : s.cache b ≠ none := fun hn' => h.kept b hb ((h.cached b).mp hn')
      obtain ⟨x, hx⟩ := Option.ne_none_iff_exists'.mp hs
      obtain ⟨y, hy⟩ := Option.ne_none_iff_exists'.mp (h.kept b hb)
      show Function.update s.cache b _ c = Function.update t.cache b _ c
      rw [hc, Function.update_self, Function.update_self, hx, hy]
      rfl
    · exact he.cache c fun hd => hn ⟨hd, hc⟩
  · have hc : c ≠ b := fun hc => hm ((mem_edit_lh t b id c).mpr (.inr hc))
    exact he.disk c (fun hd => hn ⟨hd, hc⟩) hm

variable {α : Type} {R : α → Fs → α → Fs → Prop} {m n : Kern α}

/-- A logged store, and what comes after it. -/
theorem Alike.logged (h : Alike D s t) {b : Nat} {f : Block → Block} (hb : b ∈ t.held)
    (hm : Alike D ((s.edit b f).drop b) ((t.edit b f).drop b) →
      both m n R ((s.edit b f).drop b) ((t.edit b f).drop b)) :
    both (do Files.poke b f; log_write b; brelse b; m)
      (do Files.poke b f; log_write b; brelse b; n) R s t :=
  hm (((h.poke b f).log hb).drop b)

theorem Alike.setInode (h : Alike D s t) (ip : Nat) (f : Dinode → Dinode) :
    Alike D { s with ino := Function.update s.ino ip (f (s.ino ip)) }
      { t with ino := Function.update t.ino ip (f (t.ino ip)) } :=
  { h with ino := by dsimp only; rw [h.ino] }

theorem Alike.store (h : Alike D s t) (ip : Nat) (f : Dinode → Dinode) :
    both (Files.setInode ip f) (Files.setInode ip f) (fun _ s' _ t' => Alike D s' t' ∧
      t'.ino = Function.update t.ino ip (f (t.ino ip))) s t := both.modify ⟨h.setInode ip f, rfl⟩

/-- After a commit. -/
theorem Alike.commit (h : Alike D s t) : Alike D s.commit t.commit := by
  refine { h with lh := rfl, disk := fun b hb _ => ?_, pinned := fun b hm => (by cases hm) }
  show (if b ∈ s.lh then s.view b else s.disk b) = if b ∈ t.lh then t.view b else t.disk b
  rw [h.lh]
  split
  next => exact h.view hb
  next hn => exact h.disk b hb hn

/-! ## Calls that free blocks -/

theorem Alike.bfree (h : Alike D s t) {b : Nat} (hb : ¬D (BBLOCK sb b)) :
    both (bfree sb pick b) (bfree sb pick b)
      (fun _ s' _ t' => Alike D s' t' ∧ t'.ino = t.ino) s t := by
  unfold Files.bfree
  refine (h.bread _).bind fun x s₁ y t₁ hr => ?_
  obtain ⟨h₁, hxy, -, hh, hi⟩ := hr
  rw [hxy hb]
  refine both.ite Iff.rfl (fun _ => both.stop _) fun _ => ?_
  have hlog := (h₁.poke (BBLOCK sb b) fun data =>
    Function.update data (b % Mkfs.BPB / 8)
      (data (b % Mkfs.BPB / 8) &&& ~~~ mask (b % Mkfs.BPB))).log
      (b := BBLOCK sb b) (by rw [show Fs.held _ = t₁.held from rfl, hh]; exact List.mem_cons_self)
  exact ⟨hlog.drop _, hi⟩

theorem Alike.freeDirect (hD : ∀ c, Bitmap sb c → ¬D c) :
    ∀ (is : List Nat) {s t : Fs}, Alike D s t →
    (∀ i, i ∈ is → (t.ino ip).addrs i < sb.size) →
    both (freeDirect sb pick ip is) (freeDirect sb pick ip is)
      (fun _ s' _ t' => Alike D s' t') s t := by
  intro is
  induction is with
  | nil =>
    intro s t h _
    exact both.pure h
  | cons i is ih =>
    intro s t h ha
    unfold Files.freeDirect
    refine both.get (both.ite (by rw [h.ino])
      (fun _ => ih h fun k hk => ha k (List.mem_cons_of_mem i hk)) fun _ => ?_)
    rw [h.ino]
    refine (h.bfree (hD _ ⟨_, ha i List.mem_cons_self, rfl⟩)).bind fun _ s₁ _ t₁ hr => ?_
    obtain ⟨h₁, hi₁⟩ := hr
    refine (h₁.store ip _).bind fun _ s₂ _ t₂ hr => ?_
    obtain ⟨h₂, hi₂⟩ := hr
    refine ih h₂ fun k hk => ?_
    rw [hi₂, Function.update_self, hi₁]
    show Function.update (t.ino ip).addrs i 0 k < sb.size
    by_cases hki : k = i
    · rw [hki, Function.update_self]
      exact Nat.lt_of_le_of_lt (Nat.zero_le _) (ha i List.mem_cons_self)
    · rw [Function.update_of_ne hki]
      exact ha k (List.mem_cons_of_mem i hk)

theorem Alike.freeEntries (hD : ∀ c, Bitmap sb c → ¬D c) (a : Block) : ∀ (js : List Nat) {s t : Fs},
    Alike D s t → (∀ j, j ∈ js → Bytes.get a (4 * j) 4 < sb.size) →
    both (freeEntries sb pick a js) (freeEntries sb pick a js)
      (fun _ s' _ t' => Alike D s' t' ∧ t'.ino = t.ino) s t := by
  intro js
  induction js with
  | nil =>
    intro s t h _
    exact both.pure ⟨h, rfl⟩
  | cons j js ih =>
    intro s t h ha
    have ha' : ∀ k, k ∈ js → Bytes.get a (4 * k) 4 < sb.size :=
      fun k hk => ha k (List.mem_cons_of_mem j hk)
    unfold Files.freeEntries
    refine both.ite Iff.rfl (fun _ => ih h ha') fun _ => ?_
    refine (h.bfree (hD _ ⟨_, ha j List.mem_cons_self, rfl⟩)).bind fun _ s₁ _ t₁ hr => ?_
    obtain ⟨h₁, hi₁⟩ := hr
    exact (ih h₁ ha').mono fun _ _ _ _ hr => ⟨hr.1, hr.2.trans hi₁⟩

theorem Alike.freeIndirect (hD : ∀ c, Bitmap sb c → ¬D c) (h : Alike D s t)
    (hind : (t.ino ip).addrs NDIRECT ≠ 0 → ¬D ((t.ino ip).addrs NDIRECT))
    (hlt : (t.ino ip).addrs NDIRECT < sb.size)
    (ha : ∀ j, j < NINDIRECT → Bytes.get (t.view ((t.ino ip).addrs NDIRECT)) (4 * j) 4 < sb.size) :
    both (freeIndirect sb pick ip) (freeIndirect sb pick ip)
      (fun _ s' _ t' => Alike D s' t') s t := by
  unfold Files.freeIndirect
  refine both.get (both.ite (by rw [h.ino]) (fun _ => both.pure h) fun h0 => ?_)
  rw [h.ino] at h0 ⊢
  refine (h.bread _).bind fun x s₁ y t₁ hr => ?_
  obtain ⟨h₁, hxy, rfl, -, hi₁⟩ := hr
  rw [hxy (hind h0)]
  refine (h₁.freeEntries hD _ _ fun j hj => ha j (List.mem_range.mp hj)).bind fun _ s₂ _ t₂ hr => ?_
  obtain ⟨h₂, hi₂⟩ := hr
  refine both.bind (both.modify (R := fun _ s' _ t' => Alike D s' t') (h₂.drop _))
    fun _ s₃ _ t₃ h₃ => ?_
  refine (h₃.bfree (hD _ ⟨_, hlt, rfl⟩)).bind fun _ s₄ _ t₄ hr => ?_
  exact both.modify (hr.1.setInode ip _)

theorem Alike.iupdate (h : Alike D s t) :
    both (iupdate sb pick ip) (iupdate sb pick ip)
      (fun _ s' _ t' => Alike D s' t' ∧ t'.ino = t.ino) s t := by
  unfold Files.iupdate
  refine (h.bread _).bind fun x s₁ y t₁ hr => ?_
  obtain ⟨h₁, -, -, hh, hi⟩ := hr
  refine both.get ?_
  rw [h₁.ino]
  have hlog :=
    (h₁.poke (IBLOCK sb ip) fun data => Mkfs.setDinode data (Mkfs.dinodeOff ip) (t₁.ino ip)).log
    (b := IBLOCK sb ip) (by rw [show Fs.held _ = t₁.held from rfl, hh]; exact List.mem_cons_self)
  exact ⟨hlog.drop _, hi⟩

theorem Tidy.addr_lt (hl : Layout sb) (h : Tidy sb s) (hk : Locked sb s ip) (σ : Mkfs.Slot) :
    σ.addr s.view (s.ino ip) < sb.size := by
  by_cases h0 : σ.addr s.view (s.ino ip) = 0
  · have hpos := hl.boot
    unfold nmeta at hpos
    omega
  · exact (h.owned.data ((h.slots hk σ).trans (Mkfs.nonzero_eq h0))).2

theorem Alike.itrunc (hl : Layout sb) (hD : ∀ c, Bitmap sb c → ¬D c)
    (h : Alike D s t) (ht : Tidy sb t)
    (hk : Locked sb t ip) (hind : (t.ino ip).addrs NDIRECT ≠ 0 → ¬D ((t.ino ip).addrs NDIRECT)) :
    both (itrunc sb pick ip) (itrunc sb pick ip) (fun _ s' _ t' => Alike D s' t') s t := by
  have hdirect : ∀ i, i ∈ List.range NDIRECT → slotOf i ∉ ([] : List Mkfs.Slot) ∧
      owner sb t.view (onDisk sb t.view) (ip, slotOf i) = Mkfs.nonzero ((t.ino ip).addrs i) := by
    intro i hi
    refine ⟨List.not_mem_nil, ?_⟩
    rw [ht.slots hk]
    unfold slotOf
    rw [dif_pos (List.mem_range.mp hi)]
    rfl
  have hlt : ∀ i, i ∈ List.range NDIRECT → (t.ino ip).addrs i < sb.size := fun i hi =>
    ht.addr_lt hl hk (.direct ⟨i, List.mem_range.mp hi⟩)
  unfold Files.itrunc
  refine ((h.freeDirect hD (List.range NDIRECT) hlt).and (E := fun _ _ => True)
    (freeDirect_wp _ [] t
    List.nodup_range (fun i hi => List.mem_range.mp hi) (Freed.refl ht.coherent ht.owned) ht.held
    hdirect)).bind fun _ s₁ _ t₁ hr => ?_
  obtain ⟨h₁, hf, -, -, hk₁⟩ := hr
  have hsame : (t₁.ino ip).addrs NDIRECT = (t.ino ip).addrs NDIRECT :=
    hk₁ _ fun hc => Nat.lt_irrefl _ (List.mem_range.mp hc)
  refine both.bind (R := fun _ s' _ t' => Alike D s' t') ?_ fun _ s₂ _ t₂ h₂ => ?_
  · by_cases h0 : (t.ino ip).addrs NDIRECT = 0
    · unfold Files.freeIndirect
      refine both.get (both.ite (by rw [h₁.ino]) (fun _ => both.pure h₁) fun hn => ?_)
      rw [h₁.ino, hsame] at hn
      exact absurd h0 hn
    · have hown := ht.slots hk .indirect
      have hdata : Data sb ((t.ino ip).addrs NDIRECT) :=
        ht.owned.data (hown.trans (Mkfs.nonzero_eq h0))
      refine h₁.freeIndirect hD (by rw [hsame]; exact hind)
        (by rw [hsame]; exact hdata.2) fun j hj => ?_
      rw [hsame, hf.blocks _ (hl.not_bitmap hdata), ← entry_addr (j := ⟨j, hj⟩) h0]
      exact ht.addr_lt hl hk _
  · refine (h₂.store ip _).bind fun _ s₃ _ t₃ h₃ => ?_
    exact h₃.1.iupdate.mono fun _ _ _ _ hr => hr.1

/-- `ip->ref` and `ip->valid` are stored to. -/
theorem Alike.count (h : Alike D s t) {f : (Nat → Bool) → (Nat → Nat) → Nat → Bool}
    {g : (Nat → Nat) → Nat → Nat} : Alike D { s with valid := f s.valid s.ref, ref := g s.ref }
      { t with valid := f t.valid t.ref, ref := g t.ref } :=
  { h with
    valid := by dsimp only; rw [h.valid, h.ref]
    ref := by dsimp only; rw [h.ref] }

theorem Alike.iput (hl : Layout sb) (hD : ∀ c, Bitmap sb c → ¬D c)
    (h : Alike D s t) (ht : Tidy sb t)
    (hip : ip < sb.ninodes)
    (hind : Locked sb t ip → (t.ino ip).addrs NDIRECT ≠ 0 → ¬D ((t.ino ip).addrs NDIRECT)) :
    both (iput sb pick ip) (iput sb pick ip) (fun _ s' _ t' => Alike D s' t') s t := by
  unfold Files.iput
  refine both.get (both.ite (by rw [h.ref, h.valid, h.ino]) (fun hd => ?_) fun _ => ?_)
  · rw [h.ref, h.valid, h.ino] at hd
    have hk : Locked sb t ip := Dying.locked hd hip
    refine (h.itrunc hl hD ht hk (hind hk)).bind fun _ s₁ _ t₁ h₁ => ?_
    refine (h₁.store ip _).bind fun _ s₂ _ t₂ h₂ => ?_
    refine h₂.1.iupdate.bind fun _ s₃ _ t₃ h₃ => ?_
    exact h₃.1.count (f := fun v _ => Function.update v ip false)
      (g := fun r => Function.update r ip (r ip - 1))
  · exact both.modify (h.count (f := fun v _ => v) (g := fun r => Function.update r ip (r ip - 1)))

theorem Alike.iget (h : Alike D s t) :
    both (iget ip) (iget ip) (fun _ s' _ t' => Alike D s' t') s t :=
  both.modify (h.count (f := fun v r => if r ip = 0 then Function.update v ip false else v)
    (g := fun r => Function.update r ip (r ip + 1)))

theorem Alike.ialloc (hD : ∀ i, i < sb.ninodes → ¬D (IBLOCK sb i)) {type : Nat} (h : Alike D s t) :
    both (ialloc sb pick type) (ialloc sb pick type)
      (fun r s' r' t' => r = r' ∧ Alike D s' t') s t := by
  suffices hfrom : ∀ fuel inum {s t : Fs}, Alike D s t → both (iallocFrom sb pick type fuel inum)
      (iallocFrom sb pick type fuel inum) (fun r s' r' t' => r = r' ∧ Alike D s' t')
      s t from hfrom _ _ h
  intro fuel
  induction fuel with
  | zero =>
    intro inum s t h
    exact both.pure ⟨rfl, h⟩
  | succ fuel ih =>
    intro inum s t h
    unfold iallocFrom
    refine both.ite Iff.rfl (fun hlt => ?_) fun _ => both.pure ⟨rfl, h⟩
    refine (h.bread _).bind fun x s₁ y t₁ hr => ?_
    obtain ⟨h₁, hxy, -, hh, -⟩ := hr
    rw [hxy (hD inum hlt)]
    refine both.ite Iff.rfl (fun _ => ?_) fun _ => ?_
    · refine h₁.logged (by rw [hh]; exact List.mem_cons_self) fun h₂ => ?_
      exact h₂.iget.bind fun _ s₃ _ t₃ h₃ => both.pure ⟨rfl, h₃⟩
    · exact both.bind (both.modify (R := fun _ s' _ t' => Alike D s' t') (h₁.drop _))
        fun _ s₂ _ t₂ h₂ =>
        ih (inum + 1) h₂

theorem Alike.ilock (hb : ¬D (IBLOCK sb ip)) (h : Alike D s t) :
    both (ilock sb pick ip) (ilock sb pick ip) (fun _ s' _ t' => Alike D s' t') s t := by
  unfold Files.ilock
  refine both.get (both.ite (by rw [h.ref]) (fun _ => both.stop _) fun _ => ?_)
  refine both.ite (by rw [h.valid]) (fun _ => ?_) fun _ => both.pure h
  refine (h.bread _).bind fun x s₁ y t₁ hr => ?_
  obtain ⟨h₁, hxy, -⟩ := hr
  rw [hxy hb]
  refine (h₁.store ip _).bind fun _ s₂ _ t₂ h₂ => ?_
  refine both.bind (both.modify (R := fun _ s' _ t' => Alike D s' t') (h₂.1.drop _))
    fun _ s₃ _ t₃ h₃ => ?_
  refine both.bind (both.modify (R := fun _ s' _ t' => Alike D s' t') (h₃.count
    (f := fun v _ => Function.update v ip true) (g := id))) fun _ s₄ _ t₄ h₄ => ?_
  exact both.ite Iff.rfl (fun _ => both.stop _) fun _ => both.pure h₄

end Xv6.Files
