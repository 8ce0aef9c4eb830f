import Mathlib.Data.List.Basic
import Xv6.Files.Machine

/-!
# What a process sees of the blocks

A buffer that is not in the log is the block on the disk: then it does not matter
which buffers are recycled, and the file system can be told by what is seen of it.

  > `Wrote s s' V I L`: from `s` to `s'` the blocks became `V` and the inodes in
  > memory `I`, and `log_write` was called on `L`.

Reading and releasing change nothing (`bread_wp`, `Wrote.drop`), and a store that is
logged changes the block it goes to (`Wrote.edit`).
-/

namespace Xv6.Files

open Lib
open Mkfs (Block Dinode Superblock)

structure Coherent (s : Fs) : Prop where
  clean : ∀ {b data}, s.cache b = some data → b ∉ s.lh → s.disk b = data
  pinned : ∀ {b}, b ∈ s.lh → s.cache b ≠ none
  held : ∀ {b}, b ∈ s.held → s.cache b ≠ none

structure Wrote (s s' : Fs) (V : Nat → Block) (I : Nat → Dinode) (L : List Nat) : Prop where
  coherent : Coherent s'
  view : s'.view = V
  ino : s'.ino = I
  disk : s'.disk = s.disk
  lh : ∀ b, b ∈ s'.lh ↔ b ∈ s.lh ∨ b ∈ L
  op : ∀ b, b ∈ s'.op ↔ b ∈ s.op ∨ b ∈ L
  valid : s'.valid = s.valid
  ref : s'.ref = s.ref

variable {s s' s'' : Fs} {V V' : Nat → Block} {I I' : Nat → Dinode} {L L' : List Nat}

theorem Wrote.refl (hc : Coherent s) : Wrote s s s.view s.ino [] where
  coherent := hc
  view := rfl
  ino := rfl
  disk := rfl
  lh b := by simp
  op b := by simp
  valid := rfl
  ref := rfl

theorem Wrote.trans (h : Wrote s s' V I L) (h' : Wrote s' s'' V' I' L') :
    Wrote s s'' V' I' (L ++ L') where
  coherent := h'.coherent
  view := h'.view
  ino := h'.ino
  disk := h'.disk.trans h.disk
  lh b := by rw [h'.lh, h.lh, List.mem_append, or_assoc]
  op b := by rw [h'.op, h.op, List.mem_append, or_assoc]
  valid := h'.valid.trans h.valid
  ref := h'.ref.trans h.ref

/-- A part that only looks. -/
theorem Wrote.look (h : Wrote s s' V I L) (h' : Wrote s' s'' V I []) : Wrote s s'' V I L := by
  have ht := h.trans h'
  rwa [List.append_nil] at ht

/-! ## Buffers -/

theorem view_of_some {b : Nat} {data : Block} (h : s.cache b = some data) : s.view b = data := by
  unfold Fs.view
  rw [h, Option.getD_some]

theorem view_of_none {b : Nat} (h : s.cache b = none) : s.view b = s.disk b := by
  unfold Fs.view
  rw [h, Option.getD_none]

theorem Coherent.view_eq (hc : Coherent s) {b : Nat} (hb : b ∉ s.lh) : s.view b = s.disk b := by
  cases h : s.cache b with
  | none => exact view_of_none h
  | some data => rw [view_of_some h, hc.clean h hb]

/-- Recycling empties one buffer at most, and none that is in use. -/
theorem recycle_cases (s : Fs) (v : Option Nat) (b : Nat) :
    s.recycle v b = s.cache b ∨ (s.recycle v b = none ∧ b ∉ s.held ∧ b ∉ s.lh) := by
  unfold Fs.recycle
  cases v with
  | none => exact .inl rfl
  | some v =>
    dsimp only
    split
    next => exact .inl rfl
    next hv =>
      by_cases hb : b = v
      · rw [hb, Function.update_self]
        exact .inr ⟨rfl, fun h => hv (.inl h), fun h => hv (.inr h)⟩
      · exact .inl (Function.update_of_ne hb _ _)

variable {pick : Nat → Option Nat}

/-- What reading a block does to the buffers. -/
structure Loaded (s s' : Fs) (b : Nat) : Prop where
  some : s'.cache b = some (s.view b)
  other : ∀ c, c ≠ b → s'.cache c = s.cache c ∨ (s'.cache c = none ∧ c ∉ s.held ∧ c ∉ s.lh)

theorem load_loaded (s : Fs) (b : Nat) : Loaded s (s.load pick b) b := by
  unfold Fs.load
  split
  next data h =>
    refine ⟨?_, fun c _ => .inl rfl⟩
    show s.cache b = _
    rw [h, view_of_some h]
  next h =>
    refine ⟨?_, fun c hc => ?_⟩
    · show Function.update _ b _ b = _
      rw [Function.update_self, view_of_none h]
    · have hu : Function.update (s.recycle (pick s.turn)) b (some (s.disk b)) c
          = s.recycle (pick s.turn) c := Function.update_of_ne hc _ _
      dsimp only
      rw [hu]
      exact recycle_cases s _ c

theorem load_rest (s : Fs) (b : Nat) :
    (s.load pick b).held = b :: s.held ∧ (s.load pick b).lh = s.lh ∧ (s.load pick b).disk = s.disk ∧
      (s.load pick b).op = s.op ∧ (s.load pick b).ino = s.ino ∧ (s.load pick b).valid = s.valid ∧
      (s.load pick b).ref = s.ref := by
  unfold Fs.load
  split
  next => exact ⟨rfl, rfl, rfl, rfl, rfl, rfl, rfl⟩
  next => exact ⟨rfl, rfl, rfl, rfl, rfl, rfl, rfl⟩

/-- **Reading**: nothing changes for those who look. -/
theorem Wrote.load (hc : Coherent s) (b : Nat) :
    Wrote s (s.load pick b) s.view s.ino [] := by
  have hl := @load_loaded pick s b
  obtain ⟨hheld, hlh, hdisk, hop, hino, hvalid, href⟩ := @load_rest pick s b
  refine ⟨⟨fun {c data} hcd hn => ?_, fun {c} hm => ?_, fun {c} hm => ?_⟩, funext fun c => ?_,
    hino, hdisk,
    fun c => by rw [hlh]; simp, fun c => by rw [hop]; simp, hvalid, href⟩
  · rw [hlh] at hn
    rw [hdisk]
    by_cases hcb : c = b
    · rw [hcb, hl.some] at hcd
      rw [hcb] at hn ⊢
      rw [← Option.some.inj hcd, hc.view_eq hn]
    · rcases hl.other c hcb with he | ⟨he, -⟩
      · exact hc.clean (he ▸ hcd) hn
      · rw [he] at hcd
        cases hcd
  · rw [hlh] at hm
    by_cases hcb : c = b
    · rw [hcb, hl.some]
      exact Option.some_ne_none _
    · rcases hl.other c hcb with he | ⟨-, -, hn⟩
      · rw [he]
        exact hc.pinned hm
      · exact absurd hm hn
  · rw [hheld] at hm
    by_cases hcb : c = b
    · rw [hcb, hl.some]
      exact Option.some_ne_none _
    · rcases hl.other c hcb with he | ⟨-, hn, -⟩
      · rw [he]
        exact hc.held ((List.mem_cons.mp hm).resolve_left hcb)
      · exact absurd ((List.mem_cons.mp hm).resolve_left hcb) hn
  · by_cases hcb : c = b
    · rw [hcb, view_of_some hl.some]
    · rcases hl.other c hcb with he | ⟨he, -, hn⟩
      · unfold Fs.view
        rw [he, hdisk]
      · rw [view_of_none he, hdisk, hc.view_eq hn]

variable {Q : Block → Fs → Prop} {E : Panic → Fs → Prop}

theorem bread_load {b : Nat} (hb : b ∉ s.held) (h : Q (s.view b) (s.load pick b)) :
    wp (bread pick b) Q E s := by
  unfold bread
  simp only [wp_bind, wp_get, wp_ite, wp_modify, wp_pure]
  exact ⟨fun hm => absurd hm hb, fun _ => h⟩

theorem bread_wp {b : Nat} (hc : Coherent s) (hb : b ∉ s.held)
    (h : ∀ s', Wrote s s' s.view s.ino [] → s'.held = b :: s.held → Q (s.view b) s') :
    wp (bread pick b) Q E s :=
  bread_load hb (h _ (Wrote.load hc b) (@load_rest pick s b).1)

/-- After `brelse(b)`. -/
def Fs.drop (s : Fs) (b : Nat) : Fs := { s with held := s.held.erase b }

theorem Wrote.drop (h : Wrote s s' V I L) (b : Nat) : Wrote s (s'.drop b) V I L where
  coherent := ⟨h.coherent.clean, h.coherent.pinned,
    fun hm => h.coherent.held (List.mem_of_mem_erase hm)⟩
  view := h.view
  ino := h.ino
  disk := h.disk
  lh := h.lh
  op := h.op
  valid := h.valid
  ref := h.ref

/-- After a store to the buffer and `log_write`. -/
def Fs.edit (s : Fs) (b : Nat) (f : Block → Block) : Fs :=
  { s with
    cache := Function.update s.cache b ((s.cache b).map f)
    lh := if b ∈ s.lh then s.lh else s.lh ++ [b]
    op := b :: s.op }

theorem mem_edit_lh (s : Fs) (b : Nat) (f : Block → Block) (c : Nat) :
    c ∈ (s.edit b f).lh ↔ c ∈ s.lh ∨ c = b := by
  show c ∈ (if b ∈ s.lh then s.lh else s.lh ++ [b]) ↔ _
  split
  next hb => exact ⟨.inl, fun h => h.elim id fun he => he ▸ hb⟩
  next => rw [List.mem_append, List.mem_singleton]

/-- **A logged store.** -/
theorem Wrote.edit (hc : Coherent s) {b : Nat} (hb : b ∈ s.held) (f : Block → Block) :
    Wrote s (s.edit b f) (Function.update s.view b (f (s.view b))) s.ino [b] := by
  have hsome : ∃ data, s.cache b = some data := Option.ne_none_iff_exists'.mp (hc.held hb)
  obtain ⟨data, hd⟩ := hsome
  have hself : (s.edit b f).cache b = some (f data) := by
    show Function.update s.cache b ((s.cache b).map f) b = _
    rw [Function.update_self, hd, Option.map_some]
  have hother : ∀ c, c ≠ b → (s.edit b f).cache c = s.cache c := fun c hcb =>
    Function.update_of_ne hcb _ _
  have hkeep : ∀ c, s.cache c ≠ none → (s.edit b f).cache c ≠ none := by
    intro c hn
    by_cases hcb : c = b
    · rw [hcb, hself]
      exact Option.some_ne_none _
    · rw [hother c hcb]
      exact hn
  refine ⟨⟨fun {c data'} hcd hn => ?_, fun {c} hm => ?_, fun {c} hm => hkeep c (hc.held hm)⟩,
    funext fun c => ?_, rfl, rfl, fun c => ?_, fun c => ?_, rfl, rfl⟩
  · rw [mem_edit_lh, not_or] at hn
    rw [hother c hn.2] at hcd
    exact hc.clean hcd hn.1
  · rcases (mem_edit_lh s b f c).mp hm with hm | rfl
    · exact hkeep c (hc.pinned hm)
    · rw [hself]
      exact Option.some_ne_none _
  · by_cases hcb : c = b
    · rw [hcb, Function.update_self, view_of_some hself, view_of_some hd]
    · rw [Function.update_of_ne hcb]
      unfold Fs.view
      rw [hother c hcb]
      rfl
  · rw [mem_edit_lh, List.mem_singleton]
  · show c ∈ b :: s.op ↔ _
    rw [List.mem_cons, List.mem_singleton, or_comm]

/-- A store to an inode in memory. -/
theorem Wrote.setInode (hc : Coherent s) (ip : Nat) (d : Dinode) :
    Wrote s { s with ino := Function.update s.ino ip d } s.view
      (Function.update s.ino ip d) [] where
  coherent := ⟨hc.clean, hc.pinned, hc.held⟩
  view := rfl
  ino := rfl
  disk := rfl
  lh b := by simp
  op b := by simp
  valid := rfl
  ref := rfl

/-- A logged store, and the buffer is let go. -/
theorem Wrote.logged (hc : Coherent s) {b : Nat} (hb : b ∈ s.held) (f : Block → Block) :
    Wrote s ((s.edit b f).drop b) (Function.update s.view b (f (s.view b))) s.ino [b] :=
  (Wrote.edit hc hb f).drop b

/-- What is done with the buffer of a block. -/
theorem logged_wp {b : Nat} {f : Block → Block} {Q : PUnit → Fs → Prop} (hc : Coherent s)
    (hb : b ∈ s.held)
    (h : ∀ s', Wrote s s' (Function.update s.view b (f (s.view b))) s.ino [b] →
      s'.held = s.held.erase b → Q ⟨⟩ s') :
    wp (do poke b f; log_write b; brelse b) Q E s :=
  h ((s.edit b f).drop b) (Wrote.logged hc hb f) rfl

theorem logged_bind_wp {β : Type} {b : Nat} {f : Block → Block} {m : Kern β} {Q : β → Fs → Prop}
    (hc : Coherent s) (hb : b ∈ s.held)
    (h : ∀ s', Wrote s s' (Function.update s.view b (f (s.view b))) s.ino [b] →
      s'.held = s.held.erase b → wp m Q E s') :
    wp (do poke b f; log_write b; brelse b; m) Q E s := by
  rw [wp_bind]
  show wp (log_write b >>= fun _ => brelse b >>= fun _ => m) Q E _
  rw [wp_bind]
  show wp (brelse b >>= fun _ => m) Q E _
  rw [wp_bind]
  exact h ((s.edit b f).drop b) (Wrote.logged hc hb f) rfl

/-! ## The log -/

theorem commit_view (s : Fs) : s.commit.view = s.view := by
  funext b
  unfold Fs.view Fs.commit
  cases h : s.cache b with
  | some data => rfl
  | none =>
    dsimp only
    rw [Option.getD_none, Option.getD_none]
    split
    next => exact view_of_none h
    next => rfl

/-- After a commit every buffer is the block on the disk. -/
theorem Coherent.commit (hc : Coherent s) : Coherent s.commit := by
  refine ⟨fun {b data} h _ => ?_, fun {b} hm => ?_, fun {b} hm => hc.held hm⟩
  · show (if b ∈ s.lh then s.view b else s.disk b) = data
    have h : s.cache b = some data := h
    split
    next => exact view_of_some h
    next hb => exact hc.clean h hb
  · cases hm

end Xv6.Files
