import Xv6.Log.Machine
import Xv6.Files.Smear

/-!
# What a transaction of `filewrite` logs

`filewrite` cuts a write into transactions of three blocks at most. Here the blocks
are counted that `log_write` is called on in each of them.

  > A block of the file costs two when it is new, itself and its bit, and one when it
  > is there. A write that does not start at a block's first byte touches four blocks,
  > but then the first of them is there.

With the inode, the block for addresses and its bit that makes ten (`writei_spent`). The
block for addresses is one and the same all along, so that it is counted apart (`Spent`).
The counting asks nothing of the bitmap or of the other inodes.
-/

namespace Xv6.Files

open Lib
open Lib.Bytes (put blit)
open Mkfs (Block Dinode Superblock BSIZE NDIRECT NINDIRECT MAXFILE BPB)
open Log (MAXOPBLOCKS)

/-! ## The call -/

/-- An open file, of type `FD_INODE`. -/
structure File where
  writable : Bool
  ip : Nat

/-- What the process sees in `filewrite`. -/
structure Sys where
  fs : Fs
  /-- `f->off` -/
  off : Nat
  /-- the transactions that are over: when the inode was locked, and at the end -/
  done : List (Fs × Fs)

section Call

variable (sb : Superblock) (pick : Nat → Option Nat) (mem : Mem)
  (world : Nat → Fs × Nat → Fs × Nat)

/-- `max`: some blocks at a time. -/
def maxWrite : Nat := ((MAXOPBLOCKS - 1 - 1 - 2) / 2) * BSIZE

def inFs {α : Type} (m : Kern α) : Prog Sys Panic α := zoom Sys.fs (fun fs s => { s with fs }) m

/-- The operation of this process starts. -/
def begin_op : Kern PUnit := modify fun s => { s with op := [] }

/-- While `begin_op` and `ilock` wait, others have the processor: the log is committed, buffers
are recycled, other files are written, and `f->off` moves when they have this one too. -/
def others : Prog Sys Panic PUnit :=
  modify fun s =>
    { s with
      fs := (world s.done.length (s.fs, s.off)).1
      off := (world s.done.length (s.fs, s.off)).2 }

/-- From `begin_op` to `end_op`. -/
def writeTurn (ip addr n1 : Nat) : Prog Sys Panic Int := do
  others world
  inFs begin_op
  inFs (ilock sb pick ip)
  let s ← get
  let r ← inFs (writei sb pick mem ip true addr s.off n1)
  modify fun s' =>
    { s' with
      off := if 0 < r then (s'.off + r.toNat) % 2 ^ 32 else s'.off
      done := s'.done ++ [(s.fs, s'.fs)] }
  pure r

/-- The loop of `filewrite`: the `i` it ends with. -/
def writeTurns (ip addr n i : Nat) : Prog Sys Panic Nat :=
  if _h : i < n then do
    let n1 := min (n - i) maxWrite
    let r ← writeTurn sb pick mem world ip ((addr + i) % 2 ^ 64) n1
    if r ≠ n1 then pure i else writeTurns ip addr n (i + n1)
  else pure i
termination_by n - i
decreasing_by
  have hpos : 0 < maxWrite := by decide
  omega

def filewrite (f : File) (addr : Nat) (n : Int) : Prog Sys Panic Int :=
  if f.writable = false then pure (-1)
  else do
    let i ← writeTurns sb pick mem world f.ip addr n.toNat 0
    pure (if (i : Int) = n then n else -1)

end Call

variable {sb : Superblock} {pick : Nat → Option Nat} {s s' s'' : Fs} {ip : Nat}
  {L L' : List Nat} {mem : Mem}

/-! ## What is logged -/

/-- At most `L` is logged, and the inodes in memory are as before. -/
def Adds (s s' : Fs) (L : List Nat) : Prop := s'.ino = s.ino ∧ ∀ b, b ∈ s'.op → b ∈ s.op ∨ b ∈ L

theorem Adds.refl (s : Fs) : Adds s s [] := ⟨rfl, fun _ h => .inl h⟩

theorem Adds.trans (h : Adds s s' L) (h' : Adds s' s'' L') : Adds s s'' (L ++ L') := by
  refine ⟨h'.1.trans h.1, fun b hb => ?_⟩
  rcases h'.2 b hb with hb | hb
  · exact (h.2 b hb).imp_right fun hm => List.mem_append_left _ hm
  · exact .inr (List.mem_append_right _ hb)

theorem Adds.mono (h : Adds s s' L) (hL : ∀ b, b ∈ L → b ∈ L') : Adds s s' L' :=
  ⟨h.1, fun b hb => (h.2 b hb).imp_right (hL b)⟩

theorem bread_adds (b : Nat) :
    wp (bread pick b) (fun data s' => data = s.view b ∧ Adds s s' []) (fun _ _ => True) s := by
  unfold bread
  rw [wp_bind, wp_get, wp_ite]
  refine ⟨fun _ => trivial, fun _ => ⟨rfl, ?_⟩⟩
  obtain ⟨-, -, -, hop, hino, -, -⟩ := @load_rest pick s b
  exact ⟨hino, fun c hc => .inl (hop ▸ hc)⟩

theorem edit_adds (b : Nat) (f : Block → Block) : Adds s ((s.edit b f).drop b) [b] := by
  refine ⟨rfl, fun c hc => ?_⟩
  have hc : c ∈ b :: s.op := hc
  rcases List.mem_cons.mp hc with rfl | hc
  · exact .inr List.mem_cons_self
  · exact .inl hc

theorem logged_adds {β : Type} {b : Nat} {f : Block → Block} {m : Kern β} {Q : β → Fs → Prop}
    (h : ∀ s', Adds s s' [b] → wp m Q (fun _ _ => True) s') :
    wp (do poke b f; log_write b; brelse b; m) Q (fun _ _ => True) s := by
  rw [wp_bind]
  show wp (log_write b >>= fun _ => brelse b >>= fun _ => m) Q _ _
  rw [wp_bind]
  show wp (brelse b >>= fun _ => m) Q _ _
  rw [wp_bind]
  exact h ((s.edit b f).drop b) (edit_adds b f)

theorem bzero_adds (b : Nat) :
    wp (bzero pick b) (fun _ s' => Adds s s' [b]) (fun _ _ => True) s := by
  unfold bzero
  refine (bread_adds b).andThen fun data s₁ h₁ => ?_
  exact h₁.2.trans (edit_adds b _)

/-- **`balloc`** logs the block it returns, and its bit. -/
theorem ballocFrom_adds : ∀ fuel b (s : Fs), b % BPB = 0 →
    wp (ballocFrom sb pick fuel b) (fun a s' => Adds s s' [a, BBLOCK sb a])
      (fun _ _ => True) s := by
  have hBPB : BPB = 8192 := rfl
  intro fuel
  induction fuel with
  | zero =>
    intro b s _
    exact (Adds.refl s).mono fun c hc => (by cases hc)
  | succ fuel ih =>
    intro b s hb
    unfold ballocFrom
    rw [wp_ite]
    refine ⟨fun _ => ?_, fun _ => (Adds.refl s).mono fun c hc => (by cases hc)⟩
    refine (bread_adds _).andThen fun data s₁ h₁ => ?_
    cases hscan : scan sb data b with
    | some bi =>
      obtain ⟨hbi, -, -⟩ := scan_some hscan
      have hdiv : BBLOCK sb (b + bi) = BBLOCK sb b := by
        unfold BBLOCK
        rw [hBPB] at hb hbi ⊢
        omega
      refine logged_adds fun s₂ h₂ => ?_
      refine (bzero_adds _).andThen fun _ s₃ h₃ => ?_
      refine ((h₁.2.trans h₂).trans h₃).mono fun c hc => ?_
      rw [hdiv]
      simp only [List.nil_append, List.cons_append, List.mem_cons, List.not_mem_nil,
        or_false] at hc ⊢
      exact hc.symm
    | none =>
      rw [wp_bind]
      show wp (ballocFrom sb pick fuel (b + BPB)) _ _ (s₁.drop (BBLOCK sb b))
      refine (ih (b + BPB) _ (by rw [Nat.add_mod_right]; exact hb)).mono fun a s₂ h₂ => ?_
      exact h₁.2.trans (show Adds s₁ s₂ _ from h₂)

theorem balloc_adds : wp (balloc sb pick) (fun a s' => Adds s s' [a, BBLOCK sb a])
    (fun _ _ => True) s :=
  ballocFrom_adds _ _ s (Nat.zero_mod _)

/-! ## The block for addresses apart -/

/-- The block for addresses, and its bit. -/
def Ind (sb : Superblock) (d : Dinode) (b : Nat) : Prop :=
  d.addrs NDIRECT ≠ 0 ∧ (b = d.addrs NDIRECT ∨ b = BBLOCK sb (d.addrs NDIRECT))

/-- Of inode `ip`, at most `L` is logged besides the block for addresses and its bit. -/
structure Spent (sb : Superblock) (s s' : Fs) (ip : Nat) (L : List Nat) : Prop where
  size : (s'.ino ip).size = (s.ino ip).size
  keep : (s.ino ip).addrs NDIRECT ≠ 0 → (s'.ino ip).addrs NDIRECT = (s.ino ip).addrs NDIRECT
  op : ∀ b, b ∈ s'.op → b ∈ s.op ∨ b ∈ L ∨ Ind sb (s'.ino ip) b

theorem Adds.spent (h : Adds s s' L) : Spent sb s s' ip L :=
  ⟨by rw [h.1], fun _ => by rw [h.1], fun b hb => (h.2 b hb).imp_right .inl⟩

theorem Spent.trans (h : Spent sb s s' ip L) (h' : Spent sb s' s'' ip L') :
    Spent sb s s'' ip (L ++ L') := by
  refine ⟨h'.size.trans h.size, fun h0 => ?_, fun b hb => ?_⟩
  · have hk := h.keep h0
    rw [← hk]
    exact h'.keep (by rw [hk]; exact h0)
  · rcases h'.op b hb with hb | hb | hb
    · rcases h.op b hb with hb | hb | ⟨h0, hb⟩
      · exact .inl hb
      · exact .inr (.inl (List.mem_append_left _ hb))
      · refine .inr (.inr ?_)
        unfold Ind
        rw [h'.keep h0]
        exact ⟨h0, hb⟩
    · exact .inr (.inl (List.mem_append_right _ hb))
    · exact .inr (.inr hb)

theorem Spent.mono (h : Spent sb s s' ip L) (hL : ∀ b, b ∈ L → b ∈ L') : Spent sb s s' ip L' :=
  ⟨h.size, h.keep, fun b hb => (h.op b hb).imp_right fun h => h.imp_left (hL b)⟩

/-! ## A block of the file -/

/-- What `addrOf` comes to. -/
inductive Addr (sb : Superblock) (s s' : Fs) (ip i a : Nat) : Prop
  | there (h0 : (s.ino ip).addrs i ≠ 0) (ha : a = (s.ino ip).addrs i) (hs : s' = s)
  | full (h0 : (s.ino ip).addrs i = 0) (ha : a = 0) (h : Adds s s' [a, BBLOCK sb a])
  | new (h0 : (s.ino ip).addrs i = 0) (ha : a ≠ 0)
      (hi : s'.ino = Function.update s.ino ip (setAddr i a (s.ino ip)))
      (h : ∀ b, b ∈ s'.op → b ∈ s.op ∨ b ∈ [a, BBLOCK sb a])

theorem addrOf_adds (i : Nat) :
    wp (addrOf sb pick ip i) (fun a s' => Addr sb s s' ip i a) (fun _ _ => True) s := by
  unfold addrOf
  rw [wp_bind, wp_get, wp_ite]
  refine ⟨fun h0 => ?_, fun h0 => .there h0 rfl rfl⟩
  refine balloc_adds.andThen fun a s₁ h₁ => ?_
  rw [wp_ite]
  refine ⟨fun ha => .full h0 rfl (ha ▸ h₁), fun ha => .new h0 ha ?_ h₁.2⟩
  show Function.update s₁.ino ip (setAddr i a (s₁.ino ip)) = _
  rw [h₁.1]

theorem entryOf_adds (addr bn : Nat) :
    wp (entryOf sb pick addr bn) (fun a s' => Adds s s' [a, BBLOCK sb a, addr] ∧
      (Bytes.get (s.view addr) (4 * bn) 4 ≠ 0 → Adds s s' [])) (fun _ _ => True) s := by
  unfold entryOf
  refine (bread_adds _).andThen fun data s₁ h₁ => ?_
  obtain ⟨hdata, h₁⟩ := h₁
  subst hdata
  rw [wp_ite]
  refine ⟨fun hz => ?_, fun _ => ?_⟩
  · refine balloc_adds.andThen fun a s₂ h₂ => ?_
    have h₂ := h₁.trans h₂
    rw [wp_ite]
    refine ⟨fun _ => ⟨?_, fun hn => absurd hz hn⟩, fun _ => ?_⟩
    · exact (show Adds s (s₂.drop addr) _ from h₂).mono fun c hc => List.mem_append_left [addr] hc
    · exact logged_adds fun s₃ h₃ => ⟨h₂.trans h₃, fun hn => absurd hz hn⟩
  · have h : Adds s (s₁.drop addr) [] := h₁
    exact ⟨h.mono fun c hc => (by cases hc), fun _ => h⟩

theorem Addr.full_spent {i a : Nat} (h : Addr sb s s' ip i a) (ha : a = 0) :
    Spent sb s s' ip [a, BBLOCK sb a] := by
  cases h with
  | there h0 he => exact absurd (he.symm.trans ha) h0
  | full _ _ h => exact h.spent
  | new _ hn => exact absurd ha hn

theorem Addr.direct {i a : Nat} (h : Addr sb s s' ip i a) (hi : i ≠ NDIRECT) :
    Spent sb s s' ip [a, BBLOCK sb a] := by
  cases h with
  | there _ _ hs =>
    rw [hs]
    exact (Adds.refl s).spent.mono fun c hc => (by cases hc)
  | full _ _ h => exact h.spent
  | new _ _ hino h =>
    refine ⟨?_, fun _ => ?_, fun b hb => (h b hb).imp_right .inl⟩
    · rw [hino, Function.update_self]
      rfl
    · rw [hino, Function.update_self]
      exact Function.update_of_ne (Ne.symm hi) a (s.ino ip).addrs

/-- The block for addresses is not counted. -/
theorem Addr.indirect {a : Nat} (h : Addr sb s s' ip NDIRECT a) (ha : a ≠ 0) :
    Spent sb s s' ip [] ∧ (s'.ino ip).addrs NDIRECT = a := by
  cases h with
  | there _ he hs =>
    rw [hs]
    exact ⟨(Adds.refl s).spent, he.symm⟩
  | full _ h0 => exact absurd h0 ha
  | new h0 _ hino h =>
    have hself : (s'.ino ip).addrs NDIRECT = a := by
      rw [hino, Function.update_self]
      exact Function.update_self NDIRECT a (s.ino ip).addrs
    refine ⟨⟨?_, fun hn => absurd h0 hn,
      fun b hb => (h b hb).imp_right fun hm => .inr ⟨by rwa [hself], ?_⟩⟩, hself⟩
    · rw [hino, Function.update_self]
      rfl
    · rw [hself]
      simp only [List.mem_cons, List.not_mem_nil, or_false] at hm
      exact hm

/-- A block beyond the direct ones that is there. -/
theorem entry_there {V : Nat → Block} {d : Dinode} {bn : Nat} (hd : ¬bn < NDIRECT)
    (hbn : bn < MAXFILE)
    (hn : (slotOf bn).addr V d ≠ 0) :
    d.addrs NDIRECT ≠ 0 ∧ Bytes.get (V (d.addrs NDIRECT)) (4 * (bn - NDIRECT)) 4 ≠ 0 := by
  have hM : MAXFILE = NDIRECT + NINDIRECT := rfl
  unfold slotOf at hn
  rw [dif_neg hd] at hn
  have hn : (if d.addrs NDIRECT = 0 then 0
      else Bytes.get (V (d.addrs NDIRECT)) (4 * ((bn - NDIRECT) % NINDIRECT)) 4) ≠ 0 := hn
  rw [Nat.mod_eq_of_lt (by omega)] at hn
  split at hn
  next => exact absurd rfl hn
  next h0 => exact ⟨h0, hn⟩

/-- **`bmap`** logs nothing when the block is there. -/
theorem bmap_spent (bn : Nat) :
    wp (bmap sb pick ip bn) (fun a s' => Spent sb s s' ip [a, BBLOCK sb a] ∧
      (bn < MAXFILE → (slotOf bn).addr s.view (s.ino ip) ≠ 0 → Spent sb s s' ip []))
      (fun _ _ => True) s := by
  unfold bmap
  rw [wp_ite]
  refine ⟨fun hd => ?_, fun hd => ?_⟩
  · refine (addrOf_adds bn).mono fun a s₁ h₁ => ⟨h₁.direct (Nat.ne_of_lt hd), fun _ hn => ?_⟩
    unfold slotOf at hn
    rw [dif_pos hd] at hn
    have hn : (s.ino ip).addrs bn ≠ 0 := hn
    cases h₁ with
    | there _ _ hs =>
      rw [hs]
      exact (Adds.refl s).spent
    | full h0 => exact absurd h0 hn
    | new h0 => exact absurd h0 hn
  · rw [wp_ite]
    refine ⟨fun hlt => ?_, fun _ => trivial⟩
    refine (addrOf_adds NDIRECT).andThen fun ind s₁ h₁ => ?_
    rw [wp_ite]
    refine ⟨fun h0 => ⟨?_, fun hbn hn => ?_⟩, fun h0 => ?_⟩
    · have h := h₁.full_spent h0
      rw [h0] at h
      exact h
    · obtain ⟨hind, -⟩ := entry_there hd hbn hn
      cases h₁ with
      | there _ ha => exact absurd (ha.symm.trans h0) hind
      | full hz => exact absurd hz hind
      | new hz => exact absurd hz hind
    · obtain ⟨hs₁, hind⟩ := h₁.indirect h0
      refine (entryOf_adds ind (bn - NDIRECT)).mono fun a s₂ h₂ => ⟨?_, fun hbn hn => ?_⟩
      · -- the block for addresses is logged with its new entry
        have h₂' : Spent sb s₁ s₂ ip [a, BBLOCK sb a] := by
          refine ⟨by rw [h₂.1.1], fun _ => by rw [h₂.1.1], fun b hb => ?_⟩
          refine (h₂.1.2 b hb).imp_right fun hm => ?_
          simp only [List.mem_cons, List.not_mem_nil, or_false] at hm ⊢
          unfold Ind
          rw [h₂.1.1, hind]
          tauto
        exact hs₁.trans h₂'
      · obtain ⟨hz, hentry⟩ := entry_there hd hbn hn
        cases h₁ with
        | there _ ha hs =>
          subst ha hs
          exact (h₂.2 hentry).spent
        | full h => exact absurd h hz
        | new h => exact absurd h hz

/-! ## The loop of `writei` -/

variable {user_src : Bool} {n : Nat}

/-- What a turn leaves: two blocks, or one if the block was there. -/
structure Turned (sb : Superblock) (s s' : Fs) (ip off : Nat) : Prop where
  spent : ∃ a, Spent sb s s' ip [a, BBLOCK sb a]
  mapped : off / BSIZE < MAXFILE → Mapped s.view (s.ino ip) off → ∃ a, Spent sb s s' ip [a]

/-- **A turn of the loop.** -/
theorem writeFrom_turn {Q : Nat × Nat → Fs → Prop} {fuel tot off src : Nat} (hlt : tot < n)
    (hend : ∀ s', Turned sb s s' ip off → Q (tot, off) s')
    (hgo : ∀ s', Turned sb s s' ip off →
      wp (writeFrom sb pick mem ip user_src n fuel (tot + min (n - tot) (BSIZE - off % BSIZE))
        (off + min (n - tot) (BSIZE - off % BSIZE)) (src + min (n - tot) (BSIZE - off % BSIZE))) Q
        (fun _ _ => True) s') :
    wp (writeFrom sb pick mem ip user_src n (fuel + 1) tot off src) Q (fun _ _ => True) s := by
  unfold writeFrom
  rw [wp_ite]
  refine ⟨fun _ => ?_, fun h => absurd hlt h⟩
  refine (bmap_spent _).andThen fun a s₁ h₁ => ?_
  obtain ⟨hnew, hold⟩ := h₁
  have hturn : Turned sb s s₁ ip off :=
    ⟨⟨a, hnew⟩, fun hb hm => ⟨a, (hold hb hm).mono fun c hc => (by cases hc)⟩⟩
  rw [wp_ite]
  refine ⟨fun _ => hend _ hturn, fun _ => ?_⟩
  refine (bread_adds a).andThen fun data s₂ h₂ => ?_
  -- the data are logged
  have hlog : ∀ s', Adds s₂ s' [a] → Turned sb s s' ip off := by
    intro s' h'
    have h : Spent sb s₁ s' ip [a] := (h₂.2.trans h').spent
    refine ⟨⟨a, (hnew.trans h).mono fun c hc => ?_⟩, fun hb hm => ⟨a, (hold hb hm).trans h⟩⟩
    simp only [List.nil_append, List.cons_append, List.mem_cons, List.not_mem_nil, or_false] at hc ⊢
    tauto
  dsimp only
  generalize either_copyin mem user_src src (min (n - tot) (BSIZE - off % BSIZE)) = r
  obtain ⟨l, ok⟩ := r
  cases ok with
  | false =>
    rw [wp_bind]
    exact hend _ (hlog _ ⟨rfl, fun b hb => .inl hb⟩)
  | true =>
    rw [if_neg (show ¬(true = false) from Bool.noConfusion)]
    exact logged_adds fun s₃ h₃ => hgo s₃ (hlog s₃ h₃)

/-- **Two for each block** that is still touched: by induction on the turns. -/
theorem writeFrom_spent :
    ∀ fuel k tot off src (s : Fs), n ≤ tot ∨ off % BSIZE + (n - tot) ≤ k * BSIZE →
    wp (writeFrom sb pick mem ip user_src n fuel tot off src)
      (fun _ s' => ∃ L, L.length ≤ 2 * k ∧ Spent sb s s' ip L) (fun _ _ => True) s := by
  have hB : BSIZE = 1024 := rfl
  intro fuel
  induction fuel with
  | zero => exact fun k tot off src s _ => ⟨[], Nat.zero_le _, (Adds.refl s).spent⟩
  | succ fuel ih =>
    intro k tot off src s hk
    by_cases hlt : tot < n
    · have hk := hk.resolve_left (Nat.not_le_of_lt hlt)
      cases k with
      | zero =>
        rw [hB] at hk
        omega
      | succ k =>
        refine writeFrom_turn hlt (fun s' ht => ?_) fun s₁ ht => ?_
        · obtain ⟨a, h⟩ := ht.spent
          exact ⟨_, by rw [List.length_cons, List.length_singleton]; omega, h⟩
        · obtain ⟨a, h⟩ := ht.spent
          refine (ih k _ _ _ s₁ ?_).mono fun r s₂ h₂ => ?_
          · rw [hB] at hk ⊢
            omega
          · obtain ⟨L, hL, h₂⟩ := h₂
            exact ⟨_, by rw [List.length_append, List.length_cons, List.length_singleton]; omega,
              h.trans h₂⟩
    · unfold writeFrom
      rw [if_neg hlt]
      exact ⟨[], Nat.zero_le _, (Adds.refl s).spent⟩

/-- A write of three blocks at most, from the start: seven blocks, not counting that for
addresses. -/
theorem writeFrom_seven {off src : Nat} (hn : n ≤ maxWrite) (hmax : off + n ≤ MAXFILE * BSIZE)
    (hm : off % BSIZE ≠ 0 → Mapped s.view (s.ino ip) off) :
    wp (writeFrom sb pick mem ip user_src n n 0 off src)
      (fun _ s' => ∃ L, L.length ≤ 7 ∧ Spent sb s s' ip L) (fun _ _ => True) s := by
  have hB : BSIZE = 1024 := rfl
  have hM : MAXFILE = 268 := rfl
  have hW : maxWrite = 3072 := rfl
  rw [hW] at hn
  by_cases hal : off % BSIZE = 0
  · refine (writeFrom_spent n 3 0 off src s (.inr (by rw [hB] at hal ⊢; omega))).mono
      fun r s' h => ?_
    obtain ⟨L, hL, h⟩ := h
    exact ⟨L, by omega, h⟩
  · cases n with
    | zero => exact ⟨[], Nat.zero_le _, (Adds.refl s).spent⟩
    | succ n =>
      have hbn : off / BSIZE < MAXFILE := by
        rw [hM, hB] at hmax
        rw [hM, hB]
        omega
      -- the first block is there
      have hone : ∀ s', Turned sb s s' ip off → ∃ a, Spent sb s s' ip [a] :=
        fun s' ht => ht.mapped hbn (hm hal)
      refine writeFrom_turn (Nat.succ_pos n) (fun s' ht => ?_) fun s₁ ht => ?_
      · obtain ⟨a, h⟩ := hone s' ht
        exact ⟨_, by rw [List.length_singleton]; omega, h⟩
      · obtain ⟨a, h⟩ := hone s₁ ht
        refine (writeFrom_spent n 3 _ _ _ s₁ ?_).mono fun r s₂ h₂ => ?_
        · rw [hB] at hal ⊢
          omega
        · obtain ⟨L, hL, h₂⟩ := h₂
          exact ⟨_, by rw [List.length_append, List.length_singleton]; omega, h.trans h₂⟩

/-- The blocks that were logged, each of them once. -/
def Fs.logged (s : Fs) : List Nat := s.op.dedup

theorem logged_le (h : ∀ b, b ∈ s.op → b ∈ L) : s.logged.length ≤ L.length :=
  ((List.nodup_dedup s.op).subperm fun b hb => h b (List.mem_dedup.mp hb)).length_le

theorem iupdate_adds : wp (iupdate sb pick ip) (fun _ s' => Adds s s' [IBLOCK sb ip])
    (fun _ _ => True) s := by
  unfold iupdate
  refine (bread_adds _).andThen fun data s₁ h₁ => ?_
  rw [wp_bind, wp_get]
  exact h₁.2.trans (edit_adds _ _)

/-- The blocks of the inode are there, those below its size. -/
def Whole (s : Fs) (ip : Nat) : Prop := ∀ k, k < (s.ino ip).size → Mapped s.view (s.ino ip) k

/-- **`writei` logs ten blocks at most** when it writes three. -/
theorem writei_spent {addr off : Nat} (hop : s.op = []) (hn : n ≤ maxWrite) (hw : Whole s ip) :
    wp (writei sb pick mem ip user_src addr off n) (fun _ s' => s'.logged.length ≤ MAXOPBLOCKS)
      (fun _ _ => True) s := by
  have hB : BSIZE = 1024 := rfl
  have hM : MAXFILE * BSIZE = 274432 := rfl
  have hten : MAXOPBLOCKS = 10 := rfl
  have hnone : s.logged.length ≤ MAXOPBLOCKS := by
    unfold Fs.logged
    rw [hop]
    exact Nat.zero_le _
  unfold writei
  rw [wp_bind, wp_get, wp_ite]
  refine ⟨fun _ => hnone, fun hr₁ => ?_⟩
  rw [wp_ite]
  refine ⟨fun _ => hnone, fun hr₂ => ?_⟩
  have hmax : off + n ≤ MAXFILE * BSIZE := by
    rw [show maxWrite = 3072 from rfl] at hn
    rw [hM] at hr₂ ⊢
    omega
  have hfirst : off % BSIZE ≠ 0 → Mapped s.view (s.ino ip) off := by
    intro hal
    -- the byte before `off` is in the same block
    have hk := hw (off - 1) (by rw [hB] at hal; omega)
    unfold Mapped at hk ⊢
    rwa [show (off - 1) / BSIZE = off / BSIZE by rw [hB] at hal ⊢; omega] at hk
  refine (writeFrom_seven hn hmax hfirst).andThen fun r s₁ h₁ => ?_
  obtain ⟨L, hL, h₁⟩ := h₁
  obtain ⟨tot, off'⟩ := r
  show wp (finish sb pick ip tot off') _ _ s₁
  unfold finish
  rw [wp_bind]
  show wp (iupdate sb pick ip >>= _) _ _
    { s₁ with ino := Function.update s₁.ino ip (bump off' (s₁.ino ip)) }
  refine iupdate_adds.andThen fun _ s₂ h₂ => ?_
  have hle : s₂.logged.length ≤ (L ++ [IBLOCK sb ip, (s₁.ino ip).addrs NDIRECT,
      BBLOCK sb ((s₁.ino ip).addrs NDIRECT)]).length := by
    refine logged_le fun b hb => ?_
    simp only [List.mem_append, List.mem_cons, List.not_mem_nil, or_false]
    rcases h₂.2 b hb with hb | hb
    · rcases h₁.op b hb with hb | hb | ⟨-, hb⟩
      · rw [hop] at hb
        cases hb
      · exact .inl hb
      · exact .inr (.inr hb)
    · exact .inr (.inl (List.mem_singleton.mp hb))
  refine Nat.le_trans hle ?_
  rw [List.length_append, hten]
  exact Nat.add_le_add_right hL 3

theorem writei_logged {addr off : Nat} (hop : s.op = []) (hn : n ≤ maxWrite) :
    wp (writei sb pick mem ip user_src addr off n)
      (fun _ s' => Whole s ip → s'.logged.length ≤ MAXOPBLOCKS) (fun _ _ => True) s := by
  by_cases hw : Whole s ip
  · exact (writei_spent hop hn hw).mono fun _ _ h _ => h
  · exact (wp_true _).mono fun _ _ _ h => absurd h hw

/-! ## The file stays whole -/

/-- An open file: its inode is in memory, and what its size asks for is there. -/
structure Steady (sb : Superblock) (ip : Nat) (s : Fs) : Prop where
  ready : Ready sb s ip
  allocated : Allocated s ip
  valid : s.valid ip = true
  ref : 0 < s.ref ip

theorem finish_value {tot off : Nat} {E : Panic → Fs → Prop} (hh : s.held = []) :
    wp (finish sb pick ip tot off) (fun r _ => r = tot) E s := by
  unfold finish
  rw [wp_bind]
  show wp (iupdate sb pick ip >>= _) _ _
    { s with ino := Function.update s.ino ip (bump off (s.ino ip)) }
  rw [wp_bind]
  unfold iupdate
  rw [wp_bind]
  refine bread_load (by show _ ∉ s.held; rw [hh]; exact List.not_mem_nil) ?_
  rw [wp_bind, wp_get]
  rfl

/-- **A whole write** leaves the file as it should be. -/
theorem writei_steady {addr off : Nat} {E : Panic → Fs → Prop} (hl : Layout sb) (h : Steady sb ip s)
    (hoff : off < 2 ^ 32) (hn : n < 2 ^ 32) :
    wp (writei sb pick mem ip user_src addr off n) (fun r s' => r = n → Steady sb ip s') E s := by
  have hino : (s.inodes (inodes sb s ip)).ino ip = s.ino ip := inodes_self
  refine (only_writei sb pick mem user_src addr off n).wp inodes_self
    (writei_wp hl h.ready.sound h.ready.held
    h.ready.isLive h.ready.fits_inodes h.allocated.inodes hoff hn (fun _ _ _ _ _ hr => ?_)
    (fun hre s' _ hw _ s'' hs hi _ => ?_) (fun _ tot s' _ hf _ _ _ _ _ _ hr => ?_)
    fun _ tot s₁ a l _ hf => ?_)
  · omega
  · rw [hino] at hre
    have hrep := hw.replaced hl h.ready h.allocated (not_refused hoff hn hre).2 hs hi
    have hv : (s''.inodes s'.ino).valid = s'.valid := congrArg Fs.valid hs
    have hr : (s''.inodes s'.ino).ref = s'.ref := congrArg Fs.ref hs
    refine ⟨hrep.ready, hrep.allocated, ?_, ?_⟩
    · rw [show s''.valid = s.valid from hv.trans hw.valid]
      exact h.valid
    · rw [show s''.ref = s.ref from hr.trans hw.ref]
      exact h.ref
  · have hlt := hf.lt
    omega
  · refine (finish_value (smear_rest s₁ a _ hf.written.held).1).mono fun r s' hr _ s'' _ _ hrn => ?_
    have hlt := hf.lt
    omega

/-! ## The transactions -/

variable {world : Nat → Fs × Nat → Fs × Nat} {addr n1 : Nat}

theorem ilock_op : wp (ilock sb pick ip) (fun _ s' => s'.op = s.op) (fun _ _ => True) s := by
  unfold ilock
  rw [wp_bind, wp_get, wp_ite]
  refine ⟨fun _ => trivial, fun _ => ?_⟩
  rw [wp_ite]
  refine ⟨fun _ => ?_, fun _ => rfl⟩
  rw [wp_bind]
  unfold bread
  rw [wp_bind, wp_get, wp_ite]
  refine ⟨fun _ => trivial, fun _ => ?_⟩
  obtain ⟨-, -, -, hop, -, -, -⟩ := @load_rest pick s (IBLOCK sb ip)
  show wp (ite _ _ _) _ _ _
  rw [wp_ite]
  exact ⟨fun _ => trivial, fun _ => hop⟩

theorem ilock_valid {E : Panic → Fs → Prop} (h : Steady sb ip s) :
    wp (ilock sb pick ip) (fun _ s' => s' = s) E s := by
  have href := h.ref
  unfold ilock
  rw [wp_bind, wp_get, wp_ite]
  refine ⟨fun hlt => absurd hlt (by omega), fun _ => ?_⟩
  rw [if_neg (by rw [h.valid]; exact Bool.noConfusion)]
  rfl

/-- **The loop of `filewrite`**: what a turn keeps, by induction on the bytes that are left. -/
theorem writeTurns_wp {I D : Sys → Prop} (hI : ∀ s, I s → D s)
    (hturn : ∀ s addr n1, n1 ≤ maxWrite → I s → wp (writeTurn sb pick mem world ip addr n1)
      (fun r s' => D s' ∧ (r = n1 → I s')) (fun _ s' => D s') s) :
    ∀ fuel i s, n - i ≤ fuel → I s →
      wp (writeTurns sb pick mem world ip addr n i) (fun _ s' => D s') (fun _ s' => D s') s := by
  intro fuel
  induction fuel with
  | zero =>
    intro i s hf h
    rw [writeTurns, dif_neg (by omega)]
    exact hI s h
  | succ fuel ih =>
    intro i s hf h
    rw [writeTurns]
    by_cases hlt : i < n
    · rw [dif_pos hlt]
      refine (hturn s _ _ (Nat.min_le_right _ _) h).andThen fun r s₁ h₁ => ?_
      rw [wp_ite]
      refine ⟨fun _ => h₁.1, fun hr => ih _ s₁ ?_ (h₁.2 (not_not.mp hr))⟩
      have hpos : 0 < maxWrite := by decide
      omega
    · rw [dif_neg hlt]
      exact hI s h

/-- The transactions of `filewrite` that are over. -/
def transactions (sb : Superblock) (pick : Nat → Option Nat) (mem : Mem)
    (world : Nat → Fs × Nat → Fs × Nat)
    (f : File) (addr : Nat) (n : Int) (fs : Fs) (off : Nat) : List (Fs × Fs) :=
  (exec (filewrite sb pick mem world f addr n) ⟨fs, off, []⟩).2.done

/-- A promise about each of them. -/
theorem transactions_wp {I D : Sys → Prop} {P : Fs × Fs → Prop} {f : File} {n : Int}
    {fs : Fs} {off : Nat}
    (hI : ∀ s, I s → D s) (hD : ∀ s, D s → ∀ t, t ∈ s.done → P t)
    (hturn : ∀ s addr n1, n1 ≤ maxWrite → I s → wp (writeTurn sb pick mem world f.ip addr n1)
      (fun r s' => D s' ∧ (r = n1 → I s')) (fun _ s' => D s') s) (h : I ⟨fs, off, []⟩) :
    ∀ t, t ∈ transactions sb pick mem world f addr n fs off → P t := by
  have hw : wp (filewrite sb pick mem world f addr n) (fun _ s' => D s') (fun _ s' => D s')
    ⟨fs, off, []⟩ := by
    unfold filewrite
    rw [wp_ite]
    refine ⟨fun _ => hI _ h, fun _ => ?_⟩
    exact (writeTurns_wp hI hturn _ 0 _ le_rfl h).andThen fun i s' hs => hs
  intro t ht
  refine hD _ ?_ t ht
  unfold wp at hw
  cases hx : exec (filewrite sb pick mem world f addr n) ⟨fs, off, []⟩ with
  | mk r s' =>
    rw [hx] at hw
    cases r with
    | ok a => exact hw
    | error e => exact hw

/-- **A transaction** of a file that is whole. -/
theorem writeTurn_logged {s : Sys} (hn : n1 ≤ maxWrite)
    (h : ∀ t, t ∈ s.done → Whole t.1 ip → t.2.logged.length ≤ MAXOPBLOCKS) :
    wp (writeTurn sb pick mem world ip addr n1)
      (fun _ s' => ∀ t, t ∈ s'.done → Whole t.1 ip → t.2.logged.length ≤ MAXOPBLOCKS)
      (fun _ s' => ∀ t, t ∈ s'.done → Whole t.1 ip → t.2.logged.length ≤ MAXOPBLOCKS) s := by
  unfold writeTurn others inFs begin_op
  rw [wp_bind, wp_modify, wp_bind, wp_zoom, wp_modify, wp_bind, wp_zoom]
  refine (ilock_op.mono fun _ s₁ hop => ?_).monoStop fun _ _ _ => h
  rw [wp_bind, wp_get, wp_bind, wp_zoom]
  refine ((writei_logged hop hn).mono fun r s₂ hs => ?_).monoStop fun _ _ _ => h
  rw [wp_bind, wp_modify]
  intro t ht hw
  rcases List.mem_append.mp ht with ht | ht
  · exact h t ht hw
  · rw [List.mem_singleton.mp ht] at hw ⊢
    exact hs hw

/-- What the others keep of the open file. -/
def Respects (sb : Superblock) (ip : Nat) (world : Nat → Fs × Nat → Fs × Nat) : Prop :=
  ∀ t x, Steady sb ip x.1 ∧ x.2 < 2 ^ 32 → Steady sb ip (world t x).1 ∧ (world t x).2 < 2 ^ 32

/-- **A transaction** of a file that is as it should be. -/
theorem writeTurn_steady {s : Sys} (hl : Layout sb) (hr : Respects sb ip world) (hn : n1 ≤ maxWrite)
    (h : (Steady sb ip s.fs ∧ s.off < 2 ^ 32) ∧ ∀ t, t ∈ s.done → Whole t.1 ip) :
    wp (writeTurn sb pick mem world ip addr n1)
      (fun r s' => (∀ t, t ∈ s'.done → Whole t.1 ip) ∧
        (r = n1 → (Steady sb ip s'.fs ∧ s'.off < 2 ^ 32) ∧ ∀ t, t ∈ s'.done → Whole t.1 ip))
      (fun _ s' => ∀ t, t ∈ s'.done → Whole t.1 ip) s := by
  obtain ⟨hw, hdone⟩ := h
  obtain ⟨hst, hoff⟩ := hr s.done.length (s.fs, s.off) hw
  have hn32 : n1 < 2 ^ 32 := Nat.lt_of_le_of_lt hn (by decide)
  unfold writeTurn others inFs begin_op
  rw [wp_bind, wp_modify, wp_bind, wp_zoom, wp_modify, wp_bind, wp_zoom]
  generalize world s.done.length (s.fs, s.off) = x at hst hoff
  have hst' : Steady sb ip { x.1 with op := [] } :=
    ⟨⟨⟨hst.ready.coherent.clean, hst.ready.coherent.pinned, hst.ready.coherent.held⟩,
      hst.ready.held, hst.ready.live,
      hst.ready.fits, hst.ready.owned⟩, ⟨hst.allocated.size, hst.allocated.mapped⟩,
      hst.valid, hst.ref⟩
  refine (ilock_valid hst').mono fun _ s₁ hs₁ => ?_
  rw [hs₁, wp_bind, wp_get, wp_bind, wp_zoom]
  refine (writei_steady hl hst' hoff hn32).mono fun r s₂ hs₂ => ?_
  rw [wp_bind, wp_modify]
  have hall : ∀ t, t ∈ s.done ++ [({ x.1 with op := [] }, s₂)] → Whole t.1 ip := by
    intro t ht
    rcases List.mem_append.mp ht with ht | ht
    · exact hdone t ht
    · rw [List.mem_singleton.mp ht]
      exact hst'.allocated.mapped
  refine ⟨hall, fun hrn => ⟨⟨hs₂ hrn, ?_⟩, hall⟩⟩
  show (if 0 < r then (x.2 + r.toNat) % 2 ^ 32 else x.2) < 2 ^ 32
  split
  next => exact Nat.mod_lt _ (by decide)
  next => exact hoff

/-- **`filewrite` stays within its part of the log**: a transaction that finds the blocks of
the inode there logs ten blocks at most, and all of them find them if the others leave the
file as it should be. -/
theorem filewrite_budget (f : File) (addr : Nat) (n : Int) (fs : Fs) (off : Nat) :
    (∀ t, t ∈ transactions sb pick mem world f addr n fs off → Whole t.1 f.ip →
      t.2.logged.length ≤ MAXOPBLOCKS) ∧
    (Layout sb → Respects sb f.ip world → Steady sb f.ip fs → off < 2 ^ 32 →
      ∀ t, t ∈ transactions sb pick mem world f addr n fs off →
      t.2.logged.length ≤ MAXOPBLOCKS) := by
  have hlog : ∀ t, t ∈ transactions sb pick mem world f addr n fs off → Whole t.1 f.ip →
      t.2.logged.length ≤ MAXOPBLOCKS :=
    transactions_wp (I := fun s => ∀ t, t ∈ s.done → Whole t.1 f.ip →
      t.2.logged.length ≤ MAXOPBLOCKS)
      (P := fun t => Whole t.1 f.ip → t.2.logged.length ≤ MAXOPBLOCKS) (fun _ h => h) (fun _ h => h)
      (fun s addr n1 hn h => (writeTurn_logged hn h).mono fun _ _ h => ⟨h, fun _ => h⟩)
      fun t ht => (by cases ht)
  refine ⟨hlog, fun hl hr hs hoff t ht => hlog t ht ?_⟩
  exact transactions_wp
    (I := fun s => (Steady sb f.ip s.fs ∧ s.off < 2 ^ 32) ∧ ∀ t, t ∈ s.done → Whole t.1 f.ip)
    (D := fun s => ∀ t, t ∈ s.done → Whole t.1 f.ip) (P := fun t => Whole t.1 f.ip)
    (fun _ h => h.2) (fun _ h => h) (fun s addr n1 hn h => writeTurn_steady hl hr hn h)
    ⟨⟨hs, hoff⟩, fun t ht => (by cases ht)⟩ t ht

theorem blank_steady : Steady small 1 blank :=
  ⟨blank_ready, blank_allocated, by decide, by decide⟩

theorem filewrite_budget_blank : ∀ t, t ∈ transactions small (fun _ => none)
    ⟨fun _ => some fun _ => 7, fun _ => true, fun _ => 0⟩ (fun _ x => x) ⟨true, 1⟩ 0 5000 blank 0 →
      t.2.logged.length ≤ MAXOPBLOCKS :=
  (filewrite_budget ⟨true, 1⟩ 0 5000 blank 0).2 small_layout
    (fun _ _ h => h) blank_steady (by decide)

end Xv6.Files
