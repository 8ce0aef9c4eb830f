import Xv6.Files.Alike

/-!
# Allocating on two disks

`bmap` reads the bitmap, the inode and its block for addresses. If these do not differ,
then neither does what it returns, and a block that it takes is full of zeroes on both
sides (`Agree.bmap`). What `readi` and `writei` copy may differ; where they copy it does not.

  > `Agree D₀ ip s t`: the blocks that differ are some of `D₀`, and not the block for
  > addresses of inode `ip`.
-/

namespace Xv6.Files

open Lib
open Mkfs (Block Dinode Superblock zeroes BSIZE NDIRECT NINDIRECT MAXFILE BPB)

variable {sb : Superblock} {pick : Nat → Option Nat} {D D₀ : Nat → Prop} {s t : Fs} {ip : Nat}

def Agree (D₀ : Nat → Prop) (ip : Nat) (s t : Fs) : Prop :=
  ∃ D, (∀ b, D b → D₀ b) ∧ Alike D s t ∧
    ((t.ino ip).addrs NDIRECT ≠ 0 → ¬D ((t.ino ip).addrs NDIRECT))

theorem Alike.bzero (h : Alike D s t) (b : Nat) :
    both (bzero pick b) (bzero pick b) (fun _ s' _ t' => Alike (fun c => D c ∧ c ≠ b) s' t' ∧
      t'.ino = t.ino ∧ t'.held = t.held) s t := by
  unfold Files.bzero
  refine (h.bread b).bind fun _ s₁ _ t₁ hr => ?_
  obtain ⟨h₁, -, -, hh, hi⟩ := hr
  refine ⟨(h₁.fill (by rw [hh]; exact List.mem_cons_self) zeroes).drop b, hi, ?_⟩
  show t₁.held.erase b = t.held
  rw [hh, List.erase_cons_head]

/-- What allocating a block leaves. -/
def Took (D : Nat → Prop) (t : Fs) (a : Nat) (s' : Fs) (a' : Nat) (t' : Fs) : Prop :=
  a = a' ∧ (t'.ino = t.ino ∧ t'.held = t.held) ∧ ∃ D', (∀ c, D' c → D c) ∧
    Alike D' s' t' ∧ (a ≠ 0 → ¬D' a)

theorem Alike.balloc (hD : ∀ c, Bitmap sb c → ¬D c) (h : Alike D s t) :
    both (balloc sb pick) (balloc sb pick) (Took D t) s t := by
  suffices hfrom : ∀ fuel b {s t : Fs}, Alike D s t →
      both (ballocFrom sb pick fuel b) (ballocFrom sb pick fuel b) (Took D t) s t from hfrom _ _ h
  have hfull :
    ∀ {s t : Fs}, Alike D s t → both (pure 0 : Kern Nat) (pure 0) (Took D t) s t := fun h =>
    both.pure ⟨rfl, ⟨rfl, rfl⟩, D, fun _ hc => hc, h, fun h0 => absurd rfl h0⟩
  intro fuel
  induction fuel with
  | zero =>
    intro b s t h
    exact hfull h
  | succ fuel ih =>
    intro b s t h
    unfold ballocFrom
    refine both.ite Iff.rfl (fun hlt => ?_) fun _ => hfull h
    refine (h.bread _).bind fun x s₁ y t₁ hr => ?_
    obtain ⟨h₁, hxy, -, hh, hi⟩ := hr
    rw [hxy (hD _ ⟨b, hlt, rfl⟩)]
    have hdrop : t₁.held.erase (BBLOCK sb b) = t.held := by rw [hh, List.erase_cons_head]
    cases scan sb y b with
    | some bi =>
      refine h₁.logged (by rw [hh]; exact List.mem_cons_self) fun h₂ => ?_
      refine (h₂.bzero (b + bi)).bind fun _ s₃ _ t₃ hr => ?_
      exact both.pure ⟨rfl, ⟨hr.2.1.trans hi, hr.2.2.trans hdrop⟩, _, fun c hc => hc.1, hr.1,
        fun _ hc => hc.2 rfl⟩
    | none =>
      refine both.bind
        (both.modify (R := fun _ s' _ t' => Alike D s' t' ∧ t'.ino = t.ino ∧ t'.held = t.held)
        ⟨h₁.drop _, hi, hdrop⟩) fun _ s₂ _ t₂ hr => ?_
      refine (ih (b + BPB) hr.1).mono fun a s' a' t' hr' => ?_
      exact ⟨hr'.1, ⟨hr'.2.1.1.trans hr.2.1, hr'.2.1.2.trans hr.2.2⟩, hr'.2.2⟩

/-! ## Addresses -/

theorem Agree.addrOf (hD₀ : ∀ c, Bitmap sb c → ¬D₀ c) (h : Agree D₀ ip s t) (i : Nat) :
    both (addrOf sb pick ip i) (addrOf sb pick ip i) (fun a s' a' t' => a = a' ∧ Agree D₀ ip s' t' ∧
      (t'.ino ip).addrs i = a) s t := by
  obtain ⟨D, hD, h, hind⟩ := h
  unfold Files.addrOf
  refine both.get (both.ite (by rw [h.ino]) (fun h0 => ?_) fun _ => ?_)
  · rw [h.ino] at h0
    refine (h.balloc fun c hc hd => hD₀ c hc (hD c hd)).bind fun a s₁ a' t₁ hr => ?_
    obtain ⟨rfl, ⟨hi, -⟩, D', hD', h₁, ha⟩ := hr
    have hD₁ : ∀ b, D' b → D₀ b := fun b hb => hD b (hD' b hb)
    refine both.ite Iff.rfl (fun hz => ?_) fun hz => ?_
    · refine both.pure ⟨rfl, ⟨D', hD₁, h₁, ?_⟩, ?_⟩
      · rw [hi]
        exact fun hn hd => hind hn (hD' _ hd)
      · rw [hi]
        exact h0
    · refine (h₁.store ip _).bind fun _ s₂ _ t₂ hr => ?_
      obtain ⟨h₂, hi₂⟩ := hr
      have haddr : ∀ k, (t₂.ino ip).addrs k = if k = i then a else (t.ino ip).addrs k := by
        intro k
        rw [hi₂, Function.update_self, hi]
        exact Function.update_apply _ _ _ _
      refine both.pure ⟨rfl, ⟨D', hD₁, h₂, ?_⟩, (haddr i).trans (if_pos rfl)⟩
      rw [haddr]
      split
      next => exact ha
      next => exact fun hn hd => hind hn (hD' _ hd)
  · rw [h.ino]
    exact both.pure ⟨rfl, ⟨D, hD, h, hind⟩, rfl⟩

theorem Agree.entryOf (hD₀ : ∀ c, Bitmap sb c → ¬D₀ c) (h : Agree D₀ ip s t)
    (h0 : (t.ino ip).addrs NDIRECT ≠ 0) (bn : Nat) :
    both (entryOf sb pick ((t.ino ip).addrs NDIRECT) bn)
      (entryOf sb pick ((t.ino ip).addrs NDIRECT) bn)
      (fun a s' a' t' => a = a' ∧ Agree D₀ ip s' t') s t := by
  obtain ⟨D, hD, h, hind⟩ := h
  unfold Files.entryOf
  refine (h.bread _).bind fun x s₁ y t₁ hr => ?_
  obtain ⟨h₁, hxy, -, hh, hi⟩ := hr
  rw [hxy (hind h0)]
  have hin : (t.ino ip).addrs NDIRECT ∈ t₁.held := by
    rw [hh]
    exact List.mem_cons_self
  refine both.ite Iff.rfl (fun _ => ?_) fun _ => ?_
  · refine (h₁.balloc fun c hc hd => hD₀ c hc (hD c hd)).bind fun a s₂ a' t₂ hr => ?_
    obtain ⟨rfl, ⟨hi₂, hh₂⟩, D', hD', h₂, -⟩ := hr
    have hind' : (t₂.ino ip).addrs NDIRECT ≠ 0 → ¬D' ((t₂.ino ip).addrs NDIRECT) := by
      rw [hi₂, hi]
      exact fun hn hd => hind hn (hD' _ hd)
    have hD₁ : ∀ b, D' b → D₀ b := fun b hb => hD b (hD' b hb)
    refine both.ite Iff.rfl (fun _ => ?_) fun _ => ?_
    · refine both.bind (both.modify (R := fun _ s' _ t' => Agree D₀ ip s' t') ?_)
        fun _ s₃ _ t₃ h₃ =>
        both.pure ⟨rfl, h₃⟩
      exact ⟨D', hD₁, h₂.drop _, hind'⟩
    · exact h₂.logged (by rw [hh₂]; exact hin) fun h₃ => both.pure ⟨rfl, D', hD₁, h₃, hind'⟩
  · refine both.bind (both.modify (R := fun _ s' _ t' => Agree D₀ ip s' t') ?_) fun _ s₃ _ t₃ h₃ =>
      both.pure ⟨rfl, h₃⟩
    refine ⟨D, hD, h₁.drop _, ?_⟩
    show (t₁.ino ip).addrs NDIRECT ≠ 0 → ¬D ((t₁.ino ip).addrs NDIRECT)
    rw [hi]
    exact hind

theorem Agree.bmap (hD₀ : ∀ c, Bitmap sb c → ¬D₀ c) (h : Agree D₀ ip s t) (bn : Nat) :
    both (bmap sb pick ip bn) (bmap sb pick ip bn)
      (fun a s' a' t' => a = a' ∧ Agree D₀ ip s' t') s t := by
  unfold Files.bmap
  refine both.ite Iff.rfl (fun _ => ?_) fun _ => both.ite Iff.rfl (fun _ => ?_) fun _ => both.stop _
  · exact (h.addrOf hD₀ bn).mono fun _ _ _ _ hr => ⟨hr.1, hr.2.1⟩
  · refine (h.addrOf hD₀ NDIRECT).bind fun a s₁ a' t₁ hr => ?_
    obtain ⟨rfl, h₁, ha⟩ := hr
    refine both.ite Iff.rfl (fun h0 => both.pure ⟨rfl, h₁⟩) fun h0 => ?_
    rw [← ha] at h0 ⊢
    exact h₁.entryOf hD₀ h0 _

/-! ## Bytes -/

theorem Agree.drop (h : Agree D₀ ip s t) (b : Nat) : Agree D₀ ip (s.drop b) (t.drop b) := by
  obtain ⟨D, hD, h, hind⟩ := h
  exact ⟨D, hD, h.drop b, hind⟩

theorem Agree.bread (h : Agree D₀ ip s t) (b : Nat) :
    both (bread pick b) (bread pick b) (fun _ s' _ t' => Agree D₀ ip s' t' ∧ b ∈ t'.held) s t := by
  obtain ⟨D, hD, h, hind⟩ := h
  refine (h.bread b).mono fun _ s₁ _ t₁ hr => ?_
  obtain ⟨h₁, -, -, hh, hi⟩ := hr
  refine ⟨⟨D, hD, h₁, by rw [hi]; exact hind⟩, ?_⟩
  rw [hh]
  exact List.mem_cons_self

theorem Agree.poke (h : Agree D₀ ip s t) (b : Nat) (f : Block → Block) :
    Agree D₀ ip { s with cache := Function.update s.cache b ((s.cache b).map f) }
      { t with cache := Function.update t.cache b ((t.cache b).map f) } := by
  obtain ⟨D, hD, h, hind⟩ := h
  exact ⟨D, hD, h.poke b f, hind⟩

theorem Agree.log (h : Agree D₀ ip s t) {b : Nat} (hb : b ∈ t.held) :
    Agree D₀ ip { s with lh := if b ∈ s.lh then s.lh else s.lh ++ [b], op := b :: s.op }
      { t with lh := if b ∈ t.lh then t.lh else t.lh ++ [b], op := b :: t.op } := by
  obtain ⟨D, hD, h, hind⟩ := h
  exact ⟨D, hD, h.log hb, hind⟩

variable {mem : Mem}

/-- **`readi`** returns as much. -/
theorem Agree.readFrom (hD₀ : ∀ c, Bitmap sb c → ¬D₀ c) {user_dst : Bool} {n : Nat} :
    ∀ fuel tot off dst {s t : Fs}, Agree D₀ ip s t →
      both (readFrom sb pick mem ip user_dst n fuel tot off dst)
        (readFrom sb pick mem ip user_dst n fuel tot off dst)
        (fun r s' r' t' => r.1 = r'.1 ∧ Agree D₀ ip s' t') s t := by
  intro fuel
  induction fuel with
  | zero =>
    intro tot off dst s t h
    exact both.pure ⟨rfl, h⟩
  | succ fuel ih =>
    intro tot off dst s t h
    unfold Files.readFrom
    refine both.ite Iff.rfl (fun _ => ?_) fun _ => both.pure ⟨rfl, h⟩
    refine (h.bmap hD₀ _).bind fun a s₁ a' t₁ hr => ?_
    obtain ⟨rfl, h₁⟩ := hr
    refine both.ite Iff.rfl (fun _ => both.pure ⟨rfl, h₁⟩) fun _ => ?_
    refine (h₁.bread a).bind fun x s₂ y t₂ hr => ?_
    dsimp only
    generalize either_copyout mem user_dst dst (min (n - tot) (BSIZE - off % BSIZE)) = r
    obtain ⟨done, ok⟩ := r
    dsimp only
    refine both.bind (both.modify (R := fun _ s' _ t' => Agree D₀ ip s' t') (hr.1.drop a))
      fun _ s₃ _ t₃ h₃ => ?_
    refine both.ite Iff.rfl (fun _ => both.pure ⟨rfl, h₃⟩) fun _ => ?_
    refine (ih _ _ _ h₃).bind fun r s₄ r' t₄ hr => ?_
    exact both.pure hr

theorem Agree.readi (hD₀ : ∀ c, Bitmap sb c → ¬D₀ c) (h : Agree D₀ ip s t) {user_dst : Bool}
    {dst off n : Nat} :
    both (readi sb pick mem ip user_dst dst off n) (readi sb pick mem ip user_dst dst off n)
      (fun r s' r' t' => r.1 = r'.1 ∧ Agree D₀ ip s' t') s t := by
  have hino : s.ino = t.ino := by
    obtain ⟨D, -, ha, -⟩ := h
    exact ha.ino
  unfold Files.readi
  refine both.get (both.ite (by rw [hino]) (fun _ => both.pure ⟨rfl, h⟩) fun _ => ?_)
  rw [hino]
  exact Agree.readFrom hD₀ _ _ _ _ h

/-- **`writei`** returns the same, and takes the same blocks. -/
theorem Agree.writeFrom (hD₀ : ∀ c, Bitmap sb c → ¬D₀ c) {user_src : Bool} {n : Nat} :
    ∀ fuel tot off src {s t : Fs}, Agree D₀ ip s t →
      both (writeFrom sb pick mem ip user_src n fuel tot off src)
        (writeFrom sb pick mem ip user_src n fuel tot off src)
        (fun r s' r' t' => r = r' ∧ Agree D₀ ip s' t') s t := by
  intro fuel
  induction fuel with
  | zero =>
    intro tot off src s t h
    exact both.pure ⟨rfl, h⟩
  | succ fuel ih =>
    intro tot off src s t h
    unfold Files.writeFrom
    refine both.ite Iff.rfl (fun _ => ?_) fun _ => both.pure ⟨rfl, h⟩
    refine (h.bmap hD₀ _).bind fun a s₁ a' t₁ hr => ?_
    obtain ⟨rfl, h₁⟩ := hr
    refine both.ite Iff.rfl (fun _ => both.pure ⟨rfl, h₁⟩) fun _ => ?_
    refine (h₁.bread a).bind fun _ s₂ _ t₂ hr => ?_
    obtain ⟨h₂, hin⟩ := hr
    dsimp only
    generalize either_copyin mem user_src src (min (n - tot) (BSIZE - off % BSIZE)) = r
    obtain ⟨bytes, ok⟩ := r
    dsimp only
    refine both.bind (both.modify (R := fun _ s' _ t' => Agree D₀ ip s' t' ∧ a ∈ t'.held)
      ⟨h₂.poke a fun data => Bytes.blit data (off % BSIZE) bytes, hin⟩) fun _ s₃ _ t₃ hr => ?_
    obtain ⟨h₃, hin₃⟩ := hr
    refine both.ite Iff.rfl (fun _ => ?_) fun _ => ?_
    · exact both.bind (both.modify (R := fun _ s' _ t' => Agree D₀ ip s' t') (h₃.drop a))
        fun _ _ _ _ h₄ =>
        both.pure ⟨rfl, h₄⟩
    · refine both.bind (both.modify (R := fun _ s' _ t' => Agree D₀ ip s' t') (h₃.log hin₃))
        fun _ _ _ _ h₄ => ?_
      refine both.bind (both.modify (R := fun _ s' _ t' => Agree D₀ ip s' t') (h₄.drop a))
        fun _ _ _ _ h₅ => ?_
      exact ih _ _ _ h₅

/-- The inode is written, with its new size. -/
theorem Agree.finish (h : Agree D₀ ip s t) (tot off : Nat) :
    both (finish sb pick ip tot off) (finish sb pick ip tot off)
      (fun r s' r' t' => r = r' ∧ Agree D₀ ip s' t') s t := by
  obtain ⟨D, hD, h, hind⟩ := h
  unfold Files.finish
  refine (h.store ip (bump off)).bind fun _ s₁ _ t₁ hr => ?_
  obtain ⟨h₁, hi₁⟩ := hr
  refine h₁.iupdate.bind fun _ s₂ _ t₂ hr => both.pure ⟨rfl, D, hD, hr.1, ?_⟩
  rw [hr.2, hi₁, Function.update_self, bump_addrs]
  exact hind

theorem Agree.writei (hD₀ : ∀ c, Bitmap sb c → ¬D₀ c) (h : Agree D₀ ip s t) {user_src : Bool}
    {src off n : Nat} :
    both (writei sb pick mem ip user_src src off n) (writei sb pick mem ip user_src src off n)
      (fun r s' r' t' => r = r' ∧ Agree D₀ ip s' t') s t := by
  have hino : s.ino = t.ino := by
    obtain ⟨D, -, ha, -⟩ := h
    exact ha.ino
  unfold Files.writei
  refine both.get (both.ite (by rw [hino]) (fun _ => both.pure ⟨rfl, h⟩) fun _ => ?_)
  refine both.ite Iff.rfl (fun _ => both.pure ⟨rfl, h⟩) fun _ => ?_
  refine (Agree.writeFrom hD₀ _ _ _ _ h).bind fun r s₁ r' t₁ hr => ?_
  obtain ⟨rfl, h₁⟩ := hr
  exact h₁.finish r.1 r.2

end Xv6.Files
