import Xv6.Files.Machine

/-!
# One inode at a time

`Only ip m`: of the inodes in memory, `m` reads and changes none but `ip`. What is
known about a call when the others are as on the disk then holds whatever they are
(`Only.wp`).
-/

namespace Xv6.Files

open Lib
open Mkfs (Block Dinode Superblock NDIRECT NINDIRECT)

variable {α β : Type}

/-- The same state with other inodes in memory. -/
def Fs.inodes (s : Fs) (O : Nat → Dinode) : Fs := { s with ino := O }

def Only (ip : Nat) (m : Kern α) : Prop :=
  ∀ (s : Fs) (O : Nat → Dinode), O ip = s.ino ip → exec m (s.inodes O) =
    ((exec m s).1, (exec m s).2.inodes (Function.update O ip ((exec m s).2.ino ip)))

variable {ip : Nat} {m : Kern α} {f : α → Kern β}

theorem inodes_update {s : Fs} {O : Nat → Dinode} (h : O ip = s.ino ip) :
    s.inodes O = s.inodes (Function.update O ip (s.ino ip)) := by
  rw [← h, Function.update_eq_self]

theorem Only.pure (a : α) : Only ip (pure a : Kern α) := fun s O h => by
  show (_, s.inodes O) = (_, s.inodes (Function.update O ip (s.ino ip)))
  rw [← inodes_update h]
  rfl

theorem Only.stop (e : Panic) : Only ip (stop e : Kern α) := fun s O h => by
  show (_, s.inodes O) = (_, s.inodes (Function.update O ip (s.ino ip)))
  rw [← inodes_update h]
  rfl

theorem Only.bind (hm : Only ip m) (hf : ∀ a, Only ip (f a)) : Only ip (m >>= f) := by
  intro s O h
  rw [exec_bind, exec_bind, hm s O h]
  cases hx : exec m s with
  | mk r s' =>
    cases r with
    | ok a =>
      dsimp only
      rw [hf a s' _ (Function.update_self _ _ _), Function.update_idem]
    | error e => rfl

theorem Only.ite {c : Prop} [Decidable c] {m' : Kern α} (h : Only ip m) (h' : Only ip m') :
    Only ip (if c then m else m') := by
  split
  next => exact h
  next => exact h'

/-- A program that reads the state looks at inode `ip` only. -/
theorem Only.get {F : Fs → Kern α} (hF : ∀ (s : Fs) O, O ip = s.ino ip → F (s.inodes O) = F s)
    (h : ∀ s, Only ip (F s)) : Only ip (get >>= F) := by
  intro s O ho
  rw [exec_bind, exec_bind]
  show exec (F (s.inodes O)) (s.inodes O) = _
  rw [hF s O ho]
  exact h s s O ho

/-- A change elsewhere. -/
theorem Only.modify {g : Fs → Fs} (hg : ∀ (s : Fs) O, g (s.inodes O) = (g s).inodes O)
    (hi : ∀ s, (g s).ino = s.ino) : Only ip (modify g) := by
  intro s O h
  show (_, g (s.inodes O)) = (_, (g s).inodes (Function.update O ip ((g s).ino ip)))
  rw [hg, hi, ← h, Function.update_eq_self]
  rfl

/-- **Carrying over** what is known with other inodes in memory. -/
theorem Only.wp {Q : α → Fs → Prop} {E : Panic → Fs → Prop} (h : Only ip m) {s : Fs}
    {O : Nat → Dinode}
    (ho : O ip = s.ino ip)
    (hw : Lib.wp m (fun a s' => s'.ino = Function.update O ip (s'.ino ip) →
      ∀ s'', s''.inodes s'.ino = s' → s''.ino = Function.update s.ino ip (s'.ino ip) → Q a s'')
      (fun _ _ => False) (s.inodes O)) : Lib.wp m Q E s := by
  have hself : exec m s = _ := h s s.ino rfl
  unfold Lib.wp at hw ⊢
  rw [h s O ho] at hw
  cases hx : exec m s with
  | mk r s' =>
    rw [hx] at hw hself
    cases r with
    | error e => exact hw.elim
    | ok a =>
      dsimp only at hw ⊢
      have hs' : s' = s'.inodes (Function.update s.ino ip (s'.ino ip)) := (Prod.mk.inj hself).2
      have hino : s'.ino = Function.update s.ino ip (s'.ino ip) := congrArg Fs.ino hs'
      have hup : (s'.inodes (Function.update O ip (s'.ino ip))).ino ip = s'.ino ip :=
        Function.update_self _ _ _
      rw [hup] at hw
      exact hw rfl s' rfl hino

section Calls

variable (sb : Superblock) (pick : Nat → Option Nat) (mem : Mem)

theorem load_inodes (s : Fs) (O : Nat → Dinode) (b : Nat) :
    (s.inodes O).load pick b = (s.load pick b).inodes O ∧ (s.load pick b).ino = s.ino := by
  unfold Fs.load
  split
  next data h =>
    have h : s.cache b = some data := h
    rw [h]
    exact ⟨rfl, rfl⟩
  next h =>
    have h : s.cache b = none := h
    rw [h]
    exact ⟨rfl, rfl⟩

theorem only_bread (b : Nat) : Only ip (bread pick b) := by
  refine Only.get (fun s O _ => rfl) fun s => Only.ite (Only.stop _)
    (Only.bind (Only.modify ?_ ?_) fun _ =>
    Only.pure _)
  · exact fun s O => (load_inodes pick s O b).1
  · exact fun s => (load_inodes pick s s.ino b).2

theorem only_brelse (b : Nat) : Only ip (brelse b) := Only.modify (fun _ _ => rfl) fun _ => rfl

theorem only_poke (b : Nat) (f : Block → Block) : Only ip (poke b f) :=
  Only.modify (fun _ _ => rfl) fun _ => rfl

theorem only_log_write (b : Nat) : Only ip (log_write b) :=
  Only.modify (fun _ _ => rfl) fun _ => rfl

/-- A logged store, and what comes after it. -/
theorem only_logged (b : Nat) (f : Block → Block) {m : Kern α} (h : Only ip m) :
    Only ip (do poke b f; log_write b; brelse b; m) :=
  (only_poke b f).bind fun _ => (only_log_write b).bind fun _ => (only_brelse b).bind fun _ => h

theorem only_bzero (b : Nat) : Only ip (bzero pick b) :=
  (only_bread pick b).bind fun _ => (only_poke b _).bind fun _ =>
    (only_log_write b).bind fun _ => only_brelse b

theorem only_ballocFrom : ∀ fuel b, Only ip (ballocFrom sb pick fuel b) := by
  intro fuel
  induction fuel with
  | zero => exact fun b => Only.pure _
  | succ fuel ih =>
    intro b
    unfold ballocFrom
    refine Only.ite ((only_bread pick _).bind fun data => ?_) (Only.pure _)
    split
    next => exact only_logged _ _ ((only_bzero pick _).bind fun _ => Only.pure _)
    next => exact (only_brelse _).bind fun _ => ih _

theorem only_balloc : Only ip (balloc sb pick) := only_ballocFrom sb pick _ _

theorem only_setInode (f : Dinode → Dinode) : Only ip (setInode ip f) := by
  intro s O h
  show (_, { s with ino := Function.update O ip (f (O ip)) }) =
    (_, Fs.inodes _ (Function.update O ip
    (Function.update s.ino ip (f (s.ino ip)) ip)))
  rw [Function.update_self, h]
  rfl

theorem only_iupdate : Only ip (iupdate sb pick ip) := by
  refine (only_bread pick _).bind fun _ => Only.get (fun s O h => ?_) fun s =>
    (only_poke _ _).bind fun _ => (only_log_write _).bind fun _ => only_brelse _
  show (poke _ fun data => Mkfs.setDinode data _ (O ip)) >>= _ = _
  rw [h]

theorem only_addrOf (i : Nat) : Only ip (addrOf sb pick ip i) := by
  refine Only.get (fun s O h => ?_) fun s => Only.ite ((only_balloc sb pick).bind fun addr =>
    Only.ite (Only.pure _) ((only_setInode _).bind fun _ => Only.pure _)) (Only.pure _)
  rw [show (s.inodes O).ino ip = s.ino ip from h]

theorem only_entryOf (addr bn : Nat) : Only ip (entryOf sb pick addr bn) := by
  refine (only_bread pick _).bind fun a => Only.ite ((only_balloc sb pick).bind fun new => Only.ite
    ((only_brelse _).bind fun _ => Only.pure _) (only_logged _ _ (Only.pure _)))
    ((only_brelse _).bind fun _ => Only.pure _)

theorem only_bmap (bn : Nat) : Only ip (bmap sb pick ip bn) :=
  Only.ite (only_addrOf sb pick bn) (Only.ite ((only_addrOf sb pick _).bind fun addr =>
    Only.ite (Only.pure _) (only_entryOf sb pick addr _)) (Only.stop _))

theorem only_readFrom (user_dst : Bool) (n : Nat) :
    ∀ fuel tot off dst, Only ip (readFrom sb pick mem ip user_dst n fuel tot off dst) := by
  intro fuel
  induction fuel with
  | zero => exact fun _ _ _ => Only.pure _
  | succ fuel ih =>
    intro tot off dst
    refine Only.ite ((only_bmap sb pick _).bind fun addr => Only.ite (Only.pure _)
      ((only_bread pick _).bind fun data => ?_)) (Only.pure _)
    exact (only_brelse _).bind fun _ => Only.ite (Only.pure _)
      ((ih _ _ _).bind fun _ => Only.pure _)

theorem only_readi (user_dst : Bool) (dst off n : Nat) :
    Only ip (readi sb pick mem ip user_dst dst off n) := by
  refine Only.get (fun s O h => ?_) fun s => Only.ite (Only.pure _)
    (only_readFrom sb pick mem _ _ _ _ _ _)
  dsimp only
  rw [show (s.inodes O).ino ip = s.ino ip from h]

theorem only_writeFrom (user_src : Bool) (n : Nat) :
    ∀ fuel tot off src, Only ip (writeFrom sb pick mem ip user_src n fuel tot off src) := by
  intro fuel
  induction fuel with
  | zero => exact fun _ _ _ => Only.pure _
  | succ fuel ih =>
    intro tot off src
    refine Only.ite ((only_bmap sb pick _).bind fun addr => Only.ite (Only.pure _)
      ((only_bread pick _).bind fun _ => ?_)) (Only.pure _)
    exact (only_poke _ _).bind fun _ => Only.ite ((only_brelse _).bind fun _ => Only.pure _)
      ((only_log_write _).bind fun _ => (only_brelse _).bind fun _ => ih _ _ _)

theorem only_writei (user_src : Bool) (src off n : Nat) :
    Only ip (writei sb pick mem ip user_src src off n) := by
  refine Only.get (fun s O h => ?_) fun s => Only.ite (Only.pure _) (Only.ite (Only.pure _)
    ((only_writeFrom sb pick mem _ _ _ _ _ _).bind fun r => (only_setInode _).bind fun _ =>
      (only_iupdate sb pick).bind fun _ => Only.pure _))
  dsimp only
  rw [show (s.inodes O).ino ip = s.ino ip from h]

end Calls

end Xv6.Files
