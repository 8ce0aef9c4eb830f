import Xv6.Files.Budget
import Xv6.Files.Runs

/-!
# Files without a name

A crash may leave an inode that has a type and no links: it was open when its last name went.
`ireclaim` looks for such inodes when the system starts, and frees each in a transaction of its
own.

  > `reclaims_iff`: afterwards there are none, their blocks are free, and everything else is
  > as it was, if and only if the root is none of them and the blocks of each have their bits
  > in `LOGBLOCKS - 2` blocks of the bitmap at most.

`itrunc` frees all blocks of a file in one transaction, however many blocks of the bitmap
that takes. The log has no room for more, and the inode, which is written twice, needs a place
in it before the last call of `log_write`. The root is held by the first process (`userinit`), and
`iput` would not free it.
-/

namespace Xv6.Files

open Lib
open Log (LOGBLOCKS)
open Mkfs (Block Dinode Superblock nonzero dinodeAt dinodeOff BSIZE NDIRECT NINDIRECT MAXFILE
  ROOTINO)

/-! ## The code -/

inductive Stop
  | fs (e : Panic)
  /-- `too big a transaction` -/
  | tooBig

/-- `log_write` on one block after another, the last of them first: what is in the log that was
empty, or `none` for the panic. -/
def logAll : List Nat → Option (List Nat)
  | [] => some []
  | b :: op => (logAll op).bind fun lh =>
    if LOGBLOCKS ≤ lh.length then none else some (if b ∈ lh then lh else lh ++ [b])

section Code

variable (sb : Superblock) (pick : Nat → Option Nat)

/-- The end of the only operation there is. A call of `log_write` that found the log full is
noticed here. -/
def end_op : Prog Fs Stop PUnit := do
  let s ← get
  match logAll s.op with
  | none => stop .tooBig
  | some _ => modify Fs.commit

/-- The loop of `ireclaim`, with `fuel` inodes left. What it prints is left out. -/
def ireclaimFrom : Nat → Nat → Prog Fs Stop PUnit
  | 0, _ => pure ⟨⟩
  | fuel + 1, inum =>
    if inum < sb.ninodes then do
      let data ← among Stop.fs (bread pick (IBLOCK sb inum))
      if (dinodeAt data (dinodeOff inum)).type ≠ 0 ∧
        (dinodeAt data (dinodeOff inum)).nlink = 0 then do
        among Stop.fs (iget inum)
        among Stop.fs (brelse (IBLOCK sb inum))
        among Stop.fs begin_op
        among Stop.fs (ilock sb pick inum)
        among Stop.fs (iput sb pick inum)
        end_op
        ireclaimFrom fuel (inum + 1)
      else do
        among Stop.fs (brelse (IBLOCK sb inum))
        ireclaimFrom fuel (inum + 1)
    else pure ⟨⟩

def ireclaim : Prog Fs Stop PUnit := ireclaimFrom sb pick sb.ninodes 1

end Code

variable {sb : Superblock} {pick : Nat → Option Nat} {s s' s₀ : Fs} {ip inum : Nat}
  {V V' : Nat → Block}

/-! ## The log -/

theorem logAll_mem : ∀ {op lh : List Nat}, logAll op = some lh → lh.Nodup ∧
    ∀ b, b ∈ lh ↔ b ∈ op := by
  intro op
  induction op with
  | nil =>
    rintro lh ⟨⟩
    exact ⟨List.nodup_nil, fun _ => Iff.rfl⟩
  | cons c op ih =>
    intro lh h
    obtain ⟨lh', hop, h⟩ := Option.bind_eq_some_iff.mp h
    obtain ⟨hnd, hmem⟩ := ih hop
    split at h
    next => cases h
    next =>
      cases h
      split
      next hc =>
        refine ⟨hnd, fun b => ?_⟩
        rw [hmem, List.mem_cons]
        exact ⟨.inr, fun hb => hb.elim (fun he => he ▸ (hmem c).mp hc) id⟩
      next hc =>
        refine ⟨List.nodup_append.mpr ⟨hnd, List.nodup_singleton c, fun a ha b hb he => ?_⟩,
          fun b => ?_⟩
        · rw [List.mem_singleton.mp hb] at he
          exact hc (he ▸ ha)
        · rw [List.mem_append, hmem, List.mem_singleton, List.mem_cons, or_comm]

theorem logAll_length {op lh : List Nat} (h : logAll op = some lh) :
    lh.length = op.dedup.length := by
  obtain ⟨hnd, hmem⟩ := logAll_mem h
  refine List.Perm.length_eq
    ((List.perm_ext_iff_of_nodup hnd (List.nodup_dedup op)).mpr fun b => ?_)
  rw [hmem, List.mem_dedup]

/-- **The panic** depends on the blocks before the last call. -/
theorem logAll_none :
    ∀ (op : List Nat) (b : Nat), logAll (b :: op) = none ↔ LOGBLOCKS ≤ op.dedup.length := by
  intro op
  induction op with
  | nil =>
    intro b
    exact ⟨fun h => (by cases h), fun h => absurd h (by decide)⟩
  | cons c op ih =>
    intro b
    have hle : op.dedup.length ≤ (c :: op).dedup.length :=
      ((List.nodup_dedup op).subperm fun x hx =>
        List.mem_dedup.mpr (List.mem_cons_of_mem c (List.mem_dedup.mp hx))).length_le
    show Option.bind (logAll (c :: op)) _ = none ↔ _
    cases h : logAll (c :: op) with
    | none => exact ⟨fun _ => ((ih c).mp h).trans hle, fun _ => rfl⟩
    | some lh =>
      rw [Option.bind_some, ← logAll_length h]
      split
      next hfull => exact ⟨fun _ => hfull, fun _ => rfl⟩
      next hroom => exact ⟨fun hn => (by cases hn), fun hfull => absurd hfull hroom⟩

/-! ## What is asked for -/

/-- An inode that has a type and no links. There is no inode 0. -/
def Orphan (sb : Superblock) (V : Nat → Block) (i : Nat) : Prop :=
  0 < i ∧ i < sb.ninodes ∧ (onDisk sb V i).type ≠ 0 ∧ (onDisk sb V i).nlink = 0

theorem Orphan.live (h : Orphan sb V ip) : Live sb (onDisk sb V) ip := ⟨h.2.1, h.2.2.1⟩

/-- One that nobody holds: the first process has the root as its `cwd`. -/
structure Dead (sb : Superblock) (V : Nat → Block) (i : Nat) : Prop where
  orphan : Orphan sb V i
  root : i ≠ ROOTINO

/-- The system starts: the log was recovered, and the only inode in memory is the one that
`namei("/")` in `userinit` has found and not read. -/
structure Boot (sb : Superblock) (s : Fs) : Prop where
  divided : Divided sb s.disk
  coherent : Coherent s
  held : s.held = []
  lh : s.lh = []
  ref : ∀ i, s.ref i = if i = ROOTINO then 1 else 0
  valid : s.valid ROOTINO = false

/-- The disk `V` became `V'`. -/
structure Reclaimed (sb : Superblock) (V V' : Nat → Block) : Prop where
  none : ∀ i, ¬Orphan sb V' i
  free : ∀ i (σ : Mkfs.Slot), Orphan sb V i → σ.addr V (onDisk sb V i) ≠ 0 →
    ¬used sb V' (σ.addr V (onDisk sb V i))
  inode : ∀ i, i < sb.ninodes → ¬Orphan sb V i → (onDisk sb V' i).Same (onDisk sb V i)
  slot : ∀ i (σ : Mkfs.Slot), Live sb (onDisk sb V) i → ¬Orphan sb V i →
    σ.addr V' (onDisk sb V' i) = σ.addr V (onDisk sb V i)
  block : ∀ i (σ : Mkfs.Slot), Live sb (onDisk sb V) i → ¬Orphan sb V i →
    σ.addr V (onDisk sb V i) ≠ 0 →
    V' (σ.addr V (onDisk sb V i)) = V (σ.addr V (onDisk sb V i)) ∧
      (used sb V' (σ.addr V (onDisk sb V i)) ↔ used sb V (σ.addr V (onDisk sb V i)))

def slots : List Mkfs.Slot := .indirect :: (List.range MAXFILE).map slotOf

theorem mem_slots (σ : Mkfs.Slot) : σ ∈ slots := by
  have hM : MAXFILE = NDIRECT + NINDIRECT := rfl
  rcases slot_cases σ with rfl | ⟨i, hi, rfl⟩ | ⟨j, hj, rfl⟩
  · exact List.mem_cons_self
  · exact List.mem_cons_of_mem _ (List.mem_map.mpr ⟨i, List.mem_range.mpr (by omega), rfl⟩)
  · exact List.mem_cons_of_mem _ (List.mem_map.mpr ⟨_, List.mem_range.mpr (by omega), rfl⟩)

/-- The blocks of the bitmap that the bits of an inode's blocks are in. -/
def bitBlocks (sb : Superblock) (V : Nat → Block) (d : Dinode) : List Nat :=
  ((slots.filter fun σ => σ.addr V d ≠ 0).map fun σ => BBLOCK sb (σ.addr V d)).dedup

theorem mem_bitBlocks {d : Dinode} {b : Nat} :
    b ∈ bitBlocks sb V d ↔ ∃ σ : Mkfs.Slot, σ.addr V d ≠ 0 ∧ b = BBLOCK sb (σ.addr V d) := by
  unfold bitBlocks
  rw [List.mem_dedup, List.mem_map]
  constructor
  · rintro ⟨σ, hσ, rfl⟩
    exact ⟨σ, of_decide_eq_true (List.mem_filter.mp hσ).2, rfl⟩
  · rintro ⟨σ, h0, rfl⟩
    exact ⟨σ, List.mem_filter.mpr ⟨mem_slots σ, decide_eq_true h0⟩, rfl⟩

/-- Freeing inode `i` fits into a transaction. -/
def Fits (sb : Superblock) (V : Nat → Block) (i : Nat) : Prop :=
  (bitBlocks sb V (onDisk sb V i)).length ≤ LOGBLOCKS - 2

/-! ## One inode -/

/-- The bits after an inode gave its blocks back. -/
theorem Truncated.used {own : Nat × Mkfs.Slot → Option Nat} {d : Dinode}
    (h : Truncated sb own s s' ip d)
    (ho : Owned sb s.view own) {b : Nat} (hb : Data sb b) :
    Files.used sb s'.view b ↔ Files.used sb s.view b ∧ ¬∃ σ, own (ip, σ) = some b := by
  rw [h.owned.used_iff hb, ho.used_iff hb]
  constructor
  · rintro ⟨⟨j, σ⟩, hp⟩
    unfold bare at hp
    split at hp
    next => cases hp
    next hj =>
      refine ⟨⟨_, hp⟩, fun ⟨τ, hτ⟩ => hj ?_⟩
      exact congrArg Prod.fst (ho.split.inj hp hτ)
  · rintro ⟨⟨⟨j, σ⟩, hp⟩, hn⟩
    refine ⟨(j, σ), ?_⟩
    unfold bare
    rw [if_neg fun hj => hn ⟨σ, ?_⟩]
    · exact hp
    · have hj : j = ip := hj
      rw [← hj]
      exact hp

variable {E : Panic → Fs → Prop}

/-- `ilock` reads the inode. -/
theorem ilock_reads (hc : Coherent s) (hh : s.held = []) (hr : 0 < s.ref ip)
    (hv : s.valid ip = false)
    (ht : (onDisk sb s.view ip).type ≠ 0) :
    wp (ilock sb pick ip) (fun _ s' => s'.view = s.view ∧ s'.ino ip = onDisk sb s.view ip ∧
      s'.valid ip = true ∧
      s'.ref = s.ref ∧ (∀ b, b ∈ s'.lh ↔ b ∈ s.lh) ∧ ∀ b, b ∈ s'.op ↔ b ∈ s.op) E s := by
  unfold ilock
  rw [wp_bind, wp_get, wp_ite]
  refine ⟨fun h => by omega, fun _ => ?_⟩
  rw [wp_ite]
  refine ⟨fun _ => ?_, fun h => absurd hv h⟩
  rw [wp_bind]
  refine bread_wp hc (by rw [hh]; exact List.not_mem_nil) fun s₁ hw hh₁ => ?_
  rw [wp_bind]
  show wp (brelse _ >>= _) _ _ { s₁ with ino := Function.update s₁.ino ip (onDisk sb s.view ip) }
  rw [wp_bind]
  show wp (modify _ >>= _) _ _ (Fs.drop { s₁ with ino := _ } (IBLOCK sb ip))
  rw [wp_bind]
  refine (wp_ite _ _).mpr ⟨fun h => absurd h ht, fun _ => ?_⟩
  refine ⟨hw.view, Function.update_self .., Function.update_self .., hw.ref, fun b => ?_,
    fun b => ?_⟩
  · exact (hw.lh b).trans (or_iff_left List.not_mem_nil)
  · exact (hw.op b).trans (or_iff_left List.not_mem_nil)

theorem ilock_keeps (hc : Coherent s) (hh : s.held = []) (hr : 0 < s.ref ip)
    (ht : (onDisk sb s.view ip).type ≠ 0) :
    wp (ilock sb pick ip) (fun _ s' => s'.view = s.view ∧ s'.ref = s.ref ∧
      ∀ b, b ∈ s'.op ↔ b ∈ s.op) E s := by
  cases hv : s.valid ip with
  | false =>
    exact (ilock_reads hc hh hr hv ht).mono fun _ _ h => ⟨h.1, h.2.2.2.1, h.2.2.2.2.2⟩
  | true =>
    unfold ilock
    rw [wp_bind, wp_get, wp_ite]
    refine ⟨fun h => by omega, fun _ => ?_⟩
    rw [wp_ite]
    refine ⟨fun h => ?_, fun _ => ⟨rfl, rfl, fun _ => Iff.rfl⟩⟩
    rw [hv] at h
    cases h

/-- What the transaction of `ireclaim` leaves when its log is large enough. -/
structure Reaped (sb : Superblock) (s s' : Fs) (i : Nat) : Prop where
  tidy : Tidy sb s'
  other : ∀ j, j < sb.ninodes → j ≠ i → (onDisk sb s'.view j).Same (onDisk sb s.view j)
  lh : s'.lh = []
  ref : s'.ref = s.ref
  type : (onDisk sb s'.view i).type = 0
  data : ∀ c, Data sb c → s'.view c = s.view c
  bit : ∀ b, Data sb b → (used sb s'.view b ↔
    used sb s.view b ∧ ¬∃ σ, owner sb s.view (onDisk sb s.view) (i, σ) = some b)

/-- What is logged when inode `i` is freed: the last call finds the blocks of the bitmap in the
log, and the inode. -/
theorem logAll_freed (hl : Layout sb) {i : Nat} (hi : i < sb.ninodes) {d : Dinode} {op o : List Nat}
    (hop : op = IBLOCK sb i :: o) (hin : IBLOCK sb i ∈ o)
    (hmem : ∀ b, b ∈ op ↔ b = IBLOCK sb i ∨ b ∈ bitBlocks sb V d) :
    logAll op = none ↔ ¬(bitBlocks sb V d).length ≤ LOGBLOCKS - 2 := by
  have hlog : LOGBLOCKS = 30 := rfl
  have hnot : IBLOCK sb i ∉ bitBlocks sb V d := by
    intro hb
    obtain ⟨σ, -, he⟩ := mem_bitBlocks.mp hb
    exact hl.inode_ne hi _ he
  have hlen : o.dedup.length = (IBLOCK sb i :: bitBlocks sb V d).length := by
    refine List.Perm.length_eq ((List.perm_ext_iff_of_nodup (List.nodup_dedup o)
      (List.nodup_cons.mpr ⟨hnot, List.nodup_dedup _⟩)).mpr fun b => ?_)
    rw [List.mem_dedup, List.mem_cons, ← hmem, hop, List.mem_cons]
    exact ⟨.inr, fun h => h.elim (fun he => he ▸ hin) id⟩
  rw [hop, logAll_none, hlen, List.length_cons]
  omega

/-- What an operation logs that frees inode `ip` and nothing else. -/
theorem Truncated.logged {d : Dinode} (h : Truncated sb (owner sb V (onDisk sb V)) s s' ip d)
    (hop : ∀ b, b ∉ s.op) (hip : Live sb (onDisk sb V) ip) :
    ∀ b, b ∈ s'.op ↔ b = IBLOCK sb ip ∨ b ∈ bitBlocks sb V (onDisk sb V ip) := by
  intro b
  rw [h.op, mem_bitBlocks]
  refine or_congr_right ((or_iff_right (hop b)).trans ⟨?_, ?_⟩)
  · rintro ⟨σ, c, hσ, rfl⟩
    obtain ⟨-, rfl, h0⟩ := owner_some.mp hσ
    exact ⟨σ, h0, rfl⟩
  · rintro ⟨σ, h0, rfl⟩
    exact ⟨σ, _, owner_some.mpr ⟨hip, rfl, h0⟩, rfl⟩

theorem Tidy.begin_op (h : Tidy sb s) : Tidy sb { s with op := [] } :=
  ⟨⟨h.coherent.clean, h.coherent.pinned, h.coherent.held⟩, h.held, h.owned, h.whole, h.copies⟩

/-- The inode is in memory, and the operation begins. -/
def Fs.found (s : Fs) (i : Nat) : Fs :=
  { s with valid := Function.update s.valid i false, ref := Function.update s.ref i 1, op := [] }

theorem Tidy.found (h : Tidy sb s) {i : Nat} (hr : s.ref i = 0) : Tidy sb (s.found i) := by
  have hget : Turn sb s { s with
      valid := if s.ref i = 0 then Function.update s.valid i false else s.valid
      ref := Function.update s.ref i (s.ref i + 1) } i :=
    @Tidy.iget sb s i (fun _ _ => False) h
  rw [if_pos hr, hr] at hget
  exact hget.tidy.begin_op

/-- **One orphan**: its transaction is too big, or it is gone. -/
theorem Tidy.reap (hl : Layout sb) (h : Tidy sb s) {i : Nat} (href : s.ref i = 0)
    (ho : Orphan sb s.view i) {m : Prog Fs Stop PUnit} {Q : PUnit → Fs → Prop}
    {R : Stop → Fs → Prop}
    (hgo : Fits sb s.view i → ∀ s', Reaped sb s s' i → wp m Q R s')
    (hstop : ¬Fits sb s.view i → ∀ s', R .tooBig s') {s₁ : Fs} (hw : Wrote s s₁ s.view s.ino [])
    (hh : s₁.held = [IBLOCK sb i]) :
    wp (do
      among Stop.fs (Files.iget i)
      among Stop.fs (brelse (IBLOCK sb i))
      among Stop.fs Files.begin_op
      among Stop.fs (Files.ilock sb pick i)
      among Stop.fs (Files.iput sb pick i)
      end_op
      m) Q R s₁ := by
  -- `iget`, `brelse` and `begin_op` only change what is in memory
  have hin := ho.2.1
  have hd : (s₁.drop (IBLOCK sb i)).held = [] := by
    show s₁.held.erase _ = []
    rw [hh, List.erase_cons_head]
  have hw₂ := hw.drop (IBLOCK sb i)
  have hr₁ : s₁.ref i = 0 := by rw [hw.ref, href]
  have hlook : Turn sb s (s₁.drop (IBLOCK sb i)) i := h.look hw₂ hd
  have hu := hlook.tidy.found hr₁
  rw [wp_bind, wp_among]
  show wp (among Stop.fs (brelse (IBLOCK sb i)) >>= _) Q R { s₁ with
    valid := if s₁.ref i = 0 then Function.update s₁.valid i false else s₁.valid
    ref := Function.update s₁.ref i (s₁.ref i + 1) }
  rw [if_pos hr₁, hr₁, wp_bind, wp_among]
  show wp (among Stop.fs Files.begin_op >>= _) Q R
    (Fs.drop { s₁ with valid := _, ref := _ } (IBLOCK sb i))
  rw [wp_bind, wp_among]
  show wp (among Stop.fs (Files.ilock sb pick i) >>= _) Q R ((s₁.drop (IBLOCK sb i)).found i)
  have huv : ((s₁.drop (IBLOCK sb i)).found i).view = s.view := hw₂.view
  have hur : ((s₁.drop (IBLOCK sb i)).found i).ref = Function.update s₁.ref i 1 := rfl
  have huvalid : ((s₁.drop (IBLOCK sb i)).found i).valid i = false := Function.update_self ..
  have hulh : ((s₁.drop (IBLOCK sb i)).found i).lh = s₁.lh := rfl
  have huop : ((s₁.drop (IBLOCK sb i)).found i).op = [] := rfl
  generalize (s₁.drop (IBLOCK sb i)).found i = u at hu huv hur huvalid hulh huop
  have hui : 0 < u.ref i := by
    rw [hur, Function.update_self]
    exact Nat.one_pos
  -- the inode is read
  rw [wp_bind, wp_among]
  refine (((hu.ilock hin).and
    (ilock_reads (E := fun _ _ => False) hu.coherent hu.held hui huvalid
      (by rw [huv]; exact ho.2.2.1))).mono fun _ u₁ hr => ?_).monoStop fun _ _ he => he.2.elim
  obtain ⟨⟨ht₁, hk₁⟩, hv₁, hi₁, -, hr₁, -, hop₁⟩ := hr
  rw [huv] at hv₁ hi₁
  have hdying : Dying u₁ i := by
    refine ⟨?_, hk₁.valid, ?_⟩
    · rw [hr₁, hur, Function.update_self]
    · rw [hi₁]
      exact ho.2.2.2
  have hown := ht₁.tidy.owned
  have hslots := ht₁.tidy.slots hk₁
  -- and freed
  rw [wp_bind, wp_among]
  refine ((iput_wp hl ht₁.tidy.coherent ht₁.tidy.held hown hin (fun _ => ht₁.tidy.fits hk₁)
    fun _ => hslots).mono fun _ u₂ hr => ?_ :
    wp (Files.iput sb pick i) _ (fun _ _ => False) u₁).monoStop
      fun _ _ he => he.elim
  obtain ⟨a, u₃, ht, ha, ⟨o, hop, hino⟩, rfl⟩ := hr.1 hdying
  have hturn := ht₁.tidy.freed hl hin ht rfl ha
  rw [hv₁] at hown
  have hmem : ∀ b, b ∈ u₃.op ↔ b = IBLOCK sb i ∨ b ∈ bitBlocks sb s.view (onDisk sb s.view i) := by
    rw [hv₁] at ht
    refine ht.logged (fun b => ?_) ho.live
    rw [hop₁, huop]
    exact List.not_mem_nil
  -- the log has room for it or not
  have hfull := logAll_freed hl hin hop hino hmem
  rw [wp_bind]
  unfold end_op
  rw [wp_bind, wp_get]
  show wp (match logAll u₃.op with | none => _ | some _ => _) _ _ (u₃.forget i)
  cases hlog : logAll u₃.op with
  | none => exact hstop (hfull.mp hlog) _
  | some lh =>
    refine hgo (by_contra fun hn => ?_) _ ?_
    · rw [hfull.mpr hn] at hlog
      cases hlog
    · have hview : (u₃.forget i).commit.view = u₃.view := commit_view _
      have hcommit : Turn sb (u₃.forget i) (u₃.forget i).commit i := hturn.tidy.commit
      refine ⟨hcommit.tidy, fun j hj hne => ?_, rfl, ?_, ?_, fun c hc => ?_, fun b hb => ?_⟩
      · have hother := ht.other j hj hne
        rwa [hv₁, ← hview] at hother
      · show Function.update u₃.ref i (u₃.ref i - 1) = s.ref
        rw [ht.ref, hr₁, hur, Function.update_self, Function.update_idem, hw.ref, Nat.sub_self]
        exact Function.update_eq_iff.mpr ⟨href.symm, fun _ _ => rfl⟩
      · rw [hview, ht.inode.type]
      · rw [hview, ht.data hl hin hc, hv₁]
      · have hbit := ht.used ht₁.tidy.owned hb
        rwa [hv₁, ← hview] at hbit

/-- What is left when nothing is freed. -/
structure Passed (sb : Superblock) (s s' : Fs) : Prop where
  tidy : Tidy sb s'
  view : s'.view = s.view
  lh : s'.lh = []
  ref : s'.ref = s.ref

/-- Another reference, and the operation begins. -/
def Fs.again (s : Fs) (i : Nat) : Fs :=
  { s with ref := Function.update s.ref i (s.ref i + 1), op := [] }

theorem Tidy.again (h : Tidy sb s) {i : Nat} (hr : 0 < s.ref i) : Tidy sb (s.again i) := by
  have hget : Turn sb s { s with
      valid := if s.ref i = 0 then Function.update s.valid i false else s.valid
      ref := Function.update s.ref i (s.ref i + 1) } i :=
    @Tidy.iget sb s i (fun _ _ => False) h
  rw [if_neg (Nat.ne_of_gt hr)] at hget
  exact hget.tidy.begin_op

/-- **An orphan that is held** stays: `iput` finds another reference. -/
theorem Tidy.spare (hl : Layout sb) (h : Tidy sb s) {i : Nat} (href : 0 < s.ref i)
    (ho : Orphan sb s.view i) {m : Prog Fs Stop PUnit} {Q : PUnit → Fs → Prop}
    {R : Stop → Fs → Prop} (hgo : ∀ s', Passed sb s s' → wp m Q R s') {s₁ : Fs}
    (hw : Wrote s s₁ s.view s.ino []) (hh : s₁.held = [IBLOCK sb i]) :
    wp (do
      among Stop.fs (Files.iget i)
      among Stop.fs (brelse (IBLOCK sb i))
      among Stop.fs Files.begin_op
      among Stop.fs (Files.ilock sb pick i)
      among Stop.fs (Files.iput sb pick i)
      end_op
      m) Q R s₁ := by
  have hin := ho.2.1
  have hd : (s₁.drop (IBLOCK sb i)).held = [] := by
    show s₁.held.erase _ = []
    rw [hh, List.erase_cons_head]
  have hw₂ := hw.drop (IBLOCK sb i)
  have hr₁ : 0 < s₁.ref i := hw.ref ▸ href
  have hlook : Turn sb s (s₁.drop (IBLOCK sb i)) i := h.look hw₂ hd
  have hu := hlook.tidy.again hr₁
  rw [wp_bind, wp_among]
  show wp (among Stop.fs (brelse (IBLOCK sb i)) >>= _) Q R { s₁ with
    valid := if s₁.ref i = 0 then Function.update s₁.valid i false else s₁.valid
    ref := Function.update s₁.ref i (s₁.ref i + 1) }
  rw [if_neg (Nat.ne_of_gt hr₁), wp_bind, wp_among]
  show wp (among Stop.fs Files.begin_op >>= _) Q R (Fs.drop { s₁ with ref := _ } (IBLOCK sb i))
  rw [wp_bind, wp_among]
  show wp (among Stop.fs (Files.ilock sb pick i) >>= _) Q R ((s₁.drop (IBLOCK sb i)).again i)
  have huv : ((s₁.drop (IBLOCK sb i)).again i).view = s.view := hw₂.view
  have hur : ((s₁.drop (IBLOCK sb i)).again i).ref = Function.update s.ref i (s.ref i + 1) := by
    show Function.update s₁.ref i (s₁.ref i + 1) = _
    rw [hw.ref]
  have huop : ((s₁.drop (IBLOCK sb i)).again i).op = [] := rfl
  generalize (s₁.drop (IBLOCK sb i)).again i = u at hu huv hur huop
  have hui : u.ref i = s.ref i + 1 := by rw [hur, Function.update_self]
  rw [wp_bind, wp_among]
  refine (((hu.ilock hin).and
    (ilock_keeps (E := fun _ _ => False) hu.coherent hu.held (by omega)
      (by rw [huv]; exact ho.2.2.1))).mono fun _ u₁ hr => ?_).monoStop fun _ _ he => he.2.elim
  obtain ⟨⟨ht₁, -⟩, hv₁, hr₁, hop₁⟩ := hr
  have halive : ¬Dying u₁ i := fun hd => by
    have := hd.1
    rw [hr₁, hui] at this
    omega
  rw [wp_bind, wp_among]
  refine (((ht₁.tidy.iput (E := fun _ _ => False) hl hin).and
    (iput_wp (E := fun _ _ => False) hl ht₁.tidy.coherent ht₁.tidy.held ht₁.tidy.owned hin
      (fun hd => absurd hd halive) fun hd => absurd hd halive)).mono
        fun _ u₂ hr => ?_).monoStop fun _ _ he => he.2.elim
  obtain ⟨ht₂, -, hr⟩ := hr
  have hr := hr halive
  have hop : u₂.op = [] := by
    rw [hr]
    refine List.eq_nil_iff_forall_not_mem.mpr fun b hb => ?_
    rw [hop₁, huop] at hb
    exact List.not_mem_nil hb
  rw [wp_bind]
  unfold end_op
  rw [wp_bind, wp_get, hop]
  show wp m Q R u₂.commit
  have hcommit : Turn sb u₂ u₂.commit i := ht₂.tidy.commit
  refine hgo _ ⟨hcommit.tidy, ?_, rfl, ?_⟩
  · rw [commit_view, hr]
    exact hv₁.trans huv
  · show u₂.ref = s.ref
    rw [hr]
    show Function.update u₁.ref i (u₁.ref i - 1) = s.ref
    rw [hr₁, hui, hur, Function.update_idem, Nat.add_sub_cancel]
    exact Function.update_eq_self i s.ref

/-! ## The loop -/

/-- The inodes before `inum` were looked at: from `s₀` to `s` the dead ones of them were freed. -/
structure Swept (sb : Superblock) (s₀ s : Fs) (inum : Nat) : Prop where
  tidy : Tidy sb s
  lh : s.lh = []
  ref : ∀ j, s.ref j = if j = ROOTINO then 1 else 0
  gone : ∀ j, j < inum → Dead sb s₀.view j → (onDisk sb s.view j).type = 0
  inode : ∀ j, j < sb.ninodes → ¬(j < inum ∧ Dead sb s₀.view j) →
    (onDisk sb s.view j).Same (onDisk sb s₀.view j)
  data : ∀ c, Data sb c → s.view c = s₀.view c
  bit : ∀ b, Data sb b → (used sb s.view b ↔ used sb s₀.view b ∧ ¬∃ j σ, j < inum ∧
    Dead sb s₀.view j ∧ owner sb s₀.view (onDisk sb s₀.view) (j, σ) = some b)

theorem Boot.view (h : Boot sb s) : s.view = s.disk :=
  funext fun b => h.coherent.view_eq (by rw [h.lh]; exact List.not_mem_nil)

theorem Boot.tidy (hl : Layout sb) (h : Boot sb s) : Tidy sb s := by
  have hd := h.divided
  rw [← h.view] at hd
  refine Start.tidy hl ⟨hd, h.coherent, h.held, fun i _ hr hv => ?_⟩
  rw [h.ref] at hr
  split at hr
  next hi =>
    rw [hi, h.valid] at hv
    cases hv
  next => exact absurd hr (Nat.lt_irrefl 0)

theorem Swept.start (h : Tidy sb s) (hlh : s.lh = [])
    (href : ∀ j, s.ref j = if j = ROOTINO then 1 else 0) : Swept sb s s 1 where
  tidy := h
  lh := hlh
  ref := href
  gone j hj ho := absurd ho.orphan.1 (by omega)
  inode _ _ _ := Same.refl _
  data _ _ := rfl
  bit b _ := ⟨fun hu => ⟨hu, fun ⟨_, _, hj, ho, _⟩ => absurd ho.orphan.1 (by omega)⟩, fun h => h.1⟩

/-- An inode that was not looked at is as it was. -/
theorem Swept.orphan (h : Swept sb s₀ s inum) {j : Nat} (hj : inum ≤ j) (hjn : j < sb.ninodes) :
    Orphan sb s.view j ↔ Orphan sb s₀.view j := by
  have hs := h.inode j hjn fun hc => by omega
  unfold Orphan
  rw [hs.type, hs.nlink]

/-- The slots of an inode that is in use are those it had. -/
theorem Swept.slot (h : Swept sb s₀ s inum) (h₀ : Tidy sb s₀) {j : Nat}
    (hj : Live sb (onDisk sb s₀.view) j)
    (hn : ¬(j < inum ∧ Dead sb s₀.view j)) (σ : Mkfs.Slot) :
    σ.addr s.view (onDisk sb s.view j) = σ.addr s₀.view (onDisk sb s₀.view j) :=
  h₀.slot_same hj (h.inode j hj.1 hn) h.data σ

theorem Swept.fits (h : Swept sb s₀ s inum) (h₀ : Tidy sb s₀) (ho : Orphan sb s₀.view inum) :
    Fits sb s.view inum ↔ Fits sb s₀.view inum := by
  have heq : ∀ σ : Mkfs.Slot, σ.addr s.view (onDisk sb s.view inum) =
    σ.addr s₀.view (onDisk sb s₀.view inum) :=
    h.slot h₀ ho.live fun hc => Nat.lt_irrefl _ hc.1
  unfold Fits bitBlocks
  simp only [heq]

/-- A block was read, and let go. -/
theorem Swept.looked (h : Swept sb s₀ s inum) (hw : Wrote s s' s.view s.ino [])
    (hh : s'.held = []) : Passed sb s s' := by
  have ht : Turn sb s s' inum := h.tidy.look hw hh
  refine ⟨ht.tidy, hw.view, List.eq_nil_iff_forall_not_mem.mpr fun b hb => ?_, hw.ref⟩
  rw [hw.lh, h.lh] at hb
  exact hb.elim List.not_mem_nil List.not_mem_nil

/-- An inode that is not dead: nothing is changed. -/
theorem Swept.skip (h : Swept sb s₀ s inum) (hno : ¬Dead sb s₀.view inum) (hp : Passed sb s s') :
    Swept sb s₀ s' (inum + 1) := by
  have hlt : ∀ j, j < inum + 1 → Dead sb s₀.view j → j < inum := by
    intro j hj ho
    rcases Nat.lt_succ_iff_lt_or_eq.mp hj with hj | rfl
    · exact hj
    · exact absurd ho hno
  refine ⟨hp.tidy, hp.lh, fun j => by rw [hp.ref, h.ref], fun j hj ho => ?_, fun j hj hn => ?_,
    fun c hc => ?_, fun b hb => ?_⟩
  · rw [hp.view]
    exact h.gone j (hlt j hj ho) ho
  · rw [hp.view]
    exact h.inode j hj fun hc => hn ⟨by omega, hc.2⟩
  · rw [hp.view]
    exact h.data c hc
  · rw [hp.view, h.bit b hb]
    refine and_congr_right fun _ => not_congr ⟨?_, ?_⟩
    · rintro ⟨j, σ, hj, ho⟩
      exact ⟨j, σ, by omega, ho⟩
    · rintro ⟨j, σ, hj, ho, hσ⟩
      exact ⟨j, σ, hlt j hj ho, ho, hσ⟩

/-- A dead one: it is gone. -/
theorem Swept.reaped (h : Swept sb s₀ s inum) (h₀ : Tidy sb s₀) (hdead : Dead sb s₀.view inum)
    (hr : Reaped sb s s' inum) : Swept sb s₀ s' (inum + 1) := by
  have ho := hdead.orphan
  have hslot := h.slot h₀ ho.live fun hc => Nat.lt_irrefl _ hc.1
  have hlive : Live sb (onDisk sb s.view) inum := by
    have hs := h.inode inum ho.2.1 fun hc => Nat.lt_irrefl _ hc.1
    exact ⟨ho.2.1, hs.type ▸ ho.2.2.1⟩
  have howner : ∀ σ, owner sb s.view (onDisk sb s.view) (inum, σ) =
    owner sb s₀.view (onDisk sb s₀.view) (inum, σ) := by
    intro σ
    unfold owner
    rw [if_pos hlive, if_pos ho.live, hslot]
  refine ⟨hr.tidy, hr.lh, fun j => by rw [hr.ref, h.ref], fun j hj ho' => ?_, fun j hj hn => ?_,
    fun c hc => ?_, fun b hb => ?_⟩
  · by_cases hji : j = inum
    · rw [hji]
      exact hr.type
    · rw [(hr.other j ho'.orphan.2.1 hji).type]
      exact h.gone j (by omega) ho'
  · have hji : j ≠ inum := fun he => hn ⟨by omega, he ▸ hdead⟩
    exact (hr.other j hj hji).trans (h.inode j hj fun hc => hn ⟨by omega, hc.2⟩)
  · rw [hr.data c hc, h.data c hc]
  · rw [hr.bit b hb, h.bit b hb, and_assoc]
    refine and_congr_right fun _ => ?_
    rw [← not_or]
    refine not_congr ⟨?_, ?_⟩
    · rintro (⟨j, σ, hj, hrest⟩ | ⟨σ, hσ⟩)
      · exact ⟨j, σ, by omega, hrest⟩
      · exact ⟨inum, σ, by omega, hdead, howner σ ▸ hσ⟩
    · rintro ⟨j, σ, hj, ho', hσ⟩
      rcases Nat.lt_succ_iff_lt_or_eq.mp hj with hj | rfl
      · exact .inl ⟨j, σ, hj, ho', hσ⟩
      · exact .inr ⟨σ, (howner σ).symm ▸ hσ⟩

/-- **The loop**, by induction on the inodes that are left: it comes to its end, or to a dead
inode whose transaction is too big. -/
theorem ireclaimFrom_wp (hl : Layout sb) (h₀ : Tidy sb s₀) :
    ∀ fuel inum (s : Fs), sb.ninodes - inum ≤ fuel →
    0 < inum → (∀ j, j < inum → Dead sb s₀.view j → Fits sb s₀.view j) → Swept sb s₀ s inum →
    wp (ireclaimFrom sb pick fuel inum)
      (fun _ s' => (∃ k, sb.ninodes ≤ k ∧ Swept sb s₀ s' k) ∧ ∀ j, Dead sb s₀.view j →
        Fits sb s₀.view j)
      (fun _ _ => ∃ j, Dead sb s₀.view j ∧ ¬Fits sb s₀.view j) s := by
  intro fuel
  induction fuel with
  | zero =>
    intro inum s hfuel _ hfits h
    exact ⟨⟨inum, by omega, h⟩, fun j hj => hfits j (by have := hj.orphan.2.1; omega) hj⟩
  | succ fuel ih =>
    intro inum s hfuel hpos hfits h
    unfold ireclaimFrom
    rw [wp_ite]
    refine ⟨fun hin => ?_,
      fun hin => ⟨⟨inum, by omega, h⟩, fun j hj => hfits j (by have := hj.orphan.2.1; omega) hj⟩⟩
    have horphan := h.orphan le_rfl hin
    have hskip : ¬Dead sb s₀.view inum → ∀ s', Passed sb s s' →
        wp (ireclaimFrom sb pick fuel (inum + 1)) _ _ s' := fun hno s' hp => by
      refine ih (inum + 1) s' (by omega) (by omega) (fun j hj hoj => ?_) (h.skip hno hp)
      rcases Nat.lt_succ_iff_lt_or_eq.mp hj with hj | rfl
      · exact hfits j hj hoj
      · exact absurd hoj hno
    rw [wp_bind, wp_among]
    refine bread_wp h.tidy.coherent (by rw [h.tidy.held]; exact List.not_mem_nil) fun s₁ hw hh => ?_
    rw [h.tidy.held] at hh
    show wp (if (onDisk sb s.view inum).type ≠ 0 ∧ (onDisk sb s.view inum).nlink = 0 then _ else _)
      _ _ s₁
    rw [wp_ite]
    refine ⟨fun hc => ?_, fun hc => ?_⟩
    · have ho : Orphan sb s.view inum := ⟨hpos, hin, hc⟩
      by_cases hroot : inum = ROOTINO
      · -- the root is held by the first process
        refine h.tidy.spare hl ?_ ho (hskip fun hd => hd.root hroot) hw hh
        rw [h.ref, if_pos hroot]
        exact Nat.one_pos
      · -- an orphan: it is freed, or its transaction is too big
        have ho₀ := horphan.mp ho
        have hfit := h.fits h₀ ho₀
        have hdead : Dead sb s₀.view inum := ⟨ho₀, hroot⟩
        refine h.tidy.reap hl (by rw [h.ref, if_neg hroot]) ho (fun hf s' hr => ?_)
          (fun hf _ => ⟨inum, hdead, mt hfit.mpr hf⟩) hw hh
        refine ih (inum + 1) s' (by omega) (by omega) (fun j hj hoj => ?_) (h.reaped h₀ hdead hr)
        rcases Nat.lt_succ_iff_lt_or_eq.mp hj with hj | rfl
        · exact hfits j hj hoj
        · exact hfit.mp hf
    · -- no orphan: the block is let go
      have hno : ¬Dead sb s₀.view inum := fun hd => hc (horphan.mpr hd.orphan).2.2
      rw [wp_bind, wp_among]
      show wp (ireclaimFrom sb pick fuel (inum + 1)) _ _ (s₁.drop (IBLOCK sb inum))
      refine hskip hno _ (h.looked (hw.drop _) ?_)
      show s₁.held.erase _ = []
      rw [hh, List.erase_cons_head]

theorem Swept.reclaimed (h : Swept sb s₀ s inum) (h₀ : Tidy sb s₀) (hin : sb.ninodes ≤ inum)
    (hroot : ¬Orphan sb s₀.view ROOTINO) : Reclaimed sb s₀.view s.view := by
  have hdead : ∀ {i}, Orphan sb s₀.view i → Dead sb s₀.view i :=
    fun ho => ⟨ho, fun he => hroot (he ▸ ho)⟩
  refine ⟨fun i ho => ?_, fun i σ ho h0 hu => ?_, fun i hi hn => ?_, fun i σ hi hn => ?_,
    fun i σ hi hn h0 => ?_⟩
  · by_cases ho₀ : Orphan sb s₀.view i
    · exact ho.2.2.1 (h.gone i (by have := ho.2.1; omega) (hdead ho₀))
    · have hs := h.inode i ho.2.1 fun hc => ho₀ hc.2.orphan
      exact ho₀ ⟨ho.1, ho.2.1, hs.type ▸ ho.2.2.1, hs.nlink ▸ ho.2.2.2⟩
  · have hown := owner_some.mpr ⟨ho.live, rfl, h0⟩
    refine ((h.bit _ (h₀.owned.data hown)).mp hu).2 ⟨i, σ, ?_, hdead ho, hown⟩
    have := ho.2.1
    omega
  · exact h.inode i hi fun hc => hn hc.2.orphan
  · exact h.slot h₀ hi (fun hc => hn hc.2.orphan) σ
  · have hd := h₀.owned.addr_data hi h0
    refine ⟨h.data _ hd, (h.bit _ hd).trans ⟨fun hu => hu.1, fun hu => ⟨hu, ?_⟩⟩⟩
    rintro ⟨j, τ, -, ho, hτ⟩
    -- the block has one owner
    obtain ⟨-, he, -⟩ := owner_some.mp hτ
    obtain ⟨rfl, -⟩ := h₀.owned.once hi ho.orphan.live h0 he.symm
    exact hn ho.orphan

/-- The root stays, whatever it is. -/
theorem Swept.root (h : Swept sb s₀ s inum) (ho : Orphan sb s₀.view ROOTINO) :
    Orphan sb s.view ROOTINO := by
  have hs := h.inode ROOTINO ho.2.1 fun hc => hc.2.root rfl
  exact ⟨ho.1, ho.2.1, hs.type ▸ ho.2.2.1, hs.nlink ▸ ho.2.2.2⟩

/-- What a start comes to. -/
theorem Boot.ireclaim_wp (hl : Layout sb) (h : Boot sb s) :
    wp (ireclaim sb pick) (fun _ s' => (Orphan sb s.disk ROOTINO → Orphan sb s'.disk ROOTINO) ∧
      (¬Orphan sb s.disk ROOTINO → Reclaimed sb s.disk s'.disk) ∧
      ∀ i, Dead sb s.disk i → Fits sb s.disk i)
      (fun _ _ => ∃ i, Dead sb s.disk i ∧ ¬Fits sb s.disk i) s := by
  have ht := h.tidy hl
  have hloop := @ireclaimFrom_wp sb pick s hl ht sb.ninodes 1 s (by omega) (by omega)
    (fun j hj ho => absurd ho.orphan.1 (by omega)) (Swept.start ht h.lh h.ref)
  rw [h.view] at hloop
  refine hloop.mono fun _ s' hr => ?_
  obtain ⟨⟨k, hk, hs⟩, hfits⟩ := hr
  have hview : s'.view = s'.disk :=
    funext fun b => hs.tidy.coherent.view_eq (by rw [hs.lh]; exact List.not_mem_nil)
  have hrec := hs.reclaimed ht hk
  have hroot := hs.root
  rw [h.view, hview] at hrec hroot
  exact ⟨hroot, hrec, hfits⟩

/-! ## A file all over the disk -/

/-- A disk with 30 blocks of bitmap, 34 to 63. -/
def wide : Superblock := ⟨Mkfs.FSMAGIC, 245760, 245696, 16, 31, 2, 33, 34⟩

theorem wide_layout : Layout wide where
  inodes i hi := by
    have hi : i < 16 := hi
    show i / 16 + 33 < 34
    omega
  bitmap b hb := by
    have hb : b < 245760 := hb
    show b / 8192 + 34 < 64
    omega
  boot := by decide
  size := by decide

/-- The slots from 1 on. -/
def slotNum : Mkfs.Slot → Nat
  | .direct i => i + 1
  | .indirect => NDIRECT + 1
  | .entry j => NDIRECT + 2 + j

theorem slotNum_inj {σ τ : Mkfs.Slot} (h : slotNum σ = slotNum τ) : σ = τ := by
  have hD : NDIRECT = 12 := rfl
  cases σ with
  | direct i =>
    cases τ with
    | direct j => exact congrArg Mkfs.Slot.direct (Fin.ext (Nat.succ.inj h))
    | indirect =>
      have h : i.val + 1 = NDIRECT + 1 := h
      omega
    | entry j =>
      have h : i.val + 1 = NDIRECT + 2 + j.val := h
      omega
  | indirect =>
    cases τ with
    | direct j =>
      have h : NDIRECT + 1 = j.val + 1 := h
      omega
    | indirect => rfl
    | entry j =>
      have h : NDIRECT + 1 = NDIRECT + 2 + j.val := h
      omega
  | entry i =>
    cases τ with
    | direct j =>
      have h : NDIRECT + 2 + i.val = j.val + 1 := h
      omega
    | indirect =>
      have h : NDIRECT + 2 + i.val = NDIRECT + 1 := h
      omega
    | entry j =>
      have h : NDIRECT + 2 + i.val = NDIRECT + 2 + j.val := h
      exact congrArg Mkfs.Slot.entry (Fin.ext (by omega))

theorem slotNum_pos (σ : Mkfs.Slot) : 0 < slotNum σ := by
  cases σ with
  | direct i => exact Nat.succ_pos i
  | indirect => exact Nat.succ_pos NDIRECT
  | entry j => exact Nat.lt_of_lt_of_le (Nat.succ_pos (NDIRECT + 1)) (Nat.le_add_right _ _)

theorem exists_slotNum {k : Nat} (h0 : 0 < k) (hk : k < NDIRECT + 2 + NINDIRECT) :
    ∃ σ, slotNum σ = k := by
  by_cases hd : k ≤ NDIRECT
  · refine ⟨.direct ⟨k - 1, by omega⟩, ?_⟩
    show k - 1 + 1 = k
    omega
  · by_cases hi : k = NDIRECT + 1
    · exact ⟨.indirect, hi.symm⟩
    · refine ⟨.entry ⟨k - (NDIRECT + 2), by omega⟩, ?_⟩
      show NDIRECT + 2 + (k - (NDIRECT + 2)) = k
      omega

/-- The block that slot `k` of a file of `n` blocks has: the first of those of the `k`-th block of
the bitmap. -/
def far (n k : Nat) : Nat := if k ≤ n then Mkfs.BPB * k else 0

def farInode (n : Nat) : Dinode := ⟨Mkfs.T_FILE, 0, 0, 0, (n - 1) * BSIZE, fun i => far n (i + 1)⟩

/-- Its block for addresses. -/
def farEntries (n : Nat) : Block := fun k => Bytes.le (far n (NDIRECT + 2 + k / 4)) (k % 4)

def farRoot : Dinode := ⟨Mkfs.T_DIR, 0, 0, 1, 0, fun _ => 0⟩

/-- Inode 1 is an empty root, inode 2 an orphan. -/
def farDisk (n b : Nat) : Block :=
  if b = 33 then
    Mkfs.setDinode (Mkfs.setDinode Mkfs.zeroes (dinodeOff 1) farRoot) (dinodeOff 2) (farInode n)
  else if b = Mkfs.BPB * 13 then farEntries n
  else if 34 ≤ b ∧ b < 64 then Mkfs.bitmap (if b = 34 then 64 else if b - 34 ≤ n then 1 else 0)
  else Mkfs.zeroes

def farFs (n : Nat) : Fs where
  disk := farDisk n
  cache _ := none
  lh := []
  held := []
  turn := 0
  op := []
  ino _ := ⟨0, 0, 0, 0, 0, fun _ => 0⟩
  valid _ := false
  ref i := if i = ROOTINO then 1 else 0

variable {n : Nat}

theorem far_lt {k : Nat} (hn : n ≤ 29) : far n k < 245760 := by
  have hB : Mkfs.BPB = 8192 := rfl
  unfold far
  rw [hB]
  split <;> omega

theorem far_used {b : Nat} (hb : b < 245760) :
    used wide (farDisk n) b ↔ b < 64 ∨ (b % 8192 = 0 ∧ 1 ≤ b / 8192 ∧ b / 8192 ≤ n) := by
  have hz : BBLOCK wide b = b / 8192 + 34 := rfl
  have hm : b % Mkfs.BPB = b % 8192 := rfl
  have hB : Mkfs.BPB * 13 = 106496 := rfl
  unfold used farDisk
  rw [hz, hm, if_neg (by omega), if_neg (by omega), if_pos (by omega), Mkfs.marked_bitmap]
  split
  next h => omega
  next h =>
    split <;> omega

theorem farInode_fits (hn : n ≤ 29) : (farInode n).Fits where
  type := by
    show Mkfs.T_FILE < _
    decide
  major := Nat.two_pow_pos 16
  minor := Nat.two_pow_pos 16
  nlink := Nat.two_pow_pos 16
  size := by
    have hB : BSIZE = 1024 := rfl
    show (n - 1) * BSIZE < 256 ^ 4
    rw [hB]
    omega
  addrs i _ := by
    have hlt := @far_lt n (i + 1) hn
    show far n (i + 1) < 256 ^ 4
    omega

theorem farRoot_fits : farRoot.Fits where
  type := by decide
  major := by decide
  minor := by decide
  nlink := by decide
  size := by decide
  addrs _ _ := Nat.two_pow_pos 32

theorem far_inode (hn : n ≤ 29) : (onDisk wide (farDisk n) 2).Same (farInode n) :=
  Mkfs.dinodeAt_setDinode _ _ (farInode_fits hn)

/-- The other inodes of the block. -/
theorem far_other {i : Nat} (hi : i < 16) (h2 : i ≠ 2) : (onDisk wide (farDisk n) i).Same
    (onDisk wide (setOnDisk wide (fun _ => Mkfs.zeroes) 1 farRoot) i) := by
  have hb : IBLOCK wide i = 33 := by
    show i / 16 + 33 = 33
    omega
  have hset : farDisk n (IBLOCK wide i) = setOnDisk wide
    (setOnDisk wide (fun _ => Mkfs.zeroes) 1 farRoot) 2 (farInode n) (IBLOCK wide i) := by
    rw [hb]
    rfl
  rw [onDisk_congr hset]
  exact onDisk_ne h2

theorem far_root : (onDisk wide (farDisk n) 1).Same farRoot :=
  (far_other (by decide) (by decide)).trans (onDisk_self farRoot_fits)

theorem far_type {i : Nat} (hi : i < 16) (h1 : i ≠ 1) (h2 : i ≠ 2) :
    (onDisk wide (farDisk n) i).type = 0 := by
  rw [(far_other hi h2).type, (onDisk_ne h1).type]
  exact Bytes.get_zero fun _ _ => rfl

theorem far_root_slot (σ : Mkfs.Slot) : σ.addr (farDisk n) (onDisk wide (farDisk n) 1) = 0 := by
  rw [addr_same far_root]
  cases σ <;> rfl

theorem far_slot (h13 : 13 ≤ n) (hn : n ≤ 29) (σ : Mkfs.Slot) :
    σ.addr (farDisk n) (onDisk wide (farDisk n) 2) = far n (slotNum σ) := by
  rw [addr_same (far_inode hn)]
  cases σ with
  | direct i => rfl
  | indirect => rfl
  | entry j =>
    have hind : (farInode n).addrs NDIRECT = Mkfs.BPB * 13 := if_pos h13
    have hblock : farDisk n (Mkfs.BPB * 13) = farEntries n := by
      unfold farDisk
      rw [if_neg (by decide), if_pos rfl]
    have hlt := @far_lt n (NDIRECT + 2 + j) hn
    show (if (farInode n).addrs NDIRECT = 0 then 0 else
      Bytes.get (farDisk n ((farInode n).addrs NDIRECT)) (4 * j) 4) = far n (NDIRECT + 2 + j)
    rw [hind, if_neg (by decide), hblock,
      Bytes.get_of_le (v := far n (NDIRECT + 2 + j)) fun k hk => ?_]
    · exact Nat.mod_eq_of_lt (by omega)
    · unfold farEntries
      rw [show (4 * j.val + k) / 4 = j by omega, show (4 * j.val + k) % 4 = k by omega]

theorem far_live {i : Nat} (hi : Live wide (onDisk wide (farDisk n)) i) : i = 1 ∨ i = 2 := by
  by_contra hn
  rw [not_or] at hn
  exact hi.2 (far_type hi.1 hn.1 hn.2)

theorem far_live_two (hn : n ≤ 29) : Live wide (onDisk wide (farDisk n)) 2 := by
  refine ⟨by decide, ?_⟩
  rw [(far_inode hn).type]
  show Mkfs.T_FILE ≠ 0
  decide

/-- Only the orphan has blocks. -/
theorem far_two {i : Nat} {σ : Mkfs.Slot} (hi : Live wide (onDisk wide (farDisk n)) i)
    (h0 : σ.addr (farDisk n) (onDisk wide (farDisk n) i) ≠ 0) : i = 2 := by
  rcases far_live hi with rfl | rfl
  · exact absurd (far_root_slot σ) h0
  · rfl

theorem far_ne_zero {k : Nat} (hk : 0 < k) : far n k ≠ 0 ↔ k ≤ n := by
  have hB : Mkfs.BPB = 8192 := rfl
  unfold far
  rw [hB]
  split <;> omega

theorem far_divided (h13 : 13 ≤ n) (hn : n ≤ 29) : Divided wide (farDisk n) := by
  have hB : Mkfs.BPB = 8192 := rfl
  have hmeta : nmeta wide = 64 := rfl
  have hpos : ∀ σ : Mkfs.Slot, far n (slotNum σ) ≠ 0 ↔ slotNum σ ≤ n :=
    fun σ => far_ne_zero (slotNum_pos σ)
  have hval : ∀ {k}, k ≤ n → far n k = 8192 * k := fun hk => if_pos hk
  have hdata : ∀ σ : Mkfs.Slot, slotNum σ ≤ n → Data wide (far n (slotNum σ)) := by
    intro σ hσ
    have h0 := slotNum_pos σ
    rw [hval hσ]
    refine ⟨?_, ?_⟩
    · rw [hmeta]
      omega
    · show _ < 245760
      omega
  refine ⟨fun b hb => ?_, fun i j σ τ hi hj h0 he => ?_, fun i σ hi h0 => ?_, fun b hb => ?_,
    fun i hi => ?_,
    fun i bn hi hlt => ?_⟩
  · have hlo : 64 ≤ b := hmeta ▸ hb.1
    rw [far_used hb.2]
    constructor
    · rintro (hlt | ⟨hmod, h1, hle⟩)
      · omega
      · have hnum : b / 8192 < NDIRECT + 2 + NINDIRECT := by
          show b / 8192 < 270
          omega
        obtain ⟨σ, hσ⟩ := exists_slotNum (by omega) hnum
        refine ⟨2, σ, far_live_two hn, ?_⟩
        rw [far_slot h13 hn, hσ, hval hle]
        omega
    · rintro ⟨i, σ, hi, rfl⟩
      obtain rfl := far_two hi (Nat.ne_of_gt (Nat.lt_of_lt_of_le (by decide) hlo))
      rw [far_slot h13 hn] at hlo ⊢
      have hσ := (hpos σ).mp (by omega)
      have h0 := slotNum_pos σ
      rw [hval hσ]
      exact .inr (by omega)
  · obtain rfl := far_two hi h0
    obtain rfl := far_two hj (he ▸ h0)
    rw [far_slot h13 hn] at h0 he
    rw [far_slot h13 hn] at he
    have hσ := (hpos σ).mp h0
    have hτ := (hpos τ).mp (he ▸ h0)
    rw [hval hσ, hval hτ] at he
    exact ⟨rfl, slotNum_inj (by omega)⟩
  · obtain rfl := far_two hi h0
    rw [far_slot h13 hn] at h0 ⊢
    exact hdata σ ((hpos σ).mp h0)
  · rw [hmeta] at hb
    exact (far_used (by omega)).mpr (.inl hb)
  · rcases far_live hi with rfl | rfl
    · rw [far_root.size]
      exact Nat.zero_le _
    · rw [(far_inode hn).size]
      show (n - 1) * 1024 ≤ 274432
      omega
  · have htwo : i = 2 := by
      refine (far_live hi).resolve_left fun h1 => ?_
      rw [h1, far_root.size] at hlt
      exact absurd hlt (Nat.not_lt_zero _)
    subst htwo
    rw [(far_inode hn).size] at hlt
    have hlt : bn < ((n - 1) * 1024 + 1024 - 1) / 1024 := hlt
    rw [far_slot h13 hn, hpos]
    unfold slotOf
    split
    next hd =>
      show bn + 1 ≤ n
      omega
    next hd =>
      have hD : NDIRECT = 12 := rfl
      have hN : NINDIRECT = 256 := rfl
      show NDIRECT + 2 + (bn - NDIRECT) % NINDIRECT ≤ n
      rw [hD] at hd
      rw [hD, hN]
      omega

theorem far_boot (h13 : 13 ≤ n) (hn : n ≤ 29) : Boot wide (farFs n) where
  divided := far_divided h13 hn
  coherent := ⟨fun h => (by cases h), fun h => (by cases h), fun h => (by cases h)⟩
  held := rfl
  lh := rfl
  ref _ := rfl
  valid := rfl

theorem far_orphan (hn : n ≤ 29) {i : Nat} : Orphan wide (farDisk n) i ↔ i = 2 := by
  constructor
  · intro ho
    refine (far_live ho.live).resolve_left fun h1 => ?_
    have h0 := ho.2.2.2
    rw [h1, far_root.nlink] at h0
    cases h0
  · rintro rfl
    refine ⟨Nat.two_pos, by decide, (far_live_two hn).2, ?_⟩
    rw [(far_inode hn).nlink]
    rfl

/-- Each of its blocks has its bit in another block of the bitmap. -/
theorem far_bitBlocks (h13 : 13 ≤ n) (hn : n ≤ 29) :
    (bitBlocks wide (farDisk n) (onDisk wide (farDisk n) 2)).length = n := by
  have hB : Mkfs.BPB = 8192 := rfl
  have hmem : ∀ b, b ∈ bitBlocks wide (farDisk n) (onDisk wide (farDisk n) 2) ↔
    b ∈ List.range' 35 n := by
    intro b
    rw [mem_bitBlocks, List.mem_range'_1]
    constructor
    · rintro ⟨σ, h0, rfl⟩
      rw [far_slot h13 hn] at h0 ⊢
      have hpos := slotNum_pos σ
      have hle := (far_ne_zero hpos).mp h0
      show 35 ≤ far n (slotNum σ) / 8192 + 34 ∧ far n (slotNum σ) / 8192 + 34 < 35 + n
      unfold far
      rw [if_pos hle, hB]
      omega
    · rintro ⟨hlo, hhi⟩
      have hnum : b - 34 < NDIRECT + 2 + NINDIRECT := by
        show b - 34 < 270
        omega
      obtain ⟨σ, hσ⟩ := exists_slotNum (by omega) hnum
      refine ⟨σ, ?_, ?_⟩
      · rw [far_slot h13 hn]
        refine (far_ne_zero (slotNum_pos σ)).mpr ?_
        omega
      · rw [far_slot h13 hn, hσ]
        show b = far n (b - 34) / 8192 + 34
        unfold far
        rw [if_pos (by omega), hB]
        omega
  have hperm : (bitBlocks wide (farDisk n) (onDisk wide (farDisk n) 2)).Perm (List.range' 35 n) :=
    (List.perm_ext_iff_of_nodup (List.nodup_dedup _) List.nodup_range').mpr hmem
  rw [hperm.length_eq, List.length_range']

/-! ## The start -/

/-- `ireclaim` comes to its end, and does what it is for. -/
structure Reclaims (sb : Superblock) (pick : Nat → Option Nat) (s : Fs) : Prop where
  run : wp (ireclaim sb pick) (fun _ s' => Reclaimed sb s.disk s'.disk) (fun _ _ => False) s

theorem Reclaims.root (hl : Layout sb) (hb : Boot sb s) (h : Reclaims sb pick s) :
    ¬Orphan sb s.disk ROOTINO := by
  intro ho
  obtain ⟨_, s', hx, hr⟩ := h.run.returns fun _ _ he => he
  exact hr.none _ (((hb.ireclaim_wp hl).of_ok hx).1 ho)

theorem Reclaims.fits (hl : Layout sb) (hb : Boot sb s) (h : Reclaims sb pick s) {i : Nat}
    (hd : Dead sb s.disk i) : Fits sb s.disk i := by
  obtain ⟨_, s', hx, -⟩ := h.run.returns fun _ _ he => he
  exact ((hb.ireclaim_wp hl).of_ok hx).2.2 i hd

theorem Boot.reclaims (hl : Layout sb) (h : Boot sb s) (hroot : ¬Orphan sb s.disk ROOTINO)
    (hfits : ∀ i, Dead sb s.disk i → Fits sb s.disk i) :
    Reclaims sb pick s := by
  refine ⟨((h.ireclaim_wp hl).mono fun _ _ hr => hr.2.1 hroot).monoStop fun _ _ he => ?_⟩
  obtain ⟨i, hd, hn⟩ := he
  exact hn (hfits i hd)

/-- On a disk that is not too large every orphan fits. -/
theorem Boot.reclaims_of_size (hl : Layout sb) (h : Boot sb s)
    (hroot : ¬Orphan sb s.disk ROOTINO) (hsize : sb.size ≤ (LOGBLOCKS - 2) * Mkfs.BPB) :
    Reclaims sb pick s := by
  have hlog : LOGBLOCKS = 30 := rfl
  have hB : Mkfs.BPB = 8192 := rfl
  refine h.reclaims hl hroot fun i hd => ?_
  have hsub : ∀ b, b ∈ bitBlocks sb s.disk (onDisk sb s.disk i) → b ∈ List.range' sb.bmapstart
    (LOGBLOCKS - 2) := by
    intro b hb
    obtain ⟨σ, h0, rfl⟩ := mem_bitBlocks.mp hb
    have hlt := (h.divided.data i σ hd.orphan.live h0).2
    rw [List.mem_range'_1]
    unfold BBLOCK
    rw [hlog, hB] at hsize
    rw [hlog, hB]
    omega
  have hle := ((List.nodup_dedup _).subperm hsub).length_le
  rwa [List.length_range'] at hle

/-- **`ireclaim`** frees the files without a name, and nothing else, if the root is none of them
and each fits into a transaction. The root stays, held by the first process; if another
does not fit, the system does not start. -/
theorem reclaims_iff (hl : Layout sb) (h : Boot sb s) : Reclaims sb pick s ↔
    ∀ i, Orphan sb s.disk i →
      i ≠ ROOTINO ∧ (bitBlocks sb s.disk (onDisk sb s.disk i)).length ≤ LOGBLOCKS - 2 := by
  refine ⟨fun hr i ho => ?_, fun hall => ?_⟩
  · have hne : i ≠ ROOTINO := fun he => hr.root hl h (he ▸ ho)
    exact ⟨hne, hr.fits hl h ⟨ho, hne⟩⟩
  · exact h.reclaims hl (fun ho => (hall _ ho).1 rfl) fun i hd => (hall i hd.orphan).2

theorem far_fits (h13 : 13 ≤ n) (hn : n ≤ 29) :
    (bitBlocks wide (farFs n).disk (onDisk wide (farFs n).disk 2)).length = n :=
  far_bitBlocks h13 hn

/-- A file of 28 blocks, in as many parts of the disk, is freed. -/
theorem reclaims_far : Reclaims wide (fun _ => none) (farFs 28) := by
  refine (reclaims_iff wide_layout (far_boot (by decide) (by decide))).mpr fun i ho => ?_
  obtain rfl := (far_orphan (n := 28) (by decide)).mp ho
  rw [far_fits (by decide) (by decide)]
  decide

/-- One of 29 is not. -/
theorem not_reclaims_far : ¬Reclaims wide (fun _ => none) (farFs 29) := by
  intro hgood
  have hd : Dead wide (farFs 29).disk 2 := ⟨(far_orphan (by decide)).mpr rfl, by decide⟩
  have hfits := hgood.fits wide_layout (far_boot (by decide) (by decide)) hd
  unfold Fits at hfits
  rw [far_fits (by decide) (by decide)] at hfits
  exact absurd hfits (by decide)

end Xv6.Files
