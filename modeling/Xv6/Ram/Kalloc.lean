import Mathlib.Data.List.Perm.Basic
import Mathlib.Data.List.Nodup
import Mathlib.Data.List.Range
import Xv6.Lib.Bytes
import Xv6.Lib.Run

/-!
# The list of free pages, in the pages

`kalloc.c` keeps no table: a free page begins with the address of the next one.
`kalloc` and `kfree` fill whole pages with junk, outside the lock, and those who have a
page write to it as they like.

  > From `kinit` on the list goes through every page that is not allocated, once, and ends.

`Chain` reads the list in memory. It is kept by every store that goes to a page off
the list (`Chain.keep`), and a page is off the list while anyone has it.

The calls of any number of processes are interleaved: each of them has one step in the
lock and one outside. A page that a call is about to return, or was just given, is that
call's, and counts as allocated.
-/

namespace Xv6.Ram

open Lib
open Lib.Bytes (put)

def PGSIZE : Nat := 4096
def KERNBASE : Nat := 0x80000000
def PHYSTOP : Nat := KERNBASE + 128 * 1024 * 1024

def PGROUNDUP (sz : Nat) : Nat := (sz + PGSIZE - 1) / PGSIZE * PGSIZE

/-! ## The allocator -/

/-- Memory, and `kmem.freelist`, where 0 is no page. -/
structure Kmem where
  mem : Nat → UInt8
  freelist : Nat

def memset (m : Nat → UInt8) (dst : Nat) (c : UInt8) (n : Nat) : Nat → UInt8 :=
  fun a => if dst ≤ a ∧ a < dst + n then c else m a

/-- `r->next`. -/
def next (m : Nat → UInt8) (r : Nat) : Nat := Bytes.get m r 8

/-- `kfree`, in the lock. -/
def link (k : Kmem) (r : Nat) : Kmem := { mem := put k.mem r 8 k.freelist, freelist := r }

/-- `kalloc`, in the lock. -/
def unlink (k : Kmem) : Nat × Kmem :=
  (k.freelist, if k.freelist = 0 then k else { k with freelist := next k.mem k.freelist })

/-- A store to memory. -/
def Kmem.fill (k : Kmem) (r : Nat) (c : UInt8) : Kmem := { k with mem := memset k.mem r c PGSIZE }

section Kernel

-- `end`, the first address after the kernel
variable (kend : Nat)

/-- The test `kfree` starts with. -/
def refuses (pa : Nat) : Prop := pa % PGSIZE ≠ 0 ∨ pa < kend ∨ PHYSTOP ≤ pa

instance (pa : Nat) : Decidable (refuses kend pa) := inferInstanceAs (Decidable (_ ∨ _))

/-- None if it panics. -/
def kfree (k : Kmem) (pa : Nat) : Option Kmem :=
  if refuses kend pa then none else some (link (k.fill pa 1) pa)

def kalloc (k : Kmem) : Nat × Kmem :=
  ((unlink k).1, if (unlink k).1 = 0 then (unlink k).2 else (unlink k).2.fill (unlink k).1 5)

/-- The loop of `freerange`, from `p` on. -/
def freerangeFrom (pa_end p : Nat) (k : Kmem) : Option Kmem :=
  if _h : p + PGSIZE ≤ pa_end then (kfree kend k p).bind (freerangeFrom pa_end
    (p + PGSIZE)) else some k
termination_by pa_end - p
decreasing_by
  have hpos : 0 < PGSIZE := by decide
  omega

def freerange (pa_start pa_end : Nat) (k : Kmem) : Option Kmem :=
  freerangeFrom kend pa_end (PGROUNDUP pa_start) k

def kinit (k : Kmem) : Option Kmem := freerange kend kend PHYSTOP k

/-! ## Its runs -/

structure Sys where
  kmem : Kmem
  /-- the pages that `kalloc` returned and that are not given to `kfree` yet -/
  owned : List Nat
  /-- those that a call of `kalloc` has taken, and is to fill with junk -/
  taken : List Nat
  /-- those that a call of `kfree` has filled with junk, and is to put on the list -/
  given : List Nat

inductive Act
  /-- `kalloc`: the lock -/
  | take
  /-- `kalloc`: `memset` and return -/
  | ret (r : Nat)
  /-- `kfree`: the test and `memset` -/
  | kfree (pa : Nat)
  /-- `kfree`: the lock -/
  | link (pa : Nat)
  /-- who has a page writes to it -/
  | write (pa off : Nat) (b : UInt8)

/-- None if the step is not one that can be taken, or panics. -/
def step (s : Sys) : Act → Option Sys
  | .take =>
    some { s with
      kmem := (unlink s.kmem).2
      taken := if (unlink s.kmem).1 = 0 then s.taken else (unlink s.kmem).1 :: s.taken }
  | .ret r =>
    if r ∈ s.taken then
      some { s with kmem := s.kmem.fill r 5, taken := s.taken.erase r, owned := r :: s.owned }
    else none
  | .kfree pa =>
    if pa ∈ s.owned ∧ ¬refuses kend pa then
      some { s with kmem := s.kmem.fill pa 1, owned := s.owned.erase pa, given := pa :: s.given }
    else none
  | .link pa =>
    if pa ∈ s.given then
      some { s with kmem := Ram.link s.kmem pa, given := s.given.erase pa }
    else none
  | .write pa off b =>
    if pa ∈ s.owned ∧ off < PGSIZE then
      some { s with kmem := { s.kmem with mem := Function.update s.kmem.mem (pa + off) b } }
    else none

/-- The state `kinit` leaves; `kmem` is in the `.bss`. -/
def Boot (s : Sys) : Prop :=
  ∃ k, k.freelist = 0 ∧ kinit kend k = some s.kmem ∧ s.owned = [] ∧ s.taken = [] ∧ s.given = []

/-- The pages that are not free. -/
def Sys.allocated (s : Sys) : List Nat := s.owned ++ s.taken ++ s.given

/-- The pages that lie wholly between the kernel and the end of memory. -/
def frames : List Nat :=
  (List.range ((PHYSTOP - PGROUNDUP kend) / PGSIZE)).map fun i => PGROUNDUP kend + i * PGSIZE

end Kernel

/-! ## A call that is not interrupted -/

theorem kalloc_run (kend : Nat) (s : Sys) (h : (kalloc s.kmem).1 ≠ 0) :
    runFrom (step kend) s [.take, .ret (kalloc s.kmem).1] =
      some { s with kmem := (kalloc s.kmem).2, owned := (kalloc s.kmem).1 :: s.owned } := by
  have hu : (unlink s.kmem).1 ≠ 0 := h
  unfold kalloc
  simp only [runFrom_cons, runFrom_nil, step, if_neg hu, Option.bind_some,
    List.mem_cons_self, if_true,
    List.erase_cons_head]

theorem kfree_run {kend : Nat} {s : Sys} {pa : Nat} {k : Kmem} (hpa : pa ∈ s.owned)
    (h : kfree kend s.kmem pa = some k) :
    runFrom (step kend) s [.kfree pa, .link pa] =
      some { s with kmem := k, owned := s.owned.erase pa } := by
  unfold kfree at h
  split at h
  next => cases h
  next hr =>
    rw [← Option.some.inj h]
    simp only [runFrom_cons, runFrom_nil, step, if_pos (And.intro hpa hr), Option.bind_some,
      List.mem_cons_self,
      if_true, List.erase_cons_head]

/-! ## The list in memory -/

variable {m m' : Nat → UInt8} {p r pa c : Nat} {l : List Nat} {k : Kmem} {s s' : Sys} {kend : Nat}

/-- From `p` on, memory links the pages `l`. -/
def Chain (m : Nat → UInt8) : Nat → List Nat → Prop
  | p, [] => p = 0
  | p, r :: l => p = r ∧ r ≠ 0 ∧ Chain m (next m r) l

/-- **A store off the list** does not change it. -/
theorem Chain.keep (h : ∀ r, r ∈ l → ∀ i, i < 8 → m' (r + i) = m (r + i)) :
    ∀ p, Chain m p l → Chain m' p l := by
  induction l with
  | nil => exact fun p hc => hc
  | cons r l ih =>
    intro p hc
    obtain ⟨hp, h0, hc⟩ := hc
    have hn : next m' r = next m r := Bytes.get_congr fun i hi => h r List.mem_cons_self i hi
    refine ⟨hp, h0, ?_⟩
    rw [hn]
    exact ih (fun r' hr' => h r' (List.mem_cons_of_mem _ hr')) _ hc

theorem mem_frames : pa ∈ frames kend ↔ pa % PGSIZE = 0 ∧ PGROUNDUP kend ≤ pa ∧
    pa + PGSIZE ≤ PHYSTOP := by
  have hP : PGSIZE = 4096 := rfl
  have hmod : PGROUNDUP kend % PGSIZE = 0 := Nat.mul_mod_left _ _
  unfold frames
  rw [List.mem_map, hP] at *
  constructor
  · intro ⟨i, hi, he⟩
    have hi := List.mem_range.mp hi
    omega
  · intro ⟨h0, hlo, hhi⟩
    exact ⟨(pa - PGROUNDUP kend) / 4096, List.mem_range.mpr (by omega), by omega⟩

theorem frames_nodup (kend : Nat) : (frames kend).Nodup := by
  have hP : PGSIZE = 4096 := rfl
  refine List.Nodup.map (fun i j he => ?_) List.nodup_range
  have he : PGROUNDUP kend + i * PGSIZE = PGROUNDUP kend + j * PGSIZE := he
  rw [hP] at he
  omega

theorem le_PGROUNDUP (a : Nat) : a ≤ PGROUNDUP a := by
  have hP : PGSIZE = 4096 := rfl
  unfold PGROUNDUP
  rw [hP]
  omega

/-- No page of the stock is refused. -/
theorem not_refuses (h : pa ∈ frames kend) : ¬refuses kend pa := by
  obtain ⟨h0, hlo, hhi⟩ := mem_frames.mp h
  have hle := le_PGROUNDUP kend
  have hP : PGSIZE = 4096 := rfl
  unfold refuses
  omega

/-- The bytes of two pages are different ones. -/
theorem page_apart (hr : r ∈ frames kend) (hpa : pa ∈ frames kend) (hne : r ≠ pa)
    {i : Nat} (hi : i < 8) :
    r + i < pa ∨ pa + PGSIZE ≤ r + i := by
  have h1 := (mem_frames.mp hr).1
  have h2 := (mem_frames.mp hpa).1
  have hP : PGSIZE = 4096 := rfl
  rw [hP] at h1 h2 ⊢
  omega

theorem memset_of_out {n a : Nat} {c : UInt8} (h : a < pa ∨ pa + n ≤ a) :
    memset m pa c n a = m a := by
  unfold memset
  rw [if_neg (by omega)]

/-- **A store to a page** off the list. -/
theorem Chain.store (hc : Chain m p l) (hl : ∀ r, r ∈ l → r ∈ frames kend)
    (hpa : pa ∈ frames kend) (hn : pa ∉ l)
    (hm : ∀ a, a < pa ∨ pa + PGSIZE ≤ a → m' a = m a) : Chain m' p l :=
  Chain.keep (fun r hr _ hi => hm _ (page_apart (hl r hr) hpa (fun he => hn (he ▸ hr)) hi)) _ hc

/-- **A page** is put on the list: its first bytes are the link. -/
theorem Chain.put (hc : Chain k.mem k.freelist l)
    (hl : ∀ r, r ∈ l → r ∈ frames kend) (h0 : 0 < kend)
    (hpa : pa ∈ frames kend) (hn : pa ∉ l) : Chain (link k pa).mem pa (pa :: l) := by
  have hP : PGSIZE = 4096 := rfl
  have hf := mem_frames.mp hpa
  have hle := le_PGROUNDUP kend
  have hlt : k.freelist < 256 ^ 8 := by
    cases l with
    | nil =>
      rw [show k.freelist = 0 from hc]
      decide
    | cons r l =>
      have hr := (mem_frames.mp (hl r List.mem_cons_self)).2.2
      rw [hc.1]
      exact Nat.lt_of_lt_of_le (show r < PHYSTOP by omega) (by decide)
  have hnext : next (link k pa).mem pa = k.freelist := Bytes.get_put _ _ _ hlt
  refine ⟨rfl, by omega, ?_⟩
  rw [hnext]
  exact hc.store hl hpa hn fun a ha => Bytes.put_of_out _ (by omega)

/-! ## One step -/

/-- The list is `l`, and what is not on it is allocated. -/
structure FreeList (kend : Nat) (s : Sys) (l : List Nat) : Prop where
  chain : Chain s.kmem.mem s.kmem.freelist l
  perm : (l ++ s.allocated).Perm (frames kend)

theorem FreeList.nodup (h : FreeList kend s l) : (l ++ s.allocated).Nodup :=
  h.perm.nodup_iff.mpr (frames_nodup kend)

theorem FreeList.free (h : FreeList kend s l) (hr : r ∈ l) : r ∈ frames kend :=
  h.perm.mem_iff.mp (List.mem_append_left _ hr)

theorem FreeList.frame (h : FreeList kend s l) (hpa : pa ∈ s.allocated) : pa ∈ frames kend :=
  h.perm.mem_iff.mp (List.mem_append_right _ hpa)

theorem FreeList.off (h : FreeList kend s l) (hpa : pa ∈ s.allocated) : pa ∉ l :=
  fun hl => (List.nodup_append.mp h.nodup).2.2 pa hl pa hpa rfl

/-- **Who has a page** may store to it. -/
theorem FreeList.store (h : FreeList kend s l) (hpa : pa ∈ s.allocated)
    (hm : ∀ a, a < pa ∨ pa + PGSIZE ≤ a → m' a = s.kmem.mem a) : Chain m' s.kmem.freelist l :=
  h.chain.store (fun _ => h.free) (h.frame hpa) (h.off hpa) hm

/-- **The first page** is taken off the list. -/
theorem FreeList.take (h : FreeList kend s l) :
    ((unlink s.kmem).1 = 0 → l = [] ∧ (unlink s.kmem).2 = s.kmem) ∧
    ((unlink s.kmem).1 ≠ 0 → ∃ l', l = (unlink s.kmem).1 :: l' ∧
      Chain (unlink s.kmem).2.mem (unlink s.kmem).2.freelist l') := by
  have hc := h.chain
  unfold unlink
  cases l with
  | nil =>
    have hc : s.kmem.freelist = 0 := hc
    exact ⟨fun _ => ⟨rfl, if_pos hc⟩, fun hn => absurd hc hn⟩
  | cons r l =>
    obtain ⟨hp, h0, hc⟩ := hc
    refine ⟨fun hz => absurd (hp.symm.trans hz) h0, fun hn => ⟨l, by rw [hp], ?_⟩⟩
    dsimp only
    rw [if_neg hn, hp]
    exact hc

/-! ## Every step -/

theorem mem_owned (h : pa ∈ s.owned) : pa ∈ s.allocated :=
  List.mem_append_left _ (List.mem_append_left _ h)

theorem mem_taken (h : pa ∈ s.taken) : pa ∈ s.allocated :=
  List.mem_append_left _ (List.mem_append_right _ h)

theorem mem_given (h : pa ∈ s.given) : pa ∈ s.allocated := List.mem_append_right _ h

theorem FreeList.step (h : FreeList kend s l) (h0 : 0 < kend) {a : Act}
    (hs : step kend s a = some s') :
    ∃ l', FreeList kend s' l' := by
  cases a with
  | take =>
    cases hs
    -- the list is empty, or its first page is taken
    by_cases hz : (unlink s.kmem).1 = 0
    · obtain ⟨-, hsame⟩ := h.take.1 hz
      refine ⟨l, ?_, ?_⟩
      · dsimp only
        rw [hsame]
        exact h.chain
      · show (l ++ (s.owned ++ (if _ then _ else _) ++ s.given)).Perm _
        rw [if_pos hz]
        exact h.perm
    · obtain ⟨l', hl, hc⟩ := h.take.2 hz
      refine ⟨l', hc, ?_⟩
      have hperm := h.perm
      rw [hl] at hperm
      show (l' ++ (s.owned ++ (if _ then _ else _) ++ s.given)).Perm _
      rw [if_neg hz]
      refine List.Perm.trans ?_ hperm
      unfold Sys.allocated
      rw [List.append_assoc, List.append_assoc, List.cons_append, List.cons_append]
      exact (List.perm_middle.append_left l').trans List.perm_middle
  | ret r =>
    simp only [Ram.step] at hs
    split at hs
    next hr =>
      cases hs
      refine ⟨l, h.store (mem_taken hr) fun a ha => memset_of_out ha, List.Perm.trans ?_ h.perm⟩
      refine List.Perm.append_left l (List.Perm.append_right _ ?_)
      show (r :: s.owned ++ s.taken.erase r).Perm (s.owned ++ s.taken)
      exact List.perm_middle.symm.trans ((List.perm_cons_erase hr).symm.append_left _)
    next => cases hs
  | kfree pa =>
    simp only [Ram.step] at hs
    split at hs
    next hr =>
      cases hs
      refine ⟨l, h.store (mem_owned hr.1) fun a ha => memset_of_out ha, List.Perm.trans ?_ h.perm⟩
      refine List.Perm.append_left l ?_
      show (s.owned.erase pa ++ s.taken ++ pa :: s.given).Perm (s.owned ++ s.taken ++ s.given)
      refine List.perm_middle.trans ?_
      rw [← List.cons_append, ← List.cons_append]
      exact ((List.perm_cons_erase hr.1).symm.append_right _).append_right _
    next => cases hs
  | link pa =>
    simp only [Ram.step] at hs
    split at hs
    next hr =>
      cases hs
      refine ⟨pa :: l, h.chain.put (fun _ => h.free) h0 (h.frame (mem_given hr))
        (h.off (mem_given hr)), List.Perm.trans ?_ h.perm⟩
      show (pa :: (l ++ (s.owned ++ s.taken ++ s.given.erase pa))).Perm
        (l ++ (s.owned ++ s.taken ++ s.given))
      have hassoc : ∀ g, l ++ (s.owned ++ s.taken ++ g) = l ++ (s.owned ++ s.taken) ++ g := fun g =>
        (List.append_assoc _ _ _).symm
      rw [hassoc, hassoc]
      exact List.perm_middle.symm.trans ((List.perm_cons_erase hr).symm.append_left _)
    next => cases hs
  | write pa off b =>
    simp only [Ram.step] at hs
    split at hs
    next hr =>
      cases hs
      refine ⟨l, h.store (mem_owned hr.1) fun a ha => Function.update_of_ne ?_ _ _, h.perm⟩
      have hP : PGSIZE = 4096 := rfl
      omega
    next => cases hs

/-! ## Booting -/

/-- **The loop of `freerange`**: the pages below `p` are on the list, all of them. -/
theorem freerange_list (h0 : 0 < kend) :
    ∀ n i (k : Kmem), i + n = (PHYSTOP - PGROUNDUP kend) / PGSIZE →
    (∃ l, Chain k.mem k.freelist l ∧
      l.Perm ((List.range i).map fun j => PGROUNDUP kend + j * PGSIZE)) →
    ∃ k', freerangeFrom kend PHYSTOP (PGROUNDUP kend + i * PGSIZE) k = some k' ∧
      ∃ l, Chain k'.mem k'.freelist l ∧ l.Perm (frames kend) := by
  have hP : PGSIZE = 4096 := rfl
  intro n
  induction n with
  | zero =>
    intro i k hi ⟨l, hc, hl⟩
    rw [Nat.add_zero] at hi
    subst hi
    refine ⟨k, ?_, l, hc, hl⟩
    rw [freerangeFrom, dif_neg]
    rw [hP]
    omega
  | succ n ih =>
    intro i k hi ⟨l, hc, hl⟩
    have hin : i < (PHYSTOP - PGROUNDUP kend) / PGSIZE := by omega
    have hframe : PGROUNDUP kend + i * PGSIZE ∈ frames kend :=
      List.mem_map.mpr ⟨i, List.mem_range.mpr hin, rfl⟩
    have hle := (mem_frames.mp hframe).2.2
    have hfree : ∀ r, r ∈ l → r ∈ frames kend := by
      intro r hr
      obtain ⟨j, hj, he⟩ := List.mem_map.mp (hl.mem_iff.mp hr)
      exact List.mem_map.mpr ⟨j, List.mem_range.mpr (Nat.lt_trans (List.mem_range.mp hj) hin), he⟩
    have hoff : PGROUNDUP kend + i * PGSIZE ∉ l := by
      intro hm
      obtain ⟨j, hj, he⟩ := List.mem_map.mp (hl.mem_iff.mp hm)
      have hj := List.mem_range.mp hj
      rw [hP] at he
      omega
    have hfill : Chain (k.fill (PGROUNDUP kend + i * PGSIZE) 1).mem k.freelist l :=
      hc.store hfree hframe hoff fun a ha => memset_of_out ha
    rw [freerangeFrom, dif_pos hle, kfree, if_neg (not_refuses hframe), Option.bind_some,
      Nat.add_assoc,
      ← Nat.succ_mul]
    refine ih (i + 1) _ (by omega) ⟨_, Chain.put hfill hfree h0 hframe hoff, ?_⟩
    rw [List.range_succ, List.map_append]
    exact (hl.cons _).trans (List.perm_append_singleton _ _).symm

theorem kinit_list (h0 : 0 < kend) (k : Kmem) (hk : k.freelist = 0) :
    ∃ k', kinit kend k = some k' ∧ ∃ l, Chain k'.mem k'.freelist l ∧ l.Perm (frames kend) := by
  have hloop := freerange_list h0 _ 0 k (Nat.zero_add _) ⟨[], hk, List.Perm.refl _⟩
  rw [Nat.zero_mul, Nat.add_zero] at hloop
  exact hloop

/-- **The page allocator**: `kinit` and `kfree` do not panic, the list goes through the pages
that are not allocated, each of them once, and `kalloc` returns 0 when there is none. -/
theorem page_allocator (h0 : 0 < kend) :
    (∀ k, k.freelist = 0 → ∃ k', kinit kend k = some k') ∧
    (∀ f, f ∈ frames kend ↔ f % PGSIZE = 0 ∧ PGROUNDUP kend ≤ f ∧ f + PGSIZE ≤ PHYSTOP) ∧
    (frames kend).Nodup ∧
    ∀ s, Reach (step kend) Any (Boot kend) s →
      (∃ l, Chain s.kmem.mem s.kmem.freelist l ∧ (l ++ s.allocated).Nodup ∧
        ∀ f, f ∈ frames kend ↔ f ∈ l ∨ f ∈ s.allocated) ∧
      (∀ pa, pa ∈ s.allocated → ¬refuses kend pa) ∧
      ((unlink s.kmem).1 = 0 → ∀ f, f ∈ frames kend → f ∈ s.allocated) := by
  refine ⟨fun k hk => ?_, fun f => mem_frames, frames_nodup kend, fun s hs => ?_⟩
  · obtain ⟨k', hk', -⟩ := kinit_list h0 k hk
    exact ⟨k', hk'⟩
  · have hinv : ∃ l, FreeList kend s l := by
      refine Reach.ghost (fun s hb => ?_) (fun h _ hstep => h.step h0 hstep) hs
      obtain ⟨k, hk0, hk, h1, h2, h3⟩ := hb
      obtain ⟨k', hk', l, hc, hl⟩ := kinit_list h0 k hk0
      rw [hk, Option.some.injEq] at hk'
      subst hk'
      refine ⟨l, hc, ?_⟩
      unfold Sys.allocated
      rw [h1, h2, h3, List.append_nil, List.append_nil, List.append_nil]
      exact hl
    obtain ⟨l, h⟩ := hinv
    have hmem : ∀ f, f ∈ frames kend ↔ f ∈ l ∨ f ∈ s.allocated := fun f => by
      rw [← h.perm.mem_iff, List.mem_append]
    refine ⟨⟨l, h.chain, h.nodup, hmem⟩, fun pa hpa => not_refuses (h.frame hpa), fun hz f hf => ?_⟩
    have hnil := (h.take.1 hz).1
    rw [hnil] at hmem
    exact ((hmem f).mp hf).resolve_left List.not_mem_nil

/-- A page that is written to before it is given back. -/
theorem give_run (hpa : pa ∈ s.owned) (hr : ¬refuses kend pa) (b : UInt8) :
    ∃ k, runFrom (step kend) s [.write pa 0 b, .kfree pa, .link pa] =
      some { s with kmem := k, owned := s.owned.erase pa } := by
  have hwrite : step kend s (.write pa 0 b) =
      some { s with kmem := { s.kmem with mem := Function.update s.kmem.mem (pa + 0) b } } :=
    if_pos ⟨hpa, by decide⟩
  rw [runFrom_cons, hwrite, Option.bind_some]
  exact ⟨_, kfree_run hpa (if_neg hr)⟩

theorem page_allocator_full : ∃ s₀ s₁ s₂ pa, Boot 0x80022000 s₀ ∧
    runFrom (step 0x80022000) s₀ [.take, .ret pa] = some s₁ ∧ s₁.allocated = [pa] ∧
    ¬refuses 0x80022000 pa ∧
    runFrom (step 0x80022000) s₁ [.write pa 0 7, .kfree pa, .link pa] = some s₂ ∧
    ∃ l, Chain s₂.kmem.mem s₂.kmem.freelist l ∧ l.Nodup ∧
      ∀ f, f ∈ frames 0x80022000 ↔ f ∈ l := by
  obtain ⟨hinit, -, -, hall⟩ := page_allocator (show 0 < 0x80022000 by decide)
  obtain ⟨k, hk⟩ := hinit ⟨fun _ => 0, 0⟩ rfl
  have hboot : Boot 0x80022000 ⟨k, [], [], []⟩ := ⟨_, rfl, hk, rfl, rfl, rfl⟩
  -- there is a page to take
  have hpage : (kalloc k).1 ≠ 0 := by
    intro hz
    have hframe : 0x80022000 ∈ frames 0x80022000 := mem_frames.mpr (by decide)
    exact List.not_mem_nil ((hall _ (.start hboot)).2.2 hz _ hframe)
  have htake := kalloc_run 0x80022000 ⟨k, [], [], []⟩ hpage
  have hreach := Reach.of_run _ (.start hboot) (RunOk.any (step 0x80022000) _ _) htake
  have hok := (hall _ hreach).2.1 (kalloc k).1 List.mem_cons_self
  obtain ⟨k', hgive⟩ := give_run (s := ⟨(kalloc k).2, [(kalloc k).1], [], []⟩)
    List.mem_cons_self hok 7
  have hback : Sys.allocated ⟨k', [(kalloc k).1].erase (kalloc k).1, [], []⟩ = [] := by
    rw [List.erase_cons_head]
    rfl
  obtain ⟨l, hchain, hnodup, hmem⟩ :=
    (hall _ (Reach.of_run _ hreach (RunOk.any (step 0x80022000) _ _) hgive)).1
  refine ⟨_, _, _, _, hboot, htake, rfl, hok, hgive, l, hchain, ?_, fun f => ?_⟩
  · exact (List.nodup_append.mp hnodup).1
  · rw [hmem, hback]
    exact or_iff_left List.not_mem_nil

end Xv6.Ram
