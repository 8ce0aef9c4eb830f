import Xv6.Bio.Machine

/-!
# The list of buffers

What `bcache.head`'s list is, over whole runs:

> `CacheInv`: the pointers form one circle through the sentinel, on which every
> buffer hangs once, most recently freed first; and no block of `ROOTDEV` is in two
> buffers.

The order is that of the last `brelse` that brought a count to zero (`Older`), and
a buffer never freed is older than one that was, in the order of `binit`. Only
`brelse` moves a buffer, to the front, and it is then the one freed last; a pin
keeps the count above zero and its removal moves nothing, so pins do not disturb
the order, they only delay the move.

The two loops of `bget` become `List.find?` on that list (`bget_cases`). The first
looks at every buffer, which is why a block is never cached twice; the second goes
backwards and stops at the first unused buffer, which is the oldest.
-/

namespace Xv6.Bio

open Lib
open Log (NBUF BufId)

variable {P : Type} [DecidableEq P]

/-! ## The assignments -/

theorem unlink_circle {l : Links} {xs ys : List Node} {b : Node}
    (h : Circle l.next l.prev head (xs ++ b :: ys)) :
    Circle (l.unlink b).next (l.unlink b).prev head (xs ++ ys) := by
  have hu := h.unlink
  -- the second assignment reads `b->prev`, which the first has not touched
  have hne : b ≠ l.next b := by
    intro he
    have hlast := h.next_eq
    rw [← he] at hlast
    obtain ⟨hh, hnd⟩ := List.nodup_cons.mp h.nodup
    have hmem : b ∈ head :: ys.reverse := hlast ▸ List.getLast_mem _
    rcases List.mem_cons.mp hmem with he' | hy
    · exact hh (he' ▸ List.mem_append_right _ List.mem_cons_self)
    · exact (List.nodup_cons.mp (List.nodup_append.mp hnd).2.1).1 (List.mem_reverse.mp hy)
  have hprev : (l.setPrev (l.next b) (l.prev b)).prev b = l.prev b := Function.update_of_ne hne _ _
  unfold Links.unlink
  dsimp only
  rw [hprev]
  exact hu

theorem pushFront_circle {l : Links} {xs : List Node} {b : Node}
    (h : Circle l.next l.prev head xs) (hb : b ∉ head :: xs) :
    Circle (l.pushFront b).next (l.pushFront b).prev head (b :: xs) := by
  have hi := h.insert hb
  have hne : head ≠ b := fun he => hb (he ▸ List.mem_cons_self)
  have hnext : ((l.setNext b (l.next head)).setPrev b head).next head = l.next head :=
    Function.update_of_ne hne _ _
  unfold Links.pushFront
  dsimp only
  rw [hnext]
  exact hi

theorem some_mem {i : BufId} {xs : List BufId} :
    (some i : Node) ∈ xs.map some ↔ i ∈ xs := by
  simp

theorem head_notMem (xs : List BufId) : head ∉ xs.map some := by
  simp

/-- `binit`, as far as it has come. -/
theorem binit_circle : ∀ (is : List BufId) {l : Links} {xs : List BufId},
    Circle l.next l.prev head (xs.map some) → (is.reverse ++ xs).Nodup →
    Circle (is.foldl (fun l i => l.pushFront (some i)) l).next
      (is.foldl (fun l i => l.pushFront (some i)) l).prev head ((is.reverse ++ xs).map some) := by
  intro is
  induction is with
  | nil => intro l xs h _; exact h
  | cons i is ih =>
    intro l xs h hnd
    rw [List.reverse_cons, List.append_assoc, List.singleton_append] at hnd ⊢
    have hfront : Circle (l.pushFront (some i)).next (l.pushFront (some i)).prev head
        ((i :: xs).map some) := pushFront_circle h fun hm => ?_
    · exact ih hfront hnd
    have hi := (List.nodup_cons.mp (List.nodup_append.mp hnd).2.1).1
    rcases List.mem_cons.mp hm with he | hm
    · cases he
    · exact hi (some_mem.mp hm)

/-! ## The invariant -/

/-- Buffer `i` was freed before buffer `j`. -/
def Older (freed : BufId → Option Nat) (i j : BufId) : Prop :=
  match freed i, freed j with
  | none, none => i < j
  | none, some _ => True
  | some _, none => False
  | some t, some u => t < u

/-- No block of `ROOTDEV` is in two buffers. -/
def Unique (buf : BufId → Buf P) : Prop :=
  ∀ i j, (buf i).dev = rootdev → (buf j).dev = rootdev → (buf i).blockno = (buf j).blockno → i = j

omit [DecidableEq P] in
theorem Unique.congr {buf buf' : BufId → Buf P} (h : Unique buf)
    (hb : ∀ i, (buf' i).dev = (buf i).dev ∧ (buf' i).blockno = (buf i).blockno) :
    Unique buf' := by
  intro i j
  rw [(hb i).1, (hb j).1, (hb i).2, (hb j).2]
  exact h i j

omit [DecidableEq P] in
/-- A buffer is given a block that no other has. -/
theorem Unique.update {buf : BufId → Buf P} (h : Unique buf) {i : BufId} {x : Buf P}
    (hno : ∀ j, (buf j).dev = rootdev → (buf j).blockno ≠ x.blockno) :
    Unique (Function.update buf i x) := by
  intro j k hj hk hjk
  by_cases hji : j = i <;> by_cases hki : k = i
  · rw [hji, hki]
  · rw [Function.update_of_ne hki] at hk
    rw [hji, Function.update_self, Function.update_of_ne hki] at hjk
    exact absurd hjk.symm (hno k hk)
  · rw [Function.update_of_ne hji] at hj
    rw [hki, Function.update_self, Function.update_of_ne hji] at hjk
    exact absurd hjk (hno j hj)
  · rw [Function.update_of_ne hji] at hj hjk
    rw [Function.update_of_ne hki] at hk hjk
    exact h j k hj hk hjk

structure CacheInv (s : Sys P) : Prop where
  list : ∃ xs : List BufId, Circle s.links.next s.links.prev head (xs.map some) ∧ (∀ i, i ∈ xs) ∧
    xs.Pairwise fun i j => Older s.freed j i
  clock : ∀ i t, s.freed i = some t → t < s.clock
  unique : Unique s.buf

theorem nodup_of_circle {next prev : Node → Node} {xs : List BufId}
    (h : Circle next prev head (xs.map some)) : xs.Nodup :=
  List.Nodup.of_map _ (List.nodup_cons.mp h.nodup).2

section

omit [DecidableEq P]

theorem boot_inv {s : Sys P} (h : Boot s) : CacheInv s := by
  have hfin : ∀ i : BufId, i ∈ (List.finRange NBUF).reverse ++ [] := by
    intro i
    rw [List.append_nil, List.mem_reverse]
    exact List.mem_finRange i
  refine ⟨⟨(List.finRange NBUF).reverse ++ [], ?_, hfin, ?_⟩, fun i t ht => ?_, fun i j hi => ?_⟩
  · rw [h.links]
    refine binit_circle (List.finRange NBUF) ⟨by simp, rfl, rfl⟩ ?_
    rw [List.append_nil, List.nodup_reverse]
    exact List.nodup_finRange NBUF
  · -- the last one put in front is the youngest
    rw [List.append_nil, List.pairwise_reverse]
    refine (List.pairwise_lt_finRange NBUF).imp fun {i j} hij => ?_
    rw [Older, h.freed, h.freed]
    exact hij
  · rw [h.freed] at ht
    cases ht
  · rw [h.buf] at hi
    exact absurd (show (0 : BitVec 32) = rootdev from hi) (by decide)

/-- A step that leaves the list, the stamps and the blocks alone. -/
theorem CacheInv.keep {s s' : Sys P} (h : CacheInv s) (hl : s'.links = s.links)
    (hf : s'.freed = s.freed) (hc : s'.clock = s.clock)
    (hb : ∀ i, (s'.buf i).dev = (s.buf i).dev ∧ (s'.buf i).blockno = (s.buf i).blockno) :
    CacheInv s' := by
  exact ⟨by rw [hl, hf]; exact h.list, by rw [hf, hc]; exact h.clock, h.unique.congr hb⟩

theorem setBuf_id {s : Sys P} {i : BufId} {x : Buf P} (hd : x.dev = (s.buf i).dev)
    (hb : x.blockno = (s.buf i).blockno) (j : BufId) :
    ((s.setBuf i x).buf j).dev = (s.buf j).dev ∧
      ((s.setBuf i x).buf j).blockno = (s.buf j).blockno := by
  by_cases hj : j = i
  · rw [hj, Sys.setBuf_self]
    exact ⟨hd, hb⟩
  · rw [Sys.setBuf_ne s x hj]
    exact ⟨rfl, rfl⟩

end

/-! ## `brelse` -/

/-- The last one freed is the youngest. -/
theorem older_last {freed : BufId → Option Nat} {clock : Nat}
    (h : ∀ i t, freed i = some t → t < clock)
    {i j : BufId} (hj : j ≠ i) : Older (Function.update freed i (some clock)) j i := by
  rw [Older, Function.update_self, Function.update_of_ne hj]
  cases hf : freed j with
  | none => trivial
  | some t => exact h j t hf

theorem older_update {freed : BufId → Option Nat} {i j k : BufId} {t : Nat} (hj : j ≠ i)
    (hk : k ≠ i) : Older (Function.update freed i (some t)) j k ↔ Older freed j k := by
  rw [Older, Older, Function.update_of_ne hj, Function.update_of_ne hk]

/-- **The six assignments** move the buffer to the front, which is what
`Log.Sys.unref` says of the list. -/
theorem release_circle {l : Links} {xs : List BufId} {i : BufId}
    (h : Circle l.next l.prev head (xs.map some)) (hi : i ∈ xs) :
    Circle ((l.unlink (some i)).pushFront (some i)).next
      ((l.unlink (some i)).pushFront (some i)).prev head ((i :: xs.erase i).map some) := by
  have hnd := nodup_of_circle h
  have hfresh : some i ∉ head :: (xs.erase i).map some := by
    intro hm
    rcases List.mem_cons.mp hm with he | hm
    · cases he
    · exact hnd.not_mem_erase (some_mem.mp hm)
  obtain ⟨as, bs, hmem, rfl, herase⟩ := List.exists_erase_eq hi
  rw [List.map_append, List.map_cons] at h
  have hu := unlink_circle h
  rw [← List.map_append, ← herase] at hu
  exact pushFront_circle hu hfresh

omit [DecidableEq P] in
/-- **The end of `brelse`**: the buffer it frees is in front, and the youngest. -/
theorem release_inv {s : Sys P} (h : CacheInv s) (i : BufId) : CacheInv (s.release i) := by
  unfold Sys.release
  dsimp only
  split
  next =>
    obtain ⟨xs, hc, hall, horder⟩ := h.list
    have hnd := nodup_of_circle hc
    have hne : ∀ j, j ∈ xs.erase i → j ≠ i := fun j hj => (hnd.mem_erase_iff.mp hj).1
    refine ⟨⟨i :: xs.erase i, release_circle hc (hall i), fun j => ?_,
      List.pairwise_cons.mpr ⟨?_, ?_⟩⟩, ?_, h.unique.congr (setBuf_id rfl rfl)⟩
    · by_cases hj : j = i
      · rw [hj]
        exact List.mem_cons_self
      · exact List.mem_cons_of_mem _ (hnd.mem_erase_iff.mpr ⟨hj, hall j⟩)
    · intro j hj
      exact older_last h.clock (hne j hj)
    · refine (horder.sublist List.erase_sublist).imp_of_mem fun {j k} hj hk hjk => ?_
      exact (older_update (hne k hk) (hne j hj)).mpr hjk
    · intro j t ht
      show t < s.clock + 1
      have ht : Function.update s.freed i (some s.clock) j = some t := ht
      by_cases hj : j = i
      · rw [hj, Function.update_self, Option.some.injEq] at ht
        omega
      · rw [Function.update_of_ne hj] at ht
        exact Nat.lt_succ_of_lt (h.clock j t ht)
  next => exact h.keep rfl rfl rfl (setBuf_id rfl rfl)

/-! ## `bget` -/

/-- A loop of `bget` along the list, in either direction. -/
theorem scan_list {f : Node → Node} {test : BufId → Bool} {xs : List BufId} (hnd : xs.Nodup)
    (h : Seg f head (xs.map some) head) :
    scan f head (fun b => b.any test) (NBUF + 1) (f head) = (xs.find? test).map some := by
  have hlen : xs.length ≤ NBUF := by
    have := hnd.length_le_card
    rwa [Fintype.card_fin] at this
  rw [h.scan_eq (head_notMem xs) (by rw [List.length_map]; omega), List.find?_map]
  rfl

/-- **`bget`**: it finds the block; or it recycles the oldest unused buffer; or
there is none. -/
theorem bget_cases {s : Sys P} (h : CacheInv s) (p : P) (b : BitVec 32) :
    (∃ i, s.caches rootdev b i = true ∧
      s.bget p rootdev b
        = (s.setBuf i { s.buf i with refcnt := (s.buf i).refcnt + 1 }).goto p (.bread i)) ∨
    (∃ i, (∀ j, s.caches rootdev b j = false) ∧ (s.buf i).refcnt = 0 ∧
      (∀ j, (s.buf j).refcnt = 0 → j ≠ i → Older s.freed i j) ∧
      s.bget p rootdev b = (s.setBuf i { s.buf i with
        dev := rootdev, blockno := b, valid := false, refcnt := 1 }).goto p (.bread i)) ∨
    ((∀ j, (s.buf j).refcnt ≠ 0) ∧ s.bget p rootdev b = { s with panicked := true }) := by
  obtain ⟨xs, hc, hall, horder⟩ := h.list
  have hnd := nodup_of_circle hc
  have hbwd : Seg s.links.prev head (xs.reverse.map some) head := by
    rw [List.map_reverse]
    exact hc.bwd
  unfold Sys.bget
  rw [scan_list hnd hc.fwd, scan_list (List.nodup_reverse.mpr hnd) hbwd]
  cases hfirst : xs.find? (s.caches rootdev b) with
  | some i => exact .inl ⟨i, List.find?_some hfirst, rfl⟩
  | none =>
    have hmiss : ∀ j, s.caches rootdev b j = false := fun j => by
      simpa using List.find?_eq_none.mp hfirst j (hall j)
    cases hsecond : xs.reverse.find? s.unused with
    | none =>
      refine .inr (.inr ⟨fun j => ?_, rfl⟩)
      have hj := List.find?_eq_none.mp hsecond j (List.mem_reverse.mpr (hall j))
      simpa [Sys.unused] using hj
    | some i =>
      -- what the loop passed over before `i` is in use
      obtain ⟨hi, as, bs, hsplit, hpassed⟩ := List.find?_eq_some_iff_append.mp hsecond
      refine .inr (.inl ⟨i, hmiss, by simpa [Sys.unused] using hi, fun j hj hne => ?_, rfl⟩)
      have hxs : xs = bs.reverse ++ i :: as.reverse := by
        rw [← List.reverse_reverse xs, hsplit]
        simp
      have hmem : j ∈ bs.reverse := by
        have hm := hall j
        rw [hxs, List.mem_append, List.mem_cons] at hm
        rcases hm with hm | he | hm
        · exact hm
        · exact absurd he hne
        · have hused := hpassed j (List.mem_reverse.mp hm)
          simp [Sys.unused, hj] at hused
      rw [hxs] at horder
      exact (List.pairwise_append.mp horder).2.2 j hmem i List.mem_cons_self

theorem bget_inv {s : Sys P} (h : CacheInv s) (p : P) (b : BitVec 32) :
    CacheInv (s.bget p rootdev b) := by
  rcases bget_cases h p b with ⟨i, -, ho⟩ | ⟨i, hmiss, -, -, ho⟩ | ⟨-, ho⟩
  · rw [ho]
    exact h.keep rfl rfl rfl (setBuf_id rfl rfl)
  · rw [ho]
    refine ⟨h.list, h.clock, h.unique.update fun j hd hb => ?_⟩
    have hj := hmiss j
    rw [Sys.caches, hd, hb] at hj
    simp at hj
  · rw [ho]
    exact h.keep rfl rfl rfl fun _ => ⟨rfl, rfl⟩

/-! ## Every step -/

/-- **Inversion of a step**: a `bread` that goes through `bget`, the end of a
`brelse`, or a step that leaves the list, the stamps and the blocks alone. -/
theorem step_cases {s s' : Sys P} {a : Act P} (hs : step s a = some s') :
    (∃ p b, a = .bread p b ∧ s' = s.bget p rootdev b) ∨
    (∃ p i, a = .run p ∧ s.pc p = .brelse i ∧ s' = (s.release i).goto p .user) ∨
    (s'.links = s.links ∧ s'.freed = s.freed ∧ s'.clock = s.clock ∧
      ∀ i, (s'.buf i).dev = (s.buf i).dev ∧ (s'.buf i).blockno = (s.buf i).blockno) := by
  unfold step at hs
  split at hs
  · cases hs
  next =>
    cases a with
    | bread p b =>
      simp only [Option.ite_none_right_eq_some, Option.some.injEq] at hs
      exact .inl ⟨p, b, rfl, hs.2.symm⟩
    | brelse p i | bpin p i | bunpin p i =>
      simp only [Option.ite_none_right_eq_some, Option.some.injEq] at hs
      obtain ⟨-, rfl⟩ := hs
      exact .inr (.inr ⟨rfl, rfl, rfl, setBuf_id rfl rfl⟩)
    | run p =>
      dsimp only at hs
      unfold Sys.run at hs
      split at hs
      next => cases hs
      next i hp =>
        simp only [Option.ite_none_right_eq_some, Option.some.injEq] at hs
        obtain ⟨-, rfl⟩ := hs
        exact .inr (.inr ⟨rfl, rfl, rfl, setBuf_id rfl rfl⟩)
      next i hp =>
        cases hs
        exact .inr (.inr ⟨rfl, rfl, rfl, setBuf_id rfl rfl⟩)
      next i hp =>
        cases hs
        exact .inr (.inl ⟨p, i, rfl, hp, rfl⟩)

theorem cache_step {s s' : Sys P} {a : Act P} (h : CacheInv s) (hs : step s a = some s') :
    CacheInv s' := by
  rcases step_cases hs with ⟨p, b, -, rfl⟩ | ⟨p, i, -, -, rfl⟩ | ⟨hl, hf, hc, hb⟩
  · exact bget_inv h p b
  · exact (release_inv h i).keep rfl rfl rfl fun _ => ⟨rfl, rfl⟩
  · exact h.keep hl hf hc hb

omit [DecidableEq P] in
theorem release_id (s : Sys P) (i j : BufId) : ((s.release i).buf j).dev = (s.buf j).dev ∧
    ((s.release i).buf j).blockno = (s.buf j).blockno := by
  have hid := setBuf_id (s := s) (i := i)
    (x := { s.buf i with refcnt := (s.buf i).refcnt - 1 }) rfl rfl j
  unfold Sys.release
  dsimp only
  split
  · exact hid
  · exact hid

/-- Buffer `i` is given another block. -/
def Recycles (s s' : Sys P) (i : BufId) : Prop :=
  ((s'.buf i).dev, (s'.buf i).blockno) ≠ ((s.buf i).dev, (s.buf i).blockno)

/-- **Who is recycled.** -/
theorem recycle_oldest {s s' : Sys P} {a : Act P} (h : CacheInv s) (hs : step s a = some s')
    {i : BufId} (hi : Recycles s s' i) :
    (s.buf i).refcnt = 0 ∧ (∀ j, (s.buf j).refcnt = 0 → j ≠ i → Older s.freed i j) ∧
      ∃ p b, a = .bread p b ∧ (∀ j, s.caches rootdev b j = false) ∧
        (s'.buf i).dev = rootdev ∧ (s'.buf i).blockno = b := by
  unfold Recycles at hi
  rcases step_cases hs with ⟨p, b, rfl, rfl⟩ | ⟨p, k, -, -, rfl⟩ | ⟨-, -, -, hb⟩
  · rcases bget_cases h p b with ⟨k, -, ho⟩ | ⟨k, hmiss, href, hold, ho⟩ | ⟨-, ho⟩
    · rw [ho] at hi
      have hid := setBuf_id (s := s) (i := k)
        (x := { s.buf k with refcnt := (s.buf k).refcnt + 1 }) rfl rfl i
      exact absurd (Prod.ext hid.1 hid.2) hi
    · rw [ho] at hi ⊢
      have hk : i = k := by
        by_contra hne
        exact hi (by rw [Sys.goto_buf, Sys.setBuf_ne _ _ hne])
      subst hk
      refine ⟨href, hold, p, b, rfl, hmiss, ?_, ?_⟩
      · rw [Sys.goto_buf, Sys.setBuf_self]
      · rw [Sys.goto_buf, Sys.setBuf_self]
    · rw [ho] at hi
      exact absurd rfl hi
  · exact absurd (Prod.ext (release_id s k i).1 (release_id s k i).2) hi
  · exact absurd (Prod.ext (hb i).1 (hb i).2) hi

/-- **The buffer cache**, in every reached state: the links form one circle through
the sentinel, with every buffer on it exactly once and `next` and `prev` mutually
inverse; a block of `ROOTDEV` is in one buffer at most; and a buffer that is given
another block was unused, and of the unused ones the one freed longest ago. -/
theorem buffer_cache {s : Sys P} (h : Reach step Any Boot s) :
    (∃ xs : List BufId, xs.Nodup ∧ (∀ i, i ∈ xs) ∧
      Seg s.links.next head (xs.map some) head ∧
      Seg s.links.prev head (xs.map some).reverse head) ∧
    (∀ n, s.links.prev (s.links.next n) = n ∧ s.links.next (s.links.prev n) = n) ∧
    (∀ i j, (s.buf i).dev = rootdev → (s.buf j).dev = rootdev →
      (s.buf i).blockno = (s.buf j).blockno → i = j) ∧
    ∀ a s', step s a = some s' → ∀ i, Recycles s s' i →
      (s.buf i).refcnt = 0 ∧ (∀ j, (s.buf j).refcnt = 0 → j ≠ i → Older s.freed i j) ∧
      ∃ p b, a = .bread p b ∧ (∀ j, s.caches rootdev b j = false) ∧
        (s'.buf i).dev = rootdev ∧ (s'.buf i).blockno = b := by
  have hi : CacheInv s := h.inv (fun _ => boot_inv) fun hi _ hs => cache_step hi hs
  obtain ⟨xs, hc, hall, horder⟩ := hi.list
  have hmem : ∀ n : Node, n ∈ head :: xs.map some := by
    intro n
    cases n with
    | none => exact List.mem_cons_self
    | some i => exact List.mem_cons_of_mem _ (some_mem.mpr (hall i))
  exact ⟨⟨xs, nodup_of_circle hc, hall, hc.fwd, hc.bwd⟩,
    fun n => ⟨hc.prev_next (hmem n), hc.next_prev (hmem n)⟩, hi.unique,
    fun a s' hs i => recycle_oldest hi hs⟩

/-- The machine as it boots. -/
def Sys.fresh : Sys P where
  buf := fun _ => ⟨false, 0, 0, none, 0⟩
  links := binit
  pc := fun _ => .user
  panicked := false
  clock := 0
  freed := fun _ => none
  pins := fun _ => 0

/-- `&bcache.buf[0]` and `&bcache.buf[1]`. -/
def buf0 : BufId := ⟨0, by decide⟩
def buf1 : BufId := ⟨1, by decide⟩

/-- Blocks 7 and 8 are read and released, block 8 with a pin on it that goes last. -/
def twoReads : List (Act Unit) :=
  [.bread () 7, .run (), .run (), .bread () 8, .run (), .run (), .bpin () buf1,
    .brelse () buf1, .run (), .bunpin () buf1, .brelse () buf0, .run ()]

/-- No `brelse` brought the pinned buffer to zero, so it is the one that goes. -/
theorem buffer_cache_two_reads :
    ∃ s s' : Sys Unit, runFrom step Sys.fresh twoReads = some s ∧
      step s (.bread () 9) = some s' ∧ Recycles s s' buf1 ∧ (s.buf buf1).refcnt = 0 ∧
      ∀ j, (s.buf j).refcnt = 0 → j ≠ buf1 → Older s.freed buf1 j := by
  have hrun : (runFrom step (Sys.fresh : Sys Unit) twoReads).bind (fun s =>
      (step s (.bread () 9)).map fun s' => ((s.buf buf1).blockno, (s'.buf buf1).blockno))
      = some (8, 9) := by decide +kernel
  obtain ⟨s, hs, hrun⟩ := Option.bind_eq_some_iff.mp hrun
  obtain ⟨s', hs', hb⟩ := Option.map_eq_some_iff.mp hrun
  obtain ⟨h8, h9⟩ := Prod.mk.inj hb
  have hrec : Recycles s s' buf1 := by
    intro he
    have hb := (Prod.mk.inj he).2
    rw [h8, h9] at hb
    exact absurd hb (by decide)
  have hreach : Reach step Any Boot s :=
    .of_run _ (.start ⟨fun _ => rfl, rfl, fun _ => rfl⟩) (RunOk.any _ _ _) hs
  obtain ⟨href, hold, -⟩ := (buffer_cache hreach).2.2.2 _ s' hs' buf1 hrec
  exact ⟨s, s', hs, hs', hrec, href, hold⟩

end Xv6.Bio
