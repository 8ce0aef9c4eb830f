import Xv6.Lib.Tally
import Xv6.Log.Machine

/-!
# The buffer cache and its reference counts

`refcnt` of a buffer is what keeps it from being recycled. At every moment it is
the sum of

> one for the holder of the lock, one for each process that waits for the lock or
> has just given it back, and one if the log has pinned the block

and no two buffers hold one block. The lemmas below say what each operation of
`bio.c` does to that balance; they speak of the buffers, the list, the places of
the processes and the pinned blocks, and of nothing else.
-/

namespace Xv6.Log

open Lib

variable {P : Type}

/-- The buffer a process counts for without holding its lock. -/
def Pc.ref : Pc → Option BufId
  | .acquiresleep i _ _ | .unref i _ => some i
  | _ => none

/-- The blocks the log has pinned: the entries `install_trans` has not come to. -/
def Sys.pinned (s : Sys P) : List Nat := if s.ready then s.lh.drop s.installed else []

/-- One for the holder of the lock. -/
def Buf.held (x : Buf P) : Nat := if x.lock.isSome then 1 else 0

/-- One if the buffer holds a pinned block. -/
def Buf.pin (x : Buf P) (pins : List Nat) : Nat :=
  if x.dev = ROOTDEV ∧ x.blockno ∈ pins then 1 else 0

/-- How many processes count for buffer `i` without holding its lock. -/
def refs [Fintype P] (pc : P → Pc) (i : BufId) : Nat := ∑ p, if (pc p).ref = some i then 1 else 0

structure CacheInv [Fintype P] (buf : BufId → Buf P) (lru : List BufId) (pc : P → Pc)
    (pins : List Nat) : Prop where
  lru : ∀ i, i ∈ lru
  uniq : ∀ i j b, (buf i).caches b → (buf j).caches b → i = j
  count : ∀ i, (buf i).refcnt = (buf i).held + refs pc i + (buf i).pin pins
  locked : ∀ i p, (buf i).lock = some p → (buf i).dev = ROOTDEV ∧ (buf i).valid = true
  pinned : ∀ b ∈ pins, ∃ i, (buf i).caches b ∧ (buf i).valid = true

theorem Buf.caches_iff {x : Buf P} {b : Nat} : x.caches b = true ↔ x.dev = ROOTDEV ∧
    x.blockno = b := by
  unfold caches
  exact decide_eq_true_iff

theorem Buf.held_of_some {x : Buf P} {p : P} (h : x.lock = some p) : x.held = 1 := by
  simp [held, h]

theorem Buf.held_of_none {x : Buf P} (h : x.lock = none) : x.held = 0 := by
  simp [held, h]

section Refs

variable [Fintype P] [DecidableEq P]

/-- A process moves: its old place no longer counts, its new one does. -/
theorem refs_update (pc : P → Pc) (p : P) (c : Pc) (i : BufId) :
    refs (Function.update pc p c) i + (if (pc p).ref = some i then 1 else 0)
      = refs pc i + if c.ref = some i then 1 else 0 := by
  have h := sum_change (f := fun q => if (pc q).ref = some i then 1 else 0)
    (g := fun q => if (Function.update pc p c q).ref = some i then 1 else 0) p fun q hq => by
      simp only [Function.update_of_ne hq]
  simp only [Function.update_self] at h
  exact h

theorem refs_same {pc : P → Pc} {p : P} {c : Pc} (h : c.ref = (pc p).ref) (i : BufId) :
    refs (Function.update pc p c) i = refs pc i := by
  have h' := refs_update pc p c i
  rw [h] at h'
  omega

theorem refs_enter {pc : P → Pc} {p : P} {c : Pc} {i : BufId} (h : (pc p).ref = none)
    (hc : c.ref = some i) (j : BufId) :
    refs (Function.update pc p c) j = refs pc j + if j = i then 1 else 0 := by
  have h' := refs_update pc p c j
  simpa [h, hc, eq_comm] using h'

theorem refs_leave {pc : P → Pc} {p : P} {c : Pc} {i : BufId} (h : (pc p).ref = some i)
    (hc : c.ref = none) (j : BufId) :
    refs (Function.update pc p c) j + (if j = i then 1 else 0) = refs pc j := by
  have h' := refs_update pc p c j
  simpa [h, hc, eq_comm] using h'

omit [DecidableEq P] in
theorem refs_pos {pc : P → Pc} {p : P} {i : BufId} (h : (pc p).ref = some i) : 1 ≤ refs pc i := by
  have h' := le_sum (fun q => if (pc q).ref = some i then 1 else 0) p
  simp only [h, if_true] at h'
  exact h'

end Refs

namespace CacheInv

variable [Fintype P] [DecidableEq P] {buf buf' : BufId → Buf P} {lru : List BufId} {pc : P → Pc}
  {pins : List Nat} {p : P} {i : BufId}

omit [DecidableEq P] in
/-- A buffer somebody counts for is not unused. -/
theorem refcnt_pos (h : CacheInv buf lru pc pins)
    (hi : (∃ q, (buf i).lock = some q) ∨ (∃ q, (pc q).ref = some i)
      ∨ ((buf i).dev = ROOTDEV ∧ (buf i).blockno ∈ pins)) : 0 < (buf i).refcnt := by
  rw [h.count i]
  rcases hi with ⟨q, hq⟩ | ⟨q, hq⟩ | hpin
  · rw [Buf.held_of_some hq]
    omega
  · have := refs_pos hq
    omega
  · have : (buf i).pin pins = 1 := if_pos hpin
    omega

/-- A process moves between two places that count for the same buffer. -/
theorem move (h : CacheInv buf lru pc pins) {c : Pc} (hc : c.ref = (pc p).ref) :
    CacheInv buf lru (Function.update pc p c) pins := by
  refine ⟨h.lru, h.uniq, fun j => ?_, h.locked, h.pinned⟩
  rw [refs_same hc]
  exact h.count j

omit [DecidableEq P] in
/-- Data and bookkeeping do not count. -/
theorem data (h : CacheInv buf lru pc pins)
    (hb : ∀ j, (buf' j).dev = (buf j).dev ∧ (buf' j).blockno = (buf j).blockno ∧
      (buf' j).lock = (buf j).lock ∧ (buf' j).refcnt = (buf j).refcnt ∧
      (buf' j).valid = (buf j).valid) : CacheInv buf' lru pc pins := by
  have hc : ∀ j b, (buf' j).caches b = (buf j).caches b := by
    intro j b
    unfold Buf.caches
    rw [(hb j).1, (hb j).2.1]
  refine ⟨h.lru, fun j k b => ?_, fun j => ?_, fun j q => ?_, fun b hb' => ?_⟩
  · rw [hc, hc]
    exact h.uniq j k b
  · unfold Buf.held Buf.pin
    rw [(hb j).1, (hb j).2.1, (hb j).2.2.1, (hb j).2.2.2.1]
    exact h.count j
  · rw [(hb j).1, (hb j).2.2.1, (hb j).2.2.2.2]
    exact h.locked j q
  · obtain ⟨j, hj, hv⟩ := h.pinned b hb'
    exact ⟨j, by rw [hc]; exact hj, by rw [(hb j).2.2.2.2]; exact hv⟩

omit [DecidableEq P] in
/-- One buffer changes and keeps its block. The counts of the others stay. -/
theorem one {lru' : List BufId} {pc' : P → Pc} {pins' : List Nat} {x : Buf P}
    (h : CacheInv buf lru pc pins) (hlru : ∀ j, j ∈ lru') (hd : x.dev = (buf i).dev)
    (hb : x.blockno = (buf i).blockno) (hv : (buf i).valid = true → x.valid = true)
    (hl : ∀ q, x.lock = some q → (buf i).dev = ROOTDEV ∧ x.valid = true)
    (hi : x.refcnt = x.held + refs pc' i + x.pin pins')
    (hj : ∀ j, j ≠ i → refs pc' j = refs pc j ∧ (buf j).pin pins' = (buf j).pin pins)
    (hpins : ∀ b ∈ pins', b ∈ pins ∨ ((buf i).caches b ∧ x.valid = true)) :
    CacheInv (Function.update buf i x) lru' pc' pins' := by
  have hc : ∀ j b, (Function.update buf i x j).caches b = (buf j).caches b := by
    intro j b
    by_cases hji : j = i
    · subst hji
      unfold Buf.caches
      rw [Function.update_self, hd, hb]
    · rw [Function.update_of_ne hji]
  have hval : ∀ j, (buf j).valid = true → (Function.update buf i x j).valid = true := by
    intro j hjv
    by_cases hji : j = i
    · subst hji
      rw [Function.update_self]
      exact hv hjv
    · rw [Function.update_of_ne hji]
      exact hjv
  refine ⟨hlru, fun j k b => ?_, fun j => ?_, fun j q => ?_, fun b hb' => ?_⟩
  · rw [hc, hc]
    exact h.uniq j k b
  · by_cases hji : j = i
    · subst hji
      rw [Function.update_self]
      exact hi
    · rw [Function.update_of_ne hji, (hj j hji).1, (hj j hji).2]
      exact h.count j
  · by_cases hji : j = i
    · subst hji
      rw [Function.update_self, hd]
      exact hl q
    · rw [Function.update_of_ne hji]
      exact h.locked j q
  · rcases hpins b hb' with hold | ⟨hci, hvi⟩
    · obtain ⟨j, hj', hjv⟩ := h.pinned b hold
      exact ⟨j, by rw [hc]; exact hj', hval j hjv⟩
    · exact ⟨i, by rw [hc]; exact hci, by rw [Function.update_self]; exact hvi⟩

/-- `bget` finds the block: a reference for the caller. -/
theorem ref (h : CacheInv buf lru pc pins) {c : Pc} (hp : (pc p).ref = none) (hc : c.ref = some i) :
    CacheInv (Function.update buf i { buf i with refcnt := (buf i).refcnt + 1 }) lru
      (Function.update pc p c) pins := by
  have hrefs := refs_enter hp hc
  refine h.one h.lru rfl rfl id (h.locked i) ?_ (fun j hj => ⟨?_, rfl⟩) fun b hb => .inl hb
  · have := h.count i
    have := hrefs i
    rw [if_pos rfl] at this
    change (buf i).refcnt + 1 = (buf i).held + _ + (buf i).pin pins
    omega
  · rw [hrefs j, if_neg hj]
    rfl

/-- `acquiresleep`: the reference becomes that of the holder. -/
theorem lock (h : CacheInv buf lru pc pins) {c : Pc} {d : Block} (hp : (pc p).ref = some i)
    (hc : c.ref = none) (hl : (buf i).lock = none) (hd : (buf i).dev = ROOTDEV) :
    CacheInv (Function.update buf i { buf i with lock := some p, valid := true, data := d }) lru
      (Function.update pc p c) pins := by
  have hrefs := refs_leave hp hc
  refine h.one h.lru rfl rfl (fun _ => rfl) (fun _ _ => ⟨hd, rfl⟩) ?_ (fun j hj => ⟨?_, rfl⟩)
    fun b hb => .inl hb
  · have := h.count i
    have := hrefs i
    rw [if_pos rfl] at this
    rw [Buf.held_of_none hl] at *
    change (buf i).refcnt = 1 + _ + (buf i).pin pins
    omega
  · have := hrefs j
    rw [if_neg hj] at this
    exact this

/-- `releasesleep`: the reference of the holder is the caller's again. -/
theorem release (h : CacheInv buf lru pc pins) {c : Pc} (hp : (pc p).ref = none)
    (hc : c.ref = some i) {q : P} (hl : (buf i).lock = some q) :
    CacheInv (Function.update buf i { buf i with lock := none }) lru
      (Function.update pc p c) pins := by
  have hrefs := refs_enter hp hc
  refine h.one h.lru rfl rfl id (fun q hq => absurd hq.symm (Option.some_ne_none q)) ?_
    (fun j hj => ⟨?_, rfl⟩) fun b hb => .inl hb
  · have := h.count i
    have := hrefs i
    rw [if_pos rfl] at this
    rw [Buf.held_of_some hl] at *
    change (buf i).refcnt = 0 + _ + (buf i).pin pins
    omega
  · rw [hrefs j, if_neg hj]
    rfl

/-- The end of `brelse`: the caller's reference goes. -/
theorem unref (h : CacheInv buf lru pc pins) {c : Pc} {lru' : List BufId} (hlru : ∀ j, j ∈ lru')
    (hp : (pc p).ref = some i) (hc : c.ref = none) :
    CacheInv (Function.update buf i { buf i with refcnt := (buf i).refcnt - 1 }) lru'
      (Function.update pc p c) pins := by
  have hrefs := refs_leave hp hc
  refine h.one hlru rfl rfl id (h.locked i) ?_ (fun j hj => ⟨?_, rfl⟩) fun b hb => .inl hb
  · have := h.count i
    have := hrefs i
    rw [if_pos rfl] at this
    change (buf i).refcnt - 1 = (buf i).held + _ + (buf i).pin pins
    omega
  · have := hrefs j
    rw [if_neg hj] at this
    exact this

/-- `bget` recycles a buffer nobody counts for. -/
theorem recycle (h : CacheInv buf lru pc pins) {c : Pc} {b : Nat} {x : Buf P}
    (hp : (pc p).ref = none) (hc : c.ref = some i) (hfree : (buf i).refcnt = 0)
    (hnot : ∀ j, ¬ (buf j).caches b) (hx : x.blockno = b) (hlock : x.lock = (buf i).lock)
    (href : x.refcnt = 1) :
    CacheInv (Function.update buf i x) lru (Function.update pc p c) pins := by
  have hrefs := refs_enter hp hc
  have hcount := h.count i
  have hbp : b ∉ pins := fun hb => by
    obtain ⟨j, hj, -⟩ := h.pinned b hb
    exact hnot j hj
  have hnone : (buf i).lock = none := by
    cases hl : (buf i).lock with
    | none => rfl
    | some q =>
      have := h.refcnt_pos (.inl ⟨q, hl⟩)
      omega
  have hpos : ∀ j b', j ≠ i → (Function.update buf i x j).caches b' → (buf j).caches b' := by
    intro j b' hj hjb
    rwa [Function.update_of_ne hj] at hjb
  have hnew : ∀ b', (Function.update buf i x i).caches b' → b' = b := by
    intro b' hib
    rw [Function.update_self, Buf.caches_iff, hx] at hib
    exact hib.2.symm
  refine ⟨h.lru, fun j k b' hj hk => ?_, fun j => ?_, fun j q hq => ?_, fun b' hb' => ?_⟩
  · by_cases hji : j = i
    · by_cases hki : k = i
      · rw [hji, hki]
      · subst hji
        exact absurd (hpos k b' hki hk) (hnew b' hj ▸ hnot k)
    · by_cases hki : k = i
      · subst hki
        exact absurd (hpos j b' hji hj) (hnew b' hk ▸ hnot j)
      · exact h.uniq j k b' (hpos j b' hji hj) (hpos k b' hki hk)
  · by_cases hji : j = i
    · subst hji
      have hpin : x.pin pins = 0 := if_neg fun hxp => hbp (hx ▸ hxp.2)
      rw [Function.update_self, hrefs j, if_pos rfl, href, Buf.held_of_none (hlock.trans hnone),
        hpin]
      omega
    · rw [Function.update_of_ne hji, hrefs j, if_neg hji]
      exact h.count j
  · by_cases hji : j = i
    · subst hji
      rw [Function.update_self, hlock, hnone] at hq
      exact absurd hq.symm (Option.some_ne_none q)
    · rw [Function.update_of_ne hji] at hq ⊢
      exact h.locked j q hq
  · obtain ⟨j, hj, hjv⟩ := h.pinned b' hb'
    have hji : j ≠ i := by
      rintro rfl
      have := h.refcnt_pos (i := j) (.inr (.inr ?_))
      · omega
      · rw [Buf.caches_iff] at hj
        exact ⟨hj.1, hj.2 ▸ hb'⟩
    exact ⟨j, by rw [Function.update_of_ne hji]; exact hj,
      by rw [Function.update_of_ne hji]; exact hjv⟩

omit [DecidableEq P] in
/-- `bpin`, for a block that gets an entry of the log. -/
theorem bpin (h : CacheInv buf lru pc pins) {q : P} (hl : (buf i).lock = some q)
    (hnew : (buf i).blockno ∉ pins) {x : Buf P} (hd : x.dev = (buf i).dev)
    (hb : x.blockno = (buf i).blockno) (hlock : x.lock = (buf i).lock)
    (hv : x.valid = (buf i).valid) (href : x.refcnt = (buf i).refcnt + 1) :
    CacheInv (Function.update buf i x) lru pc (pins ++ [(buf i).blockno]) := by
  obtain ⟨hdev, hvalid⟩ := h.locked i q hl
  have hci : (buf i).caches (buf i).blockno := Buf.caches_iff.mpr ⟨hdev, rfl⟩
  refine h.one h.lru hd hb (fun _ => hv.trans hvalid) (fun _ _ => ⟨hdev, hv.trans hvalid⟩) ?_
    (fun j hj => ⟨rfl, ?_⟩) fun b hb' => ?_
  · have := h.count i
    have hpin : (buf i).pin pins = 0 := if_neg fun hp => hnew hp.2
    have hpin' : x.pin (pins ++ [(buf i).blockno]) = 1 :=
      if_pos ⟨hd.trans hdev, by rw [hb]; exact List.mem_append_right _ List.mem_cons_self⟩
    have hheld : x.held = (buf i).held := by
      unfold Buf.held
      rw [hlock]
    omega
  · have hne : ¬ ((buf j).dev = ROOTDEV ∧ (buf j).blockno = (buf i).blockno) :=
      fun hj' => hj (h.uniq j i _ (Buf.caches_iff.mpr hj') hci)
    unfold Buf.pin
    congr 1
    rw [List.mem_append, List.mem_singleton]
    exact propext ⟨fun hp => ⟨hp.1, hp.2.resolve_right fun he => hne ⟨hp.1, he⟩⟩,
      fun hp => ⟨hp.1, .inl hp.2⟩⟩
  · rcases List.mem_append.mp hb' with hb' | hb'
    · exact .inl hb'
    · exact .inr ⟨List.mem_singleton.mp hb' ▸ hci, hv.trans hvalid⟩

omit [DecidableEq P] in
/-- `bunpin`, for the first of the pinned blocks. -/
theorem bunpin {b : Nat} (h : CacheInv buf lru pc (b :: pins)) (hb : b ∉ pins)
    (hi : (buf i).caches b) :
    CacheInv (Function.update buf i { buf i with refcnt := (buf i).refcnt - 1 }) lru pc pins := by
  obtain ⟨hdev, hblk⟩ := Buf.caches_iff.mp hi
  refine h.one h.lru rfl rfl id (h.locked i) ?_ (fun j hj => ⟨rfl, ?_⟩)
    fun b' hb' => .inl (List.mem_cons_of_mem _ hb')
  · have hcount := h.count i
    have hpin : (buf i).pin (b :: pins) = 1 := if_pos ⟨hdev, hblk ▸ List.mem_cons_self⟩
    have hpin' : (buf i).pin pins = 0 := if_neg fun hp => hb (hblk ▸ hp.2)
    change (buf i).refcnt - 1 = (buf i).held + _ + (buf i).pin pins
    omega
  · have hne : ¬ ((buf j).dev = ROOTDEV ∧ (buf j).blockno = b) :=
      fun hj' => hj (h.uniq j i _ (Buf.caches_iff.mpr hj') hi)
    unfold Buf.pin
    congr 1
    rw [List.mem_cons]
    exact propext ⟨fun hp => ⟨hp.1, .inr hp.2⟩,
      fun hp => ⟨hp.1, hp.2.resolve_left fun he => hne ⟨hp.1, he⟩⟩⟩

end CacheInv

end Xv6.Log
