import Xv6.Pipe.ShortWrite

/-!
# The arithmetic of the bulk loops

A chunk is the least of three unsigned numbers, cast to `int`. Here is what the loops
rely on:

> it has a byte at least, it is no longer than the request, it stays inside the ring, in
> v3 inside a sub-buffer, and it goes over free bytes only, or over filled ones only.

A pass is what a loop does between two sleeps. Every chunk but the last ends at a cut,
and a pass goes around the ring once at most, so the cuts it meets can be counted
(`write_counted`, `read_counted`): two calls of `copyin` or `copyout` where the ring is
cut at its end, five where it is cut in four.
-/

namespace Xv6.Pipe

open Lib

/-- The bytes of the ring that hold something. -/
def Filled (total : Nat) (pi : Pipe) (slot : Nat) : Prop :=
  ∃ k, k < pi.used ∧ (pi.nread.toNat + k) % total = slot

/-- A chunk of a request with `n - i` bytes to go, over bytes with `cells`. -/
structure Fits (v : Version) (cells : Nat → Prop) (n i : Int) (ch : Chunk) : Prop where
  pos : 1 ≤ ch.toCopy
  le : ch.toCopy ≤ n - i
  inside : ch.slot + ch.toCopy ≤ (pipeTotal v : Int)
  block : v = .v3 → (ch.slot % BUFSIZE : Nat) + ch.toCopy ≤ (BUFSIZE : Int)
  cells : ∀ k : Nat, (k : Int) < ch.toCopy → cells (ch.slot + k)

/-- The calls of `copyin` or `copyout` in a pass. -/
def maxCalls : Version → Nat
  | .v3 => 5
  | _ => 2

/-- A pass of `pipewrite`: its iteration `c` finds `killed(pr)` to be `killed c`, and its
`copyin` ends as `copies c`. With the number of calls of `copyin`. -/
def countedWrite (v : Version) (mem : Mem) (q : Req) (killed : Nat → Bool) (copies : Nat → Copy) :
    Nat → Nat → Pipe → Int → Option (WritePass × Nat)
  | 0, _, _, _ => none
  | fuel + 1, c, pi, i =>
    if i < q.n then
      if pi.readopen = false ∨ killed c = true then some (⟨pi, i, .fail⟩, c)
      else if pi.full (pipeTotal v) then some (⟨pi, i, .sleep⟩, c)
      else
        let o := writeIter v pi mem q.addr q.n i (copies c)
        if o.brk then some (⟨o.pi, o.i, .leave⟩, c + 1)
        else countedWrite v mem q killed copies fuel (c + 1) o.pi o.i
    else some (⟨pi, i, .leave⟩, c)

/-- The copy loop of `piperead`, with the number of calls of `copyout`. -/
def countedRead (v : Version) (q : Req) (copies : Nat → Copy) :
    Nat → Nat → Pipe → Mem → Int → Option (ReadPass × Nat)
  | 0, _, _, _, _ => none
  | fuel + 1, c, pi, mem, i =>
    if i < q.n then
      if pi.empty then some (⟨pi, mem, i⟩, c)
      else
        let o := readIter v pi mem q.addr q.n i (copies c)
        if o.brk then some (⟨o.pi, o.mem, o.i⟩, c + 1)
        else countedRead v q copies fuel (c + 1) o.pi o.mem o.i
    else some (⟨pi, mem, i⟩, c)

variable {v : Version} {pi : Pipe} {n i : Int} {q : Req} {mem : Mem}

/-! ## A chunk -/

/-- A chunk ends with the request, with the room, or at the cut. -/
theorem writeChunk_toCopy (hused : pi.used ≤ pipeTotal v) (hi : i < n) (hi0 : 0 ≤ i)
    (hn : n < 2 ^ 31) :
    (writeChunk v pi n i).toCopy = ((min (n - i).toNat (min (pipeTotal v - pi.used)
      (cut v - pi.nwrite.toNat % cut v)) : Nat) : Int) := by
  have hle := pipeTotal_le v
  have hfree : (BitVec.ofNat 32 (pipeTotal v) - (pi.nwrite - pi.nread)).toNat
      = pipeTotal v - pi.used := ofNat_sub_toNat (by omega) hused
  rw [← hfree]
  cases v
  case v3 => exact ringChunk_len hi hi0 hn _ _
  all_goals exact flatChunk_len (by decide) (by decide) hi hi0 hn _ _

theorem readChunk_toCopy (hi : i < n) (hi0 : 0 ≤ i) (hn : n < 2 ^ 31) :
    (readChunk v pi n i).toCopy = ((min (n - i).toNat (min pi.used
      (cut v - pi.nread.toNat % cut v)) : Nat) : Int) := by
  cases v
  case v3 => exact ringChunk_len hi hi0 hn _ _
  all_goals exact flatChunk_len (by decide) (by decide) hi hi0 hn _ _

/-- The part of a sub-buffer that is left. -/
theorem cut_block {pos slot : Nat} {len : Int} (hslot : slot = pos % pipeTotal v)
    (hlen : len ≤ ((cut v - pos % cut v : Nat) : Int)) (hv3 : v = .v3) :
    (slot % BUFSIZE : Nat) + len ≤ (BUFSIZE : Int) := by
  subst hv3
  have hmod : slot % BUFSIZE = pos % BUFSIZE := by
    rw [hslot]
    exact Nat.mod_mod_of_dvd _ (show BUFSIZE ∣ N_BUFS * BUFSIZE from Nat.dvd_mul_left _ _)
  have hlen : len ≤ ((BUFSIZE - pos % BUFSIZE : Nat) : Int) := hlen
  have hlt : pos % BUFSIZE < BUFSIZE := Nat.mod_lt _ (by decide)
  rw [hmod]
  omega

/-- **The writer's chunk** goes over free bytes. -/
theorem writeChunk_fits (hused : pi.used ≤ pipeTotal v)
    (hfull : pi.full (pipeTotal v) = false) (hi : i < n)
    (hi0 : 0 ≤ i) (hn : n < 2 ^ 31) :
    Fits v (fun slot => ¬Filled (pipeTotal v) pi slot) n i (writeChunk v pi n i) := by
  obtain ⟨len, hch⟩ := writeChunk_spec hused hfull hi hi0 hn
  have hlen := writeChunk_toCopy hused hi hi0 hn
  have htoCopy := hch.toCopy_eq
  have hpos := hch.pos
  have hroom := hch.le_room
  have hwrap := hch.le_wrap
  have hslot := hch.slot_eq
  refine ⟨by omega, by rw [htoCopy]; exact hch.le_rem, by omega, cut_block hslot (by omega),
    fun k hk => ?_⟩
  rintro ⟨j, hj, he⟩
  -- the slots from the tail on are different ones, up to a whole lap
  have hhead := pi.head_mod (pipeTotal_dvd v)
  have hrun : (pi.nread.toNat + pi.used) % pipeTotal v + len ≤ pipeTotal v := by
    rw [hhead, ← hslot]
    exact hwrap
  refine Ring.mod_ne_of_lt_lap (pipeTotal v) pi.nread.toNat (i := j) (j := pi.used + k)
    (by omega) (by omega) ?_
  rw [he, ← Nat.add_assoc, Ring.mod_add_of_run hrun (by omega), hhead, hslot]

/-- **The reader's chunk** goes over bytes that are filled. -/
theorem readChunk_fits (hempty : pi.empty = false) (hi : i < n) (hi0 : 0 ≤ i) (hn : n < 2 ^ 31) :
    Fits v (Filled (pipeTotal v) pi) n i (readChunk v pi n i) := by
  obtain ⟨len, hch⟩ := readChunk_spec (v := v) hempty hi hi0 hn
  have hlen := @readChunk_toCopy v pi _ _ hi hi0 hn
  have htoCopy := hch.toCopy_eq
  have hpos := hch.pos
  have hroom := hch.le_room
  have hwrap := hch.le_wrap
  have hslot := hch.slot_eq
  refine ⟨by omega, by rw [htoCopy]; exact hch.le_rem, by omega, cut_block hslot (by omega),
    fun k hk => ?_⟩
  rw [hslot] at hwrap
  exact ⟨k, by omega, by rw [Ring.mod_add_of_run hwrap (by omega), hslot]⟩

/-! ## A pass -/

/-- After a chunk the counter is at a cut, or nothing is left. -/
theorem next_cut {c x len left k : Nat} (hc : 0 < c) (hleft : x % c + left ≤ (k + 1) * c)
    (hlen : len = min left (c - x % c)) : left - len = 0 ∨
    (x + len) % c + (left - len) ≤ k * c := by
  have hlt := Nat.mod_lt x hc
  by_cases hle : left ≤ c - x % c
  · exact .inl (by omega)
  · refine .inr ?_
    have hmod : (x + len) % c = 0 := by
      rw [← Nat.mod_add_mod, show x % c + len = c by omega, Nat.mod_self]
    rw [Nat.succ_mul] at hleft
    omega

/-- **A pass of the writer**: by induction on the cuts that are still ahead. -/
theorem write_counted (hv : bulkCopy v = true) (killed : Nat → Bool) (copies : Nat → Copy) :
    ∀ k c (pi : Pipe) (i : Int), pi.used ≤ pipeTotal v → 0 ≤ i →
      min (q.n - i).toNat (pipeTotal v - pi.used) = 0 ∨
        pi.nwrite.toNat % cut v + min (q.n - i).toNat (pipeTotal v - pi.used) ≤ k * cut v →
      ∃ r c', countedWrite v mem q killed copies (k + 1) c pi i = some (r, c') ∧ c' ≤ c + k ∧
        r.pi.used ≤ pipeTotal v := by
  have ht : pipeTotal v < 2 ^ 32 := Nat.lt_of_le_of_lt (pipeTotal_le v) (by decide)
  intro k
  induction k with
  | zero =>
    intro c pi i hused hi0 hcut
    have hnone : min (q.n - i).toNat (pipeTotal v - pi.used) = 0 := by omega
    unfold countedWrite
    split
    next hi =>
      split
      next => exact ⟨_, c, rfl, le_rfl, hused⟩
      next =>
        rw [if_pos ((full_iff ht).mpr (by omega))]
        exact ⟨_, c, rfl, le_rfl, hused⟩
    next => exact ⟨_, c, rfl, le_rfl, hused⟩
  | succ k ih =>
    intro c pi i hused hi0 hcut
    unfold countedWrite
    split
    next hi =>
      split
      next => exact ⟨_, c, rfl, by omega, hused⟩
      next =>
        split
        next => exact ⟨_, c, rfl, by omega, hused⟩
        next hfull =>
          have hfull : pi.full (pipeTotal v) = false := Bool.eq_false_iff.mpr hfull
          obtain ⟨len, hch⟩ := writeChunk_spec hused hfull hi hi0 q.n_lt
          have hlen := writeChunk_toCopy hused hi hi0 q.n_lt
          have htoCopy := hch.toCopy_eq
          have hpos := hch.pos
          have hrem := hch.le_rem
          have hroom := hch.le_room
          dsimp only
          rw [writeIter, if_pos hv]
          cases hcopy : copies c with
          | fail n =>
            rw [bulkWrite_fail n hch, if_pos rfl]
            exact ⟨_, c + 1, rfl, by omega, hused⟩
          | ok =>
            rw [bulkWrite_ok hch, if_neg (show ¬(false = true) from Bool.noConfusion)]
            have hused' := used_pushed (pipeTotal v) (userBytes mem q.addr i)
              (show pi.used + len < 2 ^ 32 by omega)
            have hnw : (pi.pushed (pipeTotal v) (userBytes mem q.addr i) len).nwrite.toNat % cut v
                = (pi.nwrite.toNat + len) % cut v := Ring.toNat_add_mod (cut_dvd v) pi.nwrite len
            have hleft : min (q.n - (i + len)).toNat (pipeTotal v - (pi.used + len))
                = min (q.n - i).toNat (pipeTotal v - pi.used) - len := by omega
            have hnext := next_cut (cut_pos v) (hcut.resolve_left (by omega))
              (show len = min (min (q.n - i).toNat (pipeTotal v - pi.used))
                (cut v - pi.nwrite.toNat % cut v) by omega)
            obtain ⟨r, c', hr, hc', hru⟩ :=
              ih (c + 1) _ (i + len) (by rw [hused']; omega) (by omega)
              (by rw [hused', hnw, hleft]; exact hnext)
            exact ⟨r, c', hr, by omega, hru⟩
    next => exact ⟨_, c, rfl, by omega, hused⟩

/-- **A pass of the reader.** -/
theorem read_counted (hv : bulkCopy v = true) (copies : Nat → Copy) :
    ∀ k c (pi : Pipe) (mem : Mem) (i : Int), pi.used ≤ pipeTotal v → 0 ≤ i →
      min (q.n - i).toNat pi.used = 0 ∨
        pi.nread.toNat % cut v + min (q.n - i).toNat pi.used ≤ k * cut v →
      ∃ r c', countedRead v q copies (k + 1) c pi mem i = some (r, c') ∧ c' ≤ c + k ∧
        r.pi.used ≤ pipeTotal v := by
  intro k
  induction k with
  | zero =>
    intro c pi mem i hused hi0 hcut
    have hnone : min (q.n - i).toNat pi.used = 0 := by omega
    unfold countedRead
    split
    next hi =>
      rw [if_pos (empty_iff.mpr (by omega))]
      exact ⟨_, c, rfl, le_rfl, hused⟩
    next => exact ⟨_, c, rfl, le_rfl, hused⟩
  | succ k ih =>
    intro c pi mem i hused hi0 hcut
    unfold countedRead
    split
    next hi =>
      split
      next => exact ⟨_, c, rfl, by omega, hused⟩
      next hempty =>
        have hempty : pi.empty = false := Bool.eq_false_iff.mpr hempty
        obtain ⟨len, hch⟩ := readChunk_spec (v := v) hempty hi hi0 q.n_lt
        have hlen := @readChunk_toCopy v pi _ _ hi hi0 q.n_lt
        have htoCopy := hch.toCopy_eq
        have hpos := hch.pos
        have hrem := hch.le_rem
        have hroom := hch.le_room
        dsimp only
        rw [readIter, if_pos hv]
        cases hcopy : copies c with
        | fail n =>
          refine ⟨_, c + 1, if_pos rfl, by omega, hused⟩
        | ok =>
          rw [bulkRead_ok hch, if_neg (show ¬(false = true) from Bool.noConfusion)]
          have hused' : (pi.popped len).used = pi.used - len := used_popped hroom
          have hnr : (pi.popped len).nread.toNat % cut v = (pi.nread.toNat + len) % cut v :=
            Ring.toNat_add_mod (cut_dvd v) pi.nread len
          have hleft : min (q.n - (i + len)).toNat (pi.used - len) =
            min (q.n - i).toNat pi.used - len := by
            omega
          have hnext := next_cut (cut_pos v) (hcut.resolve_left (by omega))
            (show len = min (min (q.n - i).toNat pi.used) (cut v - pi.nread.toNat % cut v) by omega)
          obtain ⟨r, c', hr, hc', hru⟩ :=
            ih (c + 1) _ _ (i + len) (by rw [hused']; omega) (by omega)
            (by rw [hused', hnr, hleft]; exact hnext)
          exact ⟨r, c', hr, by omega, hru⟩
    next => exact ⟨_, c, rfl, by omega, hused⟩

/-- A pass that starts anywhere goes over all of the ring at most. -/
theorem all_cuts {x left : Nat} (hleft : left ≤ pipeTotal v) :
    x % cut v + left ≤ maxCalls v * cut v := by
  have hlt := Nat.mod_lt x (cut_pos v)
  have hall : maxCalls v * cut v = cut v + pipeTotal v := by
    cases v <;> rfl
  omega

/-- **The bulk loops**: their chunks are what they should be, their passes end after a few
of them, and the ring never holds more than it has room for. -/
theorem chunk_arithmetic (hv : bulkCopy v = true) (hused : pi.used ≤ pipeTotal v)
    (q : Req) (hi0 : 0 ≤ i) :
    (i < q.n → pi.full (pipeTotal v) = false →
      Fits v (fun slot => ¬Filled (pipeTotal v) pi slot) q.n i (writeChunk v pi q.n i)) ∧
    (i < q.n → pi.empty = false → Fits v (Filled (pipeTotal v) pi) q.n i (readChunk v pi q.n i)) ∧
    (∀ mem killed copies, ∃ r c, countedWrite v mem q killed copies
      (maxCalls v + 1) 0 pi i = some (r, c) ∧
      c ≤ maxCalls v ∧ r.pi.used ≤ pipeTotal v) ∧
    (∀ mem copies, ∃ r c, countedRead v q copies (maxCalls v + 1) 0 pi mem i = some (r, c) ∧
      c ≤ maxCalls v ∧ r.pi.used ≤ pipeTotal v) := by
  refine ⟨fun hi hfull => writeChunk_fits hused hfull hi hi0 q.n_lt,
    fun hi hempty => readChunk_fits hempty hi hi0 q.n_lt, fun mem killed copies => ?_,
    fun mem copies => ?_⟩
  · obtain ⟨r, c, hr, hc, hru⟩ := @write_counted v q mem hv killed copies
      (maxCalls v) 0 pi i hused hi0
      (.inr (all_cuts (by omega)))
    exact ⟨r, c, hr, by omega, hru⟩
  · obtain ⟨r, c, hr, hc, hru⟩ := read_counted hv copies (maxCalls v) 0 pi mem i hused hi0
      (.inr (all_cuts (by omega)))
    exact ⟨r, c, hr, by omega, hru⟩

/-- A v3 ring with 100 bytes about to go around the end of the counters. -/
theorem chunk_arithmetic_at_wrap :
    Fits .v3 (fun slot => ¬Filled 2048 ⟨fun _ => 0, 4294967196, 0, true, true⟩ slot) 3000 0
      (writeChunk .v3 ⟨fun _ => 0, 4294967196, 0, true, true⟩ 3000 0) :=
  (chunk_arithmetic (v := .v3) rfl (by decide) ⟨4096, 3000, by decide, by decide⟩ (by decide)).1
    (by decide) (by decide)

end Xv6.Pipe
