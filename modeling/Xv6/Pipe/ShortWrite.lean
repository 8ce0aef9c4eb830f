import Xv6.Pipe.Fifo

/-!
# Short writes

A user range of which only the first `k` bytes can be read. `copyin` goes through
it page by page and gives up at the first page it cannot reach, after it has
copied what came before. What becomes of that prefix is up to the caller:

> the byte-by-byte loop accepts all `k` bytes; a bulk loop accepts the chunks
> that end at or before `k` and forgets the part of the next one that `copyin`
> had already put into the ring.

`writeLoop_short` is one induction for both: a loop that takes `len` bytes at a
time stops at the last multiple of its steps that is at most `k`. With `len = 1`
that is `k`; with chunks it is `k` only if a chunk ends there, and where chunks
end depends on `nwrite` alone (`AtCut`).
-/

namespace Xv6

/-- `PGROUNDDOWN(a)`. -/
def PGROUNDDOWN (a : Addr) : Addr := a &&& ~~~(BitVec.ofNat 64 (PGSIZE - 1))

theorem PGROUNDDOWN_toNat (a : Addr) : (PGROUNDDOWN a).toNat = a.toNat / PGSIZE * PGSIZE := by
  have hshift : PGROUNDDOWN a = a >>> 12 <<< 12 := by
    apply BitVec.eq_of_getLsbD_eq
    intro i hi
    have hmask : (4095 : Nat).testBit i = decide (i < 12) := Nat.testBit_two_pow_sub_one 12 i
    simp only [PGROUNDDOWN, PGSIZE, BitVec.getLsbD_and, BitVec.getLsbD_not,
      BitVec.getLsbD_shiftLeft, BitVec.getLsbD_ushiftRight, BitVec.getLsbD_ofNat, hmask]
    by_cases h : i < 12
    · simp [h]
    · simp [h, hi, show 12 + (i - 12) = i by omega]
  rw [hshift, BitVec.toNat_shiftLeft, BitVec.toNat_ushiftRight, Nat.shiftLeft_eq,
    Nat.shiftRight_eq_div_pow]
  have := a.isLt
  show a.toNat / 4096 * 4096 % 2 ^ 64 = a.toNat / 4096 * 4096
  omega

namespace Pipe

open Lib

/-! ## `copyin` page by page -/

/-- The loop of `copyin`: `len` bytes from `srcva` on, `done` of them before.
`ok va0` says that `walkaddr` or `vmfault` finds the page at `va0`. -/
def copyinWalk (ok : Addr → Bool) : Nat → Addr → Nat → Nat → Copy
  | 0, _, _, _ => .ok
  | fuel + 1, srcva, len, done =>
    if 0 < len then
      let va0 := PGROUNDDOWN srcva
      if ok va0 = false then .fail done
      else
        let n := min (PGSIZE - (srcva - va0).toNat) len
        copyinWalk ok fuel (va0 + BitVec.ofNat 64 PGSIZE) (len - n) (done + n)
    else .ok

/-- Byte `a` can be read. -/
def Reads (ok : Addr → Bool) (a : Addr) : Prop := ok (PGROUNDDOWN a) = true

instance (ok : Addr → Bool) (a : Addr) : Decidable (Reads ok a) :=
  inferInstanceAs (Decidable (_ = _))

theorem PGROUNDDOWN_same {a : Addr} {j : Nat}
    (hj : j < PGSIZE - (a - PGROUNDDOWN a).toNat) : PGROUNDDOWN (a + BitVec.ofNat 64 j)
      = PGROUNDDOWN a := by
  apply BitVec.eq_of_toNat_eq
  have ha := PGROUNDDOWN_toNat a
  have hlt := a.isLt
  unfold PGSIZE at *
  rw [BitVec.toNat_sub_of_le (by rw [BitVec.le_def]; omega), ha] at hj
  rw [PGROUNDDOWN_toNat, ha, BitVec.toNat_add, BitVec.toNat_ofNat]
  unfold PGSIZE
  omega

theorem page_end (a : Addr) : PGROUNDDOWN a + BitVec.ofNat 64 PGSIZE
    = a + BitVec.ofNat 64 (PGSIZE - (a - PGROUNDDOWN a).toNat) := by
  apply BitVec.eq_of_toNat_eq
  have ha := PGROUNDDOWN_toNat a
  have hlt := a.isLt
  unfold PGSIZE at *
  rw [BitVec.toNat_sub_of_le (by rw [BitVec.le_def]; omega), BitVec.toNat_add, BitVec.toNat_add, ha,
    BitVec.toNat_ofNat, BitVec.toNat_ofNat]
  omega

theorem page_left (a : Addr) : 0 < PGSIZE - (a - PGROUNDDOWN a).toNat := by
  have ha := PGROUNDDOWN_toNat a
  have hlt := a.isLt
  unfold PGSIZE at *
  rw [BitVec.toNat_sub_of_le (by rw [BitVec.le_def]; omega), ha]
  omega

/-- **`copyin` succeeds exactly if every byte can be read.** -/
theorem copyinWalk_ok_iff {ok : Addr → Bool} :
    ∀ (fuel : Nat) (srcva : Addr) (len done : Nat), len ≤ fuel →
      (copyinWalk ok fuel srcva len done = .ok ↔
        ∀ j, j < len → Reads ok (srcva + BitVec.ofNat 64 j)) := by
  intro fuel
  induction fuel with
  | zero =>
    intro srcva len done hlen
    exact ⟨fun _ j hj => absurd hj (by omega), fun _ => rfl⟩
  | succ fuel ih =>
    intro srcva len done hlen
    rw [copyinWalk]
    split
    next hpos =>
      have hleft := page_left srcva
      dsimp only
      split
      next hbad =>
        refine ⟨fun h => absurd h (by simp), fun h => ?_⟩
        have h0 := h 0 hpos
        rw [Reads, PGROUNDDOWN_same hleft, hbad] at h0
        cases h0
      next hgood =>
        have hgood : ok (PGROUNDDOWN srcva) = true := by simpa using hgood
        rw [ih _ _ _ (by omega)]
        constructor
        · intro h j hj
          by_cases hin : j < PGSIZE - (srcva - PGROUNDDOWN srcva).toNat
          · rw [Reads, PGROUNDDOWN_same hin]
            exact hgood
          · -- a later page
            have := h (j - (PGSIZE - (srcva - PGROUNDDOWN srcva).toNat)) (by omega)
            rw [page_end, BitVec.add_assoc, ← BitVec.ofNat_add, Nat.add_sub_cancel' (by omega)]
              at this
            exact this
        · intro h j hj
          have := h (PGSIZE - (srcva - PGROUNDDOWN srcva).toNat + j) (by omega)
          rw [BitVec.ofNat_add, ← BitVec.add_assoc, ← page_end] at this
          exact this
    next hpos => exact ⟨fun _ j hj => absurd hj (by omega), fun _ => rfl⟩

/-! ## A loop that stops short -/

/-- The loop of `pipewrite` sees the ring state and how far it is. -/
def Room (total : Nat) (n : Int) (pi : Pipe) (i : Int) : Prop :=
  0 ≤ i ∧ i < n ∧ pi.used + (n - i).toNat ≤ total ∧ pi.readopen = true

/-- What a short write has done when it leaves the loop: the pipe took bytes
`i..e` of the buffer, and `B` holds where it stopped unless nothing was taken. -/
structure Stopped (total : Nat) (src : Nat → UInt8) (B : Uint → Prop) (pi : Pipe) (i : Int)
    (r : WritePass) : Prop where
  fin : r.fin = .leave
  le : i ≤ r.i
  nwrite : r.pi.nwrite = pi.nwrite + BitVec.ofNat 32 (r.i - i).toNat
  bytes : r.pi.bytes total
    = pi.bytes total ++ (List.range (r.i - i).toNat).map fun j => src (i.toNat + j)
  bound : r.i = i ∨ B r.pi.nwrite

/-- **One induction for all loops.** An iteration takes `len` bytes if they end at
or before `k`, and leaves otherwise; then the loop stops at the last of its steps
that is at most `k`. -/
theorem writeLoop_short {total : Nat} {iter : Pipe → Int → WriteOut} {n : Int} {k : Nat}
    (src : Nat → UInt8) (B : Uint → Prop) (len : Pipe → Int → Nat) (hdvd : total ∣ 2 ^ 32)
    (ht : total ≤ 4096) (hk : (k : Int) < n)
    (hlen : ∀ pi i, Room total n pi i → 0 < len pi i ∧ (len pi i : Int) ≤ n - i ∧
      pi.nwrite.toNat % total + len pi i ≤ total)
    (hok : ∀ pi i, Room total n pi i → i + len pi i ≤ k →
      iter pi i = ⟨pi.pushed total (fun j => src (i.toNat + j)) (len pi i), i + len pi i, false⟩ ∧
        B (pi.nwrite + BitVec.ofNat 32 (len pi i)))
    (hfail : ∀ pi i, Room total n pi i → i ≤ k → k < i + len pi i → ∃ m src', m ≤ len pi i ∧
      iter pi i = ⟨{ pi with data := Ring.blit pi.data (pi.nwrite.toNat % total) m src' }, i,
        true⟩) :
    ∀ (w : Nat) (pi : Pipe) (i : Int) (fuel : Nat), (n - i).toNat = w → i ≤ k →
      Room total n pi i → w < fuel →
      ∃ r, writeLoop iter total false n fuel pi i = some r ∧ Stopped total src B pi i r ∧
        r.i ≤ k ∧ ∃ pi', Room total n pi' r.i ∧ pi'.nwrite = r.pi.nwrite ∧
          k < r.i + len pi' r.i := by
  intro w
  induction w using Nat.strong_induction_on with
  | _ w ih =>
    intro pi i fuel hw hik hroom hfuel
    obtain ⟨hi0, hi, hused, hopen⟩ := hroom
    obtain ⟨fuel, rfl⟩ : ∃ f, fuel = f + 1 := ⟨fuel - 1, by omega⟩
    obtain ⟨hpos, hrem, hwrap⟩ := hlen pi i ⟨hi0, hi, hused, hopen⟩
    have hnfull : ¬pi.full total = true := by
      rw [full_iff (by omega)]
      omega
    have hgo : ¬(pi.readopen = false ∨ (false : Bool) = true) := by
      rw [hopen]
      decide
    rw [writeLoop, if_pos hi, if_neg hgo, if_neg hnfull]
    by_cases hend : i + len pi i ≤ k
    · -- the chunk fits; the rest of the loop starts behind it
      obtain ⟨ho, hB⟩ := hok pi i ⟨hi0, hi, hused, hopen⟩ hend
      rw [ho]
      have hused' := used_pushed total (fun j => src (i.toNat + j))
        (show pi.used + len pi i < 2 ^ 32 by omega)
      obtain ⟨r, hr, hst, hrk, hlast⟩ := ih (n - (i + len pi i)).toNat (by omega)
        (pi.pushed total (fun j => src (i.toNat + j)) (len pi i)) (i + len pi i) fuel rfl hend
        ⟨by omega, by omega, by rw [hused']; omega, hopen⟩ (by omega)
      have hle := hst.le
      refine ⟨r, hr, ⟨hst.fin, by omega, ?_, ?_, ?_⟩, hrk, hlast⟩
      · rw [hst.nwrite]
        show pi.nwrite + BitVec.ofNat 32 (len pi i) + _ = _
        rw [BitVec.add_assoc, ← BitVec.ofNat_add]
        congr 2
        omega
      · rw [hst.bytes, bytes_pushed hdvd (by omega) (by omega) hwrap, List.append_assoc]
        congr 1
        rw [show (r.i - i).toNat = len pi i + (r.i - (i + len pi i)).toNat by omega, List.range_add,
          List.map_append, List.map_map]
        congr 1
        apply List.map_congr_left
        intro j _
        show src ((i + len pi i).toNat + j) = src (i.toNat + (len pi i + j))
        congr 1
        omega
      · refine .inr ?_
        rcases hst.bound with he | hb
        · have hn := hst.nwrite
          rw [he, show (i + (len pi i : Int) - (i + len pi i)).toNat = 0 by omega,
            BitVec.add_zero] at hn
          rw [hn]
          exact hB
        · exact hb
    · -- `copyin` fails in this chunk, and what it copied is forgotten
      obtain ⟨m, src', hm, ho⟩ := hfail pi i ⟨hi0, hi, hused, hopen⟩ hik (by omega)
      rw [ho]
      refine ⟨_, rfl, ⟨rfl, Int.le_refl _, ?_, ?_, .inl rfl⟩, hik, pi, ⟨hi0, hi, hused, hopen⟩, rfl,
        Int.lt_of_not_ge hend⟩
      · rw [Int.sub_self]
        exact (BitVec.add_zero _).symm
      · rw [Int.sub_self]
        show ({ pi with data := _ } : Pipe).bytes total = _
        rw [bytes_scribble hdvd (by omega) (by omega)]
        simp

/-! ## The two loops -/

/-- `copyin` from the user's buffer at `i`: one byte in v1, the chunk in v2..v8. -/
def copyinAt (ok : Addr → Bool) (addr : Addr) (i : Int) (len : Nat) : Copy :=
  copyinWalk ok len (addr + BitVec.ofInt 64 i) len 0

/-- A pass of `pipewrite` in version `v`, `copyin` going by what can be read. -/
def shortPass (v : Version) (ok : Addr → Bool) (killed : Bool) (mem : Mem) (q : Req) :
    Nat → Pipe → Int → Option WritePass :=
  writeLoop (fun pi i => writeIter v pi mem q.addr q.n i (copyinAt ok q.addr i
    (if bulkCopy v = true then (writeChunk v pi q.n i).toCopy.toNat else 1)))
    (pipeTotal v) killed q.n

/-- The v1 loop with a ring of `total` bytes. -/
def byteShortPass (total : Nat) (ok : Addr → Bool) (killed : Bool) (mem : Mem) (q : Req) :
    Nat → Pipe → Int → Option WritePass :=
  writeLoop (fun pi i => byteWrite total pi mem q.addr i (copyinAt ok q.addr i 1)) total killed q.n

/-- Exactly the first `k` bytes of the buffer can be read. -/
def ReadsFirst (ok : Addr → Bool) (q : Req) (k : Nat) : Prop :=
  (k : Int) < q.n ∧ ∀ j : Nat, (j : Int) < q.n → (Reads ok (q.addr + BitVec.ofNat 64 j) ↔ j < k)

/-- `copyin` of bytes `i..i + len`. -/
theorem copyinAt_cases {ok : Addr → Bool} {q : Req} {k : Nat} (h : ReadsFirst ok q k) {i : Int}
    (hi : 0 ≤ i) {len : Nat} (hlen : (len : Int) ≤ q.n - i) (hik : i ≤ k) :
    (i + len ≤ k → copyinAt ok q.addr i len = .ok) ∧
      (k < i + len → ∃ m, copyinAt ok q.addr i len = .fail m) := by
  obtain ⟨m, rfl⟩ := Int.eq_ofNat_of_zero_le hi
  have hsrc : ∀ j, q.addr + BitVec.ofInt 64 (m : Int) + BitVec.ofNat 64 j
      = q.addr + BitVec.ofNat 64 (m + j) := by
    intro j
    rw [ofInt_natCast, BitVec.add_assoc, ← BitVec.ofNat_add]
  have hiff : copyinAt ok q.addr (m : Int) len = .ok ↔ _ :=
    copyinWalk_ok_iff len (q.addr + BitVec.ofInt 64 (m : Int)) len 0 (Nat.le_refl _)
  constructor
  · intro hend
    refine hiff.mpr fun j hj => ?_
    rw [hsrc, h.2 (m + j) (by push_cast; omega)]
    omega
  · intro hend
    cases hc : copyinAt ok q.addr (m : Int) len with
    | fail j => exact ⟨j, rfl⟩
    | ok =>
      -- byte `k` is among them
      have hk := hiff.mp hc (k - m) (by omega)
      rw [hsrc, show m + (k - m) = k by omega, h.2 k h.1] at hk
      omega

/-- Where chunks are cut: at the end of the array, in v3 of the sub-buffer. -/
def cut : Version → Nat
  | .v3 => BUFSIZE
  | v => pipeTotal v

theorem cut_pos (v : Version) : 0 < cut v := by
  cases v <;> decide

theorem cut_dvd (v : Version) : cut v ∣ 2 ^ 32 := by
  cases v <;> decide

/-- With room for the whole request a chunk ends at the cut, or with the request. -/
theorem writeChunk_len {v : Version} {pi : Pipe} {q : Req} {i : Int}
    (h : Room (pipeTotal v) q.n pi i) : (writeChunk v pi q.n i).toCopy.toNat
      = min (q.n - i).toNat (cut v - pi.nwrite.toNat % cut v) := by
  obtain ⟨hi0, hi, hused, -⟩ := h
  have hle := pipeTotal_le v
  have hfree : (BitVec.ofNat 32 (pipeTotal v) - (pi.nwrite - pi.nread)).toNat
      = pipeTotal v - pi.used := ofNat_sub_toNat (by omega) (by show pi.used ≤ _; omega)
  have hmin : ∀ c, min (q.n - i).toNat
      (min (BitVec.ofNat 32 (pipeTotal v) - (pi.nwrite - pi.nread)).toNat c)
        = min (q.n - i).toNat c := by
    intro c
    omega
  cases v
  case v3 =>
    rw [show writeChunk .v3 pi q.n i = ringChunk _ _ _ _ from rfl, ringChunk_len hi hi0 q.n_lt,
      hmin]
    rfl
  all_goals
    rw [show writeChunk _ pi q.n i = flatChunk _ _ _ _ _ from rfl,
      flatChunk_len (by decide) (by decide) hi hi0 q.n_lt, hmin]
    rfl

/-- **A bulk loop** stops at the last chunk boundary that is at most `k`. -/
theorem bulk_short {v : Version} (hv : bulkCopy v = true) {ok : Addr → Bool} {mem : Mem} {q : Req}
    {k : Nat} (h : ReadsFirst ok q k) {pi : Pipe} (hroom : Room (pipeTotal v) q.n pi 0) {fuel : Nat}
    (hfuel : q.n.toNat < fuel) :
    ∃ r, shortPass v ok false mem q fuel pi 0 = some r ∧
      Stopped (pipeTotal v) (userBytes mem q.addr 0) (fun w => w.toNat % cut v = 0) pi 0 r ∧
      r.i ≤ k ∧ k < r.i + (cut v - r.pi.nwrite.toNat % cut v : Nat) := by
  have hspec : ∀ pi i, Room (pipeTotal v) q.n pi i → ∃ room,
      ChunkSpec (pipeTotal v) pi.nwrite room (q.n - i) (writeChunk v pi q.n i)
        (writeChunk v pi q.n i).toCopy.toNat := by
    intro pi i hr
    obtain ⟨hi0, hi, hused, -⟩ := hr
    have hle := pipeTotal_le v
    have hnfull : pi.full (pipeTotal v) = false := by
      rw [← Bool.not_eq_true, full_iff (by omega)]
      omega
    obtain ⟨len, hch⟩ := writeChunk_spec (v := v) (by omega) hnfull hi hi0 q.n_lt
    rw [hch.toCopy_eq, Int.toNat_natCast]
    exact ⟨_, hch⟩
  have hiter : ∀ pi i r, writeIter v pi mem q.addr q.n i r = bulkWrite v pi mem q.addr q.n i r :=
    fun pi i r => by rw [writeIter, if_pos hv]
  have hsrc : ∀ {i : Int}, 0 ≤ i → (fun j => userBytes mem q.addr 0 (i.toNat + j))
      = userBytes mem q.addr i := fun hi => funext fun j => (userBytes_shift hi mem q.addr j).symm
  have hlen : ∀ pi i, Room (pipeTotal v) q.n pi i → 0 < (writeChunk v pi q.n i).toCopy.toNat ∧
      ((writeChunk v pi q.n i).toCopy.toNat : Int) ≤ q.n - i ∧
      pi.nwrite.toNat % pipeTotal v + (writeChunk v pi q.n i).toCopy.toNat ≤ pipeTotal v := by
    intro pi i hr
    obtain ⟨room, hch⟩ := hspec pi i hr
    exact ⟨hch.pos, hch.le_rem, hch.slot_eq ▸ hch.le_wrap⟩
  have hok : ∀ pi i, Room (pipeTotal v) q.n pi i →
      i + (writeChunk v pi q.n i).toCopy.toNat ≤ k →
      writeIter v pi mem q.addr q.n i (copyinAt ok q.addr i
          (if bulkCopy v = true then (writeChunk v pi q.n i).toCopy.toNat else 1))
        = ⟨pi.pushed (pipeTotal v) (fun j => userBytes mem q.addr 0 (i.toNat + j))
            (writeChunk v pi q.n i).toCopy.toNat, i + (writeChunk v pi q.n i).toCopy.toNat, false⟩ ∧
      (pi.nwrite + BitVec.ofNat 32 (writeChunk v pi q.n i).toCopy.toNat).toNat % cut v = 0 := by
    intro pi i hr hend
    obtain ⟨room, hch⟩ := hspec pi i hr
    have hrem := hch.le_rem
    have hk := h.1
    rw [if_pos hv, hiter, (copyinAt_cases h hr.1 hch.le_rem (by omega)).1 hend, bulkWrite_ok hch,
      hsrc hr.1]
    refine ⟨rfl, ?_⟩
    -- a chunk shorter than the request ends at the cut
    have hlen := writeChunk_len hr
    have hmod := Nat.mod_lt pi.nwrite.toNat (cut_pos v)
    rw [Ring.toNat_add_mod (cut_dvd v), show (writeChunk v pi q.n i).toCopy.toNat
      = cut v - pi.nwrite.toNat % cut v by omega, ← Nat.mod_add_mod,
      Nat.add_sub_cancel' (Nat.le_of_lt hmod), Nat.mod_self]
  have hfail : ∀ pi i, Room (pipeTotal v) q.n pi i → i ≤ k →
      k < i + (writeChunk v pi q.n i).toCopy.toNat →
      ∃ m src', m ≤ (writeChunk v pi q.n i).toCopy.toNat ∧
      writeIter v pi mem q.addr q.n i (copyinAt ok q.addr i
          (if bulkCopy v = true then (writeChunk v pi q.n i).toCopy.toNat else 1))
        = ⟨{ pi with data := Ring.blit pi.data (pi.nwrite.toNat % pipeTotal v) m src' }, i,
            true⟩ := by
    intro pi i hr hik hend
    obtain ⟨room, hch⟩ := hspec pi i hr
    obtain ⟨m, hm⟩ := (copyinAt_cases h hr.1 hch.le_rem hik).2 hend
    rw [if_pos hv, hiter, hm, bulkWrite_fail m hch]
    exact ⟨_, _, Nat.min_le_right _ _, rfl⟩
  obtain ⟨r, hr, hst, hrk, pi', hroom', hn', hlast⟩ := writeLoop_short
    (userBytes mem q.addr 0) (fun w => w.toNat % cut v = 0) _ (pipeTotal_dvd v) (pipeTotal_le v) h.1
    hlen hok hfail q.n.toNat pi 0 fuel (by omega) (by omega) hroom hfuel
  refine ⟨r, hr, hst, hrk, ?_⟩
  rw [writeChunk_len hroom', hn'] at hlast
  omega

/-- **The byte loop** stops at `k`. -/
theorem byte_short {total : Nat} (hdvd : total ∣ 2 ^ 32) (ht : total ≤ 4096) {ok : Addr → Bool}
    {mem : Mem} {q : Req} {k : Nat} (h : ReadsFirst ok q k) {pi : Pipe}
    (hroom : Room total q.n pi 0)
    {fuel : Nat} (hfuel : q.n.toNat < fuel) :
    ∃ r, byteShortPass total ok false mem q fuel pi 0 = some r ∧
      Stopped total (userBytes mem q.addr 0) (fun _ => True) pi 0 r ∧ r.i = k := by
  have hpush : ∀ (pi : Pipe) (i : Int), Room total q.n pi i →
      byteWrite total pi mem q.addr i .ok
        = ⟨pi.pushed total (fun j => userBytes mem q.addr 0 (i.toNat + j)) 1, i + (1 : Nat),
          false⟩ := by
    intro pi i hr
    have h0 : 0 < total := by
      have := hr.2.1
      have := hr.2.2.1
      omega
    have hmod := Nat.mod_lt pi.nwrite.toNat h0
    have hb : byteWrite total (pi.pushed total (userBytes mem q.addr i) 0) mem q.addr
        (i + (0 : Nat)) .ok = _ := byteWrite_pushed hdvd (by omega) (by omega)
    rw [pushed_zero] at hb
    rw [show (fun j => userBytes mem q.addr 0 (i.toNat + j)) = userBytes mem q.addr i from
      funext fun j => (userBytes_shift hr.1 mem q.addr j).symm]
    simpa using hb
  have hlen : ∀ pi i, Room total q.n pi i → 0 < 1 ∧ ((1 : Nat) : Int) ≤ q.n - i ∧
      pi.nwrite.toNat % total + 1 ≤ total := by
    intro pi i hr
    obtain ⟨hi0, hi, hused, -⟩ := hr
    have hmod := Nat.mod_lt pi.nwrite.toNat (show 0 < total by omega)
    exact ⟨Nat.one_pos, by omega, by omega⟩
  have hok : ∀ pi i, Room total q.n pi i → i + (1 : Nat) ≤ k →
      byteWrite total pi mem q.addr i (copyinAt ok q.addr i 1)
        = ⟨pi.pushed total (fun j => userBytes mem q.addr 0 (i.toNat + j)) 1, i + (1 : Nat),
            false⟩ ∧ True := by
    intro pi i hr hend
    have := hr.2.1
    rw [(copyinAt_cases h hr.1 (by omega) (by omega)).1 hend, hpush pi i hr]
    exact ⟨rfl, trivial⟩
  have hfail : ∀ pi i, Room total q.n pi i → i ≤ k → k < i + (1 : Nat) → ∃ m src', m ≤ 1 ∧
      byteWrite total pi mem q.addr i (copyinAt ok q.addr i 1)
        = ⟨{ pi with data := Ring.blit pi.data (pi.nwrite.toNat % total) m src' }, i, true⟩ := by
    intro pi i hr hik hend
    have := hr.2.1
    obtain ⟨m, hm⟩ := (copyinAt_cases h hr.1 (by omega) hik).2 hend
    rw [hm]
    exact ⟨0, fun _ => 0, by omega, by rw [Ring.blit_zero]; rfl⟩
  obtain ⟨r, hr, hst, hrk, pi', hroom', hn', hlast⟩ := writeLoop_short
    (userBytes mem q.addr 0) (fun _ => True) (fun _ _ => 1) hdvd ht h.1 hlen hok hfail
    q.n.toNat pi 0 fuel (by omega) (by omega) hroom hfuel
  exact ⟨r, hr, hst, by omega⟩

/-! ## Exactly when they agree -/

/-- A pass in version `v` and a v1 pass over a ring of the same capacity both
return `k`, with `nwrite` and the bytes in the ring the same. -/
def ShortAgree (v : Version) (ok : Addr → Bool) (mem : Mem) (q : Req) (k fuel : Nat)
    (pi : Pipe) : Prop :=
  ∃ r r', shortPass v ok false mem q fuel pi 0 = some r ∧
    byteShortPass (pipeTotal v) ok false mem q fuel pi 0 = some r' ∧
    r.fin = .leave ∧ r'.fin = .leave ∧ r.i = k ∧ r'.i = k ∧
    r.pi.nwrite = r'.pi.nwrite ∧ r.pi.bytes (pipeTotal v) = r'.pi.bytes (pipeTotal v)

/-- Between two cuts there is no third. -/
theorem cut_unique {c x e k : Nat} (hek : e ≤ k) (hnext : k < e + (c - (x + e) % c))
    (hcut : (x + k) % c = 0) : e = k := by
  by_contra hne
  have hsplit : x + k = (x + e) + (k - e) := by omega
  rw [hsplit, Nat.add_mod, Nat.mod_eq_of_lt (show k - e < c by omega),
    Nat.mod_eq_of_lt (show (x + e) % c + (k - e) < c by omega)] at hcut
  omega

/-- **Short writes agree exactly at the cuts.** With room for the request, a
reader, and a buffer of which exactly the first `k` bytes can be read, the bulk
loop does what the byte loop does if and only if nothing can be read, or a chunk
ends at byte `k`. -/
theorem short_write_iff {v : Version} (hv : bulkCopy v = true) {ok : Addr → Bool} {mem : Mem}
    {q : Req} {k : Nat} (h : ReadsFirst ok q k) {pi : Pipe}
    (hused : pi.used + q.n.toNat ≤ pipeTotal v) (hopen : pi.readopen = true) {fuel : Nat}
    (hfuel : q.n.toNat < fuel) :
    ShortAgree v ok mem q k fuel pi ↔ k = 0 ∨ (pi.nwrite.toNat + k) % cut v = 0 := by
  have hn := h.1
  have hroom : Room (pipeTotal v) q.n pi 0 :=
    ⟨Int.le_refl _, by omega, by rw [Int.sub_zero]; exact hused, hopen⟩
  obtain ⟨r, hr, hst, hrk, hnext⟩ := bulk_short hv h hroom hfuel
  obtain ⟨r', hr', hst', hk'⟩ :=
    byte_short (pipeTotal_dvd v) (pipeTotal_le v) h hroom hfuel
  obtain ⟨e, he⟩ := Int.eq_ofNat_of_zero_le hst.le
  have hcount : ∀ x : Nat, ((x : Int) - 0).toNat = x := fun x => by omega
  have hw := hst.nwrite
  have hw' := hst'.nwrite
  have hb := hst.bytes
  have hb' := hst'.bytes
  have hbound := hst.bound
  rw [he, hcount] at hw hb
  rw [hk', hcount] at hw' hb'
  have hmod : r.pi.nwrite.toNat % cut v = (pi.nwrite.toNat + e) % cut v := by
    rw [hw, Ring.toNat_add_mod (cut_dvd v)]
  rw [he] at hrk hnext hbound
  rw [hmod] at hnext hbound
  constructor
  · rintro ⟨r₁, r₁', h₁, -, -, -, hi, -⟩
    rw [hr, Option.some.injEq] at h₁
    rw [← h₁, he] at hi
    obtain rfl : e = k := by omega
    rcases hbound with h0 | h0
    · exact .inl (by omega)
    · exact .inr h0
  · intro hcut
    have hek : e = k := by
      rcases hcut with h0 | h0
      · omega
      · exact cut_unique (by omega) (by omega) h0
    subst hek
    exact ⟨r, r', hr, hr', hst.fin, hst'.fin, he, hk', hw.trans hw'.symm, hb.trans hb'.symm⟩

/-- Only the page at `0` is there. -/
def firstPage : Addr → Bool := fun va0 => va0 == 0

theorem firstPage_reads {q : Req} {k : Nat} (hk : (k : Int) < q.n)
    (hend : q.addr.toNat + k = PGSIZE) : ReadsFirst firstPage q k := by
  refine ⟨hk, fun j hj => ?_⟩
  have hn := q.n_lt
  unfold PGSIZE at hend
  have haddr : (q.addr + BitVec.ofNat 64 j).toNat = q.addr.toNat + j := by
    rw [BitVec.toNat_add, BitVec.toNat_ofNat]
    omega
  have hpage : (PGROUNDDOWN (q.addr + BitVec.ofNat 64 j)).toNat
      = (q.addr.toNat + j) / 4096 * 4096 := by
    rw [PGROUNDDOWN_toNat, haddr]
    rfl
  show (PGROUNDDOWN _ == 0) = true ↔ j < k
  rw [beq_iff_eq, ← BitVec.toNat_inj, hpage]
  show (q.addr.toNat + j) / 4096 * 4096 = 0 ↔ j < k
  omega

/-- Four bytes of which two are on that page, and two hundred of which a hundred
are. -/
def acrossPage : Req := ⟨4094, 4, by decide, by decide⟩
def farAcrossPage : Req := ⟨3996, 200, by decide, by decide⟩

/-- **A chunk across the end of the last page is refused whole.** v2 on an empty
ring: the byte loop takes the two bytes it can read and returns `2`; the bulk loop
returns `0`. -/
theorem short_write_dropped :
    ReadsFirst firstPage acrossPage 2 ∧
    (shortPass .v2 firstPage false (fun _ => 7) acrossPage 5
      ⟨fun _ => 0, 0, 0, true, true⟩ 0).map (fun r => (r.i, r.pi.nwrite, r.pi.bytes 512))
      = some (0, 0, []) ∧
    (byteShortPass 512 firstPage false (fun _ => 7) acrossPage 5
      ⟨fun _ => 0, 0, 0, true, true⟩ 0).map (fun r => (r.i, r.pi.nwrite, r.pi.bytes 512))
      = some (2, 2, [7, 7]) ∧
    ¬ShortAgree .v2 firstPage (fun _ => 7) acrossPage 2 5 ⟨fun _ => 0, 0, 0, true, true⟩ := by
  refine ⟨firstPage_reads (by decide) (by decide), by decide +kernel, by decide +kernel,
    fun hagree => ?_⟩
  have hrun : (shortPass .v2 firstPage false (fun _ => 7) acrossPage 5
      ⟨fun _ => 0, 0, 0, true, true⟩ 0).map (fun r => r.i) = some 0 := by decide +kernel
  obtain ⟨r, -, hr, -, -, -, hi, -⟩ := hagree
  rw [hr, Option.map_some, hi] at hrun
  cases hrun

/-- v3 with a sub-buffer that ends where the page does. -/
theorem short_write_iff_at_cut :
    ShortAgree .v3 firstPage (fun _ => 7) farAcrossPage 100 201
      ⟨fun _ => 0, 412, 412, true, true⟩ :=
  (short_write_iff (v := .v3) rfl (firstPage_reads (by decide) (by decide)) (by decide) rfl
    (by decide)).mpr (.inr (by decide))

end Pipe

end Xv6
