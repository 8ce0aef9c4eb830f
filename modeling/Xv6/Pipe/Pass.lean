import Xv6.Pipe.Basic

/-!
# One uninterrupted pass: bulk copy is byte-by-byte copy

A *pass* is what one process does to the ring between taking `pi->lock` and
giving it up again: the `while` loop of `pipewrite` until it returns or has to
sleep because the ring is full, the copy loop of `piperead` until it returns.
`writeLoop` and `readLoop` are those loops around an iteration; the fuel counts
iterations, and one more than the bytes still wanted always suffices.

The comparison is between an induction over chunks and an induction over bytes.
The bridge is `writeLoop_byte_run`: `len` iterations of the v1 loop that do not
cross the end of the ring are one `pushed` of `len` bytes, which by
`bulkWrite_ok` is also what one iteration of the bulk loop does. So a bulk
iteration is a stretch of byte iterations, and strong induction on the bytes
still wanted closes the loop (`writeLoop_bulk_eq`); reading is the same with
`popped` and `copyout`.
-/

namespace Xv6.Pipe

open Lib

/-- The arguments of `pipewrite` and `piperead`; `n` is a C `int`. -/
structure Req where
  addr : Addr
  n : Int
  n_ge : -2 ^ 31 ≤ n
  n_lt : n < 2 ^ 31
  deriving DecidableEq

/-- The arguments from the registers they come in. -/
def Req.of (addr : Addr) (n : BitVec 32) : Req :=
  ⟨addr, n.toInt, BitVec.le_toInt n, BitVec.toInt_lt⟩

/-- How a pass of the `pipewrite` loop ends: `return -1`, leaving the loop, or
`sleep(&pi->nwrite, ..)`. -/
inductive WriteEnd
  | fail | leave | sleep
  deriving DecidableEq, Repr

/-- The state a pass of `pipewrite` ends in, and its decision. -/
structure WritePass where
  pi : Pipe
  i : Int
  fin : WriteEnd

/-- `while(i < n){ .. }` of `pipewrite` around the iteration `iter`, up to the
first `sleep`. The flags are those the lock protects, `killed` is
`killed(pr)`. -/
def writeLoop (iter : Pipe → Int → WriteOut) (total : Nat) (killed : Bool) (n : Int) :
    Nat → Pipe → Int → Option WritePass
  | 0, _, _ => none
  | fuel + 1, pi, i =>
    if i < n then
      if pi.readopen = false ∨ killed = true then some ⟨pi, i, .fail⟩
      else if pi.full total then some ⟨pi, i, .sleep⟩
      else
        let o := iter pi i
        if o.brk then some ⟨o.pi, o.i, .leave⟩
        else writeLoop iter total killed n fuel o.pi o.i
    else some ⟨pi, i, .leave⟩

/-- A pass of `pipewrite` in version `v`, every `copyin` succeeding. -/
def writePass (v : Version) (killed : Bool) (mem : Mem) (q : Req) :
    Nat → Pipe → Int → Option WritePass :=
  writeLoop (fun pi i => writeIter v pi mem q.addr q.n i .ok) (pipeTotal v) killed q.n

/-- The v1 loop with a ring of `total` bytes. -/
def byteWritePass (total : Nat) (killed : Bool) (mem : Mem) (q : Req) :
    Nat → Pipe → Int → Option WritePass :=
  writeLoop (fun pi i => byteWrite total pi mem q.addr i .ok) total killed q.n

/-- The state a pass of `piperead` ends in; `i` is its return value. -/
structure ReadPass where
  pi : Pipe
  mem : Mem
  i : Int

/-- The copy loop of `piperead` around the iteration `iter`. -/
def readLoop (iter : Pipe → Mem → Int → ReadOut) (n : Int) :
    Nat → Pipe → Mem → Int → Option ReadPass
  | 0, _, _, _ => none
  | fuel + 1, pi, mem, i =>
    if i < n then
      if pi.empty then some ⟨pi, mem, i⟩
      else
        let o := iter pi mem i
        if o.brk then some ⟨o.pi, o.mem, o.i⟩
        else readLoop iter n fuel o.pi o.mem o.i
    else some ⟨pi, mem, i⟩

/-- A pass of `piperead` in version `v`, every `copyout` succeeding. -/
def readPass (v : Version) (q : Req) : Nat → Pipe → Mem → Int → Option ReadPass :=
  readLoop (fun pi mem i => readIter v pi mem q.addr q.n i .ok) q.n

/-- The v1 loop with a ring of `total` bytes. -/
def byteReadPass (total : Nat) (q : Req) : Nat → Pipe → Mem → Int → Option ReadPass :=
  readLoop (fun pi mem i => byteRead total pi mem q.addr i .ok) q.n

/-! ## Writing -/

/-- One more byte at the writer's slot. -/
theorem byteWrite_pushed {total : Nat} {pi : Pipe} {mem : Mem} {addr : Addr} {i : Int} {len : Nat}
    (hdvd : total ∣ 2 ^ 32) (ht : total < 2 ^ 32)
    (hwrap : pi.nwrite.toNat % total + (len + 1) ≤ total) :
    byteWrite total (pi.pushed total (userBytes mem addr i) len) mem addr (i + len) .ok
      = ⟨pi.pushed total (userBytes mem addr i) (len + 1), i + (len + 1 : Nat), false⟩ := by
  have hslot : ((pi.nwrite + BitVec.ofNat 32 len) % BitVec.ofNat 32 total).toNat
      = pi.nwrite.toNat % total + len := by
    rw [umod_ofNat ht, Ring.toNat_add_mod hdvd, Ring.mod_add_of_run hwrap (by omega)]
  have hsrc : mem (addr + BitVec.ofInt 64 (i + len)) = userBytes mem addr i len := by
    rw [userBytes, BitVec.ofInt_add, ofInt_natCast, BitVec.add_assoc]
  have hcnt : pi.nwrite + BitVec.ofNat 32 len + 1 = pi.nwrite + BitVec.ofNat 32 (len + 1) := by
    rw [BitVec.ofNat_add, ← BitVec.add_assoc]
    rfl
  simp only [byteWrite, pushed, hslot, hsrc, hcnt, Ring.blit_succ]
  rw [show i + (len : Int) + 1 = i + ((len + 1 : Nat) : Int) by omega]

/-- **A stretch of byte iterations** inside the ring is one `pushed`. -/
theorem writeLoop_byte_run {total : Nat} {killed : Bool} {mem : Mem} {q : Req} {pi : Pipe}
    {i : Int} (hdvd : total ∣ 2 ^ 32) (ht : total < 2 ^ 32) (hk : killed = false)
    (hopen : pi.readopen = true) :
    ∀ (len fuel : Nat), (len : Int) ≤ q.n - i → pi.used + len ≤ total →
      pi.nwrite.toNat % total + len ≤ total →
      byteWritePass total killed mem q (fuel + len) pi i
        = byteWritePass total killed mem q fuel
            (pi.pushed total (userBytes mem q.addr i) len) (i + len) := by
  intro len
  induction len with
  | zero =>
    intro fuel _ _ _
    rw [pushed_zero]
    simp
  | succ len ih =>
    intro fuel hle hroom hwrap
    -- the first `len` bytes, then one unfolding of the loop
    rw [show fuel + (len + 1) = (fuel + 1) + len by omega,
      ih (fuel + 1) (by omega) (by omega) (by omega)]
    have hused := used_pushed total (userBytes mem q.addr i)
      (show pi.used + len < 2 ^ 32 by omega)
    have hnfull : (pi.pushed total (userBytes mem q.addr i) len).full total = false := by
      rw [← Bool.not_eq_true, full_iff ht, hused]
      omega
    have hopen' : ¬((pi.pushed total (userBytes mem q.addr i) len).readopen = false
        ∨ killed = true) := by
      rw [hk]
      simp [pushed, hopen]
    rw [byteWritePass, writeLoop, if_pos (by omega), if_neg hopen', if_neg (by simp [hnfull])]
    simp only [byteWrite_pushed hdvd ht hwrap]
    rfl

/-- One bulk iteration that finds room. -/
theorem writePass_step {v : Version} (hv : bulkCopy v = true) {killed : Bool} {mem : Mem}
    {q : Req} {pi : Pipe} {i : Int} {room len : Nat} (hi : i < q.n) (hk : killed = false)
    (hopen : pi.readopen = true) (hfull : pi.full (pipeTotal v) = false)
    (hch : ChunkSpec (pipeTotal v) pi.nwrite room (q.n - i) (writeChunk v pi q.n i) len)
    (fuel : Nat) :
    writePass v killed mem q (fuel + 1) pi i
      = writePass v killed mem q fuel
          (pi.pushed (pipeTotal v) (userBytes mem q.addr i) len) (i + len) := by
  have hopen' : ¬(pi.readopen = false ∨ killed = true) := by
    rw [hk, hopen]
    decide
  rw [writePass, writeLoop, if_pos hi, if_neg hopen', if_neg (by simp [hfull])]
  simp only [writeIter, if_pos hv, bulkWrite_ok hch]
  rfl

/-- **Chunks against bytes**, by strong induction on the bytes still wanted. -/
theorem writeLoop_bulk_eq {v : Version} (hv : bulkCopy v = true) (killed : Bool) (mem : Mem)
    (q : Req) :
    ∀ (m : Nat) (pi : Pipe) (i : Int) (fuel fuel' : Nat), (q.n - i).toNat = m → 0 ≤ i →
      pi.used ≤ pipeTotal v → m < fuel → m < fuel' →
      ∃ r, writePass v killed mem q fuel pi i = some r ∧
        byteWritePass (pipeTotal v) killed mem q fuel' pi i = some r := by
  intro m
  induction m using Nat.strong_induction_on with
  | _ m ih =>
    intro pi i fuel fuel' hm hi0 hused hf hf'
    have ht : pipeTotal v < 2 ^ 32 := Nat.lt_of_le_of_lt (pipeTotal_le v) (by decide)
    obtain ⟨fuel, rfl⟩ : ∃ k, fuel = k + 1 := ⟨fuel - 1, by omega⟩
    by_cases hi : i < q.n
    · by_cases hstop : pi.readopen = false ∨ killed = true
      · -- killed or no reader: both return `-1` at once
        obtain ⟨fuel', rfl⟩ : ∃ k, fuel' = k + 1 := ⟨fuel' - 1, by omega⟩
        exact ⟨⟨pi, i, .fail⟩, by rw [writePass, writeLoop, if_pos hi, if_pos hstop],
          by rw [byteWritePass, writeLoop, if_pos hi, if_pos hstop]⟩
      · cases hfull : pi.full (pipeTotal v) with
        | true =>
          obtain ⟨fuel', rfl⟩ : ∃ k, fuel' = k + 1 := ⟨fuel' - 1, by omega⟩
          exact ⟨⟨pi, i, .sleep⟩,
            by rw [writePass, writeLoop, if_pos hi, if_neg hstop, if_pos hfull],
            by rw [byteWritePass, writeLoop, if_pos hi, if_neg hstop, if_pos hfull]⟩
        | false =>
          simp only [not_or, Bool.not_eq_false, Bool.not_eq_true] at hstop
          obtain ⟨hopen, hk⟩ := hstop
          obtain ⟨len, hch⟩ := writeChunk_spec hused hfull hi hi0 q.n_lt
          have hwrap := hch.slot_eq ▸ hch.le_wrap
          have hpos := hch.pos
          have hrem := hch.le_rem
          have hroom := hch.le_room
          have hused' := used_pushed (pipeTotal v) (userBytes mem q.addr i)
            (show pi.used + len < 2 ^ 32 by omega)
          obtain ⟨fuel', rfl⟩ : ∃ k, fuel' = k + len := ⟨fuel' - len, by omega⟩
          obtain ⟨r, hr, hr'⟩ := ih (m - len) (by omega)
            (pi.pushed (pipeTotal v) (userBytes mem q.addr i) len) (i + len) fuel fuel'
            (by omega) (by omega) (by omega) (by omega) (by omega)
          refine ⟨r, ?_, ?_⟩
          · rw [writePass_step hv hi hk hopen hfull hch]
            exact hr
          · rw [writeLoop_byte_run (pipeTotal_dvd v) ht hk hopen len fuel' hrem (by omega) hwrap]
            exact hr'
    · obtain ⟨fuel', rfl⟩ : ∃ k, fuel' = k + 1 := ⟨fuel' - 1, by omega⟩
      exact ⟨⟨pi, i, .leave⟩, by rw [writePass, writeLoop, if_neg hi],
        by rw [byteWritePass, writeLoop, if_neg hi]⟩

/-! ## Reading -/

@[simp] theorem copyout_zero (mem : Mem) (dstva : Addr) (data : Nat → UInt8) (slot : Nat) :
    copyout mem dstva data slot 0 = mem := rfl

/-- Copying one byte more. -/
theorem copyout_succ {mem : Mem} {dstva : Addr} {data : Nat → UInt8} {slot len : Nat}
    (hlen : len < 2 ^ 64) :
    copyout (copyout mem dstva data slot len) (dstva + BitVec.ofNat 64 len) data (slot + len) 1
      = copyout mem dstva data slot (len + 1) := by
  funext a
  have hd : (a - (dstva + BitVec.ofNat 64 len)).toNat < 1 ↔ (a - dstva).toNat = len := by
    rw [← BitVec.sub_sub]
    generalize a - dstva = d
    have hlt := d.isLt
    rw [BitVec.toNat_sub, BitVec.toNat_ofNat, Nat.mod_eq_of_lt hlen]
    omega
  unfold copyout
  by_cases h : (a - dstva).toNat = len
  · have h1 := hd.mpr h
    rw [if_pos h1, if_pos (by omega)]
    congr 1
    omega
  · rw [if_neg (fun hc => h (hd.mp hc))]
    by_cases hlt : (a - dstva).toNat < len
    · rw [if_pos hlt, if_pos (by omega)]
    · rw [if_neg hlt, if_neg (by omega)]

/-- One more byte from the reader's slot. -/
theorem byteRead_popped {total : Nat} {pi : Pipe} {mem : Mem} {addr : Addr} {i : Int} {len : Nat}
    (hdvd : total ∣ 2 ^ 32) (ht : total < 2 ^ 32)
    (hwrap : pi.nread.toNat % total + (len + 1) ≤ total) :
    byteRead total (pi.popped len)
        (copyout mem (addr + BitVec.ofInt 64 i) pi.data (pi.nread.toNat % total) len) addr
        (i + len) .ok
      = ⟨pi.popped (len + 1),
          copyout mem (addr + BitVec.ofInt 64 i) pi.data (pi.nread.toNat % total) (len + 1),
          i + (len + 1 : Nat), false⟩ := by
  have hslot : ((pi.nread + BitVec.ofNat 32 len) % BitVec.ofNat 32 total).toNat
      = pi.nread.toNat % total + len := by
    rw [umod_ofNat ht, Ring.toNat_add_mod hdvd, Ring.mod_add_of_run hwrap (by omega)]
  have hdst : addr + BitVec.ofInt 64 (i + len)
      = addr + BitVec.ofInt 64 i + BitVec.ofNat 64 len := by
    rw [BitVec.ofInt_add, ofInt_natCast, BitVec.add_assoc]
  have hcnt : pi.nread + BitVec.ofNat 32 len + 1 = pi.nread + BitVec.ofNat 32 (len + 1) := by
    rw [BitVec.ofNat_add, ← BitVec.add_assoc]
    rfl
  simp only [byteRead, popped, hslot, hdst, hcnt, copyout_succ (show len < 2 ^ 64 by omega)]
  rw [show i + (len : Int) + 1 = i + ((len + 1 : Nat) : Int) by omega]

/-- **A stretch of byte iterations** inside the ring is one `popped`. -/
theorem readLoop_byte_run {total : Nat} {q : Req} {pi : Pipe} {mem : Mem} {i : Int}
    (hdvd : total ∣ 2 ^ 32) (ht : total < 2 ^ 32) :
    ∀ (len fuel : Nat), (len : Int) ≤ q.n - i → len ≤ pi.used →
      pi.nread.toNat % total + len ≤ total →
      byteReadPass total q (fuel + len) pi mem i
        = byteReadPass total q fuel (pi.popped len)
            (copyout mem (q.addr + BitVec.ofInt 64 i) pi.data (pi.nread.toNat % total) len)
            (i + len) := by
  intro len
  induction len with
  | zero =>
    intro fuel _ _ _
    rw [popped_zero]
    simp
  | succ len ih =>
    intro fuel hle hroom hwrap
    rw [show fuel + (len + 1) = (fuel + 1) + len by omega,
      ih (fuel + 1) (by omega) (by omega) (by omega)]
    have hused : (pi.popped len).used = pi.used - len := used_popped (by omega)
    have hnempty : (pi.popped len).empty = false := by
      rw [← Bool.not_eq_true, empty_iff, hused]
      omega
    rw [byteReadPass, readLoop, if_pos (by omega), if_neg (by simp [hnempty])]
    simp only [byteRead_popped hdvd ht hwrap]
    rfl

/-- One bulk iteration that finds bytes. -/
theorem readPass_step {v : Version} (hv : bulkCopy v = true) {q : Req} {pi : Pipe} {mem : Mem}
    {i : Int} {room len : Nat} (hi : i < q.n) (hempty : pi.empty = false)
    (hch : ChunkSpec (pipeTotal v) pi.nread room (q.n - i) (readChunk v pi q.n i) len)
    (fuel : Nat) :
    readPass v q (fuel + 1) pi mem i
      = readPass v q fuel (pi.popped len)
          (copyout mem (q.addr + BitVec.ofInt 64 i) pi.data (pi.nread.toNat % pipeTotal v) len)
          (i + len) := by
  rw [readPass, readLoop, if_pos hi, if_neg (by simp [hempty])]
  simp only [readIter, if_pos hv, bulkRead_ok hch]
  rfl

/-- **Chunks against bytes** for the reader. -/
theorem readLoop_bulk_eq {v : Version} (hv : bulkCopy v = true) (q : Req) :
    ∀ (m : Nat) (pi : Pipe) (mem : Mem) (i : Int) (fuel fuel' : Nat), (q.n - i).toNat = m →
      0 ≤ i → m < fuel → m < fuel' →
      ∃ r, readPass v q fuel pi mem i = some r ∧
        byteReadPass (pipeTotal v) q fuel' pi mem i = some r := by
  intro m
  induction m using Nat.strong_induction_on with
  | _ m ih =>
    intro pi mem i fuel fuel' hm hi0 hf hf'
    have ht : pipeTotal v < 2 ^ 32 := Nat.lt_of_le_of_lt (pipeTotal_le v) (by decide)
    obtain ⟨fuel, rfl⟩ : ∃ k, fuel = k + 1 := ⟨fuel - 1, by omega⟩
    by_cases hi : i < q.n
    · cases hempty : pi.empty with
      | true =>
        obtain ⟨fuel', rfl⟩ : ∃ k, fuel' = k + 1 := ⟨fuel' - 1, by omega⟩
        exact ⟨⟨pi, mem, i⟩, by rw [readPass, readLoop, if_pos hi, if_pos hempty],
          by rw [byteReadPass, readLoop, if_pos hi, if_pos hempty]⟩
      | false =>
        obtain ⟨len, hch⟩ := readChunk_spec (v := v) hempty hi hi0 q.n_lt
        have hwrap := hch.slot_eq ▸ hch.le_wrap
        have hpos := hch.pos
        have hrem := hch.le_rem
        obtain ⟨fuel', rfl⟩ : ∃ k, fuel' = k + len := ⟨fuel' - len, by omega⟩
        obtain ⟨r, hr, hr'⟩ := ih (m - len) (by omega) (pi.popped len)
          (copyout mem (q.addr + BitVec.ofInt 64 i) pi.data (pi.nread.toNat % pipeTotal v) len)
          (i + len) fuel fuel' (by omega) (by omega) (by omega) (by omega)
        refine ⟨r, ?_, ?_⟩
        · rw [readPass_step hv hi hempty hch]
          exact hr
        · rw [readLoop_byte_run (pipeTotal_dvd v) ht len fuel' hrem hch.le_room hwrap]
          exact hr'
    · obtain ⟨fuel', rfl⟩ : ∃ k, fuel' = k + 1 := ⟨fuel' - 1, by omega⟩
      exact ⟨⟨pi, mem, i⟩, by rw [readPass, readLoop, if_neg hi],
        by rw [byteReadPass, readLoop, if_neg hi]⟩

/-! ## One iteration, in every version -/

/-- An iteration of any `pipewrite` that finds room: it accepts the next `len`
bytes of the buffer, or its `copyin` fails and the FIFO view does not change. -/
theorem writeIter_cases {v : Version} {pi : Pipe} (mem : Mem) (addr : Addr) {n i : Int}
    (hused : pi.used ≤ pipeTotal v) (hfull : pi.full (pipeTotal v) = false)
    (hi : i < n) (hi0 : 0 ≤ i) (hn : n < 2 ^ 31) (r : Copy) :
    (∃ len : Nat, 0 < len ∧ (len : Int) ≤ n - i ∧ pi.used + len ≤ pipeTotal v ∧
      pi.nwrite.toNat % pipeTotal v + len ≤ pipeTotal v ∧
      writeIter v pi mem addr n i r
        = ⟨pi.pushed (pipeTotal v) (userBytes mem addr i) len, i + len, false⟩) ∨
    (∃ data, ({ pi with data := data } : Pipe).bytes (pipeTotal v) = pi.bytes (pipeTotal v) ∧
      writeIter v pi mem addr n i r = ⟨{ pi with data := data }, i, true⟩) := by
  have ht : pipeTotal v < 2 ^ 32 := Nat.lt_of_le_of_lt (pipeTotal_le v) (by decide)
  have hne : pi.used ≠ pipeTotal v := by
    intro h
    rw [(full_iff ht).mpr h] at hfull
    exact absurd hfull (by decide)
  unfold writeIter
  by_cases hv : bulkCopy v = true
  · rw [if_pos hv]
    obtain ⟨len, hch⟩ := writeChunk_spec hused hfull hi hi0 hn
    have hwrap := hch.slot_eq ▸ hch.le_wrap
    have hroom := hch.le_room
    cases r with
    | ok => exact .inl ⟨len, hch.pos, hch.le_rem, by omega, hwrap, bulkWrite_ok hch⟩
    | fail k =>
      refine .inr ⟨_, ?_, bulkWrite_fail k hch⟩
      exact bytes_scribble (pipeTotal_dvd v) (by omega) (by omega)
  · rw [if_neg hv]
    have hmod := Nat.mod_lt pi.nwrite.toNat (pipeTotal_pos v)
    cases r with
    | ok =>
      have h1 := @byteWrite_pushed _ pi mem addr i 0 (pipeTotal_dvd v) ht
        (show pi.nwrite.toNat % pipeTotal v + (0 + 1) ≤ pipeTotal v by omega)
      rw [pushed_zero, Int.natCast_zero, Int.add_zero] at h1
      exact .inl ⟨1, by decide, by omega, by omega, by omega, h1⟩
    | fail k => exact .inr ⟨pi.data, rfl, rfl⟩

/-- An iteration of any `piperead` that finds bytes: it hands out the next `len`
of them; or the `copyout` fails, which v2..v8 undo and v1 does not. -/
theorem readIter_cases (v : Version) {pi : Pipe} (mem : Mem) (addr : Addr) {n i : Int}
    (hempty : pi.empty = false) (hi : i < n) (hi0 : 0 ≤ i) (hn : n < 2 ^ 31) (r : Copy) :
    (∃ len : Nat, 0 < len ∧ (len : Int) ≤ n - i ∧ len ≤ pi.used ∧
      pi.nread.toNat % pipeTotal v + len ≤ pipeTotal v ∧
      readIter v pi mem addr n i r
        = ⟨pi.popped len,
            copyout mem (addr + BitVec.ofInt 64 i) pi.data (pi.nread.toNat % pipeTotal v) len,
            i + len, false⟩) ∨
    (∃ len : Nat, (len : Int) ≤ n - i ∧
      readIter v pi mem addr n i r
        = ⟨pi, copyout mem (addr + BitVec.ofInt 64 i) pi.data (pi.nread.toNat % pipeTotal v) len,
            if i = 0 then -1 else i, true⟩) ∨
    (bulkCopy v = false ∧ r ≠ .ok ∧ readIter v pi mem addr n i r =
      ⟨pi.popped 1, mem, i, true⟩) := by
  have ht : pipeTotal v < 2 ^ 32 := Nat.lt_of_le_of_lt (pipeTotal_le v) (by decide)
  unfold readIter
  by_cases hv : bulkCopy v = true
  · rw [if_pos hv]
    obtain ⟨len, hch⟩ := readChunk_spec (v := v) hempty hi hi0 hn
    have hwrap := hch.slot_eq ▸ hch.le_wrap
    have hrem := hch.le_rem
    cases r with
    | ok => exact .inl ⟨len, hch.pos, hrem, hch.le_room, hwrap, bulkRead_ok hch⟩
    | fail k =>
      refine .inr (.inl ⟨min k len, by omega, ?_⟩)
      simp only [bulkRead, hch.toCopy_eq, hch.slot_eq, Int.toNat_natCast]
  · rw [if_neg hv]
    have hmod := Nat.mod_lt pi.nread.toNat (pipeTotal_pos v)
    have hpos : 0 < pi.used := by
      rcases Nat.eq_zero_or_pos pi.used with h | h
      · rw [empty_iff.mpr h] at hempty
        exact absurd hempty (by decide)
      · exact h
    cases r with
    | ok =>
      have h1 := @byteRead_popped _ pi mem addr i 0 (pipeTotal_dvd v) ht
        (show pi.nread.toNat % pipeTotal v + (0 + 1) ≤ pipeTotal v by omega)
      rw [popped_zero, copyout_zero, Int.natCast_zero, Int.add_zero] at h1
      exact .inl ⟨1, by decide, by omega, hpos, by omega, h1⟩
    | fail k => exact .inr (.inr ⟨by simpa using hv, Copy.noConfusion, rfl⟩)

/-! ## The comparison -/

/-- **Bulk copy equals byte-by-byte copy.** In any ring with at most `PIPE_TOTAL`
bytes, whatever the head and tail positions, a pass of a bulk version ends (within
one iteration more than the bytes still wanted) in the same pipe, with the same
`i` and the same decision, as the v1 loop on a ring of that size; and a pass of
its `piperead` in the same pipe, with the same return value and the same user
memory. -/
theorem bulk_pass_eq_byte_pass {v : Version} (hv : bulkCopy v = true) {pi : Pipe}
    (hused : pi.used ≤ pipeTotal v) (q : Req) (mem : Mem) (killed : Bool) {i : Int} (hi : 0 ≤ i)
    {fuel : Nat} (hfuel : (q.n - i).toNat < fuel) :
    (∃ r, writePass v killed mem q fuel pi i = some r ∧
      byteWritePass (pipeTotal v) killed mem q fuel pi i = some r) ∧
    (∃ r, readPass v q fuel pi mem i = some r ∧
      byteReadPass (pipeTotal v) q fuel pi mem i = some r) :=
  ⟨writeLoop_bulk_eq hv killed mem q _ pi i fuel fuel rfl hi hused hfuel hfuel,
    readLoop_bulk_eq hv q _ pi mem i fuel fuel rfl hi hfuel hfuel⟩

/-- A v3 ring whose counters are about to pass `2^32`, and a request larger than
the ring. -/
theorem bulk_pass_eq_byte_pass_at_wrap :
    ∃ r, writePass .v3 false (fun a => a.toNat.toUInt8) ⟨4096, 3000, by decide, by decide⟩ 3001
        ⟨fun _ => 0, 4294967196, 50, true, true⟩ 0 = some r ∧
      byteWritePass 2048 false (fun a => a.toNat.toUInt8) ⟨4096, 3000, by decide, by decide⟩ 3001
        ⟨fun _ => 0, 4294967196, 50, true, true⟩ 0 = some r :=
  (bulk_pass_eq_byte_pass (v := .v3) rfl (by decide) ⟨4096, 3000, by decide, by decide⟩
    (fun a => a.toNat.toUInt8) false (by decide) (by decide)).1

end Xv6.Pipe
