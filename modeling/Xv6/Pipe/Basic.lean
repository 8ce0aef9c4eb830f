import Xv6.Lib.Ring
import Mathlib.Data.BitVec

/-!
# `pipe.c`: the ring and its copy loops, one iteration at a time

`struct pipe` and the bodies of the copy loops of `pipewrite` and `piperead`,
for all eight values of `PIPE_VERSION`:

* v1 moves one byte per iteration (`byteWrite`, `byteRead`);
* v2 and v4..v8 move a chunk that is cut at the end of the flat array
  (`flatChunk`), v3 a chunk that is cut at the end of one of its four
  sub-buffers (`ringChunk`); both feed the same `bulkWrite`/`bulkRead`.

The counters are C `uint`s (`BitVec 32`), `n` and `i` C `int`s, user addresses
`uint64`s. `char data[N_BUFS][BUFSIZE]` is laid out row by row, so
`&data[buf_idx][buf_off]` is byte `buf_idx * BUFSIZE + buf_off` of the array.

`copyin` and `copyout` belong to `vm.c`. What the pipe sees of one call is
`Copy`: every byte moved, or `-1` after some prefix had already been moved.

The arithmetic is settled once, in `flatChunk_len` and `ringChunk_len`: the
length is the minimum of three numbers, and none of the `uint`/`int`
conversions loses anything.
-/

namespace Xv6

open Lib

abbrev Uint := BitVec 32
abbrev Addr := BitVec 64
abbrev Mem := Addr → UInt8

/-- `PIPE_VERSION`. -/
inductive Version
  | v1 | v2 | v3 | v4 | v5 | v6 | v7 | v8
  deriving DecidableEq, Repr

def PIPESIZE : Nat := 512
def N_BUFS : Nat := 4
def BUFSIZE : Nat := 512
def PGSIZE : Nat := 4096
def DATA_PAGES : Nat := 1

/-- `PIPE_TOTAL` (v1 and v2: `PIPESIZE`). -/
def pipeTotal : Version → Nat
  | .v1 | .v2 => PIPESIZE
  | .v3 => N_BUFS * BUFSIZE
  | .v4 | .v5 | .v6 | .v7 | .v8 => DATA_PAGES * PGSIZE

/-- `#if PIPE_VERSION >= 5`: the versions with `need_wakeup` and `was_full`. -/
def lazyWakeup : Version → Bool
  | .v1 | .v2 | .v3 | .v4 => false
  | .v5 | .v6 | .v7 | .v8 => true

/-- `#if PIPE_VERSION >= 2`: the versions that copy in chunks. -/
def bulkCopy : Version → Bool
  | .v1 => false
  | _ => true

/-- `struct pipe`, less its lock. `data` is only ever indexed below
`pipeTotal`. -/
structure Pipe where
  data : Nat → UInt8
  nread : Uint
  nwrite : Uint
  readopen : Bool
  writeopen : Bool

namespace Pipe

/-- Bytes in the ring: `pi->nwrite - pi->nread` as a `uint`. -/
def used (pi : Pipe) : Nat := (pi.nwrite - pi.nread).toNat

/-- `pi->nread == pi->nwrite`. -/
def empty (pi : Pipe) : Bool := pi.nread == pi.nwrite

/-- `pi->nwrite == pi->nread + PIPE_TOTAL`. -/
def full (total : Nat) (pi : Pipe) : Bool :=
  pi.nwrite == pi.nread + BitVec.ofNat 32 total

/-- The FIFO view of the ring. -/
def bytes (total : Nat) (pi : Pipe) : List UInt8 :=
  Ring.contents total pi.data pi.nread.toNat pi.used

theorem pipeTotal_pos (v : Version) : 0 < pipeTotal v := by
  cases v <;> decide

theorem pipeTotal_le (v : Version) : pipeTotal v ≤ 4096 := by
  cases v <;> decide

theorem pipeTotal_dvd (v : Version) : pipeTotal v ∣ 2 ^ 32 := by
  cases v <;> decide

theorem empty_iff {pi : Pipe} : pi.empty = true ↔ pi.used = 0 := by
  unfold empty used
  rw [beq_iff_eq]
  constructor
  · intro h
    rw [h, BitVec.sub_self]
    rfl
  · intro h
    have hz : pi.nwrite - pi.nread = 0#32 := BitVec.eq_of_toNat_eq h
    rw [← BitVec.sub_add_cancel pi.nwrite pi.nread, hz, BitVec.zero_add]

theorem full_iff {total : Nat} {pi : Pipe} (ht : total < 2 ^ 32) :
    pi.full total = true ↔ pi.used = total := by
  unfold full used
  rw [beq_iff_eq]
  constructor
  · intro h
    rw [h, BitVec.add_comm, BitVec.add_sub_cancel, BitVec.toNat_ofNat, Nat.mod_eq_of_lt ht]
  · intro h
    have hd : pi.nwrite - pi.nread = BitVec.ofNat 32 total := by
      apply BitVec.eq_of_toNat_eq
      rw [h, BitVec.toNat_ofNat, Nat.mod_eq_of_lt ht]
    rw [← BitVec.sub_add_cancel pi.nwrite pi.nread, hd, BitVec.add_comm]

/-- The writer's slot, from the reader's. -/
theorem head_mod {total : Nat} (pi : Pipe) (hdvd : total ∣ 2 ^ 32) :
    (pi.nread.toNat + pi.used) % total = pi.nwrite.toNat % total :=
  Ring.toNat_sub_mod hdvd pi.nread pi.nwrite

/-! ## Chunks -/

/-- `umin`. -/
def umin (a b : Uint) : Uint := if a < b then a else b

@[simp] theorem umin_toNat (a b : Uint) : (umin a b).toNat = min a.toNat b.toNat := by
  unfold umin
  split
  next h => exact (Nat.min_eq_left (Nat.le_of_lt h)).symm
  next h => exact (Nat.min_eq_right (Nat.le_of_not_lt h)).symm

/-- Where a chunk starts in `data`, and the `int to_copy`. -/
structure Chunk where
  slot : Nat
  toCopy : Int

/-- v2, v4..v8: a chunk of a flat array of `total` bytes. `limit` is
`free_slots` or `avail`, `pos` is `nwrite` or `nread`; the chunk is cut at
`till_wrap`. -/
def flatChunk (total : Nat) (limit pos : Uint) (n i : Int) : Chunk :=
  let slot : Uint := pos % BitVec.ofNat 32 total
  let tillWrap : Uint := BitVec.ofNat 32 total - slot
  ⟨slot.toNat, (umin (BitVec.ofInt 32 (n - i)) (umin limit tillWrap)).toInt⟩

/-- v3: a chunk of the ring of `N_BUFS` sub-buffers; it cannot cross the end of
its sub-buffer (`till_buf_end`). -/
def ringChunk (limit pos : Uint) (n i : Int) : Chunk :=
  let pos : Uint := pos % BitVec.ofNat 32 (N_BUFS * BUFSIZE)
  let bufIdx : Uint := pos / BitVec.ofNat 32 BUFSIZE
  let bufOff : Uint := pos % BitVec.ofNat 32 BUFSIZE
  let tillBufEnd : Uint := BitVec.ofNat 32 BUFSIZE - bufOff
  ⟨bufIdx.toNat * BUFSIZE + bufOff.toNat,
    (umin (BitVec.ofInt 32 (n - i)) (umin limit tillBufEnd)).toInt⟩

/-- The chunk of one `pipewrite` iteration. -/
def writeChunk (v : Version) (pi : Pipe) (n i : Int) : Chunk :=
  let freeSlots : Uint := BitVec.ofNat 32 (pipeTotal v) - (pi.nwrite - pi.nread)
  match v with
  | .v3 => ringChunk freeSlots pi.nwrite n i
  | _ => flatChunk (pipeTotal v) freeSlots pi.nwrite n i

/-- The chunk of one `piperead` iteration. -/
def readChunk (v : Version) (pi : Pipe) (n i : Int) : Chunk :=
  let avail : Uint := pi.nwrite - pi.nread
  match v with
  | .v3 => ringChunk avail pi.nread n i
  | _ => flatChunk (pipeTotal v) avail pi.nread n i

/-- The three-way minimum as an `int`: the casts are exact because a C `int`
difference is below `2^31` and the cut is at most one page. -/
theorem umin_toInt {n i : Int} (hi : i < n) (hi0 : 0 ≤ i) (hn : n < 2 ^ 31) (limit cut : Uint)
    (hcut : cut.toNat ≤ 4096) :
    (umin (BitVec.ofInt 32 (n - i)) (umin limit cut)).toInt
      = ((min (n - i).toNat (min limit.toNat cut.toNat) : Nat) : Int) := by
  have hni : (BitVec.ofInt 32 (n - i)).toNat = (n - i).toNat := by
    rw [BitVec.toNat_ofInt]
    omega
  rw [BitVec.toInt_eq_toNat_of_lt]
  · rw [umin_toNat, umin_toNat, hni]
  · rw [umin_toNat, umin_toNat]
    omega

theorem umod_ofNat {m : Nat} (hm : m < 2 ^ 32) (x : Uint) :
    (x % BitVec.ofNat 32 m).toNat = x.toNat % m := by
  rw [BitVec.toNat_umod, BitVec.toNat_ofNat, Nat.mod_eq_of_lt hm]

theorem ofNat_sub_toNat {m : Nat} (hm : m < 2 ^ 32) {x : Uint} (hx : x.toNat ≤ m) :
    (BitVec.ofNat 32 m - x).toNat = m - x.toNat := by
  rw [BitVec.toNat_sub, BitVec.toNat_ofNat, Nat.mod_eq_of_lt hm]
  omega

theorem flatChunk_slot {total : Nat} (ht : total < 2 ^ 32) (limit pos : Uint) (n i : Int) :
    (flatChunk total limit pos n i).slot = pos.toNat % total := by
  simp only [flatChunk]
  exact umod_ofNat ht pos

theorem flatChunk_len {total : Nat} (ht0 : 0 < total) (ht : total ≤ 4096) {n i : Int}
    (hi : i < n) (hi0 : 0 ≤ i) (hn : n < 2 ^ 31) (limit pos : Uint) :
    (flatChunk total limit pos n i).toCopy
      = ((min (n - i).toNat (min limit.toNat (total - pos.toNat % total)) : Nat) : Int) := by
  have hslot := umod_ofNat (show total < 2 ^ 32 by omega) pos
  have hmod := Nat.mod_lt pos.toNat ht0
  have hcut := ofNat_sub_toNat (show total < 2 ^ 32 by omega)
    (x := pos % BitVec.ofNat 32 total) (by omega)
  simp only [flatChunk]
  rw [umin_toInt hi hi0 hn _ _ (by omega), hcut, hslot]

theorem ringChunk_slot (limit pos : Uint) (n i : Int) :
    (ringChunk limit pos n i).slot = pos.toNat % (N_BUFS * BUFSIZE) := by
  simp only [ringChunk]
  rw [BitVec.toNat_udiv, umod_ofNat (by decide), umod_ofNat (by decide), umod_ofNat (by decide),
    BitVec.toNat_ofNat, Nat.mod_eq_of_lt (show BUFSIZE < 2 ^ 32 by decide), Nat.div_add_mod']

theorem ringChunk_len {n i : Int} (hi : i < n) (hi0 : 0 ≤ i) (hn : n < 2 ^ 31)
    (limit pos : Uint) :
    (ringChunk limit pos n i).toCopy
      = ((min (n - i).toNat (min limit.toNat (BUFSIZE - pos.toNat % BUFSIZE)) : Nat) : Int) := by
  have hoff : (pos % BitVec.ofNat 32 (N_BUFS * BUFSIZE) % BitVec.ofNat 32 BUFSIZE).toNat
      = pos.toNat % BUFSIZE := by
    rw [umod_ofNat (by decide), umod_ofNat (by decide)]
    exact Nat.mod_mod_of_dvd _ (Nat.dvd_mul_left _ _)
  have hlt : pos.toNat % BUFSIZE < BUFSIZE := Nat.mod_lt _ (by decide)
  have hB : BUFSIZE = 512 := rfl
  have hcut := ofNat_sub_toNat (show BUFSIZE < 2 ^ 32 by decide)
    (x := pos % BitVec.ofNat 32 (N_BUFS * BUFSIZE) % BitVec.ofNat 32 BUFSIZE) (by omega)
  simp only [ringChunk]
  rw [umin_toInt hi hi0 hn _ _ (by omega), hcut, hoff]

/-- What a chunk of `len` bytes at `slot` has to satisfy for a request with `rem`
bytes to go, `room` cells it may touch and the counter at `pos`: it makes
progress, stays within the request and the room, and does not run over the end
of the ring. -/
structure ChunkSpec (total : Nat) (pos : Uint) (room : Nat) (rem : Int) (ch : Chunk)
    (len : Nat) : Prop where
  toCopy_eq : ch.toCopy = (len : Int)
  slot_eq : ch.slot = pos.toNat % total
  pos : 0 < len
  le_rem : (len : Int) ≤ rem
  le_room : len ≤ room
  le_wrap : ch.slot + len ≤ total

theorem flatChunk_spec {total : Nat} (ht0 : 0 < total) (ht : total ≤ 4096) {n i : Int}
    (hi : i < n) (hi0 : 0 ≤ i) (hn : n < 2 ^ 31) {limit : Uint} (hlimit : 0 < limit.toNat)
    (pos : Uint) :
    ChunkSpec total pos limit.toNat (n - i) (flatChunk total limit pos n i)
      (min (n - i).toNat (min limit.toNat (total - pos.toNat % total))) := by
  have hmod := Nat.mod_lt pos.toNat ht0
  have hslot := flatChunk_slot (show total < 2 ^ 32 by omega) limit pos n i
  exact ⟨flatChunk_len ht0 ht hi hi0 hn limit pos, hslot, by omega, by omega, by omega, by omega⟩

/-- v3 cuts at the sub-buffer, which is before the end of the ring. -/
theorem ringChunk_spec {n i : Int} (hi : i < n) (hi0 : 0 ≤ i) (hn : n < 2 ^ 31) {limit : Uint}
    (hlimit : 0 < limit.toNat) (pos : Uint) :
    ChunkSpec (N_BUFS * BUFSIZE) pos limit.toNat (n - i) (ringChunk limit pos n i)
      (min (n - i).toNat (min limit.toNat (BUFSIZE - pos.toNat % BUFSIZE))) := by
  have hlt : pos.toNat % BUFSIZE < BUFSIZE := Nat.mod_lt _ (by decide)
  have hslot := ringChunk_slot limit pos n i
  have hN : N_BUFS * BUFSIZE = 2048 := rfl
  have hB : BUFSIZE = 512 := rfl
  rw [hN] at hslot
  rw [hB] at hlt
  refine ⟨ringChunk_len hi hi0 hn limit pos, hslot, ?_, ?_, ?_, ?_⟩
  · rw [hB]; omega
  · omega
  · omega
  · rw [hslot, hN, hB]; omega

/-- The non-full branch of every bulk `pipewrite`. -/
theorem writeChunk_spec {v : Version} {pi : Pipe} {n i : Int}
    (hused : pi.used ≤ pipeTotal v) (hfull : pi.full (pipeTotal v) = false)
    (hi : i < n) (hi0 : 0 ≤ i) (hn : n < 2 ^ 31) :
    ∃ len, ChunkSpec (pipeTotal v) pi.nwrite (pipeTotal v - pi.used) (n - i)
      (writeChunk v pi n i) len := by
  have hle := pipeTotal_le v
  have hne : pi.used ≠ pipeTotal v := by
    intro h
    rw [(full_iff (by omega)).mpr h] at hfull
    exact absurd hfull (by decide)
  have hfree : (BitVec.ofNat 32 (pipeTotal v) - (pi.nwrite - pi.nread)).toNat
      = pipeTotal v - pi.used :=
    ofNat_sub_toNat (by omega) hused
  have hpos : 0 < (BitVec.ofNat 32 (pipeTotal v) - (pi.nwrite - pi.nread)).toNat := by omega
  rw [← hfree]
  cases v
  case v3 => exact ⟨_, ringChunk_spec hi hi0 hn hpos pi.nwrite⟩
  all_goals exact ⟨_, flatChunk_spec (by decide) (by decide) hi hi0 hn hpos pi.nwrite⟩

/-- The non-empty branch of every bulk `piperead`. -/
theorem readChunk_spec {v : Version} {pi : Pipe} {n i : Int} (hempty : pi.empty = false)
    (hi : i < n) (hi0 : 0 ≤ i) (hn : n < 2 ^ 31) :
    ∃ len, ChunkSpec (pipeTotal v) pi.nread pi.used (n - i) (readChunk v pi n i) len := by
  have hpos : 0 < (pi.nwrite - pi.nread).toNat := by
    rcases Nat.eq_zero_or_pos pi.used with h | h
    · rw [empty_iff.mpr h] at hempty
      exact absurd hempty (by decide)
    · exact h
  cases v
  case v3 => exact ⟨_, ringChunk_spec hi hi0 hn hpos pi.nread⟩
  all_goals exact ⟨_, flatChunk_spec (by decide) (by decide) hi hi0 hn hpos pi.nread⟩

/-! ## One iteration -/

/-- The outcome of one `copyin` or `copyout`: done, or `-1` after the first `k`
bytes had been moved. -/
inductive Copy
  | ok
  | fail (k : Nat)
  deriving DecidableEq, Repr

/-- `copyin(pagetable, &data[slot], srcva, len)`. -/
def copyin (data : Nat → UInt8) (slot : Nat) (mem : Mem) (srcva : Addr) (len : Nat) :
    Nat → UInt8 :=
  Ring.blit data slot len fun k => mem (srcva + BitVec.ofNat 64 k)

/-- `copyout(pagetable, dstva, &data[slot], len)`. -/
def copyout (mem : Mem) (dstva : Addr) (data : Nat → UInt8) (slot len : Nat) : Mem :=
  fun a => if (a - dstva).toNat < len then data (slot + (a - dstva).toNat) else mem a

/-- What an iteration of the `pipewrite` loop leaves: the pipe, `i`, and whether
it left through `break`. -/
structure WriteOut where
  pi : Pipe
  i : Int
  brk : Bool

/-- v1, the branch with room: one byte through `ch`. -/
def byteWrite (total : Nat) (pi : Pipe) (mem : Mem) (addr : Addr) (i : Int) : Copy → WriteOut
  | .fail _ => ⟨pi, i, true⟩
  | .ok =>
    let ch := mem (addr + BitVec.ofInt 64 i)
    ⟨{ pi with
        data := Function.update pi.data (pi.nwrite % BitVec.ofNat 32 total).toNat ch
        nwrite := pi.nwrite + 1 }, i + 1, false⟩

/-- v2..v8, the branch with room: one chunk. A failed `copyin` may have
scribbled on the free cells it was given. -/
def bulkWrite (v : Version) (pi : Pipe) (mem : Mem) (addr : Addr) (n i : Int) : Copy → WriteOut
  | .fail k =>
    let ch := writeChunk v pi n i
    ⟨{ pi with
        data := copyin pi.data ch.slot mem (addr + BitVec.ofInt 64 i) (min k ch.toCopy.toNat) },
      i, true⟩
  | .ok =>
    let ch := writeChunk v pi n i
    ⟨{ pi with
        data := copyin pi.data ch.slot mem (addr + BitVec.ofInt 64 i) ch.toCopy.toNat
        nwrite := pi.nwrite + BitVec.ofInt 32 ch.toCopy }, i + ch.toCopy, false⟩

/-- The branch with room of `pipewrite`, by version. -/
def writeIter (v : Version) (pi : Pipe) (mem : Mem) (addr : Addr) (n i : Int) (r : Copy) :
    WriteOut :=
  if bulkCopy v then bulkWrite v pi mem addr n i r else byteWrite (pipeTotal v) pi mem addr i r

/-- What an iteration of the `piperead` copy loop leaves. -/
structure ReadOut where
  pi : Pipe
  mem : Mem
  i : Int
  brk : Bool

/-- v1: `nread` moves on before `copyout`, so a failed copy drops the byte. -/
def byteRead (total : Nat) (pi : Pipe) (mem : Mem) (addr : Addr) (i : Int) (r : Copy) : ReadOut :=
  let slot := (pi.nread % BitVec.ofNat 32 total).toNat
  let pi' := { pi with nread := pi.nread + 1 }
  match r with
  | .fail _ => ⟨pi', mem, i, true⟩
  | .ok => ⟨pi', copyout mem (addr + BitVec.ofInt 64 i) pi.data slot 1, i + 1, false⟩

/-- v2..v8: one chunk; a failed copy leaves `nread`, and reports `-1` if it was
the first. -/
def bulkRead (v : Version) (pi : Pipe) (mem : Mem) (addr : Addr) (n i : Int) : Copy → ReadOut
  | .fail k =>
    let ch := readChunk v pi n i
    ⟨pi, copyout mem (addr + BitVec.ofInt 64 i) pi.data ch.slot (min k ch.toCopy.toNat),
      if i = 0 then -1 else i, true⟩
  | .ok =>
    let ch := readChunk v pi n i
    ⟨{ pi with nread := pi.nread + BitVec.ofInt 32 ch.toCopy },
      copyout mem (addr + BitVec.ofInt 64 i) pi.data ch.slot ch.toCopy.toNat,
      i + ch.toCopy, false⟩

/-- One iteration of the copy loop of `piperead`, by version. -/
def readIter (v : Version) (pi : Pipe) (mem : Mem) (addr : Addr) (n i : Int) (r : Copy) :
    ReadOut :=
  if bulkCopy v then bulkRead v pi mem addr n i r else byteRead (pipeTotal v) pi mem addr i r

/-! ## What an iteration does to the ring -/

/-- The ring after a run of `len` bytes was accepted at the writer's slot. -/
def pushed (total : Nat) (pi : Pipe) (src : Nat → UInt8) (len : Nat) : Pipe :=
  { pi with
    data := Ring.blit pi.data (pi.nwrite.toNat % total) len src
    nwrite := pi.nwrite + BitVec.ofNat 32 len }

/-- The ring after `len` bytes were handed out. -/
def popped (pi : Pipe) (len : Nat) : Pipe :=
  { pi with nread := pi.nread + BitVec.ofNat 32 len }

theorem pushed_zero (total : Nat) (pi : Pipe) (src : Nat → UInt8) : pi.pushed total src 0 = pi := by
  simp [pushed]

theorem popped_zero (pi : Pipe) : pi.popped 0 = pi := by
  simp [popped]

theorem used_pushed (total : Nat) {pi : Pipe} (src : Nat → UInt8) {len : Nat}
    (h : pi.used + len < 2 ^ 32) : (pi.pushed total src len).used = pi.used + len :=
  Ring.toNat_sub_add h

theorem used_popped {pi : Pipe} {len : Nat} (h : len ≤ pi.used) :
    (pi.popped len).used = pi.used - len :=
  Ring.toNat_sub_sub h

/-- Accepting a run appends it to the FIFO view. -/
theorem bytes_pushed {total : Nat} {pi : Pipe} {src : Nat → UInt8} {len : Nat}
    (hdvd : total ∣ 2 ^ 32) (ht : total < 2 ^ 32) (hroom : pi.used + len ≤ total)
    (hwrap : pi.nwrite.toNat % total + len ≤ total) :
    (pi.pushed total src len).bytes total = pi.bytes total ++ (List.range len).map src := by
  unfold bytes
  rw [used_pushed total src (by omega)]
  have hhead := pi.head_mod hdvd
  show Ring.contents total (Ring.blit pi.data (pi.nwrite.toNat % total) len src)
    pi.nread.toNat (pi.used + len) = _
  rw [← hhead] at hwrap ⊢
  exact Ring.contents_blit hwrap hroom

/-- Handing out a run takes it from the front of the view. -/
theorem bytes_popped {total : Nat} {pi : Pipe} {len : Nat} (hdvd : total ∣ 2 ^ 32)
    (h : len ≤ pi.used) :
    pi.bytes total
      = Ring.contents total pi.data pi.nread.toNat len ++ (pi.popped len).bytes total := by
  unfold bytes
  rw [used_popped h]
  have hsplit := Ring.contents_split total pi.data pi.nread.toNat len (pi.used - len)
  rw [show len + (pi.used - len) = pi.used by omega] at hsplit
  rw [hsplit]
  congr 1
  apply Ring.contents_mod
  exact (Ring.toNat_add_mod hdvd pi.nread len).symm

/-- What a failed `copyin` leaves in the free cells is invisible. -/
theorem bytes_scribble {total : Nat} {pi : Pipe} {src : Nat → UInt8} {len : Nat}
    (hdvd : total ∣ 2 ^ 32) (hroom : pi.used + len ≤ total)
    (hwrap : pi.nwrite.toNat % total + len ≤ total) :
    ({ pi with data := Ring.blit pi.data (pi.nwrite.toNat % total) len src } : Pipe).bytes total
      = pi.bytes total := by
  have hhead := pi.head_mod hdvd
  rw [← hhead] at hwrap ⊢
  exact Ring.contents_blit_free hwrap hroom

/-- The bytes of a user buffer from offset `i` on. -/
def userBytes (mem : Mem) (addr : Addr) (i : Int) : Nat → UInt8 :=
  fun k => mem (addr + BitVec.ofInt 64 i + BitVec.ofNat 64 k)

theorem ofInt_natCast (w len : Nat) : BitVec.ofInt w (len : Int) = BitVec.ofNat w len := by
  apply BitVec.eq_of_toNat_eq
  rw [BitVec.toNat_ofInt, BitVec.toNat_ofNat]
  omega

theorem bulkWrite_ok {v : Version} {pi : Pipe} {mem : Mem} {addr : Addr} {n i : Int}
    {room len : Nat}
    (h : ChunkSpec (pipeTotal v) pi.nwrite room (n - i) (writeChunk v pi n i) len) :
    bulkWrite v pi mem addr n i .ok
      = ⟨pi.pushed (pipeTotal v) (userBytes mem addr i) len, i + len, false⟩ := by
  simp only [bulkWrite, h.toCopy_eq, h.slot_eq, Int.toNat_natCast, ofInt_natCast]
  rfl

theorem bulkWrite_fail {v : Version} {pi : Pipe} {mem : Mem} {addr : Addr} {n i : Int}
    {room len : Nat} (k : Nat)
    (h : ChunkSpec (pipeTotal v) pi.nwrite room (n - i) (writeChunk v pi n i) len) :
    bulkWrite v pi mem addr n i (.fail k)
      = ⟨{ pi with
            data := Ring.blit pi.data (pi.nwrite.toNat % pipeTotal v) (min k len)
              (userBytes mem addr i) }, i, true⟩ := by
  simp only [bulkWrite, h.toCopy_eq, h.slot_eq, Int.toNat_natCast]
  rfl

theorem bulkRead_ok {v : Version} {pi : Pipe} {mem : Mem} {addr : Addr} {n i : Int}
    {room len : Nat}
    (h : ChunkSpec (pipeTotal v) pi.nread room (n - i) (readChunk v pi n i) len) :
    bulkRead v pi mem addr n i .ok
      = ⟨pi.popped len,
          copyout mem (addr + BitVec.ofInt 64 i) pi.data (pi.nread.toNat % pipeTotal v) len,
          i + len, false⟩ := by
  simp only [bulkRead, h.toCopy_eq, h.slot_eq, Int.toNat_natCast, ofInt_natCast]
  rfl

/-- The user finds in its buffer what the ring held. -/
theorem userBytes_copyout {total : Nat} {mem : Mem} {addr : Addr} {data : Nat → UInt8} {i : Int}
    {pos len : Nat} (hwrap : pos % total + len ≤ total) (hlen : len < 2 ^ 64) :
    (List.range len).map (userBytes
        (copyout mem (addr + BitVec.ofInt 64 i) data (pos % total) len) addr i)
      = Ring.contents total data pos len := by
  unfold Ring.contents
  apply List.map_congr_left
  intro k hk
  have hk := List.mem_range.mp hk
  have hd : (addr + BitVec.ofInt 64 i + BitVec.ofNat 64 k - (addr + BitVec.ofInt 64 i)).toNat
      = k := by
    rw [BitVec.add_comm, BitVec.add_sub_cancel, BitVec.toNat_ofNat, Nat.mod_eq_of_lt (by omega)]
  rw [userBytes, copyout, hd, if_pos hk, Ring.mod_add_of_run hwrap hk]

end Pipe

end Xv6
