import Xv6.Lib.Monitor

/-!
# Clock ticks

`ticks` is a 32-bit word behind `tickslock`: `clockintr` adds to it, `sys_uptime` reads it, and
`sys_pause` waits for it to have gone on by `n`. The callers are the processes, and what takes the
timer interrupts of hart 0.

> What is seen of this code is a clock that does not wrap (`Clock`): `sys_pause(n)` does not say 0
> before `n` ticks have passed (`ticks_refines`). When nothing is going on in this code whoever
> sleeps in it still has ticks to wait for, whether it has been killed or not (`ticks_settles`).

Of the calls, as they are made, nothing is asked (`made_ok`).
-/

namespace Xv6.Sync

open Lib

namespace Ticks

/-- A call of `sys_pause` has its `ticks0`, and `since`, the number of ticks then. -/
inductive Call
  | sys_pause (n ticks0 : BitVec 32) (since : Nat)
  | clockintr
  | sys_uptime
  deriving DecidableEq

/-- The word, `killed` of every process, and the number of ticks so far. -/
structure State (P : Type*) where
  ticks : BitVec 32
  killed : P → Bool
  now : Nat

/-- `if(n < 0) n = 0;` -/
def sys_pause (n : BitVec 32) : Call := .sys_pause (if n.slt 0 then 0 else n) 0 0

variable {P : Type*} [DecidableEq P]

namespace State

/-- `ticks - ticks0 < n` -/
def early (s : State P) (n ticks0 : BitVec 32) : Bool := decide (s.ticks - ticks0 < n)

def clockintr (s : State P) : State P := { s with ticks := s.ticks + 1, now := s.now + 1 }

end State

/-- The code. -/
def code : Monitor (State P) P Call where
  start s _
    | .sys_pause n _ _ => .sys_pause n s.ticks s.now
    | o => o
  act s _
    | .sys_pause n ticks0 _ => if s.early n ticks0 then none else some s
    | .clockintr => some s.clockintr
    | .sys_uptime => some s
  wakes _ _
    | .clockintr => true
    | _ => false
  quits s p _ := s.killed p
  kill s p := { s with killed := Function.update s.killed p true }

/-- Boot. -/
def State.fresh : State P := { ticks := 0, killed := fun _ => false, now := 0 }

/-- `ticks0` is what `ticks` was. -/
def May (s : State P) (_ : P) : Call → Prop
  | .sys_pause _ ticks0 since => ticks0 = BitVec.ofNat 32 since ∧ since ≤ s.now
  | .clockintr | .sys_uptime => True

/-- The calls as they are made. -/
inductive Made : Call → Prop
  | sys_pause (n : BitVec 32) : Made (sys_pause n)
  | clockintr : Made .clockintr
  | sys_uptime : Made .sys_uptime

omit [DecidableEq P] in
theorem Made.may {o : Call} (h : Made o) (s : State P) (p : P) : May s p o := by
  cases h with
  | sys_pause n => exact ⟨rfl, Nat.zero_le _⟩
  | clockintr | sys_uptime => exact trivial

/-- Nothing is asked of the callers. -/
theorem made_ok {as : List (Monitor.Act P Call)} (h : ∀ p o, .call p o ∈ as → Made o)
    (t : Monitor.Sys (State P) P Call) : RunOk code.step (Monitor.Ok May) t as := by
  induction as generalizing t with
  | nil => exact trivial
  | cons a as ih =>
    refine ⟨?_, fun t' _ => ih (fun p o ho => h p o (List.mem_cons_of_mem a ho)) t'⟩
    cases a with
    | call p o => exact (h p o List.mem_cons_self).may t.shared p
    | acquire | run | kill => exact trivial

/-! ## A clock -/

/-- What happens, with what it says. -/
inductive Event
  | tick
  | slept (since : Nat) (n : BitVec 32)
  | uptime (r : BitVec 32)

namespace Clock

/-- Somebody who began to wait at `since` has slept for at least `n` ticks. -/
def step (now : Nat) : Event → Option Nat
  | .tick => some (now + 1)
  | .slept since n => if since + n.toNat ≤ now then some now else none
  | .uptime r => if r.toNat = now % 2 ^ 32 then some now else none

end Clock

/-- What is seen of an atomic step. -/
def event (s : State P) : Deed P Call → Option Event
  | .act _ (.sys_pause n _ since) => some (.slept since n)
  | .act _ .clockintr => some .tick
  | .act _ .sys_uptime => some (.uptime s.ticks)
  | .kill _ => none

/-! ## The word is the number of ticks -/

structure Counts (s : State P) (now : Nat) : Prop where
  count : s.now = now
  word : s.ticks = BitVec.ofNat 32 now

variable {s s' : State P} {now : Nat} {p q : P} {d : Deed P Call} {o : Call}

omit [DecidableEq P] in
theorem fresh_counts : Counts (State.fresh : State P) 0 := ⟨rfl, rfl⟩

/-- The ticks in between, in 32 bits. -/
theorem passed {since : Nat} (h : since ≤ now) :
    BitVec.ofNat 32 now - BitVec.ofNat 32 since = BitVec.ofNat 32 (now - since) := by
  apply BitVec.eq_of_toNat_eq
  rw [BitVec.toNat_sub, BitVec.toNat_ofNat, BitVec.toNat_ofNat, BitVec.toNat_ofNat]
  omega

theorem pause_some {n ticks0 : BitVec 32} {since : Nat}
    (hs : (code (P := P)).act s p (.sys_pause n ticks0 since) = some s') :
    s.early n ticks0 = false ∧ s' = s := by
  have hs : (if s.early n ticks0 then none else some s) = some s' := hs
  split at hs
  next => cases hs
  next he => exact ⟨eq_false_of_ne_true he, (Option.some.inj hs).symm⟩

theorem pause_none {n ticks0 : BitVec 32} {since : Nat} :
    (code (P := P)).act s p (.sys_pause n ticks0 since) = none ↔ s.early n ticks0 = true := by
  show (if s.early n ticks0 then none else some s) = none ↔ _
  split
  next he => exact ⟨fun _ => he, fun _ => rfl⟩
  next he => exact ⟨nofun, fun h => absurd h he⟩

/-- The atomic steps are those of the clock. -/
theorem Counts.deed (h : Counts s now) (hok : Monitor.DeedOk May s d)
    (hs : code.deed s d = some s') :
    event s d = none ∧ Counts s' now ∨
      ∃ e now', event s d = some e ∧ Clock.step now e = some now' ∧ Counts s' now' := by
  cases d with
  | kill p => exact Or.inl ⟨rfl, Option.some.inj hs ▸ ⟨h.count, h.word⟩⟩
  | act p o =>
    refine Or.inr ?_
    cases o with
    | clockintr =>
      refine ⟨.tick, now + 1, rfl, rfl, Option.some.inj hs ▸ ⟨congrArg (· + 1) h.count, ?_⟩⟩
      show s.ticks + 1 = _
      rw [h.word]
      exact (BitVec.ofNat_add _ _).symm
    | sys_uptime =>
      refine ⟨.uptime s.ticks, now, rfl, if_pos ?_, Option.some.inj hs ▸ h⟩
      rw [h.word]
      exact BitVec.toNat_ofNat _ _
    | sys_pause n ticks0 since =>
      obtain ⟨he, rfl⟩ := pause_some hs
      obtain ⟨hticks, hsince⟩ := hok
      refine ⟨.slept since n, now, rfl, if_pos ?_, h⟩
      rw [h.count] at hsince
      have hn : n.toNat ≤ (s'.ticks - ticks0).toNat := Nat.le_of_not_lt (of_decide_eq_false he)
      rw [h.word, hticks, passed hsince, BitVec.toNat_ofNat] at hn
      have hle := Nat.mod_le (now - since) (2 ^ 32)
      omega

def Inv (s : State P) : Prop := Counts s s.now

theorem now_act (hs : code.act s p o = some s') : s.now ≤ s'.now := by
  cases o with
  | clockintr => exact Option.some.inj hs ▸ Nat.le_succ _
  | sys_uptime => exact Option.some.inj hs ▸ Nat.le_refl _
  | sys_pause n ticks0 since => exact (pause_some hs).2 ▸ Nat.le_refl _

theorem code_keeps : (code (P := P)).Keeps May Inv where
  start := by
    intro s p o hi hm
    cases o with
    | sys_pause n ticks0 since => exact ⟨Counts.word hi, Nat.le_refl _⟩
    | clockintr | sys_uptime => exact trivial
  inv := by
    intro s s' d hi hok hs
    rcases Counts.deed hi hok hs with ⟨-, h⟩ | ⟨e, now', -, -, h⟩
    · exact ⟨rfl, by rw [h.word, h.count]⟩
    · exact ⟨rfl, by rw [h.word, h.count]⟩
  act := by
    intro s s' p q o o' _ hs hw _ hb
    cases o with
    | clockintr => cases hw
    | sys_uptime => exact Option.some.inj hs ▸ hb
    | sys_pause n ticks0 since => exact (pause_some hs).2 ▸ hb
  kill := by
    intro s p q o _ hb
    cases o with
    | sys_pause n ticks0 since =>
      have hearly := pause_none.mp hb
      exact pause_none.mpr hearly
    | clockintr | sys_uptime => cases hb
  others := by
    intro s s' p q o o' _ _ hs _ hm
    cases o' with
    | sys_pause n ticks0 since => exact ⟨hm.1, Nat.le_trans hm.2 (now_act hs)⟩
    | clockintr | sys_uptime => exact trivial
  killed := by
    intro s p q o hm
    cases o with
    | sys_pause n ticks0 since => exact hm
    | clockintr | sys_uptime => exact trivial

/-! ## Its callers -/

/-- Boot. -/
def start : Monitor.Sys (State P) P Call := { shared := .fresh, lock := none, pc := fun _ => .out }

omit [DecidableEq P] in
theorem start_init : Monitor.Init (· = State.fresh) (start (P := P)) := ⟨rfl, rfl, fun _ => rfl⟩

omit [DecidableEq P] in
theorem fresh_inv : Inv (State.fresh : State P) := fresh_counts

theorem start_kept : Monitor.Kept (code (P := P)) May Inv start :=
  ⟨fresh_inv, Monitor.init_well start_init⟩

/-- **A clock**: what is seen, in the order in which it happens, is what a clock does that does not
wrap; so that nobody has slept for less than he was to. -/
theorem ticks_refines (as : List (Monitor.Act P Call)) {t : Monitor.Sys (State P) P Call}
    (hok : RunOk code.step (Monitor.Ok May) start as) (hs : runFrom code.step start as = some t) :
    ∃ now, runFrom Clock.step 0 (trace code.step (code.sees event) start as) = some now ∧
      t.shared.ticks = BitVec.ofNat 32 now := by
  have hmakes : (code (P := P)).Makes May Clock.step event Counts := fun h hok hs => h.deed hok hs
  obtain ⟨now, hrun, h⟩ := start_kept.refines code_keeps hmakes as fresh_counts hok hs
  exact ⟨now, hrun, h.word⟩

/-- Somebody waits for a tick, which comes. -/
def awaited : List (Monitor.Act Bool Call) :=
  [.call false (sys_pause 1), .acquire false, .run false, .run false,
    .call true .clockintr, .acquire true, .run true, .run true, .acquire false, .run false]

theorem awaited_made {p : Bool} {o : Call} (h : .call p o ∈ awaited) : Made o := by
  simp only [awaited, List.mem_cons, Monitor.Act.call.injEq, reduceCtorEq, false_or, or_false,
    List.not_mem_nil] at h
  rcases h with ⟨-, rfl⟩ | ⟨-, rfl⟩
  · exact .sys_pause 1
  · exact .clockintr

theorem ticks_refines_awaited :
    ∃ t, runFrom code.step start awaited = some t ∧ t.pc false = .out ∧
      ∃ now, runFrom Clock.step 0 (trace code.step (code.sees event) start awaited) = some now ∧
        t.shared.ticks = BitVec.ofNat 32 now := by
  have hobs : (runFrom code.step start awaited).map (fun t => t.pc false) = some .out := by decide
  obtain ⟨t, hs, hout⟩ := Option.map_eq_some_iff.mp hobs
  have hok : RunOk code.step (Monitor.Ok May) start awaited :=
    made_ok (fun _ _ => awaited_made) start
  exact ⟨t, hs, hout, ticks_refines awaited hok hs⟩

/-- Nobody is in this code but those that sleep in `sys_pause` and still have to. -/
structure Idle (t : Monitor.Sys (State P) P Call) : Prop where
  lock : t.lock = none
  pc : ∀ p, t.pc p = .out ∨ ∃ n ticks0 since, t.pc p = .asleep (.sys_pause n ticks0 since) ∧
    since ≤ t.shared.now ∧ (t.shared.now - since) % 2 ^ 32 < n.toNat

theorem Kept.idle {t : Monitor.Sys (State P) P Call} (h : Monitor.Kept code May Inv t)
    (hq : Monitor.Quiet code t) : Idle t := by
  refine ⟨hq.lock, fun p => (hq.pc p).imp_right ?_⟩
  rintro ⟨o, hp, hb⟩
  cases o with
  | sys_pause n ticks0 since =>
    obtain ⟨hticks, hsince⟩ := h.well.may p _ (by rw [hp]; rfl)
    have hearly := of_decide_eq_true (pause_none.mp hb)
    rw [Counts.word h.shared, hticks, passed hsince] at hearly
    exact ⟨n, ticks0, since, hp, hsince, by simpa [BitVec.lt_def] using hearly⟩
  | clockintr | sys_uptime => cases hb

/-- **No tick is lost**, and no deadlock: whoever goes first, all calls come to an end but those
that have to wait for another tick. -/
theorem ticks_settles [Fintype P] {t : Monitor.Sys (State P) P Call}
    (h : Reach code.step (Monitor.Ok May) (Monitor.Init (· = .fresh)) t) :
    Settles code.step Monitor.Internal Idle t := by
  have hinit : ∀ s : State P, s = .fresh → Inv s := fun s hs => hs ▸ fresh_inv
  exact (Monitor.settles code_keeps (Monitor.kept code_keeps hinit h)).mono
    fun hk => Kept.idle hk.1 hk.2

theorem ticks_settles_awaited :
    ∃ t, runFrom code.step start (awaited.take 7) = some t ∧
      t.pc false = .asleep (.sys_pause 1 0 0) ∧ t.shared.ticks = 1 ∧
      Settles code.step Monitor.Internal Idle t := by
  have hobs : (runFrom code.step start (awaited.take 7)).map
      (fun t => (t.pc false, t.shared.ticks)) = some (.asleep (.sys_pause 1 0 0), 1) := by decide
  obtain ⟨t, hs, hobs⟩ := Option.map_eq_some_iff.mp hobs
  obtain ⟨hasleep, hticks⟩ := Prod.mk.inj hobs
  have hok : RunOk code.step (Monitor.Ok May) start (awaited.take 7) :=
    made_ok (fun _ _ ho => awaited_made (List.mem_of_mem_take ho)) start
  have hreach : Reach code.step (Monitor.Ok May) (Monitor.Init (· = .fresh)) t :=
    .of_run _ (.start start_init) hok hs
  exact ⟨t, hs, hasleep, hticks, ticks_settles hreach⟩

end Ticks

end Xv6.Sync
