import Xv6.Pipe.Fifo
import Xv6.Pipe.Sleepers

/-!
# A failed read

What a caller of `piperead` may conclude from its return value, whatever
`copyout` did meanwhile:

> `ReadsHonest`: a read of `n > 0` bytes that returned `0` returned from an empty
> pipe without a writer; `nread` moved by what the read returned, and not at all
> when it returned `0` or `-1`; what was accepted and not reported is in the ring.

`nread` belongs to the pipe, not to a call, so a `Metered` run carries two
meters beside the system: by how much `nread` moved in the steps of each call,
and what the pipe looked like at its last step. They are written at the
statements of `piperead` and read by nobody.

The five copy loops differ in one thing. v2..v8 move `nread` after the chunk was
copied out, v1 moves it before the byte is; there a failed `copyout` has already
taken the byte, and `i` does not count it (`dropped_byte`). `NoDrop` names these
steps, and `reads_honest` says that nothing else goes wrong.
-/

namespace Xv6.Pipe

open Lib

variable {P : Type*} [DecidableEq P]

/-! ## Meters -/

/-- The system, how far each call moved `nread`, and whether the pipe was empty
with its write end closed after the last step of the call. -/
structure Metered (P : Type*) where
  sys : Sys P
  taken : Nat → Nat
  atEof : Nat → Bool

/-- The meters after `a` led to `s'`. -/
def Metered.next (m : Metered P) (a : Act P) (s' : Sys P) : Metered P :=
  match a with
  | .run p _ =>
    match m.sys.ctl p with
    | .r _ f =>
      { sys := s'
        taken := Function.update m.taken f.call
          (m.taken f.call + (s'.pi.nread - m.sys.pi.nread).toNat)
        atEof := Function.update m.atEof f.call (s'.pi.empty && !s'.pi.writeopen) }
    | _ => { m with sys := s' }
  | _ => { m with sys := s' }

/-- `step`, metered. -/
def mstep (v : Version) (m : Metered P) (a : Act P) : Option (Metered P) :=
  (step v m.sys a).map (m.next a)

/-- A fresh pipe, nothing metered. -/
structure Metered.Start (m : Metered P) : Prop where
  sys : Init m.sys
  taken : ∀ k, m.taken k = 0

structure ReadsHonest (v : Version) (m : Metered P) : Prop where
  eof : ∀ k, k < m.sys.ncall → (m.sys.call k).isWrite = false → 0 < (m.sys.call k).q.n →
    (m.sys.call k).ret = some 0 → m.atEof k = true
  taken : ∀ k, k < m.sys.ncall → (m.sys.call k).isWrite = false → ∀ r,
    (m.sys.call k).ret = some r → (m.taken k : Int) = max r 0
  given : ∀ k, k < m.sys.ncall → (m.sys.call k).isWrite = false → ∀ r,
    (m.sys.call k).ret = some r → (ofCall k m.sys.delivered).length = r.toNat
  kept : m.sys.delivered.map Prod.snd ++ m.sys.pi.bytes (pipeTotal v)
    = m.sys.written.map Prod.snd

/-! ## The invariant -/

/-- What the place of the reader that holds the lock says about the pipe: in the
copy loop with nothing copied, it did not have to wait any more; past it, it
found the end of the stream. -/
def AtExit (pi : Pipe) : Ctl → Prop
  | .r .loop f => f.i = 0 → ¬(pi.empty = true ∧ pi.writeopen = true)
  | .r .leave f => f.i = 0 → 0 < f.q.n → pi.empty = true ∧ pi.writeopen = false
  | _ => True

omit [DecidableEq P] in
theorem atExit_held {s : Sys P} {p : P} {c : Ctl} (hl : s.lock = some p) (hc : s.ctl p = c)
    (h : AtExit s.pi c) : AtExit s.pi s.held := by
  rw [held_some hl hc]
  exact h

omit [DecidableEq P] in
theorem atExit_free {s : Sys P} (hl : s.lock = none) : AtExit s.pi s.held := by
  rw [held_none hl]
  trivial

/-- What the meters of call `k` say once it returned. -/
structure Settled (m : Metered P) (k : Nat) : Prop where
  taken : ∀ r, (m.sys.call k).ret = some r → (m.taken k : Int) = max r 0
  eof : (m.sys.call k).ret = some 0 → 0 < (m.sys.call k).q.n → m.atEof k = true

structure HonestInv (v : Version) (m : Metered P) : Prop where
  fifo : FifoInv v m.sys
  fresh : ∀ k, m.sys.ncall ≤ k → m.taken k = 0
  going : ∀ p c, (m.sys.ctl p).core = some c → c.isWrite = false → m.taken c.call = c.i.toNat
  settled : ∀ k, k < m.sys.ncall → (m.sys.call k).isWrite = false → Settled m k
  here : AtExit m.sys.pi m.sys.held

omit [DecidableEq P] in
theorem start_honest {v : Version} {m : Metered P} (h : m.Start) : HonestInv v m := by
  refine ⟨init_fifo h.sys, fun k _ => h.taken k, ?_, ?_, ?_⟩
  · intro p c hc
    rw [h.sys.ctl p] at hc
    cases hc
  · intro k hk
    rw [h.sys.ncall] at hk
    omega
  · exact atExit_free h.sys.lock

omit [DecidableEq P] in
theorem HonestInv.honest {v : Version} {m : Metered P} (h : HonestInv v m) : ReadsHonest v m := by
  refine ⟨fun k hk hr hn he => (h.settled k hk hr).eof he hn,
    fun k hk hr => (h.settled k hk hr).taken, ?_, h.fifo.stream⟩
  intro k hk hr r hret
  obtain ⟨-, hd, hdone⟩ := h.fifo.calls k hk
  rw [hd, if_neg (by rw [hr]; decide)]
  rcases hdone r hret with rfl | ⟨rfl, hw | h0⟩
  · rfl
  · rw [hr] at hw
    cases hw
  · show (m.sys.call k).i.toNat = 0
    omega

/-! ## Steps the meters do not see -/

omit [DecidableEq P] in
/-- A step that is not a reader's: no read is further than it was, and none
returned. -/
theorem HonestInv.quiet {v : Version} {m : Metered P} {s' : Sys P} (h : HonestInv v m)
    (hf : FifoInv v s') (hn : m.sys.ncall ≤ s'.ncall)
    (hcore : ∀ p c, (s'.ctl p).core = some c → c.isWrite = false →
      (m.sys.ctl p).core = some c ∨ m.sys.ncall ≤ c.call ∧ c.i = 0)
    (hcall : ∀ k, k < s'.ncall → (s'.call k).isWrite = false →
      (s'.call k).ret = none ∨ k < m.sys.ncall ∧ s'.call k = m.sys.call k)
    (hhere : AtExit s'.pi s'.held) : HonestInv v { m with sys := s' } := by
  refine ⟨hf, fun k hk => h.fresh k (Nat.le_trans hn hk), ?_, ?_, hhere⟩
  · intro p c hc hr
    rcases hcore p c hc hr with hc | ⟨hk, hi⟩
    · exact h.going p c hc hr
    · show m.taken c.call = c.i.toNat
      rw [h.fresh _ hk, hi]
      rfl
  · intro k hk hr
    rcases hcall k hk hr with hnone | ⟨hlt, he⟩
    · refine ⟨fun r hret => ?_, fun hret => ?_⟩
      · rw [show (s'.call k).ret = some r from hret] at hnone
        cases hnone
      · rw [show (s'.call k).ret = some 0 from hret] at hnone
        cases hnone
    · obtain ⟨h1, h2⟩ := h.settled k hlt (he ▸ hr)
      refine ⟨?_, ?_⟩
      · show ∀ r, (s'.call k).ret = some r → _
        rw [he]
        exact h1
      · show (s'.call k).ret = some 0 → 0 < (s'.call k).q.n → _
        rw [he]
        exact h2

omit [DecidableEq P] in
/-- No call is touched. -/
theorem HonestInv.of_core {v : Version} {m : Metered P} {s' : Sys P} (h : HonestInv v m)
    (hf : FifoInv v s') (hcore : ∀ p, (s'.ctl p).core = (m.sys.ctl p).core)
    (hn : s'.ncall = m.sys.ncall) (hcall : s'.call = m.sys.call)
    (hhere : AtExit s'.pi s'.held) : HonestInv v { m with sys := s' } :=
  h.quiet hf (Nat.le_of_eq hn.symm) (fun p c hc _ => .inl (hcore p ▸ hc))
    (fun k hk _ => .inr ⟨hn ▸ hk, by rw [hcall]⟩) hhere

/-- A writer's call moves on or returns. -/
theorem HonestInv.of_write {v : Version} {m : Metered P} {s' : Sys P} {p : P} {c : Core}
    (h : HonestInv v m) (hf : FifoInv v s') (hc : (m.sys.ctl p).core = some c)
    (hw : c.isWrite = true) (hother : ∀ p', p' ≠ p → (s'.ctl p').core = (m.sys.ctl p').core)
    (hself : ∀ c', (s'.ctl p).core = some c' → c'.isWrite = true)
    (hn : s'.ncall = m.sys.ncall) (hcall : ∀ k, k ≠ c.call → s'.call k = m.sys.call k)
    (hthis : (s'.call c.call).isWrite = (m.sys.call c.call).isWrite)
    (hhere : AtExit s'.pi s'.held) : HonestInv v { m with sys := s' } := by
  refine h.quiet hf (Nat.le_of_eq hn.symm) ?_ ?_ hhere
  · intro p' c' hc' hr
    by_cases hp : p' = p
    · subst hp
      rw [hself c' hc'] at hr
      cases hr
    · exact .inl (hother p' hp ▸ hc')
  · intro k hk hr
    by_cases he : k = c.call
    · rw [he, hthis, (h.fifo.incall p c hc).isWrite, hw] at hr
      cases hr
    · exact .inr ⟨hn ▸ hk, hcall k he⟩

/-! ## The reader's own steps -/

omit [DecidableEq P] in
theorem next_read {m : Metered P} {p : P} {r : Copy} {pc : RPc} {f : RFrame} {s' : Sys P}
    (hc : m.sys.ctl p = .r pc f) : m.next (.run p r) s' =
      { sys := s'
        taken := Function.update m.taken f.call
          (m.taken f.call + (s'.pi.nread - m.sys.pi.nread).toNat)
        atEof := Function.update m.atEof f.call (s'.pi.empty && !s'.pi.writeopen) } := by
  unfold Metered.next
  simp only [hc]

/-- **The reader's call moves on**: `nread` moves by what `i` grows, and if the
call returns, by what it returns altogether. -/
theorem HonestInv.own {v : Version} {m : Metered P} {s' : Sys P} {p : P} {r : Copy} {pc : RPc}
    {f : RFrame} (h : HonestInv v m) (hf : FifoInv v s') (hc : m.sys.ctl p = .r pc f)
    (hother : ∀ p', p' ≠ p → (s'.ctl p').core = (m.sys.ctl p').core)
    (hself : ∀ c, (s'.ctl p).core = some c →
      c.call = f.call ∧ c.i.toNat = f.i.toNat + (s'.pi.nread - m.sys.pi.nread).toNat)
    (hn : s'.ncall = m.sys.ncall) (hcall : ∀ k, k ≠ f.call → s'.call k = m.sys.call k)
    (hret : ∀ r, (s'.call f.call).ret = some r →
      ((f.i.toNat + (s'.pi.nread - m.sys.pi.nread).toNat : Nat) : Int) = max r 0 ∧
      (r = 0 → 0 < (s'.call f.call).q.n → s'.pi.empty = true ∧ s'.pi.writeopen = false))
    (hhere : AtExit s'.pi s'.held) : HonestInv v (m.next (.run p r) s') := by
  have hcore : (m.sys.ctl p).core = some ⟨false, f.q, f.call, f.i⟩ := by rw [hc]; rfl
  have hin := h.fifo.incall p _ hcore
  have htaken : m.taken f.call = f.i.toNat := h.going p _ hcore rfl
  rw [next_read hc]
  refine ⟨hf, ?_, ?_, ?_, hhere⟩
  · intro k hk
    have hk : m.sys.ncall ≤ k := hn ▸ hk
    have hne : k ≠ f.call := fun he => absurd hin.lt (by show ¬f.call < _; omega)
    show Function.update m.taken f.call _ k = 0
    rw [Function.update_of_ne hne]
    exact h.fresh k hk
  · intro p' c hc' hr
    show Function.update m.taken f.call _ c.call = c.i.toNat
    by_cases hp : p' = p
    · subst hp
      obtain ⟨he, hi⟩ := hself c hc'
      rw [he, Function.update_self, htaken, hi]
    · have hc' : (m.sys.ctl p').core = some c := hother p' hp ▸ hc'
      have hne : c.call ≠ f.call := fun he => hp (h.fifo.inj p' p c _ hc' hcore he)
      rw [Function.update_of_ne hne]
      exact h.going p' c hc' hr
  · intro k hk hr
    by_cases he : k = f.call
    · subst he
      refine ⟨fun r hr' => ?_, fun hr' hpos => ?_⟩
      · show ((Function.update m.taken f.call _ f.call : Nat) : Int) = max r 0
        rw [Function.update_self, htaken]
        exact (hret r hr').1
      · show Function.update m.atEof f.call _ f.call = true
        obtain ⟨hempty, hopen⟩ := (hret 0 hr').2 rfl hpos
        rw [Function.update_self, hempty, hopen]
        rfl
    · have hk : s'.call k = m.sys.call k := hcall k he
      obtain ⟨h1, h2⟩ := h.settled k (hn ▸ ‹k < s'.ncall›) (hk ▸ hr)
      refine ⟨?_, ?_⟩
      · show ∀ r, (s'.call k).ret = some r →
          ((Function.update m.taken f.call _ k : Nat) : Int) = max r 0
        rw [hk, Function.update_of_ne he]
        exact h1
      · show (s'.call k).ret = some 0 → 0 < (s'.call k).q.n →
          Function.update m.atEof f.call _ k = true
        rw [hk, Function.update_of_ne he]
        exact h2

/-- The reader moves to another place, the ring unchanged. -/
theorem HonestInv.goto {v : Version} {m : Metered P} {s' : Sys P} {p : P} {r : Copy} {pc pc' : RPc}
    {f f' : RFrame} (h : HonestInv v m) (hf : FifoInv v s') (hc : m.sys.ctl p = .r pc f)
    (hctl : s'.ctl = Function.update m.sys.ctl p (.r pc' f')) (hq : f'.call = f.call)
    (hi : f'.i = f.i) (hpi : s'.pi = m.sys.pi) (hn : s'.ncall = m.sys.ncall)
    (hcall : s'.call = m.sys.call) (hhere : AtExit s'.pi s'.held) :
    HonestInv v (m.next (.run p r) s') := by
  refine h.own hf hc (fun p' hp => by rw [hctl, Function.update_of_ne hp]) ?_ hn
    (fun k _ => by rw [hcall]) ?_ hhere
  · intro c hc'
    rw [hctl, Function.update_self] at hc'
    obtain rfl := Option.some.inj hc'
    rw [hpi, BitVec.sub_self]
    exact ⟨hq, by show f'.i.toNat = _; rw [hi]; rfl⟩
  · intro r hr
    have hnone := (h.fifo.incall p ⟨false, f.q, f.call, f.i⟩ (by rw [hc]; rfl)).ret
    rw [hcall, hnone] at hr
    cases hr

/-- The reader returns `r`, having moved `nread` by `f.i` bytes. -/
theorem HonestInv.ret {v : Version} {m : Metered P} {s : Sys P} {p : P} {pc : RPc} {f : RFrame}
    {r : Copy} {res : Int} (h : HonestInv v m) (hf : FifoInv v (s.ret p f.call res))
    (hc : m.sys.ctl p = .r pc f) (hcore : ∀ p', (s.ctl p').core = (m.sys.ctl p').core)
    (hpi : s.pi = m.sys.pi) (hn : s.ncall = m.sys.ncall) (hcall : s.call = m.sys.call)
    (hres : (f.i.toNat : Int) = max res 0)
    (heof : res = 0 → 0 < f.q.n → s.pi.empty = true ∧ s.pi.writeopen = false) :
    HonestInv v (m.next (.run p r) (s.ret p f.call res)) := by
  have hthis : (s.ret p f.call res).call f.call = { s.call f.call with ret := some res } :=
    Function.update_self _ _ _
  have hq : (s.call f.call).q = f.q := by
    rw [hcall]
    exact (h.fifo.incall p ⟨false, f.q, f.call, f.i⟩ (by rw [hc]; rfl)).q
  refine h.own hf hc ?_ ?_ hn ?_ ?_ ?_
  · intro p' hp
    rw [show (s.ret p f.call res).ctl p' = s.ctl p' from Function.update_of_ne hp _ _]
    exact hcore p'
  · intro c hc'
    rw [show (s.ret p f.call res).ctl p = .user from Function.update_self _ _ _] at hc'
    cases hc'
  · intro k hk
    rw [← hcall]
    exact Function.update_of_ne hk _ _
  · intro r' hr'
    rw [hthis] at hr' ⊢
    obtain rfl := Option.some.inj hr'
    show ((f.i.toNat + (s.pi.nread - m.sys.pi.nread).toNat : Nat) : Int) = _ ∧
      (res = 0 → 0 < (s.call f.call).q.n → s.pi.empty = true ∧ s.pi.writeopen = false)
    rw [hpi, BitVec.sub_self, hq, ← hpi]
    exact ⟨hres, heof⟩
  · exact atExit_free rfl

/-- **One iteration of the copy loop**, none of whose failures drops a byte. -/
theorem HonestInv.get {v : Version} {m : Metered P} {p : P} {f : RFrame} (h : HonestInv v m)
    (hl : m.sys.lock = some p) (hc : m.sys.ctl p = .r .loop f) (hi : f.i < f.q.n)
    (he : m.sys.pi.empty = false) {r : Copy} (hv : bulkCopy v = true ∨ r = .ok) :
    HonestInv v (m.next (.run p r) (m.sys.get v p f r)) := by
  have hf := h.fifo.get hl hc hi he hv
  have hi0 : 0 ≤ f.i := by
    rcases (hc ▸ h.fifo.base.ok p : (Ctl.r .loop f).Ok).1 with h0 | ⟨_, hpc⟩
    · exact h0
    · cases hpc
  have hin := h.fifo.incall p ⟨false, f.q, f.call, f.i⟩ (by rw [hc]; rfl)
  have hused := h.fifo.base.used_le
  have hle := pipeTotal_le v
  rcases get_cases h.fifo.base hc hi he r
    with ⟨len, hpos, hrem, hroom, hwrap, ho⟩ | ⟨len, hrem, ho⟩ | ⟨hv', hr', _⟩
  · rw [ho] at hf ⊢
    have hmoved : (m.sys.pi.nread + BitVec.ofNat 32 len - m.sys.pi.nread).toNat = len := by
      rw [BitVec.add_comm, BitVec.add_sub_cancel, BitVec.toNat_ofNat, Nat.mod_eq_of_lt (by omega)]
    refine h.own hf hc (fun p' hp => by simp only [Function.update_of_ne hp]) ?_ rfl
      (fun k hk => Function.update_of_ne hk _ _) ?_ ?_
    · intro c hc'
      simp only [Function.update_self] at hc'
      obtain rfl := Option.some.inj hc'
      refine ⟨rfl, ?_⟩
      show (f.i + len).toNat = f.i.toNat + (m.sys.pi.nread + BitVec.ofNat 32 len
        - m.sys.pi.nread).toNat
      rw [hmoved]
      omega
    · intro r' hr'
      simp only [Function.update_self] at hr'
      rw [hin.ret] at hr'
      cases hr'
    · refine atExit_held hl (Function.update_self _ _ _) fun h0 => ?_
      have h0 : f.i + len = 0 := h0
      omega
  · rw [ho] at hf ⊢
    refine h.own hf hc (fun p' hp => by simp only [Function.update_of_ne hp]) ?_ rfl
      (fun k hk => Function.update_of_ne hk _ _) ?_ ?_
    · intro c hc'
      simp only [Function.update_self] at hc'
      obtain rfl := Option.some.inj hc'
      rw [BitVec.sub_self]
      refine ⟨rfl, ?_⟩
      show (if f.i = 0 then -1 else f.i).toNat = f.i.toNat
      split <;> omega
    · intro r' hr'
      simp only [Function.update_self] at hr'
      rw [hin.ret] at hr'
      cases hr'
    · -- `-1`, or bytes were copied before
      refine atExit_held hl (Function.update_self _ _ _) fun h0 => ?_
      have h0 : (if f.i = 0 then -1 else f.i) = 0 := h0
      split at h0 <;> omega
  · rcases hv with hv | hv
    · rw [hv] at hv'
      cases hv'
    · exact absurd hv hr'

/-! ## Every step -/

section

omit [DecidableEq P]

theorem wakeReaders_sys (v : Version) (s : Sys P) (f : WFrame) :
    (s.wakeReaders v f).ncall = s.ncall ∧ (s.wakeReaders v f).call = s.call := by
  unfold Sys.wakeReaders
  split
  · split <;> exact ⟨rfl, rfl⟩
  · exact ⟨rfl, rfl⟩

theorem wakeWriters_sys (v : Version) (s : Sys P) (f : RFrame) :
    (s.wakeWriters v f).pi = s.pi ∧ (s.wakeWriters v f).ncall = s.ncall ∧
      (s.wakeWriters v f).call = s.call := by
  unfold Sys.wakeWriters
  split
  · split <;> exact ⟨rfl, rfl, rfl⟩
  · exact ⟨rfl, rfl, rfl⟩

theorem next_other {m : Metered P} {a : Act P} {s' : Sys P}
    (h : ∀ p r pc f, a = .run p r → m.sys.ctl p ≠ .r pc f) :
    m.next a s' = { m with sys := s' } := by
  unfold Metered.next
  split
  next p r =>
    split
    next pc f hc => exact absurd hc (h p r pc f rfl)
    next => rfl
  next => rfl

end

/-- The record of a call just made. -/
theorem HonestInv.enter {v : Version} {m : Metered P} (h : HonestInv v m) {p : P} (isWrite : Bool)
    (q : Req) (hf : FifoInv v (m.sys.enter p isWrite q)) (hc : m.sys.ctl p = .user) :
    HonestInv v { m with sys := m.sys.enter p isWrite q } := by
  refine h.quiet hf (Nat.le_succ _) ?_ ?_ ?_
  · intro p' c hc' _
    by_cases hp : p' = p
    · subst hp
      rw [show (m.sys.enter p' isWrite q).ctl p' = _ from Function.update_self _ _ _] at hc'
      refine .inr ?_
      cases isWrite <;> obtain rfl := Option.some.inj hc' <;> exact ⟨Nat.le_refl _, rfl⟩
    · rw [show (m.sys.enter p isWrite q).ctl p' = m.sys.ctl p' from
        Function.update_of_ne hp _ _] at hc'
      exact .inl hc'
  · intro k hk _
    rcases Nat.lt_succ_iff_lt_or_eq.mp hk with hlt | rfl
    · exact .inr ⟨hlt, Function.update_of_ne (by omega) _ _⟩
    · refine .inl ?_
      rw [show (m.sys.enter p isWrite q).call m.sys.ncall = _ from Function.update_self _ _ _]
  · have hheld : (m.sys.enter p isWrite q).held = m.sys.held :=
      held_away h.fifo.base.lock (by rw [hc]; rfl) _
    rw [hheld]
    exact h.here

theorem honest_step {v : Version} {m m' : Metered P} {a : Act P} (hv : NoDrop v m.sys a)
    (h : HonestInv v m) (hs : mstep v m a = some m') : HonestInv v m' := by
  obtain ⟨s', hs', rfl⟩ := Option.map_eq_some_iff.mp hs
  have hf := fifo_step hv h.fifo hs'
  have hok := h.fifo.base.ok
  have hhere := h.here
  cases step_cases hs' with
  | user hc =>
    rw [next_other (by intro _ _ _ _ he; cases he)]
    exact h.of_core hf (fun _ => rfl) rfl rfl h.here
  | write hc =>
    rw [next_other (by intro _ _ _ _ he; cases he)]
    exact h.enter true _ hf hc
  | read hc =>
    rw [next_other (by intro _ _ _ _ he; cases he)]
    exact h.enter false _ hf hc
  | @kill p =>
    rw [next_other (by intro _ _ _ _ he; cases he)]
    refine h.of_core hf (core_update (core_wake _)) rfl rfl ?_
    rw [held_kkill h.fifo.base.lock]
    exact h.here
  | @close writable hl =>
    rw [next_other (by intro _ _ _ _ he; cases he)]
    cases writable with
    | true => exact h.of_core hf (core_wakeup _ _) rfl rfl (atExit_free hl)
    | false => exact h.of_core hf (core_wakeup _ _) rfl rfl (atExit_free hl)
  | wEnter hl hc | wResume hl hc | rEnter hl hc hpc =>
    rw [next_other (by intro _ _ _ _ he; cases he)]
    refine h.of_core hf (core_update (by rw [hc]; rfl)) rfl rfl ?_
    exact atExit_held rfl (Function.update_self _ _ _) trivial
  | @wFail p r f hl hc hi hstop =>
    rw [next_other (by rintro _ _ _ _ he hc'; cases he; rw [hc] at hc'; cases hc')]
    refine h.of_write (c := ⟨true, f.q, f.call, f.i⟩) hf (by rw [hc]; rfl) rfl
      (fun p' hp => congrArg Ctl.core (Function.update_of_ne hp _ _)) ?_ rfl
      (fun k hk => Function.update_of_ne hk _ _) ?_ (atExit_free rfl)
    · intro c' hc'
      rw [show (m.sys.ret p f.call (-1)).ctl p = .user from Function.update_self _ _ _] at hc'
      cases hc'
    · rw [show (m.sys.ret p f.call (-1)).call f.call = _ from Function.update_self _ _ _]
  | wTest hl hc hi ho hk | wEnd hl hc hi =>
    rw [next_other (by rintro _ _ _ _ he hc'; cases he; rw [hc] at hc'; cases hc')]
    refine h.of_core hf (core_update (by rw [hc]; rfl)) rfl rfl ?_
    exact atExit_held hl (Function.update_self _ _ _) trivial
  | wSleep hl hc =>
    rw [next_other (by rintro _ _ _ _ he hc'; cases he; rw [hc] at hc'; cases hc')]
    exact h.of_core hf (core_update (by rw [hc]; rfl)) rfl rfl (atExit_free rfl)
  | @wFull p r f hl hc hfull =>
    rw [next_other (by rintro _ _ _ _ he hc'; cases he; rw [hc] at hc'; cases hc')]
    refine h.of_core hf ?_ rfl rfl (atExit_held hl (Function.update_self _ _ _) trivial)
    intro p'
    rw [show ((m.sys.wakeup .nread).goto p (.w .sleep f)).ctl p' = _ from rfl]
    exact (core_update (by rw [core_wakeup, hc]; rfl) p').trans (core_wakeup _ _ _)
  | @wPut p r f hl hc hfull =>
    rw [next_other (by rintro _ _ _ _ he hc'; cases he; rw [hc] at hc'; cases hc')]
    refine h.of_write (c := ⟨true, f.q, f.call, f.i⟩) hf (by rw [hc]; rfl) rfl
      (fun p' hp => congrArg Ctl.core (Function.update_of_ne hp _ _)) ?_ rfl
      (fun k hk => Function.update_of_ne hk _ _) ?_
      (atExit_held hl (Function.update_self _ _ _) trivial)
    · intro c' hc'
      rw [show (m.sys.put v p f r).ctl p = _ from Function.update_self _ _ _] at hc'
      obtain rfl := Option.some.inj hc'
      rfl
    · rw [show (m.sys.put v p f r).call f.call = _ from Function.update_self _ _ _]
  | @wLeave p r f hl hc =>
    rw [next_other (by rintro _ _ _ _ he hc'; cases he; rw [hc] at hc'; cases hc')]
    obtain ⟨hn, hcall⟩ := wakeReaders_sys v m.sys f
    refine h.of_write (c := ⟨true, f.q, f.call, f.i⟩) hf (by rw [hc]; rfl) rfl
      (fun p' hp => ?_) ?_ hn (fun k hk => ?_) ?_ (atExit_free rfl)
    · rw [show ((m.sys.wakeReaders v f).ret p f.call f.i).ctl p' = _ from
        Function.update_of_ne hp _ _]
      exact core_wakeReaders v m.sys f p'
    · intro c' hc'
      rw [show ((m.sys.wakeReaders v f).ret p f.call f.i).ctl p = .user from
        Function.update_self _ _ _] at hc'
      cases hc'
    · rw [← hcall]
      exact Function.update_of_ne hk _ _
    · rw [show ((m.sys.wakeReaders v f).ret p f.call f.i).call f.call = _ from
        Function.update_self _ _ _, ← hcall]
  | rWait hl hc he ho | rTest hl hc hk =>
    exact h.goto hf hc rfl rfl rfl rfl rfl rfl
      (atExit_held hl (Function.update_self _ _ _) trivial)
  | rStart hl hc hw =>
    exact h.goto hf hc rfl rfl rfl rfl rfl rfl
      (atExit_held hl (Function.update_self _ _ _) fun _ => hw)
  | rSleep hl hc => exact h.goto hf hc rfl rfl rfl rfl rfl rfl (atExit_free rfl)
  | @rEnd p r f hl hc hi =>
    refine h.goto hf hc rfl rfl rfl rfl rfl rfl
      (atExit_held hl (Function.update_self _ _ _) fun h0 hn => ?_)
    -- nothing copied and bytes wanted: the ring is empty, and was so at the wait
    rw [held_some hl hc] at hhere
    have hempty : m.sys.pi.empty = true := by
      by_contra hne
      exact hi ⟨by show f.i < _; rw [show f.i = 0 from h0]; exact hn, by simpa using hne⟩
    refine ⟨hempty, ?_⟩
    rw [← Bool.not_eq_true]
    exact fun ho => hhere h0 ⟨hempty, ho⟩
  | @rFail p r f hl hc hk =>
    have h0 : f.i = 0 := (hc ▸ hok p : (Ctl.r .killed f).Ok).2 (by decide) (by decide)
    refine h.ret hf hc (fun _ => rfl) rfl rfl rfl ?_ (fun he => absurd he (by decide))
    rw [h0]
    rfl
  | rGet hl hc hi he => exact h.get hl hc hi he (hv.imp_right fun hd => hd _ _ _ rfl hc hi he)
  | @rLeave p r f hl hc =>
    obtain ⟨hpi, hn, hcall⟩ := wakeWriters_sys v m.sys f
    refine h.ret hf hc (core_wakeWriters v m.sys f) hpi hn hcall (by omega) fun h0 hpos => ?_
    rw [held_some hl hc] at hhere
    rw [hpi]
    exact hhere h0 hpos

/-! ## Exactly when -/

/-- **The dropped byte.** A `copyout` that fails under v1 leaves the ring one byte
shorter, and the byte is neither there nor with any reader. -/
theorem dropped_byte {v : Version} {m : Metered P} {a : Act P} (h : HonestInv v m)
    (hbad : ¬NoDrop v m.sys a) : ∃ m', mstep v m a = some m' ∧ ¬ReadsHonest v m' := by
  unfold NoDrop at hbad
  push Not at hbad
  obtain ⟨hv, p, r, f, rfl, hc, hi, he, hr⟩ := hbad
  have hl : m.sys.lock = some p := (h.fifo.base.lock p).mp (by rw [hc]; rfl)
  have hrun : step v m.sys (.run p r) = some (m.sys.get v p f r) := by
    simp only [step, Sys.run, hl, hc, hi, he]
    rfl
  refine ⟨_, by rw [mstep, hrun]; rfl, fun hgood => ?_⟩
  rw [next_read hc] at hgood
  obtain ⟨k, rfl⟩ : ∃ k, r = .fail k := by
    cases r with
    | ok => exact absurd rfl hr
    | fail k => exact ⟨k, rfl⟩
  have ho : readIter v m.sys.pi (m.sys.umem p) f.q.addr f.q.n f.i (.fail k)
      = ⟨m.sys.pi.popped 1, m.sys.umem p, f.i, true⟩ := by
    rw [readIter, if_neg hv]
    rfl
  have hkept := hgood.kept
  simp only [Sys.get, ho, Int.sub_self, Int.toNat_zero, List.range_zero, List.map_nil,
    List.append_nil] at hkept
  rw [← h.fifo.stream] at hkept
  -- the two sides differ in length
  have hlen := congrArg List.length (List.append_cancel_left hkept)
  have hpos : 0 < m.sys.pi.used := by
    rcases Nat.eq_zero_or_pos m.sys.pi.used with h0 | h0
    · rw [empty_iff.mpr h0] at he
      cases he
    · exact h0
  have hu : (m.sys.pi.popped 1).used = m.sys.pi.used - 1 := used_popped hpos
  simp only [bytes, Ring.length_contents] at hlen
  omega

/-- **What a read reports is what it took**, in every state of a run, exactly if
no `copyout` fails under v1. -/
theorem reads_honest_iff {v : Version} {m : Metered P} (h : m.Start) (as : List (Act P)) :
    RunOk (mstep v) (fun m a => NoDrop v m.sys a) m as ↔
      ∀ bs, bs <+: as → ∀ m', runFrom (mstep v) m bs = some m' → ReadsHonest v m' :=
  RunOk.iff_always (fun hi hv hs => honest_step hv hi hs) HonestInv.honest
    (fun hi hbad => dropped_byte hi hbad) as (start_honest h)

/-- A fresh pipe with its meters at zero. -/
def Metered.fresh (umem : P → Mem) : Metered P := ⟨Sys.fresh umem, fun _ => 0, fun _ => false⟩

omit [DecidableEq P] in
theorem fresh_start (umem : P → Mem) : (Metered.fresh umem).Start :=
  ⟨fresh_init umem, fun _ => rfl⟩

/-- `false` writes two bytes; the first `copyout` of `true`'s read fails. -/
def failingRead : List (Act Bool) :=
  [.write false (.of 0 2), .acquire false, .run false .ok, .run false .ok,
    .run false .ok, .run false .ok, .run false .ok, .run false .ok,
    .read true (.of 100 2), .acquire true, .run true .ok, .run true (.fail 0), .run true .ok]

/-- **v1: a failed read looks like end of file, and a byte is gone.** The read
returns `0` with the write end open and a byte left in the pipe; the byte it took
was given to nobody. -/
theorem failed_read_v1 :
    ∃ m : Metered Bool, runFrom (mstep .v1) (Metered.fresh fun _ a => UInt8.ofNat a.toNat)
        failingRead = some m ∧
      (m.sys.call 1).ret = some 0 ∧ 0 < (m.sys.call 1).q.n ∧ m.sys.pi.writeopen = true ∧
      m.sys.pi.empty = false ∧ m.taken 1 = 1 ∧
      m.sys.delivered.map Prod.snd = [] ∧ m.sys.written.map Prod.snd = [0, 1] ∧ m.sys.pi.used = 1 ∧
      ¬ReadsHonest .v1 m := by
  have hrun : (runFrom (mstep .v1) (Metered.fresh fun (_ : Bool) a => UInt8.ofNat a.toNat)
      failingRead).map (fun m => ((m.sys.call 1).ret, (m.sys.call 1).q.n, (m.sys.call 1).isWrite,
        m.sys.ncall, m.taken 1)) = some (some 0, 2, false, 2, 1) := by decide +kernel
  have hpipe : (runFrom (mstep .v1) (Metered.fresh fun (_ : Bool) a => UInt8.ofNat a.toNat)
      failingRead).map (fun m => (m.sys.pi.writeopen, m.sys.pi.empty, m.sys.pi.used,
        m.sys.delivered.map Prod.snd, m.sys.written.map Prod.snd))
      = some (true, false, 1, [], [0, 1]) := by
    decide +kernel
  obtain ⟨m, hm, he⟩ := Option.map_eq_some_iff.mp hrun
  rw [hm] at hpipe
  simp only [Option.map_some, Option.some.injEq, Prod.mk.injEq] at he hpipe
  obtain ⟨hret, hn, hr, hk, ht⟩ := he
  obtain ⟨ho, hempty, hu, hd, hw⟩ := hpipe
  refine ⟨m, hm, hret, by rw [hn]; decide, ho, hempty, ht, hd, hw, hu, fun hgood => ?_⟩
  have := hgood.taken 1 (by omega) hr 0 hret
  omega

/-- `false` writes two bytes; `true`'s read fails, and its next read gets them. -/
def retriedRead : List (Act Bool) :=
  [.write false (.of 0 2), .acquire false, .run false .ok, .run false .ok,
    .run false .ok, .run false .ok,
    .read true (.of 100 2), .acquire true, .run true .ok, .run true (.fail 1), .run true .ok,
    .read true (.of 100 2), .acquire true, .run true .ok, .run true .ok, .run true .ok,
    .run true .ok]

theorem reads_honest_retried :
    ∃ m : Metered Bool, runFrom (mstep .v2) (Metered.fresh fun _ a => UInt8.ofNat a.toNat)
        retriedRead = some m ∧
      (m.sys.call 1).ret = some (-1) ∧ (m.sys.call 2).ret = some 2 ∧
      m.sys.delivered.map Prod.snd = [0, 1] ∧ ReadsHonest .v2 m := by
  have hrun : (runFrom (mstep .v2) (Metered.fresh fun (_ : Bool) a => UInt8.ofNat a.toNat)
      retriedRead).map (fun m => ((m.sys.call 1).ret, (m.sys.call 2).ret,
        m.sys.delivered.map Prod.snd)) = some (some (-1), some 2, [0, 1]) := by decide +kernel
  obtain ⟨m, hm, he⟩ := Option.map_eq_some_iff.mp hrun
  simp only [Prod.mk.injEq] at he
  obtain ⟨h1, h2, h3⟩ := he
  have hok : RunOk (mstep .v2) (fun m a => NoDrop .v2 m.sys a)
      (Metered.fresh fun (_ : Bool) a => UInt8.ofNat a.toNat) retriedRead :=
    (RunOk.any _ _ _).imp fun _ _ _ => .inl rfl
  exact ⟨m, hm, h1, h2, h3, (reads_honest_iff (fresh_start _) retriedRead).mp hok _
    (List.prefix_refl _) m hm⟩

end Xv6.Pipe
