import Xv6.Pipe.LockInv

/-!
# The pipe is a FIFO stream

For the bulk versions, whatever readers and writers do: the bytes handed to
readers, followed by the bytes in the ring, are the bytes writers put in.

> `FifoInv`: `delivered ++ bytes = written`; the bytes of one write are the
> first `i` bytes of its buffer; the bytes of one read are the first `i` bytes
> its caller finds in its own buffer.

Most steps move a process between two places of the code and nothing else.
`Ctl.core` forgets the place and keeps the call, so that all of those go through
one lemma (`FifoInv.of_core`); what remains is entering, returning, and the two
copies, whose effect on the ring `put_cases` and `get_cases` already state. The
counters are never compared, only subtracted, so nothing is lost when they pass
`2^32`.

v1 is left out: there `nread` moves before `copyout`, and a failed copy drops a
byte that no reader was given.
-/

namespace Xv6.Pipe

open Lib

variable {P : Type*} [DecidableEq P]

/-! ## The bytes of one call -/

/-- The bytes of call `k`, in order. -/
def ofCall (k : Nat) (l : List (Nat × UInt8)) : List UInt8 :=
  (l.filter fun x => x.1 == k).map Prod.snd

theorem ofCall_append (k : Nat) (l l' : List (Nat × UInt8)) :
    ofCall k (l ++ l') = ofCall k l ++ ofCall k l' := by
  simp [ofCall]

theorem ofCall_self (k : Nat) (xs : List UInt8) : ofCall k (xs.map (Prod.mk k)) = xs := by
  induction xs with
  | nil => rfl
  | cons x xs ih => simpa [ofCall] using ih

theorem ofCall_ne {k k' : Nat} (h : k' ≠ k) (xs : List UInt8) :
    ofCall k (xs.map (Prod.mk k')) = [] := by
  induction xs with
  | nil => rfl
  | cons x xs ih => simp [ofCall, h]

theorem userBytes_shift {i : Int} (hi : 0 ≤ i) (mem : Mem) (addr : Addr) (k : Nat) :
    userBytes mem addr i k = userBytes mem addr 0 (i.toNat + k) := by
  unfold userBytes
  obtain ⟨m, rfl⟩ := Int.eq_ofNat_of_zero_le hi
  rw [ofInt_natCast, BitVec.add_assoc, ← BitVec.ofNat_add]
  simp

/-- The first `i + len` bytes of a buffer. -/
theorem userBytes_append {i : Int} (hi : 0 ≤ i) (mem : Mem) (addr : Addr) (len : Nat) :
    (List.range (i + len).toNat).map (userBytes mem addr 0)
      = (List.range i.toNat).map (userBytes mem addr 0)
        ++ (List.range len).map (userBytes mem addr i) := by
  rw [show (i + len).toNat = i.toNat + len by omega, List.range_add, List.map_append,
    List.map_map]
  congr 1
  exact List.map_congr_left fun k _ => (userBytes_shift hi mem addr k).symm

/-- A `copyout` from offset `i` on leaves the bytes before it. -/
theorem userBytes_copyout_before {i n : Int} (hi : 0 ≤ i) (hn : n < 2 ^ 31) {len : Nat}
    (hlen : (len : Int) ≤ n - i) (mem : Mem) (addr : Addr) (data : Nat → UInt8) (slot : Nat) :
    (List.range i.toNat).map
        (userBytes (copyout mem (addr + BitVec.ofInt 64 i) data slot len) addr 0)
      = (List.range i.toNat).map (userBytes mem addr 0) := by
  apply List.map_congr_left
  intro k hk
  have hk := List.mem_range.mp hk
  unfold userBytes copyout
  obtain ⟨m, rfl⟩ := Int.eq_ofNat_of_zero_le hi
  -- address `addr + k` lies `m - k` below the start of the copy, modulo `2^64`
  have hd : (addr + BitVec.ofInt 64 0 + BitVec.ofNat 64 k
      - (addr + BitVec.ofInt 64 (m : Int))).toNat = 2 ^ 64 - (m - k) := by
    have heq : addr + BitVec.ofInt 64 0 + BitVec.ofNat 64 k - (addr + BitVec.ofInt 64 (m : Int))
        = BitVec.ofNat 64 k - BitVec.ofNat 64 m := by
      rw [ofInt_natCast]
      simp only [BitVec.ofInt_ofNat, BitVec.add_zero]
      bv_omega
    rw [heq, BitVec.toNat_sub, BitVec.toNat_ofNat, BitVec.toNat_ofNat]
    simp only [Int.toNat_natCast] at hk
    omega
  rw [hd, if_neg (by simp only [Int.toNat_natCast] at hk; omega)]

/-! ## The invariant -/

/-- The call a process is in, its place forgotten. -/
structure Core where
  isWrite : Bool
  q : Req
  call : Nat
  i : Int

def Ctl.core : Ctl → Option Core
  | .user => none
  | .w _ f => some ⟨true, f.q, f.call, f.i⟩
  | .r _ f => some ⟨false, f.q, f.call, f.i⟩

@[simp] theorem core_wake (c : Ctl) : c.wake.core = c.core := by
  cases c with
  | user => rfl
  | w pc f => cases pc <;> rfl
  | r pc f => cases pc <;> rfl

/-- What the two streams and the record of call `k` say of each other. -/
structure CallOk (s : Sys P) (k : Nat) : Prop where
  written : ofCall k s.written = if (s.call k).isWrite = true then
    (List.range (s.call k).i.toNat).map (userBytes (s.call k).buf (s.call k).q.addr 0) else []
  delivered : (ofCall k s.delivered).length
    = if (s.call k).isWrite = true then 0 else (s.call k).i.toNat
  ret : ∀ r, (s.call k).ret = some r →
    r = (s.call k).i ∨ r = -1 ∧ ((s.call k).isWrite = true ∨ (s.call k).i ≤ 0)

/-- What the record of the call process `p` is in says. -/
structure InCall (s : Sys P) (p : P) (c : Core) : Prop where
  lt : c.call < s.ncall
  isWrite : (s.call c.call).isWrite = c.isWrite
  q : (s.call c.call).q = c.q
  i : (s.call c.call).i = c.i
  ret : (s.call c.call).ret = none
  buf : c.isWrite = true → (s.call c.call).buf = s.umem p
  found : c.isWrite = false →
    ofCall c.call s.delivered = (List.range c.i.toNat).map (userBytes (s.umem p) c.q.addr 0)

structure FifoInv (v : Version) (s : Sys P) : Prop where
  base : BaseInv v s
  stream : s.delivered.map Prod.snd ++ s.pi.bytes (pipeTotal v) = s.written.map Prod.snd
  fresh : ∀ k, s.ncall ≤ k → ofCall k s.written = [] ∧ ofCall k s.delivered = []
  calls : ∀ k, k < s.ncall → CallOk s k
  incall : ∀ p c, (s.ctl p).core = some c → InCall s p c
  inj : ∀ p p' c c', (s.ctl p).core = some c → (s.ctl p').core = some c' →
    c.call = c'.call → p = p'

omit [DecidableEq P] in
theorem init_fifo {v : Version} {s : Sys P} (h : Init s) : FifoInv v s := by
  have hcore : ∀ p, (s.ctl p).core = none := fun p => by rw [h.ctl p]; rfl
  refine ⟨init_base h, ?_, ?_, ?_, ?_, ?_⟩
  · rw [h.written, h.delivered]
    simp [bytes, used, h.nread, h.nwrite]
  · intro k _
    rw [h.written, h.delivered]
    exact ⟨rfl, rfl⟩
  · intro k hk
    rw [h.ncall] at hk
    omega
  · intro p c hc
    rw [hcore] at hc
    cases hc
  · intro p p' c c' hc
    rw [hcore] at hc
    cases hc

omit [DecidableEq P] in
/-- **A step that only moves processes between places** keeps the invariant:
the pipe may change as long as its FIFO view does not. -/
theorem FifoInv.of_core {v : Version} {s s' : Sys P} (h : FifoInv v s) (hb : BaseInv v s')
    (hbytes : s'.pi.bytes (pipeTotal v) = s.pi.bytes (pipeTotal v))
    (hcore : ∀ p, (s'.ctl p).core = (s.ctl p).core) (humem : s'.umem = s.umem)
    (hncall : s'.ncall = s.ncall) (hcall : s'.call = s.call) (hw : s'.written = s.written)
    (hd : s'.delivered = s.delivered) : FifoInv v s' := by
  obtain ⟨pi, lock, ctl, killed, umem, ncall, call, written, delivered⟩ := s'
  simp only at hbytes hcore humem hncall hcall hw hd
  subst humem hncall hcall hw hd
  refine ⟨hb, ?_, h.fresh, ?_, ?_, ?_⟩
  · rw [hbytes]
    exact h.stream
  · intro k hk
    obtain ⟨h1, h2, h3⟩ := h.calls k hk
    exact ⟨h1, h2, h3⟩
  · intro p c hc
    obtain ⟨h1, h2, h3, h4, h5, h6, h7⟩ := h.incall p c (hcore p ▸ hc)
    exact ⟨h1, h2, h3, h4, h5, h6, h7⟩
  · intro p p' c c' hc hc'
    exact h.inj p p' c c' (hcore p ▸ hc) (hcore p' ▸ hc')

/-- A process moved to a place with the same call. -/
theorem core_update {ctl : P → Ctl} {p : P} {c : Ctl} (hc : c.core = (ctl p).core) (p' : P) :
    (Function.update ctl p c p').core = (ctl p').core := by
  by_cases hp : p' = p
  · subst hp
    rw [Function.update_self, hc]
  · rw [Function.update_of_ne hp]

omit [DecidableEq P] in
theorem core_wakeup (s : Sys P) (ch : Chan) (p : P) :
    ((s.wakeup ch).ctl p).core = (s.ctl p).core := by
  show (if (s.ctl p).asleepOn = some ch then (s.ctl p).wake else s.ctl p).core = _
  split
  · exact core_wake _
  · rfl

/-- A wakeup and a move to another place of the same call. -/
theorem FifoInv.goto {v : Version} {s : Sys P} (h : FifoInv v s) {p : P} {c : Ctl}
    (hb : BaseInv v (s.goto p c)) (hc : c.core = (s.ctl p).core) : FifoInv v (s.goto p c) :=
  h.of_core hb rfl (core_update hc) rfl rfl rfl rfl rfl

section

omit [DecidableEq P]

theorem FifoInv.wakeup {v : Version} {s : Sys P} (h : FifoInv v s) (ch : Chan) :
    FifoInv v (s.wakeup ch) :=
  h.of_core (h.base.wakeup ch) rfl (core_wakeup s ch) rfl rfl rfl rfl rfl

theorem core_wakeReaders (v : Version) (s : Sys P) (f : WFrame) (p : P) :
    ((s.wakeReaders v f).ctl p).core = (s.ctl p).core := by
  unfold Sys.wakeReaders
  split
  · split
    · exact core_wakeup _ _ _
    · rfl
  · exact core_wakeup _ _ _

theorem core_wakeWriters (v : Version) (s : Sys P) (f : RFrame) (p : P) :
    ((s.wakeWriters v f).ctl p).core = (s.ctl p).core := by
  unfold Sys.wakeWriters
  split
  · split
    · exact core_wakeup _ _ _
    · rfl
  · exact core_wakeup _ _ _

theorem FifoInv.wakeReaders {v : Version} {s : Sys P} (h : FifoInv v s) (f : WFrame) :
    FifoInv v (s.wakeReaders v f) := by
  unfold Sys.wakeReaders
  split
  · split
    · exact h.wakeup _
    · exact h
  · exact h.wakeup _

theorem FifoInv.wakeWriters {v : Version} {s : Sys P} (h : FifoInv v s) (f : RFrame) :
    FifoInv v (s.wakeWriters v f) := by
  unfold Sys.wakeWriters
  split
  · split
    · exact h.wakeup _
    · exact h
  · exact h.wakeup _

end

/-! ## Entering -/

theorem FifoInv.enter {v : Version} {s : Sys P} (h : FifoInv v s) {p : P} (isWrite : Bool)
    (q : Req) (hb : BaseInv v (s.enter p isWrite q)) : FifoInv v (s.enter p isWrite q) := by
  have hnew : ∀ c, (Function.update s.ctl p (if isWrite then
      .w .enter ⟨q, s.ncall, 0, 0, false⟩ else .r .enter ⟨q, s.ncall, 0, false⟩) p).core = some c →
      c = ⟨isWrite, q, s.ncall, 0⟩ := by
    intro c hc
    rw [Function.update_self] at hc
    cases isWrite <;> exact (Option.some.inj hc).symm
  have hctl : ∀ {p' c}, p' ≠ p → ((s.enter p isWrite q).ctl p').core = some c →
      (s.ctl p').core = some c := by
    intro p' c hp hc
    rwa [show (s.enter p isWrite q).ctl p' = s.ctl p' from Function.update_of_ne hp _ _] at hc
  have hold : ∀ k, k < s.ncall → (s.enter p isWrite q).call k = s.call k := fun k hk =>
    Function.update_of_ne (by omega) _ _
  have hthis : (s.enter p isWrite q).call s.ncall = ⟨isWrite, q, s.umem p, 0, none⟩ :=
    Function.update_self _ _ _
  obtain ⟨hfw, hfd⟩ := h.fresh s.ncall (Nat.le_refl _)
  refine ⟨hb, h.stream, fun k hk => h.fresh k (Nat.le_of_succ_le hk), ?_, ?_, ?_⟩
  · intro k hk
    rcases Nat.lt_succ_iff_lt_or_eq.mp hk with hlt | rfl
    · obtain ⟨h1, h2, h3⟩ := h.calls k hlt
      exact ⟨by rw [hold k hlt]; exact h1, by rw [hold k hlt]; exact h2,
        by rw [hold k hlt]; exact h3⟩
    · refine ⟨?_, ?_, ?_⟩
      · rw [hthis]
        show ofCall _ s.written = _
        rw [hfw]
        simp
      · rw [hthis]
        show (ofCall _ s.delivered).length = _
        rw [hfd]
        simp
      · rw [hthis]
        intro r hr
        cases hr
  · intro p' c hc
    by_cases hp : p' = p
    · subst hp
      obtain rfl := hnew c hc
      refine ⟨Nat.lt_succ_self _, ?_, ?_, ?_, ?_, ?_, ?_⟩
      iterate 4 rw [hthis]
      · intro _
        rw [hthis]
        rfl
      · intro _
        exact hfd
    · obtain ⟨h1, h2, h3, h4, h5, h6, h7⟩ :=
        h.incall p' c (hctl hp hc)
      exact ⟨Nat.lt_succ_of_lt h1, by rw [hold _ h1]; exact h2, by rw [hold _ h1]; exact h3,
        by rw [hold _ h1]; exact h4, by rw [hold _ h1]; exact h5, by rw [hold _ h1]; exact h6, h7⟩
  · intro p₁ p₂ c₁ c₂ hc₁ hc₂ he
    -- the new call's number is not in use yet
    by_cases hp₁ : p₁ = p <;> by_cases hp₂ : p₂ = p
    · rw [hp₁, hp₂]
    · subst hp₁
      obtain rfl := hnew c₁ hc₁
      have := (h.incall p₂ c₂ (hctl hp₂ hc₂)).lt
      simp only at he
      omega
    · subst hp₂
      obtain rfl := hnew c₂ hc₂
      have := (h.incall p₁ c₁ (hctl hp₁ hc₁)).lt
      simp only at he
      omega
    · exact h.inj p₁ p₂ c₁ c₂ (hctl hp₁ hc₁)
        (hctl hp₂ hc₂) he

/-! ## One call moves on -/

omit [DecidableEq P] in
theorem CallOk.of_eq {s s' : Sys P} {k : Nat} (h : CallOk s k) (hcall : s'.call k = s.call k)
    (hw : ofCall k s'.written = ofCall k s.written)
    (hd : ofCall k s'.delivered = ofCall k s.delivered) : CallOk s' k :=
  ⟨by rw [hw, hcall]; exact h.written, by rw [hd, hcall]; exact h.delivered,
    by rw [hcall]; exact h.ret⟩

/-- A step of process `p` that touches the record and the bytes of its own call
only. -/
structure Moves (s s' : Sys P) (p : P) (k : Nat) : Prop where
  ncall : s'.ncall = s.ncall
  ctl : ∀ p', p' ≠ p → s'.ctl p' = s.ctl p'
  umem : ∀ p', p' ≠ p → s'.umem p' = s.umem p'
  call : ∀ k', k' ≠ k → s'.call k' = s.call k'
  written : ∀ k', k' ≠ k → ofCall k' s'.written = ofCall k' s.written
  delivered : ∀ k', k' ≠ k → ofCall k' s'.delivered = ofCall k' s.delivered

/-- **One call moves on**: what is left to show is the stream and what concerns
that call. -/
theorem FifoInv.move {v : Version} {s s' : Sys P} (h : FifoInv v s) {p : P} {c : Core}
    (hc : (s.ctl p).core = some c) (hm : Moves s s' p c.call) (hb : BaseInv v s')
    (hs : s'.delivered.map Prod.snd ++ s'.pi.bytes (pipeTotal v) = s'.written.map Prod.snd)
    (hk : CallOk s' c.call)
    (hin : ∀ c', (s'.ctl p).core = some c' → c'.call = c.call ∧ InCall s' p c') : FifoInv v s' := by
  have hlt := (h.incall p c hc).lt
  have hne : ∀ {p' c'}, p' ≠ p → (s'.ctl p').core = some c' →
      (s.ctl p').core = some c' ∧ c'.call ≠ c.call := by
    intro p' c' hp hc'
    rw [hm.ctl p' hp] at hc'
    exact ⟨hc', fun he => hp (h.inj p' p c' c hc' hc he)⟩
  refine ⟨hb, hs, ?_, ?_, ?_, ?_⟩
  · intro k hk'
    rw [hm.ncall] at hk'
    rw [hm.written k (by omega), hm.delivered k (by omega)]
    exact h.fresh k hk'
  · intro k hk'
    rw [hm.ncall] at hk'
    by_cases he : k = c.call
    · exact he ▸ hk
    · exact (h.calls k hk').of_eq (hm.call k he) (hm.written k he) (hm.delivered k he)
  · intro p' c' hc'
    by_cases hp : p' = p
    · subst hp
      exact (hin c' hc').2
    · obtain ⟨hc', hcall⟩ := hne hp hc'
      obtain ⟨h1, h2, h3, h4, h5, h6, h7⟩ := h.incall p' c' hc'
      refine ⟨by rw [hm.ncall]; exact h1, ?_, ?_, ?_, ?_, ?_, ?_⟩
      · rw [hm.call _ hcall]; exact h2
      · rw [hm.call _ hcall]; exact h3
      · rw [hm.call _ hcall]; exact h4
      · rw [hm.call _ hcall]; exact h5
      · rw [hm.call _ hcall, hm.umem p' hp]; exact h6
      · rw [hm.delivered _ hcall, hm.umem p' hp]; exact h7
  · intro p₁ p₂ c₁ c₂ hc₁ hc₂ he
    by_cases hp₁ : p₁ = p <;> by_cases hp₂ : p₂ = p
    · rw [hp₁, hp₂]
    · subst hp₁
      exact absurd ((hin c₁ hc₁).1 ▸ he).symm (hne hp₂ hc₂).2
    · subst hp₂
      exact absurd ((hin c₂ hc₂).1 ▸ he) (hne hp₁ hc₁).2
    · exact h.inj p₁ p₂ c₁ c₂ (hne hp₁ hc₁).1 (hne hp₂ hc₂).1 he

theorem FifoInv.ret {v : Version} {s : Sys P} (h : FifoInv v s) {p : P} {c : Core} {r : Int}
    (hc : (s.ctl p).core = some c) (hb : BaseInv v (s.ret p c.call r))
    (hr : r = c.i ∨ r = -1 ∧ (c.isWrite = true ∨ c.i ≤ 0)) : FifoInv v (s.ret p c.call r) := by
  have hin := h.incall p c hc
  have hthis : (s.ret p c.call r).call c.call = { s.call c.call with ret := some r } :=
    Function.update_self _ _ _
  refine h.move hc ⟨rfl, fun p' hp => Function.update_of_ne hp _ _, fun _ _ => rfl,
    fun k hk => Function.update_of_ne hk _ _, fun _ _ => rfl, fun _ _ => rfl⟩ hb h.stream ?_ ?_
  · obtain ⟨h1, h2, -⟩ := h.calls _ hin.lt
    refine ⟨by rw [hthis]; exact h1, by rw [hthis]; exact h2, ?_⟩
    rw [hthis]
    intro r' hr'
    obtain rfl := Option.some.inj hr'
    show r = (s.call c.call).i ∨ r = -1 ∧ ((s.call c.call).isWrite = true ∨ (s.call c.call).i ≤ 0)
    rw [hin.i, hin.isWrite]
    exact hr
  · intro c' hc'
    rw [show (s.ret p c.call r).ctl p = .user from Function.update_self _ _ _] at hc'
    cases hc'

theorem FifoInv.put {v : Version} {s : Sys P} (h : FifoInv v s) {p : P} {f : WFrame}
    (hl : s.lock = some p) (hc : s.ctl p = .w .body f) (hf : s.pi.full (pipeTotal v) = false)
    (r : Copy) : FifoInv v (s.put v p f r) := by
  have hb := put_base h.base hl hc hf r
  have hcore : (s.ctl p).core = some ⟨true, f.q, f.call, f.i⟩ := by rw [hc]; rfl
  have hin := h.incall p _ hcore
  obtain ⟨hi0, hi1, -⟩ := (hc ▸ h.base.ok p : (Ctl.w .body f).Ok)
  have hle := pipeTotal_le v
  rcases put_cases h.base hc hf r with ⟨len, hpos, hrem, hroom, hwrap, ho⟩ | ⟨data, hbytes, ho⟩
  · rw [ho] at hb ⊢
    refine h.move hcore ⟨rfl, fun p' hp => Function.update_of_ne hp _ _, fun _ _ => rfl,
      fun k hk => Function.update_of_ne hk _ _, fun k hk => ?_, fun _ _ => rfl⟩ hb ?_ ?_ ?_
    · rw [ofCall_append, ofCall_ne (Ne.symm hk), List.append_nil]
    · show s.delivered.map Prod.snd ++ (s.pi.pushed (pipeTotal v) _ len).bytes (pipeTotal v)
        = (s.written ++ _).map Prod.snd
      rw [bytes_pushed (pipeTotal_dvd v) (by omega) hroom hwrap, ← List.append_assoc, h.stream,
        List.map_append, List.map_map]
      simp
    · -- the call's bytes grow by the next `len` of its buffer
      obtain ⟨h1, h2, -⟩ := h.calls _ hin.lt
      have hw : (s.call f.call).isWrite = true := hin.isWrite
      have hbuf : (s.call f.call).buf = s.umem p := hin.buf rfl
      have hq : (s.call f.call).q = f.q := hin.q
      have hi : (s.call f.call).i = f.i := hin.i
      refine ⟨?_, ?_, ?_⟩
      · simp only [Function.update_self]
        rw [if_pos hw, ofCall_append, ofCall_self, h1, if_pos hw, hi, hbuf, hq]
        exact (userBytes_append (by omega) _ _ _).symm
      · simp only [Function.update_self]
        rw [if_pos hw, h2, if_pos hw]
      · simp only [Function.update_self]
        intro r' hr'
        rw [hin.ret] at hr'
        cases hr'
    · intro c' hc'
      simp only [Function.update_self] at hc'
      obtain rfl := Option.some.inj hc'
      refine ⟨rfl, hin.lt, ?_, ?_, ?_, ?_, fun hw => ?_, fun hw => nomatch hw⟩
      all_goals simp only [Function.update_self]
      · exact hin.isWrite
      · exact hin.q
      · exact hin.ret
      · exact hin.buf hw
  · -- a failed `copyin`: what it left is in free cells, and `i` stays
    rw [ho] at hb ⊢
    have hcall : Function.update s.call f.call { s.call f.call with i := f.i } = s.call := by
      rw [← show (s.call f.call).i = f.i from hin.i, Function.update_eq_self]
    rw [hcall] at hb ⊢
    exact h.of_core hb hbytes (core_update (by rw [hc]; rfl)) rfl rfl rfl rfl rfl

theorem FifoInv.get {v : Version} {s : Sys P} (h : FifoInv v s) {p : P} {f : RFrame}
    (hl : s.lock = some p) (hc : s.ctl p = .r .loop f) (hi : f.i < f.q.n)
    (he : s.pi.empty = false) {r : Copy} (hv : bulkCopy v = true ∨ r = .ok) :
    FifoInv v (s.get v p f r) := by
  have hb := get_base h.base hl hc hi he r
  have hcore : (s.ctl p).core = some ⟨false, f.q, f.call, f.i⟩ := by rw [hc]; rfl
  have hin := h.incall p _ hcore
  have hi0 : 0 ≤ f.i := by
    rcases (hc ▸ h.base.ok p : (Ctl.r .loop f).Ok).1 with h0 | ⟨_, hpc⟩
    · exact h0
    · exact absurd hpc (by decide)
  have hn := f.q.n_lt
  obtain ⟨h1, h2, -⟩ := h.calls _ hin.lt
  have hw : ¬(s.call f.call).isWrite = true := by
    rw [show (s.call f.call).isWrite = false from hin.isWrite]
    decide
  have hci : (s.call f.call).i = f.i := hin.i
  rcases get_cases h.base hc hi he r
    with ⟨len, hpos, hrem, hroom, hwrap, ho⟩ | ⟨len, hrem, ho⟩ | ⟨hv', hr', _⟩
  · -- a chunk is delivered
    rw [ho] at hb ⊢
    refine h.move hcore ⟨rfl, fun p' hp => Function.update_of_ne hp _ _,
      fun p' hp => Function.update_of_ne hp _ _, fun k hk => Function.update_of_ne hk _ _,
      fun _ _ => rfl, fun k hk => ?_⟩ hb ?_ ?_ ?_
    · rw [ofCall_append, ofCall_ne (Ne.symm hk), List.append_nil]
    · show (s.delivered ++ _).map Prod.snd ++ (s.pi.popped len).bytes (pipeTotal v)
        = s.written.map Prod.snd
      rw [← h.stream, bytes_popped (pipeTotal_dvd v) hroom, List.map_append, List.map_map,
        List.append_assoc]
      simp
    · refine ⟨?_, ?_, ?_⟩
      · simp only [Function.update_self]
        rw [if_neg hw, h1, if_neg hw]
      · simp only [Function.update_self]
        rw [if_neg hw, ofCall_append, ofCall_self, List.length_append, h2, if_neg hw, hci,
          Ring.length_contents]
        omega
      · simp only [Function.update_self]
        intro r' hr'
        rw [hin.ret] at hr'
        cases hr'
    · intro c' hc'
      simp only [Function.update_self] at hc'
      obtain rfl := Option.some.inj hc'
      refine ⟨rfl, hin.lt, ?_, ?_, ?_, ?_, (fun hw => nomatch hw), fun _ => ?_⟩
      all_goals simp only [Function.update_self]
      · exact hin.isWrite
      · exact hin.q
      · exact hin.ret
      · -- what was found before is still there, and the chunk follows it
        rw [ofCall_append, ofCall_self, hin.found rfl, userBytes_append hi0,
          userBytes_copyout hwrap (by omega), userBytes_copyout_before hi0 hn hrem]
  · -- a failed `copyout`: the ring keeps the chunk, and `-1` counts no byte
    rw [ho] at hb ⊢
    have hnone : (if f.i = 0 then -1 else f.i).toNat = f.i.toNat := by
      split <;> omega
    refine h.move hcore ⟨rfl, fun p' hp => Function.update_of_ne hp _ _,
      fun p' hp => Function.update_of_ne hp _ _, fun k hk => Function.update_of_ne hk _ _,
      fun _ _ => rfl, fun _ _ => rfl⟩ hb h.stream ?_ ?_
    · refine ⟨?_, ?_, ?_⟩
      · simp only [Function.update_self]
        rw [if_neg hw, h1, if_neg hw]
      · simp only [Function.update_self]
        rw [if_neg hw, hnone, h2, if_neg hw, hci]
      · simp only [Function.update_self]
        intro r' hr'
        rw [hin.ret] at hr'
        cases hr'
    · intro c' hc'
      simp only [Function.update_self] at hc'
      obtain rfl := Option.some.inj hc'
      refine ⟨rfl, hin.lt, ?_, ?_, ?_, ?_, (fun hw => nomatch hw), fun _ => ?_⟩
      all_goals simp only [Function.update_self]
      · exact hin.isWrite
      · exact hin.q
      · exact hin.ret
      · rw [hnone, hin.found rfl, userBytes_copyout_before hi0 hn hrem]
  · rcases hv with hv | hv
    · rw [hv] at hv'
      cases hv'
    · exact absurd hv hr'

/-! ## Every step -/

/-- The step is no failed copy of a v1 reader, which would drop a byte. -/
def NoDrop (v : Version) (s : Sys P) (a : Act P) : Prop :=
  bulkCopy v = true ∨ ∀ p r f, a = .run p r → s.ctl p = .r .loop f → f.i < f.q.n →
    s.pi.empty = false → r = .ok

theorem fifo_step {v : Version} {s s' : Sys P} {a : Act P} (hv : NoDrop v s a)
    (h : FifoInv v s) (hs : step v s a = some s') : FifoInv v s' := by
  have hb := base_step h.base hs
  cases step_cases hs with
  | @user p mem hc =>
    have hne : ∀ p' c, (s.ctl p').core = some c → p' ≠ p := by
      intro p' c hc' hp
      rw [hp, hc] at hc'
      cases hc'
    refine ⟨hb, h.stream, h.fresh, fun k hk => (h.calls k hk).of_eq rfl rfl rfl, ?_, h.inj⟩
    intro p' c hc'
    obtain ⟨h1, h2, h3, h4, h5, h6, h7⟩ := h.incall p' c hc'
    have humem : Function.update s.umem p mem p' = s.umem p' :=
      Function.update_of_ne (hne p' c hc') _ _
    exact ⟨h1, h2, h3, h4, h5, fun hw => (h6 hw).trans humem.symm, fun hw => by
      rw [h7 hw]; simp only [humem]⟩
  | write hc => exact h.enter true _ hb
  | read hc => exact h.enter false _ hb
  | kill => exact h.of_core hb rfl (core_update (core_wake _)) rfl rfl rfl rfl rfl
  | @close writable hl =>
    cases writable with
    | true => exact h.of_core hb rfl (core_wakeup _ _) rfl rfl rfl rfl rfl
    | false => exact h.of_core hb rfl (core_wakeup _ _) rfl rfl rfl rfl rfl
  | wEnter hl hc | wResume hl hc | rEnter hl hc hpc | wSleep hl hc | rSleep hl hc =>
    exact h.of_core hb rfl (core_update (by rw [hc]; rfl)) rfl rfl rfl rfl rfl
  | wTest hl hc hi ho hk | wEnd hl hc hi | rWait hl hc he ho | rStart hl hc hw | rTest hl hc hk
    | rEnd hl hc hi =>
    exact h.goto hb (by rw [hc]; rfl)
  | wFull hl hc hf => exact (h.wakeup .nread).goto hb (by rw [core_wakeup, hc]; rfl)
  | @wFail p r f hl hc hi hstop =>
    have hcore : (s.ctl p).core = some ⟨true, f.q, f.call, f.i⟩ := by rw [hc]; rfl
    exact h.ret hcore hb (.inr ⟨rfl, .inl rfl⟩)
  | @rFail p r f hl hc hk =>
    have hcore : (s.ctl p).core = some ⟨false, f.q, f.call, f.i⟩ := by rw [hc]; rfl
    have h0 : f.i = 0 := (hc ▸ h.base.ok p : (Ctl.r .killed f).Ok).2 (by decide) (by decide)
    exact h.ret hcore hb (.inr ⟨rfl, .inr (by show f.i ≤ 0; omega)⟩)
  | wPut hl hc hf => exact h.put hl hc hf _
  | rGet hl hc hi he => exact h.get hl hc hi he (hv.imp_right fun hd => hd _ _ _ rfl hc hi he)
  | @wLeave p r f hl hc =>
    have hw := h.wakeReaders f
    have hcore : ((s.wakeReaders v f).ctl p).core = some ⟨true, f.q, f.call, f.i⟩ := by
      rw [core_wakeReaders, hc]
      rfl
    exact hw.ret hcore hb (.inl rfl)
  | @rLeave p r f hl hc =>
    have hw := h.wakeWriters f
    have hcore : ((s.wakeWriters v f).ctl p).core = some ⟨false, f.q, f.call, f.i⟩ := by
      rw [core_wakeWriters, hc]
      rfl
    exact hw.ret hcore hb (.inl rfl)

theorem reach_fifo {v : Version} (hv : bulkCopy v = true) {s : Sys P}
    (h : Reach (step v) Any Init s) : FifoInv v s :=
  h.inv (fun _ => init_fifo) fun hi _ hs => fifo_step (.inl hv) hi hs

/-- **The pipe is a FIFO stream, exactly once.** In every reachable state of a
bulk version the ring holds at most `PIPE_TOTAL` bytes; what readers were given,
followed by what the ring holds, is what writers put in; a write has put in the
first `i` bytes of its buffer, and a read that returned `r` was given `r` bytes.
While a call is going on, its record is its `i` and its caller's buffer: the
bytes given to a reader are the ones it finds there. -/
theorem pipe_fifo {v : Version} (hv : bulkCopy v = true) {s : Sys P}
    (h : Reach (step v) Any Init s) :
    s.pi.used ≤ pipeTotal v ∧
    s.delivered.map Prod.snd ++ (List.range s.pi.used).map
        (fun k => s.pi.data ((s.pi.nread.toNat + k) % pipeTotal v)) = s.written.map Prod.snd ∧
    (∀ k, s.ncall ≤ k → ofCall k s.written = [] ∧ ofCall k s.delivered = []) ∧
    (∀ k, k < s.ncall → ofCall k s.written = if (s.call k).isWrite = true then
      (List.range (s.call k).i.toNat).map (userBytes (s.call k).buf (s.call k).q.addr 0) else []) ∧
    (∀ k r, k < s.ncall → (s.call k).ret = some r →
      (ofCall k s.delivered).length = if (s.call k).isWrite = true then 0 else r.toNat) ∧
    (∀ p pc f, s.ctl p = .w pc f → f.call < s.ncall ∧ (s.call f.call).isWrite = true ∧
      (s.call f.call).q = f.q ∧ (s.call f.call).i = f.i ∧ (s.call f.call).buf = s.umem p) ∧
    (∀ p pc f, s.ctl p = .r pc f → f.call < s.ncall ∧ (s.call f.call).isWrite = false ∧
      (s.call f.call).q = f.q ∧ (s.call f.call).i = f.i ∧
      ofCall f.call s.delivered
        = (List.range f.i.toNat).map (userBytes (s.umem p) f.q.addr 0)) := by
  have hi := reach_fifo hv h
  refine ⟨hi.base.used_le, hi.stream, hi.fresh, fun k hk => (hi.calls k hk).written, ?_, ?_, ?_⟩
  · intro k r hk hr
    obtain ⟨-, hd, hret⟩ := hi.calls k hk
    rw [hd]
    rcases hret r hr with rfl | ⟨rfl, hw | h0⟩
    · rfl
    · rw [if_pos hw, if_pos hw]
    · split
      · rfl
      · omega
  · intro p pc f hc
    have hin := hi.incall p ⟨true, f.q, f.call, f.i⟩ (by rw [hc]; rfl)
    exact ⟨hin.lt, hin.isWrite, hin.q, hin.i, hin.buf rfl⟩
  · intro p pc f hc
    have hin := hi.incall p ⟨false, f.q, f.call, f.i⟩ (by rw [hc]; rfl)
    exact ⟨hin.lt, hin.isWrite, hin.q, hin.i, hin.found rfl⟩

/-- `false` writes five bytes, `true` reads three of them. -/
def fiveThenThree : List (Act Bool) :=
  [.write false (.of 0 5), .acquire false, .run false .ok, .run false .ok,
    .run false .ok, .run false .ok,
    .read true (.of 100 3), .acquire true, .run true .ok, .run true .ok,
    .run true .ok, .run true .ok]

theorem pipe_fifo_five_then_three :
    ∃ s : Sys Bool, runFrom (step .v3) (Sys.fresh fun _ a => UInt8.ofNat a.toNat) fiveThenThree
        = some s ∧ s.delivered.map Prod.snd = [0, 1, 2] ∧ s.pi.used ≤ 2048 ∧
      s.delivered.map Prod.snd ++ (List.range s.pi.used).map
        (fun k => s.pi.data ((s.pi.nread.toNat + k) % 2048)) = s.written.map Prod.snd := by
  have hrun : (runFrom (step .v3) (Sys.fresh fun _ a => UInt8.ofNat a.toNat)
      fiveThenThree).map (fun s => s.delivered.map Prod.snd) = some [0, 1, 2] := by decide
  obtain ⟨s, hs, hd⟩ := Option.map_eq_some_iff.mp hrun
  have hreach : Reach (step .v3) Any Init s :=
    .of_run _ (.start (fresh_init _)) (RunOk.any _ _ _) hs
  obtain ⟨hused, hstream, -⟩ := pipe_fifo (v := .v3) rfl hreach
  exact ⟨s, hs, hd, hused, hstream⟩

end Xv6.Pipe
