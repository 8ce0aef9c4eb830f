import Xv6.Virtio.Step

/-!
# Disk requests and completions match

> Nothing in the two rings is overwritten before the other side has read it, and a
> completion clears the buffer of the request that was completed, whatever the order
> of the completions and however often the indices wrap.
-/

namespace Xv6.Virtio

open Lib

variable {P B : Type} [DecidableEq P] [DecidableEq B]

/-- The descriptors a process has. -/
def Pc.chain : Pc B → Option Chain
  | .late _ _ x => some x
  | _ => none

omit [DecidableEq B] in
theorem chain_of_key {pc : Pc B} {φ : Phase} {c : Call B} {x : Chain}
    (h : pc.key = some (φ, c, x)) : pc.chain = some x := by
  unfold Pc.key at h
  split at h <;> cases h <;> rfl

omit [DecidableEq B] in
theorem key_of_chain {pc : Pc B} {x : Chain} (h : pc.chain = some x) :
    ∃ φ c, pc.key = some (φ, c, x) := by
  unfold Pc.chain at h
  split at h
  next st c y =>
    cases h
    cases st <;> exact ⟨_, _, rfl⟩
  next => cases h

theorem Move.inv {s s' : Sys P B} {a : Act P B} (h : DiskInv s) (hd : Distinct s a)
    (hm : Move s a s') : DiskInv s' := by
  cases hm with
  | rw hp => exact inv_enter h hp hd
  | kill => exact inv_same h (wake_same s _)
  | acquire hl hp hk hb hc => exact inv_acquire h hl hp hk hb hc
  | alloc hp hnd hx => exact inv_alloc h hp hnd hx
  | full hp hr => exact inv_full h hp hr
  | format hp => exact inv_format h hp
  | put hp => exact inv_put h hp
  | publish hp => exact inv_publish h hp
  | sleep hp => exact inv_sleep h hp
  | leave hp hb => exact inv_leave h hp hb
  | finish hp hpc => exact inv_finish h hp hpc
  | intr hl =>
    refine ⟨fun q => ?_, h.bufs, h.owns, h.flow, h.panicked⟩
    rw [h.lock q, hl]
    constructor
    · intro he
      cases he
    · intro he
      cases he
  | done hl =>
    refine ⟨fun q => ?_, h.bufs, h.owns, h.flow, h.panicked⟩
    rw [h.lock q, hl]
    constructor
    · intro he
      cases he
    · intro he
      cases he
  | @turn b pc hl hne hb hpc =>
    obtain ⟨p, c, x, -, hx, -, -, -, hb', hflow⟩ :=
      h.flow.turn h.owns (fun _ _ _ _ _ _ _ _ hp hq he => h.bufKey hp hq he) hne
    rw [hx, hb, Option.some.injEq] at hb'
    subst hb'
    have hi : DiskInv { s with
        busy := Function.update s.busy c.b false
        disk := { s.disk with seen := s.disk.seen + 1 } } :=
      ⟨h.lock, h.bufs, h.owns, hflow, h.panicked⟩
    exact inv_same hi hpc
  | take hne hp hx =>
    exact ⟨h.lock, h.bufs, h.owns, (h.flow.take hne (r := reqOf _ _) hx ⟨_, _, _, hp, rfl⟩).2,
      h.panicked⟩
  | status hr => exact ⟨h.lock, h.bufs, h.owns, h.flow.writeStatus hr, h.panicked⟩
  | store hn hr => exact ⟨h.lock, h.bufs, h.owns, h.flow.store h.owns hn hr, h.panicked⟩
  | idx hi => exact ⟨h.lock, h.bufs, h.owns, h.flow.moveIdx h.owns hi, h.panicked⟩

omit [DecidableEq P] [DecidableEq B] in
theorem init_inv {s : Sys P B} (h : Init s) : DiskInv s := by
  have hk : ∀ p, (s.pc p).key = none := fun p => by rw [h.pc p]; rfl
  have hno : ∀ {p : P} {y}, (s.pc p).key ≠ some y := fun {p y} he => by
    rw [hk p] at he
    cases he
  have hav : heads s.disk s.dev = [] := by
    unfold heads avail late used
    rw [h.availIdx, h.last, h.taken, h.done, h.stored, h.usedIdx, h.seen]
    rfl
  have hempty : ∀ i, i ∉ heads s.disk s.dev := fun i => by
    rw [hav]
    exact List.not_mem_nil
  refine ⟨fun p => ?_, fun p q b hp => ?_, ⟨?_, ?_, ?_⟩,
    ⟨?_, ?_, ?_, ?_, ?_, ?_, ?_, ?_, ?_, ?_, ?_⟩,
    h.panicked⟩
  · rw [h.pc p, h.lock]
    exact ⟨fun he => (Bool.false_ne_true he).elim, fun he => absurd he.symm (Option.some_ne_none _)⟩
  · rw [h.pc p] at hp
    cases hp
  · exact fun p φ c x hp => absurd hp hno
  · exact fun p q φ c x φ' c' x' i hp => absurd hp hno
  · intro i _ hf
    rw [h.free i] at hf
    cases hf
  · exact fun p φ c x hp => absurd hp hno
  · rw [hav]
    exact List.nodup_nil
  · exact fun i => ⟨fun hi => absurd hi (hempty i), fun ⟨_, _, _, hp, _⟩ => absurd hp hno⟩
  · exact fun p c x hp => absurd hp hno
  · exact fun p φ c x hp => absurd hp hno
  · exact fun p c x hp => absurd hp hno
  · intro r hr
    rw [h.taken, h.done] at hr
    rcases hr with hr | hr
    · cases hr
    · cases hr
  · exact fun i hi => absurd (late_heads hi) (hempty i)
  · intro i hi
    rw [h.stored] at hi
    cases hi
  · exact fun i hi => absurd (late_heads (used_late s.dev hi)) (hempty i)
  · exact fun p φ c x hp => absurd hp hno

theorem reach_inv {s : Sys P B} (h : Reach step Distinct Init s) : DiskInv s :=
  h.inv (fun _ => init_inv) fun hi hd hs => (step_move hi hs).inv hi hd

/-! ## Single steps -/

omit [DecidableEq P] [DecidableEq B] in
/-- A failed `alloc3_desc` leaves the rings alone. -/
theorem Rolled.rings {s s' : Sys P B} (h : Rolled s s') :
    s'.disk.avail = s.disk.avail ∧ used s'.disk = used s.disk := by
  obtain ⟨desc, hd, -⟩ := h.disk
  rw [hd]
  exact ⟨rfl, rfl⟩

/-- No entry of the avail ring is overwritten before the device has taken it. -/
theorem avail_kept {s s' : Sys P B} {a : Act P B} (h : DiskInv s) (hm : Move s a s') (n : Nat)
    (hn : n < (s.disk.availIdx - s.dev.last).toNat) :
    s'.disk.avail ((s.dev.last.toNat + n) % NUM) = s.disk.avail ((s.dev.last.toNat + n) % NUM) := by
  cases hm with
  | @put p c x hp =>
    have hk : (s.pc p).key = some (.put, c, x) := by rw [hp]; rfl
    have he := (h.flow.put h.owns hk (h.only (h.held hp rfl))).1
    exact List.map_inj_left.mp he n (List.mem_range.mpr hn)
  | full hp hr => exact congrFun hr.rings.1 _
  | _ => rfl

/-- Entries go into the used ring when the device moves its index, and come out when the
handler takes a turn. -/
theorem used_moves {s s' : Sys P B} {a : Act P B} (h : DiskInv s) (hm : Move s a s') :
    (a = .devIdx ∧ ∃ i, s.dev.stored = some i ∧ used s'.disk = used s.disk ++ [i]) ∨
    (a = .intrRun ∧ s.disk.seen ≠ s.disk.usedIdx ∧ ∃ i, used s.disk = i :: used s'.disk) ∨
    used s'.disk = used s.disk := by
  cases hm with
  | full hp hr => exact .inr (.inr hr.rings.2)
  | turn hl hne => exact .inr (.inl ⟨rfl, hne, _, view_pop hne⟩)
  | store hn hr =>
    exact .inr (.inr (view_store _ (h.flow.used_room h.owns (.inl (List.ne_nil_of_mem hr)))))
  | @idx i hi =>
    refine .inl ⟨rfl, i, hi, ?_⟩
    rw [← h.flow.stored i hi]
    refine view_push (h.flow.used_room h.owns (.inr ?_))
    rw [hi]
    exact Option.some_ne_none i
  | _ => exact .inr (.inr rfl)

/-- A turn of the handler clears the buffer of the request it takes out. -/
theorem turn_clears {s s' : Sys P B} (h : DiskInv s) (hne : s.disk.seen ≠ s.disk.usedIdx)
    (hm : Move s .intrRun s') :
    ∃ p c x, (s.pc p).key = some (.out, c, x) ∧ used s.disk = x.i0 :: used s'.disk ∧
      s.completed x.i0 = true ∧ s.busy c.b = true ∧
      s'.busy = Function.update s.busy c.b false := by
  cases hm with
  | done hl he => exact absurd he hne
  | @turn b pc hl _ hb hpc =>
    obtain ⟨p, c, x, hp, hx, hbusy, hcomp, -, hb', -⟩ :=
      h.flow.turn h.owns (fun _ _ _ _ _ _ _ _ hp hq he => h.bufKey hp hq he) hne
    rw [hx, hb, Option.some.injEq] at hb'
    subst hb'
    refine ⟨p, c, x, hp, ?_, hcomp, hbusy, rfl⟩
    rw [hx]
    exact view_pop hne

/-- Nothing else makes a buffer idle. -/
theorem only_turn_clears {s s' : Sys P B} {a : Act P B} (hm : Move s a s') {b : B}
    (hb : s.busy b = true) (hb' : s'.busy b = false) :
    a = .intrRun ∧ s.disk.seen ≠ s.disk.usedIdx := by
  have hsame : ∀ {busy : B → Bool}, busy = s.busy → busy b = false → False := by
    rintro busy rfl hf
    rw [hb] at hf
    cases hf
  cases hm with
  | full hp hr => exact (hsame hr.busy hb').elim
  | @format p c x hp =>
    change Function.update s.busy c.b true b = false at hb'
    by_cases hbc : b = c.b
    · rw [hbc, Function.update_self] at hb'
      cases hb'
    · rw [Function.update_of_ne hbc] at hb'
      exact (hsame rfl hb').elim
  | turn hl hne => exact ⟨rfl, hne⟩
  | _ => exact (hsame rfl hb').elim

/-- **Requests and completions match**, in every reached state. Nothing panics; a
descriptor is free or in the chain of one unfinished request; what the device has
taken is what a waiting process asked for; a process past its loop, or with an idle
buffer, had its request completed. In every step, the entries of the avail ring that
the device has not taken stay; what goes through the used ring comes out in the same
order; a buffer becomes idle only in a turn of the handler, and each such turn makes
exactly the buffer idle whose completed request it takes out of the used ring. -/
theorem requests_match {s : Sys P B} (h : Reach step Distinct Init s) :
    s.panicked = none ∧
    (∀ p x, (s.pc p).chain = some x → x.list.Nodup ∧ ∀ i, i ∈ x.list → i < NUM) ∧
    (∀ i, i < NUM → (s.disk.free i = false ↔ ∃ p x, (s.pc p).chain = some x ∧ i ∈ x.list)) ∧
    (∀ p q x y i, (s.pc p).chain = some x → (s.pc q).chain = some y → i ∈ x.list → i ∈ y.list →
      p = q) ∧
    (∀ r, r ∈ s.dev.taken ∨ r ∈ s.dev.done → ∃ p c x, (s.pc p).key = some (.out, c, x) ∧
      r = reqOf c x ∧ s.busy c.b = true) ∧
    (∀ p φ c x, (s.pc p).key = some (φ, c, x) →
      (φ = .finish → s.busy c.b = false) ∧
      (φ = .out ∨ φ = .finish → s.busy c.b = false → s.completed x.i0 = true)) ∧
    ∀ a s', step s a = some s' →
      (∀ n, n < (s.disk.availIdx - s.dev.last).toNat →
        s'.disk.avail ((s.dev.last.toNat + n) % NUM)
          = s.disk.avail ((s.dev.last.toNat + n) % NUM)) ∧
      ((a = .devIdx ∧ ∃ i, s.dev.stored = some i ∧ used s'.disk = used s.disk ++ [i]) ∨
        (a = .intrRun ∧ s.disk.seen ≠ s.disk.usedIdx ∧ ∃ i, used s.disk = i :: used s'.disk) ∨
        used s'.disk = used s.disk) ∧
      (∀ b, s.busy b = true → s'.busy b = false → a = .intrRun ∧ s.disk.seen ≠ s.disk.usedIdx) ∧
      (a = .intrRun → s.disk.seen ≠ s.disk.usedIdx →
        ∃ p c x, (s.pc p).key = some (.out, c, x) ∧ used s.disk = x.i0 :: used s'.disk ∧
          s.completed x.i0 = true ∧ s.busy c.b = true ∧
          s'.busy = Function.update s.busy c.b false) := by
  have hi := reach_inv h
  refine ⟨hi.panicked, ?_, ?_, ?_, ?_, ?_, ?_⟩
  · intro p x hx
    obtain ⟨φ, c, hk⟩ := key_of_chain hx
    obtain ⟨hnd, hlt⟩ := hi.owns.chain p φ c x hk
    exact ⟨hnd, fun i hix => (hlt i hix).1⟩
  · intro i hlt
    constructor
    · intro hf
      obtain ⟨p, φ, c, x, hk, hix⟩ := hi.owns.cover i hlt hf
      exact ⟨p, x, chain_of_key hk, hix⟩
    · rintro ⟨p, x, hx, hix⟩
      obtain ⟨φ, c, hk⟩ := key_of_chain hx
      exact ((hi.owns.chain p φ c x hk).2 i hix).2
  · intro p q x y i hx hy hix hiy
    obtain ⟨φ, c, hk⟩ := key_of_chain hx
    obtain ⟨φ', c', hk'⟩ := key_of_chain hy
    exact hi.owns.disjoint p q φ c x φ' c' y i hk hk' hix hiy
  · intro r hr
    obtain ⟨p, c, x, hk, rfl⟩ := hi.flow.reqs r hr
    have hhead : x.i0 ∈ heads s.disk s.dev := by
      rcases hr with hr | hr
      · exact List.mem_append.mpr (.inr (List.mem_append.mpr (.inl
          (List.mem_map_of_mem (f := DevReq.head) hr))))
      · exact late_heads (List.mem_append.mpr (.inl (List.mem_map_of_mem (f := DevReq.head) hr)))
    obtain ⟨q, c', x', hk', he, hb⟩ := (hi.flow.mem _).mp hhead
    obtain ⟨rfl, -, rfl, rfl⟩ := hi.owns.same hk hk' he.symm
    exact ⟨p, c, x, hk, rfl, hb⟩
  · intro p φ c x hk
    refine ⟨?_, hi.flow.cleared p φ c x hk⟩
    rintro rfl
    exact hi.flow.finish p c x hk
  · intro a s' hs
    have hm := step_move hi hs
    refine ⟨avail_kept hi hm, used_moves hi hm, fun b => only_turn_clears hm, ?_⟩
    rintro rfl hne
    exact turn_clears hi hne hm

/-- The disk after `virtio_disk_init`, with nothing yet called. -/
def Sys.fresh : Sys P B where
  disk := ⟨fun _ => .zero, 0, fun _ => 0, 0, fun _ => 0, fun _ => true, 0, fun _ => ⟨none, 0⟩,
    fun _ => ⟨false, 0⟩⟩
  dev := ⟨0, [], [], none⟩
  busy := fun _ => false
  lock := none
  pc := fun _ => .user
  panicked := none
  completed := fun _ => false

instance (s : Sys Bool Bool) : ∀ a, Decidable (Distinct s a)
  | .rw _ c => inferInstanceAs (Decidable (∀ q, (s.pc q).buf ≠ some c.b))
  | .kill _ | .acquire _ | .run _ | .intr | .intrRun | .devTake | .devStatus _ | .devStore _
  | .devIdx => isTrue trivial

/-- From `acquire` to `sleep(b, &disk.vdisk_lock)`. -/
def submit (p : Bool) (sector : Nat) : List (Act Bool Bool) :=
  [.rw p ⟨p, false, sector⟩, .acquire p, .run p, .run p, .run p, .run p, .run p]

/-- Two requests, the second completed first. -/
def outOfOrder : List (Act Bool Bool) :=
  submit false 4 ++ submit true 6 ++
    [.devTake, .devTake, .devStatus 3, .devStore 3, .devIdx, .devStatus 0, .intr]

theorem requests_match_out_of_order :
    ∃ s s' : Sys Bool Bool, runFrom step Sys.fresh outOfOrder = some s ∧
      step s .intrRun = some s' ∧ ∃ p c x, (s.pc p).key = some (.out, c, x) ∧
        used s.disk = x.i0 :: used s'.disk ∧ s.completed x.i0 = true ∧
        s'.busy = Function.update s.busy c.b false := by
  have hrun : (runFrom (guarded step Distinct) Sys.fresh outOfOrder).bind (fun s =>
      (step s .intrRun).map fun s' => (decide (s.disk.seen = s.disk.usedIdx), s.busy false,
        s.busy true, s'.busy false, s'.busy true))
      = some (false, true, true, true, false) := by decide +kernel
  obtain ⟨s, hs, hrun⟩ := Option.bind_eq_some_iff.mp hrun
  obtain ⟨s', hs', hb⟩ := Option.map_eq_some_iff.mp hrun
  have hne : s.disk.seen ≠ s.disk.usedIdx := of_decide_eq_false (Prod.mk.inj hb).1
  obtain ⟨hok, hs⟩ := runFrom_guarded _ hs
  have hreach : Reach step Distinct Init s :=
    .of_run _ (.start ⟨fun _ => rfl, rfl, rfl, rfl, rfl, rfl, rfl, rfl, rfl, fun _ => rfl, rfl⟩)
      hok hs
  obtain ⟨p, c, x, hk, hu, hc, -, hb'⟩ :=
    ((requests_match hreach).2.2.2.2.2.2 _ s' hs').2.2.2 rfl hne
  exact ⟨s, s', hs, hs', p, c, x, hk, hu, hc, hb'⟩

end Xv6.Virtio
