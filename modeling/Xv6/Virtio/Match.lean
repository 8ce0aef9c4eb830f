import Xv6.Virtio.Desc
import Mathlib.Data.Finset.Card

/-!
# Requests and completions

The way of a request through the driver and the device, as one list of heads:

> `heads`: the entries of the avail ring the device has not taken, the requests it
> has taken, those whose status it has written, the one whose entry it has stored,
> and the entries of the used ring the handler has not seen.

`Flow` says that this list has no repetitions and holds exactly the heads of the
requests whose buffer is still busy. Every step of the device moves one head along
the list, which changes nothing (`Flow.device`); publishing puts one in, and the
handler takes one out. A list without repetitions of descriptor numbers is no
longer than `NUM`, so neither ring can run over, whatever the two `uint16` indices
are; and a head leads to one request only, so what the handler clears is what was
asked for.

`Owns` is the other half: a descriptor is free or in the chain of one request.
-/

namespace Xv6.Virtio

open Lib

variable {P B : Type} [DecidableEq P] [DecidableEq B]

/-- The requests in progress. -/
abbrev Reqs (P B : Type) := P → Option (Phase × Call B × Chain)

/-- The entries of the avail ring the device has not taken. -/
def avail (d : Disk B) (v : Dev B) : List Nat :=
  Ring.contents NUM d.avail v.last.toNat (d.availIdx - v.last).toNat

/-- The entries of the used ring the handler has not seen. -/
def used (d : Disk B) : List Nat :=
  Ring.contents NUM d.used d.seen.toNat (d.usedIdx - d.seen).toNat

/-- What the device has completed, all but its index moved over it. -/
def late (d : Disk B) (v : Dev B) : List Nat :=
  v.done.map DevReq.head ++ (v.stored.toList ++ used d)

def heads (d : Disk B) (v : Dev B) : List Nat :=
  avail d v ++ (v.taken.map DevReq.head ++ late d v)

/-- The request of a call, as the device should read it. -/
def reqOf (c : Call B) (x : Chain) : DevReq B :=
  ⟨x.i0, ⟨c.write, c.sector⟩, .data c.b, .status x.i0⟩

structure Owns (free : Nat → Bool) (k : Reqs P B) : Prop where
  chain : ∀ p φ c x, k p = some (φ, c, x) →
    x.list.Nodup ∧ ∀ i, i ∈ x.list → i < NUM ∧ free i = false
  disjoint : ∀ p q φ c x φ' c' x' i, k p = some (φ, c, x) → k q = some (φ', c', x') →
    i ∈ x.list → i ∈ x'.list → p = q
  cover : ∀ i, i < NUM → free i = false → ∃ p φ c x, k p = some (φ, c, x) ∧ i ∈ x.list

structure Flow (d : Disk B) (v : Dev B) (busy : B → Bool) (completed : Nat → Bool)
    (k : Reqs P B) : Prop where
  filled : ∀ p φ c x, k p = some (φ, c, x) → φ ≠ .format → Filled d c x
  nodup : (heads d v).Nodup
  mem : ∀ h, h ∈ heads d v ↔
    ∃ p c x, k p = some (.out, c, x) ∧ x.i0 = h ∧ busy c.b = true
  entry : ∀ p c x, k p = some (.publish, c, x) → d.avail (slot d.availIdx) = x.i0
  early : ∀ p φ c x, k p = some (φ, c, x) → φ = .put ∨ φ = .publish → busy c.b = true
  finish : ∀ p c x, k p = some (.finish, c, x) → busy c.b = false
  reqs : ∀ r, r ∈ v.taken ∨ r ∈ v.done → ∃ p c x, k p = some (.out, c, x) ∧ r = reqOf c x
  status : ∀ h, h ∈ late d v → (d.info h).status = 0
  stored : ∀ h, v.stored = some h → d.used (slot d.usedIdx) = h
  seen : ∀ h, h ∈ used d → completed h = true
  cleared : ∀ p φ c x, k p = some (φ, c, x) → φ = .out ∨ φ = .finish → busy c.b = false →
    completed x.i0 = true

structure DiskInv (s : Sys P B) : Prop where
  lock : ∀ p, (s.pc p).holds = true ↔ s.lock = some (.proc p)
  bufs : ∀ p q b, (s.pc p).buf = some b → (s.pc q).buf = some b → p = q
  owns : Owns s.disk.free fun p => (s.pc p).key
  flow : Flow s.disk s.dev s.busy s.completed fun p => (s.pc p).key
  panicked : s.panicked = none

theorem i0_mem (x : Chain) : x.i0 ∈ x.list := List.mem_cons_self

theorem i1_mem (x : Chain) : x.i1 ∈ x.list := List.mem_cons_of_mem _ List.mem_cons_self

theorem i2_mem (x : Chain) : x.i2 ∈ x.list :=
  List.mem_cons_of_mem _ (List.mem_cons_of_mem _ List.mem_cons_self)

theorem slot_toNat (idx : BitVec 16) : slot idx = idx.toNat % NUM := by
  unfold slot
  rw [BitVec.toNat_umod]
  rfl

/-! ## Descriptors -/

omit [DecidableEq P] [DecidableEq B] in
/-- The request at a head. -/
theorem Owns.inj {free : Nat → Bool} {k : Reqs P B} (h : Owns free k) {p q : P} {φ φ' : Phase}
    {c c' : Call B} {x x' : Chain} (hp : k p = some (φ, c, x)) (hq : k q = some (φ', c', x'))
    (he : x.i0 = x'.i0) : p = q :=
  h.disjoint p q φ c x φ' c' x' x.i0 hp hq (i0_mem x) (he ▸ i0_mem x')

omit [DecidableEq P] [DecidableEq B] in
/-- A request moves on. -/
theorem Owns.move {free : Nat → Bool} {k k' : Reqs P B} (h : Owns free k)
    (hk : ∀ q, (k' q).map Prod.snd = (k q).map Prod.snd) : Owns free k' := by
  have hfwd : ∀ {q φ c x}, k' q = some (φ, c, x) → ∃ φ', k q = some (φ', c, x) := by
    intro q φ c x hq
    have he := hk q
    rw [hq, Option.map_some] at he
    obtain ⟨⟨φ', y⟩, hy, rfl⟩ := Option.map_eq_some_iff.mp he.symm
    exact ⟨φ', hy⟩
  have hbwd : ∀ {q φ c x}, k q = some (φ, c, x) → ∃ φ', k' q = some (φ', c, x) := by
    intro q φ c x hq
    have he := hk q
    rw [hq, Option.map_some] at he
    obtain ⟨⟨φ', y⟩, hy, rfl⟩ := Option.map_eq_some_iff.mp he
    exact ⟨φ', hy⟩
  refine ⟨?_, ?_, ?_⟩
  · intro p φ c x hp
    obtain ⟨φ', hp⟩ := hfwd hp
    exact h.chain p φ' c x hp
  · intro p q φ c x φ' c' x' i hp hq
    obtain ⟨φ₁, hp⟩ := hfwd hp
    obtain ⟨φ₂, hq⟩ := hfwd hq
    exact h.disjoint p q φ₁ c x φ₂ c' x' i hp hq
  · intro i hi hf
    obtain ⟨p, φ, c, x, hp, hx⟩ := h.cover i hi hf
    obtain ⟨φ', hp⟩ := hbwd hp
    exact ⟨p, φ', c, x, hp, hx⟩

section

omit [DecidableEq B]

/-- `alloc3_desc` for process `p`. -/
theorem Owns.alloc {free free' : Nat → Bool} {k : Reqs P B} (h : Owns free k) {p : P}
    (hp : k p = none) {c : Call B} {x : Chain} (hnd : x.list.Nodup)
    (hx : ∀ i, i ∈ x.list → i < NUM ∧ free i = true)
    (hin : ∀ i, i ∈ x.list → free' i = false) (hout : ∀ i, i ∉ x.list → free' i = free i) :
    Owns free' (Function.update k p (some (.format, c, x))) := by
  have hold : ∀ {q φ c' x'}, q ≠ p → Function.update k p (some (.format, c, x)) q
      = some (φ, c', x') → k q = some (φ, c', x') := by
    intro q φ c' x' hq he
    rwa [Function.update_of_ne hq] at he
  have hnew : ∀ {φ c' x'}, Function.update k p (some (.format, c, x)) p = some (φ, c', x') →
      x' = x := by
    intro φ c' x' he
    rw [Function.update_self, Option.some.injEq] at he
    exact (congrArg (fun y => y.2.2) he).symm
  -- nobody else has a descriptor that was free
  have hother : ∀ {q φ c' x' i}, k q = some (φ, c', x') → i ∈ x'.list → i ∉ x.list := by
    intro q φ c' x' i hq hi hix
    have h1 := ((h.chain q φ c' x' hq).2 i hi).2
    rw [(hx i hix).2] at h1
    cases h1
  refine ⟨?_, ?_, ?_⟩
  · intro q φ c' x' hq
    by_cases hqp : q = p
    · subst hqp
      rw [hnew hq]
      exact ⟨hnd, fun i hi => ⟨(hx i hi).1, hin i hi⟩⟩
    · have hq := hold hqp hq
      obtain ⟨h1, h2⟩ := h.chain q φ c' x' hq
      exact ⟨h1, fun i hi => ⟨(h2 i hi).1, by rw [hout i (hother hq hi)]; exact (h2 i hi).2⟩⟩
  · intro q q' φ c₁ x₁ φ' c₂ x₂ i hq hq' hi hi'
    by_cases hqp : q = p <;> by_cases hqp' : q' = p
    · rw [hqp, hqp']
    · subst hqp
      exact absurd (hnew hq ▸ hi) (hother (hold hqp' hq') hi')
    · subst hqp'
      exact absurd (hnew hq' ▸ hi') (hother (hold hqp hq) hi)
    · exact h.disjoint q q' φ c₁ x₁ φ' c₂ x₂ i (hold hqp hq) (hold hqp' hq') hi hi'
  · intro i hi hf
    by_cases hix : i ∈ x.list
    · exact ⟨p, .format, c, x, Function.update_self _ _ _, hix⟩
    · rw [hout i hix] at hf
      obtain ⟨q, φ, c', x', hq, hiq⟩ := h.cover i hi hf
      refine ⟨q, φ, c', x', ?_, hiq⟩
      rw [Function.update_of_ne (fun he => by rw [he, hp] at hq; cases hq)]
      exact hq

/-- `free_chain` for process `p`. -/
theorem Owns.free {free free' : Nat → Bool} {k : Reqs P B} (h : Owns free k) {p : P} {φ : Phase}
    {c : Call B} {x : Chain} (hp : k p = some (φ, c, x))
    (hin : ∀ i, i ∈ x.list → free' i = true) (hout : ∀ i, i ∉ x.list → free' i = free i) :
    Owns free' (Function.update k p none) := by
  have hold : ∀ {q φ c' x'}, Function.update k p none q = some (φ, c', x') →
      q ≠ p ∧ k q = some (φ, c', x') := by
    intro q φ c' x' hq
    by_cases hqp : q = p
    · rw [hqp, Function.update_self] at hq
      cases hq
    · rw [Function.update_of_ne hqp] at hq
      exact ⟨hqp, hq⟩
  refine ⟨?_, ?_, ?_⟩
  · intro q φ' c' x' hq
    obtain ⟨hqp, hq⟩ := hold hq
    obtain ⟨h1, h2⟩ := h.chain q φ' c' x' hq
    refine ⟨h1, fun i hi => ⟨(h2 i hi).1, ?_⟩⟩
    rw [hout i fun hix => hqp (h.disjoint q p φ' c' x' φ c x i hq hp hi hix)]
    exact (h2 i hi).2
  · intro q q' φ₁ c₁ x₁ φ₂ c₂ x₂ i hq hq'
    exact h.disjoint q q' φ₁ c₁ x₁ φ₂ c₂ x₂ i (hold hq).2 (hold hq').2
  · intro i hi hf
    have hix : i ∉ x.list := by
      intro hix
      rw [hin i hix] at hf
      cases hf
    rw [hout i hix] at hf
    obtain ⟨q, φ', c', x', hq, hiq⟩ := h.cover i hi hf
    refine ⟨q, φ', c', x', ?_, hiq⟩
    rw [Function.update_of_ne]
    · exact hq
    · intro he
      rw [he, hp, Option.some.injEq] at hq
      have hx : x = x' := congrArg (fun y => y.2.2) hq
      exact hix (hx ▸ hiq)

theorem update_key {k : Reqs P B} {p q : P} {y z : Phase × Call B × Chain} :
    Function.update k p (some y) q = some z ↔ (q = p ∧ z = y) ∨ (q ≠ p ∧ k q = some z) := by
  by_cases hq : q = p
  · subst hq
    rw [Function.update_self, Option.some.injEq]
    constructor
    · exact fun h => .inl ⟨rfl, h.symm⟩
    · rintro (h | h)
      · exact h.2.symm
      · exact absurd rfl h.1
  · rw [Function.update_of_ne hq]
    constructor
    · exact fun h => .inr ⟨hq, h⟩
    · rintro (h | h)
      · exact absurd h.1 hq
      · exact h.2

end

/-! ## The two rings -/

theorem numDvd : NUM ∣ 2 ^ 16 := by decide

/-- Reading an entry. -/
theorem view_pop {data : Nat → Nat} {rd wr : BitVec 16} (hne : rd ≠ wr) :
    Ring.contents NUM data rd.toNat (wr - rd).toNat
      = data (slot rd) :: Ring.contents NUM data (rd + 1).toNat (wr - (rd + 1)).toNat := by
  have hpos : 1 ≤ (wr - rd).toNat := by
    by_contra h0
    refine hne ?_
    have hz : wr - rd = 0 := BitVec.eq_of_toNat_eq (by
      rw [show (0 : BitVec 16).toNat = 0 from rfl]
      omega)
    have hback := BitVec.sub_add_cancel wr rd
    rw [hz] at hback
    exact (BitVec.zero_add rd).symm.trans hback
  have hone : (1 : BitVec 16) = BitVec.ofNat 16 1 := rfl
  have hsplit : (wr - rd).toNat = 1 + (wr - (rd + 1)).toNat := by
    rw [hone, Ring.toNat_sub_sub hpos]
    omega
  have hmod : (rd.toNat + 1) % NUM = (rd + 1).toNat % NUM := by
    rw [hone, Ring.toNat_add_mod numDvd]
  rw [hsplit, Ring.contents_split, Ring.contents_mod data _ hmod]
  show [data ((rd.toNat + 0) % NUM)] ++ _ = _
  rw [slot_toNat, Nat.add_zero]
  rfl

/-- Storing an entry behind the others leaves them alone. -/
theorem view_store {data : Nat → Nat} {rd wr : BitVec 16} (h : Nat)
    (hlt : (wr - rd).toNat < NUM) :
    Ring.contents NUM (Function.update data (slot wr) h) rd.toNat (wr - rd).toNat
      = Ring.contents NUM data rd.toNat (wr - rd).toNat := by
  have hslot : slot wr = (rd.toNat + (wr - rd).toNat) % NUM := by
    rw [Ring.toNat_sub_mod numDvd, slot_toNat]
  have hupd : Function.update data (slot wr) h = Ring.blit data (slot wr) 1 fun _ => h := by
    rw [Ring.blit_succ, Ring.blit_zero, Nat.add_zero]
  have hrun : (rd.toNat + (wr - rd).toNat) % NUM + 1 ≤ NUM :=
    Nat.mod_lt _ (by decide)
  rw [hupd, hslot]
  exact Ring.contents_blit_free hrun hlt

/-- Moving the index over it. -/
theorem view_push {data : Nat → Nat} {rd wr : BitVec 16} (hlt : (wr - rd).toNat < NUM) :
    Ring.contents NUM data rd.toNat (wr + 1 - rd).toNat
      = Ring.contents NUM data rd.toNat (wr - rd).toNat ++ [data (slot wr)] := by
  have hlap : (wr - rd).toNat + 1 < 2 ^ 16 := by
    unfold NUM at hlt
    omega
  rw [show (1 : BitVec 16) = BitVec.ofNat 16 1 from rfl, Ring.toNat_sub_add hlap,
    Ring.contents_split]
  show _ ++ [data ((rd.toNat + (wr - rd).toNat + 0) % NUM)] = _
  rw [Nat.add_zero, Ring.toNat_sub_mod numDvd, ← slot_toNat]

section

omit [DecidableEq B]

theorem length_avail (d : Disk B) (v : Dev B) :
    (avail d v).length = (d.availIdx - v.last).toNat := Ring.length_contents _ _ _

theorem length_used (d : Disk B) : (used d).length = (d.usedIdx - d.seen).toNat :=
  Ring.length_contents _ _ _

theorem used_late {d : Disk B} (v : Dev B) {h : Nat} (hh : h ∈ used d) : h ∈ late d v :=
  List.mem_append.mpr (.inr (List.mem_append.mpr (.inr hh)))

theorem late_heads {d : Disk B} {v : Dev B} {h : Nat} (hh : h ∈ late d v) : h ∈ heads d v :=
  List.mem_append.mpr (.inr (List.mem_append.mpr (.inr hh)))

end

/-- There are no more heads than descriptors; fewer, if one is not a head. -/
theorem heads_length {l : List Nat} (hnd : l.Nodup) (hlt : ∀ h, h ∈ l → h < NUM) :
    l.length ≤ NUM := by
  have hsub : l.toFinset ⊆ Finset.range NUM := by
    intro h hh
    exact Finset.mem_range.mpr (hlt h (List.mem_toFinset.mp hh))
  have hcard := Finset.card_le_card hsub
  rwa [List.toFinset_card_of_nodup hnd, Finset.card_range] at hcard

end Xv6.Virtio
