import Xv6.Virtio.Machine
import Mathlib.Data.List.Nodup

/-!
# Allocating and freeing descriptors

One spec lemma for each of `alloc_desc`, `free_desc`, `alloc3_desc` and
`free_chain`. What they need is that a descriptor to be freed is in use, and that a
chain is linked as it was filled in; then none of them panics.

`alloc3_desc` that fails gives back what it took: the free descriptors are as
before, and only the contents of free ones have changed (`Rolled`). Freeing wakes
the processes that wait for descriptors, which moves none of them to another
request (`SamePc`).
-/

namespace Xv6.Virtio

open Lib

variable {P B : Type} [DecidableEq P] [DecidableEq B]

/-- How far a request is: being filled in, before the entry and before the index of
the avail ring, with the device or the interrupt handler, seen as finished. -/
inductive Phase
  | format | put | publish | out | finish
  deriving DecidableEq, Repr

/-- The request of a process, the place in its waiting loop forgotten. -/
def Pc.key : Pc B → Option (Phase × Call B × Chain)
  | .user | .early _ _ => none
  | .late .format c x => some (.format, c, x)
  | .late .put c x => some (.put, c, x)
  | .late .publish c x => some (.publish, c, x)
  | .late .wait c x | .late .asleep c x | .late .woken c x => some (.out, c, x)
  | .late .finish c x => some (.finish, c, x)

/-- The places at which a process holds `vdisk_lock`. -/
def Pc.holds : Pc B → Bool
  | .early .alloc _ => true
  | .late .format _ _ | .late .put _ _ | .late .publish _ _ | .late .wait _ _
  | .late .finish _ _ => true
  | _ => false

/-- The three descriptors of a chain. -/
def Chain.list (x : Chain) : List Nat := [x.i0, x.i1, x.i2]

/-- Nobody has gone anywhere, but for being woken. -/
def SamePc (pc pc' : P → Pc B) : Prop :=
  ∀ q, (pc' q).key = (pc q).key ∧ (pc' q).buf = (pc q).buf ∧ (pc' q).holds = (pc q).holds

section

omit [DecidableEq P] [DecidableEq B]

theorem SamePc.refl (pc : P → Pc B) : SamePc pc pc := fun _ => ⟨rfl, rfl, rfl⟩

theorem SamePc.trans {pc pc' pc'' : P → Pc B} (h : SamePc pc pc') (h' : SamePc pc' pc'') :
    SamePc pc pc'' := fun q =>
  ⟨(h' q).1.trans (h q).1, (h' q).2.1.trans (h q).2.1, (h' q).2.2.trans (h q).2.2⟩

theorem wakeupFree_same (s : Sys P B) : SamePc s.pc s.wakeupFree.pc := by
  intro q
  unfold Sys.wakeupFree
  dsimp only
  split
  next c hc => rw [hc]; exact ⟨rfl, rfl, rfl⟩
  next => exact ⟨rfl, rfl, rfl⟩

end

omit [DecidableEq P] in
theorem wakeupBuf_same (s : Sys P B) (b : B) : SamePc s.pc (s.wakeupBuf b).pc := by
  intro q
  unfold Sys.wakeupBuf
  dsimp only
  split
  next c x hc =>
    rw [hc]
    split
    · exact ⟨rfl, rfl, rfl⟩
    · exact ⟨rfl, rfl, rfl⟩
  next => exact ⟨rfl, rfl, rfl⟩

omit [DecidableEq P] [DecidableEq B] in
/-- What `alloc_desc` finds was free. -/
theorem allocDesc_spec {s s' : Sys P B} {i : Nat} (h : s.allocDesc = some (s', i)) :
    i < NUM ∧ s.disk.free i = true ∧ s' = s.setFree i false := by
  obtain ⟨j, hj, he⟩ := Option.map_eq_some_iff.mp h
  obtain ⟨rfl, rfl⟩ := Prod.mk.inj he
  exact ⟨List.mem_range.mp (List.mem_of_find?_eq_some hj), List.find?_some hj, rfl⟩

omit [DecidableEq P] [DecidableEq B] in
theorem freeDesc_spec {s : Sys P B} {i : Nat} (hi : i < NUM) (hf : s.disk.free i = false) :
    s.freeDesc i = .ok ((s.setDesc i .zero).setFree i true).wakeupFree := by
  rw [Sys.freeDesc, if_neg (Nat.not_le.mpr hi), if_neg (by rw [hf]; decide)]

/-- Some free descriptors have other contents, and some processes were woken. -/
structure Rolled (s s' : Sys P B) : Prop where
  disk : ∃ desc, s'.disk = { s.disk with desc := desc } ∧
    ∀ i, s.disk.free i = false → desc i = s.disk.desc i
  dev : s'.dev = s.dev
  busy : s'.busy = s.busy
  lock : s'.lock = s.lock
  pc : SamePc s.pc s'.pc
  panicked : s'.panicked = s.panicked
  completed : s'.completed = s.completed

section

omit [DecidableEq P] [DecidableEq B]

theorem Rolled.refl (s : Sys P B) : Rolled s s :=
  ⟨⟨_, rfl, fun _ _ => rfl⟩, rfl, rfl, rfl, .refl _, rfl, rfl⟩

/-- A descriptor was taken and given back. -/
theorem Rolled.back {s s' : Sys P B} {i : Nat} (hi : i < NUM) (hf : s.disk.free i = true)
    (h : Rolled (s.setFree i false) s') : ∃ s'', s'.freeDesc i = .ok s'' ∧ Rolled s s'' := by
  obtain ⟨⟨desc, hd, hdesc⟩, hdev, hbusy, hlock, hpc, hpan, hcomp⟩ := h
  have hfree : s'.disk.free i = false := by
    rw [hd]
    exact Function.update_self _ _ _
  refine ⟨_, freeDesc_spec hi hfree, ⟨⟨Function.update desc i .zero, ?_, ?_⟩, hdev, hbusy, hlock,
    hpc.trans ?_, hpan, hcomp⟩⟩
  · -- the mark is back
    have hback : Function.update (Function.update s.disk.free i false) i true = s.disk.free := by
      rw [Function.update_idem, ← hf, Function.update_eq_self]
    show { s'.disk with
      desc := Function.update s'.disk.desc i .zero
      free := Function.update s'.disk.free i true } = _
    rw [hd]
    show ({ s.disk with desc := _, free := Function.update (Function.update _ i false) i true }
      : Disk B) = _
    rw [hback]
  · intro j hj
    have hji : j ≠ i := by
      intro he
      rw [he, hf] at hj
      cases hj
    rw [Function.update_of_ne hji]
    refine hdesc j ?_
    show Function.update s.disk.free i false j = false
    rw [Function.update_of_ne hji]
    exact hj
  · exact wakeupFree_same ((s'.setDesc i .zero).setFree i true)

/-- **`alloc3_desc`**: three different free descriptors are now in use, or nothing
has happened; it does not panic. -/
theorem alloc3Desc_spec (s : Sys P B) :
    (∃ x : Chain, x.list.Nodup ∧ (∀ i, i ∈ x.list → i < NUM ∧ s.disk.free i = true) ∧
      s.alloc3Desc = .ok (((s.setFree x.i0 false).setFree x.i1 false).setFree x.i2 false, some x)) ∨
    (∃ s', s.alloc3Desc = .ok (s', none) ∧ Rolled s s') := by
  unfold Sys.alloc3Desc
  split
  next => exact .inr ⟨s, rfl, .refl s⟩
  next s₁ i0 h0 =>
    obtain ⟨hi0, hf0, rfl⟩ := allocDesc_spec h0
    split
    next =>
      obtain ⟨s', hs', hr⟩ := (Rolled.refl (s.setFree i0 false)).back hi0 hf0
      exact .inr ⟨s', by rw [hs']; rfl, hr⟩
    next s₂ i1 h1 =>
      obtain ⟨hi1, hf1, rfl⟩ := allocDesc_spec h1
      have h01 : i1 ≠ i0 := by
        intro he
        rw [he, show (s.setFree i0 false).disk.free i0 =
          false from Function.update_self _ _ _] at hf1
        cases hf1
      have hf1 : s.disk.free i1 = true := by
        rw [← hf1]
        exact (Function.update_of_ne h01 _ _).symm
      split
      next =>
        -- the first is given back before the second
        have hcomm : (s.setFree i0 false).setFree i1 false
            = (s.setFree i1 false).setFree i0 false := by
          unfold Sys.setFree
          dsimp only
          rw [Function.update_comm h01.symm]
        have hf0' : (s.setFree i1 false).disk.free i0 = true := by
          rw [← hf0]
          exact Function.update_of_ne h01.symm _ _
        obtain ⟨s', hs', hr'⟩ := (Rolled.refl ((s.setFree i1 false).setFree i0 false)).back hi0 hf0'
        obtain ⟨s'', hs'', hr''⟩ := hr'.back hi1 hf1
        refine .inr ⟨s'', ?_, hr''⟩
        rw [hcomm, hs']
        show Except.map _ (s'.freeDesc i1) = _
        rw [hs'']
        rfl
      next s₃ i2 h2 =>
        obtain ⟨hi2, hf2, rfl⟩ := allocDesc_spec h2
        have h12 : i2 ≠ i1 := by
          intro he
          rw [he, show ((s.setFree i0 false).setFree i1 false).disk.free i1 = false from
            Function.update_self _ _ _] at hf2
          cases hf2
        have hf2 : (s.setFree i0 false).disk.free i2 = true := by
          rw [← hf2]
          exact (Function.update_of_ne h12 _ _).symm
        have h02 : i2 ≠ i0 := by
          intro he
          rw [he, show (s.setFree i0 false).disk.free i0 = false from
            Function.update_self _ _ _] at hf2
          cases hf2
        have hf2 : s.disk.free i2 = true := by
          rw [← hf2]
          exact (Function.update_of_ne h02 _ _).symm
        refine .inl ⟨⟨i0, i1, i2⟩, ?_, ?_, rfl⟩
        · simp only [Chain.list, List.nodup_cons, List.mem_cons, List.not_mem_nil, or_false, not_or,
            not_false_eq_true, List.nodup_nil, and_true]
          exact ⟨⟨h01.symm, h02.symm⟩, h12.symm⟩
        · intro i hi
          simp only [Chain.list, List.mem_cons, List.not_mem_nil, or_false] at hi
          rcases hi with rfl | rfl | rfl
          · exact ⟨hi0, hf0⟩
          · exact ⟨hi1, hf1⟩
          · exact ⟨hi2, hf2⟩

end

/-- The descriptors of a request, as `virtio_disk_rw` fills them in. -/
structure Filled (d : Disk B) (c : Call B) (x : Chain) : Prop where
  op : d.ops x.i0 = ⟨c.write, c.sector⟩
  d0 : d.desc x.i0 = ⟨.op x.i0, 16, VRING_DESC_F_NEXT, x.i1⟩
  d1 : d.desc x.i1 = ⟨.data c.b, BSIZE,
    (if c.write then 0 else VRING_DESC_F_WRITE) ||| VRING_DESC_F_NEXT, x.i2⟩
  d2 : d.desc x.i2 = ⟨.status x.i0, 1, VRING_DESC_F_WRITE, 0⟩
  b : (d.info x.i0).b = some c.b

omit [DecidableEq P] [DecidableEq B] in
/-- One turn of `free_chain`. -/
theorem freeLoop_turn {s : Sys P B} {i : Nat} {x : Desc B} (hi : i < NUM)
    (hf : s.disk.free i = false) (hx : s.disk.desc i = x) (fuel : Nat) :
    s.freeLoop (fuel + 1) i = if x.flags &&& VRING_DESC_F_NEXT ≠ 0 then
      (((s.setDesc i .zero).setFree i true).wakeupFree).freeLoop fuel x.next
      else .ok ((s.setDesc i .zero).setFree i true).wakeupFree := by
  rw [Sys.freeLoop, freeDesc_spec hi hf, hx]

/-- `free_desc` on the memory. -/
def Disk.freed (d : Disk B) (i : Nat) : Disk B :=
  { d with desc := Function.update d.desc i .zero, free := Function.update d.free i true }

omit [DecidableEq P] [DecidableEq B] in
/-- **`free_chain`** frees the three descriptors of a request and does not panic. -/
theorem freeChain_spec {s : Sys P B} {c : Call B} {x : Chain} (hnd : x.list.Nodup)
    (hx : ∀ i, i ∈ x.list → i < NUM ∧ s.disk.free i = false)
    (h0 : s.disk.desc x.i0 = ⟨.op x.i0, 16, VRING_DESC_F_NEXT, x.i1⟩)
    (h1 : s.disk.desc x.i1 = ⟨.data c.b, BSIZE,
      (if c.write then 0 else VRING_DESC_F_WRITE) ||| VRING_DESC_F_NEXT, x.i2⟩)
    (h2 : s.disk.desc x.i2 = ⟨.status x.i0, 1, VRING_DESC_F_WRITE, 0⟩) :
    ∃ pc', SamePc s.pc pc' ∧ s.freeChain x.i0 = .ok { s with
      disk := ((s.disk.freed x.i0).freed x.i1).freed x.i2, pc := pc' } := by
  simp only [Chain.list, List.nodup_cons, List.mem_cons, List.not_mem_nil, or_false, not_or,
    not_false_eq_true, List.nodup_nil, and_true] at hnd
  obtain ⟨⟨h01, h02⟩, h12⟩ := hnd
  obtain ⟨hi0, hf0⟩ := hx x.i0 (by simp [Chain.list])
  obtain ⟨hi1, hf1⟩ := hx x.i1 (by simp [Chain.list])
  obtain ⟨hi2, hf2⟩ := hx x.i2 (by simp [Chain.list])
  have hnext : (VRING_DESC_F_NEXT &&& VRING_DESC_F_NEXT) ≠ 0 := by decide
  have hnext1 : (((if c.write then 0 else VRING_DESC_F_WRITE) ||| VRING_DESC_F_NEXT)
      &&& VRING_DESC_F_NEXT) ≠ 0 := by
    cases c.write <;> decide
  have hlast : ¬(VRING_DESC_F_WRITE &&& VRING_DESC_F_NEXT) ≠ 0 := by decide
  -- the states between the turns
  let s₁ := ((s.setDesc x.i0 .zero).setFree x.i0 true).wakeupFree
  let s₂ := ((s₁.setDesc x.i1 .zero).setFree x.i1 true).wakeupFree
  have hf1' : s₁.disk.free x.i1 = false := (Function.update_of_ne (Ne.symm h01) _ _).trans hf1
  have hd1' : s₁.disk.desc x.i1 = _ := (Function.update_of_ne (Ne.symm h01) _ _).trans h1
  have hf2' : s₂.disk.free x.i2 = false := (Function.update_of_ne (Ne.symm h12) _ _).trans
    ((Function.update_of_ne (Ne.symm h02) _ _).trans hf2)
  have hd2' : s₂.disk.desc x.i2 = _ := (Function.update_of_ne (Ne.symm h12) _ _).trans
    ((Function.update_of_ne (Ne.symm h02) _ _).trans h2)
  refine ⟨(((s₂.setDesc x.i2 .zero).setFree x.i2 true).wakeupFree).pc, ?_, ?_⟩
  · exact ((wakeupFree_same ((s.setDesc x.i0 .zero).setFree x.i0 true)).trans
      (wakeupFree_same ((s₁.setDesc x.i1 .zero).setFree x.i1 true))).trans
        (wakeupFree_same ((s₂.setDesc x.i2 .zero).setFree x.i2 true))
  · rw [Sys.freeChain, show NUM = 7 + 1 from rfl, freeLoop_turn hi0 hf0 h0, if_pos hnext,
      freeLoop_turn hi1 hf1' hd1', if_pos hnext1, freeLoop_turn hi2 hf2' hd2', if_neg hlast]
    rfl

end Xv6.Virtio
