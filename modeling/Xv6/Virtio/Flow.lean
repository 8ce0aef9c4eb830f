import Xv6.Virtio.Match

/-!
# The way of a request, step by step

One lemma for each thing that may happen to `Flow`: what the driver does to a
request of its own, what the device does, a turn of the interrupt handler.

The device's steps are all one: `heads` is permuted, and what has been completed is
right (`Flow.device`).
-/

namespace Xv6.Virtio

open Lib

variable {P B : Type} [DecidableEq P] [DecidableEq B] {d : Disk B} {v : Dev B} {busy : B → Bool}
  {completed : Nat → Bool} {k : Reqs P B}

section

omit [DecidableEq P] [DecidableEq B]

/-- Two requests with one head are one. -/
theorem Owns.same {free : Nat → Bool} (h : Owns free k) {p q : P} {φ φ' : Phase} {c c' : Call B}
    {x x' : Chain} (hp : k p = some (φ, c, x)) (hq : k q = some (φ', c', x'))
    (he : x.i0 = x'.i0) : p = q ∧ φ = φ' ∧ c = c' ∧ x = x' := by
  obtain rfl := h.inj hp hq he
  rw [hp] at hq
  simp only [Option.some.injEq, Prod.mk.injEq] at hq
  exact ⟨rfl, hq⟩

theorem Flow.heads_lt {free : Nat → Bool} (h : Flow d v busy completed k) (ho : Owns free k)
    {i : Nat} (hi : i ∈ heads d v) : i < NUM := by
  obtain ⟨p, c, x, hp, rfl, -⟩ := (h.mem i).mp hi
  exact ((ho.chain p _ c x hp).2 _ (i0_mem x)).1

/-- The head of a request that is not with the device is not in the list. -/
theorem Flow.notMem {free : Nat → Bool} (h : Flow d v busy completed k) (ho : Owns free k) {p : P}
    {φ : Phase} {c : Call B} {x : Chain} (hp : k p = some (φ, c, x)) (hφ : φ ≠ .out) :
    x.i0 ∉ heads d v := by
  intro hx
  obtain ⟨q, c', x', hq, he, -⟩ := (h.mem _).mp hx
  exact hφ (ho.same hp hq he.symm).2.1

/-- There is room in the avail ring for one that is not in the list. -/
theorem Flow.avail_room {free : Nat → Bool} (h : Flow d v busy completed k) (ho : Owns free k)
    {p : P} {φ : Phase} {c : Call B} {x : Chain} (hp : k p = some (φ, c, x)) (hφ : φ ≠ .out) :
    (d.availIdx - v.last).toNat < NUM := by
  have hnd : (x.i0 :: heads d v).Nodup := List.nodup_cons.mpr ⟨h.notMem ho hp hφ, h.nodup⟩
  have hlen := heads_length hnd (by
    intro i hi
    rcases List.mem_cons.mp hi with rfl | hi
    · exact ((ho.chain p φ c x hp).2 _ (i0_mem x)).1
    · exact h.heads_lt ho hi)
  have hle : (avail d v).length ≤ (heads d v).length := by
    unfold heads
    rw [List.length_append]
    omega
  rw [length_avail] at hle
  rw [List.length_cons] at hlen
  omega

/-- There is room in the used ring for one that has not been stored. -/
theorem Flow.used_room {free : Nat → Bool} (h : Flow d v busy completed k) (ho : Owns free k)
    (hpos : v.done ≠ [] ∨ v.stored ≠ none) : (d.usedIdx - d.seen).toNat < NUM := by
  have hlen := heads_length h.nodup fun i hi => h.heads_lt ho hi
  have hone : 0 < v.done.length + v.stored.toList.length := by
    rcases hpos with hd | hs
    · have := List.length_pos_iff.mpr hd
      omega
    · obtain ⟨i, hi⟩ := Option.ne_none_iff_exists'.mp hs
      rw [hi]
      show 0 < v.done.length + 1
      omega
  unfold heads late at hlen
  rw [List.length_append, List.length_append, List.length_append, List.length_append,
    List.length_map, List.length_map, length_used] at hlen
  omega

end

/-! ## The driver -/

omit [DecidableEq P] [DecidableEq B] in
/-- `alloc3_desc`, and what a failed one leaves in free descriptors. -/
theorem Flow.alloc {free : Nat → Bool} (h : Flow d v busy completed k) (ho : Owns d.free k)
    {desc : Nat → Desc B} (hdesc : ∀ i, d.free i = false → desc i = d.desc i) :
    Flow { d with desc := desc, free := free } v busy completed k := by
  refine { h with filled := ?_ }
  intro p φ c x hp hφ
  obtain ⟨f1, f2, f3, f4, f5⟩ := h.filled p φ c x hp hφ
  have hch := (ho.chain p φ c x hp).2
  exact ⟨f1, (hdesc _ (hch _ (i0_mem x)).2).trans f2, (hdesc _ (hch _ (i1_mem x)).2).trans f3,
    (hdesc _ (hch _ (i2_mem x)).2).trans f4, f5⟩

omit [DecidableEq B] in
theorem Flow.start (h : Flow d v busy completed k) {p : P} (hp : k p = none) {c : Call B}
    {x : Chain} : Flow d v busy completed (Function.update k p (some (.format, c, x))) := by
  have hold : ∀ {q φ c' x'}, φ ≠ Phase.format →
      (Function.update k p (some (.format, c, x)) q = some (φ, c', x') ↔
        k q = some (φ, c', x')) := by
    intro q φ c' x' hφ
    rw [update_key]
    constructor
    · rintro (⟨-, he⟩ | ⟨-, he⟩)
      · exact absurd (congrArg Prod.fst he) hφ
      · exact he
    · intro hq
      refine .inr ⟨?_, hq⟩
      rintro rfl
      rw [hp] at hq
      cases hq
  refine ⟨?_, h.nodup, ?_, ?_, ?_, ?_, ?_, h.status, h.stored, h.seen, ?_⟩
  · exact fun q φ c' x' hq hφ => h.filled q φ c' x' ((hold hφ).mp hq) hφ
  · intro i
    rw [h.mem i]
    constructor
    · rintro ⟨q, c', x', hq, hr⟩
      exact ⟨q, c', x', (hold (by decide)).mpr hq, hr⟩
    · rintro ⟨q, c', x', hq, hr⟩
      exact ⟨q, c', x', (hold (by decide)).mp hq, hr⟩
  · exact fun q c' x' hq => h.entry q c' x' ((hold (by decide)).mp hq)
  · intro q φ c' x' hq hφ
    exact h.early q φ c' x' ((hold (by rcases hφ with rfl | rfl <;> decide)).mp hq) hφ
  · exact fun q c' x' hq => h.finish q c' x' ((hold (by decide)).mp hq)
  · intro r hr
    obtain ⟨q, c', x', hq, he⟩ := h.reqs r hr
    exact ⟨q, c', x', (hold (by decide)).mpr hq, he⟩
  · intro q φ c' x' hq hφ
    exact h.cleared q φ c' x' ((hold (by rcases hφ with rfl | rfl <;> decide)).mp hq) hφ

/-- `format` on the memory. -/
def Disk.formatted (d : Disk B) (c : Call B) (x : Chain) : Disk B :=
  { d with
    ops := Function.update d.ops x.i0 ⟨c.write, c.sector⟩
    desc := Function.update (Function.update (Function.update d.desc
      x.i0 ⟨.op x.i0, 16, VRING_DESC_F_NEXT, x.i1⟩)
      x.i1 ⟨.data c.b, BSIZE, (if c.write then 0 else VRING_DESC_F_WRITE) ||| VRING_DESC_F_NEXT,
        x.i2⟩)
      x.i2 ⟨.status x.i0, 1, VRING_DESC_F_WRITE, 0⟩
    info := Function.update (Function.update d.info x.i0 { d.info x.i0 with status := 0xff })
      x.i0 { (Function.update d.info x.i0 { d.info x.i0 with status := 0xff }) x.i0 with
        b := some c.b } }

section

omit [DecidableEq B]

theorem formatted_info (c : Call B) {x : Chain} {i : Nat} (hi : i ≠ x.i0) :
    (d.formatted c x).info i = d.info i := by
  show Function.update (Function.update _ x.i0 _) x.i0 _ i = _
  rw [Function.update_of_ne hi, Function.update_of_ne hi]

/-- A chain and what is in it. -/
theorem filled_formatted (d : Disk B) (c : Call B) {x : Chain} (hnd : x.list.Nodup) :
    Filled (d.formatted c x) c x := by
  simp only [Chain.list, List.nodup_cons, List.mem_cons, List.not_mem_nil, or_false, not_or,
    not_false_eq_true, List.nodup_nil, and_true] at hnd
  obtain ⟨⟨h01, h02⟩, h12⟩ := hnd
  refine ⟨Function.update_self _ _ _, ?_, ?_, Function.update_self _ _ _, ?_⟩
  · show Function.update (Function.update (Function.update _ _ _) _ _) _ _ x.i0 = _
    rw [Function.update_of_ne h02, Function.update_of_ne h01, Function.update_self]
  · show Function.update (Function.update (Function.update _ _ _) _ _) _ _ x.i1 = _
    rw [Function.update_of_ne h12, Function.update_self]
  · unfold Disk.formatted
    dsimp only
    rw [Function.update_self]

/-- The other chains are not touched. -/
theorem Filled.formatted {c c' : Call B} {x x' : Chain} (h : Filled d c' x')
    (hx : ∀ i, i ∈ x'.list → i ∉ x.list) : Filled (d.formatted c x) c' x' := by
  obtain ⟨f1, f2, f3, f4, f5⟩ := h
  have hne : ∀ {i j}, i ∈ x'.list → j ∈ x.list → i ≠ j := by
    rintro i j hi hj rfl
    exact hx i hi hj
  have hdesc : ∀ i, i ∈ x'.list → (d.formatted c x).desc i = d.desc i := by
    intro i hi
    show Function.update (Function.update (Function.update _ _ _) _ _) _ _ i = _
    rw [Function.update_of_ne (hne hi (i2_mem x)), Function.update_of_ne (hne hi (i1_mem x)),
      Function.update_of_ne (hne hi (i0_mem x))]
  have h00 := hne (i0_mem x') (i0_mem x)
  refine ⟨?_, (hdesc _ (i0_mem x')).trans f2, (hdesc _ (i1_mem x')).trans f3,
    (hdesc _ (i2_mem x')).trans f4, ?_⟩
  · show Function.update _ x.i0 _ x'.i0 = _
    rw [Function.update_of_ne h00]
    exact f1
  · rw [formatted_info c h00]
    exact f5

end

theorem Flow.format (h : Flow d v busy completed k) (ho : Owns d.free k) {p : P} {c : Call B}
    {x : Chain} (hp : k p = some (.format, c, x))
    (hb : ∀ q φ c' x', k q = some (φ, c', x') → q ≠ p → c'.b ≠ c.b) :
    Flow (d.formatted c x) v (Function.update busy c.b true) (Function.update completed x.i0 false)
      (Function.update k p (some (.put, c, x))) := by
  have hbusy : ∀ {q φ c' x'}, k q = some (φ, c', x') → q ≠ p →
      Function.update busy c.b true c'.b = busy c'.b := fun hq hqp =>
    Function.update_of_ne (hb _ _ _ _ hq hqp) _ _
  have hhead : ∀ {i}, i ∈ heads d v → i ≠ x.i0 := by
    rintro i hi rfl
    exact h.notMem ho hp (by decide) hi
  refine ⟨?_, h.nodup, ?_, ?_, ?_, ?_, ?_, ?_, h.stored, ?_, ?_⟩
  · intro q φ c' x' hq hφ
    rcases update_key.mp hq with ⟨rfl, he⟩ | ⟨hqp, hq⟩
    · obtain ⟨-, rfl, rfl⟩ := Prod.mk.injEq _ _ _ _ ▸ he
      exact filled_formatted d c (ho.chain _ _ _ _ hp).1
    · refine (h.filled q φ c' x' hq hφ).formatted ?_
      intro i hi hix
      exact hqp (ho.disjoint q p φ c' x' _ c x i hq hp hi hix)
  · intro i
    refine (h.mem i).trans ⟨?_, ?_⟩
    · rintro ⟨q, c', x', hq, hi, hc⟩
      have hqp : q ≠ p := by
        rintro rfl
        rw [hp] at hq
        cases hq
      exact ⟨q, c', x', update_key.mpr (.inr ⟨hqp, hq⟩), hi, (hbusy hq hqp).trans hc⟩
    · rintro ⟨q, c', x', hq, hi, hc⟩
      rcases update_key.mp hq with ⟨rfl, he⟩ | ⟨hqp, hq⟩
      · cases he
      · exact ⟨q, c', x', hq, hi, (hbusy hq hqp).symm.trans hc⟩
  · intro q c' x' hq
    rcases update_key.mp hq with ⟨rfl, he⟩ | ⟨hqp, hq⟩
    · cases he
    · exact h.entry q c' x' hq
  · intro q φ c' x' hq hφ
    rcases update_key.mp hq with ⟨rfl, he⟩ | ⟨hqp, hq⟩
    · cases he
      exact Function.update_self _ _ _
    · exact (hbusy hq hqp).trans (h.early q φ c' x' hq hφ)
  · intro q c' x' hq
    rcases update_key.mp hq with ⟨rfl, he⟩ | ⟨hqp, hq⟩
    · cases he
    · exact (hbusy hq hqp).trans (h.finish q c' x' hq)
  · intro r hr
    obtain ⟨q, c', x', hq, he⟩ := h.reqs r hr
    have hqp : q ≠ p := by
      rintro rfl
      rw [hp] at hq
      cases hq
    exact ⟨q, c', x', update_key.mpr (.inr ⟨hqp, hq⟩), he⟩
  · intro i hi
    have hne := hhead (late_heads hi)
    rw [formatted_info c hne]
    exact h.status i hi
  · intro i hi
    rw [Function.update_of_ne (hhead (late_heads (used_late v hi)))]
    exact h.seen i hi
  · intro q φ c' x' hq hφ hc
    rcases update_key.mp hq with ⟨rfl, he⟩ | ⟨hqp, hq⟩
    · cases he
      rcases hφ with hφ | hφ <;> cases hφ
    · have hne : x'.i0 ≠ x.i0 := fun he => hqp (ho.inj hq hp he)
      rw [Function.update_of_ne hne]
      exact h.cleared q φ c' x' hq hφ ((hbusy hq hqp).symm.trans hc)

/-! A request moves from one phase to the next. -/

section

omit [DecidableEq B]

theorem key_old {p q : P} {φ φ' : Phase} {c c' : Call B} {x x' : Chain} (hφ : φ' ≠ φ)
    (hq : Function.update k p (some (φ, c, x)) q = some (φ', c', x')) :
    q ≠ p ∧ k q = some (φ', c', x') := by
  rcases update_key.mp hq with ⟨-, he⟩ | hq
  · exact absurd (congrArg Prod.fst he) hφ
  · exact hq

theorem key_new {p q : P} {φ φ' : Phase} {c c' : Call B} {x x' : Chain}
    {y : Phase × Call B × Chain} (hp : k p = some (φ, c, x)) (hφ : φ' ≠ φ)
    (hq : k q = some (φ', c', x')) : Function.update k p (some y) q = some (φ', c', x') := by
  refine update_key.mpr (.inr ⟨?_, hq⟩)
  rintro rfl
  rw [hp, Option.some.injEq] at hq
  exact hφ (congrArg Prod.fst hq).symm

theorem Filled.of_eq {d' : Disk B} {c : Call B} {x : Chain} (h : Filled d c x)
    (hops : d'.ops = d.ops) (hdesc : d'.desc = d.desc) (hinfo : ∀ i, (d'.info i).b = (d.info i).b) :
    Filled d' c x :=
  ⟨hops ▸ h.op, hdesc ▸ h.d0, hdesc ▸ h.d1, hdesc ▸ h.d2, (hinfo _).trans h.b⟩

theorem Flow.put {free : Nat → Bool} (h : Flow d v busy completed k) (ho : Owns free k) {p : P}
    {c : Call B} {x : Chain} (hp : k p = some (.put, c, x))
    (honly : ∀ q φ c' x', k q = some (φ, c', x') → φ ≠ .out → q = p) :
    avail { d with avail := Function.update d.avail (slot d.availIdx) x.i0 } v = avail d v ∧
    Flow { d with avail := Function.update d.avail (slot d.availIdx) x.i0 } v busy completed
      (Function.update k p (some (.publish, c, x))) := by
  have havail : avail { d with avail := Function.update d.avail (slot d.availIdx) x.i0 } v
      = avail d v := view_store x.i0 (h.avail_room ho hp (by decide))
  have hheads : heads { d with avail := Function.update d.avail (slot d.availIdx) x.i0 } v
      = heads d v := by
    unfold heads
    rw [havail]
    rfl
  refine ⟨havail, ?_, hheads ▸ h.nodup, ?_, ?_, ?_, ?_, ?_, h.status, h.stored, h.seen, ?_⟩
  · intro q φ c' x' hq hφ
    rcases update_key.mp hq with ⟨rfl, he⟩ | ⟨-, hq⟩
    · cases he
      exact (h.filled _ _ _ _ hp (by decide)).of_eq rfl rfl fun _ => rfl
    · exact (h.filled q φ c' x' hq hφ).of_eq rfl rfl fun _ => rfl
  · intro i
    rw [hheads, h.mem i]
    constructor
    · rintro ⟨q, c', x', hq, hr⟩
      exact ⟨q, c', x', key_new hp (by decide) hq, hr⟩
    · rintro ⟨q, c', x', hq, hr⟩
      exact ⟨q, c', x', (key_old (by decide) hq).2, hr⟩
  · intro q c' x' hq
    rcases update_key.mp hq with ⟨rfl, he⟩ | ⟨hqp, hq⟩
    · cases he
      exact Function.update_self _ _ _
    · exact absurd (honly q _ c' x' hq (by decide)) hqp
  · intro q φ c' x' hq hφ
    rcases update_key.mp hq with ⟨rfl, he⟩ | ⟨-, hq⟩
    · cases he
      exact h.early _ _ _ _ hp (.inl rfl)
    · exact h.early q φ c' x' hq hφ
  · exact fun q c' x' hq => h.finish q c' x' (key_old (by decide) hq).2
  · intro r hr
    obtain ⟨q, c', x', hq, he⟩ := h.reqs r hr
    exact ⟨q, c', x', key_new hp (by decide) hq, he⟩
  · intro q φ c' x' hq hφ
    exact h.cleared q φ c' x' (key_old (by rcases hφ with rfl | rfl <;> decide) hq).2 hφ

theorem Flow.publish {free : Nat → Bool} (h : Flow d v busy completed k) (ho : Owns free k) {p : P}
    {c : Call B} {x : Chain} (hp : k p = some (.publish, c, x))
    (honly : ∀ q φ c' x', k q = some (φ, c', x') → φ ≠ .out → q = p) :
    avail { d with availIdx := d.availIdx + 1 } v = avail d v ++ [x.i0] ∧
    Flow { d with availIdx := d.availIdx + 1 } v busy completed
      (Function.update k p (some (.out, c, x))) := by
  have havail : avail { d with availIdx := d.availIdx + 1 } v = avail d v ++ [x.i0] := by
    rw [← h.entry p c x hp]
    exact view_push (h.avail_room ho hp (by decide))
  have hheads : (heads { d with availIdx := d.availIdx + 1 } v).Perm (x.i0 :: heads d v) := by
    unfold heads
    rw [havail, List.append_assoc]
    exact List.perm_middle
  have hbusy : busy c.b = true := h.early p _ c x hp (.inr rfl)
  refine ⟨havail, ?_, ?_, ?_, ?_, ?_, ?_, ?_, h.status, h.stored, h.seen, ?_⟩
  · intro q φ c' x' hq hφ
    rcases update_key.mp hq with ⟨rfl, he⟩ | ⟨-, hq⟩
    · cases he
      exact (h.filled _ _ _ _ hp (by decide)).of_eq rfl rfl fun _ => rfl
    · exact (h.filled q φ c' x' hq hφ).of_eq rfl rfl fun _ => rfl
  · exact hheads.nodup_iff.mpr (List.nodup_cons.mpr ⟨h.notMem ho hp (by decide), h.nodup⟩)
  · intro i
    rw [hheads.mem_iff, List.mem_cons, h.mem i]
    constructor
    · rintro (rfl | ⟨q, c', x', hq, hr⟩)
      · exact ⟨p, c, x, Function.update_self _ _ _, rfl, hbusy⟩
      · exact ⟨q, c', x', key_new hp (by decide) hq, hr⟩
    · rintro ⟨q, c', x', hq, hi, hb⟩
      rcases update_key.mp hq with ⟨rfl, he⟩ | ⟨-, hq⟩
      · cases he
        exact .inl hi.symm
      · exact .inr ⟨q, c', x', hq, hi, hb⟩
  · intro q c' x' hq
    obtain ⟨hqp, hq⟩ := key_old (by decide) hq
    exact absurd (honly q _ c' x' hq (by decide)) hqp
  · intro q φ c' x' hq hφ
    exact h.early q φ c' x' (key_old (by rcases hφ with rfl | rfl <;> decide) hq).2 hφ
  · exact fun q c' x' hq => h.finish q c' x' (key_old (by decide) hq).2
  · intro r hr
    obtain ⟨q, c', x', hq, he⟩ := h.reqs r hr
    exact ⟨q, c', x', key_new hp (by decide) hq, he⟩
  · intro q φ c' x' hq hφ hb
    rcases update_key.mp hq with ⟨rfl, he⟩ | ⟨-, hq⟩
    · cases he
      rw [hbusy] at hb
      cases hb
    · exact h.cleared q φ c' x' hq hφ hb

end

omit [DecidableEq P] [DecidableEq B] in
/-- A request whose buffer is not busy has left the list. -/
theorem Flow.gone {free : Nat → Bool} (h : Flow d v busy completed k) (ho : Owns free k) {p : P}
    {φ : Phase} {c : Call B} {x : Chain} (hp : k p = some (φ, c, x)) (hb : busy c.b = false) :
    x.i0 ∉ heads d v := by
  intro hx
  obtain ⟨q, c', x', hq, he, hb'⟩ := (h.mem _).mp hx
  obtain ⟨rfl, -, rfl, -⟩ := ho.same hp hq he.symm
  rw [hb] at hb'
  cases hb'

omit [DecidableEq B] in
theorem Flow.leave {free : Nat → Bool} (h : Flow d v busy completed k) (ho : Owns free k) {p : P}
    {c : Call B} {x : Chain} (hp : k p = some (.out, c, x)) (hb : busy c.b = false) :
    Flow d v busy completed (Function.update k p (some (.finish, c, x))) := by
  refine ⟨?_, h.nodup, ?_, ?_, ?_, ?_, ?_, h.status, h.stored, h.seen, ?_⟩
  · intro q φ c' x' hq hφ
    rcases update_key.mp hq with ⟨rfl, he⟩ | ⟨-, hq⟩
    · cases he
      exact h.filled _ _ _ _ hp (by decide)
    · exact h.filled q φ c' x' hq hφ
  · intro i
    rw [h.mem i]
    constructor
    · rintro ⟨q, c', x', hq, hi, hb'⟩
      refine ⟨q, c', x', update_key.mpr (.inr ⟨?_, hq⟩), hi, hb'⟩
      rintro rfl
      rw [hp] at hq
      cases hq
      rw [hb] at hb'
      cases hb'
    · rintro ⟨q, c', x', hq, hr⟩
      exact ⟨q, c', x', (key_old (by decide) hq).2, hr⟩
  · exact fun q c' x' hq => h.entry q c' x' (key_old (by decide) hq).2
  · intro q φ c' x' hq hφ
    exact h.early q φ c' x' (key_old (by rcases hφ with rfl | rfl <;> decide) hq).2 hφ
  · intro q c' x' hq
    rcases update_key.mp hq with ⟨rfl, he⟩ | ⟨-, hq⟩
    · cases he
      exact hb
    · exact h.finish q c' x' hq
  · intro r hr
    obtain ⟨q, c', x', hq, he⟩ := h.reqs r hr
    refine ⟨q, c', x', update_key.mpr (.inr ⟨?_, hq⟩), he⟩
    rintro rfl
    rw [hp] at hq
    cases hq
    -- the device still has it, so its buffer is busy
    refine h.gone ho hp hb ?_
    rw [show x.i0 = r.head from he ▸ rfl]
    rcases hr with hr | hr
    · exact List.mem_append.mpr (.inr (List.mem_append.mpr (.inl (List.mem_map_of_mem hr))))
    · exact late_heads (List.mem_append.mpr (.inl (List.mem_map_of_mem hr)))
  · intro q φ c' x' hq hφ hb'
    rcases update_key.mp hq with ⟨rfl, he⟩ | ⟨-, hq⟩
    · cases he
      exact h.cleared _ _ _ _ hp (.inl rfl) hb
    · exact h.cleared q φ c' x' hq hφ hb'

/-- `finish` on the memory. -/
def Disk.finished (d : Disk B) (x : Chain) : Disk B :=
  ((({ d with info := Function.update d.info x.i0 { d.info x.i0 with b := none } }
    : Disk B).freed x.i0).freed x.i1).freed x.i2

omit [DecidableEq B] in
theorem Flow.free {free : Nat → Bool} (h : Flow d v busy completed k) (ho : Owns free k) {p : P}
    {c : Call B} {x : Chain} (hp : k p = some (.finish, c, x)) :
    Flow (d.finished x) v busy completed (Function.update k p none) := by
  have hold : ∀ {q φ c' x'}, Function.update k p none q = some (φ, c', x') →
      q ≠ p ∧ k q = some (φ, c', x') := by
    intro q φ c' x' hq
    by_cases hqp : q = p
    · rw [hqp, Function.update_self] at hq
      cases hq
    · rw [Function.update_of_ne hqp] at hq
      exact ⟨hqp, hq⟩
  have hnew : ∀ {q φ c' x'}, φ ≠ Phase.finish → k q = some (φ, c', x') →
      Function.update k p none q = some (φ, c', x') := by
    intro q φ c' x' hφ hq
    rw [Function.update_of_ne]
    · exact hq
    · rintro rfl
      rw [hp, Option.some.injEq] at hq
      exact hφ (congrArg Prod.fst hq).symm
  refine ⟨?_, h.nodup, ?_, ?_, ?_, ?_, ?_, ?_, h.stored, h.seen, ?_⟩
  · intro q φ c' x' hq hφ
    obtain ⟨hqp, hq⟩ := hold hq
    obtain ⟨f1, f2, f3, f4, f5⟩ := h.filled q φ c' x' hq hφ
    have hne : ∀ {i j}, i ∈ x'.list → j ∈ x.list → i ≠ j := by
      rintro i j hi hj rfl
      exact hqp (ho.disjoint q p _ _ _ _ _ _ i hq hp hi hj)
    have hdesc : ∀ i, i ∈ x'.list → (d.finished x).desc i = d.desc i := by
      intro i hi
      show Function.update (Function.update (Function.update _ _ _) _ _) _ _ i = _
      rw [Function.update_of_ne (hne hi (i2_mem x)), Function.update_of_ne (hne hi (i1_mem x)),
        Function.update_of_ne (hne hi (i0_mem x))]
    have hinfo : (d.finished x).info x'.i0 = d.info x'.i0 :=
      Function.update_of_ne (hne (i0_mem x') (i0_mem x)) _ _
    exact ⟨f1, (hdesc _ (i0_mem x')).trans f2, (hdesc _ (i1_mem x')).trans f3,
      (hdesc _ (i2_mem x')).trans f4, hinfo ▸ f5⟩
  · intro i
    refine (h.mem i).trans ⟨?_, ?_⟩
    · rintro ⟨q, c', x', hq, hr⟩
      exact ⟨q, c', x', hnew (by decide) hq, hr⟩
    · rintro ⟨q, c', x', hq, hr⟩
      exact ⟨q, c', x', (hold hq).2, hr⟩
  · exact fun q c' x' hq => h.entry q c' x' (hold hq).2
  · exact fun q φ c' x' hq => h.early q φ c' x' (hold hq).2
  · exact fun q c' x' hq => h.finish q c' x' (hold hq).2
  · intro r hr
    obtain ⟨q, c', x', hq, he⟩ := h.reqs r hr
    exact ⟨q, c', x', hnew (by decide) hq, he⟩
  · intro i hi
    have hne : i ≠ x.i0 := by
      rintro rfl
      exact h.notMem ho hp (by decide) (late_heads hi)
    rw [show (d.finished x).info i = d.info i from Function.update_of_ne hne _ _]
    exact h.status i hi
  · exact fun q φ c' x' hq => h.cleared q φ c' x' (hold hq).2

/-! ## The device -/

section

omit [DecidableEq P] [DecidableEq B]

/-- **A step of the device** moves a head along. -/
theorem Flow.device {d' : Disk B} {v' : Dev B} {completed' : Nat → Bool}
    (h : Flow d v busy completed k) (hperm : (heads d' v').Perm (heads d v))
    (hops : d'.ops = d.ops) (hdesc : d'.desc = d.desc) (hb : ∀ i, (d'.info i).b = (d.info i).b)
    (havail : d'.avail = d.avail) (hidx : d'.availIdx = d.availIdx)
    (hreqs : ∀ r, r ∈ v'.taken ∨ r ∈ v'.done → ∃ p c x, k p = some (.out, c, x) ∧ r = reqOf c x)
    (hstatus : ∀ i, i ∈ late d' v' → (d'.info i).status = 0)
    (hstored : ∀ i, v'.stored = some i → d'.used (slot d'.usedIdx) = i)
    (hseen : ∀ i, i ∈ used d' → completed' i = true)
    (hcomp : ∀ i, completed i = true → completed' i = true) : Flow d' v' busy completed' k where
  filled p φ c x hp hφ := (h.filled p φ c x hp hφ).of_eq hops hdesc hb
  nodup := hperm.nodup_iff.mpr h.nodup
  mem i := hperm.mem_iff.trans (h.mem i)
  entry p c x hp := by
    rw [havail, hidx]
    exact h.entry p c x hp
  early := h.early
  finish := h.finish
  reqs := hreqs
  status := hstatus
  stored := hstored
  seen := hseen
  cleared p φ c x hp hφ hf := hcomp _ (h.cleared p φ c x hp hφ hf)

theorem readReq_eq {s : Sys P B} {c : Call B} {x : Chain} (h : Filled s.disk c x) :
    s.readReq x.i0 = reqOf c x := by
  obtain ⟨f1, f2, f3, f4, -⟩ := h
  unfold Sys.readReq reqOf
  rw [f2]
  dsimp only
  rw [f3]
  dsimp only
  rw [f4, f1]

theorem Flow.take (h : Flow d v busy completed k) (hne : v.last ≠ d.availIdx) {r : DevReq B}
    (hr : r.head = d.avail (slot v.last))
    (hreq : ∃ p c x, k p = some (.out, c, x) ∧ r = reqOf c x) :
    avail d v = r.head :: avail d { v with last := v.last + 1, taken := v.taken ++ [r] } ∧
    Flow d { v with last := v.last + 1, taken := v.taken ++ [r] } busy completed k := by
  have havail : avail d v
      = r.head :: avail d { v with last := v.last + 1, taken := v.taken ++ [r] } := by
    rw [hr]
    exact view_pop hne
  refine ⟨havail, h.device ?_ rfl rfl (fun _ => rfl) rfl rfl ?_ h.status h.stored h.seen
    fun _ => id⟩
  · -- the entry goes behind the others that were taken
    unfold heads
    rw [havail, List.map_append, List.cons_append, List.append_assoc]
    exact (List.Perm.append_left _ List.perm_middle).trans List.perm_middle
  · rintro r' (hr' | hr')
    · rcases List.mem_append.mp hr' with hr' | hr'
      · exact h.reqs r' (.inl hr')
      · rw [List.mem_singleton.mp hr']
        exact hreq
    · exact h.reqs r' (.inr hr')

end

omit [DecidableEq P] in
theorem Flow.writeStatus (h : Flow d v busy completed k) {r : DevReq B} (hr : r ∈ v.taken) :
    Flow { d with info := Function.update d.info r.head { d.info r.head with status := 0 } }
      { v with taken := v.taken.erase r, done := r :: v.done } busy completed k := by
  refine h.device ?_ rfl rfl ?_ rfl rfl ?_ ?_ h.stored h.seen fun _ => id
  · have hp : (v.taken.map DevReq.head).Perm (r.head :: (v.taken.erase r).map DevReq.head) :=
      (List.perm_cons_erase hr).map DevReq.head
    refine List.Perm.append_left _ ?_
    exact List.perm_middle.trans (hp.symm.append_right _)
  · intro i
    dsimp only
    by_cases hi : i = r.head
    · rw [hi, Function.update_self]
    · rw [Function.update_of_ne hi]
  · rintro r' (hr' | hr')
    · exact h.reqs r' (.inl (List.mem_of_mem_erase hr'))
    · rcases List.mem_cons.mp hr' with rfl | hr'
      · exact h.reqs r' (.inl hr)
      · exact h.reqs r' (.inr hr')
  · intro i hi
    dsimp only
    by_cases he : i = r.head
    · rw [he, Function.update_self]
    · rw [Function.update_of_ne he]
      rcases List.mem_cons.mp hi with hi | hi
      · exact absurd hi he
      · exact h.status i hi

omit [DecidableEq P] in
theorem Flow.store {free : Nat → Bool} (h : Flow d v busy completed k) (ho : Owns free k)
    (hnone : v.stored = none) {r : DevReq B} (hr : r ∈ v.done) :
    Flow { d with used := Function.update d.used (slot d.usedIdx) r.head }
      { v with done := v.done.erase r, stored := some r.head } busy completed k := by
  have hused : used { d with used := Function.update d.used (slot d.usedIdx) r.head } = used d :=
    view_store r.head (h.used_room ho (.inl (List.ne_nil_of_mem hr)))
  have hlate : (late { d with used := Function.update d.used (slot d.usedIdx) r.head }
      { v with done := v.done.erase r, stored := some r.head }).Perm (late d v) := by
    have hp : (v.done.map DevReq.head).Perm (r.head :: (v.done.erase r).map DevReq.head) :=
      (List.perm_cons_erase hr).map DevReq.head
    unfold late
    rw [hused, hnone]
    exact List.perm_middle.trans (hp.symm.append_right _)
  refine h.device ?_ rfl rfl (fun _ => rfl) rfl rfl ?_ ?_ ?_ ?_ fun _ => id
  · exact List.Perm.append_left _ (List.Perm.append_left _ hlate)
  · rintro r' (hr' | hr')
    · exact h.reqs r' (.inl hr')
    · exact h.reqs r' (.inr (List.mem_of_mem_erase hr'))
  · exact fun i hi => h.status i (hlate.mem_iff.mp hi)
  · intro i hi
    rw [← Option.some.inj hi]
    exact Function.update_self _ _ _
  · exact fun i hi => h.seen i (hused ▸ hi)

omit [DecidableEq P] [DecidableEq B] in
theorem Flow.moveIdx {free : Nat → Bool} (h : Flow d v busy completed k) (ho : Owns free k)
    {i : Nat} (hs : v.stored = some i) :
    Flow { d with usedIdx := d.usedIdx + 1 } { v with stored := none } busy
      (Function.update completed i true) k := by
  have hused : used { d with usedIdx := d.usedIdx + 1 } = used d ++ [i] := by
    rw [← h.stored i hs]
    refine view_push (h.used_room ho (.inr ?_))
    rw [hs]
    exact Option.some_ne_none i
  have hlate : (late { d with usedIdx := d.usedIdx + 1 } { v with stored := none }).Perm
      (late d v) := by
    unfold late
    rw [hused, hs]
    exact List.Perm.append_left _ (List.perm_append_singleton i (used d))
  refine h.device ?_ rfl rfl (fun _ => rfl) rfl rfl h.reqs ?_ ?_ ?_ ?_
  · exact List.Perm.append_left _ (List.Perm.append_left _ hlate)
  · exact fun j hj => h.status j (hlate.mem_iff.mp hj)
  · intro j hj
    cases hj
  · intro j hj
    by_cases he : j = i
    · rw [he, Function.update_self]
    · rw [Function.update_of_ne he]
      rw [hused] at hj
      rcases List.mem_append.mp hj with hj | hj
      · exact h.seen j hj
      · exact absurd (List.mem_singleton.mp hj) he
  · intro j hj
    by_cases he : j = i
    · rw [he, Function.update_self]
    · rw [Function.update_of_ne he]
      exact hj

/-! ## The interrupt handler -/

/-- **A turn of the handler**: the entry leads to the request of one process, which
has been completed. -/
theorem Flow.turn {free : Nat → Bool} (h : Flow d v busy completed k) (ho : Owns free k)
    (hbuf : ∀ p q φ c x φ' c' x', k p = some (φ, c, x) → k q = some (φ', c', x') → c.b = c'.b →
      p = q)
    (hne : d.seen ≠ d.usedIdx) :
    ∃ p c x, k p = some (.out, c, x) ∧ x.i0 = d.used (slot d.seen) ∧ busy c.b = true ∧
      completed x.i0 = true ∧ (d.info x.i0).status = 0 ∧ (d.info x.i0).b = some c.b ∧
      Flow { d with seen := d.seen + 1 } v (Function.update busy c.b false) completed k := by
  have hused : used d = d.used (slot d.seen) :: used { d with seen := d.seen + 1 } := view_pop hne
  have hin : d.used (slot d.seen) ∈ used d := hused ▸ List.mem_cons_self
  obtain ⟨p, c, x, hp, hx, hb⟩ := (h.mem _).mp (late_heads (used_late v hin))
  rw [← hx] at hin hused
  have hperm : (heads d v).Perm (x.i0 :: heads { d with seen := d.seen + 1 } v) := by
    unfold heads late
    rw [hused]
    simp only [← List.append_assoc]
    exact List.perm_middle
  have hnd := List.nodup_cons.mp (hperm.nodup_iff.mp h.nodup)
  -- another process waits for another buffer
  have hother : ∀ {q φ c' x'}, k q = some (φ, c', x') → q ≠ p →
      Function.update busy c.b false c'.b = busy c'.b := by
    intro q φ c' x' hq hqp
    refine Function.update_of_ne (fun he => hqp ?_) _ _
    exact hbuf q p φ c' x' _ c x hq hp he
  have hsub : ∀ i, i ∈ heads { d with seen := d.seen + 1 } v → i ∈ heads d v := fun i hi =>
    hperm.mem_iff.mpr (List.mem_cons_of_mem _ hi)
  refine ⟨p, c, x, hp, hx, hb, h.seen _ hin, h.status _ (used_late v hin),
    (h.filled p _ c x hp (by decide)).b, ?_, hnd.2, ?_, h.entry, ?_, ?_, h.reqs, ?_,
    h.stored, ?_, ?_⟩
  · exact fun q φ c' x' hq hφ => (h.filled q φ c' x' hq hφ).of_eq rfl rfl fun _ => rfl
  · -- the heads that are left are those of the others
    intro i
    constructor
    · intro hi
      obtain ⟨q, c', x', hq, hi', hb'⟩ := (h.mem i).mp (hsub i hi)
      refine ⟨q, c', x', hq, hi', (hother hq ?_).trans hb'⟩
      rintro rfl
      obtain ⟨-, -, -, rfl⟩ := ho.same hp hq (by rw [hp] at hq; cases hq; rfl)
      rw [← hi'] at hi
      exact hnd.1 hi
    · rintro ⟨q, c', x', hq, hi, hb'⟩
      by_cases hqp : q = p
      · obtain rfl := hqp
        rw [hp] at hq
        cases hq
        rw [Function.update_self] at hb'
        cases hb'
      · have hmem := (h.mem i).mpr ⟨q, c', x', hq, hi, (hother hq hqp).symm.trans hb'⟩
        rcases List.mem_cons.mp (hperm.mem_iff.mp hmem) with he | hmem
        · exact absurd (ho.inj hq hp (hi.trans he)) hqp
        · exact hmem
  · intro q φ c' x' hq hφ
    have hqp : q ≠ p := by
      rintro rfl
      rw [hp] at hq
      cases hq
      rcases hφ with hφ | hφ <;> cases hφ
    exact (hother hq hqp).trans (h.early q φ c' x' hq hφ)
  · intro q c' x' hq
    have hqp : q ≠ p := by
      rintro rfl
      rw [hp] at hq
      cases hq
    exact (hother hq hqp).trans (h.finish q c' x' hq)
  · intro i hi
    refine h.status i ?_
    rcases List.mem_append.mp hi with hi | hi
    · exact List.mem_append.mpr (.inl hi)
    · refine List.mem_append.mpr (.inr ?_)
      rw [hused]
      rcases List.mem_append.mp hi with hi | hi
      · exact List.mem_append.mpr (.inl hi)
      · exact List.mem_append.mpr (.inr (List.mem_cons_of_mem _ hi))
  · intro i hi
    exact h.seen i (hused ▸ List.mem_cons_of_mem _ hi)
  · intro q φ c' x' hq hφ hb'
    by_cases hqp : q = p
    · obtain rfl := hqp
      rw [hp] at hq
      cases hq
      exact h.seen _ hin
    · exact h.cleared q φ c' x' hq hφ ((hother hq hqp).symm.trans hb')

end Xv6.Virtio
