import Xv6.Virtio.Flow

/-!
# What a step of the disk does

`Move` lists the steps there are from a state with the invariant: which statement
was run and what the state is then. No move panics. The invariant and the facts
about single steps all go by cases over it.
-/

namespace Xv6.Virtio

open Lib

variable {P B : Type} [DecidableEq P] [DecidableEq B]

inductive Move (s : Sys P B) : Act P B → Sys P B → Prop
  | rw {p : P} {c : Call B} : s.pc p = .user → Move s (.rw p c) (s.goto p (.early .enter c))
  | kill {p : P} : Move s (.kill p) (s.goto p (s.pc p).wake)
  | acquire {p : P} {c c' : Pc B} : s.lock = none → s.pc p = c → c'.key = c.key →
      c'.buf = c.buf → c'.holds = true →
      Move s (.acquire p) ({ s with lock := some (.proc p) }.goto p c')
  | alloc {p : P} {c : Call B} {x : Chain} : s.pc p = .early .alloc c → x.list.Nodup →
      (∀ i, i ∈ x.list → i < NUM ∧ s.disk.free i = true) →
      Move s (.run p)
        ((((s.setFree x.i0 false).setFree x.i1 false).setFree x.i2 false).goto p
          (.late .format c x))
  | full {p : P} {c : Call B} {s₁ : Sys P B} : s.pc p = .early .alloc c → Rolled s s₁ →
      Move s (.run p) ({ s₁ with lock := none }.goto p (.early .asleep c))
  | format {p : P} {c : Call B} {x : Chain} : s.pc p = .late .format c x →
      Move s (.run p) ((s.format c x).goto p (.late .put c x))
  | put {p : P} {c : Call B} {x : Chain} : s.pc p = .late .put c x →
      Move s (.run p) ((s.put x).goto p (.late .publish c x))
  | publish {p : P} {c : Call B} {x : Chain} : s.pc p = .late .publish c x →
      Move s (.run p) (s.publish.goto p (.late .wait c x))
  | sleep {p : P} {c : Call B} {x : Chain} : s.pc p = .late .wait c x →
      Move s (.run p) ({ s with lock := none }.goto p (.late .asleep c x))
  | leave {p : P} {c : Call B} {x : Chain} : s.pc p = .late .wait c x → s.busy c.b = false →
      Move s (.run p) (s.goto p (.late .finish c x))
  | finish {p : P} {c : Call B} {x : Chain} {pc : P → Pc B} : s.pc p = .late .finish c x →
      SamePc s.pc pc → Move s (.run p)
        ({ s with disk := s.disk.finished x, lock := none, pc := pc }.goto p .user)
  | intr : s.lock = none → Move s .intr { s with lock := some .intr }
  | turn {b : B} {pc : P → Pc B} : s.lock = some .intr → s.disk.seen ≠ s.disk.usedIdx →
      (s.disk.info (s.disk.used (slot s.disk.seen))).b = some b → SamePc s.pc pc →
      Move s .intrRun { s with
        busy := Function.update s.busy b false
        pc := pc
        disk := { s.disk with seen := s.disk.seen + 1 } }
  | done : s.lock = some .intr → s.disk.seen = s.disk.usedIdx →
      Move s .intrRun { s with lock := none }
  | take {p : P} {c : Call B} {x : Chain} : s.dev.last ≠ s.disk.availIdx →
      (s.pc p).key = some (.out, c, x) → x.i0 = s.disk.avail (slot s.dev.last) →
      Move s .devTake { s with dev := { s.dev with
        last := s.dev.last + 1, taken := s.dev.taken ++ [reqOf c x] } }
  | status {r : DevReq B} : r ∈ s.dev.taken →
      Move s (.devStatus r.head) { s with
        disk := { s.disk with
          info := Function.update s.disk.info r.head { s.disk.info r.head with status := 0 } }
        dev := { s.dev with taken := s.dev.taken.erase r, done := r :: s.dev.done } }
  | store {r : DevReq B} : s.dev.stored = none → r ∈ s.dev.done →
      Move s (.devStore r.head) { s with
        disk := { s.disk with used := Function.update s.disk.used (slot s.disk.usedIdx) r.head }
        dev := { s.dev with done := s.dev.done.erase r, stored := some r.head } }
  | idx {h : Nat} : s.dev.stored = some h →
      Move s .devIdx { s with
        disk := { s.disk with usedIdx := s.disk.usedIdx + 1 }
        dev := { s.dev with stored := none }
        completed := Function.update s.completed h true }

omit [DecidableEq P] [DecidableEq B] in
theorem DiskInv.bufKey {s : Sys P B} (h : DiskInv s) {p q : P} {φ φ' : Phase} {c c' : Call B}
    {x x' : Chain} (hp : (s.pc p).key = some (φ, c, x)) (hq : (s.pc q).key = some (φ', c', x'))
    (hb : c.b = c'.b) : p = q := by
  have hbuf : ∀ {pc : Pc B} {φ c x}, pc.key = some (φ, c, x) → pc.buf = some c.b := by
    intro pc φ c x hk
    unfold Pc.key at hk
    split at hk <;> cases hk <;> rfl
  exact h.bufs p q c.b (hbuf hp) (hb ▸ hbuf hq)

omit [DecidableEq B] in
/-- The finish of a request. -/
theorem finish_spec {s : Sys P B} (h : DiskInv s) {p : P} {c : Call B} {x : Chain}
    (hp : s.pc p = .late .finish c x) :
    ∃ pc, SamePc s.pc pc ∧ s.finish p x = .ok
      ({ s with disk := s.disk.finished x, lock := none, pc := pc }.goto p .user) := by
  have hk : (s.pc p).key = some (.finish, c, x) := by rw [hp]; rfl
  obtain ⟨hnd, hx⟩ := h.owns.chain p _ c x hk
  have hf := h.flow.filled p _ c x hk (by decide)
  obtain ⟨pc, hpc, hs⟩ :=
    freeChain_spec (s := s.setInfo x.i0 { s.disk.info x.i0 with b := none }) (c := c) hnd hx
      hf.d0 hf.d1 hf.d2
  refine ⟨pc, hpc, ?_⟩
  unfold Sys.finish
  rw [hs]
  rfl

/-- A turn of the interrupt handler. -/
theorem turn_spec {s : Sys P B} (h : DiskInv s) (hne : s.disk.seen ≠ s.disk.usedIdx) :
    ∃ b pc, (s.disk.info (s.disk.used (slot s.disk.seen))).b = some b ∧ SamePc s.pc pc ∧
      s.intrRun = { s with
        busy := Function.update s.busy b false
        pc := pc
        disk := { s.disk with seen := s.disk.seen + 1 } } := by
  obtain ⟨p, c, x, -, hx, -, -, hstatus, hb, -⟩ :=
    h.flow.turn h.owns (fun _ _ _ _ _ _ _ _ hp hq he => h.bufKey hp hq he) hne
  rw [hx] at hstatus hb
  refine ⟨c.b, _, hb,
    wakeupBuf_same { s with busy := Function.update s.busy c.b false } c.b, ?_⟩
  unfold Sys.intrRun
  dsimp only
  rw [if_pos hne, hstatus, if_neg (fun hn => hn rfl), hb]
  rfl

/-- **Inversion**: from a state with the invariant. -/
theorem step_move {s s' : Sys P B} {a : Act P B} (h : DiskInv s) (hs : step s a = some s') :
    Move s a s' := by
  unfold step at hs
  rw [if_neg (fun hn => hn h.panicked)] at hs
  cases a with
  | rw p c =>
    dsimp only at hs
    split at hs
    next hp =>
      cases hs
      exact .rw hp
    next => cases hs
  | kill p =>
    cases hs
    exact .kill
  | acquire p =>
    dsimp only at hs
    split at hs
    next hl =>
      split at hs
      next c hc =>
        cases hs
        exact .acquire hl hc rfl rfl rfl
      next c hc =>
        cases hs
        exact .acquire hl hc rfl rfl rfl
      next c x hc =>
        cases hs
        exact .acquire hl hc rfl rfl rfl
      next => cases hs
    next => cases hs
  | run p =>
    dsimp only at hs
    split at hs
    next =>
      unfold Sys.run at hs
      split at hs
      next c hc =>
        rcases alloc3Desc_spec s with ⟨x, hnd, hx, he⟩ | ⟨s₁, he, hr⟩
        · rw [he] at hs
          cases hs
          exact .alloc hc hnd hx
        · rw [he] at hs
          cases hs
          exact .full hc hr
      next c x hc =>
        cases hs
        exact .format hc
      next c x hc =>
        cases hs
        exact .put hc
      next c x hc =>
        cases hs
        exact .publish hc
      next c x hc =>
        split at hs
        next =>
          cases hs
          exact .sleep hc
        next hb =>
          cases hs
          exact .leave hc (Bool.not_eq_true _ ▸ hb)
      next c x hc =>
        obtain ⟨pc, hpc, he⟩ := finish_spec h hc
        rw [he] at hs
        cases hs
        exact .finish hc hpc
      next => cases hs
    next => cases hs
  | intr =>
    dsimp only at hs
    split at hs
    next hl =>
      cases hs
      exact .intr hl
    next => cases hs
  | intrRun =>
    dsimp only at hs
    split at hs
    next hl =>
      -- the loop of `virtio_disk_intr` ends, or takes one entry
      by_cases hne : s.disk.seen = s.disk.usedIdx
      · rw [Sys.intrRun, if_neg (fun hn => hn hne)] at hs
        cases hs
        exact .done hl hne
      · obtain ⟨b, pc, hb, hpc, he⟩ := turn_spec h hne
        rw [he] at hs
        cases hs
        exact .turn hl hne hb hpc
    next => cases hs
  | devTake =>
    dsimp only [Sys.devTake] at hs
    split at hs
    next hne =>
      -- the device reads a request of which every descriptor is filled in
      have hav : s.disk.avail (slot s.dev.last) ∈ heads s.disk s.dev := by
        refine List.mem_append.mpr (.inl ?_)
        rw [show avail s.disk s.dev = _ from view_pop hne]
        exact List.mem_cons_self
      obtain ⟨p, c, x, hp, hx, -⟩ := (h.flow.mem _).mp hav
      rw [← hx, readReq_eq (h.flow.filled p _ c x hp (by decide))] at hs
      cases hs
      exact .take hne hp hx
    next => cases hs
  | devStatus i =>
    obtain ⟨r, hr, rfl⟩ := Option.map_eq_some_iff.mp hs
    have hmem := List.mem_of_find?_eq_some hr
    have hhead : r.head = i := by simpa using List.find?_some hr
    obtain ⟨p, c, x, -, he⟩ := h.flow.reqs r (.inl hmem)
    subst hhead he
    exact .status hmem
  | devStore i =>
    dsimp only [Sys.devStore] at hs
    split at hs
    next hn =>
      obtain ⟨r, hr, rfl⟩ := Option.map_eq_some_iff.mp hs
      have hmem := List.mem_of_find?_eq_some hr
      have hhead : r.head = i := by simpa using List.find?_some hr
      subst hhead
      exact .store hn hmem
    next => cases hs
  | devIdx =>
    dsimp only [Sys.devIdx] at hs
    split at hs
    next => cases hs
    next i hi =>
      cases hs
      exact .idx hi

/-! ## The invariant -/

omit [DecidableEq B] in
/-- The requests after process `p` went to `c`. -/
theorem key_goto (pc : P → Pc B) (p : P) (c : Pc B) :
    (fun q => (Function.update pc p c q).key) = Function.update (fun q => (pc q).key) p c.key := by
  funext q
  by_cases hq : q = p
  · subst hq
    rw [Function.update_self, Function.update_self]
  · rw [Function.update_of_ne hq, Function.update_of_ne hq]

omit [DecidableEq P] [DecidableEq B] in
theorem key_same {pc pc' : P → Pc B} (h : SamePc pc pc') :
    (fun q => (pc' q).key) = fun q => (pc q).key := funext fun q => (h q).1

omit [DecidableEq B] in
/-- The lock, after process `p` went to `c`. -/
theorem lock_goto {pc pc' : P → Pc B} {l l' : Option (Owner P)} {p : P} {c : Pc B}
    (h : ∀ q, (pc q).holds = true ↔ l = some (.proc q)) (hs : SamePc pc pc')
    (hp : c.holds = true ↔ l' = some (.proc p))
    (hl : ∀ q, q ≠ p → (l' = some (.proc q) ↔ l = some (.proc q))) :
    ∀ q, (Function.update pc' p c q).holds = true ↔ l' = some (.proc q) := by
  intro q
  by_cases hq : q = p
  · subst hq
    rw [Function.update_self]
    exact hp
  · rw [Function.update_of_ne hq, (hs q).2.2, hl q hq]
    exact h q

omit [DecidableEq B] in
/-- The buffers, after process `p` went to `c`. -/
theorem bufs_goto {pc pc' : P → Pc B} {p : P} {c : Pc B}
    (h : ∀ q q' b, (pc q).buf = some b → (pc q').buf = some b → q = q') (hs : SamePc pc pc')
    (hc : ∀ b, c.buf = some b → ∀ q, q ≠ p → (pc q).buf ≠ some b) :
    ∀ q q' b, (Function.update pc' p c q).buf = some b → (Function.update pc' p c q').buf = some b →
      q = q' := by
  have hbuf : ∀ q, q ≠ p → (Function.update pc' p c q).buf = (pc q).buf := by
    intro q hq
    rw [Function.update_of_ne hq, (hs q).2.1]
  intro q q' b hq hq'
  by_cases hqp : q = p
  · by_cases hqp' : q' = p
    · rw [hqp, hqp']
    · rw [hqp, Function.update_self] at hq
      rw [hbuf q' hqp'] at hq'
      exact absurd hq' (hc b hq q' hqp')
  · rw [hbuf q hqp] at hq
    by_cases hqp' : q' = p
    · rw [hqp', Function.update_self] at hq'
      exact absurd hq (hc b hq' q hqp)
    · rw [hbuf q' hqp'] at hq'
      exact h q q' b hq hq'

section

omit [DecidableEq P] [DecidableEq B]

/-- A process that stays in its call keeps its buffer. -/
theorem DiskInv.keep {s : Sys P B} (h : DiskInv s) {p : P} {c c' : Pc B} (hp : s.pc p = c)
    (hb : c'.buf = c.buf) : ∀ b, c'.buf = some b → ∀ q, q ≠ p → (s.pc q).buf ≠ some b := by
  intro b hc q hq hqb
  exact hq (h.bufs q p b hqb (by rw [hp, ← hb]; exact hc))

/-- Past `put`, and before, only the process that holds the lock. -/
theorem DiskInv.only {s : Sys P B} (h : DiskInv s) {p : P} (hl : s.lock = some (.proc p)) :
    ∀ q φ c x, (s.pc q).key = some (φ, c, x) → φ ≠ .out → q = p := by
  intro q φ c x hq hφ
  have hh : (s.pc q).holds = true := by
    unfold Pc.key at hq
    split at hq <;> cases hq
    all_goals first
      | exact absurd rfl hφ
      | (next hpc => rw [hpc]; rfl)
  have hlq := (h.lock q).mp hh
  rw [hl] at hlq
  cases hlq
  rfl

/-- What a process at a place with the lock tells. -/
theorem DiskInv.held {s : Sys P B} (h : DiskInv s) {p : P} {c : Pc B} (hp : s.pc p = c)
    (hc : c.holds = true) : s.lock = some (.proc p) := (h.lock p).mp (hp ▸ hc)

theorem DiskInv.key {s : Sys P B} {p : P} {c : Pc B} (hp : s.pc p = c) :
    (fun q => (s.pc q).key) p = c.key := by rw [← hp]

end

section

omit [DecidableEq B]

theorem update_same {k : Reqs P B} {p : P} {y : Option (Phase × Call B × Chain)} (h : k p = y) :
    Function.update k p y = k := h ▸ Function.update_eq_self p k

/-- The phase of a request moves, the descriptors stay. -/
theorem Owns.phase {free : Nat → Bool} {k : Reqs P B} (h : Owns free k) {p : P} {φ φ' : Phase}
    {c : Call B} {x : Chain} (hp : k p = some (φ, c, x)) :
    Owns free (Function.update k p (some (φ', c, x))) := by
  refine h.move fun q => ?_
  by_cases hq : q = p
  · subst hq
    rw [Function.update_self, hp]
    rfl
  · rw [Function.update_of_ne hq]

/-- A call begins. -/
theorem inv_enter {s : Sys P B} (h : DiskInv s) {p : P} {c : Call B} (hp : s.pc p = .user)
    (hd : ∀ q, (s.pc q).buf ≠ some c.b) : DiskInv (s.goto p (.early .enter c)) := by
  have hk : (fun q => (Function.update s.pc p (.early .enter c) q).key) = fun q =>
    (s.pc q).key := by
    rw [key_goto]
    exact update_same ((DiskInv.key hp).trans rfl)
  refine ⟨lock_goto h.lock (.refl _) ?_ fun _ _ => .rfl, bufs_goto h.bufs (.refl _) ?_,
    hk ▸ h.owns, hk ▸ h.flow, h.panicked⟩
  · show false = true ↔ s.lock = some (.proc p)
    rw [← h.lock p, hp]
    exact Iff.rfl
  · rintro b hb q -
    cases hb
    exact hd q

theorem wake_same (s : Sys P B) (p : P) : SamePc s.pc (s.goto p (s.pc p).wake).pc := by
  intro q
  unfold Sys.goto
  dsimp only
  by_cases hq : q = p
  · subst hq
    rw [Function.update_self]
    unfold Pc.wake
    split
    next hc => rw [hc]; exact ⟨rfl, rfl, rfl⟩
    next hc => rw [hc]; exact ⟨rfl, rfl, rfl⟩
    next => exact ⟨rfl, rfl, rfl⟩
  · rw [Function.update_of_ne hq]
    exact ⟨rfl, rfl, rfl⟩

end

omit [DecidableEq P] [DecidableEq B] in
/-- Only processes were woken. -/
theorem inv_same {s : Sys P B} (h : DiskInv s) {pc : P → Pc B} (hs : SamePc s.pc pc) :
    DiskInv { s with pc := pc } := by
  refine ⟨?_, ?_, key_same hs ▸ h.owns, key_same hs ▸ h.flow, h.panicked⟩
  · intro q
    rw [(hs q).2.2]
    exact h.lock q
  · intro q q' b hq hq'
    rw [(hs q).2.1] at hq
    rw [(hs q').2.1] at hq'
    exact h.bufs q q' b hq hq'

section

omit [DecidableEq B]

theorem inv_acquire {s : Sys P B} (h : DiskInv s) {p : P} {c c' : Pc B} (hl : s.lock = none)
    (hp : s.pc p = c) (hk : c'.key = c.key) (hb : c'.buf = c.buf) (hc : c'.holds = true) :
    DiskInv ({ s with lock := some (.proc p) }.goto p c') := by
  have hkey : (fun q => (Function.update s.pc p c' q).key) = fun q => (s.pc q).key := by
    rw [key_goto]
    exact update_same ((DiskInv.key hp).trans hk.symm)
  refine ⟨lock_goto h.lock (.refl _) ?_ ?_, bufs_goto h.bufs (.refl _) (h.keep hp hb),
    hkey ▸ h.owns, hkey ▸ h.flow, h.panicked⟩
  · exact ⟨fun _ => rfl, fun _ => hc⟩
  · intro q hq
    show some (Owner.proc p) = some (.proc q) ↔ s.lock = _
    rw [hl]
    constructor
    · intro he
      cases he
      exact absurd rfl hq
    · intro he
      cases he

/-- Process `p` keeps the lock. -/
theorem DiskInv.still {s : Sys P B} (h : DiskInv s) {p : P} {c c' : Pc B} (hp : s.pc p = c)
    (hc : c.holds = true) (hc' : c'.holds = true) :
    ∀ q, (Function.update s.pc p c' q).holds = true ↔ s.lock = some (.proc q) :=
  lock_goto h.lock (.refl _) ⟨fun _ => h.held hp hc, fun _ => hc'⟩ fun _ _ => .rfl

/-- Process `p` releases the lock. -/
theorem DiskInv.release {s : Sys P B} (h : DiskInv s) {p : P} {c c' : Pc B} {pc : P → Pc B}
    (hs : SamePc s.pc pc) (hp : s.pc p = c) (hc : c.holds = true) (hc' : c'.holds = false) :
    ∀ q, (Function.update pc p c' q).holds = true ↔ (none : Option (Owner P)) = some (.proc q) := by
  refine lock_goto h.lock hs ?_ ?_
  · rw [hc']
    exact ⟨fun he => (Bool.false_ne_true he).elim, fun he => absurd he.symm (Option.some_ne_none _)⟩
  · intro q hq
    rw [h.held hp hc]
    constructor
    · intro he
      cases he
    · intro he
      cases he
      exact absurd rfl hq

theorem inv_alloc {s : Sys P B} (h : DiskInv s) {p : P} {c : Call B} {x : Chain}
    (hp : s.pc p = .early .alloc c) (hnd : x.list.Nodup)
    (hx : ∀ i, i ∈ x.list → i < NUM ∧ s.disk.free i = true) :
    DiskInv ((((s.setFree x.i0 false).setFree x.i1 false).setFree x.i2 false).goto p
      (.late .format c x)) := by
  have hk := DiskInv.key hp
  refine ⟨h.still hp rfl rfl, bufs_goto h.bufs (.refl _) (h.keep hp rfl), ?_, ?_, h.panicked⟩
  · show Owns (Function.update (Function.update (Function.update _ _ _) _ _) _ _)
      fun q => (Function.update s.pc p _ q).key
    rw [key_goto]
    refine h.owns.alloc hk hnd hx ?_ ?_
    · intro i hi
      simp only [Chain.list, List.mem_cons, List.not_mem_nil, or_false] at hi
      simp only [Function.update_apply]
      rcases hi with rfl | rfl | rfl <;> simp
    · intro i hi
      simp only [Chain.list, List.mem_cons, List.not_mem_nil, or_false, not_or] at hi
      rw [Function.update_of_ne hi.2.2, Function.update_of_ne hi.2.1, Function.update_of_ne hi.1]
  · show Flow _ _ _ _ fun q => (Function.update s.pc p _ q).key
    rw [key_goto]
    exact (h.flow.alloc h.owns fun _ _ => rfl).start hk

theorem inv_full {s s₁ : Sys P B} (h : DiskInv s) {p : P} {c : Call B}
    (hp : s.pc p = .early .alloc c) (hr : Rolled s s₁) :
    DiskInv ({ s₁ with lock := none }.goto p (.early .asleep c)) := by
  obtain ⟨⟨desc, hd, hdesc⟩, hdev, hbusy, -, hpc, hpan, hcomp⟩ := hr
  have hk : (fun q => (Function.update s₁.pc p (.early .asleep c) q).key)
      = fun q => (s.pc q).key := by
    rw [key_goto, key_same hpc]
    exact update_same ((DiskInv.key hp).trans rfl)
  refine ⟨h.release hpc hp rfl rfl, bufs_goto h.bufs hpc (h.keep hp rfl), ?_, ?_,
    hpan.trans h.panicked⟩
  · show Owns s₁.disk.free fun q => (Function.update s₁.pc p _ q).key
    rw [hk, hd]
    exact h.owns
  · show Flow s₁.disk s₁.dev s₁.busy s₁.completed fun q => (Function.update s₁.pc p _ q).key
    rw [hk, hd, hdev, hbusy, hcomp]
    exact h.flow.alloc h.owns hdesc

end

theorem inv_format {s : Sys P B} (h : DiskInv s) {p : P} {c : Call B} {x : Chain}
    (hp : s.pc p = .late .format c x) : DiskInv ((s.format c x).goto p (.late .put c x)) := by
  have hk := DiskInv.key hp
  refine ⟨h.still hp rfl rfl, bufs_goto h.bufs (.refl _) (h.keep hp rfl), ?_, ?_, h.panicked⟩
  · show Owns s.disk.free fun q => (Function.update s.pc p _ q).key
    rw [key_goto]
    exact h.owns.phase hk
  · show Flow (s.disk.formatted c x) _ _ _ fun q => (Function.update s.pc p _ q).key
    rw [key_goto]
    refine h.flow.format h.owns hk ?_
    exact fun q φ c' x' hq hqp he => hqp (h.bufKey hq hk he)

section

omit [DecidableEq B]

theorem inv_put {s : Sys P B} (h : DiskInv s) {p : P} {c : Call B} {x : Chain}
    (hp : s.pc p = .late .put c x) : DiskInv ((s.put x).goto p (.late .publish c x)) := by
  have hk := DiskInv.key hp
  refine ⟨h.still hp rfl rfl, bufs_goto h.bufs (.refl _) (h.keep hp rfl), ?_, ?_, h.panicked⟩
  · show Owns s.disk.free fun q => (Function.update s.pc p _ q).key
    rw [key_goto]
    exact h.owns.phase hk
  · show Flow _ _ _ _ fun q => (Function.update s.pc p _ q).key
    rw [key_goto]
    exact (h.flow.put h.owns hk (h.only (h.held hp rfl))).2

theorem inv_publish {s : Sys P B} (h : DiskInv s) {p : P} {c : Call B} {x : Chain}
    (hp : s.pc p = .late .publish c x) : DiskInv (s.publish.goto p (.late .wait c x)) := by
  have hk := DiskInv.key hp
  refine ⟨h.still hp rfl rfl, bufs_goto h.bufs (.refl _) (h.keep hp rfl), ?_, ?_, h.panicked⟩
  · show Owns s.disk.free fun q => (Function.update s.pc p _ q).key
    rw [key_goto]
    exact h.owns.phase hk
  · show Flow _ _ _ _ fun q => (Function.update s.pc p _ q).key
    rw [key_goto]
    exact (h.flow.publish h.owns hk (h.only (h.held hp rfl))).2

theorem inv_sleep {s : Sys P B} (h : DiskInv s) {p : P} {c : Call B} {x : Chain}
    (hp : s.pc p = .late .wait c x) :
    DiskInv ({ s with lock := none }.goto p (.late .asleep c x)) := by
  have hk : (fun q => (Function.update s.pc p (.late .asleep c x) q).key)
      = fun q => (s.pc q).key := by
    rw [key_goto]
    exact update_same ((DiskInv.key hp).trans rfl)
  exact ⟨h.release (.refl _) hp rfl rfl, bufs_goto h.bufs (.refl _) (h.keep hp rfl), hk ▸ h.owns,
    hk ▸ h.flow, h.panicked⟩

theorem inv_leave {s : Sys P B} (h : DiskInv s) {p : P} {c : Call B} {x : Chain}
    (hp : s.pc p = .late .wait c x) (hb : s.busy c.b = false) :
    DiskInv (s.goto p (.late .finish c x)) := by
  have hk := DiskInv.key hp
  refine ⟨h.still hp rfl rfl, bufs_goto h.bufs (.refl _) (h.keep hp rfl), ?_, ?_, h.panicked⟩
  · show Owns s.disk.free fun q => (Function.update s.pc p _ q).key
    rw [key_goto]
    exact h.owns.phase hk
  · show Flow _ _ _ _ fun q => (Function.update s.pc p _ q).key
    rw [key_goto]
    exact h.flow.leave h.owns hk hb

theorem inv_finish {s : Sys P B} (h : DiskInv s) {p : P} {c : Call B} {x : Chain} {pc : P → Pc B}
    (hp : s.pc p = .late .finish c x) (hpc : SamePc s.pc pc) :
    DiskInv ({ s with disk := s.disk.finished x, lock := none, pc := pc }.goto p .user) := by
  have hk := DiskInv.key hp
  refine ⟨h.release hpc hp rfl rfl, bufs_goto h.bufs hpc ?_, ?_, ?_, h.panicked⟩
  · intro b hb
    cases hb
  · show Owns (Function.update (Function.update (Function.update _ _ _) _ _) _ _)
      fun q => (Function.update pc p _ q).key
    rw [key_goto, key_same hpc]
    refine h.owns.free hk ?_ ?_
    · intro i hi
      simp only [Chain.list, List.mem_cons, List.not_mem_nil, or_false] at hi
      simp only [Function.update_apply]
      rcases hi with rfl | rfl | rfl <;> simp
    · intro i hi
      simp only [Chain.list, List.mem_cons, List.not_mem_nil, or_false, not_or] at hi
      rw [Function.update_of_ne hi.2.2, Function.update_of_ne hi.2.1, Function.update_of_ne hi.1]
  · show Flow _ _ _ _ fun q => (Function.update pc p _ q).key
    rw [key_goto, key_same hpc]
    exact h.flow.free h.owns hk

end

end Xv6.Virtio
