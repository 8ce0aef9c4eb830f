import Xv6.Proc.Machine

/-!
# Who is whose parent: the discipline of `wait_lock`

`kfork` hands a child to its parent, `kexit` hands the children of a process to
`initproc`, `kwait` looks for zombies among the children of its caller, all under
`wait_lock`. `Kin` is what a thread knows about the family while it is inside one
of these: whether it has `wait_lock`, the slot whose lock it has and its state,
the child it is setting up, what its scan of the table has shown so far (`know`),
and whom it has woken since it took the lock (`told`).

> `Keeps initproc me k Δ`: a thread of process `me` that knows `Δ` treats the
> family properly when it goes on with `k`.

`Keeps` runs through the code and says at each assignment what has to be known:
a process makes itself a zombie only when its scan has shown that it has no
children left and its parent has been woken; a zombie is cleared only by somebody
who has taken it out of the family first. The second half of the file checks the
functions of `proc.c`, one lemma each.
-/

namespace Xv6.Proc

open Lib

/-- RUNNABLE, RUNNING or SLEEPING. -/
def Alive : ProcState → Prop
  | .RUNNABLE | .RUNNING | .SLEEPING => True
  | .UNUSED | .USED | .ZOMBIE => False

/-- How far `kfork` is with the child: no context yet; complete but without a
parent; with one. -/
inductive Stage
  | fresh | made | linked
  deriving DecidableEq

/-- What a thread knows of the family. `has` is a slot whose lock it holds, and
the slot's state; `know` is about the parents and the zombies, `told` about the
processes whose `wakeup` is complete, both as long as it holds `wait_lock`;
`owes`: it has given a child to `initproc` and has not woken it yet; `freeing`:
the zombie whose exit status it has copied out. -/
structure Kin where
  wait : Bool
  has : Option (Slot × ProcState)
  own : Option (Slot × Stage)
  know : (Slot → Option Slot) → (Slot → Prop) → Prop
  told : Slot → Prop
  owes : Bool
  freeing : Option Slot

namespace Kin

/-- Knowing nothing. -/
def user : Kin := ⟨false, none, none, fun _ _ => True, fun _ => False, false, none⟩

/-- After `acquire(&wait_lock)`. -/
def lock (Δ : Kin) : Kin :=
  { Δ with
    wait := true, know := fun _ _ => True, told := fun _ => False, owes := false, freeing := none }

/-- After a look at `q->parent`. -/
def saw (Δ : Kin) (q : Slot) (o : Option Slot) : Kin :=
  { Δ with know := fun P Z => Δ.know P Z ∧ P q = o }

/-- After the release of a `p->lock`: whether that slot is a zombie stays known
under `wait_lock`. -/
def drop (Δ : Kin) : Kin :=
  { Δ with
    has := none
    know := fun P Z => Δ.know P Z ∧
      (Δ.wait = true → ∀ q st, Δ.has = some (q, st) → (Z q ↔ st = .ZOMBIE)) }

end Kin

/-- What `kwait` does with the zombie `q` it has found, once `copyout` has
returned. -/
def Code.copied (q : Slot) : Choice → Code
  | .yes => Code.freeproc q <| .release (.proc q) <| .release .wait .done
  | .no | .wake _ | .wait _ => .release (.proc q) <| .release .wait .done

/-- `Assigns initproc me Δ q f Δ₁`: the assignment `f` to slot `q`, by a thread of
process `me` that knows `Δ` before and `Δ₁` after it. -/
inductive Assigns (initproc : Slot) (me : Option Slot) (Δ : Kin) (q : Slot) (f : Proc → Proc) :
    Kin → Prop
  /-- The state stays, and so do a zombie's `pid` and `xstate` until they have
  been returned. -/
  | keep {st} (hh : Δ.has = some (q, st)) (hf : ∀ r, (f r).state = r.state)
      (hz : st = .ZOMBIE → Δ.freeing = some q ∧ Δ.wait = true ∨
        ∀ r, (f r).pid = r.pid ∧ (f r).xstate = r.xstate) : Assigns initproc me Δ q f Δ
  | move {st st'} (hh : Δ.has = some (q, st)) (ha : Alive st) (ha' : Alive st')
      (hf : ∀ r, (f r).state = st') : Assigns initproc me Δ q f { Δ with has := some (q, st') }
  | claim (hh : Δ.has = some (q, .UNUSED)) (hme : me ≠ some q) (ho : Δ.own = none)
      (hf : ∀ r, (f r).state = .USED) :
      Assigns initproc me Δ q f { Δ with has := some (q, .USED), own := some (q, .fresh) }
  | start (hh : Δ.has = some (q, .USED)) (ho : Δ.own = some (q, .linked))
      (hf : ∀ r, (f r).state = .RUNNABLE) :
      Assigns initproc me Δ q f { Δ with has := some (q, .RUNNABLE), own := none }
  /-- Nobody is a child of `q` any more, and its parent is awake. -/
  | exit (hme : me = some q) (hh : Δ.has = some (q, .RUNNING)) (hq : q ≠ initproc)
      (hw : Δ.wait = true) (ho : Δ.own = none) (hfr : Δ.freeing = none)
      (hf : ∀ r, f r = { r with state := .ZOMBIE })
      (hkids : ∀ P Z, Δ.know P Z → ∀ x, P x ≠ some q)
      (htold : ∀ P Z, Δ.know P Z → ∀ o, P q = some o → Δ.told o) :
      Assigns initproc me Δ q f { Δ with has := some (q, .ZOMBIE), know := fun _ _ => True }
  | reap (hh : Δ.has = some (q, .ZOMBIE)) (hw : Δ.wait = true) (hz : Δ.freeing = some q)
      (hk : ∀ P Z, Δ.know P Z → P q = none) (hf : ∀ r, (f r).state = .UNUSED) :
      Assigns initproc me Δ q f
        { Δ with has := some (q, .UNUSED), know := fun _ _ => True, freeing := none }
  | drop {g} (hh : Δ.has = some (q, .USED)) (ho : Δ.own = some (q, g)) (hg : g ≠ .linked)
      (hf : ∀ r, (f r).state = .UNUSED) :
      Assigns initproc me Δ q f { Δ with has := some (q, .UNUSED), own := none }

/-- `Links initproc me Δ q o Δ₁`: the assignment `q->parent = o`. -/
inductive Links (initproc : Slot) (me : Option Slot) (Δ : Kin) (q : Slot) :
    Option Slot → Kin → Prop
  | link {p} (hme : me = some p) (hw : Δ.wait = true) (ho : Δ.own = some (q, .made)) :
      Links initproc me Δ q (some p)
        { Δ with own := some (q, .linked), know := fun _ _ => True }
  | hand {p} (hme : me = some p) (hw : Δ.wait = true) (ho : Δ.own = none)
      (hk : ∀ P Z, Δ.know P Z → P q = some p) :
      Links initproc me Δ q (some initproc)
        { Δ with
          owes := true
          know := fun P Z => ∃ P₀, Δ.know P₀ Z ∧ P = Function.update P₀ q (some initproc) }
  | clear (hw : Δ.wait = true) (hh : Δ.has = some (q, .ZOMBIE)) (hz : Δ.freeing = some q) :
      Links initproc me Δ q none { Δ with know := fun P _ => P q = none }
  | clearOwn {g} (ho : Δ.own = some (q, g)) (hg : g ≠ .linked) : Links initproc me Δ q none Δ

/-- A thread of process `me` that knows the view treats the family properly when
it goes on with the code. -/
def Keeps (initproc : Slot) (me : Option Slot) : Code → Kin → Prop
  | .done, Δ => Δ.wait = false ∧ Δ.own = none
  | .halt, _ | .panic, _ => True
  | .acquire l k, Δ =>
    match l with
    | .proc q => ∀ st, (me = some q → st = .RUNNING) → (∀ g, Δ.own = some (q, g) → st = .USED) →
        Keeps initproc me k { Δ with has := some (q, st) }
    | .wait => Δ.wait = false ∧ Keeps initproc me k Δ.lock
    | .obj _ => Keeps initproc me k Δ
  | .release l k, Δ =>
    match l with
    | .proc _ => Keeps initproc me k Δ.drop
    | .wait => Δ.wait = true ∧ Δ.owes = false ∧ Δ.freeing = none ∧
        Keeps initproc me k { Δ with wait := false }
    | .obj _ => Keeps initproc me k Δ
  | .read q k, Δ => ∀ r, (∀ st, Δ.has = some (q, st) → r.state = st) → Keeps initproc me (k r) Δ
  | .write q f k, Δ => ∃ Δ₁, Assigns initproc me Δ q f Δ₁ ∧ Keeps initproc me k Δ₁
  | .readParent q k, Δ => Δ.wait = true ∧ ∀ o, Keeps initproc me (k o) (Δ.saw q o)
  | .writeParent q o k, Δ => ∃ Δ₁, Links initproc me Δ q o Δ₁ ∧ Keeps initproc me k Δ₁
  | .allocpid k, Δ => ∀ pid, Keeps initproc me (k pid) Δ
  | .context q k, Δ => Δ.own = some (q, .fresh) ∧
      Keeps initproc me k { Δ with own := some (q, .made) }
  | .setProc _ k, Δ | .checkSched _ k, Δ | .save k, Δ => Keeps initproc me k Δ
  | .load o k, Δ => Δ.wait = false ∧
    match o with
    | none => ∀ p, me = some p → Keeps initproc me k { Δ with has := some (p, .RUNNING) }
    | some _ => Keeps initproc me k { Δ with has := none }
  | .choose k, Δ =>
    ((∀ q, k ≠ Code.copied q) ∧ ∀ a, Keeps initproc me (k a) Δ) ∨
    ∃ q p, k = Code.copied q ∧ me = some p ∧ Δ.wait = true ∧ Δ.has = some (q, .ZOMBIE) ∧
      Δ.freeing = none ∧ (∀ P Z, Δ.know P Z → P q = some p) ∧
      Keeps initproc me (k .yes) { Δ with freeing := some q } ∧
      ∀ a, a ≠ .yes → Keeps initproc me (k a) Δ
  | .note e k, Δ =>
    match e with
    | .tested p _ l =>
      match l with
      | .wait => Δ.wait = true ∧ (∀ P Z, Δ.know P Z → ∀ x, ¬(P x = some p ∧ Z x)) ∧
          Keeps initproc me k { Δ with told := fun _ => False }
      | .proc _ | .obj _ => Keeps initproc me k Δ
    | .woken ch l =>
      match l with
      | .wait =>
        match ch with
        | .proc o => Keeps initproc me k
            { Δ with told := fun x => Δ.told x ∨ x = o, owes := Δ.owes && (o != initproc) }
        | .obj _ => Keeps initproc me k Δ
      | .proc _ | .obj _ => Keeps initproc me k Δ
    | .marked _ _ => Keeps initproc me k Δ
  | .jump l, Δ =>
    match l with
    | .kwait p => me = some p ∧ Δ.wait = true ∧ Δ.has = none ∧ Δ.own = none ∧ Δ.owes = false ∧
        Δ.freeing = none
    | .crit p _ => me = some p ∧ Δ.wait = false ∧ Δ.has = none ∧ Δ.own = none

/-! ## The functions of `proc.c` -/

open Code

variable {v : Version} {initproc p q : Slot} {me : Option Slot} {k : Code} {Δ : Kin}

/-- Without `wait_lock` nothing is learnt. -/
theorem Kin.drop_free (hw : Δ.wait = false) : Δ.drop = { Δ with has := none } := by
  unfold Kin.drop
  congr 1
  funext P Z
  simp [hw]

/-- Back from a look at one slot, without `wait_lock`. -/
theorem keeps_release {st : ProcState} (hw : Δ.wait = false) (hh : Δ.has = none)
    (hk : Keeps initproc me k Δ) :
    Keeps initproc me (.release (.proc q) k) { Δ with has := some (q, st) } := by
  show Keeps initproc me k (Kin.drop { Δ with has := some (q, st) })
  rw [Kin.drop_free (by exact hw)]
  show Keeps initproc me k { Δ with has := none }
  rw [← hh]
  exact hk

/-- An assignment that keeps the state. -/
theorem keeps_keep {f : Proc → Proc} {st : ProcState} (hh : Δ.has = some (q, st))
    (hf : ∀ r, (f r).state = r.state)
    (hz : st = .ZOMBIE → Δ.freeing = some q ∧ Δ.wait = true ∨
      ∀ r, (f r).pid = r.pid ∧ (f r).xstate = r.xstate)
    (hk : Keeps initproc me k Δ) : Keeps initproc me (.write q f k) Δ :=
  ⟨Δ, .keep hh hf hz, hk⟩

/-- An assignment to a slot that is not a zombie. -/
theorem keeps_put {f : Proc → Proc} {st : ProcState} (hh : Δ.has = some (q, st))
    (hst : st ≠ .ZOMBIE) (hf : ∀ r, (f r).state = r.state) (hk : Keeps initproc me k Δ) :
    Keeps initproc me (.write q f k) Δ :=
  keeps_keep hh hf (fun hz => absurd hz hst) hk

/-- `acquire(&q->lock)` and a look at the slot. -/
theorem keeps_look {f : Proc → Code}
    (h : ∀ r, (me = some q → r.state = .RUNNING) → (∀ g, Δ.own = some (q, g) → r.state = .USED) →
      Keeps initproc me (f r) { Δ with has := some (q, r.state) }) :
    Keeps initproc me (.acquire (.proc q) (.read q f)) Δ := by
  intro st hme hown r hr
  obtain rfl := hr st rfl
  exact h r hme hown

theorem keeps_read {f : Proc → Code} {st : ProcState} (hh : Δ.has = some (q, st))
    (h : ∀ r, r.state = st → Keeps initproc me (f r) Δ) : Keeps initproc me (.read q f) Δ :=
  fun r hr => h r (hr st hh)

theorem keeps_readParent {f : Option Slot → Code} (hw : Δ.wait = true)
    (h : ∀ o, Keeps initproc me (f o) (Δ.saw q o)) : Keeps initproc me (.readParent q f) Δ :=
  ⟨hw, h⟩

/-- A process that is neither free nor a zombie changes its state. -/
theorem keeps_move {f : Proc → Proc} {st : ProcState} (st' : ProcState)
    (hh : Δ.has = some (q, st)) (ha : Alive st) (ha' : Alive st') (hf : ∀ r, (f r).state = st')
    (hk : Keeps initproc me k { Δ with has := some (q, st') }) :
    Keeps initproc me (.write q f k) Δ :=
  ⟨_, .move hh ha ha' hf, hk⟩

theorem keeps_sched (hw : Δ.wait = false)
    (hk : Keeps initproc (some p) k { Δ with has := some (p, .RUNNING) }) :
    Keeps initproc (some p) (sched p k) Δ := by
  refine ⟨hw, fun p' hp' => ?_⟩
  cases hp'
  exact hk

theorem keeps_yield (hw : Δ.wait = false) (hh : Δ.has = none) (hk : Keeps initproc (some p) k Δ) :
    Keeps initproc (some p) (yield v p k) Δ := by
  intro st hme _
  obtain rfl : st = .RUNNING := hme rfl
  refine keeps_put rfl (by decide) (fun _ => rfl) ?_
  refine keeps_move .RUNNABLE rfl trivial trivial (fun _ => rfl) ?_
  have hback : Keeps initproc (some p) (.release (.proc p) k)
    { Δ with has := some (p, .RUNNING) } :=
    keeps_release hw hh hk
  exact keeps_sched hw hback

theorem keeps_forkret (h : Δ.wait = false) (ho : Δ.own = none) :
    Keeps initproc (some p) (forkret p) Δ := by
  show Keeps initproc (some p) .done Δ.drop
  rw [Kin.drop_free h]
  exact ⟨h, ho⟩

/-- `wakeup` leaves its caller where it was, wiser about zombies if it has
`wait_lock`. -/
theorem keeps_wakeup {ch : Option WaitChan} (qs : List Slot) {Δ : Kin} (hh : Δ.has = none)
    (hk : ∀ know, (∀ P Z, know P Z → Δ.know P Z) → (Δ.wait = false → know = Δ.know) →
      Keeps initproc me k { Δ with know := know }) :
    Keeps initproc me (wakeup v me ch qs k) Δ := by
  induction qs generalizing Δ with
  | nil => exact hk Δ.know (fun _ _ h => h) fun _ => rfl
  | cons q qs ih =>
    unfold wakeup
    split
    next => exact ih hh hk
    next =>
      -- the rest of the loop, from a view that has seen `q` in state `st`
      have hrest : ∀ st, Keeps initproc me (.release (.proc q) (wakeup v me ch qs k))
          { Δ with has := some (q, st) } := by
        intro st
        by_cases hw : Δ.wait = true
        · refine ih rfl fun know hknow _ => ?_
          have hk' := hk know (fun P Z h => (hknow P Z h).1) fun hf =>
            absurd (hw.symm.trans hf) (by decide)
          rw [hh] at hk'
          exact hk'
        · exact keeps_release (by simpa using hw) hh (ih hh hk)
      refine keeps_look fun r _ _ => ?_
      split
      next hs =>
        refine keeps_move .RUNNABLE rfl (by rw [hs.1]; trivial) trivial (fun _ => rfl) ?_
        unfold boost
        split
        · exact keeps_put rfl (by decide) (fun _ => rfl) (hrest _)
        · exact hrest _
      next hs => exact hrest _

/-- A thread that has `wait_lock` and nothing else to see to. -/
structure Kin.Holds (Δ : Kin) : Prop where
  wait : Δ.wait = true
  has : Δ.has = none
  own : Δ.own = none
  owes : Δ.owes = false
  freeing : Δ.freeing = none

/-- A thread that holds nothing. -/
structure Kin.Calm (Δ : Kin) : Prop where
  wait : Δ.wait = false
  has : Δ.has = none
  own : Δ.own = none

theorem Kin.Calm.done (h : Δ.Calm) : Keeps initproc me .done Δ := ⟨h.wait, h.own⟩

/-- Dropping `wait_lock`. -/
theorem Kin.Holds.done (h : Δ.Holds) : Keeps initproc me (.release .wait .done) Δ :=
  ⟨h.wait, h.owes, h.freeing, rfl, h.own⟩

theorem keeps_kkill {pid : BitVec 32} (h : Δ.Calm) (hk : Keeps initproc me k Δ) (qs : List Slot) :
    Keeps initproc me (kkill pid qs k) Δ := by
  induction qs with
  | nil => exact hk
  | cons q qs ih =>
    refine keeps_look fun r _ _ => ?_
    split
    next =>
      refine keeps_keep rfl (fun _ => rfl) (fun _ => .inr fun _ => ⟨rfl, rfl⟩) ?_
      refine keeps_read rfl fun r' hst => ?_
      split
      next hs =>
        refine keeps_move .RUNNABLE rfl (by rw [← hst, hs]; trivial) trivial (fun _ => rfl) ?_
        show Keeps initproc me (.release (.proc q) k) { Δ with has := some (q, .RUNNABLE) }
        exact keeps_release h.wait h.has hk
      next =>
        show Keeps initproc me (.release (.proc q) k) { Δ with has := some (q, r.state) }
        exact keeps_release h.wait h.has hk
    next => exact keeps_release h.wait h.has ih

theorem keeps_setkilled (h : Δ.Calm) (hk : Keeps initproc (some p) k Δ) :
    Keeps initproc (some p) (setkilled p k) Δ := by
  intro st _ _
  refine keeps_keep rfl (fun _ => rfl) (fun _ => .inr fun _ => ⟨rfl, rfl⟩) ?_
  exact keeps_release h.wait h.has hk

/-- The assignments of `freeproc` up to the parent, and from there to the state,
for a slot held in state `st`. -/
theorem keeps_freeproc {st : ProcState} {Δ₁ : Kin} (hh : Δ.has = some (q, st))
    (hz : st = .ZOMBIE → Δ.freeing = some q ∧ Δ.wait = true) (hl : Links initproc me Δ q none Δ₁)
    (hh₁ : Δ₁.has = some (q, st)) (hz₁ : st = .ZOMBIE → Δ₁.freeing = some q ∧ Δ₁.wait = true)
    (hk : Keeps initproc me (setState q .UNUSED k) Δ₁) :
    Keeps initproc me (freeproc q k) Δ := by
  refine keeps_keep hh (fun _ => rfl) (fun h => .inl (hz h)) ?_
  refine keeps_keep hh (fun _ => rfl) (fun h => .inl (hz h)) ?_
  refine keeps_keep hh (fun _ => rfl) (fun h => .inl (hz h)) ?_
  refine ⟨Δ₁, hl, ?_⟩
  refine keeps_keep hh₁ (fun _ => rfl) (fun h => .inl (hz₁ h)) ?_
  refine keeps_keep hh₁ (fun _ => rfl) (fun h => .inl (hz₁ h)) ?_
  refine keeps_keep hh₁ (fun _ => rfl) (fun h => .inl (hz₁ h)) ?_
  exact keeps_keep hh₁ (fun _ => rfl) (fun h => .inl (hz₁ h)) hk

/-- `freeproc` of the child a thread is setting up. -/
theorem keeps_freeproc_own {g : Stage} (hh : Δ.has = some (q, .USED)) (ho : Δ.own = some (q, g))
    (hg : g ≠ .linked)
    (hk : Keeps initproc me k { Δ with has := some (q, .UNUSED), own := none }) :
    Keeps initproc me (freeproc q k) Δ :=
  keeps_freeproc hh (fun h => absurd h (by decide)) (.clearOwn ho hg) hh
    (fun h => absurd h (by decide))
    ⟨_, .drop hh ho hg fun _ => rfl, hk⟩

/-- `freeproc` of a zombie whose exit status has been copied out. -/
theorem keeps_freeproc_zombie (hw : Δ.wait = true) (hh : Δ.has = some (q, .ZOMBIE))
    (hz : Δ.freeing = some q)
    (hk : ∀ know, Keeps initproc me k
      { Δ with has := some (q, .UNUSED), know := know, freeing := none }) :
    Keeps initproc me (freeproc q k) Δ :=
  keeps_freeproc hh (fun _ => ⟨hz, hw⟩) (.clear hw hh hz) hh (fun _ => ⟨hz, hw⟩)
    ⟨_, .reap hh hw hz (fun _ _ h => h) fun _ => rfl, hk _⟩

/-- A choice other than the one of `kwait`. -/
theorem keeps_choose {f : Choice → Code} (hf : ∀ q, f .yes ≠ Code.copied q .yes)
    (hk : ∀ a, Keeps initproc me (f a) Δ) : Keeps initproc me (.choose f) Δ :=
  .inl ⟨fun q he => hf q (congrFun he _), hk⟩

/-- `allocproc` comes back with a USED slot of its own, locked, or with
nothing. -/
theorem keeps_allocproc {f : Option Slot → Code} (h : Δ.Calm)
    (hnone : Keeps initproc me (f none) Δ)
    (hsome : ∀ q, Keeps initproc me (f (some q))
      { Δ with has := some (q, .USED), own := some (q, .made) })
    (qs : List Slot) : Keeps initproc me (allocproc f qs) Δ := by
  induction qs with
  | nil => exact hnone
  | cons q qs ih =>
    refine keeps_look fun r hme _ => ?_
    split
    next hs =>
      have hq : me ≠ some q := by
        intro he
        rw [hme he] at hs
        cases hs
      rw [hs]
      -- what the two failures have in common
      have hfail : Keeps initproc me (freeproc q <| .release (.proc q) <| f none)
          { Δ with has := some (q, .USED), own := some (q, .fresh) } := by
        refine keeps_freeproc_own rfl rfl (by decide) ?_
        show Keeps initproc me (.release (.proc q) (f none))
          { Δ with has := some (q, .UNUSED), own := none }
        rw [← h.own]
        exact keeps_release h.wait h.has hnone
      intro pid
      refine keeps_put rfl (by decide) (fun _ => rfl) ?_
      refine ⟨_, .claim rfl hq h.own fun _ => rfl, ?_⟩
      refine keeps_put rfl (by decide) (fun _ => rfl) ?_
      refine keeps_choose (fun q' he => ?_) fun a => ?_
      · have htf := congrFun (Code.write.inj he).2.1 Proc.boot
        exact absurd (congrArg Proc.trapframe htf) (by decide)
      split
      · refine keeps_put rfl (by decide) (fun _ => rfl) ?_
        refine keeps_choose (fun q' he => ?_) fun b => ?_
        · have hpt := congrFun (Code.write.inj he).2.1 { Proc.boot with trapframe := true }
          exact absurd (congrArg Proc.trapframe hpt) (by decide)
        split
        · refine keeps_put rfl (by decide) (fun _ => rfl) ?_
          exact ⟨rfl, hsome q⟩
        · exact keeps_put rfl (by decide) (fun _ => rfl) hfail
      · exact keeps_put rfl (by decide) (fun _ => rfl) hfail
    next => exact keeps_release h.wait h.has ih

theorem keeps_kfork (h : Δ.Calm) (hk : ∀ Δ' : Kin, Δ'.Calm → Keeps initproc (some p) k Δ') :
    Keeps initproc (some p) (kfork p k) Δ := by
  refine keeps_allocproc h (hk Δ h) (fun np => ?_) slots
  refine keeps_choose (fun q' he => nomatch he) fun a => ?_
  split
  · show Keeps initproc (some p) _
      (Kin.drop { Δ with has := some (np, .USED), own := some (np, .made) })
    rw [Kin.drop_free (by exact h.wait)]
    refine ⟨h.wait, _, .link rfl rfl rfl, rfl, rfl, rfl, ?_⟩
    intro st _ hst
    obtain rfl := hst _ rfl
    refine ⟨_, .start rfl rfl fun _ => rfl, ?_⟩
    show Keeps initproc (some p) k (Kin.drop _)
    exact hk _ ⟨rfl, rfl, rfl⟩
  · refine keeps_freeproc_own rfl rfl (by decide) ?_
    show Keeps initproc (some p) k (Kin.drop _)
    exact hk _ ⟨h.wait, rfl, rfl⟩

/-- A complete `wakeup` of a process under `wait_lock`. -/
theorem keeps_wakeup_proc {o : Slot} {Δ : Kin} (hh : Δ.has = none)
    (hk : ∀ know, (∀ P Z, know P Z → Δ.know P Z) → Keeps initproc me k
      { Δ with
        know := know
        told := fun x => Δ.told x ∨ x = o
        owes := Δ.owes && (o != initproc) }) :
    Keeps initproc me (wakeup v me (some (.proc o)) slots <| .note (.woken (.proc o) .wait) k) Δ :=
  keeps_wakeup slots hh fun know hknow _ => hk know hknow

/-- `reparent` leaves its caller without children. -/
theorem keeps_reparent (hp : p ≠ initproc) (qs : List Slot) {Δ : Kin} (h : Δ.Holds)
    (hq : ∀ P Z, Δ.know P Z → ∀ x, x ∈ qs ∨ P x ≠ some p)
    (hk : ∀ Δ' : Kin, Δ'.Holds → (∀ P Z, Δ'.know P Z → ∀ x, P x ≠ some p) →
      Keeps initproc (some p) k Δ') :
    Keeps initproc (some p) (reparent v initproc p qs k) Δ := by
  induction qs generalizing Δ with
  | nil => exact hk Δ h fun P Z hkn x => (hq P Z hkn x).resolve_left List.not_mem_nil
  | cons q qs ih =>
    refine keeps_readParent h.wait fun o => ?_
    split
    next ho =>
      refine ⟨_, .hand rfl h.wait h.own fun P Z hkn => hkn.2.trans ho, ?_⟩
      refine keeps_wakeup_proc h.has fun know hknow => ?_
      refine ih ⟨h.wait, h.has, h.own, by simp, h.freeing⟩ fun P Z hkn x => ?_
      obtain ⟨P₀, hP₀, rfl⟩ := hknow P Z hkn
      by_cases hx : x = q
      · right
        rw [hx, Function.update_self]
        exact fun he => hp (Option.some.inj he).symm
      · rw [Function.update_of_ne hx]
        exact (hq P₀ Z hP₀.1 x).imp_left fun hm => (List.mem_cons.mp hm).resolve_left hx
    next ho =>
      refine ih ⟨h.wait, h.has, h.own, h.owes, h.freeing⟩ fun P Z hkn x => ?_
      by_cases hx : x = q
      · exact .inr fun he => ho (hkn.2.symm.trans (hx ▸ he))
      · exact (hq P Z hkn.1 x).imp_left fun hm => (List.mem_cons.mp hm).resolve_left hx

/-- The zombie's last steps. -/
theorem keeps_kexit {status : Int} (h : Δ.Calm) :
    Keeps initproc (some p) (kexit v initproc p status) Δ := by
  unfold kexit
  split
  · trivial
  next hp =>
    refine ⟨h.wait, ?_⟩
    have hlock : Δ.lock.Holds := ⟨rfl, h.has, h.own, rfl, rfl⟩
    refine keeps_reparent hp slots hlock (fun _ _ _ x => .inl (List.mem_finRange x))
      fun Δ₁ h₁ hkids => ?_
    -- what is left to do once the parent, if there is one, has been woken
    have hend : ∀ Δ₂ : Kin, Δ₂.Holds → (∀ P Z, Δ₂.know P Z → ∀ x, P x ≠ some p) →
        (∀ P Z, Δ₂.know P Z → ∀ o, P p = some o → Δ₂.told o) →
        Keeps initproc (some p) (.acquire (.proc p) <| setXstate p status <| setState p .ZOMBIE <|
          .release .wait <| sched p .panic) Δ₂ := by
      intro Δ₂ h₂ hk₂ ht₂ st hst _
      obtain rfl := hst rfl
      refine keeps_put rfl (by decide) (fun _ => rfl) ?_
      refine ⟨_, .exit rfl rfl hp h₂.wait h₂.own h₂.freeing (fun _ => rfl) hk₂ ht₂, ?_⟩
      refine ⟨h₂.wait, h₂.owes, h₂.freeing, ?_⟩
      exact keeps_sched rfl trivial
    refine keeps_readParent h₁.wait fun o => ?_
    cases o with
    | none =>
      refine keeps_wakeup slots h₁.has fun know hknow _ => ?_
      refine hend _ ⟨h₁.wait, h₁.has, h₁.own, h₁.owes, h₁.freeing⟩
        (fun P Z hkn => hkids P Z (hknow P Z hkn).1) fun P Z hkn o ho => ?_
      rw [(hknow P Z hkn).2] at ho
      cases ho
    | some q =>
      refine keeps_wakeup_proc h₁.has fun know hknow => ?_
      refine hend _ ⟨h₁.wait, h₁.has, h₁.own, by simp [Kin.saw, h₁.owes], h₁.freeing⟩
        (fun P Z hkn => hkids P Z (hknow P Z hkn).1) fun P Z hkn o ho => .inr ?_
      rw [(hknow P Z hkn).2] at ho
      exact (Option.some.inj ho).symm

/-- `sleep` by a process that has `wait_lock`, and then `kwait` from the start. -/
theorem keeps_sleep_wait {ch : WaitChan} (h : Δ.Holds) :
    Keeps initproc (some p) (sleep p ch .wait <| .jump (.kwait p)) Δ := by
  intro st hst _
  obtain rfl := hst rfl
  refine ⟨h.wait, h.owes, h.freeing, ?_⟩
  refine keeps_put rfl (by decide) (fun _ => rfl) ?_
  refine keeps_move .SLEEPING rfl trivial trivial (fun _ => rfl) ?_
  refine keeps_sched rfl ?_
  refine keeps_put rfl (by decide) (fun _ => rfl) ?_
  exact ⟨rfl, rfl, rfl, rfl, h.own, rfl, rfl⟩

/-- The scan of `kwait`: the slots passed are not zombies of the caller. -/
theorem keeps_kwaitScan (havekids : Bool) (qs : List Slot) {Δ : Kin} (h : Δ.Holds)
    (hq : ∀ P Z, Δ.know P Z → ∀ x, x ∈ qs ∨ ¬(P x = some p ∧ Z x)) :
    Keeps initproc (some p) (kwaitScan p havekids qs) Δ := by
  induction qs generalizing Δ havekids with
  | nil =>
    unfold kwaitScan
    split
    · refine keeps_look fun r _ _ => ?_
      show Keeps initproc (some p) (if r.killed then _ else _) (Kin.drop _)
      split
      · exact Kin.Holds.done ⟨h.wait, rfl, h.own, h.owes, h.freeing⟩
      · refine ⟨h.wait, fun P Z hkn x => ?_, ?_⟩
        · exact (hq P Z hkn.1 x).resolve_left List.not_mem_nil
        · exact keeps_sleep_wait ⟨h.wait, rfl, h.own, h.owes, h.freeing⟩
    · exact h.done
  | cons q qs ih =>
    refine keeps_readParent h.wait fun o => ?_
    split
    next ho =>
      refine keeps_look fun r _ _ => ?_
      split
      next hs =>
        refine .inr ⟨q, p, ?_, rfl, h.wait, by rw [hs], h.freeing,
          fun P Z hkn => hkn.2.trans ho, ?_,
          fun a ha => ?_⟩
        · funext a
          cases a <;> rfl
        · refine keeps_freeproc_zombie h.wait (by rw [hs]) rfl fun know => ?_
          exact Kin.Holds.done ⟨h.wait, rfl, h.own, h.owes, rfl⟩
        · cases a with
          | yes => exact absurd rfl ha
          | _ => exact Kin.Holds.done ⟨h.wait, rfl, h.own, h.owes, h.freeing⟩
      next hs =>
        show Keeps initproc (some p) (kwaitScan p true qs) (Kin.drop _)
        refine ih true ⟨h.wait, rfl, h.own, h.owes, h.freeing⟩ fun P Z hkn x => ?_
        by_cases hx : x = q
        · -- the slot just looked at
          exact .inr fun hz => hs ((hkn.2 h.wait q r.state rfl).mp (hx ▸ hz.2))
        · exact (hq P Z hkn.1.1 x).imp_left fun hm => (List.mem_cons.mp hm).resolve_left hx
    next ho =>
      refine ih havekids ⟨h.wait, h.has, h.own, h.owes, h.freeing⟩ fun P Z hkn x => ?_
      by_cases hx : x = q
      · exact .inr fun hz => ho (hkn.2.symm.trans (hx ▸ hz.1))
      · exact (hq P Z hkn.1 x).imp_left fun hm => (List.mem_cons.mp hm).resolve_left hx

theorem keeps_critBody {n : Nat} (h : Δ.Calm) : Keeps initproc (some p) (critBody v p n) Δ := by
  refine keeps_choose (fun q he => nomatch he) fun a => ?_
  split
  · refine keeps_wakeup slots h.has fun know _ _ => ?_
    exact ⟨rfl, h.wait, h.has, h.own⟩
  · -- `sleep` under another lock leaves the family alone
    intro st hst _
    obtain rfl := hst rfl
    refine keeps_put rfl (by decide) (fun _ => rfl) ?_
    refine keeps_move .SLEEPING rfl trivial trivial (fun _ => rfl) ?_
    refine keeps_sched h.wait ?_
    refine keeps_put rfl (by decide) (fun _ => rfl) ?_
    exact ⟨rfl, h.wait, rfl, h.own⟩
  · show Keeps initproc (some p) .done Δ
    exact h.done

/-- The handler of an interrupt that comes while a thread holds nothing. -/
theorem keeps_handler {ch : WaitChan} {n : Nat} (hw : Δ.wait = false) (hh : Δ.has = none)
    (hk : Keeps initproc me k Δ) : Keeps initproc me (handler v me ch n k) Δ := by
  refine keeps_wakeup slots hh fun know _ hknow => ?_
  rw [hknow hw]
  exact hk

theorem keeps_scheduler (best : Slot) (h : Δ.Calm) :
    Keeps initproc none (scheduler best) Δ := by
  refine keeps_look fun r _ _ => ?_
  split
  next hs =>
    refine keeps_move .RUNNING rfl (by rw [hs]; trivial) trivial (fun _ => rfl) ?_
    exact ⟨h.wait, h.wait, h.own⟩
  next => exact keeps_release h.wait h.has h.done

/-- Whatever a process asks for, the kernel treats the family properly. -/
theorem keeps_call (cfg : Config) (f : Call) (h : Δ.Calm) :
    Keeps cfg.initproc (some p) (f.code cfg p) Δ := by
  cases f with
  | crit n => exact ⟨rfl, h.wait, h.has, h.own⟩
  | kfork => exact keeps_kfork h fun Δ' h' => h'.done
  | kexit status => exact keeps_kexit h
  | kwait => exact ⟨h.wait, rfl, rfl, h.has, h.own, rfl, rfl⟩
  | kkill pid => exact keeps_kkill h h.done slots
  | setkilled => exact keeps_setkilled h h.done

/-- Loops come back to where the family is in order. -/
theorem keeps_loop {l : Loop} (h : Keeps initproc me (.jump l) Δ) :
    Keeps initproc me (loop v l) Δ := by
  cases l with
  | kwait p =>
    obtain ⟨rfl, hw, hh, ho, howes, hz⟩ := h
    exact keeps_kwaitScan false slots ⟨hw, hh, ho, howes, hz⟩
      fun _ _ _ x => .inl (List.mem_finRange x)
  | crit p n =>
    obtain ⟨rfl, hw, hh, ho⟩ := h
    exact keeps_critBody ⟨hw, hh, ho⟩

end Xv6.Proc
