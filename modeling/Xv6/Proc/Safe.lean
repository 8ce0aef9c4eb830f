import Xv6.Proc.Machine

/-!
# The lock discipline of `proc.c`

What a thread may do next depends on what it holds. `Ctx` is a thread's view of
that: the slot whose lock it has and what it knows of it (`Mode`), the one other
spinlock it may hold, the child it is setting up, the condition it has tested.
`Safe me Γ k` says that the code `k` keeps the discipline from there on; there is
one rule for each thing the kernel does, and most of them are the comments of
`proc.c` turned into premises — "p->lock must be held", "must hold only p->lock
and have changed proc->state", "caller must hold wait_lock".

A thread that has a slot's lock knows the slot's record exactly, because nobody
else may write it: `Mode.held q r`. The other modes are the stations of a
hand-over. A process that leaves goes `leaving` (state changed, still on its own
stack), `left` (context saved); the scheduler then finds itself at `back`. A
scheduler that dispatches goes `picked` (RUNNING), `placed` (`c->proc` set),
`ready` (its own context saved), and the process resumes in `held`.

The second half of the file checks the functions of `proc.c` against the rules,
one lemma each (`safe_sleep`, `safe_wakeup`, ..).
-/

namespace Xv6.Proc

/-- What a thread knows of the slot whose `p->lock` it holds. -/
inductive Mode
  /-- It holds no `p->lock`. -/
  | free
  /-- It holds `q->lock`, and `q`'s record is `r`. -/
  | held (q : Slot) (r : Proc)
  /-- Likewise, `q` being USED without a context yet (`allocproc`). -/
  | fresh (q : Slot) (r : Proc)
  /-- The process itself, no longer RUNNING, on its way into `sched`. -/
  | leaving (q : Slot) (r : Proc)
  /-- Its context is saved. -/
  | left (q : Slot) (r : Proc)
  /-- The scheduler has made `q` RUNNING. -/
  | picked (q : Slot) (r : Proc)
  /-- `c->proc` is `q`. -/
  | placed (q : Slot) (r : Proc)
  /-- The scheduler's context is saved. -/
  | ready (q : Slot) (r : Proc)
  /-- The scheduler is back from `q`. -/
  | back (q : Slot)

/-- The slot whose lock a mode is about. -/
def Mode.slot : Mode → Option Slot
  | .free => none
  | .held q _ | .fresh q _ | .leaving q _ | .left q _ | .picked q _ | .placed q _ | .ready q _
  | .back q => some q

/-- The record a mode knows. -/
def Mode.record : Mode → Option Proc
  | .free | .back _ => none
  | .held _ r | .fresh _ r | .leaving _ r | .left _ r | .picked _ r | .placed _ r | .ready _ r =>
    some r

/-- A thread's view. `own` is the child it is setting up; `lk` the spinlock it
holds besides a `p->lock`; `tst` the channel and lock of the condition it has
found false; `seen` what it has found out, under `lk`, about who is not asleep
on which channel; `par` the parent it last read or wrote; `hit` that its `kkill`
has matched a slot that is UNUSED. -/
structure Ctx where
  mode : Mode
  lk : Option Lock
  own : Option Slot
  tst : Option (WaitChan × Lock)
  seen : Slot → WaitChan → Prop
  par : Option (Slot × Option Slot)
  hit : Prop

namespace Ctx

/-- Holding nothing. -/
def user : Ctx := ⟨.free, none, none, none, fun _ _ => False, none, False⟩

/-- `noff` of the CPU. -/
def count (Γ : Ctx) : Nat :=
  (if Γ.mode.slot = none then 0 else 1) + (if Γ.lk = none then 0 else 1)

/-- `seen` after a look at slot `q` under another lock. -/
def saw (Γ : Ctx) (q : Slot) (r : Proc) : Slot → WaitChan → Prop :=
  fun q' ch => Γ.lk ≠ none ∧
    (Γ.seen q' ch ∨ q' = q ∧ ¬(r.state = .SLEEPING ∧ r.chan = some ch))

end Ctx

/-- A free slot as `allocproc` expects it. -/
structure Clean (r : Proc) : Prop where
  state : r.state = .UNUSED
  chan : r.chan = none
  killed : r.killed = false
  xstate : r.xstate = 0
  trapframe : r.trapframe = false
  pagetable : r.pagetable = false
  priority : r.priority = PRIORITY_BASE

/-- What the taker of `q->lock` may rely on: itself it finds RUNNING, its child
USED. -/
def Entry (me : Option Slot) (Γ : Ctx) (q : Slot) (r : Proc) : Prop :=
  (me = some q → r.state = .RUNNING) ∧ (Γ.own = some q → r.state = .USED)

/-- The three ways to give up the CPU. -/
inductive Leave (Γ : Ctx) (r : Proc) : Prop
  | yields (hs : r.state = .RUNNABLE) (ht : Γ.tst = none)
  | sleeps (hs : r.state = .SLEEPING) {ch : WaitChan} {l : Lock} (ht : Γ.tst = some (ch, l))
      (hc : r.chan = some ch)
  | exits (hs : r.state = .ZOMBIE) (ht : Γ.tst = none) (ho : Γ.own = none)

/-- A lock other than a `p->lock`. -/
def Lock.Other (l : Lock) : Prop := ∀ q, l ≠ .proc q

/-- `Assign me Γ q f Γ₁`: a thread of process `me` with the view `Γ` may make the
assignment `f` to slot `q`, and then has the view `Γ₁`. -/
inductive Assign (me : Option Slot) (Γ : Ctx) (q : Slot) (f : Proc → Proc) : Ctx → Prop
  /-- The state stays. In an UNUSED slot only `pid` and `killed` are ever
  touched. -/
  | same {r} (hm : Γ.mode = .held q r) (hs : (f r).state = r.state)
      (hu : r.state = .UNUSED → ∃ pid b, f r = { r with pid := pid, killed := b } ∧
        (b = true → r.killed = true ∨ Γ.hit))
      (hc : r.state = .SLEEPING → (f r).chan = r.chan) :
      Assign me Γ q f { Γ with mode := .held q (f r) }
  | wake {r} (hm : Γ.mode = .held q r) (hs : r.state = .SLEEPING) (hf : (f r).state = .RUNNABLE) :
      Assign me Γ q f { Γ with mode := .held q (f r) }
  | leave {r} (hme : me = some q) (hm : Γ.mode = .held q r) (hs : r.state = .RUNNING)
      (hf : Leave Γ (f r)) : Assign me Γ q f { Γ with mode := .leaving q (f r) }
  | pick {r} (hme : me = none) (hm : Γ.mode = .held q r) (hs : r.state = .RUNNABLE)
      (hf : (f r).state = .RUNNING) : Assign me Γ q f { Γ with mode := .picked q (f r) }
  | claim {r} (ho : Γ.own = none) (hm : Γ.mode = .held q r) (hs : r.state = .UNUSED)
      (hf : f r = { r with state := .USED }) :
      Assign me Γ q f { Γ with own := some q, par := some (q, none), mode := .fresh q (f r) }
  | fresh {r} (hm : Γ.mode = .fresh q r) (hf : (f r).state = r.state)
      (hkl : (f r).killed = true → r.killed = true) :
      Assign me Γ q f { Γ with mode := .fresh q (f r) }
  | start {r} (ho : Γ.own = some q) (hm : Γ.mode = .held q r) (hs : r.state = .USED)
      (hf : (f r).state = .RUNNABLE) :
      Assign me Γ q f { Γ with own := none, par := none, mode := .held q (f r) }
  /-- `freeproc` of a zombie by its parent. -/
  | reap {r} (hl : Γ.lk = some .wait) (hp : Γ.par = some (q, none)) (hm : Γ.mode = .held q r)
      (hs : r.state = .ZOMBIE) (hf : Clean (f r)) :
      Assign me Γ q f { Γ with mode := .held q (f r) }
  /-- `freeproc` of a child that could not be completed. -/
  | drop {r} (ho : Γ.own = some q) (hp : Γ.par = some (q, none))
      (hm : Γ.mode = .held q r ∨ Γ.mode = .fresh q r) (hs : r.state = .USED) (hf : Clean (f r)) :
      Assign me Γ q f { Γ with own := none, par := none, mode := .held q (f r) }

/-- `Safe me Γ k`: a thread of process `me` (`none`: a scheduler) with the view
`Γ` keeps the discipline when it goes on with `k`. -/
inductive Safe (me : Option Slot) : Ctx → Code → Prop
  | done {Γ} (hm : Γ.mode = .free) (hl : Γ.lk = none) (ho : Γ.own = none) : Safe me Γ .done
  | halt {Γ} (hm : Γ.mode = .free) (hl : Γ.lk = none) : Safe me Γ .halt
  | acquireProc {Γ q k} (hm : Γ.mode = .free)
      (hk : ∀ r, Entry me Γ q r → Safe me { Γ with mode := .held q r } k) :
      Safe me Γ (.acquire (.proc q) k)
  | acquireLk {Γ l k} (ho : l.Other) (hm : Γ.mode = .free) (hl : Γ.lk = none) (ht : Γ.tst = none)
      (hk : Safe me { Γ with lk := some l, seen := fun _ _ => False, par := none } k) :
      Safe me Γ (.acquire l k)
  | releaseProc {Γ q r k} (hm : Γ.mode = .held q r) (ht : Γ.tst = none)
      (hk : Safe me { Γ with mode := .free, seen := Γ.saw q r, par := none, hit := False } k) :
      Safe me Γ (.release (.proc q) k)
  | releaseLk {Γ l k} (ho : l.Other) (hl : Γ.lk = some l)
      (ht : Γ.tst = none ∨ ∃ q r, me = some q ∧ Γ.mode = .held q r)
      (hk : Safe me { Γ with lk := none, seen := fun _ _ => False, par := none } k) :
      Safe me Γ (.release l k)
  | read {Γ q r k} (hm : Γ.mode = .held q r) (hk : Safe me Γ (k r)) : Safe me Γ (.read q k)
  /-- The test `p->pid == pid` of `kkill`. -/
  | readKill {Γ q r f pid qs k'} (hm : Γ.mode = .held q r)
      (hf : Code.kkill pid (q :: qs) k' = .acquire (.proc q) (.read q f))
      (hk : Safe me { Γ with hit := r.state = .UNUSED ∧ r.pid = pid } (f r)) :
      Safe me Γ (.read q f)
  | write {Γ Γ₁ q f k} (hw : Assign me Γ q f Γ₁) (hk : Safe me Γ₁ k) : Safe me Γ (.write q f k)
  | readParent {Γ q k} (hl : Γ.lk = some .wait)
      (hk : ∀ o, Safe me { Γ with par := some (q, o) } (k o)) : Safe me Γ (.readParent q k)
  | linkParent {Γ q x k} (hl : Γ.lk = some .wait)
      (ho : Γ.own = some q ∨ ∃ y, Γ.par = some (q, some y))
      (hk : Safe me { Γ with par := some (q, some x) } k) : Safe me Γ (.writeParent q (some x) k)
  | clearParent {Γ q k}
      (ho : Γ.lk = some .wait ∧ Γ.own = none ∨ Γ.own = some q ∧ Γ.par = some (q, none))
      (hk : Safe me { Γ with par := some (q, none) } k) : Safe me Γ (.writeParent q none k)
  | allocpid {Γ k} (hk : ∀ pid, Safe me Γ (k pid)) : Safe me Γ (.allocpid k)
  | context {Γ q r k} (hm : Γ.mode = .fresh q r) (ho : Γ.own = some q)
      (hk : Safe me { Γ with mode := .held q r } k) : Safe me Γ (.context q k)
  | setProc {Γ q r k} (hme : me = none) (hm : Γ.mode = .picked q r)
      (hk : Safe me { Γ with mode := .placed q r } k) : Safe me Γ (.setProc (some q) k)
  | clearProc {Γ q k} (hme : me = none) (hm : Γ.mode = .back q)
      (hk : ∀ r, r.state ≠ .RUNNING → Safe me { Γ with mode := .held q r } k) :
      Safe me Γ (.setProc none k)
  | checkSched {Γ q r k} (hm : Γ.mode = .leaving q r) (hl : Γ.lk = none) (hk : Safe me Γ k) :
      Safe me Γ (.checkSched q k)
  | saveOut {Γ q r k} (hme : me = some q) (hm : Γ.mode = .leaving q r)
      (hk : Safe me { Γ with mode := .left q r } k) : Safe me Γ (.save k)
  | saveIn {Γ q r k} (hme : me = none) (hm : Γ.mode = .placed q r)
      (hk : Safe me { Γ with mode := .ready q r } k) : Safe me Γ (.save k)
  /-- A process leaves for the scheduler; unless it is a zombie it will be back,
  RUNNING and with its lock. -/
  | loadOut {Γ q r k} (hme : me = some q) (hm : Γ.mode = .left q r) (hl : Γ.lk = none)
      (hk : r.state ≠ .ZOMBIE →
        ∀ r', r'.state = .RUNNING → Safe me { Γ with mode := .held q r', tst := none } k) :
      Safe me Γ (.load none k)
  | loadIn {Γ q r k} (hme : me = none) (hm : Γ.mode = .ready q r) (hl : Γ.lk = none)
      (hk : Safe me { Γ with mode := .back q } k) : Safe me Γ (.load (some q) k)
  | choose {Γ k} (hk : ∀ a, Safe me Γ (k a)) : Safe me Γ (.choose k)
  | noteTested {Γ p ch l k} (hme : me = some p) (hm : Γ.mode = .free) (hl : Γ.lk = some l)
      (hk : Safe me { Γ with tst := some (ch, l), seen := fun _ _ => False } k) :
      Safe me Γ (.note (.tested p ch l) k)
  | noteWoken {Γ ch l k} (hl : Γ.lk = some l) (ht : Γ.tst = none)
      (hseen : ∀ q, me = some q ∨ Γ.seen q ch) (hk : Safe me Γ k) :
      Safe me Γ (.note (.woken ch l) k)
  | noteMarked {Γ pid q r k} (hm : Γ.mode = .held q r) (hp : r.pid = pid) (hb : r.killed = true)
      (hk : Safe me Γ k) : Safe me Γ (.note (.marked pid q) k)
  | jumpKwait {Γ p} (hme : me = some p) (hm : Γ.mode = .free) (hl : Γ.lk = some .wait)
      (ho : Γ.own = none) (ht : Γ.tst = none) (hh : Γ.hit = False) :
      Safe me Γ (.jump (.kwait p))
  | jumpCrit {Γ p n} (hme : me = some p) (hm : Γ.mode = .free) (hl : Γ.lk = some (.obj n))
      (ho : Γ.own = none) (ht : Γ.tst = none) (hh : Γ.hit = False) :
      Safe me Γ (.jump (.crit p n))

/-! ## The functions of `proc.c` -/

open Code

variable {v : Version} {me : Option Slot} {p q : Slot} {k : Code}

/-- A thread that holds nothing but a child. -/
def Ctx.at (own : Option Slot) : Ctx := { Ctx.user with own := own }

/-- Back from a look at one slot. -/
theorem safe_release {own : Option Slot} {r : Proc} {par : Option (Slot × Option Slot)}
    {hit : Prop} (hk : Safe me (.at own) k) :
    Safe me { Ctx.at own with mode := .held q r, par := par, hit := hit }
      (.release (.proc q) k) := by
  refine .releaseProc rfl rfl ?_
  have hsaw : Ctx.saw { Ctx.at own with mode := .held q r, par := par, hit := hit } q r
      = fun _ _ => False := by
    funext q' ch
    simp [Ctx.saw, Ctx.at, Ctx.user]
  rw [hsaw]
  exact hk

/-- An assignment to a slot that is neither UNUSED nor SLEEPING. -/
theorem safe_write {Γ : Ctx} {r : Proc} {f : Proc → Proc} (hm : Γ.mode = .held q r)
    (hs : (f r).state = r.state) (hu : r.state ≠ .UNUSED) (hsl : r.state ≠ .SLEEPING)
    (hk : Safe me { Γ with mode := .held q (f r) } k) : Safe me Γ (.write q f k) :=
  .write (.same hm hs (fun h => absurd h hu) fun h => absurd h hsl) hk

theorem safe_sched {Γ : Ctx} {r : Proc} (hm : Γ.mode = .leaving p r) (hl : Γ.lk = none)
    (hk : r.state ≠ .ZOMBIE → ∀ r', r'.state = .RUNNING →
      Safe (some p) { Γ with mode := .held p r', tst := none } k) :
    Safe (some p) Γ (sched p k) :=
  .checkSched hm hl <| .saveOut rfl hm <| .loadOut rfl rfl hl hk

theorem safe_yield {own : Option Slot} (hk : Safe (some p) (.at own) k) :
    Safe (some p) (.at own) (yield v p k) := by
  refine .acquireProc rfl fun r hr => ?_
  have hrun : r.state = .RUNNING := hr.1 rfl
  refine safe_write rfl rfl (by simp [hrun]) (by simp [hrun]) ?_
  refine .write (.leave rfl rfl hrun (.yields rfl rfl)) ?_
  exact safe_sched rfl rfl fun _ r' _ => safe_release hk

/-- `forkret` starts with the lock the scheduler took. -/
theorem safe_forkret (r : Proc) : Safe (some p) { Ctx.user with mode := .held p r } (forkret p) :=
  @safe_release _ p _ none _ _ _ (.done rfl rfl rfl)

/-- `sleep`, called with `lk` and nothing else, after a test under `lk`. -/
theorem safe_sleep {Γ : Ctx} {ch : WaitChan} {l : Lock} (hlo : l.Other) (hm : Γ.mode = .free)
    (hl : Γ.lk = some l) (ht : Γ.tst = some (ch, l))
    (hk : ∀ seen par, Safe (some p)
      { Γ with tst := none, seen := seen, par := par, hit := False } k) :
    Safe (some p) Γ (sleep p ch l k) := by
  refine .acquireProc hm fun r hr => ?_
  have hrun : r.state = .RUNNING := hr.1 rfl
  refine .releaseLk hlo hl (.inr ⟨p, r, rfl, rfl⟩) ?_
  refine safe_write rfl rfl (by simp [hrun]) (by simp [hrun]) ?_
  refine .write (.leave rfl rfl hrun (.sleeps rfl ht rfl)) ?_
  refine safe_sched rfl rfl fun _ r' hr' => ?_
  refine safe_write rfl rfl (by simp [hr']) (by simp [hr']) ?_
  refine .releaseProc rfl rfl ?_
  refine .acquireLk hlo rfl rfl rfl ?_
  rw [← hm, ← hl]
  exact hk _ _

/-- `wakeup` leaves its caller where it was, wiser about the slots it looked
at. -/
theorem safe_wakeup {ch : Option WaitChan} (qs : List Slot) {Γ : Ctx} (hm : Γ.mode = .free)
    (ht : Γ.tst = none) (hh : Γ.hit = False)
    (hk : ∀ seen par, (Γ.lk ≠ none → ∀ w, ch = some w → ∀ q ∈ qs, me = some q ∨ seen q w) →
      (Γ.lk ≠ none → ∀ q w, Γ.seen q w → seen q w) →
      Safe me { Γ with seen := seen, par := par } k) :
    Safe me Γ (wakeup v me ch qs k) := by
  induction qs generalizing Γ with
  | nil => exact hk Γ.seen Γ.par (fun _ _ _ _ hq => absurd hq List.not_mem_nil) fun _ _ _ h => h
  | cons q qs ih =>
    unfold wakeup
    split
    next hme =>
      refine ih hm ht hh fun seen par h1 h2 => hk seen par (fun hl w hw q' hq' => ?_) h2
      rcases List.mem_cons.mp hq' with rfl | hq'
      · exact .inl hme.symm
      · exact h1 hl w hw q' hq'
    next hme =>
      -- the rest of the loop, after a look at `q` with record `r`
      have hrest : ∀ r : Proc, (∀ w, ch = some w → ¬(r.state = .SLEEPING ∧ r.chan = some w)) →
          Safe me { Γ with mode := .held q r } (.release (.proc q) (wakeup v me ch qs k)) := by
        intro r hr
        refine .releaseProc rfl ht ?_
        rw [← hm, ← hh]
        refine ih hm ht hh fun seen par h1 h2 => hk seen par (fun hl w hw q' hq' => ?_)
          fun hl q' w hw => h2 hl q' w ⟨hl, .inl hw⟩
        rcases List.mem_cons.mp hq' with rfl | hq'
        · exact .inr (h2 hl q' w ⟨hl, .inr ⟨rfl, hr w hw⟩⟩)
        · exact h1 hl w hw q' hq'
      refine .acquireProc hm fun r hr => .read rfl ?_
      split
      next hs =>
        refine .write (.wake rfl hs.1 rfl) ?_
        unfold boost
        split
        · refine safe_write rfl rfl (nomatch ·) (nomatch ·) ?_
          exact hrest _ fun _ _ hu => nomatch hu.1
        · exact hrest _ fun _ _ hu => nomatch hu.1
      next hs => exact hrest r fun w hw hu => hs (hw ▸ hu)

theorem safe_kkill {pid : BitVec 32} (hk : Safe me .user k) (qs : List Slot) :
    Safe me .user (kkill pid qs k) := by
  induction qs with
  | nil => exact hk
  | cons q qs ih =>
    refine .acquireProc rfl fun r hr => .readKill rfl rfl ?_
    split
    next hpid =>
      refine .write (.same rfl rfl (fun hu => ⟨r.pid, true, rfl, fun _ => .inr ⟨hu, hpid⟩⟩)
        fun _ => rfl) ?_
      refine .read rfl ?_
      split
      next hs =>
        refine .write (.wake rfl hs rfl) ?_
        exact .noteMarked rfl hpid rfl (@safe_release _ _ _ none _ _ _ hk)
      · exact .noteMarked rfl hpid rfl (@safe_release _ _ _ none _ _ _ hk)
    · exact @safe_release _ _ _ none _ _ _ ih

theorem safe_setkilled (hk : Safe (some p) .user k) : Safe (some p) .user (setkilled p k) := by
  refine .acquireProc rfl fun r hr => ?_
  have hrun : r.state = .RUNNING := hr.1 rfl
  refine safe_write rfl rfl (by simp [hrun]) (by simp [hrun]) ?_
  exact @safe_release _ _ _ none _ _ _ hk

theorem safe_killed {f : Bool → Code} {Γ : Ctx} (hm : Γ.mode = .free) (ht : Γ.tst = none)
    (hk : ∀ b seen, Safe me { Γ with mode := .free, seen := seen, par := none, hit := False }
      (f b)) : Safe me Γ (Code.killed p f) :=
  .acquireProc hm fun r _ => .read rfl <| .releaseProc rfl ht <| hk r.killed _

/-- `freeproc`, for a way `M` of holding the slot in which assignments that keep
the state are allowed, and which allows to clear it at the end. -/
theorem safe_freeproc {M : Proc → Mode} {Γ : Ctx} {r : Proc} (hm : Γ.mode = M r)
    (hw : ∀ {Γ' : Ctx} {r' : Proc} {f : Proc → Proc} {k' : Code}, Γ'.mode = M r' →
      r'.state = r.state → (f r').state = r'.state → ((f r').killed = true → r'.killed = true) →
      Safe me { Γ' with mode := M (f r') } k' → Safe me Γ' (.write q f k'))
    (hp : Γ.lk = some .wait ∧ Γ.own = none ∨ Γ.own = some q ∧ Γ.par = some (q, none))
    (hlast : ∀ (r' : Proc), r'.state = r.state → Clean { r' with state := .UNUSED } →
      Safe me { Γ with mode := M r', par := some (q, none) } (setState q .UNUSED k)) :
    Safe me Γ (freeproc q k) := by
  refine hw hm rfl rfl id ?_
  refine hw rfl rfl rfl id ?_
  refine hw rfl rfl rfl id ?_
  refine .clearParent hp ?_
  refine hw rfl rfl rfl id ?_
  refine hw rfl rfl rfl (nomatch ·) ?_
  refine hw rfl rfl rfl id ?_
  refine hw rfl rfl rfl id ?_
  exact hlast _ rfl ⟨rfl, rfl, rfl, rfl, rfl, rfl, rfl⟩

/-- `freeproc` of the child a thread is setting up. -/
theorem safe_freeproc_own {Γ : Ctx} {r : Proc} (ho : Γ.own = some q)
    (hp : Γ.par = some (q, none)) (hs : r.state = .USED)
    (hm : Γ.mode = .held q r ∨ Γ.mode = .fresh q r)
    (hk : ∀ r', Safe me { Γ with own := none, mode := .held q r', par := none } k) :
    Safe me Γ (freeproc q k) := by
  rcases hm with hm | hm
  · refine safe_freeproc (M := .held q) hm (fun hm' hr' hf _ hk' => ?_) (.inr ⟨ho, hp⟩) ?_
    · exact safe_write hm' hf (by simp [hr', hs]) (by simp [hr', hs]) hk'
    · exact fun r' hr' hc => .write (.drop ho rfl (.inl rfl) (hr'.trans hs) hc) (hk _)
  · refine safe_freeproc (M := .fresh q) hm (fun hm' _ hf hb hk' => ?_) (.inr ⟨ho, hp⟩) ?_
    · exact .write (.fresh hm' hf hb) hk'
    · exact fun r' hr' hc => .write (.drop ho rfl (.inr rfl) (hr'.trans hs) hc) (hk _)

/-- `freeproc` of a zombie, in `kwait`. -/
theorem safe_freeproc_zombie {Γ : Ctx} {r : Proc} (hl : Γ.lk = some .wait) (ho : Γ.own = none)
    (hm : Γ.mode = .held q r) (hs : r.state = .ZOMBIE)
    (hk : ∀ r', Safe me { Γ with mode := .held q r', par := some (q, none) } k) :
    Safe me Γ (freeproc q k) := by
  refine safe_freeproc (M := .held q) hm (fun hm' hr' hf _ hk' => ?_) (.inl ⟨hl, ho⟩) ?_
  · exact safe_write hm' hf (by simp [hr', hs]) (by simp [hr', hs]) hk'
  · exact fun r' hr' hc => .write (.reap hl rfl rfl (hr'.trans hs) hc) (hk _)

/-- `allocproc` comes back with a USED slot of its own, locked, or with
nothing. -/
theorem safe_allocproc {f : Option Slot → Code} (hnone : Safe me .user (f none))
    (hsome : ∀ q r, r.state = .USED →
      Safe me { Ctx.at (some q) with mode := .held q r, par := some (q, none) } (f (some q)))
    (qs : List Slot) : Safe me .user (allocproc f qs) := by
  induction qs with
  | nil => exact hnone
  | cons q qs ih =>
    refine .acquireProc rfl fun r hr => .read rfl ?_
    split
    next hs =>
      -- what the two failures have in common
      have hfail : ∀ r' : Proc, r'.state = .USED →
          Safe me { Ctx.at (some q) with mode := .fresh q r', par := some (q, none) }
            (freeproc q <| .release (.proc q) <| f none) := by
        intro r' hr'
        refine safe_freeproc_own rfl rfl hr' (.inr rfl) fun r'' => ?_
        exact @safe_release _ _ _ none _ _ _ hnone
      refine .allocpid fun pid => ?_
      refine .write (.same rfl rfl (fun _ => ⟨pid, r.killed, rfl, .inl⟩) (fun _ => rfl)) ?_
      refine .write (.claim rfl rfl hs rfl) ?_
      refine .write (.fresh rfl rfl id) ?_
      refine .choose fun a => ?_
      split
      · refine .write (.fresh rfl rfl id) ?_
        refine .choose fun b => ?_
        split
        · refine .write (.fresh rfl rfl id) ?_
          refine .context rfl rfl ?_
          exact hsome q _ rfl
        · exact .write (.fresh rfl rfl id) (hfail _ rfl)
      · exact .write (.fresh rfl rfl id) (hfail _ rfl)
    · exact @safe_release _ _ _ none _ _ _ ih

theorem Lock.other_wait : Lock.Other .wait := fun _ h => nomatch h

theorem Lock.other_obj (n : Nat) : Lock.Other (.obj n) := fun _ h => nomatch h

theorem safe_kfork (hk : Safe (some p) .user k) : Safe (some p) .user (kfork p k) := by
  refine safe_allocproc hk (fun np r hr => ?_) slots
  refine .choose fun a => ?_
  split
  · refine safe_release ?_
    refine .acquireLk Lock.other_wait rfl rfl rfl ?_
    refine .linkParent rfl (.inl rfl) ?_
    refine .releaseLk Lock.other_wait rfl (.inl rfl) ?_
    refine .acquireProc rfl fun r' hr' => ?_
    refine .write (.start rfl rfl (hr'.2 rfl) rfl) ?_
    exact @safe_release _ _ _ none _ _ _ hk
  · refine safe_freeproc_own rfl rfl hr (.inl rfl) fun r' => ?_
    exact @safe_release _ _ _ none _ _ _ hk

/-- A thread that holds `l` and nothing else. -/
structure Only (l : Lock) (Γ : Ctx) : Prop where
  mode : Γ.mode = .free
  lk : Γ.lk = some l
  own : Γ.own = none
  tst : Γ.tst = none
  hit : Γ.hit = False

/-- Dropping the last lock. -/
theorem safe_done {l : Lock} (hlo : l.Other) {Γ : Ctx} (h : Only l Γ) :
    Safe me Γ (.release l .done) :=
  .releaseLk hlo h.lk (.inl h.tst) (.done h.mode rfl h.own)

/-- A complete `wakeup` under a lock. -/
theorem safe_wakeup_all {ch : WaitChan} {l : Lock} {Γ : Ctx} (hm : Γ.mode = .free)
    (hl : Γ.lk = some l) (ht : Γ.tst = none) (hh : Γ.hit = False)
    (hk : ∀ seen par, Safe me { Γ with seen := seen, par := par } k) :
    Safe me Γ (wakeup v me (some ch) slots <| .note (.woken ch l) k) := by
  refine safe_wakeup slots hm ht hh fun seen par hseen _ => ?_
  have hne : Γ.lk ≠ none := by simp [hl]
  exact .noteWoken hl ht (fun q => hseen hne ch rfl q (List.mem_finRange q)) (hk seen par)

theorem safe_reparent {initproc : Slot} (qs : List Slot) {Γ : Ctx} (h : Only .wait Γ)
    (hk : ∀ Γ', Only .wait Γ' → Safe (some p) Γ' k) :
    Safe (some p) Γ (reparent v initproc p qs k) := by
  induction qs generalizing Γ with
  | nil => exact hk Γ h
  | cons q qs ih =>
    refine .readParent h.lk fun o => ?_
    split
    next ho =>
      refine .linkParent h.lk (.inr ⟨p, by rw [ho]⟩) ?_
      refine safe_wakeup_all h.mode h.lk h.tst h.hit fun seen par => ?_
      exact ih ⟨h.mode, h.lk, h.own, h.tst, h.hit⟩
    · exact ih ⟨h.mode, h.lk, h.own, h.tst, h.hit⟩

theorem safe_wakeParent {o : Option Slot} {Γ : Ctx} (h : Only .wait Γ)
    (hk : ∀ Γ', Only .wait Γ' → Safe (some p) Γ' k) :
    Safe (some p) Γ (wakeParent v p o k) := by
  cases o with
  | none =>
    refine safe_wakeup slots h.mode h.tst h.hit fun seen par _ _ => ?_
    exact hk _ ⟨h.mode, h.lk, h.own, h.tst, h.hit⟩
  | some q =>
    refine safe_wakeup_all h.mode h.lk h.tst h.hit fun seen par => ?_
    exact hk _ ⟨h.mode, h.lk, h.own, h.tst, h.hit⟩

theorem safe_kexit {initproc : Slot} {status : Int} :
    Safe (some p) .user (kexit v initproc p status) := by
  unfold kexit
  split
  · exact .halt rfl rfl
  refine .acquireLk Lock.other_wait rfl rfl rfl ?_
  refine safe_reparent slots ⟨rfl, rfl, rfl, rfl, rfl⟩ fun Γ₁ h₁ => ?_
  refine .readParent h₁.lk fun o => ?_
  refine safe_wakeParent ⟨h₁.mode, h₁.lk, h₁.own, h₁.tst, h₁.hit⟩ fun Γ₂ h₂ => ?_
  refine .acquireProc h₂.mode fun r hr => ?_
  have hrun : r.state = .RUNNING := hr.1 rfl
  refine safe_write rfl rfl (by simp [hrun]) (by simp [hrun]) ?_
  refine .write (.leave rfl rfl hrun (.exits rfl h₂.tst h₂.own)) ?_
  refine .releaseLk Lock.other_wait h₂.lk (.inl h₂.tst) ?_
  -- a zombie is never switched to again
  exact safe_sched rfl rfl fun hz => absurd rfl hz

theorem safe_kwaitScan (havekids : Bool) (qs : List Slot) {Γ : Ctx} (h : Only .wait Γ) :
    Safe (some p) Γ (kwaitScan p havekids qs) := by
  induction qs generalizing Γ havekids with
  | nil =>
    unfold kwaitScan
    split
    · refine safe_killed h.mode h.tst fun b seen => ?_
      cases b with
      | true => exact safe_done Lock.other_wait ⟨rfl, h.lk, h.own, h.tst, rfl⟩
      | false =>
        refine .noteTested rfl rfl h.lk ?_
        refine safe_sleep Lock.other_wait rfl h.lk rfl fun seen par => ?_
        exact .jumpKwait rfl rfl h.lk h.own rfl rfl
    · exact safe_done Lock.other_wait h
  | cons q qs ih =>
    refine .readParent h.lk fun o => ?_
    split
    · refine .acquireProc h.mode fun r _ => .read rfl ?_
      split
      next hs =>
        refine .choose fun a => ?_
        split
        · refine safe_freeproc_zombie h.lk h.own rfl hs fun r' => ?_
          refine .releaseProc rfl h.tst ?_
          exact safe_done Lock.other_wait ⟨rfl, h.lk, h.own, h.tst, rfl⟩
        · refine .releaseProc rfl h.tst ?_
          exact safe_done Lock.other_wait ⟨rfl, h.lk, h.own, h.tst, rfl⟩
      · refine .releaseProc rfl h.tst ?_
        exact ih true ⟨rfl, h.lk, h.own, h.tst, rfl⟩
    · exact ih havekids ⟨h.mode, h.lk, h.own, h.tst, h.hit⟩

theorem safe_critBody {n : Nat} {Γ : Ctx} (h : Only (.obj n) Γ) :
    Safe (some p) Γ (critBody v p n) := by
  refine .choose fun a => ?_
  split
  · refine safe_wakeup_all h.mode h.lk h.tst h.hit fun seen par => ?_
    exact .jumpCrit rfl h.mode h.lk h.own h.tst h.hit
  · refine .noteTested rfl h.mode h.lk ?_
    refine safe_sleep (Lock.other_obj n) h.mode h.lk rfl fun seen par => ?_
    exact .jumpCrit rfl h.mode h.lk h.own rfl rfl
  · exact safe_done (Lock.other_obj n) h

/-- The handler of an interrupt that comes while a thread holds nothing. -/
theorem safe_handler {own : Option Slot} {ch : WaitChan} {n : Nat} (hk : Safe me (.at own) k) :
    Safe me (.at own) (handler v me ch n k) := by
  refine .acquireLk (Lock.other_obj n) rfl rfl rfl ?_
  refine safe_wakeup_all rfl rfl rfl rfl fun seen par => ?_
  exact .releaseLk (Lock.other_obj n) rfl (.inl rfl) hk

theorem safe_scheduler (best : Slot) : Safe none .user (scheduler best) := by
  have hdone : ∀ r : Proc, Safe none { Ctx.user with mode := .held best r }
      (.release (.proc best) .done) :=
    fun r => @safe_release _ _ _ none _ _ _ (.done rfl rfl rfl)
  refine .acquireProc rfl fun r _ => .read rfl ?_
  split
  next hs =>
    refine .write (.pick rfl rfl hs rfl) ?_
    refine .setProc rfl rfl ?_
    refine .saveIn rfl rfl ?_
    refine .loadIn rfl rfl rfl ?_
    exact .clearProc rfl rfl fun r' _ => hdone r'
  · exact hdone r

/-- Whatever a process asks for, the kernel keeps the discipline. -/
theorem safe_call (cfg : Config) (f : Call) : Safe (some p) .user (f.code cfg p) := by
  cases f with
  | crit n =>
    refine .acquireLk (Lock.other_obj n) rfl rfl rfl ?_
    exact .jumpCrit rfl rfl rfl rfl rfl rfl
  | kfork => exact safe_kfork (.done rfl rfl rfl)
  | kexit status => exact safe_kexit
  | kwait =>
    refine .acquireLk Lock.other_wait rfl rfl rfl ?_
    exact .jumpKwait rfl rfl rfl rfl rfl rfl
  | kkill pid => exact safe_kkill (.done rfl rfl rfl) slots
  | setkilled => exact safe_setkilled (.done rfl rfl rfl)

/-- Loops come back to where they are safe. -/
theorem safe_loop {Γ : Ctx} {l : Loop} (h : Safe me Γ (.jump l)) : Safe me Γ (loop v l) := by
  cases h with
  | jumpKwait hme hm hl ho ht hh => exact hme ▸ safe_kwaitScan false slots ⟨hm, hl, ho, ht, hh⟩
  | jumpCrit hme hm hl ho ht hh => exact hme ▸ safe_critBody ⟨hm, hl, ho, ht, hh⟩

end Xv6.Proc
