import Xv6.Proc.Handover

/-!
# Free slots

`allocproc` sets `pid`, `state`, `priority`, the trapframe, the page table and the
context of the slot it finds; `killed`, `chan`, `xstate` and `parent` it takes as
they are. So a free slot must be clean, and everything that writes to slots must
leave it so. Everything does but one: `kkill` looks for a `pid` and not at the
state, a free slot has `pid` 0, and `kkill(0)` marks the first free slot `killed`
and reports success. The next child that gets the slot is born killed.

`TableInv` holds in every run in which no `kkill` comes across a free slot with
the `pid` it is after (`Hits`), and the condition is exact: two more steps of a
CPU that has come across one, and the slot is dirty.
-/

namespace Xv6.Proc

open Lib

variable {C : Type*} [DecidableEq C] {s s' : Kernel C} {Γ Γ' : Views C} {c : C} {q : Slot}

/-- **Free slots are clean**: in the table, for everybody `allocproc` has
returned, and for everybody `kkill` has marked. -/
structure CleanTable (s : Kernel C) : Prop where
  slot : ∀ q, (s.proc q).state = .UNUSED → Clean (s.proc q) ∧ s.parent q = none
  handed : ∀ q r, (q, r) ∈ s.handed → r.killed = false
  kills : ∀ pid q r, (pid, q, r) ∈ s.kills → r.state ≠ .UNUSED ∧ r.pid = pid

/-- The invariant behind it: what the threads know of parents is true, and nobody
is about to mark a free slot. -/
structure TableInv (s : Kernel C) (Γ : Views C) : Prop extends CleanTable s where
  par : ∀ {t q o}, (Γ t).par = some (q, o) →
    s.parent q = o ∧ ((Γ t).lk = some .wait ∨ (Γ t).own = some q ∧ o = none)
  hit : ∀ t, ¬(Γ t).hit
  fresh : ∀ {t q r}, (Γ t).mode = .fresh q r → r.killed = false

/-- A view that knows no more than before. -/
structure NoMore (Γ₀ Γ₁ : Ctx) : Prop where
  par : Γ₁.par = none ∨ Γ₁.par = Γ₀.par ∧ Γ₁.lk = Γ₀.lk ∧ Γ₁.own = Γ₀.own
  hit : Γ₁.hit → Γ₀.hit
  fresh : ∀ q r, Γ₁.mode = .fresh q r → Γ₀.mode = .fresh q r

theorem NoMore.refl (Γ₀ : Ctx) : NoMore Γ₀ Γ₀ := ⟨.inr ⟨rfl, rfl, rfl⟩, id, fun _ _ => id⟩

theorem NoMore.update {t₀ : Thread C} {Γ₁ : Ctx} (h : NoMore (Γ t₀) Γ₁) (t : Thread C) :
    NoMore (Γ t) (Function.update Γ t₀ Γ₁ t) :=
  update_views (P := fun _ => NoMore) h (fun t => .refl (Γ t)) t

omit [DecidableEq C] in
/-- What the views still know stays true while the parents stay. -/
theorem TableInv.of (h : TableInv s Γ) (hc : CleanTable s') (hparent : s'.parent = s.parent)
    (hv : ∀ t, NoMore (Γ t) (Γ' t)) : TableInv s' Γ' := by
  refine ⟨hc, fun {t q o} hp => ?_, fun t ht => h.hit t ((hv t).hit ht),
    fun {t q r} hm => h.fresh ((hv t).fresh q r hm)⟩
  rcases (hv t).par with hnone | ⟨hpar, hlk, hown⟩
  · cases hnone.symm.trans hp
  · rw [hpar] at hp
    rw [hparent, hlk, hown]
    exact h.par hp

omit [DecidableEq C] in
theorem CleanTable.of (h : CleanTable s) (hproc : s'.proc = s.proc) (hparent : s'.parent = s.parent)
    (hhanded : s'.handed = s.handed) (hkills : s'.kills = s.kills) : CleanTable s' := by
  refine ⟨?_, ?_, ?_⟩
  · rw [hproc, hparent]
    exact h.slot
  · rw [hhanded]
    exact h.handed
  · rw [hkills]
    exact h.kills

/-- A step that writes to no slot. -/
theorem TableInv.quiet (h : TableInv s Γ) {Γ₁ : Ctx} (hproc : s'.proc = s.proc)
    (hparent : s'.parent = s.parent) (hhanded : s'.handed = s.handed)
    (hkills : s'.kills = s.kills) (hv : NoMore (Γ (s.thread c)) Γ₁) :
    TableInv s' (Function.update Γ (s.thread c) Γ₁) :=
  h.of (h.toCleanTable.of hproc hparent hhanded hkills) hparent hv.update

/-- A step of the thread on `c`: its new view must be true, and the others must
stay so. -/
theorem TableInv.put (h : TableInv s Γ) {Γ₁ : Ctx} (hc : CleanTable s')
    (hpar : ∀ {q o}, Γ₁.par = some (q, o) →
      s'.parent q = o ∧ (Γ₁.lk = some .wait ∨ Γ₁.own = some q ∧ o = none))
    (hother : ∀ {t q o}, t ≠ s.thread c → (Γ t).par = some (q, o) → s'.parent q = o)
    (hhit : ¬Γ₁.hit) (hfresh : ∀ {q r}, Γ₁.mode = .fresh q r → r.killed = false) :
    TableInv s' (Function.update Γ (s.thread c) Γ₁) := by
  have hself : Function.update Γ (s.thread c) Γ₁ (s.thread c) = Γ₁ := Function.update_self _ _ _
  refine ⟨hc, fun {t q o} hp => ?_, fun t ht => ?_, fun {t q r} hm => ?_⟩ <;>
    by_cases htc : t = s.thread c
  · rw [htc, hself] at hp ⊢
    exact hpar hp
  · rw [Function.update_of_ne htc] at hp ⊢
    exact ⟨hother htc hp, (h.par hp).2⟩
  · rw [htc, hself] at ht
    exact hhit ht
  · rw [Function.update_of_ne htc] at ht
    exact h.hit t ht
  · rw [htc, hself] at hm
    exact hfresh hm
  · rw [Function.update_of_ne htc] at hm
    exact h.fresh hm

/-! ## The steps that matter -/

/-- Reading: of parents under `wait_lock`, and no `kkill` that hits. -/
theorem TableInv.read (h : TableInv s Γ) {Γ₀ : Ctx} {par : Option (Slot × Option Slot)} {hit : Prop}
    (hproc : s'.proc = s.proc) (hparent : s'.parent = s.parent) (hhanded : s'.handed = s.handed)
    (hkills : s'.kills = s.kills) (h₀ : Γ (s.thread c) = Γ₀)
    (hpar : par = Γ₀.par ∨ Γ₀.lk = some .wait ∧ ∃ q, par = some (q, s.parent q)) (hhit : ¬hit) :
    TableInv s' (Function.update Γ (s.thread c) { Γ₀ with par := par, hit := hit }) := by
  subst h₀
  refine h.put (h.toCleanTable.of hproc hparent hhanded hkills) (fun {q o} hp => ?_)
    (fun _ hp => hparent ▸ (h.par hp).1) hhit h.fresh
  rw [hparent]
  rcases hpar with hsame | ⟨hl, q', hq'⟩
  · exact h.par (hsame.symm.trans hp)
  · obtain ⟨rfl, rfl⟩ := Prod.mk.inj (Option.some.inj (hq'.symm.trans hp))
    exact ⟨rfl, .inl hl⟩

/-- An assignment to `parent` keeps what others know, and never gives a free slot a
parent. -/
theorem TableInv.setParent (h : TableInv s Γ) (hi : KInv s Γ) {Γ₀ : Ctx} {o : Option Slot}
    (hproc : s'.proc = s.proc) (hparent : s'.parent = Function.update s.parent q o)
    (hhanded : s'.handed = s.handed) (hkills : s'.kills = s.kills) (h₀ : Γ (s.thread c) = Γ₀)
    (ho : Γ₀.lk = some .wait ∧ (Γ₀.own = some q ∨ o = none ∧ Γ₀.own = none ∨
        ∃ y, Γ₀.par = some (q, some y)) ∨
      o = none ∧ Γ₀.own = some q ∧ Γ₀.par = some (q, none)) :
    TableInv s' (Function.update Γ (s.thread c) { Γ₀ with par := some (q, o) }) := by
  subst h₀
  have hq : s'.parent q = o := by rw [hparent, Function.update_self]
  have hrest : ∀ {q'}, q' ≠ q → s'.parent q' = s.parent q' := fun hqq => by
    rw [hparent, Function.update_of_ne hqq]
  refine h.put ⟨fun q' hq' => ?_, hhanded ▸ h.handed, hkills ▸ h.kills⟩ (fun {q' o'} hp => ?_)
    (fun {t q' o'} htc hp => ?_) (h.hit _) h.fresh
  · rw [hproc] at hq' ⊢
    obtain ⟨hclean, hnone⟩ := h.slot q' hq'
    refine ⟨hclean, ?_⟩
    by_cases hqq : q' = q
    · subst hqq
      rw [hq]
      rcases ho with ⟨_, ho | ⟨ho, _⟩ | ⟨y, ho⟩⟩ | ⟨ho, _⟩
      · rw [hi.own ho] at hq'
        cases hq'
      · exact ho
      · cases hnone.symm.trans (h.par ho).1
      · exact ho
    · rw [hrest hqq]
      exact hnone
  · obtain ⟨rfl, rfl⟩ := Prod.mk.inj (Option.some.inj hp)
    exact ⟨hq, ho.imp And.left fun ho => ⟨ho.2.1, ho.1⟩⟩
  · obtain ⟨hpar, hwhy⟩ := h.par hp
    by_cases hqq : q' = q
    · -- two threads know the parent of `q`: one has `wait_lock`, the other owns `q`
      subst hqq
      rw [hq]
      have hwait : (Γ t).lk = some .wait → (Γ (s.thread c)).lk ≠ some .wait := by
        intro hl hl'
        obtain ⟨c', hc', hlc'⟩ := hi.lk hl
        obtain rfl := Option.some.inj ((hi.lock_of_lk hl').symm.trans hlc')
        exact htc hc'.symm
      rcases ho with ⟨hl, ho⟩ | ⟨rfl, hown, hpar'⟩
      · rcases hwhy with hwhy | ⟨hown, rfl⟩
        · exact absurd hl (hwait hwhy)
        · rcases ho with ho | ⟨ho, _⟩ | ⟨y, ho⟩
          · exact absurd (hi.own_inj hown ho) htc
          · exact ho
          · cases hpar.symm.trans (h.par ho).1
      · exact (h.par hpar').1.symm.trans hpar
    · rw [hrest hqq]
      exact hpar

omit [DecidableEq C] in
/-- `kkill` is about to return 0: the slot it marked is in use. -/
theorem TableInv.marked (h : TableInv s Γ) {pid : BitVec 32} (hp : (s.proc q).pid = pid)
    (hb : (s.proc q).killed = true) : TableInv (s.note (.marked pid q)) Γ := by
  refine h.of ⟨h.slot, h.handed, fun pid' q' r hr => ?_⟩ rfl fun t => .refl _
  rcases List.mem_append.mp hr with hr | hr
  · exact h.kills pid' q' r hr
  · obtain ⟨rfl, rfl, rfl⟩ : pid' = pid ∧ q' = q ∧ r = s.proc q := by
      simpa using List.mem_singleton.mp hr
    refine ⟨fun hu => ?_, hp⟩
    rw [(h.slot q' hu).1.killed] at hb
    cases hb

/-- An assignment leaves free slots clean: `kkill` and `setkilled` only mark slots
in use, `freeproc` clears what it frees. -/
theorem TableInv.write (h : TableInv s Γ) (hi : KInv s Γ) {Γ₁ : Ctx} {f : Proc → Proc}
    (hw : Assign (s.exec c) (Γ (s.thread c)) q f Γ₁)
    (hproc : s'.proc = Function.update s.proc q (f (s.proc q))) (hparent : s'.parent = s.parent)
    (hhanded : s'.handed = s.handed) (hkills : s'.kills = s.kills) :
    TableInv s' (Function.update Γ (s.thread c) Γ₁) := by
  -- the slot, if it is free afterwards
  have hq : (f (s.proc q)).state = .UNUSED → Clean (f (s.proc q)) ∧ s.parent q = none := by
    intro hu
    cases hw with
    | same hm hs hun =>
      obtain rfl := hi.record hm rfl rfl
      have hold := hs.symm.trans hu
      obtain ⟨hclean, hnone⟩ := h.slot q hold
      obtain ⟨pid, b, hf, hb⟩ := hun hold
      refine ⟨?_, hnone⟩
      have hkilled : b = false := by
        by_contra hne
        rcases hb (by simpa using hne) with hk | hk
        · cases hclean.killed.symm.trans hk
        · exact h.hit _ hk
      rw [hf, hkilled]
      exact ⟨hold, hclean.chan, rfl, hclean.xstate, hclean.trapframe, hclean.pagetable,
        hclean.priority⟩
    | wake hm _ hf => rw [← hi.record hm rfl rfl, hu] at hf; cases hf
    | leave _ hm _ hl =>
      obtain rfl := hi.record hm rfl rfl
      cases hl with
      | yields hst => cases hu.symm.trans hst
      | sleeps hst => cases hu.symm.trans hst
      | exits hst => cases hu.symm.trans hst
    | pick _ hm _ hf => rw [← hi.record hm rfl rfl, hu] at hf; cases hf
    | claim _ hm _ hf =>
      obtain rfl := hi.record hm rfl rfl
      rw [hf] at hu
      cases hu
    | fresh hm hf =>
      obtain ⟨rfl, hs, _⟩ := hi.of_fresh hm
      rw [hf, hs] at hu
      cases hu
    | start _ hm _ hf => rw [← hi.record hm rfl rfl, hu] at hf; cases hf
    | reap _ hp hm _ hf =>
      obtain rfl := hi.record hm rfl rfl
      exact ⟨hf, (h.par hp).1⟩
    | drop _ hp hm _ hf =>
      rcases hm with hm | hm <;> obtain rfl := hi.record hm rfl rfl <;>
        exact ⟨hf, (h.par hp).1⟩
  refine h.put ⟨fun q' hq' => ?_, hhanded ▸ h.handed, hkills ▸ h.kills⟩ (fun {q' o'} hp => ?_)
    (fun _ hp => hparent ▸ (h.par hp).1) ?_ (fun {q' r'} hm' => ?_)
  · rw [hparent]
    rw [hproc] at hq' ⊢
    by_cases hqq : q' = q
    · subst hqq
      rw [Function.update_self] at hq' ⊢
      exact hq hq'
    · rw [Function.update_of_ne hqq] at hq' ⊢
      exact h.slot q' hq'
  · rw [hparent]
    cases hw with
    | claim _ hm hs =>
      obtain rfl := hi.record hm rfl rfl
      obtain ⟨rfl, rfl⟩ := Prod.mk.inj (Option.some.inj hp)
      exact ⟨(h.slot q hs).2, .inr ⟨rfl, rfl⟩⟩
    | start => cases hp
    | drop => cases hp
    | _ => exact h.par hp
  · cases hw <;> exact h.hit _
  · cases hw with
    | claim _ hm hs hf =>
      obtain rfl := hi.record hm rfl rfl
      cases hm'
      rw [hf]
      exact (h.slot q hs).1.killed
    | @fresh r hm hf hkl =>
      cases hm'
      by_contra hne
      have hk := hkl (by simpa using hne)
      cases (h.fresh hm).symm.trans hk
    | _ => cases hm'

/-- **One step** that is no hit leaves the table clean. -/
theorem gstep_table (hi : KInv s Γ) (h : TableInv s Γ) (hok : ¬Hits s c) (hg : GStep s Γ c s' Γ') :
    TableInv s' Γ' := by
  have hgo : ∀ k, TableInv (s.goOn c k) Γ :=
    fun k => h.of (h.toCleanTable.of rfl rfl rfl rfl) rfl fun t => .refl _
  cases hg with
  | quiet h₀ hpar hhit hk =>
    refine h.read rfl rfl rfl rfl h₀ hpar fun hh => ?_
    rcases hhit hh with hh | ⟨_, hh⟩
    · exact h.hit _ (h₀ ▸ hh)
    · exact hok hh
  | setParent h₀ ho => exact h.setParent hi rfl rfl rfl rfl h₀ ho
  | tested h₀ =>
    subst h₀
    exact h.quiet rfl rfl rfl rfl ⟨.inr ⟨rfl, rfl, rfl⟩, id, fun _ _ => id⟩
  | @woken Γ₀ ch l k => exact h.of (h.toCleanTable.of rfl rfl rfl rfl) rfl fun t => .refl _
  | @marked Γ₀ pid q k h₀ hm hp hb => exact (hgo k).marked hp hb
  | acquireProc h₀ =>
    subst h₀
    exact h.quiet rfl rfl rfl rfl ⟨.inr ⟨rfl, rfl, rfl⟩, id, fun _ _ h => Mode.noConfusion h⟩
  | acquireLk h₀ =>
    subst h₀
    exact h.quiet rfl rfl rfl rfl ⟨.inl rfl, id, fun _ _ => id⟩
  | releaseProc h₀ =>
    subst h₀
    exact h.quiet rfl rfl rfl rfl ⟨.inl rfl, False.elim, fun _ _ h => Mode.noConfusion h⟩
  | releaseLk h₀ =>
    subst h₀
    exact h.quiet rfl rfl rfl rfl ⟨.inl rfl, id, fun _ _ => id⟩
  | write h₀ hw => exact h.write hi (h₀ ▸ hw) rfl rfl rfl rfl
  | @context Γ₀ q k h₀ hm =>
    subst h₀
    -- what `allocproc` hands out was clean when it was claimed
    have hkilled : (s.proc q).killed = false := h.fresh hm
    refine h.of ⟨h.slot, fun q' r hr => ?_, h.kills⟩ rfl fun t => ?_
    · rcases List.mem_append.mp hr with hr | hr
      · exact h.handed q' r hr
      · obtain ⟨rfl, rfl⟩ := Prod.mk.inj (List.mem_singleton.mp hr)
        exact hkilled
    · by_cases ht : t = .proc q
      · rw [ht, Function.update_self]
        exact ⟨.inl rfl, False.elim, fun _ _ h => Mode.noConfusion h⟩
      · rw [Function.update_of_ne ht]
        refine NoMore.update ?_ t
        exact ⟨.inr ⟨rfl, rfl, rfl⟩, id, fun _ _ h => Mode.noConfusion h⟩
  | setProc h₀ =>
    subst h₀
    exact h.quiet rfl rfl rfl rfl ⟨.inr ⟨rfl, rfl, rfl⟩, id, fun _ _ h => Mode.noConfusion h⟩
  | clearProc h₀ =>
    subst h₀
    exact h.quiet rfl rfl rfl rfl ⟨.inr ⟨rfl, rfl, rfl⟩, id, fun _ _ h => Mode.noConfusion h⟩
  | saveOut h₀ =>
    subst h₀
    exact h.quiet rfl rfl rfl rfl ⟨.inr ⟨rfl, rfl, rfl⟩, id, fun _ _ h => Mode.noConfusion h⟩
  | saveIn h₀ =>
    subst h₀
    exact h.quiet rfl rfl rfl rfl ⟨.inr ⟨rfl, rfl, rfl⟩, id, fun _ _ h => Mode.noConfusion h⟩
  | loadOut h₀ => exact h.of (h.toCleanTable.of rfl rfl rfl rfl) rfl fun t => .refl _
  | @loadIn Γ₀ q k h₀ hme =>
    have ht : s.thread c = .sched c := thread_of_idle hme
    rw [ht] at h₀
    subst h₀
    refine h.of (h.toCleanTable.of rfl rfl rfl rfl) rfl fun t => ?_
    by_cases htq : t = .proc q
    · rw [htq, Function.update_self]
      exact ⟨.inr ⟨rfl, rfl, rfl⟩, id, fun _ _ h => Mode.noConfusion h⟩
    · rw [Function.update_of_ne htq]
      refine NoMore.update ?_ t
      exact ⟨.inr ⟨rfl, rfl, rfl⟩, id, fun _ _ h => Mode.noConfusion h⟩

omit [DecidableEq C] in
theorem init_table {cfg : Config} (h : Init cfg s) : TableInv s fun _ => .user := by
  refine ⟨⟨fun q hq => ?_, ?_, ?_⟩, nofun, fun _ => id, nofun⟩
  · by_cases hqi : q = cfg.initproc
    · rw [hqi, h.init] at hq
      cases hq
    · rw [h.other q hqi]
      exact ⟨⟨rfl, rfl, rfl, rfl, rfl, rfl, rfl⟩, h.parent q⟩
  · rw [h.handed]
    exact fun _ _ hr => absurd hr List.not_mem_nil
  · rw [h.kills]
    exact fun _ _ _ hr => absurd hr List.not_mem_nil

/-- A CPU that has come across a free slot marks it with its next two steps. -/
theorem dirty_of_hits {cfg : Config} (h : Hits s c) :
    ∃ s', runFrom (step cfg) s [.step c .no, .step c .no] = some s' ∧ ¬CleanTable s' := by
  obtain ⟨pid, q, qs, k, hcur, hu, hpid⟩ := h
  obtain ⟨_, hcur⟩ := Code.acquire.inj hcur
  -- the test succeeds
  have hfirst : ∃ k', step cfg s (.step c .no) =
      some (s.goOn c (Code.setKilled q true k')) := by
    simp only [step, Kernel.exec1, ← hcur, if_pos hpid]
    exact ⟨_, rfl⟩
  obtain ⟨k', hfirst⟩ := hfirst
  have hself : Function.update s.proc q { s.proc q with killed := true } q
      = { s.proc q with killed := true } := Function.update_self _ _ _
  refine ⟨{ (s.goOn c (Code.setKilled q true k')).goOn c k' with
    proc := Function.update s.proc q { s.proc q with killed := true } }, ?_, fun hclean => ?_⟩
  · rw [runFrom_cons, hfirst, Option.bind_some, runFrom_cons]
    simp only [step, Kernel.exec1, cur_goOn]
    rfl
  · obtain ⟨hslot, _⟩ := hclean.slot q ((congrArg Proc.state hself).trans hu)
    cases (congrArg Proc.killed hself).symm.trans hslot.killed

/-- The side condition: no `kkill(pid)` tests a slot that is UNUSED and has that
`pid`. -/
def NoHit (s : Kernel C) (a : Act C) : Prop := ¬Hits s a.cpu

/-- **A free slot carries no stale state, unless `kkill` hits one.** In every run
without a hit, in every state: each UNUSED slot is clean and has no parent, each
process `allocproc` has handed out was not killed, and each `kkill` that is to
return 0 has marked a live process with its `pid`. The condition is exact: as soon
as a `kkill` hits a free slot, two more steps of its CPU break this. -/
theorem free_slots_clean_iff_no_hit {cfg : Config} (h : Reach (step cfg) NoHit (Init cfg) s) :
    CleanTable s ∧ ∀ c, Hits s c →
      ∃ s', runFrom (step cfg) s [.step c .no, .step c .no] = some s' ∧ ¬CleanTable s' := by
  obtain ⟨Γ, _, ht⟩ := reach_views init_table (fun hi ht hok hg => gstep_table hi ht hok hg) h
  exact ⟨ht.toCleanTable, fun c hc => dirty_of_hits hc⟩

/-- A check for runs without a hit: whatever is read is in use. -/
def readsLive (cfg : Config) : Kernel C → List (Act C) → Bool
  | _, [] => true
  | s, a :: as =>
    (match s.cur a.cpu with
      | .read q _ => decide ((s.proc q).state ≠ .UNUSED)
      | _ => true) &&
    (match step cfg s a with
      | some s' => readsLive cfg s' as
      | none => true)

theorem runOk_of_readsLive {cfg : Config} {as : List (Act C)} (h : readsLive cfg s as = true) :
    RunOk (step cfg) NoHit s as := by
  induction as generalizing s with
  | nil => exact trivial
  | cons a as ih =>
    obtain ⟨hread, hrest⟩ := Bool.and_eq_true_iff.mp h
    refine ⟨?_, fun s' hs' => ih ?_⟩
    · rintro ⟨pid, q, qs, k, hcur, hu, _⟩
      obtain ⟨_, hcur⟩ := Code.acquire.inj hcur
      rw [← hcur] at hread
      exact of_decide_eq_true hread hu
    · rw [hs'] at hrest
      exact hrest

/-- `initproc` starts up and kills itself: `kkill(1)`. -/
def killInit : List (Act (Fin 2)) :=
  .dispatch hart0 0 :: List.replicate 7 (.step hart0 .no) ++
    .call hart0 (.kkill 1) :: List.replicate 6 (.step hart0 .no)

theorem free_slots_clean_iff_no_hit_killed :
    ∃ s : Kernel (Fin 2), runFrom (step ⟨.v6, 0⟩) (Kernel.boot (Fin 2)) killInit = some s ∧
      s.kills.map (fun x => (x.1, x.2.1)) = [(1, 0)] ∧ CleanTable s := by
  have hobs : (runFrom (step ⟨.v6, 0⟩) (Kernel.boot (Fin 2)) killInit).map
      (fun s => s.kills.map fun x => (x.1, x.2.1)) = some [(1, 0)] := by decide +kernel
  obtain ⟨s, hs, hobs⟩ := Option.map_eq_some_iff.mp hobs
  have hok : RunOk (step ⟨.v6, 0⟩) NoHit (Kernel.boot (Fin 2)) killInit :=
    runOk_of_readsLive (by decide +kernel)
  have hreach : Reach (step ⟨.v6, 0⟩) NoHit (Init ⟨.v6, 0⟩) s :=
    .of_run killInit (.start (boot_init .v6)) hok hs
  exact ⟨s, hs, hobs, (free_slots_clean_iff_no_hit hreach).1⟩

/-- `initproc` starts up and calls `kkill(0)`, and then forks. -/
def killZero : List (Act (Fin 2)) :=
  .dispatch hart0 0 :: List.replicate 7 (.step hart0 .no) ++
    .call hart0 (.kkill 0) :: List.replicate 9 (.step hart0 .no)

def forkAfter : List (Act (Fin 2)) :=
  .call hart0 .kfork :: List.replicate 14 (.step hart0 .yes)

/-- `kkill(0)` marks slot 1, which is free, and returns 0; the child that is then
handed out in slot 1 is killed before it runs. -/
theorem kill_zero_marks_free_slot :
    ∃ s s' : Kernel (Fin 2),
      Reach (step ⟨.v6, 0⟩) Any (Init ⟨.v6, 0⟩) s ∧
      (s.proc 1).state = .UNUSED ∧ (s.proc 1).killed = true ∧ s.lock (.proc 1) = none ∧
      s.kills.map (fun x => (x.1, x.2.1, x.2.2.state)) = [(0, 1, .UNUSED)] ∧
      runFrom (step ⟨.v6, 0⟩) s forkAfter = some s' ∧
      s'.handed.map (fun x => (x.1, x.2.killed)) = [(1, true)] := by
  have hobs : (runFrom (step ⟨.v6, 0⟩) (Kernel.boot (Fin 2)) killZero).map
      (fun s => ((s.proc 1).state, (s.proc 1).killed, s.lock (.proc 1))) =
      some (.UNUSED, true, none) := by decide +kernel
  have hkills : (runFrom (step ⟨.v6, 0⟩) (Kernel.boot (Fin 2)) killZero).map
      (fun s => s.kills.map fun x => (x.1, x.2.1, x.2.2.state)) = some [(0, 1, .UNUSED)] := by
    decide +kernel
  have hfork : (runFrom (step ⟨.v6, 0⟩) (Kernel.boot (Fin 2)) killZero).bind
      (fun s => (runFrom (step ⟨.v6, 0⟩) s forkAfter).map
        fun s' => s'.handed.map fun x => (x.1, x.2.killed)) = some [(1, true)] := by decide +kernel
  obtain ⟨s, hs, hobs⟩ := Option.map_eq_some_iff.mp hobs
  rw [hs, Option.bind_some] at hfork
  rw [hs, Option.map_some, Option.some.injEq] at hkills
  obtain ⟨s', hs', hhanded⟩ := Option.map_eq_some_iff.mp hfork
  simp only [Prod.mk.injEq] at hobs
  obtain ⟨hst, hkilled, hlock⟩ := hobs
  have hreach : Reach (step ⟨.v6, 0⟩) Any (Init ⟨.v6, 0⟩) s :=
    .of_run killZero (.start (boot_init .v6)) (RunOk.any _ _ _) hs
  exact ⟨s, s', hreach, hst, hkilled, hlock, hkills, hs', hhanded⟩

end Xv6.Proc
