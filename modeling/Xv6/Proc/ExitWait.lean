import Xv6.Proc.FamilyStep

/-!
# Exit and wait agree

A run is recorded: a process that makes itself a ZOMBIE leaves its `pid` and
`xstate` in the record (`exited`), and so does a `kwait` whose `copyout` has
succeeded with those it returns (`waited`). A zombie whose status nobody has
returned is `Owed`.

> `Ledger`: for each slot, what has exited is what has been returned, in that
> order, and then, if the slot is owed, the `pid` and `xstate` it still holds.

`fam_step` says that every step keeps the family in order and either leaves the
owed slots alone, or makes one (`Exits`), or returns one (`Returns`); the three
parts of `exit_wait_agree` are read off from there, the second with the help of
`no_lost_wakeup`.
-/

namespace Xv6.Proc

open Lib

variable {C : Type*} [DecidableEq C]

/-- Process `p` is about to make itself a ZOMBIE. -/
def Exits (s : Kernel C) (a : Act C) (p : Slot) : Prop :=
  ∃ c b k, a = .step c b ∧ s.exec c = some p ∧ s.cur c = Code.setState p .ZOMBIE k

/-- Process `p` is in `kwait`, has found the zombie `q`, and its `copyout` of the
exit status succeeds: it is going to clear the slot and return. -/
def Returns (s : Kernel C) (a : Act C) (p q : Slot) : Prop :=
  ∃ c, a = .step c .yes ∧ s.exec c = some p ∧ s.cur c = .choose (Code.copied q)

/-- A zombie whose exit status no `kwait` has returned. -/
def Owed (s : Kernel C) (Δ : Kins C) (q : Slot) : Prop := zombies s q ∧ ¬Freeing Δ q

/-- What is owed for slot `x` stays as it is. -/
structure KeptAt (s s' : Kernel C) (Δ Δ' : Kins C) (x : Slot) : Prop where
  owed : Owed s' Δ' x ↔ Owed s Δ x
  same : Owed s Δ x → (s'.proc x).pid = (s.proc x).pid ∧ (s'.proc x).xstate = (s.proc x).xstate

/-- What a step does to the zombies that are owed. -/
inductive Turn (s : Kernel C) (Δ : Kins C) (a : Act C) (s' : Kernel C) (Δ' : Kins C) : Prop
  | quiet (hk : ∀ x, KeptAt s s' Δ Δ' x) (hx : ∀ p, ¬Exits s a p) (hr : ∀ p q, ¬Returns s a p q)
  | exit {p} (hx : Exits s a p) (hk : ∀ x, x ≠ p → KeptAt s s' Δ Δ' x) (hn : ¬Owed s Δ p)
      (ho : Owed s' Δ' p) (hp : (s'.proc p).pid = (s.proc p).pid)
      (hst : (s'.proc p).xstate = (s.proc p).xstate)
  | ret {p q} (hr : Returns s a p q) (hk : ∀ x, x ≠ q → KeptAt s s' Δ Δ' x) (ho : Owed s Δ q)
      (hn : ¬Owed s' Δ' q)

section
variable {cfg : Config} {s s' : Kernel C} {Γ : Views C} {Δ Δ' : Kins C} {c : C} {q : Slot}
  {k : Code} {a : Choice}

omit [DecidableEq C] in
/-- A step that touches no record and clears no slot. -/
theorem Turn.still {a : Act C} (hproc : s'.proc = s.proc)
    (hfree : ∀ x, Freeing Δ' x ↔ Freeing Δ x) (hx : ∀ p, ¬Exits s a p)
    (hr : ∀ p q, ¬Returns s a p q) : Turn s Δ a s' Δ' := by
  refine .quiet (fun x => ⟨?_, fun _ => ?_⟩) hx hr
  · unfold Owed zombies
    rw [hproc, hfree]
  · rw [hproc]
    exact ⟨rfl, rfl⟩

omit [DecidableEq C] in
/-- Labels other than `step` neither exit nor return. -/
theorem not_exits {a : Act C} (ha : ∀ c b, a ≠ .step c b) (p : Slot) : ¬Exits s a p :=
  fun ⟨c, b, _, he, _⟩ => ha c b he

omit [DecidableEq C] in
theorem not_returns {a : Act C} (ha : ∀ c b, a ≠ .step c b) (p q : Slot) : ¬Returns s a p q :=
  fun ⟨c, he, _⟩ => ha c .yes he

omit [DecidableEq C] in
theorem not_exits_of_cur (h : ∀ p k, s.cur c ≠ Code.setState p .ZOMBIE k) (p : Slot) :
    ¬Exits s (.step c a) p := by
  rintro ⟨c', b, k, he, -, hc⟩
  cases he
  exact h p k hc

omit [DecidableEq C] in
theorem not_returns_of_cur (h : ∀ q, s.cur c ≠ .choose (Code.copied q)) (p q : Slot) :
    ¬Returns s (.step c a) p q := by
  rintro ⟨c', he, -, hc⟩
  cases he
  exact h q hc

/-- A step of the code that neither assigns nor chooses, and changes what its
thread knows, but not whom it is clearing away. -/
theorem Turn.goOn {Δ₁ : Kin} (hproc : s'.proc = s.proc)
    (hf : ∀ x, (Δ₁.wait = true ∧ Δ₁.freeing = some x) ↔
      ((Δ (s.thread c)).wait = true ∧ (Δ (s.thread c)).freeing = some x))
    (hx : ∀ p k, s.cur c ≠ Code.setState p .ZOMBIE k)
    (hr : ∀ q, s.cur c ≠ .choose (Code.copied q)) :
    Turn s Δ (.step c a) s' (Function.update Δ (s.thread c) Δ₁) :=
  .still hproc (fun x => freeing_update (hf x)) (not_exits_of_cur hx) (not_returns_of_cur hr)

/-- The slots an assignment to `q` does not touch. -/
theorem KeptAt.put {f : Proc → Proc} {x : Slot} (hx : x ≠ q) (hf : Freeing Δ' x ↔ Freeing Δ x) :
    KeptAt s (s.put c q f k) Δ Δ' x := by
  have hp : (s.put c q f k).proc x = s.proc x := Function.update_of_ne hx _ _
  refine ⟨?_, fun _ => ?_⟩
  · unfold Owed zombies
    rw [hp, hf]
  · rw [hp]
    exact ⟨rfl, rfl⟩

/-- An assignment to a slot that is owed neither before nor after. -/
theorem KeptAt.put_self {f : Proc → Proc} (h : ¬Owed s Δ q) (h' : ¬Owed (s.put c q f k) Δ' q) :
    KeptAt s (s.put c q f k) Δ Δ' q :=
  ⟨⟨fun ho => absurd ho h', fun ho => absurd ho h⟩, fun ho => absurd ho h⟩

omit [DecidableEq C] in
theorem cur_ne_exit {f : Proc → Proc} (hcur : s.cur c = .write q f k)
    (hf : (f Proc.boot).state ≠ .ZOMBIE) (p : Slot) (k' : Code) :
    s.cur c ≠ Code.setState p .ZOMBIE k' := by
  intro he
  obtain ⟨-, rfl, -⟩ := Code.write.inj (hcur.symm.trans he)
  exact hf rfl

omit [DecidableEq C] in
theorem cur_ne_choose {f : Proc → Proc} (hcur : s.cur c = .write q f k) (x : Slot) :
    s.cur c ≠ .choose (Code.copied x) := by
  rw [hcur]
  exact Code.noConfusion

/-- An assignment to a slot that is owed neither before nor after. -/
theorem Turn.put {f : Proc → Proc} {Δ₁ : Kin} (hcur : s.cur c = .write q f k)
    (hf : (f Proc.boot).state ≠ .ZOMBIE)
    (hfr : ∀ x, x ≠ q → ((Δ₁.wait = true ∧ Δ₁.freeing = some x) ↔
      ((Δ (s.thread c)).wait = true ∧ (Δ (s.thread c)).freeing = some x)))
    (hq : KeptAt s (s.put c q f k) Δ (Function.update Δ (s.thread c) Δ₁) q) :
    Turn s Δ (.step c a) (s.put c q f k) (Function.update Δ (s.thread c) Δ₁) := by
  refine .quiet (fun x => ?_) (not_exits_of_cur (cur_ne_exit hcur hf))
    (not_returns_of_cur (cur_ne_choose hcur))
  by_cases hx : x = q
  · exact hx ▸ hq
  · exact .put hx (freeing_update (hfr x hx))

/-- **An assignment** keeps the family in order, and makes a zombie or leaves the
owed slots alone. -/
theorem fam_write (h : FamInv cfg s Δ) (hi : KInv s Γ) {f : Proc → Proc} {Δ₁ : Kin}
    (hcur : s.cur c = .write q f k) (ha : Assigns cfg.initproc (s.exec c) (Δ (s.thread c)) q f Δ₁)
    (hk : Keeps cfg.initproc (s.exec c) k Δ₁) :
    FamInv cfg (s.put c q f k) (Function.update Δ (s.thread c) Δ₁) ∧
    Turn s Δ (.step c a) (s.put c q f k) (Function.update Δ (s.thread c) Δ₁) := by
  have hself : (s.put c q f k).proc q = f (s.proc q) := Function.update_self _ _ _
  -- a slot in another state is not owed
  have hno : ∀ {s₁ : Kernel C} {Δ₂ : Kins C} {st : ProcState}, (s₁.proc q).state = st →
      st ≠ .ZOMBIE → ¬Owed s₁ Δ₂ q := fun hst hne ho => hne (hst.symm.trans ho.1)
  cases ha with
  | @keep st hh hf hz =>
    have hst : ∀ x, ((s.put c q f k).proc x).state = (s.proc x).state := by
      intro x
      by_cases hx : x = q
      · subst hx
        rw [put_self, hf]
      · exact put_ne hx
    obtain ⟨-, hq⟩ := h.hold.has hh
    refine ⟨h.plain hi rfl rfl rfl rfl hst rfl rfl hk rfl rfl rfl rfl rfl (fun _ hx => hx)
      fun hw => (h.know hw).1, .put hcur ?_ (fun _ _ => Iff.rfl) ⟨?_, fun ho => ?_⟩⟩
    · rw [hf]
      decide
    · unfold Owed
      rw [zombies_congr hst, freeing_update Iff.rfl]
    · rw [hself]
      rcases hz (hq.symm.trans ho.1) with ⟨hfr, hw⟩ | hsame
      · exact absurd ⟨_, hw, hfr⟩ ho.2
      · exact hsame _
  | @move st st' hh hal hal' hf =>
    obtain ⟨-, hq⟩ := h.hold.has hh
    have hz : st ≠ .ZOMBIE := fun he => by rw [he] at hal; exact hal
    have hz' : st' ≠ .ZOMBIE := fun he => by rw [he] at hal'; exact hal'
    refine ⟨h.move hi hh hal hal' hf hk, .put hcur ?_ (fun _ _ => Iff.rfl)
      (.put_self (hno hq hz) (hno (put_self.trans (hf _)) hz'))⟩
    rw [hf]
    exact hz'
  | claim hh hme ho hf =>
    obtain ⟨-, hq⟩ := h.hold.has hh
    refine ⟨h.claim hi hh hme ho hf hk, .put hcur ?_ (fun _ _ => Iff.rfl)
      (.put_self (hno hq (by decide)) (hno (put_self.trans (hf _)) (by decide)))⟩
    rw [hf]
    decide
  | start hh ho hf =>
    obtain ⟨-, hq⟩ := h.hold.has hh
    refine ⟨h.leave hi hh ho hf (.inl ⟨rfl, rfl⟩) hk, .put hcur ?_ (fun _ _ => Iff.rfl)
      (.put_self (hno hq (by decide)) (hno (put_self.trans (hf _)) (by decide)))⟩
    rw [hf]
    decide
  | drop hh ho hg hf =>
    obtain ⟨-, hq⟩ := h.hold.has hh
    refine ⟨h.leave hi hh ho hf (.inr ⟨rfl, hg⟩) hk, .put hcur ?_ (fun _ _ => Iff.rfl)
      (.put_self (hno hq (by decide)) (hno (put_self.trans (hf _)) (by decide)))⟩
    rw [hf]
    decide
  | reap hh hw hfr hkn hf =>
    refine ⟨h.reap hi hh hw hfr hkn hf hk, .put hcur ?_ (fun x hx => ?_)
      (.put_self (fun ho => ho.2 ⟨_, hw, hfr⟩) (hno (put_self.trans (hf _)) (by decide)))⟩
    · rw [hf]
      decide
    · refine ⟨fun hn => (by cases hn.2), fun hn => ?_⟩
      rw [hfr, Option.some.injEq] at hn
      exact absurd hn.2.symm hx
  | exit hme hh hinit hw ho hfr hf hkids htold =>
    obtain ⟨-, hq⟩ := h.hold.has hh
    have hfz : f = fun r => { r with state := .ZOMBIE } := funext hf
    refine ⟨h.exit hi hme hh hinit hw ho hf hkids htold hk,
      .exit ⟨c, a, k, rfl, hme, by rw [hcur, hfz]; rfl⟩
        (fun x hx => .put hx (freeing_update Iff.rfl)) (hno hq (by decide))
        ⟨by unfold zombies; rw [put_self, hf], fun hF => ?_⟩ ?_ ?_⟩
    · -- the holder of `wait_lock` is clearing nothing
      obtain ⟨t', hwt', hft'⟩ := hF.back rfl rfl
      rw [h.hold.only hwt' hw, hfr] at hft'
      cases hft'
    · rw [hself, hf]
    · rw [hself, hf]

/-- The code neither assigns nor chooses next. -/
def Code.Plain : Code → Prop
  | .write _ _ _ | .choose _ => False
  | _ => True

theorem Turn.plain {Δ₁ : Kin} (hp : (s.cur c).Plain) (hproc : s'.proc = s.proc)
    (hf : ∀ x, (Δ₁.wait = true ∧ Δ₁.freeing = some x) ↔
      ((Δ (s.thread c)).wait = true ∧ (Δ (s.thread c)).freeing = some x)) :
    Turn s Δ (.step c a) s' (Function.update Δ (s.thread c) Δ₁) :=
  .goOn hproc hf (fun p k he => by rw [he] at hp; exact hp)
    fun q he => by rw [he] at hp; exact hp

/-- A step that leaves everything but the place in the code alone. -/
theorem fam_goOn (h : FamInv cfg s Δ) (hi : KInv s Γ) (hp : (s.cur c).Plain)
    (hk : Keeps cfg.initproc (s.exec c) k (Δ (s.thread c))) :
    ∃ Δ', FamInv cfg (s.goOn c k) Δ' ∧ Turn s Δ (.step c a) (s.goOn c k) Δ' :=
  ⟨_, h.plain hi rfl rfl rfl rfl (fun _ => rfl) rfl rfl hk rfl rfl rfl rfl rfl
    (fun _ hx => hx) fun hw => (h.know hw).1, .plain hp rfl fun _ => Iff.rfl⟩

theorem fam_acquire (h : FamInv cfg s Δ) (hi : KInv s Γ) {l : Lock}
    (hcur : s.cur c = .acquire l k) (hs : s.acquire c l k = some s') :
    ∃ Δ', FamInv cfg s' Δ' ∧ Turn s Δ (.step c a) s' Δ' := by
  have hkeep := h.code.cpu c
  rw [hcur] at hkeep
  have hp : (s.cur c).Plain := by rw [hcur]; trivial
  unfold Kernel.acquire at hs
  split at hs
  next hl =>
    obtain rfl := Option.some.inj hs
    cases l with
    | proc q =>
      have hent := hi.entry (c := c) hl
      exact ⟨_, h.acquireProc hi hl (hkeep _ hent.1 fun g hg => h.own.used hg),
        .plain hp rfl fun _ => Iff.rfl⟩
    | wait =>
      obtain ⟨hw, hk⟩ := hkeep
      refine ⟨_, h.acquireWait hi hl hk, .plain hp rfl fun x => ?_⟩
      rw [hw]
      exact ⟨fun hn => (by cases hn.2), fun hn => (by cases hn.1)⟩
    | obj n => exact ⟨_, h.relockObj hi hkeep, .plain hp rfl fun _ => Iff.rfl⟩
  next c' hl =>
    split at hs
    next => exact Option.some.inj hs ▸ fam_goOn h hi hp trivial
    next => cases hs

theorem fam_release (h : FamInv cfg s Δ) (hi : KInv s Γ) {l : Lock}
    (hcur : s.cur c = .release l k) :
    ∃ Δ', FamInv cfg (s.release c l k) Δ' ∧ Turn s Δ (.step c a) (s.release c l k) Δ' := by
  have hkeep := h.code.cpu c
  rw [hcur] at hkeep
  have hp : (s.cur c).Plain := by rw [hcur]; trivial
  unfold Kernel.release
  split
  next hl =>
    cases l with
    | proc q => exact ⟨_, h.releaseProc hi hl hkeep, .plain hp rfl fun _ => Iff.rfl⟩
    | wait =>
      obtain ⟨hw, howes, hfr, hk⟩ := hkeep
      refine ⟨_, h.releaseWait hi hl hw howes hfr hk, .plain hp rfl fun x => ?_⟩
      rw [hfr]
      exact ⟨fun hn => (by cases hn.1), fun hn => (by cases hn.2)⟩
    | obj n => exact ⟨_, h.relockObj hi hkeep, .plain hp rfl fun _ => Iff.rfl⟩
  next => exact fam_goOn h hi hp trivial

theorem fam_writeParent (h : FamInv cfg s Δ) (hi : KInv s Γ) {o : Option Slot}
    (hcur : s.cur c = .writeParent q o k) :
    ∃ Δ', FamInv cfg { s.goOn c k with parent := Function.update s.parent q o } Δ' ∧
      Turn s Δ (.step c a) { s.goOn c k with parent := Function.update s.parent q o } Δ' := by
  have hkeep := h.code.cpu c
  rw [hcur] at hkeep
  have hp : (s.cur c).Plain := by rw [hcur]; trivial
  obtain ⟨Δ₁, hl, hk⟩ := hkeep
  cases hl with
  | link hme hw ho => exact ⟨_, h.link hi hme hw ho hk, .plain hp rfl fun _ => Iff.rfl⟩
  | hand hme hw ho hq => exact ⟨_, h.hand hi hme hw ho hq hk, .plain hp rfl fun _ => Iff.rfl⟩
  | clear hw hh hfr => exact ⟨_, h.clear hi hw hh hfr hk, .plain hp rfl fun _ => Iff.rfl⟩
  | clearOwn ho hg => exact ⟨_, h.clearOwn hi ho hg hk, .plain hp rfl fun _ => Iff.rfl⟩

/-- The context of a slot is made while no CPU executes the slot. -/
theorem fam_context (h : FamInv cfg s Δ) (hi : KInv s Γ) (hcur : s.cur c = .context q k)
    (hs : s.exec1 cfg c a = some s') : ∃ Δ', FamInv cfg s' Δ' ∧ Turn s Δ (.step c a) s' Δ' := by
  have hkeep := h.code.cpu c
  have hsafe := hi.safe c
  unfold Kernel.exec1 at hs
  rw [hcur] at hkeep hsafe hs
  obtain rfl := Option.some.inj hs
  obtain ⟨ho, hk⟩ := hkeep
  cases hsafe with
  | context hm _ _ =>
    obtain ⟨-, hok⟩ := hi.heldOk hm rfl
    cases hok with
    | fresh _ _ hidle =>
      have hoff : ∀ c', s.exec c' ≠ some q := fun c' hc' => hidle c' (hi.exec hc')
      refine ⟨_, h.context hi hoff ho hk, .still rfl (fun x => ?_)
        (not_exits_of_cur (by rw [hcur]; exact fun _ _ => Code.noConfusion))
        (not_returns_of_cur (by rw [hcur]; exact fun _ => Code.noConfusion))⟩
      have hqw : (Function.update Δ (s.thread c)
          { Δ (s.thread c) with own := some (q, .made) } (.proc q)).wait = false := by
        rw [Function.update_of_ne (proc_ne_thread (hoff c))]
        by_contra hne
        obtain ⟨c', hc', -⟩ := h.hold.wait (t := .proc q) (by simpa using hne)
        exact proc_ne_thread (hoff c') hc'.symm
      rw [freeing_update
        (by rw [hqw]; exact ⟨fun hn => (by cases hn.1), fun hn => (by cases hn.1)⟩)]
      exact ⟨fun hF => hF.back rfl rfl, fun hF => hF.keep rfl rfl⟩

theorem fam_save (h : FamInv cfg s Δ) (hi : KInv s Γ) (hcur : s.cur c = .save k)
    (hs : s.exec1 cfg c a = some s') : ∃ Δ', FamInv cfg s' Δ' ∧ Turn s Δ (.step c a) s' Δ' := by
  have hkeep := h.code.cpu c
  have hp : (s.cur c).Plain := by rw [hcur]; trivial
  unfold Kernel.exec1 at hs
  rw [hcur] at hkeep hs
  dsimp only at hs
  split at hs
  next p hx =>
    obtain rfl := Option.some.inj hs
    exact ⟨_, h.plain hi rfl rfl rfl rfl (fun _ => rfl) rfl rfl hkeep rfl rfl rfl rfl rfl
      (fun _ hx => hx) fun hw => (h.know hw).1, .plain hp rfl fun _ => Iff.rfl⟩
  next => exact Option.some.inj hs ▸ fam_goOn h hi hp hkeep

theorem fam_load (h : FamInv cfg s Δ) (hi : KInv s Γ) {o : Option Slot}
    (hcur : s.cur c = .load o k) (hs : s.exec1 cfg c a = some s') :
    ∃ Δ', FamInv cfg s' Δ' ∧ Turn s Δ (.step c a) s' Δ' := by
  have hkeep := h.code.cpu c
  have hsafe := hi.safe c
  have hp : (s.cur c).Plain := by rw [hcur]; trivial
  unfold Kernel.exec1 at hs
  rw [hcur] at hkeep hsafe hs
  obtain ⟨hw, hk⟩ := hkeep
  cases hsafe with
  | loadOut hme hm hl _ =>
    obtain rfl := Option.some.inj hs
    exact ⟨_, h.loadOut hi hme hw (hme ▸ hk _ hme), .plain hp rfl fun _ => Iff.rfl⟩
  | loadIn hme hm hl _ =>
    obtain rfl := Option.some.inj hs
    obtain ⟨hlock, hok⟩ := hi.heldOk hm rfl
    cases hok with
    | ready hr hrun hc hpk =>
      exact ⟨_, h.loadIn hi hme hpk.off (hr ▸ hrun) hlock hw (hme ▸ hk),
        .plain hp rfl fun _ => Iff.rfl⟩

/-- A choice; `.yes` at the `copyout` of `kwait` returns the zombie it has found. -/
theorem fam_choose (h : FamInv cfg s Δ) (hi : KInv s Γ) {f : Choice → Code}
    (hcur : s.cur c = .choose f) :
    ∃ Δ', FamInv cfg (s.goOn c (f a)) Δ' ∧ Turn s Δ (.step c a) (s.goOn c (f a)) Δ' := by
  have hkeep := h.code.cpu c
  rw [hcur] at hkeep
  have hexit : ∀ p k', s.cur c ≠ Code.setState p .ZOMBIE k' := by
    rw [hcur]
    exact fun _ _ => Code.noConfusion
  rcases hkeep with ⟨hne, hk⟩ | ⟨q, p, rfl, hme, hw, hh, hfr, -, hyes, hother⟩
  · refine ⟨_, h.plain hi rfl rfl rfl rfl (fun _ => rfl) rfl rfl (hk a) rfl rfl rfl rfl rfl
      (fun _ hx => hx) fun hw => (h.know hw).1, .goOn rfl (fun _ => Iff.rfl) hexit fun q he => ?_⟩
    exact hne q (Code.choose.inj (hcur.symm.trans he))
  · by_cases ha : a = .yes
    · subst ha
      refine ⟨_, h.plain hi rfl rfl rfl rfl (fun _ => rfl) rfl rfl hyes rfl rfl rfl rfl rfl
        (fun x hx => ?_) fun hw => (h.know hw).1, .ret ⟨c, rfl, hme, hcur⟩ (fun x hx => ?_)
        ⟨(h.hold.has hh).2, fun hother => ?_⟩ fun ho => ho.2 ⟨s.thread c, ?_⟩⟩
      · rw [hfr] at hx
        cases hx
      · refine ⟨?_, fun _ => ⟨rfl, rfl⟩⟩
        have hfx : Freeing (Function.update Δ (s.thread c)
            { Δ (s.thread c) with freeing := some q }) x ↔ Freeing Δ x := by
          refine freeing_update ⟨fun hn => ?_, fun hn => ?_⟩
          · exact absurd (Option.some.inj hn.2).symm hx
          · rw [hfr] at hn
            cases hn.2
        unfold Owed
        rw [hfx]
        rfl
      · obtain ⟨t, hwt, hft⟩ := hother
        rw [h.hold.only hwt hw, hfr] at hft
        cases hft
      · rw [Function.update_self]
        exact ⟨hw, rfl⟩
    · refine ⟨_, h.plain hi rfl rfl rfl rfl (fun _ => rfl) rfl rfl
        (hother a ha) rfl rfl rfl rfl rfl
        (fun _ hx => hx) fun hw => (h.know hw).1, .still rfl
        (fun x => ⟨fun hF => hF.back rfl rfl, fun hF => hF.keep rfl rfl⟩)
        (not_exits_of_cur hexit) ?_⟩
      -- the label is not the one of a successful `copyout`
      rintro p' q' ⟨c', he, -, -⟩
      cases he
      exact ha rfl

theorem fam_note (h : FamInv cfg s Δ) (hi : KInv s Γ) {e : Event} (hcur : s.cur c = .note e k) :
    ∃ Δ', FamInv cfg ((s.goOn c k).note e) Δ' ∧
      Turn s Δ (.step c a) ((s.goOn c k).note e) Δ' := by
  have hkeep := h.code.cpu c
  rw [hcur] at hkeep
  have hp : (s.cur c).Plain := by rw [hcur]; trivial
  cases e with
  | tested p ch l =>
    cases l with
    | wait =>
      obtain ⟨hw, hkids, hk⟩ := hkeep
      exact ⟨_, h.tested hi hw hkids hk, .plain hp rfl fun _ => Iff.rfl⟩
    | proc q =>
      exact ⟨_, h.note hi (.inl ⟨p, ch, _, rfl, by simp⟩) hkeep, .plain hp rfl fun _ => Iff.rfl⟩
    | obj n =>
      exact ⟨_, h.note hi (.inl ⟨p, ch, _, rfl, by simp⟩) hkeep, .plain hp rfl fun _ => Iff.rfl⟩
  | woken ch l =>
    have hplain : Keeps cfg.initproc (s.exec c) k (Δ (s.thread c)) →
        ∃ Δ', FamInv cfg ((s.goOn c k).note (.woken ch l)) Δ' ∧
          Turn s Δ (.step c a) ((s.goOn c k).note (.woken ch l)) Δ' := fun hk =>
      ⟨_, h.note hi (.inr (.inl ⟨ch, l, rfl⟩)) hk, .plain hp rfl fun _ => Iff.rfl⟩
    cases l with
    | wait =>
      cases ch with
      | proc o => exact ⟨_, h.woken hi hkeep, .plain hp rfl fun _ => Iff.rfl⟩
      | obj n => exact hplain hkeep
    | proc q => exact hplain hkeep
    | obj n => exact hplain hkeep
  | marked pid q =>
    exact ⟨_, h.note hi (.inr (.inr ⟨pid, q, rfl⟩)) hkeep, .plain hp rfl fun _ => Iff.rfl⟩

/-- **The steps of a thread's code.** -/
theorem fam_exec (h : FamInv cfg s Δ) (hi : KInv s Γ) (hs : s.exec1 cfg c a = some s') :
    ∃ Δ', FamInv cfg s' Δ' ∧ Turn s Δ (.step c a) s' Δ' := by
  have hexec := hs
  have hkeep := h.code.cpu c
  unfold Kernel.exec1 at hs
  cases hcur : s.cur c with
  | context q k => exact fam_context h hi hcur hexec
  | save k => exact fam_save h hi hcur hexec
  | load o k => exact fam_load h hi hcur hexec
  | done | halt | panic =>
    rw [hcur] at hs
    cases hs
  | acquire l k =>
    rw [hcur] at hs
    exact fam_acquire h hi hcur hs
  | release l k =>
    rw [hcur] at hs
    exact Option.some.inj hs ▸ fam_release h hi hcur
  | read q k =>
    rw [hcur] at hs hkeep
    exact Option.some.inj hs ▸ fam_goOn h hi (by rw [hcur]; trivial)
      (hkeep _ fun st hst => (h.hold.has hst).2)
  | write q f k =>
    rw [hcur] at hs hkeep
    obtain rfl := Option.some.inj hs
    obtain ⟨Δ₁, ha, hk⟩ := hkeep
    exact ⟨_, fam_write h hi hcur ha hk⟩
  | readParent q k =>
    rw [hcur] at hs hkeep
    obtain rfl := Option.some.inj hs
    exact ⟨_, h.plain hi rfl rfl rfl rfl (fun _ => rfl) rfl rfl (hkeep.2 _) rfl rfl rfl rfl rfl
      (fun _ hx => hx) fun hw => ⟨(h.know hw).1, rfl⟩,
      .plain (by rw [hcur]; trivial) rfl fun _ => Iff.rfl⟩
  | writeParent q o k =>
    rw [hcur] at hs
    exact Option.some.inj hs ▸ fam_writeParent h hi hcur
  | allocpid k =>
    rw [hcur] at hs hkeep
    obtain rfl := Option.some.inj hs
    exact ⟨_, h.plain hi rfl rfl rfl rfl (fun _ => rfl) rfl rfl (hkeep _) rfl rfl rfl rfl rfl
      (fun _ hx => hx) fun hw => (h.know hw).1,
      .plain (by rw [hcur]; trivial) rfl fun _ => Iff.rfl⟩
  | setProc o k =>
    rw [hcur] at hs hkeep
    obtain rfl := Option.some.inj hs
    exact ⟨_, h.plain hi rfl rfl rfl rfl (fun _ => rfl) rfl rfl hkeep rfl rfl rfl rfl rfl
      (fun _ hx => hx) fun hw => (h.know hw).1,
      .plain (by rw [hcur]; trivial) rfl fun _ => Iff.rfl⟩
  | checkSched p k =>
    rw [hcur] at hs hkeep
    refine Option.some.inj hs ▸ fam_goOn h hi (by rw [hcur]; trivial) ?_
    split
    · exact hkeep
    · trivial
  | choose f =>
    rw [hcur] at hs
    exact Option.some.inj hs ▸ fam_choose h hi hcur
  | note e k =>
    rw [hcur] at hs
    exact Option.some.inj hs ▸ fam_note h hi hcur
  | jump l =>
    rw [hcur] at hs hkeep
    exact Option.some.inj hs ▸ fam_goOn h hi (by rw [hcur]; trivial) (keeps_loop hkeep)

omit [DecidableEq C] in
/-- A thread that has nothing left to do knows nothing that could get in the
way. -/
theorem FamInv.calm (h : FamInv cfg s Δ) (hi : KInv s Γ) (hd : s.cur c = .done) :
    (Δ (s.thread c)).Calm := by
  have hk := h.code.cpu c
  rw [hd] at hk
  refine ⟨hk.1, ?_, hk.2⟩
  by_contra hne
  obtain ⟨⟨q, st⟩, hq⟩ := Option.ne_none_iff_exists'.mp hne
  refine hi.lock_ne_of_free ?_ (h.hold.has hq).1
  rw [hi.user_of_done hd]
  rfl

omit [DecidableEq C] in
/-- Likewise a thread that can be interrupted. -/
theorem FamInv.calm_of_noff (h : FamInv cfg s Δ) (hi : KInv s Γ) (hn : s.noff c = 0) :
    (Δ (s.thread c)).wait = false ∧ (Δ (s.thread c)).has = none := by
  have hat := hi.at_of_noff hn
  constructor
  · by_contra hne
    have hl := h.hold.lock_wait hi (c := c) (by simpa using hne)
    have hlk := hi.lock (fun _ hq => (by cases hq)) hl
    rw [hat] at hlk
    cases hlk
  · by_contra hne
    obtain ⟨⟨q, st⟩, hq⟩ := Option.ne_none_iff_exists'.mp hne
    refine hi.lock_ne_of_free ?_ (h.hold.has hq).1
    rw [hat]
    rfl

/-- A thread is sent into other code. -/
theorem FamInv.goOn (h : FamInv cfg s Δ) (hi : KInv s Γ) {a : Act C} (ha : ∀ c b, a ≠ .step c b)
    (hk : Keeps cfg.initproc (s.exec c) k (Δ (s.thread c))) :
    ∃ Δ', FamInv cfg (s.goOn c k) Δ' ∧ Turn s Δ a (s.goOn c k) Δ' :=
  ⟨_, h.plain hi rfl rfl rfl rfl (fun _ => rfl) rfl rfl hk rfl rfl rfl rfl rfl (fun _ hx => hx)
    fun hw => (h.know hw).1,
    .still rfl (fun _ => ⟨fun hF => hF.back rfl rfl, fun hF => hF.keep rfl rfl⟩)
    (not_exits ha) (not_returns ha)⟩

/-- **Every step** keeps the family in order. -/
theorem fam_step (h : FamInv cfg s Δ) (hi : KInv s Γ) {a : Act C} (hs : step cfg s a = some s') :
    ∃ Δ', FamInv cfg s' Δ' ∧ Turn s Δ a s' Δ' := by
  unfold step at hs
  split at hs
  next c a => exact fam_exec h hi hs
  next c best =>
    split at hs
    next hx hd =>
      obtain rfl := Option.some.inj hs
      have hcalm := h.calm hi (c := c) (by rw [Kernel.cur, thread_of_idle hx, hd])
      refine h.goOn hi (fun _ _ he => by cases he) ?_
      rw [hx]
      exact keeps_scheduler best hcalm
    next => cases hs
  next c f =>
    split at hs
    next p hx =>
      split at hs
      next hd =>
        obtain rfl := Option.some.inj hs
        have hcalm := h.calm hi (c := c) (by rw [Kernel.cur, thread_of_exec hx, hd])
        refine h.goOn hi (fun _ _ he => by cases he) ?_
        rw [hx]
        exact keeps_call cfg f hcalm
      next => cases hs
    next => cases hs
  next c i =>
    split at hs
    next hn =>
      obtain ⟨hw, hh⟩ := h.calm_of_noff hi hn
      have hk := h.code.cpu c
      unfold Kernel.cur at hk
      split at hs
      next p hx =>
        obtain rfl := Option.some.inj hs
        refine h.goOn hi (fun _ _ he => by cases he) ?_
        rw [hx, congrArg s.code (thread_of_exec hx)] at hk
        rw [hx]
        exact keeps_yield hw hh hk
      next p ch n hx =>
        obtain rfl := Option.some.inj hs
        refine h.goOn hi (fun _ _ he => by cases he) ?_
        rw [hx, congrArg s.code (thread_of_exec hx)] at hk
        rw [hx]
        exact keeps_handler hw hh hk
      next ch n hx =>
        split at hs
        next hd =>
          obtain rfl := Option.some.inj hs
          have hcalm := h.calm hi (c := c) (by rw [Kernel.cur, thread_of_idle hx, hd])
          refine h.goOn hi (fun _ _ he => by cases he) ?_
          rw [hx]
          exact keeps_handler hw hh hcalm.done
        next => cases hs
      next => cases hs
    next => cases hs

end

/-! ## The record of a run -/

/-- Slot `q` has exited, with this `pid` and `xstate`; a `kwait` of process `p` has
returned those of slot `q`. -/
inductive Obs
  | exited (q : Slot) (pid : BitVec 32) (xstate : Int)
  | waited (p q : Slot) (pid : BitVec 32) (xstate : Int)

/-- The reachable states, each with the record of the run that led to it. -/
inductive Recorded (cfg : Config) : Kernel C → List Obs → Prop
  | start {s} (h : Init cfg s) : Recorded cfg s []
  | exit {s s' h a p} (hr : Recorded cfg s h) (hs : step cfg s a = some s') (he : Exits s a p) :
      Recorded cfg s' (h ++ [.exited p (s.proc p).pid (s.proc p).xstate])
  | wait {s s' h a p q} (hr : Recorded cfg s h) (hs : step cfg s a = some s')
      (he : Returns s a p q) :
      Recorded cfg s' (h ++ [.waited p q (s.proc q).pid (s.proc q).xstate])
  | other {s s' h a} (hr : Recorded cfg s h) (hs : step cfg s a = some s')
      (hx : ∀ p, ¬Exits s a p) (hw : ∀ p q, ¬Returns s a p q) : Recorded cfg s' h

/-- The exits of slot `q`, in order. -/
def exits (q : Slot) (h : List Obs) : List (BitVec 32 × Int) :=
  h.filterMap fun o => match o with
    | .exited q' pid x => if q' = q then some (pid, x) else none
    | .waited _ _ _ _ => none

/-- What `kwait`s have returned of slot `q`, in order. -/
def waits (q : Slot) (h : List Obs) : List (BitVec 32 × Int) :=
  h.filterMap fun o => match o with
    | .exited _ _ _ => none
    | .waited _ q' pid x => if q' = q then some (pid, x) else none

section
variable {cfg : Config} {s s' : Kernel C} {Γ : Views C} {Δ Δ' : Kins C} {a : Act C} {h : List Obs}
  {p q : Slot}

/-- What has exited has been returned or is owed. -/
structure Ledger (s : Kernel C) (Δ : Kins C) (h : List Obs) (q : Slot) : Prop where
  owed : Owed s Δ q → exits q h = waits q h ++ [((s.proc q).pid, (s.proc q).xstate)]
  paid : ¬Owed s Δ q → exits q h = waits q h

omit [DecidableEq C] in
/-- The books of a slot nothing happens to. -/
theorem Ledger.kept {h' : List Obs} (hL : Ledger s Δ h q) (hk : KeptAt s s' Δ Δ' q)
    (hx : exits q h' = exits q h) (hw : waits q h' = waits q h) : Ledger s' Δ' h' q := by
  refine ⟨fun ho => ?_, fun ho => ?_⟩
  · have ho' := hk.owed.mp ho
    obtain ⟨hp, hst⟩ := hk.same ho'
    rw [hx, hw, hp, hst]
    exact hL.owed ho'
  · rw [hx, hw]
    exact hL.paid fun ho' => ho (hk.owed.mpr ho')

theorem exits_exited (q p : Slot) (h : List Obs) (pid : BitVec 32) (x : Int) :
    exits q (h ++ [.exited p pid x]) = exits q h ++ if p = q then [(pid, x)] else [] := by
  by_cases hpq : p = q <;> simp [exits, hpq]

theorem exits_waited (q p p' : Slot) (h : List Obs) (pid : BitVec 32) (x : Int) :
    exits q (h ++ [.waited p p' pid x]) = exits q h := by
  simp [exits]

theorem waits_exited (q p : Slot) (h : List Obs) (pid : BitVec 32) (x : Int) :
    waits q (h ++ [.exited p pid x]) = waits q h := by
  simp [waits]

theorem waits_waited (q p p' : Slot) (h : List Obs) (pid : BitVec 32) (x : Int) :
    waits q (h ++ [.waited p p' pid x]) = waits q h ++ if p' = q then [(pid, x)] else [] := by
  by_cases hpq : p' = q <;> simp [waits, hpq]

omit [DecidableEq C] in
/-- One CPU moves, so one process exits. -/
theorem Exits.unique {p' : Slot} (h₁ : Exits s a p) (h₂ : Exits s a p') : p = p' := by
  obtain ⟨c, b, k, rfl, hx, -⟩ := h₁
  obtain ⟨c', b', k', he, hx', -⟩ := h₂
  cases he
  exact Option.some.inj (hx.symm.trans hx')

omit [DecidableEq C] in
theorem Exits.not_returns {p' : Slot} (h₁ : Exits s a p) (h₂ : Returns s a p' q) : False := by
  obtain ⟨c, b, k, rfl, -, hc⟩ := h₁
  obtain ⟨c', he, -, hc'⟩ := h₂
  cases he
  cases hc.symm.trans hc'

omit [DecidableEq C] in
theorem copied_inj {q q' : Slot} (h : Code.copied q = Code.copied q') : q = q' :=
  (Code.write.inj (congrFun h .yes)).1

omit [DecidableEq C] in
theorem Returns.unique {p' q' : Slot} (h₁ : Returns s a p q) (h₂ : Returns s a p' q') : q = q' := by
  obtain ⟨c, rfl, -, hc⟩ := h₁
  obtain ⟨c', he, -, hc'⟩ := h₂
  cases he
  exact copied_inj (Code.choose.inj (hc.symm.trans hc'))

omit [DecidableEq C] in
/-- An exit is entered in the books. -/
theorem Ledger.exit (hL : ∀ x, Ledger s Δ h x) (ht : Turn s Δ a s' Δ') (he : Exits s a p)
    (x : Slot) : Ledger s' Δ' (h ++ [.exited p (s.proc p).pid (s.proc p).xstate]) x := by
  cases ht with
  | quiet _ hx _ => exact absurd he (hx p)
  | ret hr _ _ _ => exact (he.not_returns hr).elim
  | @exit p' hx hk hn ho hp hst =>
    obtain rfl := he.unique hx
    by_cases hxp : x = p
    · subst hxp
      refine ⟨fun _ => ?_, fun hno => absurd ho hno⟩
      rw [exits_exited, waits_exited, if_pos rfl, hp, hst, (hL x).paid hn]
    · refine (hL x).kept (hk x hxp) ?_ (waits_exited _ _ _ _ _)
      rw [exits_exited, if_neg fun he => hxp he.symm, List.append_nil]

omit [DecidableEq C] in
/-- What is returned is what was owed. -/
theorem Ledger.wait (hL : ∀ x, Ledger s Δ h x) (ht : Turn s Δ a s' Δ') (he : Returns s a p q)
    (x : Slot) : Ledger s' Δ' (h ++ [.waited p q (s.proc q).pid (s.proc q).xstate]) x := by
  cases ht with
  | quiet _ _ hr => exact absurd he (hr p q)
  | exit hx _ _ _ _ _ => exact (hx.not_returns he).elim
  | @ret p' q' hr hk ho hn =>
    obtain rfl := he.unique hr
    by_cases hxq : x = q
    · subst hxq
      refine ⟨fun ho' => absurd ho' hn, fun _ => ?_⟩
      rw [exits_waited, waits_waited, if_pos rfl, (hL x).owed ho]
    · refine (hL x).kept (hk x hxq) (exits_waited _ _ _ _ _ _) ?_
      rw [waits_waited, if_neg fun he => hxq he.symm, List.append_nil]

omit [DecidableEq C] in
theorem Ledger.other (hL : ∀ x, Ledger s Δ h x) (ht : Turn s Δ a s' Δ')
    (hx : ∀ p, ¬Exits s a p) (hw : ∀ p q, ¬Returns s a p q) (x : Slot) : Ledger s' Δ' h x := by
  cases ht with
  | quiet hk _ _ => exact (hL x).kept (hk x) rfl rfl
  | exit he _ _ _ _ _ => exact absurd he (hx _)
  | ret hr _ _ _ => exact absurd hr (hw _ _)

/-! ## Whole runs -/

omit [DecidableEq C] in
theorem init_fam {cfg : Config} (h : Init cfg s) : FamInv cfg s fun _ => .user := by
  have hst : ∀ {q}, q ≠ cfg.initproc → (s.proc q).state = .UNUSED := by
    intro q hq
    rw [h.other q hq]
    rfl
  have hinit : (s.proc cfg.initproc).state = .RUNNABLE := by rw [h.init]
  have hz : ∀ q, ¬zombies s q := by
    intro q hq
    have hq' : (s.proc q).state = .ZOMBIE := hq
    by_cases hi : q = cfg.initproc
    · rw [hi, hinit] at hq'
      cases hq'
    · rw [hst hi] at hq'
      cases hq'
  refine ⟨⟨fun c => ?_, fun {c p} hx => ?_, fun {p} hp => ?_⟩, ⟨nofun, nofun⟩,
    ⟨nofun, nofun, nofun, nofun, fun hp => absurd rfl hp⟩, nofun,
    ⟨fun {x o} hx => ?_, fun _ => h.parent _, fun hq ha => ?_, fun hq => absurd hq (hz _), ?_,
      fun hx => absurd hx (hz _)⟩⟩
  · rw [Kernel.cur, thread_of_idle (h.exec c), h.sched]
    exact ⟨rfl, rfl⟩
  · rw [h.exec] at hx
    cases hx
  · have hi : p = cfg.initproc := by
      by_contra hne
      exact hp.unused (hst hne)
    rw [hi, h.start]
    exact ⟨keeps_forkret rfl rfl, .inl rfl⟩
  · rw [h.parent] at hx
    cases hx
  · rw [hst hq] at ha
    exact ha.elim
  · rw [hinit]
    trivial

theorem Recorded.reach {cfg : Config} (hr : Recorded cfg s h) :
    Reach (step cfg) Any (Init cfg) s := by
  induction hr with
  | start hi => exact .start hi
  | exit _ hs _ ih | wait _ hs _ ih | other _ hs _ _ ih => exact .next ih trivial hs

/-- A step adds to the record. -/
theorem Recorded.next {cfg : Config} (hr : Recorded cfg s h) (hs : step cfg s a = some s') :
    ∃ h', h <+: h' ∧ Recorded cfg s' h' := by
  by_cases hx : ∃ p, Exits s a p
  · obtain ⟨p, hx⟩ := hx
    exact ⟨_, List.prefix_append h _, .exit hr hs hx⟩
  · by_cases hw : ∃ p q, Returns s a p q
    · obtain ⟨p, q, hw⟩ := hw
      exact ⟨_, List.prefix_append h _, .wait hr hs hw⟩
    · exact ⟨_, List.prefix_refl h, .other hr hs (fun p hp => hx ⟨p, hp⟩)
        fun p q hq => hw ⟨p, q, hq⟩⟩

theorem Recorded.run {cfg : Config} : ∀ (as : List (Act C)) {s s' : Kernel C} {h : List Obs},
    Recorded cfg s h → runFrom (step cfg) s as = some s' → ∃ h', h <+: h' ∧ Recorded cfg s' h' := by
  intro as
  induction as with
  | nil =>
    intro s s' h hr hrun
    rw [runFrom_nil, Option.some.injEq] at hrun
    exact ⟨h, List.prefix_refl h, hrun ▸ hr⟩
  | cons a as ih =>
    intro s s' h hr hrun
    rw [runFrom_cons] at hrun
    obtain ⟨s₁, h₁, hrest⟩ := Option.bind_eq_some_iff.mp hrun
    obtain ⟨h', hh', hr'⟩ := hr.next h₁
    obtain ⟨h'', hh'', hr''⟩ := ih hr' hrest
    exact ⟨h'', hh'.trans hh'', hr''⟩

/-- Every reachable state has a record. -/
theorem recorded_of_reach {cfg : Config} (hs : Reach (step cfg) Any (Init cfg) s) :
    ∃ h, Recorded cfg s h := by
  induction hs with
  | start hi => exact ⟨_, .start hi⟩
  | next _ _ hs ih =>
    obtain ⟨h, hr⟩ := ih
    obtain ⟨h', -, hr'⟩ := hr.next hs
    exact ⟨h', hr'⟩

/-- The family is in order and the books are right after every run. -/
theorem Recorded.inv {cfg : Config} (hr : Recorded cfg s h) :
    ∃ (Γ : Views C) (Δ : Kins C), KInv s Γ ∧ FamInv cfg s Δ ∧ ∀ q, Ledger s Δ h q := by
  induction hr with
  | start hi =>
    have hfam := init_fam hi
    refine ⟨_, _, init_kinv hi, hfam, fun q => ⟨fun ho => ?_, fun _ => rfl⟩⟩
    -- nobody is a zombie at boot
    exact absurd (hi.parent q) (hfam.fam.zomb ho.1 ho.2)
  | exit _ hs he ih =>
    obtain ⟨Γ, Δ, hi, hfam, hL⟩ := ih
    obtain ⟨Γ', hg⟩ := typed_step hi hs
    obtain ⟨Δ', hfam', ht⟩ := fam_step hfam hi hs
    exact ⟨Γ', Δ', gstep_kinv hi hg, hfam', fun q => .exit hL ht he q⟩
  | wait _ hs he ih =>
    obtain ⟨Γ, Δ, hi, hfam, hL⟩ := ih
    obtain ⟨Γ', hg⟩ := typed_step hi hs
    obtain ⟨Δ', hfam', ht⟩ := fam_step hfam hi hs
    exact ⟨Γ', Δ', gstep_kinv hi hg, hfam', fun q => .wait hL ht he q⟩
  | other _ hs hx hw ih =>
    obtain ⟨Γ, Δ, hi, hfam, hL⟩ := ih
    obtain ⟨Γ', hg⟩ := typed_step hi hs
    obtain ⟨Δ', hfam', ht⟩ := fam_step hfam hi hs
    exact ⟨Γ', Δ', gstep_kinv hi hg, hfam', fun q => .other hL ht hx hw q⟩

/-- `p` is SLEEPING in `kwait`: the condition it last found false is that it has no
zombie child. -/
def SleepsInKwait (s : Kernel C) (p : Slot) : Prop :=
  (s.proc p).state = .SLEEPING ∧ s.test p = some (.proc p, .wait)

omit [DecidableEq C] in
/-- With `wait_lock` free, everybody but `initproc` has a live parent. -/
theorem FamInv.parented {cfg : Config} (h : FamInv cfg s Δ) (hl : s.lock .wait = none)
    (hq : q ≠ cfg.initproc) (hst : Alive (s.proc q).state ∨ (s.proc q).state = .ZOMBIE) :
    ∃ o, s.parent q = some o ∧ Alive (s.proc o).state := by
  have hne : s.parent q ≠ none := by
    rcases hst with ha | hz
    · exact h.fam.kid hq ha
    · refine h.fam.zomb hz fun ⟨t, hw, _⟩ => ?_
      rw [h.hold.nobody hl t] at hw
      cases hw
  obtain ⟨o, ho⟩ := Option.ne_none_iff_exists'.mp hne
  exact ⟨o, ho, h.fam.par ho⟩

omit [DecidableEq C] in
/-- With `wait_lock` free, the parent of a zombie has been woken since it last
looked. -/
theorem FamInv.told {cfg : Config} (h : FamInv cfg s Δ) (hl : s.lock .wait = none)
    (hq : (s.proc q).state = .ZOMBIE) (hp : s.parent q = some p) : Told s p := by
  refine (h.fam.heard hq hp).resolve_right fun ⟨_, t, hw, _⟩ => ?_
  rw [h.hold.nobody hl t] at hw
  cases hw

/-- A release by the CPU that has the lock. -/
theorem step_release (cfg : Config) {c : C} {l : Lock} {k : Code} (b : Choice)
    (hc : s.cur c = .release l k) (hl : s.lock l = some c) :
    ∃ s', step cfg s (.step c b) = some s' ∧ s'.cur c = k ∧ s'.proc = s.proc ∧
      s'.parent = s.parent ∧ s'.lock = Function.update s.lock l none := by
  refine ⟨{ s.goOn c k with
    lock := Function.update s.lock l none, noff := Function.update s.noff c (s.noff c - 1) },
    ?_, cur_goOn s c k, rfl, rfl, rfl⟩
  show s.exec1 cfg c b = _
  unfold Kernel.exec1
  rw [hc]
  simp only [Kernel.release, if_pos hl]

/-- A `kwait` whose `copyout` fails gives up its two locks, and nothing else has
happened. -/
theorem FamInv.copyout_fails {cfg : Config} (hfam : FamInv cfg s Δ) (hi : KInv s Γ) {c : C}
    (hx : s.exec c = some p) (hc : s.cur c = .choose (Code.copied q)) {b : Choice} (hb : b ≠ .yes) :
    ∃ s', runFrom (step cfg) s [.step c b, .step c b, .step c b] = some s' ∧
      s'.lock .wait = none ∧ s'.cur c = .done ∧ s'.proc = s.proc ∧ s'.parent = s.parent ∧
      (s.proc q).state = .ZOMBIE ∧ s.parent q = some p := by
  have hkeep := hfam.code.cpu c
  rw [hc] at hkeep
  rcases hkeep with ⟨hne, -⟩ | ⟨q', p', he, hme, hw, hh, -, hkn, -⟩
  · exact absurd rfl (hne q)
  · obtain rfl := copied_inj he
    obtain rfl := Option.some.inj (hx.symm.trans hme)
    obtain ⟨hlq, hst⟩ := hfam.hold.has hh
    have hlw := hfam.hold.lock_wait hi hw
    -- the choice, and the two releases
    obtain ⟨s₁, h₁, hc₁, hproc₁, hpar₁, hlock₁⟩ : ∃ s₁, step cfg s (.step c b) = some s₁ ∧
        s₁.cur c = .release (.proc q) (.release .wait .done) ∧ s₁.proc = s.proc ∧
        s₁.parent = s.parent ∧ s₁.lock = s.lock := by
      refine ⟨s.goOn c (Code.copied q b), ?_, ?_, rfl, rfl, rfl⟩
      · show s.exec1 cfg c b = _
        unfold Kernel.exec1
        rw [hc]
      · rw [cur_goOn]
        cases b with
        | yes => exact absurd rfl hb
        | no | wake _ | wait _ => rfl
    obtain ⟨s₂, h₂, hc₂, hproc₂, hpar₂, hlock₂⟩ := step_release cfg b hc₁ (hlock₁ ▸ hlq)
    have hlw₂ : s₂.lock .wait = some c := by
      rw [hlock₂, Function.update_of_ne (by simp), hlock₁]
      exact hlw
    obtain ⟨s₃, h₃, hc₃, hproc₃, hpar₃, hlock₃⟩ := step_release cfg b hc₂ hlw₂
    refine ⟨s₃, ?_, by rw [hlock₃, Function.update_self], hc₃, by rw [hproc₃, hproc₂, hproc₁],
      by rw [hpar₃, hpar₂, hpar₁], hst, hkn _ _ (hfam.know hw).1⟩
    rw [runFrom_cons, h₁, Option.bind_some, runFrom_cons, h₂, Option.bind_some, runFrom_cons, h₃]
    rfl

/-- **Exit and wait agree.** In every run, whenever `wait_lock` is free, everybody
but `initproc` that is RUNNABLE, RUNNING, SLEEPING or ZOMBIE has a parent that is
neither UNUSED nor ZOMBIE; nobody is SLEEPING in `kwait` with a ZOMBIE child; and
slot by slot the exits of the run are those that `kwait`s have returned, in the same
order, followed by the `pid` and `xstate` of the ZOMBIE that is still there. And
wherever a `kwait` is at its `copyout`, a failure of it ends the call with the
ZOMBIE, and everything else in the table, as it was. -/
theorem exit_wait_agree {cfg : Config} (hr : Recorded cfg s h) :
    (s.lock .wait = none →
      (∀ q, q ≠ cfg.initproc → Alive (s.proc q).state ∨ (s.proc q).state = .ZOMBIE →
        ∃ o, s.parent q = some o ∧ (s.proc o).state ≠ .UNUSED ∧ (s.proc o).state ≠ .ZOMBIE) ∧
      (∀ p x, SleepsInKwait s p → s.parent x = some p → (s.proc x).state ≠ .ZOMBIE) ∧
      ∀ q, exits q h = waits q h ++
        if (s.proc q).state = .ZOMBIE then [((s.proc q).pid, (s.proc q).xstate)] else []) ∧
    ∀ c p q b, s.exec c = some p → s.cur c = .choose (Code.copied q) → b ≠ .yes →
      ∃ s', runFrom (step cfg) s [.step c b, .step c b, .step c b] = some s' ∧
        s'.lock .wait = none ∧ s'.cur c = .done ∧ s'.proc = s.proc ∧ s'.parent = s.parent ∧
        (s.proc q).state = .ZOMBIE ∧ s.parent q = some p := by
  obtain ⟨Γ, Δ, hi, hfam, hL⟩ := hr.inv
  refine ⟨fun hl => ⟨fun q hq hst => ?_, fun p x ⟨hsl, ht⟩ hp hz => ?_, fun q => ?_⟩,
    fun c p q b hx hc hb => hfam.copyout_fails hi hx hc hb⟩
  · obtain ⟨o, ho, ha⟩ := hfam.parented hl hq hst
    refine ⟨o, ho, fun hu => ?_, fun hz => ?_⟩
    · rw [hu] at ha
      exact ha
    · rw [hz] at ha
      exact ha
  · -- a `wakeup` that came since the test would have woken it
    obtain ⟨ch, l, -, ht', hm⟩ := no_lost_wakeup hr.reach hsl
    rw [hfam.told hl hz hp ht] at hm
    cases hm
  · split
    next hz =>
      refine (hL q).owed ⟨hz, fun ⟨t, hw, _⟩ => ?_⟩
      rw [hfam.hold.nobody hl t] at hw
      cases hw
    next hz =>
      rw [List.append_nil]
      exact (hL q).paid fun ho => hz ho.1

end

/-! ## The exit of a child -/

section

variable (cfg : Config) {s : Kernel C} {c : C} {v : Version} {k : Code}

/-- `reparent` finds no child. -/
theorem reparent_passes {i p : Slot} :
    ∀ (qs : List Slot) {s : Kernel C}, s.cur c = Code.reparent v i p qs k →
    (∀ q ∈ qs, s.parent q ≠ some p) → ∃ as, runFrom (step cfg) s as = some (s.goOn c k) := by
  intro qs
  induction qs with
  | nil => exact fun {s} hc _ => ⟨[], congrArg some (goOn_cur hc).symm⟩
  | cons q qs ih =>
    intro s hc hq
    have hstep := run_readParent cfg hc
    rw [if_neg (hq q List.mem_cons_self)] at hstep
    obtain ⟨as, has⟩ := @ih (s.goOn c (Code.reparent v i p qs k)) (cur_goOn _ _ _)
      fun q' hq' => hq q' (List.mem_cons_of_mem q hq')
    exact ⟨_, (runFrom_append hstep has).trans (congrArg some (goOn_goOn _ _ _ _))⟩

/-- `kexit` of a process without children, whose parent is awake, up to its last part. -/
theorem kexit_passes {i p o : Slot} (hc : s.cur c = .acquire .wait
      (.reparent v i p Code.slots <| .readParent p fun o => .wakeParent v p o k))
    (hw : s.lock .wait = none)
    (hl : ∀ q, s.lock (.proc q) = none ∧ (s.proc q).state ≠ .SLEEPING)
    (hp : ∀ q, s.parent q ≠ some p) (ho : s.parent p = some o) :
    ∃ as, runFrom (step cfg) s as = some (s.locked c .wait (.note (.woken (.proc o) .wait) k)) := by
  -- nobody is handed to `initproc`
  obtain ⟨as, has⟩ := reparent_passes cfg Code.slots (cur_locked s c .wait _) fun q _ => hp q
  rw [goOn_locked] at has
  -- and the parent does not sleep
  have hread := run_readParent cfg (cur_locked s c .wait
    (.readParent p fun o => .wakeParent v p o k))
  rw [goOn_locked, show (s.locked c .wait _).parent p = some o from ho] at hread
  obtain ⟨bs, hbs⟩ := wakeup_passes cfg (v := v) (k := .note (.woken (.proc o) .wait) k)
    (some p) (some (.proc o)) Code.slots (cur_locked s c .wait _) fun q _ =>
      ⟨(lock_locked Lock.noConfusion _).trans (hl q).1, fun hs => (hl q).2 hs.1⟩
  rw [goOn_locked] at hbs
  exact ⟨_, runFrom_append (runFrom_append (runFrom_append (run_acquire cfg hc hw) has) hread) hbs⟩

/-- The call of `kexit`, as far as that. -/
theorem kexit_call {p o : Slot} {status : Int} (hi : p ≠ cfg.initproc) (hx : s.exec c = some p)
    (hcan : (step cfg s (.call c (.kexit status))).isSome) (hw : s.lock .wait = none)
    (hl : ∀ q, s.lock (.proc q) = none ∧ (s.proc q).state ≠ .SLEEPING)
    (hp : ∀ q, s.parent q ≠ some p) (ho : s.parent p = some o) :
    ∃ as, runFrom (step cfg) s as = some (s.locked c .wait <| .note (.woken (.proc o) .wait) <|
      .acquire (.proc p) <| .setXstate p status <| .setState p .ZOMBIE <| .release .wait <|
        .sched p .panic) := by
  obtain ⟨as, has⟩ := kexit_passes cfg (s := s.goOn c (Call.code cfg p (.kexit status)))
    ((cur_goOn _ _ _).trans (if_neg hi)) hw hl hp ho
  exact ⟨_, (runFrom_append (run_call cfg hx hcan) has).trans (congrArg some (locked_goOn ..))⟩

end

/-- `initproc` is dispatched on CPU 0 and forks; the child, in slot 1, runs on CPU 1. -/
def initForks : List (Act (Fin 2)) :=
  .dispatch hart0 0 :: List.replicate 7 (.step hart0 .yes) ++
    .call hart0 .kfork :: List.replicate 22 (.step hart0 .yes) ++
      .dispatch hart1 1 :: List.replicate 7 (.step hart1 .yes)

def forked : Kernel (Fin 2) :=
  (runFrom (step ⟨.v6, 0⟩) (Kernel.boot (Fin 2)) initForks).getD (Kernel.boot (Fin 2))

/-- The child after its `wakeup(p->parent)`. -/
def exiting : Kernel (Fin 2) :=
  forked.locked hart1 .wait <| .note (.woken (.proc 0) .wait) <| .acquire (.proc 1) <|
    .setXstate 1 3 <| .setState 1 .ZOMBIE <| .release .wait <| .sched 1 .panic

/-- It becomes a zombie, and CPU 1 goes back to its scheduler. -/
def exitEnds : List (Act (Fin 2)) := List.replicate 10 (.step hart1 .yes)

def initWaits : List (Act (Fin 2)) := .call hart0 .kwait :: List.replicate 18 (.step hart0 .yes)

theorem exiting_reach : Reach (step ⟨.v6, 0⟩) Any (Init ⟨.v6, 0⟩) exiting := by
  have hsome : (runFrom (step ⟨.v6, 0⟩) (Kernel.boot (Fin 2)) initForks).isSome := by
    decide +kernel
  have hrun : runFrom (step ⟨.v6, 0⟩) (Kernel.boot (Fin 2)) initForks = some forked :=
    Option.eq_some_iff_get_eq.mpr ⟨hsome, Option.get_eq_getD _⟩
  have hcan : forked.exec hart1 = some 1 ∧
      (step ⟨.v6, 0⟩ forked (.call hart1 (.kexit 3))).isSome := by
    decide +kernel
  have hfree : forked.lock .wait = none ∧
      (∀ q, forked.lock (.proc q) = none ∧ (forked.proc q).state ≠ .SLEEPING) ∧
      (∀ q, forked.parent q ≠ some 1) ∧ forked.parent 1 = some 0 := by
    decide +kernel
  obtain ⟨hw, hl, hp, ho⟩ := hfree
  obtain ⟨as, has⟩ := kexit_call ⟨.v6, 0⟩ (by decide) hcan.1 hcan.2 hw hl hp ho
  have hreach : Reach (step ⟨.v6, 0⟩) Any (Init ⟨.v6, 0⟩) forked :=
    .of_run initForks (.start (boot_init .v6)) (RunOk.any _ _ _) hrun
  exact .of_run _ hreach (RunOk.any _ _ _) has

theorem exit_wait_agree_waited :
    ∃ (s s' : Kernel (Fin 2)) (h h' : List Obs),
      runFrom (step ⟨.v6, 0⟩) exiting exitEnds = some s ∧ Recorded ⟨.v6, 0⟩ s h ∧
      runFrom (step ⟨.v6, 0⟩) s initWaits = some s' ∧ Recorded ⟨.v6, 0⟩ s' h' ∧
      s.parent 1 = some 0 ∧ (s.proc 0).state ≠ .ZOMBIE ∧ exits 1 h = waits 1 h ++ [(2, 3)] ∧
      (s'.proc 1).state = .UNUSED ∧ exits 1 h' = waits 1 h' ∧ (2, 3) ∈ waits 1 h' := by
  have hobs : (runFrom (step ⟨.v6, 0⟩) exiting exitEnds).map (fun s =>
      (s.lock .wait, (s.proc 1).state, (s.proc 1).pid, (s.proc 1).xstate, s.parent 1)) =
      some (none, .ZOMBIE, 2, 3, some 0) := by
    decide +kernel
  have hobs' : ((runFrom (step ⟨.v6, 0⟩) exiting exitEnds).bind fun s =>
      (runFrom (step ⟨.v6, 0⟩) s initWaits).map fun s' => (s'.lock .wait, (s'.proc 1).state)) =
      some (none, .UNUSED) := by
    decide +kernel
  obtain ⟨s, hs, hobs⟩ := Option.map_eq_some_iff.mp hobs
  rw [hs, Option.bind_some] at hobs'
  obtain ⟨s', hs', hobs'⟩ := Option.map_eq_some_iff.mp hobs'
  obtain ⟨hl, hobs⟩ := Prod.mk.inj hobs
  obtain ⟨hst, hobs⟩ := Prod.mk.inj hobs
  obtain ⟨hpid, hobs⟩ := Prod.mk.inj hobs
  obtain ⟨hx, hp⟩ := Prod.mk.inj hobs
  obtain ⟨hl', hst'⟩ := Prod.mk.inj hobs'
  obtain ⟨h, hr⟩ := recorded_of_reach (.of_run exitEnds exiting_reach (RunOk.any _ _ _) hs)
  obtain ⟨h', hh, hr'⟩ := hr.run initWaits hs'
  -- the child is a zombie, and owed to its parent
  obtain ⟨hpar, -, hbooks⟩ := (exit_wait_agree hr).1 hl
  obtain ⟨o, ho, -, hoz⟩ := hpar 1 (by decide) (.inr hst)
  rw [hp] at ho
  obtain rfl := Option.some.inj ho
  have howed := hbooks 1
  rw [if_pos hst, hpid, hx] at howed
  -- and then it has been returned
  have hpaid := ((exit_wait_agree hr').1 hl').2.2 1
  rw [if_neg (by rw [hst']; decide), List.append_nil] at hpaid
  refine ⟨s, s', h, h', hs, hr, hs', hr', hp, hoz, howed, hst', hpaid, ?_⟩
  rw [← hpaid]
  refine (hh.filterMap _).subset ?_
  show (2, 3) ∈ exits 1 h
  rw [howed]
  exact List.mem_append_right _ List.mem_cons_self

end Xv6.Proc
