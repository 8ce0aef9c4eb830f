import Xv6.Intr.Machine

/-!
# A thread and the CPU under it

What holds of a thread before each of its statements, on the CPU that is executing it
(`OnCpu`), and that the statements which touch one CPU keep it (`OnCpu.advance`).

`noff` is the depth of the thread, and `intena` what the thread found at its outermost
`push_off`. A thread that is switched from or to has depth 1, so that `noff` is right for
the other one as well; `intena` is not, and `sched` carries it in a local variable:
between `swtch` and the assignment after it the CPU's `intena` is anybody's
(`At.restore`, `Parked`).

A handler begins with `noff` 0 and interrupts off, so every `push_off` in it finds them
off and no `pop_off` in it turns them on (`Quiet`): there is one frame below it at most.
-/

namespace Xv6.Intr

open Lib

variable {C P L : Type*}

/-- Where `acquire` and `push_off` return to: the scheduler calls `acquire(&p->lock)` alone. -/
def Returns (w : Option (Lock P L)) (depth : Nat) : Pc P → Prop
  | .body => True
  | .check p => w = some (.proc p) ∧ depth = 0
  | _ => False

/-- What holds before a statement, of a thread with this depth and this `before` on a CPU
with this `sie`. -/
def CurOk (sie : Bool) (depth : Nat) (before : Option Bool) : At P L → Prop
  | .code .body => True
  | .code .intrOn | .code .intrOff | .code .pick => depth = 0
  | .code (.check _) | .code (.swtch _) | .code (.back _) => depth = 1
  | .getOld w was ret => was = sie ∧ Returns w depth ret
  | .turnOff w old was ret => old = was ∧ was = sie ∧ Returns w depth ret
  | .count w old was ret => old = was ∧ sie = false ∧ Returns w depth ret
  | .test l ret | .spin l ret => 0 < depth ∧
      (ret = .body ∨ ∃ p, ret = .check p ∧ l = .proc p ∧ depth = 1)
  | .popOff ret => 0 < depth ∧ (ret = .body ∨ ret = .pick ∧ depth = 1)
  | .turnOn was ret => depth = 0 ∧ (∀ b, was = some b → b = true) ∧ (ret = .body ∨ ret = .pick)
  | .popped was ret => (∀ b, was = some b → sie = b) ∧ (ret = .body ∨ ret = .pick ∧ depth = 0)
  | .leaving intena | .restore intena => depth = 1 ∧ ∀ b, before = some b → intena = b
  | .panic e => e ≠ .popOff ∧ e ≠ .popOffInterruptible

/-- What a handler may be doing. -/
def Quiet : At P L → Prop
  | .code pc => pc = .body
  | .getOld _ was ret | .turnOff _ _ was ret | .count _ _ was ret => was = false ∧ ret = .body
  | .test _ ret | .spin _ ret | .popOff ret | .popped _ ret => ret = .body
  | .turnOn _ _ => False
  | .leaving _ | .restore _ | .panic _ => True

/-- A frame that was interrupted. -/
def Waits (f : At P L) : Prop := CurOk true 0 none f

/-- The frame below a handler, and what the handler may rely on. -/
def Handles (x : Cpu P) (t : Stack P L) : Prop :=
  ∃ f, t.below = [f] ∧ Waits f ∧ x.sie = false ∧ (0 < t.depth → t.before = some false) ∧ Quiet t.cur

/-- A thread and the CPU that is executing it. -/
structure OnCpu (x : Cpu P) (t : Stack P L) : Prop where
  noff : x.noff = t.depth
  off : 0 < t.depth → x.sie = false
  intena : 0 < t.depth → (∀ b, t.cur ≠ .restore b) → ∀ b, t.before = some b → x.intena = b
  cur : CurOk x.sie t.depth t.before t.cur
  below : t.below = [] ∨ Handles x t

/-- A thread that any CPU whose `noff` is 1 may resume. -/
def Parked (t : Stack P L) : Prop := ∀ x : Cpu P, x.noff = 1 → x.sie = false → OnCpu x t

/-- A scheduler that waits for a process to come back. -/
def Idle (t : Stack P L) : Prop :=
  t.depth = 1 ∧ t.below = [] ∧ ∃ p, t.cur = .code (.back p)

section Local

variable {x x' : Cpu P} {t t' : Stack P L} {f : At P L} {sie : Bool} {b b' : Option Bool}

/-- With nothing to undo `before` does not matter. -/
theorem CurOk.idle (h : CurOk sie 0 b f) : CurOk sie 0 b' f := by
  cases f with
  | code pc => cases pc <;> exact h
  | leaving i => exact absurd h.1 Nat.zero_ne_one
  | restore i => exact absurd h.1 Nat.zero_ne_one
  | _ => exact h

/-- Going on at a place where the same is known of the CPU. -/
theorem OnCpu.goto (h : OnCpu x t) (hcur : CurOk x.sie t.depth t.before f)
    (hres : ∀ b, t.cur = .restore b → ∃ b', f = .restore b') (hq : Quiet t.cur → Quiet f) :
    OnCpu x (t.goto f) where
  noff := h.noff
  off := h.off
  intena hd hf := h.intena hd fun b hb => by
    obtain ⟨b', hb'⟩ := hres b hb
    exact hf b' hb'
  cur := hcur
  below := h.below.imp_right fun ⟨g, hb, hw, hs, hbefore, hc⟩ => ⟨g, hb, hw, hs, hbefore, hq hc⟩

/-- A call from kernel code. -/
theorem OnCpu.enter (h : OnCpu x t) (hbody : t.cur = .code .body)
    (hcur : CurOk x.sie t.depth t.before f) (hq : x.sie = false → Quiet f) :
    OnCpu x (t.goto f) where
  noff := h.noff
  off := h.off
  intena hd _ := h.intena hd (by simp [hbody])
  cur := hcur
  below := h.below.imp_right fun ⟨g, hb, hw, hs, hbefore, _⟩ => ⟨g, hb, hw, hs, hbefore, hq hs⟩

/-- Nothing lies below what no handler does. -/
theorem OnCpu.base (h : OnCpu x t) (hq : ¬Quiet t.cur) : t.below = [] :=
  h.below.resolve_right fun ⟨_, _, _, _, _, hc⟩ => hq hc

theorem Returns.of_none {depth : Nat} {ret : Pc P}
    (h : Returns (none : Option (Lock P L)) depth ret) : ret = .body := by
  cases ret with
  | body => rfl
  | check p => exact absurd h.1.symm (Option.some_ne_none _)
  | _ => exact h.elim

theorem Returns.of_some {depth : Nat} {ret : Pc P} {l : Lock P L} (h : Returns (some l) depth ret) :
    ret = .body ∨ ∃ p, ret = .check p ∧ l = .proc p ∧ depth + 1 = 1 := by
  cases ret with
  | body => exact .inl rfl
  | check p => exact .inr ⟨p, rfl, Option.some.inj h.1, by rw [h.2]⟩
  | _ => exact h.elim

/-- `mycpu()->noff += 1`. -/
theorem OnCpu.count {w : Option (Lock P L)} {old was : Bool} {ret : Pc P} (h : OnCpu x t)
    (hc : t.cur = .count w old was ret) :
    OnCpu { x with intena := if x.noff = 0 then old else x.intena, noff := x.noff + 1 }
      { t with
        cur := match w with
          | some l => .test l ret
          | none => .code ret
        depth := t.depth + 1
        before := if t.depth = 0 then some was else t.before } := by
  have hcur := h.cur
  rw [hc] at hcur
  obtain ⟨hold, hsie, hret⟩ := hcur
  refine ⟨by rw [h.noff], fun _ => hsie, fun _ _ b hb => ?_, ?_, ?_⟩
  · -- the outermost call saves what it found
    show (if x.noff = 0 then old else x.intena) = b
    rw [h.noff]
    by_cases hd : t.depth = 0
    · rw [if_pos hd] at hb ⊢
      rw [hold]
      exact Option.some.inj hb
    · rw [if_neg hd] at hb ⊢
      exact h.intena (Nat.pos_of_ne_zero hd) (by simp [hc]) b hb
  · cases w with
    | none =>
      rw [hret.of_none]
      exact trivial
    | some l => exact ⟨Nat.succ_pos _, hret.of_some⟩
  · refine h.below.imp_right fun ⟨g, hb, hw, _, hbefore, hq⟩ => ⟨g, hb, hw, hsie, fun _ => ?_, ?_⟩
    · rw [hc] at hq
      show (if t.depth = 0 then some was else t.before) = some false
      split
      next => rw [hq.1]
      next hd => exact hbefore (Nat.pos_of_ne_zero hd)
    · rw [hc] at hq
      cases w with
      | none => exact hq.2
      | some l => exact hq.2

/-- `c->noff -= 1`. -/
theorem OnCpu.popOff {ret : Pc P} (h : OnCpu x t) (hc : t.cur = .popOff ret) :
    OnCpu { x with noff := x.noff - 1 }
      { t with
        cur := if x.noff - 1 = 0 ∧ x.intena = true then .turnOn
          (if t.depth = 1 then t.before else none) ret
          else .popped (if t.depth = 1 then t.before else none) ret
        depth := t.depth - 1 } := by
  have hcur := h.cur
  rw [hc] at hcur
  obtain ⟨hpos, hret⟩ := hcur
  have hsie := h.off hpos
  have hin : ∀ b, t.before = some b → x.intena = b :=
    h.intena hpos (by simp [hc])
  have hnoff := h.noff
  refine ⟨by show x.noff - 1 = t.depth - 1; rw [hnoff], fun _ => hsie, fun _ _ => hin, ?_, ?_⟩
  · show CurOk x.sie (t.depth - 1) t.before _
    split
    next hon =>
      have hone : t.depth = 1 := by omega
      refine ⟨by omega, fun b hb => ?_, hret.imp_right And.left⟩
      rw [if_pos hone] at hb
      exact (hin b hb).symm.trans hon.2
    next hoff =>
      refine ⟨fun b hb => ?_, hret.imp_right fun hr => ⟨hr.1, by omega⟩⟩
      split at hb
      next hone =>
        have hfalse : x.intena = false :=
          Bool.eq_false_of_not_eq_true fun hi => hoff ⟨by omega, hi⟩
        rw [hsie, ← hin b hb, hfalse]
      next => exact absurd hb.symm (Option.some_ne_none b)
  · refine h.below.imp_right fun ⟨g, hb, hw, _, hbefore, hq⟩ =>
      ⟨g, hb, hw, hsie, fun _ => hbefore hpos, ?_⟩
    rw [hc] at hq
    -- a handler's outermost `push_off` found interrupts off
    have hfalse : x.intena = false := hin false (hbefore hpos)
    show Quiet (if x.noff - 1 = 0 ∧ x.intena = true then _ else _)
    rw [if_neg fun hi => Bool.false_ne_true (hfalse.symm.trans hi.2)]
    exact hq

/-- `sie` changes at the bottom of the stack, where nothing has to be undone. -/
theorem OnCpu.setSie (h : OnCpu x t) (hd : t.depth = 0) (hb : t.below = []) (sie : Bool)
    (hf : CurOk sie 0 t.before f) : OnCpu { x with sie := sie } (t.goto f) where
  noff := h.noff
  off hpos := absurd hpos
    (by rw [show (t.goto f).depth = t.depth from rfl, hd]; exact Nat.lt_irrefl 0)
  intena hpos :=
    absurd hpos (by rw [show (t.goto f).depth = t.depth from rfl, hd]; exact Nat.lt_irrefl 0)
  cur := by
    show CurOk sie t.depth t.before f
    rw [hd]
    exact hf
  below := .inl hb

/-- **A statement that touches one CPU.** -/
theorem OnCpu.advance (h : OnCpu x t) (hs : t.advance x = some (x', t')) :
    OnCpu x' t' ∧ x'.proc = x.proc ∧ (∀ p, t'.cur ≠ .code (.check p)) ∧
      ∀ p, t'.cur ≠ .code (.swtch p) := by
  have hcur := h.cur
  unfold Stack.advance at hs
  split at hs
  -- `push_off` reads `old`, and interrupts are not on again before they are turned off
  next w was ret hc =>
    obtain ⟨rfl, rfl⟩ := Prod.mk.inj (Option.some.inj hs)
    rw [hc] at hcur
    refine ⟨h.goto ⟨hcur.1.symm, hcur⟩ (by simp [hc])
      fun hq => ?_, rfl, by simp [Stack.goto], by simp [Stack.goto]⟩
    rw [hc] at hq
    exact hq
  next w old was ret hc =>
    obtain ⟨rfl, rfl⟩ := Prod.mk.inj (Option.some.inj hs)
    rw [hc] at hcur
    refine ⟨⟨h.noff, fun _ => rfl, fun hd _ => h.intena hd (by simp [hc]),
      ⟨hcur.1, rfl, hcur.2.2⟩, ?_⟩, rfl,
      by simp [Stack.goto], by simp [Stack.goto]⟩
    refine h.below.imp_right fun ⟨g, hb, hw, _, hbefore, hq⟩ => ⟨g, hb, hw, rfl, hbefore, ?_⟩
    rw [hc] at hq
    exact hq
  next w old was ret hc =>
    obtain ⟨rfl, rfl⟩ := Prod.mk.inj (Option.some.inj hs)
    rw [hc] at hcur
    refine ⟨h.count hc, rfl, ?_⟩
    cases w with
    | none =>
      have hret := hcur.2.2.of_none
      constructor <;> intro p <;> simp [hret]
    | some l => constructor <;> intro p <;> simp
  -- `pop_off`: the panics are out of reach
  next ret hc =>
    rw [hc] at hcur
    have hpos := hcur.1
    rw [if_neg (by rw [h.off hpos]; exact Bool.false_ne_true),
      if_neg (by rw [h.noff]; exact Nat.not_lt.mpr hpos)] at hs
    obtain ⟨rfl, rfl⟩ := Prod.mk.inj (Option.some.inj hs)
    have hne : ∀ pc, (if x.noff - 1 = 0 ∧ x.intena = true then
        At.turnOn (if t.depth = 1 then t.before else none) ret
        else .popped (if t.depth = 1 then t.before else none) ret : At P L) ≠ .code pc := by
      intro pc
      split <;> simp
    exact ⟨h.popOff hc, rfl, fun p => hne _, fun p => hne _⟩
  next was ret hc =>
    obtain ⟨rfl, rfl⟩ := Prod.mk.inj (Option.some.inj hs)
    rw [hc] at hcur
    refine ⟨h.setSie hcur.1 (h.base fun hq => ?_) true ⟨fun b hb => (hcur.2.1 b hb).symm,
      hcur.2.2.imp_right fun hr => ⟨hr, rfl⟩⟩, rfl, by simp [Stack.goto], by simp [Stack.goto]⟩
    rw [hc] at hq
    exact hq
  -- `mycpu()->intena = intena` at the end of `sched`
  next intena hc =>
    obtain ⟨rfl, rfl⟩ := Prod.mk.inj (Option.some.inj hs)
    rw [hc] at hcur
    refine ⟨⟨h.noff, h.off, fun _ _ => hcur.2, trivial, ?_⟩, rfl,
      by simp [Stack.goto], by simp [Stack.goto]⟩
    exact h.below.imp_right fun ⟨g, hb, hw, hsie, hbefore, _⟩ => ⟨g, hb, hw, hsie, hbefore, rfl⟩
  next hc =>
    obtain ⟨rfl, rfl⟩ := Prod.mk.inj (Option.some.inj hs)
    rw [hc] at hcur
    refine ⟨h.setSie hcur (h.base fun hq => ?_) true rfl, rfl,
      by simp [Stack.goto], by simp [Stack.goto]⟩
    rw [hc] at hq
    cases hq
  next hc =>
    obtain ⟨rfl, rfl⟩ := Prod.mk.inj (Option.some.inj hs)
    rw [hc] at hcur
    refine ⟨h.setSie hcur (h.base fun hq => ?_) false rfl, rfl,
      by simp [Stack.goto], by simp [Stack.goto]⟩
    rw [hc] at hq
    cases hq
  next hc =>
    obtain ⟨rfl, rfl⟩ := Prod.mk.inj (Option.some.inj hs)
    rw [hc] at hcur
    refine ⟨h.goto hcur (by simp [hc]) fun hq => ?_, rfl,
      by simp [Stack.goto], by simp [Stack.goto]⟩
    rw [hc] at hq
    cases hq
  next => exact absurd hs.symm (Option.some_ne_none _)

/-- Only the `noff` and the `sie` of the CPU count. -/
theorem OnCpu.parked (h : OnCpu x t) (hx : x.noff = 1) (hr : ∃ b, t.cur = .restore b) :
    Parked t := by
  intro y hy hsie
  have hxs := h.off (by rw [← h.noff, hx]; exact Nat.one_pos)
  refine ⟨by rw [hy, ← hx, h.noff], fun _ => hsie, fun _ hne => ?_, ?_, ?_⟩
  · obtain ⟨b, hb⟩ := hr
    exact absurd hb (hne b)
  · rw [hsie, ← hxs]
    exact h.cur
  · exact h.below.imp_right fun ⟨g, hb, hw, _, hrest⟩ => ⟨g, hb, hw, hsie, hrest⟩

theorem Parked.forkret : Parked (Stack.forkret : Stack P L) := fun _ hx hs =>
  ⟨hx, fun _ => hs, fun _ _ _ hb => absurd hb.symm (Option.some_ne_none _), trivial, .inl rfl⟩

/-- No `pop_off` has panicked on this stack. -/
theorem OnCpu.noPanic (h : OnCpu x t) :
    ∀ f ∈ t.cur :: t.below, f ≠ .panic .popOff ∧ f ≠ .panic .popOffInterruptible := by
  have hok : ∀ {sie : Bool} {d : Nat} {b : Option Bool} {f : At P L}, CurOk sie d b f →
      f ≠ .panic .popOff ∧ f ≠ .panic .popOffInterruptible := by
    intro sie d b f hf
    constructor
    · rintro rfl
      exact hf.1 rfl
    · rintro rfl
      exact hf.2 rfl
  intro f hf
  rcases List.mem_cons.mp hf with rfl | hf
  · exact hok h.cur
  · rcases h.below with hb | ⟨g, hb, hw, _⟩
    · rw [hb] at hf
      exact absurd hf List.not_mem_nil
    · rw [hb, List.mem_singleton] at hf
      rw [hf]
      exact hok hw

end Local

end Xv6.Intr
