import Mathlib.Data.List.Nodup
import Mathlib.Logic.Function.Basic

/-!
# Circular doubly linked lists

A list with a sentinel `h`, given by its two pointer functions. `Seg f a xs b` says
that following `f` from `a` visits `xs` and then arrives at `b`; a circle is a segment
from `h` back to `h` along `next`, and the reverse of it along `prev`.

The two moves are the usual ones, with the assignments in the usual order:
`Circle.unlink` takes a node out by two assignments through its neighbours,
`Circle.insert` puts one behind the sentinel by four. Whether the node's neighbours
are the sentinel, each other or the same node makes no difference to the argument:
in a segment without repetitions, an assignment at a node that is not in it changes
nothing (`Seg.update`), and one at its last node sends it elsewhere (`Seg.redirect`).

`scan` is the loop that looks for a node from the sentinel on; along a circle it is
`List.find?`, and it needs no more fuel than the circle has nodes.
-/

namespace Xv6.Lib

variable {ν : Type*}

/-- Following `f` from `a` visits `xs` and arrives at `b`. -/
def Seg (f : ν → ν) : ν → List ν → ν → Prop
  | a, [], b => f a = b
  | a, x :: xs, b => f a = x ∧ Seg f x xs b

/-- The nodes `xs` hang in a circle through `h`. -/
structure Circle (next prev : ν → ν) (h : ν) (xs : List ν) : Prop where
  nodup : (h :: xs).Nodup
  fwd : Seg next h xs h
  bwd : Seg prev h xs.reverse h

namespace Seg

variable {f : ν → ν} {a b c : ν} {xs ys : List ν}

theorem append {y : ν} : Seg f a (xs ++ y :: ys) b ↔ Seg f a xs y ∧ Seg f y ys b := by
  induction xs generalizing a with
  | nil => exact Iff.rfl
  | cons x xs ih =>
    show f a = x ∧ Seg f x (xs ++ y :: ys) b ↔ (f a = x ∧ Seg f x xs y) ∧ Seg f y ys b
    rw [ih, and_assoc]

/-- The first node after `a`, or the end. -/
theorem head (h : Seg f a xs b) : f a = (xs ++ [b]).head (by simp) := by
  cases xs with
  | nil => exact h
  | cons x xs => exact h.1

variable [DecidableEq ν]

/-- An assignment at a node outside. -/
theorem update {k v : ν} (hk : k ∉ a :: xs) (h : Seg f a xs b) :
    Seg (Function.update f k v) a xs b := by
  induction xs generalizing a with
  | nil =>
    show Function.update f k v a = b
    rw [Function.update_of_ne (fun he : a = k => hk (he ▸ List.mem_cons_self))]
    exact h
  | cons x xs ih =>
    refine ⟨?_, ih (fun hx => hk (List.mem_cons_of_mem _ hx)) h.2⟩
    rw [Function.update_of_ne (fun he : a = k => hk (he ▸ List.mem_cons_self))]
    exact h.1

/-- An assignment at the last node. -/
theorem redirect (hnd : (a :: xs).Nodup) (h : Seg f a xs b) :
    Seg (Function.update f ((a :: xs).getLast (List.cons_ne_nil _ _)) c) a xs c := by
  induction xs generalizing a with
  | nil => exact Function.update_self _ _ _
  | cons x xs ih =>
    obtain ⟨ha, hnd⟩ := List.nodup_cons.mp hnd
    rw [List.getLast_cons (List.cons_ne_nil _ _)]
    refine ⟨?_, ih hnd h.2⟩
    rw [Function.update_of_ne]
    · exact h.1
    · intro he
      exact ha (he ▸ List.getLast_mem _)

/-- **Skipping a node**: its predecessor is sent to its successor. -/
theorem skip {y : ν} (hnd : (a :: (xs ++ y :: ys)).Nodup) (h : Seg f a (xs ++ y :: ys) b) :
    Seg (Function.update f ((a :: xs).getLast (List.cons_ne_nil _ _)) (f y)) a (xs ++ ys) b := by
  obtain ⟨hl, hr⟩ := append.mp h
  rw [← List.cons_append] at hnd
  obtain ⟨hndl, hndr, hdisj⟩ := List.nodup_append.mp hnd
  have hlast : ∀ z, z ∈ y :: ys → (a :: xs).getLast (List.cons_ne_nil _ _) ≠ z :=
    fun z hz => hdisj _ (List.getLast_mem _) z hz
  cases ys with
  | nil =>
    rw [List.append_nil, show f y = b from hr]
    exact hl.redirect hndl
  | cons z zs =>
    obtain ⟨hz, hzs⟩ := hr
    rw [hz]
    refine append.mpr ⟨hl.redirect hndl, hzs.update fun hmem => ?_⟩
    exact hlast _ (List.mem_cons_of_mem _ hmem) rfl

end Seg

namespace Circle

variable {next prev : ν → ν} {h : ν} {xs ys : List ν}

/-- Backwards it is a circle, too. -/
theorem symm (hr : Circle next prev h xs) : Circle prev next h xs.reverse := by
  refine ⟨?_, hr.bwd, by rw [List.reverse_reverse]; exact hr.fwd⟩
  obtain ⟨hh, hnd⟩ := List.nodup_cons.mp hr.nodup
  exact List.nodup_cons.mpr ⟨fun hmem => hh (List.mem_reverse.mp hmem), List.nodup_reverse.mpr hnd⟩

/-- The node before `b`. -/
theorem prev_eq {b : ν} (hr : Circle next prev h (xs ++ b :: ys)) :
    prev b = (h :: xs).getLast (List.cons_ne_nil _ _) := by
  have hb := hr.bwd
  rw [List.reverse_append, List.reverse_cons, List.append_assoc, List.singleton_append] at hb
  have hseg := (Seg.append.mp hb).2
  rw [hseg.head]
  rcases List.eq_nil_or_concat xs with rfl | ⟨xs, x, rfl⟩
  · rfl
  · simp

/-- The node after `b`. -/
theorem next_eq {b : ν} (hr : Circle next prev h (xs ++ b :: ys)) :
    next b = (h :: ys.reverse).getLast (List.cons_ne_nil _ _) := by
  have hs := hr.symm
  rw [List.reverse_append, List.reverse_cons, List.append_assoc, List.singleton_append] at hs
  exact hs.prev_eq

/-- The pointers are mutually inverse. -/
theorem prev_next (hr : Circle next prev h xs) {n : ν} (hn : n ∈ h :: xs) : prev (next n) = n := by
  rcases List.mem_cons.mp hn with rfl | hn
  · cases xs with
    | nil =>
      rw [show next n = n from hr.fwd]
      exact hr.bwd
    | cons x xs =>
      rw [hr.fwd.1]
      exact (show Circle next prev n ([] ++ x :: xs) from hr).prev_eq
  · obtain ⟨as, bs, rfl⟩ := List.append_of_mem hn
    have hseg := (Seg.append.mp hr.fwd).2
    cases bs with
    | nil =>
      rw [show next n = h from hseg]
      have hb := hr.bwd
      rw [List.reverse_append, List.reverse_cons, List.reverse_nil, List.nil_append,
        List.singleton_append] at hb
      exact hb.1
    | cons c cs =>
      rw [show next n = c from hseg.1]
      have hr' : Circle next prev h ((as ++ [n]) ++ c :: cs) := by
        rw [List.append_assoc]
        exact hr
      rw [hr'.prev_eq]
      simp

theorem next_prev (hr : Circle next prev h xs) {n : ν} (hn : n ∈ h :: xs) : next (prev n) = n := by
  refine hr.symm.prev_next ?_
  rw [List.mem_cons] at hn ⊢
  exact hn.imp_right List.mem_reverse.mpr

variable [DecidableEq ν]

/-- **Taking a node out**: `b->next->prev = b->prev; b->prev->next = b->next;` -/
theorem unlink {b : ν} (hr : Circle next prev h (xs ++ b :: ys)) :
    Circle (Function.update next (prev b) (next b)) (Function.update prev (next b) (prev b)) h
      (xs ++ ys) := by
  have hs := hr.symm
  rw [List.reverse_append, List.reverse_cons, List.append_assoc, List.singleton_append] at hs
  refine ⟨?_, ?_, ?_⟩
  · exact hr.nodup.sublist ((List.sublist_cons_self b ys).append_left xs |>.cons_cons h)
  · rw [hr.prev_eq]
    exact hr.fwd.skip hr.nodup
  · rw [hr.next_eq, List.reverse_append]
    exact hs.fwd.skip hs.nodup

/-- **Putting a node behind the sentinel**: `b->next = h.next; b->prev = &h;
h.next->prev = b; h.next = b;` -/
theorem insert {b : ν} (hr : Circle next prev h xs) (hb : b ∉ h :: xs) :
    Circle (Function.update (Function.update next b (next h)) h b)
      (Function.update (Function.update prev b h) (next h) b) h (b :: xs) := by
  obtain ⟨hbh, hbx⟩ := not_or.mp (fun hm => hb (List.mem_cons.mpr hm))
  obtain ⟨hhx, hnd⟩ := List.nodup_cons.mp hr.nodup
  have hhead := hr.fwd.head
  refine ⟨?_, ⟨Function.update_self _ _ _, ?_⟩, ?_⟩
  · refine List.nodup_cons.mpr ⟨?_, List.nodup_cons.mpr ⟨hbx, hnd⟩⟩
    intro hm
    rcases List.mem_cons.mp hm with he | hm
    · exact hbh he.symm
    · exact hhx hm
  · have hbn : Function.update (Function.update next b (next h)) h b b = next h := by
      rw [Function.update_of_ne hbh, Function.update_self]
    cases xs with
    | nil => exact hbn.trans hr.fwd
    | cons x xs =>
      refine ⟨hbn.trans hr.fwd.1, ?_⟩
      exact (hr.fwd.2.update hbx).update hhx
  · rw [List.reverse_cons]
    refine Seg.append.mpr ⟨?_, ?_⟩
    · -- the last node on the way back now leads to `b`
      have hlast : next h = (h :: xs.reverse).getLast (List.cons_ne_nil _ _) := by
        rw [hhead]
        cases xs with
        | nil => rfl
        | cons x xs => simp
      rw [hlast]
      refine (hr.bwd.update ?_).redirect ?_
      · intro hm
        exact hb ((List.mem_cons.mp hm).elim (fun he => he ▸ List.mem_cons_self)
          fun hm => List.mem_cons_of_mem _ (List.mem_reverse.mp hm))
      · exact hr.symm.nodup
    · show Function.update (Function.update prev b h) (next h) b b = h
      have hne : b ≠ next h := by
        intro he
        apply hb
        rw [he, hhead]
        cases xs with
        | nil => exact List.mem_cons_self
        | cons x xs => exact List.mem_cons_of_mem _ List.mem_cons_self
      rw [Function.update_of_ne hne, Function.update_self]

end Circle

/-! ## Looking for a node -/

variable [DecidableEq ν]

/-- `for(b = f(h); b != h; b = f(b)) if(test(b)) ..`, from `b` on. -/
def scan (f : ν → ν) (h : ν) (test : ν → Bool) : Nat → ν → Option ν
  | 0, _ => none
  | fuel + 1, b => if b = h then none else if test b then some b else scan f h test fuel (f b)

/-- Along a segment that ends at the sentinel the loop is `List.find?`. -/
theorem Seg.scan_eq {f : ν → ν} {h : ν} {test : ν → Bool} :
    ∀ {xs : List ν} {a : ν} {fuel : Nat}, Seg f a xs h → h ∉ xs → xs.length < fuel →
      scan f h test fuel (f a) = xs.find? test := by
  intro xs
  induction xs with
  | nil =>
    intro a fuel hs _ hf
    obtain ⟨fuel, rfl⟩ := Nat.exists_eq_succ_of_ne_zero (Nat.ne_of_gt hf)
    rw [scan, if_pos (show f a = h from hs)]
    rfl
  | cons x xs ih =>
    intro a fuel hs hh hf
    obtain ⟨fuel, rfl⟩ := Nat.exists_eq_succ_of_ne_zero (Nat.ne_of_gt (Nat.zero_lt_of_lt hf))
    obtain ⟨hx, hh⟩ := not_or.mp (fun hm => hh (List.mem_cons.mpr hm))
    rw [hs.1, scan, if_neg (Ne.symm hx), List.find?_cons]
    cases htest : test x with
    | true => rfl
    | false => exact ih hs.2 hh (by simpa using hf)

end Xv6.Lib
