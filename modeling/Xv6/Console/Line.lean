import Xv6.Console.Machine

/-!
# The line discipline

Every accepted character is in one place: erased, in the line being edited,
committed and waiting, or taken. The ring is the waiting ones followed by the line
(`view`), so its three indices are two lengths:

> `r + waiting = w`, `w + line = e`, and both together are at most
> `INPUT_BUF_SIZE`, modulo `2^32`.

Erasing shortens the line, storing lengthens it, committing moves it over, and a
reader takes from the front. A control-d that a reader puts back was taken a
moment before, under the same lock. `Given` is what readers got out of it: the
taken characters that are no control-d, and one empty read for each that is.

Without the ring and its indices, `consoleintr` is an editor of one line (`Text.type`):
what each character commits and erases is said there, and `step_text` that nothing
else does.
-/

namespace Xv6.Console

open Lib

variable {P : Type*} [DecidableEq P]

/-! ## What the indices say -/

/-- Character number `k`. -/
def Cons.char (s : Cons) (k : Nat) : UInt8 := s.accepted.getD k 0

/-- The characters readers may have. -/
def Cons.waiting (s : Cons) : List Nat := s.committed.drop s.taken

/-- The characters `r` has passed. -/
def Cons.gone (s : Cons) : List UInt8 := (s.committed.take s.taken).map s.char

/-- The ring, also between a `store` and the `commit` it calls for. -/
structure RingInv (s : Cons) : Prop where
  taken : s.taken ≤ s.committed.length
  r : (s.w - s.r).toNat = s.waiting.length
  w : (s.e - s.w).toNat = s.line.length
  room : s.waiting.length + s.line.length ≤ INPUT_BUF_SIZE
  view : Ring.contents INPUT_BUF_SIZE s.buf s.r.toNat (s.waiting.length + s.line.length)
    = (s.waiting ++ s.line).map s.char
  places : (s.committed ++ s.line ++ s.erased).Perm (List.range s.accepted.length)
  order : (s.committed ++ s.line).Pairwise (· < ·)

/-- The ring between calls: a line that is complete has been committed. -/
structure ConsInv (s : Cons) : Prop extends RingInv s where
  full : s.waiting.length + s.line.length = INPUT_BUF_SIZE → s.line = []
  plain : ∀ k, k ∈ s.line → s.char k ≠ newline ∧ s.char k ≠ C 'D'

/-- An empty result of a read that asked for something. -/
def Empty (x : Int × Int) : Bool := decide (0 < x.1) && decide (x.2 = 0)

structure Given (s : Cons) (delivered : List UInt8) (rets : List (Int × Int)) : Prop where
  bytes : delivered = s.gone.filter (· ≠ C 'D')
  eofs : rets.countP Empty = s.gone.count (C 'D')

/-- What the locals of a `consoleread` say, once it has found `n > 0`. -/
def Ctl.Ok : Ctl → Prop
  | .user => True
  | .read .enter f => f.n = f.target
  | .read .top f => f.n = f.target ∨ f.n.toNat < f.target.toNat ∧ f.target.toNat < 2 ^ 31
  | .read _ f => 0 < f.n.toNat ∧ f.n.toNat ≤ f.target.toNat ∧ f.target.toNat < 2 ^ 31

structure ReadInv (s : Sys P) : Prop where
  cons : ConsInv s.cons
  given : Given s.cons s.delivered s.rets
  ok : ∀ p, (s.ctl p).Ok

theorem sum_toNat {s : Cons} (h : RingInv s) :
    (s.e - s.r).toNat = s.waiting.length + s.line.length := by
  have hroom := h.room
  have hr := h.r
  have hw := h.w
  unfold INPUT_BUF_SIZE at hroom
  rw [← sub_add_sub_cancel s.e s.w s.r, BitVec.toNat_add, hr, hw]
  omega

theorem slot_toNat (x : BitVec 32) : slot x = x.toNat % INPUT_BUF_SIZE := by
  unfold slot
  rw [BitVec.toNat_umod]
  rfl

theorem char_store {s : Cons} {c : UInt8} {k : Nat} (hk : k < s.accepted.length) :
    (s.accepted ++ [c]).getD k 0 = s.char k := by
  unfold Cons.char
  rw [List.getD_eq_getElem?_getD, List.getD_eq_getElem?_getD, List.getElem?_append_left hk]

/-- A number that is in use. -/
theorem RingInv.lt {s : Cons} (h : RingInv s) {k : Nat}
    (hk : k ∈ s.committed ∨ k ∈ s.line) : k < s.accepted.length := by
  have hmem : k ∈ s.committed ++ s.line ++ s.erased := by
    rw [List.mem_append, List.mem_append]
    exact .inl hk
  exact List.mem_range.mp (h.places.mem_iff.mp hmem)

/-! ## Editing -/

theorem RingInv.consputc {s : Cons} (h : RingInv s) (c : UInt8) : RingInv (s.consputc c) :=
  ⟨h.taken, h.r, h.w, h.room, h.view, h.places, h.order⟩

theorem line_ne_nil {s : Cons} (h : ConsInv s) (he : s.e ≠ s.w) : s.line ≠ [] := by
  intro hl
  have hw := h.w
  rw [hl, List.length_nil] at hw
  apply he
  bv_omega

/-- **Erasing** takes the last character of the line. -/
theorem ConsInv.erase {s : Cons} (h : ConsInv s) (he : s.e ≠ s.w) : ConsInv s.erase := by
  have hne := line_ne_nil h he
  obtain ⟨l, k, hl⟩ : ∃ l k, s.line = l ++ [k] := ⟨_, _, (List.dropLast_append_getLast hne).symm⟩
  have hdrop : s.erase.line = l := by
    show s.line.dropLast = l
    rw [hl, List.dropLast_concat]
  have hgone : s.erase.erased = s.erased ++ [k] := by
    show s.erased ++ s.line.getLast?.toList = _
    rw [hl, List.getLast?_concat]
    rfl
  have hwait : s.erase.waiting = s.waiting := rfl
  have hlen : s.line.length = l.length + 1 := by rw [hl]; simp
  have hroom := h.room
  refine ⟨⟨h.taken, h.r, ?_, ?_, ?_, ?_, ?_⟩, ?_, ?_⟩
  · rw [hdrop]
    show (s.e - 1 - s.w).toNat = l.length
    have hw := h.w
    rw [hlen] at hw
    bv_omega
  · rw [hdrop, hwait]
    omega
  · -- the ring without its last character
    have hview := h.view
    rw [hlen, hl, ← Nat.add_assoc, Ring.contents_split, ← List.append_assoc, List.map_append]
      at hview
    have hcut := List.append_inj_left hview (by simp)
    rw [hdrop, hwait]
    exact hcut
  · rw [hdrop, hgone]
    refine List.Perm.trans ?_ h.places
    show (s.committed ++ l ++ (s.erased ++ [k])).Perm (s.committed ++ s.line ++ s.erased)
    rw [hl, List.append_assoc, List.append_assoc, List.append_assoc]
    exact (List.Perm.append_left _ (List.Perm.append_left _ List.perm_append_comm))
  · rw [hdrop]
    have horder := h.order
    rw [hl, ← List.append_assoc] at horder
    exact horder.sublist (List.sublist_append_left _ _)
  · rw [hdrop, hwait]
    intro hfull
    omega
  · intro j hj
    rw [hdrop] at hj
    exact h.plain j (by rw [hl]; exact List.mem_append_left _ hj)

theorem killLoop_inv : ∀ (fuel : Nat) {s : Cons}, ConsInv s → ConsInv (Cons.killLoop fuel s) := by
  intro fuel
  induction fuel with
  | zero => intro s h; exact h
  | succ fuel ih =>
    intro s h
    rw [Cons.killLoop]
    split
    next hgo => exact ih (h.erase hgo.1)
    next => exact h

/-- **Storing** puts a character behind the line. -/
theorem RingInv.store {s : Cons} (h : RingInv s) (c : UInt8)
    (hroom : s.waiting.length + s.line.length < INPUT_BUF_SIZE) : RingInv (s.store c) := by
  have hwait : (s.store c).waiting = s.waiting := rfl
  have hline : (s.store c).line = s.line ++ [s.accepted.length] := rfl
  have hold : ∀ k, k ∈ s.waiting ++ s.line → (s.store c).char k = s.char k := by
    intro k hk
    refine char_store (h.lt ?_)
    rcases List.mem_append.mp hk with hk | hk
    · exact .inl (List.mem_of_mem_drop hk)
    · exact .inr hk
  have hnew : (s.store c).char s.accepted.length = c := by
    show (s.accepted ++ [c]).getD s.accepted.length 0 = c
    simp
  refine ⟨h.taken, h.r, ?_, ?_, ?_, ?_, ?_⟩
  · rw [hline, List.length_append]
    show (s.e + 1 - s.w).toNat = s.line.length + 1
    have hw := h.w
    unfold INPUT_BUF_SIZE at hroom
    bv_omega
  · rw [hwait, hline, List.length_append]
    exact hroom
  · -- the slot of `e` is the one behind the characters in the ring
    have hslot : slot s.e
        = (s.r.toNat + (s.waiting.length + s.line.length)) % INPUT_BUF_SIZE := by
      rw [slot_toNat, ← sum_toNat h]
      exact (Ring.toNat_sub_mod (by decide) s.r s.e).symm
    have hblit : (s.store c).buf = Ring.blit s.buf
        ((s.r.toNat + (s.waiting.length + s.line.length)) % INPUT_BUF_SIZE) 1 fun _ => c := by
      show Function.update s.buf (slot s.e) c = _
      rw [hslot, ← Nat.zero_add 1, Ring.blit_succ, Ring.blit_zero, Nat.add_zero]
    have hlt := Nat.mod_lt (s.r.toNat + (s.waiting.length + s.line.length))
      (show 0 < INPUT_BUF_SIZE by decide)
    rw [hwait, hline, List.length_append, List.length_singleton, hblit]
    show Ring.contents INPUT_BUF_SIZE _ s.r.toNat (s.waiting.length + s.line.length + 1) = _
    have hmap : (s.waiting ++ s.line ++ [s.accepted.length]).map (s.store c).char
        = (s.waiting ++ s.line).map s.char ++ [c] := by
      rw [List.map_append, List.map_congr_left hold, List.map_singleton, hnew]
    rw [Ring.contents_blit (by omega) (by omega), h.view, ← List.append_assoc, hmap]
    rfl
  · rw [hline]
    show (s.committed ++ (s.line ++ [s.accepted.length]) ++ s.erased).Perm
      (List.range (s.accepted ++ [c]).length)
    rw [List.length_append, List.length_singleton, List.range_succ]
    refine List.Perm.trans ?_ (h.places.append_right _)
    rw [← List.append_assoc, List.append_assoc, List.append_assoc _ s.erased]
    exact List.Perm.append_left _ List.perm_append_comm
  · rw [hline, ← List.append_assoc]
    refine List.pairwise_append.mpr ⟨h.order, List.pairwise_singleton _ _, ?_⟩
    intro a ha b hb
    rw [List.mem_singleton.mp hb]
    exact h.lt (List.mem_append.mp ha)

/-- **Committing** hands the line over. -/
theorem RingInv.commit {s : Cons} (h : RingInv s) : ConsInv s.commit := by
  have hwait : s.commit.waiting = s.waiting ++ s.line := by
    show (s.committed ++ s.line).drop s.taken = _
    rw [List.drop_append_of_le_length h.taken]
    rfl
  have hline : s.commit.line = [] := rfl
  refine ⟨⟨?_, ?_, ?_, ?_, ?_, ?_, ?_⟩, fun _ => hline, fun k hk => ?_⟩
  · show s.taken ≤ (s.committed ++ s.line).length
    rw [List.length_append]
    exact Nat.le_trans h.taken (Nat.le_add_right _ _)
  · rw [hwait, List.length_append]
    exact sum_toNat h
  · show (s.e - s.e).toNat = 0
    rw [BitVec.sub_self]
    rfl
  · rw [hwait, hline, List.length_append]
    exact h.room
  · rw [hwait, hline, List.append_nil, List.length_append]
    exact h.view
  · rw [hline, List.append_nil]
    exact h.places
  · rw [hline, List.append_nil]
    exact h.order
  · rw [hline] at hk
    exact absurd hk List.not_mem_nil

/-! ## Reading -/

/-- **Taking** a character from the front of the ring. -/
theorem ConsInv.take {s : Cons} (h : ConsInv s) (hne : s.r ≠ s.w) :
    ConsInv s.take ∧ s.take.gone = s.gone ++ [s.buf (slot s.r)] := by
  obtain ⟨k, ks, hk⟩ : ∃ k ks, s.waiting = k :: ks := by
    cases hw : s.waiting with
    | nil =>
      have hr := h.r
      rw [hw, List.length_nil] at hr
      exact absurd (show s.r = s.w by bv_omega) hne
    | cons k ks => exact ⟨k, ks, rfl⟩
  have hlt : s.taken < s.committed.length := by
    by_contra hge
    unfold Cons.waiting at hk
    rw [List.drop_eq_nil_of_le (by omega)] at hk
    cases hk
  have hcons := List.drop_eq_getElem_cons hlt
  unfold Cons.waiting at hk
  rw [hk] at hcons
  obtain ⟨hhead, htail⟩ := List.cons.inj hcons
  have hwait : s.take.waiting = ks := htail.symm
  have hlen : s.waiting.length = ks.length + 1 := by
    unfold Cons.waiting
    rw [hk, List.length_cons]
  have hroom := h.room
  -- the ring is its first character and the rest
  have hview := h.view
  rw [hlen, show ks.length + 1 + s.line.length = 1 + (ks.length + s.line.length) by omega,
    Ring.contents_split, show s.waiting = k :: ks from hk, List.cons_append, List.map_cons] at hview
  obtain ⟨hfirst, hrest⟩ := List.cons.inj
    (show s.buf ((s.r.toNat + 0) % INPUT_BUF_SIZE) :: _ = _ from hview)
  refine ⟨⟨⟨hlt, ?_, h.w, ?_, ?_, h.places, h.order⟩, ?_, h.plain⟩, ?_⟩
  · rw [hwait]
    show (s.w - (s.r + 1)).toNat = ks.length
    have hr := h.r
    rw [hlen] at hr
    bv_omega
  · rw [hwait]
    show ks.length + s.line.length ≤ _
    omega
  · rw [hwait]
    show Ring.contents INPUT_BUF_SIZE s.buf (s.r + 1).toNat (ks.length + s.line.length) = _
    rw [Ring.contents_mod s.buf _ (show (s.r + 1).toNat % INPUT_BUF_SIZE
      = (s.r.toNat + 1) % INPUT_BUF_SIZE from Ring.toNat_add_mod (by decide) s.r 1)]
    exact hrest
  · rw [hwait]
    intro hfull
    have hfull : ks.length + s.line.length = INPUT_BUF_SIZE := hfull
    omega
  · show ((s.committed.take (s.taken + 1)).map s.char) = _
    rw [List.take_succ_eq_append_getElem hlt, List.map_append, ← hhead]
    show _ = s.gone ++ _
    rw [slot_toNat, show s.r.toNat % INPUT_BUF_SIZE = (s.r.toNat + 0) % INPUT_BUF_SIZE from rfl,
      hfirst]
    rfl

/-- What was taken is put back. -/
theorem untake_take (s : Cons) : s.take.untake = s := by
  unfold Cons.take Cons.untake
  simp only [BitVec.add_sub_cancel, Nat.add_sub_cancel]

/-! ## An editor of one line -/

/-- What was typed, and what has become of it. -/
@[ext] structure Text where
  accepted : List UInt8
  committed : List Nat
  line : List Nat
  erased : List Nat

namespace Text

/-- The last character of the line, if there is one. -/
def erase (t : Text) : Text :=
  { t with line := t.line.dropLast, erased := t.erased ++ t.line.getLast?.toList }

/-- The line, from its end. -/
def kill (t : Text) : Text := { t with line := [], erased := t.erased ++ t.line.reverse }

def commit (t : Text) : Text := { t with committed := t.committed ++ t.line, line := [] }

def store (t : Text) (c : UInt8) : Text :=
  { t with accepted := t.accepted ++ [c], line := t.line ++ [t.accepted.length] }

/-- A newline, a control-d and the last character there is room for end the line. -/
def accept (t : Text) (c : UInt8) (room : Nat) : Text :=
  if c = newline ∨ c = C 'D' ∨ room = 1 then (t.store c).commit else t.store c

/-- `c` is typed when there is room for `room` characters. -/
def type (t : Text) (c : UInt8) (room : Nat) : Text :=
  if c = C 'P' then t
  else if c = C 'U' then t.kill
  else if c = C 'H' ∨ c = delete then t.erase
  else if c = 0 ∨ room = 0 then t
  else t.accept (if c = carriageReturn then newline else c) room

theorem erase_nil {t : Text} (h : t.line = []) : t.erase = t := by
  unfold erase
  rw [h]
  exact Text.ext rfl rfl h.symm (List.append_nil _)

theorem kill_nil {t : Text} (h : t.line = []) : t.kill = t := by
  unfold kill
  rw [h]
  exact Text.ext rfl rfl h.symm (List.append_nil _)

theorem kill_erase (t : Text) : t.erase.kill = t.kill := by
  rcases List.eq_nil_or_concat t.line with h | ⟨l, k, h⟩
  · rw [erase_nil h]
  · unfold erase kill
    dsimp only
    rw [h, List.concat_eq_append, List.dropLast_concat, List.getLast?_concat, List.reverse_concat,
      List.append_assoc]
    rfl

theorem accept_committed {t : Text} {c : UInt8} {room : Nat}
    (h : (t.accept c room).committed ≠ t.committed) : c = newline ∨ c = C 'D' ∨ room = 1 := by
  unfold accept at h
  split at h
  next hc => exact hc
  next => exact absurd rfl h

theorem accept_erased (t : Text) (c : UInt8) (room : Nat) :
    (t.accept c room).erased = t.erased := by
  unfold accept
  split
  next => rfl
  next => rfl

/-- What commits. -/
theorem type_committed {t : Text} {c : UInt8} {room : Nat}
    (h : (t.type c room).committed ≠ t.committed) :
    c = newline ∨ c = carriageReturn ∨ c = C 'D' ∨ room = 1 := by
  unfold type at h
  split at h
  next => exact absurd rfl h
  next =>
    split at h
    next => exact absurd rfl h
    next =>
      split at h
      next => exact absurd rfl h
      next =>
        split at h
        next => exact absurd rfl h
        next =>
          have hc := accept_committed h
          by_cases hr : c = carriageReturn
          · exact .inr (.inl hr)
          · rw [if_neg hr] at hc
            exact hc.imp_right .inr

/-- What erases. -/
theorem type_erased {t : Text} {c : UInt8} {room : Nat}
    (h : (t.type c room).erased ≠ t.erased) : c = C 'U' ∨ c = C 'H' ∨ c = delete := by
  unfold type at h
  split at h
  next => exact absurd rfl h
  next =>
    split at h
    next hu => exact .inl hu
    next =>
      split at h
      next hd => exact .inr hd
      next =>
        split at h
        next => exact absurd rfl h
        next => exact absurd (accept_erased _ _ _) h

end Text

def Cons.text (s : Cons) : Text := ⟨s.accepted, s.committed, s.line, s.erased⟩

/-- What is left of the ring. -/
def Cons.space (s : Cons) : Nat := INPUT_BUF_SIZE - (s.e - s.r).toNat

/-- The text after a step. -/
def Sys.edits (s : Sys P) : Act P → Text
  | .intr c => s.cons.text.type c s.cons.space
  | _ => s.cons.text

/-- The character before `e` is the last of the line. -/
theorem last_char {s : Cons} (h : RingInv s) {l : List Nat} {k : Nat} (hl : s.line = l ++ [k]) :
    s.buf (slot (s.e - 1)) = s.char k := by
  have hlen : s.line.length = l.length + 1 := by rw [hl, List.length_append]; rfl
  have hview := h.view
  rw [hlen, hl, ← Nat.add_assoc, Ring.contents_split, ← List.append_assoc, List.map_append]
    at hview
  have hlast := List.append_inj_right hview (by simp)
  have hdist : (s.e - 1 - s.r).toNat = s.waiting.length + l.length := by
    have hsum := sum_toNat h
    rw [hlen] at hsum
    bv_omega
  rw [slot_toNat, ← Ring.toNat_sub_mod (by decide) s.r (s.e - 1), hdist]
  exact (List.cons.inj hlast).1

/-- **Control-u**, by induction on the line: its loop stops at the beginning, since there is no
newline in it. -/
theorem killLoop_text : ∀ (fuel : Nat) {s : Cons}, ConsInv s → s.line.length ≤ fuel →
    (Cons.killLoop fuel s).text = s.text.kill := by
  intro fuel
  induction fuel with
  | zero =>
    intro s _ hle
    exact (Text.kill_nil (List.eq_nil_of_length_eq_zero (Nat.le_zero.mp hle))).symm
  | succ fuel ih =>
    intro s h hle
    rw [Cons.killLoop]
    split
    next hgo =>
      have hlen : s.erase.line.length ≤ fuel := by
        show s.line.dropLast.length ≤ fuel
        rw [List.length_dropLast]
        omega
      rw [ih (h.erase hgo.1) hlen]
      exact s.text.kill_erase
    next hstop =>
      rcases List.eq_nil_or_concat s.line with hl | ⟨l, k, hl⟩
      · exact (Text.kill_nil hl).symm
      · rw [List.concat_eq_append] at hl
        have hk : k ∈ s.line := by simp [hl]
        have he : s.e ≠ s.w := by
          intro heq
          have hw := h.w
          rw [heq, BitVec.sub_self, hl, List.length_append] at hw
          exact absurd hw.symm (Nat.succ_ne_zero _)
        refine absurd ⟨he, ?_⟩ hstop
        rw [last_char h.toRingInv hl]
        exact (h.plain k hk).1

omit [DecidableEq P] in
/-- **One interrupt** is one character typed. -/
theorem consoleintr_text {s : Sys P} (h : ConsInv s.cons) (c : UInt8) :
    (s.consoleintr c).cons.text = s.cons.text.type c s.cons.space := by
  unfold Sys.consoleintr Text.type
  split
  next => rfl
  next =>
    split
    next => exact killLoop_text _ h (Nat.le_of_eq h.w.symm)
    next =>
      split
      next =>
        split
        next => rfl
        next he =>
          refine (Text.erase_nil (List.eq_nil_of_length_eq_zero ?_)).symm
          have hw := h.w
          rw [not_not.mp he, BitVec.sub_self] at hw
          exact hw.symm
      next =>
        have hspace : s.cons.e - s.cons.r < BitVec.ofNat 32 INPUT_BUF_SIZE ↔ s.cons.space ≠ 0 := by
          rw [BitVec.lt_def]
          unfold Cons.space
          show _ < 128 ↔ 128 - _ ≠ 0
          omega
        have hfull : s.cons.space ≠ 0 →
            (s.cons.e + 1 - s.cons.r = BitVec.ofNat 32 INPUT_BUF_SIZE ↔ s.cons.space = 1) := by
          intro h0
          unfold Cons.space INPUT_BUF_SIZE at *
          constructor
          · intro he
            bv_omega
          · intro he
            bv_omega
        by_cases hgo : c = 0 ∨ s.cons.space = 0
        · rw [if_pos hgo, if_neg fun hc => hgo.elim hc.1 (hspace.mp hc.2)]
        · rw [not_or] at hgo
          rw [if_pos ⟨hgo.1, hspace.mpr hgo.2⟩, if_neg (not_or.mpr hgo)]
          dsimp only
          generalize (if c = carriageReturn then newline else c) = c'
          unfold Text.accept
          split
          next hc => rw [if_pos (hc.imp_right (Or.imp_right (hfull hgo.2).mp))]; rfl
          next hc => rw [if_neg (mt (Or.imp_right (Or.imp_right (hfull hgo.2).mpr)) hc)]; rfl

/-- Nothing but typing changes the text. -/
theorem step_text {s s' : Sys P} {a : Act P} (h : ConsInv s.cons) (hs : step s a = some s') :
    s'.cons.text = s.edits a := by
  have hconsume : ∀ p f copied, (s.consume p f copied).cons.text = s.cons.text := by
    intro p f copied
    unfold Sys.consume
    dsimp only
    split
    next =>
      split
      next => rfl
      next => rfl
    next =>
      split
      next =>
        split
        next => rfl
        next => rfl
      next => rfl
  cases a with
  | intr c =>
    simp only [step, Option.ite_none_right_eq_some, Option.some.injEq] at hs
    obtain ⟨-, rfl⟩ := hs
    exact consoleintr_text h c
  | read p n =>
    unfold step at hs
    dsimp only at hs
    split at hs
    next => cases hs; rfl
    next => cases hs
  | kill p =>
    cases hs
    rfl
  | acquire p =>
    simp only [step, Option.ite_none_right_eq_some] at hs
    obtain ⟨-, hs⟩ := hs
    split at hs
    next => cases hs; rfl
    next => cases hs; rfl
    next => cases hs
  | run p copied =>
    simp only [step, Option.ite_none_right_eq_some] at hs
    obtain ⟨-, hs⟩ := hs
    unfold Sys.run at hs
    split at hs
    next =>
      split at hs
      next => cases hs; rfl
      next => cases hs; rfl
    next f _ =>
      split at hs
      next => cases hs; rfl
      next => cases hs; exact hconsume p f copied
    next =>
      split at hs
      next => cases hs; rfl
      next => cases hs; rfl
    next => cases hs; rfl
    next => cases hs

theorem step_committed {s s' : Sys P} {a : Act P} (h : ConsInv s.cons) (hs : step s a = some s')
    (hne : s'.cons.committed ≠ s.cons.committed) : ∃ c, a = .intr c ∧
      (c = newline ∨ c = carriageReturn ∨ c = C 'D' ∨ s.cons.space = 1) := by
  have htext := congrArg Text.committed (step_text h hs)
  cases a with
  | intr c => exact ⟨c, rfl, Text.type_committed fun he => hne (htext.trans he)⟩
  | _ => exact absurd htext hne

theorem step_erased {s s' : Sys P} {a : Act P} (h : ConsInv s.cons) (hs : step s a = some s')
    (hne : s'.cons.erased ≠ s.cons.erased) : ∃ c, a = .intr c ∧
      (c = C 'U' ∨ c = C 'H' ∨ c = delete) := by
  have htext := congrArg Text.erased (step_text h hs)
  cases a with
  | intr c => exact ⟨c, rfl, Text.type_erased fun he => hne (htext.trans he)⟩
  | _ => exact absurd htext hne

/-! ## Every step -/

theorem wake_ok {c : Ctl} (h : c.Ok) : c.wake.Ok := by
  cases c with
  | user => exact h
  | read pc f => cases pc <;> exact h

theorem update_ok {ctl : P → Ctl} (h : ∀ p, (ctl p).Ok) (p : P) {c : Ctl} (hc : c.Ok) :
    ∀ p', (Function.update ctl p c p').Ok :=
  (Function.forall_update_iff ctl fun _ c => c.Ok).mpr ⟨hc, fun p' _ => h p'⟩

/-- What readers were given does not depend on the line. -/
theorem Given.of_eq {s s' : Cons} {d : List UInt8} {rets : List (Int × Int)} (h : Given s d rets)
    (hgone : s'.gone = s.gone) : Given s' d rets :=
  ⟨by rw [hgone]; exact h.bytes, by rw [hgone]; exact h.eofs⟩

theorem killLoop_gone : ∀ (fuel : Nat) (s : Cons), (Cons.killLoop fuel s).gone = s.gone := by
  intro fuel
  induction fuel with
  | zero => intro s; rfl
  | succ fuel ih =>
    intro s
    rw [Cons.killLoop]
    split
    · exact ih s.erase
    · rfl

/-- What was taken was committed, so a new character does not change it. -/
theorem store_gone {s : Cons} (h : RingInv s) (c : UInt8) : (s.store c).gone = s.gone := by
  show (s.committed.take s.taken).map _ = (s.committed.take s.taken).map _
  apply List.map_congr_left
  intro k hk
  exact char_store (h.lt (.inl (List.mem_of_mem_take hk)))

theorem commit_gone {s : Cons} (h : RingInv s) : s.commit.gone = s.gone := by
  show ((s.committed ++ s.line).take s.taken).map _ = _
  rw [List.take_append_of_le_length h.taken]
  rfl

omit [DecidableEq P] in
/-- **One interrupt.** -/
theorem consoleintr_inv {s : Sys P} (h : ReadInv s) (c : UInt8) : ReadInv (s.consoleintr c) := by
  unfold Sys.consoleintr
  split
  next => exact h
  next =>
    split
    next =>
      exact ⟨killLoop_inv _ h.cons, h.given.of_eq (killLoop_gone _ _), h.ok⟩
    next hd =>
      split
      next =>
        split
        next he => exact ⟨h.cons.erase he, h.given.of_eq rfl, h.ok⟩
        next => exact h
      next =>
        split
        next hc =>
          have hring := h.cons.toRingInv
          have hroom : s.cons.waiting.length + s.cons.line.length < INPUT_BUF_SIZE := by
            rw [← sum_toNat hring]
            exact BitVec.lt_def.mp hc.2
          dsimp only
          generalize (if c = carriageReturn then newline else c) = c'
          have hst : RingInv ((s.cons.consputc c').store c') := (hring.consputc c').store c' hroom
          have hgone : ((s.cons.consputc c').store c').gone = s.cons.gone :=
            store_gone (hring.consputc c') c'
          split
          next =>
            refine ⟨hst.commit, h.given.of_eq ((commit_gone hst).trans hgone), fun p => ?_⟩
            exact wake_ok (h.ok p)
          next hgo =>
            -- no newline, no control-d and not full: the line goes on
            simp only [not_or] at hgo
            refine ⟨⟨hst, fun hfull => ?_, fun k hk => ?_⟩, h.given.of_eq hgone, h.ok⟩
            · rw [← sum_toNat hst] at hfull
              exact absurd (BitVec.eq_of_toNat_eq hfull) hgo.2.2
            · rcases List.mem_append.mp (show k ∈ s.cons.line ++ [s.cons.accepted.length] from hk)
                with hk | hk
              · rw [show ((s.cons.consputc c').store c').char k = s.cons.char k from
                  char_store (hring.lt (.inr hk))]
                exact h.cons.plain k hk
              · rw [List.mem_singleton.mp hk, show ((s.cons.consputc c').store c').char
                  s.cons.accepted.length = c' by
                    show (s.cons.accepted ++ [c']).getD s.cons.accepted.length 0 = c'
                    simp]
                exact ⟨hgo.1, hgo.2.1⟩
        next => exact h

/-- A `consoleread` returned: `d` more bytes were given, and the result is empty
exactly if it was a control-d. -/
theorem ReadInv.ret {s : Sys P} {c : Cons} {d : List UInt8} (hok : ∀ p, (s.ctl p).Ok)
    (hc : ConsInv c) {p : P} {f : Frame} {v : Int}
    (hg : Given c d (s.rets ++ [(f.target.toInt, v)])) :
    ReadInv ({ s with cons := c, delivered := d }.ret p f v) :=
  ⟨hc, hg, update_ok hok p trivial⟩

theorem Given.ret {c : Cons} {d : List UInt8} {rets : List (Int × Int)} (h : Given c d rets)
    {x : Int × Int} (hx : Empty x = false) : Given c d (rets ++ [x]) :=
  ⟨h.bytes, by rw [List.countP_append, h.eofs, List.countP_singleton, hx]; rfl⟩

/-- The result of a read that counted down from `target` to `n`. -/
theorem empty_sub {n target : BitVec 32} (hn : n.toNat < target.toNat)
    (ht : target.toNat < 2 ^ 31) : Empty (target.toInt, (target - n).toInt) = false := by
  have hsub : (target - n).toNat = target.toNat - n.toNat := BitVec.toNat_sub_of_le (by
    rw [BitVec.le_def]
    omega)
  have hv : (target - n).toInt = ((target - n).toNat : Int) :=
    BitVec.toInt_eq_toNat_of_lt (by omega)
  rw [Empty, hv, hsub]
  simp only [Bool.and_eq_false_imp, decide_eq_true_eq, decide_eq_false_iff_not]
  intro _
  omega

theorem toInt_pos {n : BitVec 32} : 0 < n.toInt ↔ 0 < n.toNat ∧ n.toNat < 2 ^ 31 := by
  rw [BitVec.toInt_eq_toNat_cond]
  have := n.isLt
  split <;> omega

/-- **One character for a reader.** -/
theorem consume_inv {s : Sys P} (h : ReadInv s) {p : P} {f : Frame}
    (hc : s.ctl p = .read .wait f) (hne : s.cons.r ≠ s.cons.w) : ReadInv (s.consume p f true) := by
  obtain ⟨hn, hle, ht⟩ := (hc ▸ h.ok p : (Ctl.read .wait f).Ok)
  obtain ⟨htake, hgone⟩ := h.cons.take hne
  unfold Sys.consume
  dsimp only
  split
  next hd =>
    split
    next hlt =>
      -- put back for the next read: this one has bytes to return
      rw [untake_take]
      exact .ret h.ok h.cons (h.given.ret (empty_sub (BitVec.lt_def.mp hlt) ht))
    next hge =>
      have heq : f.n = f.target := by
        rw [BitVec.lt_def] at hge
        exact BitVec.eq_of_toNat_eq (by omega)
      have hempty : Empty (f.target.toInt, (f.target - f.n).toInt) = true := by
        have hpos := toInt_pos.mpr ⟨by omega, ht⟩
        rw [Empty, heq, BitVec.sub_self]
        simpa using hpos
      refine .ret h.ok htake ⟨?_, ?_⟩
      · rw [hgone, hd, List.filter_append, h.given.bytes]
        simp
      · rw [hgone, hd, List.countP_append, List.count_append, h.given.eofs, List.countP_singleton,
          hempty]
        simp
  next hd =>
    have hgiven : Given s.cons.take (s.delivered ++ [s.cons.buf (slot s.cons.r)]) s.rets := by
      refine ⟨?_, ?_⟩
      · rw [hgone, List.filter_append, h.given.bytes]
        simp [hd]
      · rw [hgone, List.count_append, h.given.eofs]
        simp [hd]
    have hdec : (f.n - 1).toNat = f.n.toNat - 1 := by bv_omega
    have hlt : (f.n - 1).toNat < f.target.toNat := by omega
    rw [if_pos rfl]
    split
    next => exact .ret (f := ⟨f.n - 1, f.target⟩) h.ok htake (hgiven.ret (empty_sub hlt ht))
    next => exact ⟨htake, hgiven, update_ok h.ok p (.inr ⟨hlt, ht⟩)⟩

theorem run_inv {s s' : Sys P} {p : P} (h : ReadInv s) (hs : s.run p true = some s') :
    ReadInv s' := by
  unfold Sys.run at hs
  split at hs
  next f hc =>
    have hok := (hc ▸ h.ok p : (Ctl.read .top f).Ok)
    split at hs
    next hpos =>
      obtain ⟨h0, h1⟩ := toInt_pos.mp hpos
      cases hs
      refine ⟨h.cons, h.given, update_ok h.ok p ⟨h0, ?_⟩⟩
      rcases hok with heq | ⟨hlt, ht⟩
      · rw [← heq]
        exact ⟨Nat.le_refl _, h1⟩
      · exact ⟨Nat.le_of_lt hlt, ht⟩
    next hpos =>
      cases hs
      refine .ret h.ok h.cons (h.given.ret ?_)
      rcases hok with heq | ⟨hlt, ht⟩
      · -- nothing was asked for
        rw [Empty, ← heq]
        simp [hpos]
      · exact empty_sub hlt ht
  next f hc =>
    split at hs
    next =>
      cases hs
      exact ⟨h.cons, h.given, update_ok h.ok p (hc ▸ h.ok p : (Ctl.read .wait f).Ok)⟩
    next hne =>
      cases hs
      exact consume_inv h hc hne
  next f hc =>
    split at hs
    next =>
      cases hs
      exact .ret h.ok h.cons (h.given.ret (by simp [Empty]))
    next =>
      cases hs
      exact ⟨h.cons, h.given, update_ok h.ok p (hc ▸ h.ok p : (Ctl.read .killed f).Ok)⟩
  next f hc =>
    cases hs
    exact ⟨h.cons, h.given, update_ok h.ok p (hc ▸ h.ok p : (Ctl.read .sleep f).Ok)⟩
  next => cases hs

theorem read_step {s s' : Sys P} {a : Act P} (hcopy : Copies s a) (h : ReadInv s)
    (hs : step s a = some s') : ReadInv s' := by
  cases a with
  | intr c =>
    simp only [step, Option.ite_none_right_eq_some, Option.some.injEq] at hs
    obtain ⟨-, rfl⟩ := hs
    exact consoleintr_inv h c
  | read p n =>
    unfold step at hs
    dsimp only at hs
    split at hs
    next => cases hs; exact ⟨h.cons, h.given, update_ok h.ok p rfl⟩
    next => cases hs
  | kill p =>
    cases hs
    exact ⟨h.cons, h.given, update_ok h.ok p (wake_ok (h.ok p))⟩
  | acquire p =>
    simp only [step, Option.ite_none_right_eq_some] at hs
    obtain ⟨-, hs⟩ := hs
    split at hs
    next f hc =>
      cases hs
      exact ⟨h.cons, h.given, update_ok h.ok p (.inl (hc ▸ h.ok p : (Ctl.read .enter f).Ok))⟩
    next f hc =>
      cases hs
      exact ⟨h.cons, h.given, update_ok h.ok p (hc ▸ h.ok p : (Ctl.read .woken f).Ok)⟩
    next => cases hs
  | run p copied =>
    simp only [step, Option.ite_none_right_eq_some] at hs
    obtain rfl : copied = true := hcopy
    exact run_inv h hs.2

omit [DecidableEq P] in
theorem init_read {s : Sys P} (h : Init s) : ReadInv s := by
  have hwait : s.cons.waiting = [] := by
    unfold Cons.waiting
    rw [h.committed, List.drop_nil]
  have hgone : s.cons.gone = [] := by
    unfold Cons.gone
    rw [h.committed, List.take_nil, List.map_nil]
  refine ⟨⟨⟨?_, ?_, ?_, ?_, ?_, ?_, ?_⟩, fun _ => h.line, ?_⟩, ⟨?_, ?_⟩, fun p => ?_⟩
  · rw [h.taken]
    exact Nat.zero_le _
  · rw [hwait, h.w, h.r]
    rfl
  · rw [h.line, h.w, h.e]
    rfl
  · rw [hwait, h.line]
    exact Nat.zero_le _
  · rw [hwait, h.line]
    rfl
  · rw [h.committed, h.line, h.erased, h.accepted]
    exact List.Perm.refl _
  · rw [h.committed, h.line]
    exact List.Pairwise.nil
  · intro k hk
    rw [h.line] at hk
    exact absurd hk List.not_mem_nil
  · rw [hgone, h.delivered]
    rfl
  · rw [hgone, h.rets]
    rfl
  · rw [h.ctl p]
    trivial

/-- The bookkeeping is a log: nothing that was accepted, committed, erased or
delivered is taken back. -/
structure Grows (s s' : Sys P) : Prop where
  accepted : s.cons.accepted <+: s'.cons.accepted
  committed : s.cons.committed <+: s'.cons.committed
  erased : s.cons.erased <+: s'.cons.erased
  delivered : s.delivered <+: s'.delivered

theorem killLoop_logs : ∀ (fuel : Nat) (s : Cons),
    s.accepted <+: (Cons.killLoop fuel s).accepted ∧
    s.committed <+: (Cons.killLoop fuel s).committed ∧
    s.erased <+: (Cons.killLoop fuel s).erased := by
  intro fuel
  induction fuel with
  | zero => intro s; exact ⟨List.prefix_refl _, List.prefix_refl _, List.prefix_refl _⟩
  | succ fuel ih =>
    intro s
    rw [Cons.killLoop]
    split
    next =>
      obtain ⟨h1, h2, h3⟩ := ih s.erase
      exact ⟨h1, h2, (List.prefix_append _ _).trans h3⟩
    next => exact ⟨List.prefix_refl _, List.prefix_refl _, List.prefix_refl _⟩

omit [DecidableEq P] in
theorem Grows.of_eq {s s' : Sys P} (ha : s'.cons.accepted = s.cons.accepted)
    (hc : s'.cons.committed = s.cons.committed) (he : s'.cons.erased = s.cons.erased)
    (hd : s.delivered <+: s'.delivered) : Grows s s' :=
  ⟨by rw [ha], by rw [hc], by rw [he], hd⟩

theorem consume_grows (s : Sys P) (p : P) (f : Frame) (copied : Bool) :
    Grows s (s.consume p f copied) := by
  unfold Sys.consume
  dsimp only
  split
  next =>
    split
    next => exact .of_eq rfl rfl rfl (List.prefix_refl _)
    next => exact .of_eq rfl rfl rfl (List.prefix_refl _)
  next =>
    split
    next =>
      split
      next => exact .of_eq rfl rfl rfl (List.prefix_append _ _)
      next => exact .of_eq rfl rfl rfl (List.prefix_append _ _)
    next => exact .of_eq rfl rfl rfl (List.prefix_refl _)

omit [DecidableEq P] in
theorem consoleintr_grows (s : Sys P) (c : UInt8) : Grows s (s.consoleintr c) := by
  have hrefl : Grows s s := .of_eq rfl rfl rfl (List.prefix_refl _)
  unfold Sys.consoleintr
  split
  next => exact hrefl
  next =>
    split
    next =>
      obtain ⟨h1, h2, h3⟩ := killLoop_logs (s.cons.e - s.cons.w).toNat s.cons
      exact ⟨h1, h2, h3, List.prefix_refl _⟩
    next =>
      split
      next =>
        split
        next => exact ⟨List.prefix_refl _, List.prefix_refl _, List.prefix_append _ _,
          List.prefix_refl _⟩
        next => exact hrefl
      next =>
        split
        next =>
          dsimp only
          generalize (if c = carriageReturn then newline else c) = c'
          split
          next => exact ⟨List.prefix_append _ _, List.prefix_append _ _, List.prefix_refl _,
            List.prefix_refl _⟩
          next => exact ⟨List.prefix_append _ _, List.prefix_refl _, List.prefix_refl _,
            List.prefix_refl _⟩
        next => exact hrefl

theorem step_grows {s s' : Sys P} {a : Act P} (hs : step s a = some s') : Grows s s' := by
  have hsame : ∀ t : Sys P, t.cons = s.cons → t.delivered = s.delivered → Grows s t :=
    fun t hc hd => .of_eq (by rw [hc]) (by rw [hc]) (by rw [hc]) (by rw [hd])
  cases a with
  | intr c =>
    simp only [step, Option.ite_none_right_eq_some, Option.some.injEq] at hs
    obtain ⟨-, rfl⟩ := hs
    exact consoleintr_grows s c
  | read p n =>
    unfold step at hs
    dsimp only at hs
    split at hs
    next => cases hs; exact hsame _ rfl rfl
    next => cases hs
  | kill p =>
    cases hs
    exact hsame _ rfl rfl
  | acquire p =>
    simp only [step, Option.ite_none_right_eq_some] at hs
    obtain ⟨-, hs⟩ := hs
    split at hs
    next => cases hs; exact hsame _ rfl rfl
    next => cases hs; exact hsame _ rfl rfl
    next => cases hs
  | run p copied =>
    simp only [step, Option.ite_none_right_eq_some] at hs
    obtain ⟨-, hs⟩ := hs
    unfold Sys.run at hs
    split at hs
    next =>
      split at hs
      next => cases hs; exact hsame _ rfl rfl
      next => cases hs; exact hsame _ rfl rfl
    next f hc =>
      split at hs
      next => cases hs; exact hsame _ rfl rfl
      next => cases hs; exact consume_grows s p f copied
    next =>
      split at hs
      next => cases hs; exact hsame _ rfl rfl
      next => cases hs; exact hsame _ rfl rfl
    next => cases hs; exact hsame _ rfl rfl
    next => cases hs

/-- **The line discipline.** In every reached state:

* modulo `2^32`, `r <= w <= e <= r + INPUT_BUF_SIZE`;
* every accepted character is in exactly one place: committed, in the line, or
  erased; the committed ones stay committed, the erased ones erased, and both the
  committed ones and the line are in the order of typing;
* the line holds no newline and no control-d, and a full buffer has no line: these
  three commit it;
* what readers got are the committed characters up to `r`, in order and once each,
  without the control-ds, and the ring from `r` to `w` holds the others;
* the reads of positive length that returned `0` are as many as the control-ds `r`
  has passed;
* a step does to the text what typing its character into a line does, and nothing if it is
  no interrupt: a line is committed by a newline, a control-d or the character that fills
  the buffer only, and characters are erased by control-u, control-h and delete only. -/
theorem console_line_discipline {s : Sys P} (h : Reach step Copies Init s) :
    (s.cons.w - s.cons.r).toNat + (s.cons.e - s.cons.w).toNat = (s.cons.e - s.cons.r).toNat ∧
    (s.cons.e - s.cons.r).toNat ≤ INPUT_BUF_SIZE ∧
    (s.cons.committed ++ s.cons.line ++ s.cons.erased).Perm
      (List.range s.cons.accepted.length) ∧
    (s.cons.committed ++ s.cons.line).Pairwise (· < ·) ∧
    (∀ a s', step s a = some s' → Grows s s') ∧
    (∀ k, k ∈ s.cons.line → s.cons.char k ≠ newline ∧ s.cons.char k ≠ C 'D') ∧
    ((s.cons.e - s.cons.r).toNat = INPUT_BUF_SIZE → s.cons.line = []) ∧
    s.cons.taken + (s.cons.w - s.cons.r).toNat = s.cons.committed.length ∧
    s.delivered = ((s.cons.committed.take s.cons.taken).map s.cons.char).filter (· ≠ C 'D') ∧
    (List.range (s.cons.w - s.cons.r).toNat).map
        (fun k => s.cons.buf ((s.cons.r.toNat + k) % INPUT_BUF_SIZE))
      = (s.cons.committed.drop s.cons.taken).map s.cons.char ∧
    s.rets.countP (fun x => decide (0 < x.1) && decide (x.2 = 0))
      = ((s.cons.committed.take s.cons.taken).map s.cons.char).count (C 'D') ∧
    (∀ a s', step s a = some s' → s'.cons.text = s.edits a) ∧
    (∀ a s', step s a = some s' → s'.cons.committed ≠ s.cons.committed → ∃ c, a = .intr c ∧
      (c = newline ∨ c = carriageReturn ∨ c = C 'D' ∨ s.cons.space = 1)) ∧
    (∀ a s', step s a = some s' → s'.cons.erased ≠ s.cons.erased → ∃ c, a = .intr c ∧
      (c = C 'U' ∨ c = C 'H' ∨ c = delete)) := by
  have hi : ReadInv s := h.inv (fun _ => init_read) fun hi hok hs => read_step hok hi hs
  have hring := hi.cons.toRingInv
  have hsum := sum_toNat hring
  have hr := hring.r
  have hw := hring.w
  refine ⟨by omega, by rw [hsum]; exact hring.room, hring.places, hring.order,
    fun a s' hs => step_grows hs, hi.cons.plain, by rw [hsum]; exact hi.cons.full, ?_,
    hi.given.bytes, ?_, hi.given.eofs, fun a s' hs => step_text hi.cons hs,
    fun a s' hs => step_committed hi.cons hs, fun a s' hs => step_erased hi.cons hs⟩
  · rw [hr]
    show s.cons.taken + (s.cons.committed.drop s.cons.taken).length = _
    rw [List.length_drop]
    have := hring.taken
    omega
  · rw [hr]
    have hview := hring.view
    rw [Ring.contents_split, List.map_append] at hview
    exact List.append_inj_left hview (by simp [Cons.waiting])

/-- Nothing typed, nobody reading. -/
def Sys.fresh : Sys P where
  cons := ⟨fun _ => 0, 0, 0, 0, [], [], [], [], [], 0⟩
  lock := none
  ctl := fun _ => .user
  killed := fun _ => false
  delivered := []
  rets := []

omit [DecidableEq P] in
theorem fresh_init : Init (Sys.fresh : Sys P) :=
  ⟨rfl, rfl, rfl, rfl, rfl, rfl, rfl, rfl, fun _ => rfl, rfl, rfl⟩

/-- `a`, control-h, `b`, return, `c`, control-d; one read for each of the two lines
and one that finds the end. -/
def twoLines : List (Act Unit) :=
  [.intr 97, .intr (C 'H'), .intr 98, .intr 13,
    .read () 10, .acquire (), .run () true, .run () true, .run () true, .run () true,
    .intr 99, .intr (C 'D'),
    .read () 10, .acquire (), .run () true, .run () true, .run () true, .run () true,
    .read () 10, .acquire (), .run () true, .run () true]

theorem console_line_discipline_two_lines :
    ∃ s : Sys Unit, runFrom step Sys.fresh twoLines = some s ∧
      s.delivered = [98, 10, 99] ∧ s.rets = [(10, 2), (10, 1), (10, 0)] ∧
      s.cons.erased = [0] ∧ (s.cons.e - s.cons.r).toNat ≤ INPUT_BUF_SIZE ∧
      s.delivered = ((s.cons.committed.take s.cons.taken).map s.cons.char).filter (· ≠ C 'D') ∧
      ∀ s', step s (.intr 120) = some s' → s'.cons.text = s.cons.text.type 120 s.cons.space := by
  have hrun : (runFrom (guarded step Copies) (Sys.fresh : Sys Unit) twoLines).map
      (fun s => (s.delivered, s.rets, s.cons.erased))
      = some ([98, 10, 99], [(10, 2), (10, 1), (10, 0)], [0]) := by decide +kernel
  obtain ⟨s, hs, he⟩ := Option.map_eq_some_iff.mp hrun
  simp only [Prod.mk.injEq] at he
  obtain ⟨hd, hr, her⟩ := he
  obtain ⟨hok, hs⟩ := runFrom_guarded twoLines hs
  have hall := console_line_discipline (Reach.of_run _ (.start fresh_init) hok hs)
  exact ⟨s, hs, hd, hr, her, hall.2.1, hall.2.2.2.2.2.2.2.2.1,
    hall.2.2.2.2.2.2.2.2.2.2.2.1 (.intr 120)⟩

end Xv6.Console
