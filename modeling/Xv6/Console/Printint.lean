import Mathlib.Data.BitVec
import Mathlib.Data.Nat.Digits.Lemmas

/-!
# Numbers on the console

`printint` puts the digits of a number into a buffer of 20 characters, the last digit
first, and the sign after them; then it sends the buffer off from its end.

> What goes out is the number in its base, and there is always room.

Twenty digits are needed without a sign, for `2 ^ 64 - 1`. With one there are at most
nineteen, because the negative of a number of 64 bits is `2 ^ 63` at most: that one is
its own negative.
-/

namespace Xv6.Console

/-- The length of `buf`. -/
def BUFLEN : Nat := 20

/-- `digits`: `"0123456789abcdef"`. -/
def digits : List UInt8 :=
  [48, 49, 50, 51, 52, 53, 54, 55, 56, 57, 97, 98, 99, 100, 101, 102]

def digit (d : Nat) : UInt8 := digits.getD d 0

/-- `'-'`. -/
def minus : UInt8 := 45

/-- `buf[i++] = c`, where `buf` is the first `i` characters. None past the last of them. -/
def putBuf (buf : List UInt8) (c : UInt8) : Option (List UInt8) :=
  if buf.length < BUFLEN then some (buf ++ [c]) else none

/-- `do { buf[i++] = digits[x % base]; } while((x /= base) != 0);` -/
def putDigits (base x : Nat) (buf : List UInt8) : Option (List UInt8) :=
  if _h : buf.length < BUFLEN then
    if x / base ≠ 0 then putDigits base (x / base) (buf ++ [digit (x % base)])
    else some (buf ++ [digit (x % base)])
  else none
termination_by BUFLEN - buf.length
decreasing_by
  rw [List.length_append, List.length_singleton]
  omega

/-- What goes to `consputc`. -/
def printint (xx : BitVec 64) (base : Nat) (sign : Bool) : Option (List UInt8) := do
  let sign := sign && xx.slt 0
  let x := if sign then -xx else xx
  let buf ← putDigits base x.toNat []
  let buf ← if sign then putBuf buf minus else some buf
  pure buf.reverse

/-! ## What a number looks like -/

/-- A number in a base, without leading zeros. -/
def numeral (base n : Nat) : List UInt8 :=
  if n = 0 then [digit 0] else ((Nat.digits base n).map digit).reverse

/-- A whole number, with a sign if it is negative. -/
def signed (base : Nat) (v : Int) : List UInt8 :=
  if v < 0 then minus :: numeral base v.natAbs else numeral base v.natAbs

/-- The number that is to be printed. -/
def valueOf (xx : BitVec 64) (sign : Bool) : Int := if sign then xx.toInt else xx.toNat

variable {base n : Nat} {buf : List UInt8}

/-- The first digit of a number is none of its zeros. -/
theorem numeral_lead (hn : n ≠ 0) :
    ∃ d, d ≠ 0 ∧ (numeral base n).head? = some (digit d) := by
  refine ⟨_, Nat.getLast_digit_ne_zero base hn, ?_⟩
  unfold numeral
  rw [if_neg hn, List.head?_reverse, List.getLast?_map, List.getLast?_eq_getLast_of_ne_nil,
    Option.map_some]

/-- The digits as they are put into the buffer: at least one. -/
theorem numeral_step (hb : 1 < base) (n : Nat) : (numeral base n).reverse =
    digit (n % base) :: if n / base = 0 then [] else (numeral base (n / base)).reverse := by
  by_cases hn : n = 0
  · rw [hn, Nat.zero_mod, Nat.zero_div, if_pos rfl]
    rfl
  · have hdig := Nat.digits_def' hb (Nat.pos_of_ne_zero hn)
    unfold numeral
    rw [if_neg hn, List.reverse_reverse, hdig, List.map_cons]
    by_cases hq : n / base = 0
    · rw [if_pos hq, hq, Nat.digits_zero]
      rfl
    · rw [if_neg hq, if_neg hq, List.reverse_reverse]

theorem numeral_length (hb : 1 < base) (n : Nat) :
    (numeral base n).length = 1 + if n / base = 0 then 0 else (numeral base (n / base)).length := by
  rw [← List.length_reverse, numeral_step hb, List.length_cons, Nat.add_comm]
  split
  next => rfl
  next => rw [List.length_reverse]

/-- **The loop**: by induction on the room that is left. -/
theorem putDigits_eq (hb : 1 < base) : ∀ room n (buf : List UInt8), buf.length + room = BUFLEN →
    (numeral base n).length ≤ room → putDigits base n buf =
    some (buf ++ (numeral base n).reverse) := by
  intro room
  induction room with
  | zero =>
    intro n buf _ hle
    rw [numeral_length hb] at hle
    omega
  | succ room ih =>
    intro n buf hroom hle
    have hlt : buf.length < BUFLEN := by omega
    rw [numeral_length hb] at hle
    rw [putDigits, dif_pos hlt, numeral_step hb n]
    by_cases hq : n / base = 0
    · rw [if_neg (not_not.mpr hq), if_pos hq]
    · rw [if_neg hq] at hle
      rw [if_pos hq, if_neg hq,
        ih _ _ (by rw [List.length_append, List.length_singleton]; omega) (by omega),
        List.append_assoc, List.singleton_append]

/-! ## The room -/

theorem numeral_length_le {k : Nat} (hb : 1 < base) (hk : 0 < k) (hn : n < base ^ k) :
    (numeral base n).length ≤ k := by
  unfold numeral
  split
  next => exact hk
  next =>
    rw [List.length_reverse, List.length_map]
    exact (Nat.digits_length_le_iff hb n).mpr hn

/-- The digits of a number of 64 bits, and those of a negative one. -/
theorem numeral_fits (hbase : base = 10 ∨ base = 16) :
    (n < 2 ^ 64 → (numeral base n).length ≤ 20) ∧ (n ≤ 2 ^ 63 → (numeral base n).length ≤ 19) := by
  rcases hbase with rfl | rfl
  · exact ⟨fun h => numeral_length_le (by decide) (by decide) (Nat.lt_of_lt_of_le h (by decide)),
      fun h => numeral_length_le (by decide) (by decide) (Nat.lt_of_le_of_lt h (by decide))⟩
  · exact ⟨fun h => numeral_length_le (by decide) (by decide) (Nat.lt_of_lt_of_le h (by decide)),
      fun h => numeral_length_le (by decide) (by decide) (Nat.lt_of_le_of_lt h (by decide))⟩

/-! ## The sign -/

/-- The negative of a negative number; `-2 ^ 63` has itself for that, which is `2 ^ 63`. -/
theorem neg_toNat {xx : BitVec 64} (h : xx.toInt < 0) : (-xx).toNat = xx.toInt.natAbs ∧
    (-xx).toNat ≤ 2 ^ 63 := by
  have hlt := xx.isLt
  rw [BitVec.toNat_neg]
  rw [BitVec.toInt_eq_toNat_cond] at h ⊢
  split at h
  next => omega
  next hge =>
    rw [if_neg hge]
    omega

/-- **`printint`** sends out the number in its base. -/
theorem printint_eq (xx : BitVec 64) (sign : Bool) (hbase : base = 10 ∨ base = 16) :
    printint xx base sign = some (signed base (valueOf xx sign)) ∧
      (signed base (valueOf xx sign)).length ≤ BUFLEN := by
  have hb : 1 < base := by omega
  have hB : BUFLEN = 20 := rfl
  have hloop := fun x hx => putDigits_eq hb BUFLEN x [] (Nat.zero_add _) hx
  unfold printint
  by_cases hneg : sign = true ∧ xx.toInt < 0
  · obtain ⟨hs, hlt⟩ := hneg
    obtain ⟨hval, hle⟩ := neg_toNat hlt
    have hroom := (numeral_fits hbase).2 hle
    have hslt : xx.slt 0 = true := by
      rw [BitVec.slt_iff_toInt_lt]
      exact hlt
    have hv : valueOf xx sign = xx.toInt := if_pos hs
    unfold signed
    rw [hv, if_pos hlt, ← hval, hs, hslt]
    refine ⟨?_, by rw [List.length_cons, hB]; omega⟩
    show ((putDigits base (-xx).toNat []).bind fun buf => (putBuf buf minus).bind
      fun buf => some buf.reverse) = _
    rw [hloop _ (by rw [hB]; omega), Option.bind_some, List.nil_append, putBuf,
      if_pos (by rw [List.length_reverse, hB]; omega), Option.bind_some, List.reverse_append,
      List.reverse_reverse]
    rfl
  · have hroom := (numeral_fits hbase).1 xx.isLt
    have hno : (sign && xx.slt 0) = false := by
      rw [Bool.and_eq_false_iff, or_iff_not_imp_left]
      intro hs
      rw [Bool.eq_false_iff]
      intro hslt
      rw [BitVec.slt_iff_toInt_lt] at hslt
      exact hneg ⟨Bool.eq_true_of_not_eq_false hs, hslt⟩
    -- a number that is not negative is the same with and without a sign
    have hv : valueOf xx sign = (xx.toNat : Int) := by
      unfold valueOf
      split
      next hs =>
        have hpos : ¬xx.toInt < 0 := fun h => hneg ⟨hs, h⟩
        have hlt := xx.isLt
        rw [BitVec.toInt_eq_toNat_cond] at hpos ⊢
        split at hpos
        next hc => rw [if_pos hc]
        next => omega
      next => rfl
    unfold signed
    rw [hv, if_neg (by omega), Int.natAbs_natCast, hno]
    refine ⟨?_, hroom⟩
    show ((putDigits base xx.toNat []).bind fun buf => some buf.reverse) = _
    rw [hloop _ (by rw [hB]; exact hroom), Option.bind_some, List.nil_append, List.reverse_reverse]

/-- `-2 ^ 63`, with all of its digits. -/
theorem printint_eq_least : printint (BitVec.ofNat 64 (2 ^ 63)) 10 true =
      some (signed 10 (valueOf (BitVec.ofNat 64 (2 ^ 63)) true)) ∧
    (signed 10 (valueOf (BitVec.ofNat 64 (2 ^ 63)) true)).length ≤ BUFLEN :=
  printint_eq (BitVec.ofNat 64 (2 ^ 63)) true (.inl rfl)

end Xv6.Console
