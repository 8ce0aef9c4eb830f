import Mathlib.Logic.Function.Basic
import Mathlib.Algebra.Order.Ring.Nat
import Mathlib.Tactic.Ring

/-!
# Numbers in bytes

Memory is a function from offsets to bytes. `get` reads a number of `w` bytes, the
least significant first, and `put` stores one; `blit` copies a list of bytes. What was
put is got back modulo `256 ^ w`, and a store is not seen outside the bytes it goes
to (`put_of_out`, `get_congr`).
-/

namespace Xv6.Lib.Bytes

/-- Byte `k` of `v`. -/
def le (v k : Nat) : UInt8 := UInt8.ofNat (v / 256 ^ k)

theorem le_toNat (v k : Nat) : (le v k).toNat = v / 256 ^ k % 256 := by
  unfold le
  rw [UInt8.toNat_ofNat']

/-- The number in the `w` bytes from `o` on. -/
def get (f : Nat → UInt8) (o : Nat) : Nat → Nat
  | 0 => 0
  | w + 1 => get f o w + (f (o + w)).toNat * 256 ^ w

/-- Store `v` in the `w` bytes from `o` on. -/
def put (f : Nat → UInt8) (o w v : Nat) : Nat → UInt8 :=
  fun k => if o ≤ k ∧ k < o + w then le v (k - o) else f k

/-- Copy the bytes of `l` to `o`. -/
def blit (f : Nat → UInt8) (o : Nat) (l : List UInt8) : Nat → UInt8 :=
  fun k => if o ≤ k ∧ k < o + l.length then l.getD (k - o) 0 else f k

theorem get_lt (f : Nat → UInt8) (o : Nat) : ∀ w, get f o w < 256 ^ w := by
  intro w
  induction w with
  | zero => exact Nat.one_pos
  | succ w ih =>
    have hb : (f (o + w)).toNat < 256 := (f (o + w)).toNat_lt
    have hle : (f (o + w)).toNat * 256 ^ w ≤ 255 * 256 ^ w := Nat.mul_le_mul_right _ (by omega)
    show get f o w + (f (o + w)).toNat * 256 ^ w < 256 ^ (w + 1)
    rw [pow_succ]
    omega

/-- Only the bytes it reads matter. -/
theorem get_congr {f g : Nat → UInt8} {o o' w : Nat} (h : ∀ k, k < w → f (o + k) = g (o' + k)) :
    get f o w = get g o' w := by
  induction w with
  | zero => rfl
  | succ w ih =>
    show get f o w + _ = get g o' w + _
    rw [ih fun k hk => h k (Nat.lt_succ_of_lt hk), h w (Nat.lt_succ_self w)]

/-- Bytes that are those of `v` are `v`. -/
theorem get_of_le {f : Nat → UInt8} {o w v : Nat} (h : ∀ k, k < w → f (o + k) = le v k) :
    get f o w = v % 256 ^ w := by
  induction w with
  | zero =>
    show 0 = v % 256 ^ 0
    omega
  | succ w ih =>
    show get f o w + (f (o + w)).toNat * 256 ^ w = v % 256 ^ (w + 1)
    rw [ih fun k hk => h k (Nat.lt_succ_of_lt hk), h w (Nat.lt_succ_self w), le_toNat, pow_succ,
      Nat.mod_mul, Nat.mul_comm]

theorem get_zero {f : Nat → UInt8} {o w : Nat} (h : ∀ k, k < w → f (o + k) = 0) :
    get f o w = 0 := by
  have hz : ∀ k, le 0 k = 0 := by
    intro k
    unfold le
    rw [Nat.zero_div]
    rfl
  have hg := get_of_le (f := f) (o := o) (w := w) (v := 0) fun k hk => (h k hk).trans (hz k).symm
  rwa [Nat.zero_mod] at hg

theorem put_of_in (f : Nat → UInt8) {o w v k : Nat} (hk : k < w) :
    put f o w v (o + k) = le v k := by
  unfold put
  rw [if_pos (by omega), Nat.add_sub_cancel_left]

theorem put_of_out (f : Nat → UInt8) {o w v k : Nat} (hk : k < o ∨ o + w ≤ k) :
    put f o w v k = f k := by
  unfold put
  rw [if_neg (by omega)]

/-- What was stored is read back. -/
theorem get_put (f : Nat → UInt8) (o w : Nat) {v : Nat} (hv : v < 256 ^ w) :
    get (put f o w v) o w = v := by
  rw [get_of_le fun k hk => put_of_in f hk, Nat.mod_eq_of_lt hv]

/-- A store is not seen elsewhere. -/
theorem get_put_ne (f : Nat → UInt8) {o w v o' w' : Nat} (h : o' + w' ≤ o ∨ o + w ≤ o') :
    get (put f o w v) o' w' = get f o' w' :=
  get_congr fun k hk => put_of_out f (by omega)

theorem blit_of_in (f : Nat → UInt8) {o k : Nat} {l : List UInt8} (hk : k < l.length) :
    blit f o l (o + k) = l.getD k 0 := by
  unfold blit
  rw [if_pos (by omega), Nat.add_sub_cancel_left]

theorem blit_of_out (f : Nat → UInt8) {o k : Nat} {l : List UInt8} (hk : k < o ∨ o + l.length ≤ k) :
    blit f o l k = f k := by
  unfold blit
  rw [if_neg (by omega)]

end Xv6.Lib.Bytes
