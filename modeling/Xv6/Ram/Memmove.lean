import Mathlib.Algebra.Ring.Nat
import Mathlib.Logic.Function.Basic

/-!
# `memmove` when source and destination overlap

`memmove` copies upwards or downwards, as a comparison of the two pointers tells. A
byte of the source that the copy has already gone over would be lost; each direction
is taken only where that cannot be.

  > The bytes at the destination are those that were at the source, and no other byte
  > is changed.

Pointers are 64 bits wide and their arithmetic wraps. That the two regions do not wrap
is for those who call it: then only the pointer one past the end may be 0.
-/

namespace Xv6.Ram

/-- Memory: the byte at an address. -/
abbrev Memory := UInt64 → UInt8

/-- `while(n-- > 0) *d++ = *s++;` -/
def copyUp : Nat → UInt64 → UInt64 → Memory → Memory
  | 0, _, _, m => m
  | n + 1, d, s, m => copyUp n (d + 1) (s + 1) (Function.update m d (m s))

/-- `while(n-- > 0) *--d = *--s;` -/
def copyDown : Nat → UInt64 → UInt64 → Memory → Memory
  | 0, _, _, m => m
  | n + 1, d, s, m => copyDown n (d - 1) (s - 1) (Function.update m (d - 1) (m (s - 1)))

def memmove (m : Memory) (dst src : UInt64) (n : UInt32) : Memory :=
  if n = 0 then m
  else if src < dst ∧ src + n.toUInt64 > dst then
    copyDown n.toNat (dst + n.toUInt64) (src + n.toUInt64) m
  else copyUp n.toNat dst src m

variable {m : Memory} {d s p a : UInt64} {n k : Nat}

/-! ## Pointers -/

theorem add_toNat (h : p.toNat + k < 2 ^ 64) : (p + UInt64.ofNat k).toNat = p.toNat + k := by
  rw [UInt64.toNat_add, UInt64.toNat_ofNat', Nat.mod_eq_of_lt (show k < 2 ^ 64 by omega),
    Nat.mod_eq_of_lt h]

theorem add_succ (p : UInt64) (k : Nat) : p + 1 + UInt64.ofNat k = p + UInt64.ofNat (k + 1) := by
  rw [UInt64.ofNat_add, UInt64.add_assoc, UInt64.add_comm 1]
  rfl

theorem add_zero (p : UInt64) : p + UInt64.ofNat 0 = p := UInt64.add_zero p

/-- The pointer after `k + 1` bytes, and back over the last of them. -/
theorem add_succ_sub (p : UInt64) (k : Nat) :
    p + UInt64.ofNat (k + 1) - 1 = p + UInt64.ofNat k := by
  rw [← add_succ, UInt64.add_assoc, UInt64.add_comm 1, ← UInt64.add_assoc, UInt64.add_sub_cancel]

theorem add_inj {j : Nat} (hp : p.toNat + n ≤ 2 ^ 64) (hj : j < n) (hk : k < n)
    (h : p + UInt64.ofNat j = p + UInt64.ofNat k) : j = k := by
  have he := congrArg UInt64.toNat h
  rw [add_toNat (by omega), add_toNat (by omega)] at he
  omega

/-! ## One byte -/

/-- Of the `n` bytes those in `done` are copied, from what was in memory before. -/
structure Moved (m₀ m : Memory) (d s : UInt64) (n : Nat) (done : Nat → Prop) : Prop where
  copied : ∀ k, k < n → done k → m (d + UInt64.ofNat k) = m₀ (s + UInt64.ofNat k)
  rest : ∀ a, (∀ k, k < n → done k → a ≠ d + UInt64.ofNat k) → m a = m₀ a

variable {m₀ : Memory} {done done' : Nat → Prop}

theorem Moved.mono (h : Moved m₀ m d s n done) (hd : ∀ k, k < n → (done' k ↔ done k)) :
    Moved m₀ m d s n done' :=
  ⟨fun k hk hdk => h.copied k hk ((hd k hk).mp hdk),
    fun a ha => h.rest a fun k hk hdk => ha k hk ((hd k hk).mpr hdk)⟩

/-- **A byte is copied** that was not written over yet. -/
theorem Moved.byte {j : Nat} (h : Moved m₀ m d s n done) (hd : d.toNat + n ≤ 2 ^ 64) (hj : j < n)
    (hs : ∀ k, k < n → done k → s + UInt64.ofNat j ≠ d + UInt64.ofNat k) :
    Moved m₀ (Function.update m (d + UInt64.ofNat j) (m (s + UInt64.ofNat j))) d s n
      (fun k => done k ∨ k = j) where
  copied k hk hdk := by
    by_cases hkj : k = j
    · rw [hkj, Function.update_self]
      exact h.rest _ hs
    · rw [Function.update_of_ne fun he => hkj (add_inj hd hk hj he)]
      exact h.copied k hk (hdk.resolve_right hkj)
  rest a ha := by
    rw [Function.update_of_ne (ha j hj (.inr rfl))]
    exact h.rest a fun k hk hdk => ha k hk (.inl hdk)

/-! ## The two loops -/

/-- Upwards, from byte `i` on: the destination starts at or below the source, or past its end. -/
theorem copyUp_moved (hd : d.toNat + n ≤ 2 ^ 64) (hs : s.toNat + n ≤ 2 ^ 64)
    (hdir : d.toNat ≤ s.toNat ∨ s.toNat + n ≤ d.toNat) :
    ∀ r i m, i + r = n → Moved m₀ m d s n (fun k => k < i) →
      Moved m₀ (copyUp r (d + UInt64.ofNat i) (s + UInt64.ofNat i) m) d s n (fun k => k < n) := by
  intro r
  induction r with
  | zero =>
    intro i m hi h
    rw [← show i = n from hi] at h ⊢
    exact h
  | succ r ih =>
    intro i m hi h
    have hin : i < n := by omega
    have hstep := h.byte hd hin fun k hk hlt he => by
      have he := congrArg UInt64.toNat he
      rw [add_toNat (by omega), add_toNat (by omega)] at he
      omega
    have hnext := ih (i + 1) _ (by omega) (hstep.mono fun k _ => by omega)
    rw [← add_succ, ← add_succ] at hnext
    unfold copyUp
    rw [UInt64.add_assoc d, UInt64.add_assoc s, UInt64.add_comm _ 1, ← UInt64.add_assoc,
      ← UInt64.add_assoc]
    exact hnext

/-- Downwards, to byte `i`: the source starts below the destination. -/
theorem copyDown_moved (hd : d.toNat + n ≤ 2 ^ 64) (hdir : s.toNat < d.toNat) :
    ∀ i m, i ≤ n → Moved m₀ m d s n (fun k => i ≤ k) →
      Moved m₀ (copyDown i (d + UInt64.ofNat i) (s + UInt64.ofNat i) m) d s n (fun k => 0 ≤ k) := by
  intro i
  induction i with
  | zero => exact fun m _ h => h
  | succ i ih =>
    intro m hi h
    have hin : i < n := by omega
    have hstep := h.byte hd hin fun k hk hle he => by
      have he := congrArg UInt64.toNat he
      rw [add_toNat (by omega), add_toNat (by omega)] at he
      omega
    unfold copyDown
    rw [add_succ_sub, add_succ_sub]
    exact ih _ (by omega) (hstep.mono fun k _ => by omega)

/-! ## The function -/

/-- **`memmove` copies what was there**, whether or not the regions overlap. -/
theorem memmove_correct (m : Memory) (dst src : UInt64) (n : UInt32)
    (hs : src.toNat + n.toNat ≤ 2 ^ 64)
    (hd : dst.toNat + n.toNat ≤ 2 ^ 64) :
    (∀ k, k < n.toNat → memmove m dst src n (dst + UInt64.ofNat k) = m (src + UInt64.ofNat k)) ∧
    ∀ a, (∀ k, k < n.toNat → a ≠ dst + UInt64.ofNat k) → memmove m dst src n a = m a := by
  have hn : n.toUInt64 = UInt64.ofNat n.toNat := by
    apply UInt64.toNat_inj.mp
    rw [UInt32.toNat_toUInt64, UInt64.toNat_ofNat',
      Nat.mod_eq_of_lt (Nat.lt_trans n.toNat_lt (by decide))]
  have hmoved : Moved m (memmove m dst src n) dst src n.toNat (fun _ => True) := by
    unfold memmove
    split
    next h0 =>
      have hz : n.toNat = 0 := congrArg UInt32.toNat h0
      exact ⟨fun k hk => absurd hk (by omega), fun a _ => rfl⟩
    next =>
      split
      next hdown =>
        have hlt : src.toNat < dst.toNat := UInt64.lt_iff_toNat_lt.mp hdown.1
        have hstart : Moved m m dst src n.toNat (fun k => n.toNat ≤ k) :=
          ⟨fun k hk hle => absurd hk (by omega), fun a _ => rfl⟩
        rw [hn]
        exact (copyDown_moved hd hlt n.toNat m (Nat.le_refl _) hstart).mono fun k _ => by simp
      next hup =>
        have hdir : dst.toNat ≤ src.toNat ∨ src.toNat + n.toNat ≤ dst.toNat := by
          by_contra hc
          -- the end of the source is below that of the destination, so it does not wrap
          have hend : (src + n.toUInt64).toNat = src.toNat + n.toNat := by
            rw [hn]
            exact add_toNat (by omega)
          refine hup ⟨UInt64.lt_iff_toNat_lt.mpr (by omega), ?_⟩
          show dst < src + n.toUInt64
          rw [UInt64.lt_iff_toNat_lt, hend]
          omega
        have hstart : Moved m m dst src n.toNat (fun k => k < 0) :=
          ⟨fun k _ hlt => absurd hlt (Nat.not_lt_zero k), fun a _ => rfl⟩
        have hloop := copyUp_moved hd hs hdir n.toNat 0 m (Nat.zero_add _) hstart
        rw [add_zero, add_zero] at hloop
        exact hloop.mono fun k hk => by simp [hk]
  exact ⟨fun k hk => hmoved.copied k hk trivial, fun a ha => hmoved.rest a fun k hk _ => ha k hk⟩

/-- Two bytes that overlap. -/
theorem memmove_correct_overlap : let m : Memory :=
  fun a => if a = 8 then 5 else if a = 9 then 6 else 0
    (∀ k, k < (2 : UInt32).toNat → memmove m 9 8 2 (9 + UInt64.ofNat k) = m (8 + UInt64.ofNat k)) ∧
    ∀ a, (∀ k, k < (2 : UInt32).toNat → a ≠ 9 + UInt64.ofNat k) → memmove m 9 8 2 a = m a :=
  memmove_correct _ 9 8 2 (by decide) (by decide)

end Xv6.Ram
