import Xv6.Vm.Stack
import Mathlib.Data.List.GetD

/-!
# The arguments of a new program

The strings go on the stack from the top down, each at a multiple of 16, and below them
the array of pointers. `stackSize` is what that takes, rounding included.

> `pushArgs_spec`: the arguments are laid out in the pages above the guard, or
> `stackSize` is more than those pages have.

By induction on the strings: what is written next lies below everything written so far.
-/

namespace Xv6.Vm

open Lib

variable {D : Frame → Prop} {held : List Frame} {root : Frame} {k k' : Kmem} {s l : List UInt8}
  {argv : List (List UInt8)} {us : List Nat} {sz sp base lo hi a d n : Nat} {p m : Me}
  {src : List UInt8}

/-! ## The layout -/

/-- Rounded up to a multiple of 16. -/
def up16 (n : Nat) : Nat := (n + 15) / 16 * 16

/-- How far down the strings go when `d` bytes are taken. -/
def depth : List (List UInt8) → Nat → Nat
  | [], d => d
  | s :: argv, d => depth argv (up16 (d + (s.length + 1)))

/-- What the arguments take of the stack. -/
def stackSize (argv : List (List UInt8)) : Nat := up16 (depth argv 0 + (argv.length + 1) * 8)

theorem le_up16 (n : Nat) : n ≤ up16 n := by
  unfold up16
  omega

theorem up16_mod (n : Nat) : up16 n % 16 = 0 := Nat.mul_mod_left _ _

theorem le_depth : ∀ (argv : List (List UInt8)) {d : Nat}, d ≤ depth argv d := by
  intro argv
  induction argv with
  | nil => intro d; exact Nat.le_refl d
  | cons s argv ih =>
    intro d; exact Nat.le_trans (Nat.le_trans (Nat.le_add_right d _) (le_up16 _)) ih

theorem depth_mod : ∀ (argv : List (List UInt8)) {d : Nat}, d % 16 = 0 → depth argv d % 16 = 0 := by
  intro argv
  induction argv with
  | nil => intro d h; exact h
  | cons s argv ih => intro d _; exact ih (up16_mod _)

theorem stackSize_mod (argv : List (List UInt8)) : stackSize argv % 16 = 0 := up16_mod _

theorem depth_le_stackSize (argv : List (List UInt8)) :
    depth argv 0 + (argv.length + 1) * 8 ≤ stackSize argv := le_up16 _

/-- `sp` is `d` bytes below `sz`; `n` more bytes stay above 0. -/
theorem below16_eq (hsz : sz % 16 = 0) (hmax : sz < 2 ^ 63) (hd : d % 16 = 0) (h : d + n ≤ sz) :
    below16 (sz - d) n = sz - up16 (d + n) := by
  unfold below16 up16
  have hsub : (sz - d + 2 ^ 64 - n) % 2 ^ 64 = sz - d - n := by omega
  rw [hsub]
  omega

/-- `n` more bytes do not: the pointer wraps, and is beyond every user address. -/
theorem below16_wrap (hmax : sz < 2 ^ 63) (hn : n ≤ 2 ^ 31) (h : sz < d + n) (hd : d ≤ sz) :
    2 ^ 62 ≤ below16 (sz - d) n := by
  unfold below16
  omega

/-! ## What the user finds -/

/-- The user finds these bytes there. -/
def Holds (m : Me) (k : Kmem) (a : Nat) (l : List UInt8) : Prop :=
  ∀ j < l.length, k.view m (a + j) = some (l.getD j 0)

theorem Holds.keep (h : Holds m k a l)
    (hk : ∀ b, a ≤ b → b < a + l.length → k'.view m b = k.view m b) :
    Holds m k' a l := fun j hj => (hk (a + j) (Nat.le_add_right a j) (by omega)).trans (h j hj)

theorem Written.holds (h : Written D held m a l k k') : Holds m k' a l := fun j hj => by
  rw [h.view, if_pos (by omega), Nat.add_sub_cancel_left]

/-- Between `lo` and `hi`, from the top down: each string below the one before. -/
inductive Laid (m : Me) (k : Kmem) (lo : Nat) : Nat → List (List UInt8) → List Nat → Prop
  | nil {hi : Nat} : lo ≤ hi → Laid m k lo hi [] []
  | cons {hi a : Nat} {s : List UInt8} {argv : List (List UInt8)} {us : List Nat} :
    a + (s.length + 1) ≤ hi → Holds m k a (s ++ [0]) → Laid m k lo a argv us →
      Laid m k lo hi (s :: argv) (a :: us)

namespace Laid

theorem le (h : Laid m k lo hi argv us) : lo ≤ hi := by
  induction h with
  | nil h => exact h
  | cons h _ _ ih => omega

theorem length (h : Laid m k lo hi argv us) : us.length = argv.length := by
  induction h with
  | nil => rfl
  | cons _ _ _ ih => rw [List.length_cons, List.length_cons, ih]

theorem keep (h : Laid m k lo hi argv us)
    (hk : ∀ b, lo ≤ b → b < hi → k'.view m b = k.view m b) : Laid m k' lo hi argv us := by
  induction h with
  | nil h => exact .nil h
  | @cons hi a s argv us hle hs hrest ih =>
    have hlo := hrest.le
    refine .cons hle (hs.keep fun b hb hb' => hk b (by omega) ?_)
      (ih fun b hb hb' => hk b hb (by omega))
    rw [List.length_append, List.length_singleton] at hb'
    omega

theorem strings (h : Laid m k lo hi argv us) :
    List.Forall₂ (fun a s => Holds m k a (s ++ [0])) us argv := by
  induction h with
  | nil => exact .nil
  | cons _ hs _ ih => exact .cons hs ih

/-- The bytes that each string takes. -/
theorem within (h : Laid m k lo hi argv us) :
    ∀ x ∈ us.zip (argv.map fun s => s.length + 1), lo ≤ x.1 ∧ x.1 + x.2 ≤ hi := by
  induction h with
  | nil => exact fun x hx => absurd hx List.not_mem_nil
  | @cons hi a s argv us hle _ hrest ih =>
    intro x hx
    have hlo := hrest.le
    rw [List.map_cons, List.zip_cons_cons] at hx
    rcases List.mem_cons.mp hx with rfl | hx
    · exact ⟨hlo, hle⟩
    · have hin := ih x hx
      omega

theorem apart (h : Laid m k lo hi argv us) :
    (us.zip (argv.map fun s => s.length + 1)).Pairwise fun x y => y.1 + y.2 ≤ x.1 := by
  induction h with
  | nil => exact List.Pairwise.nil
  | cons _ _ hrest ih => exact List.Pairwise.cons (fun y hy => (hrest.within y hy).2) ih

end Laid

/-! ## The pointers -/

theorem words_cons (v : Nat) (l : List Nat) :
    words (v :: l) = (List.range 8).map (Bytes.le v) ++ words l :=
  rfl

theorem words_length (l : List Nat) : (words l).length = 8 * l.length := by
  induction l with
  | nil => rfl
  | cons v l ih =>
    rw [words_cons, List.length_append, List.length_map, List.length_range, ih, List.length_cons]
    omega

theorem words_getD {j : Nat} (hj : j < 8) : ∀ (l : List Nat) {i : Nat}, i < l.length →
    (words l).getD (8 * i + j) 0 = Bytes.le (l.getD i 0) j := by
  intro l
  induction l with
  | nil => intro i hi; exact absurd hi (Nat.not_lt_zero i)
  | cons v l ih =>
    intro i hi
    have hlen : ((List.range 8).map (Bytes.le v)).length = 8 := by
      rw [List.length_map, List.length_range]
    rw [words_cons]
    cases i with
    | zero =>
      rw [Nat.mul_zero, Nat.zero_add, List.getD_append _ _ _ _ (by omega),
        List.getD_eq_getElem?_getD,
        List.getElem?_map, List.getElem?_range hj]
      rfl
    | succ i =>
      rw [List.getD_append_right _ _ _ _ (by omega), hlen, show 8 * (i + 1) + j - 8 =
        8 * i + j by omega,
        ih (Nat.lt_of_succ_lt_succ hi)]
      rfl

/-- The 64-bit value that the user reads at `a`. -/
def Kmem.fetch (k : Kmem) (m : Me) (a : Nat) : Nat :=
  Bytes.get (fun j => (k.view m (a + j)).getD 0) 0 8

theorem Holds.fetch {l : List Nat} (h : Holds m k a (words l)) (hl : ∀ v ∈ l, v < 2 ^ 64) {i : Nat}
    (hi : i < l.length) : k.fetch m (a + 8 * i) = l.getD i 0 := by
  have hv : l.getD i 0 < 256 ^ 8 := by
    refine Nat.lt_of_lt_of_eq (hl _ ?_) (by decide)
    rw [List.getD_eq_getElem _ _ hi]
    exact List.getElem_mem hi
  unfold Kmem.fetch
  refine (Bytes.get_of_le fun j hj => ?_).trans (Nat.mod_eq_of_lt hv)
  rw [Nat.zero_add, Nat.add_assoc, h (8 * i + j) (by rw [words_length]; omega), Option.getD_some]
  exact words_getD hj l hi

/-! ## The stack of a program -/

/-- The pieces of the stack: the strings, and the array of pointers below them. -/
def pieces (argv : List (List UInt8)) (us : List Nat) (sp : Nat) : List (Nat × Nat) :=
  us.zip (argv.map fun s => s.length + 1) ++ [(sp, (argv.length + 1) * 8)]

/-- `argv` is at `sp`, for a program of size `m.sz`. -/
structure Marshalled (m : Me) (argv : List (List UInt8)) (sp : Nat) (us : List Nat)
    (k : Kmem) : Prop where
  aligned : sp % 16 = 0
  strings : List.Forall₂ (fun a s => Holds m k a (s ++ [0])) us argv
  pointers : Holds m k sp (words (us ++ [0]))
  fetched : ∀ i ≤ argv.length, k.fetch m (sp + 8 * i) = (us ++ [0]).getD i 0
  apart : (pieces argv us sp).Pairwise fun x y => y.1 + y.2 ≤ x.1
  inside : ∀ x ∈ pieces argv us sp, m.sz - USERSTACK * PGSIZE ≤ x.1 ∧ x.1 + x.2 ≤ m.sz

theorem Laid.marshalled (h : Laid m k lo sz argv us) (hsz : m.sz = sz)
    (hp : Holds m k sp (words (us ++ [0])))
    (hsp : sp % 16 = 0) (hle : sp + (argv.length + 1) * 8 ≤ lo)
    (hbase : sz - USERSTACK * PGSIZE ≤ sp)
    (hmax : sz < 2 ^ 64) : Marshalled m argv sp us k := by
  subst hsz
  refine ⟨hsp, h.strings, hp, fun i hi => ?_, ?_, fun x hx => ?_⟩
  · refine hp.fetch (fun v hv => ?_)
      (by rw [List.length_append, h.length]; exact Nat.lt_succ_of_le hi)
    rcases List.mem_append.mp hv with hv | hv
    · obtain ⟨j, hj, rfl⟩ := List.getElem_of_mem hv
      have hz : j < (us.zip (argv.map fun s => s.length + 1)).length := by
        rw [List.length_zip, List.length_map, ← h.length, Nat.min_self]
        exact hj
      have hin := h.within _ (List.getElem_mem hz)
      rw [List.getElem_zip] at hin
      exact Nat.lt_of_le_of_lt (Nat.le_trans (Nat.le_add_right _ _) hin.2) hmax
    · rw [List.mem_singleton.mp hv]
      exact Nat.two_pow_pos 64
  · refine List.pairwise_append.mpr ⟨h.apart, List.pairwise_singleton _ _, fun x hx y hy => ?_⟩
    rw [List.mem_singleton.mp hy]
    exact Nat.le_trans hle (h.within x hx).1
  · rcases List.mem_append.mp hx with hx | hx
    · have hin := h.within x hx
      omega
    · rw [List.mem_singleton.mp hx]
      exact ⟨hbase, Nat.le_trans hle h.le⟩

/-! ## Pushing -/

/-- A pointer that is beyond every user address. -/
theorem copyout_beyond {src : List UInt8} (hsrc : src ≠ []) (hva : MAXVA ≤ a) :
    wp (copyout p root a src) (fun ok k' => ok = false ∧ k' = k) NoPanic k := by
  unfold copyout
  rw [dif_neg hsrc, wp_ite]
  refine ⟨fun _ => ⟨rfl, rfl⟩, fun hc => absurd ?_ hc⟩
  exact Nat.le_of_not_lt fun hlt => Nat.not_lt_of_le hva ((PGROUNDDOWN_lt_iff a).mp hlt)

/-- A piece that fits is copied to its place. -/
theorem push_fits (h : Ready D held root sz k) (hbase : base = sz - USERSTACK * PGSIZE)
    (hd : d % 16 = 0) (hfit : up16 (d + src.length) ≤ USERSTACK * PGSIZE) :
    below16 (sz - d) src.length = sz - up16 (d + src.length) ∧
    ¬below16 (sz - d) src.length < base ∧
    wp (copyout p root (sz - up16 (d + src.length)) src) (fun ok k' => ok = true ∧
      Written D held ⟨sz, root⟩ (sz - up16 (d + src.length)) src k k') NoPanic k := by
  have h2 := stack_size.1
  have h1 := stack_size.2
  have hroom := h.room
  have hmod := h.mod
  have hsz := h.sized.max
  have hup := le_up16 (d + src.length)
  rw [h2] at hroom
  rw [h1] at hfit hbase
  rw [PGSIZE_eq] at hmod
  rw [TRAPFRAME_eq] at hsz
  have hb := @below16_eq sz d src.length (by omega) (by omega) hd (by omega)
  refine ⟨hb, ?_, ?_⟩
  · rw [hb]
    omega
  · refine copyout_mapped _ (Nat.le_refl _) h.space h.sized fun j hj => h.stack _ ?_ ?_
    · rw [h1]
      omega
    · omega

/-- A piece that does not fit: its place is below the stack, or not a user address. -/
theorem push_over (h : Ready D held root sz k) (hd : d % 16 = 0) (hle : d ≤ USERSTACK * PGSIZE)
    (hbase : base = sz - USERSTACK * PGSIZE) (hpos : src ≠ []) (hmax : src.length ≤ 2 ^ 31)
    (hbig : USERSTACK * PGSIZE < up16 (d + src.length))
    (hge : ¬below16 (sz - d) src.length < base) :
    wp (copyout p root (below16 (sz - d) src.length) src) (fun ok k' => ok = false ∧ k' = k)
      NoPanic k := by
  have h2 := stack_size.1
  have h1 := stack_size.2
  have hroom := h.room
  have hmod := h.mod
  have hsz := h.sized.max
  rw [h2] at hroom
  rw [h1] at hle hbig hbase
  rw [PGSIZE_eq] at hmod
  rw [TRAPFRAME_eq] at hsz
  by_cases hwrap : d + src.length ≤ sz
  · have hb := @below16_eq sz d src.length (by omega) (by omega) hd hwrap
    rw [hb] at hge
    omega
  · have hb := @below16_wrap sz d src.length (by omega) hmax (by omega) (by omega)
    exact copyout_beyond hpos (Nat.le_trans (by decide) hb)

/-- **The strings.** -/
theorem pushStrings_spec (hbase : base = sz - USERSTACK * PGSIZE) :
    ∀ (argv : List (List UInt8)) {ustack : List Nat} {d : Nat} {k : Kmem},
    (∀ s ∈ argv, s.length + 1 < 2 ^ 31) → ustack.length + argv.length < MAXARG → d % 16 = 0 →
    d ≤ USERSTACK * PGSIZE → Ready D held root sz k →
    wp (pushStrings p root base argv (sz - d) ustack) (fun r k' =>
      Ready D held root sz k' ∧ Framed D k k' ∧ match r with
      | none => USERSTACK * PGSIZE < depth argv d
      | some (sp, ustack') => depth argv d ≤ USERSTACK * PGSIZE ∧ sp = sz - depth argv d ∧
        (∀ b, sz - d ≤ b → k'.view ⟨sz, root⟩ b = k.view ⟨sz, root⟩ b) ∧
        ∃ us, ustack' = ustack ++ us ∧ Laid ⟨sz, root⟩ k' (sz - depth argv d) (sz - d) argv us)
      NoPanic k := by
  intro argv
  induction argv with
  | nil =>
    intro ustack d k _ _ _ hle h
    exact ⟨h, Framed.refl D k, hle, rfl, fun _ _ => rfl, [], (List.append_nil ustack).symm,
      .nil (Nat.le_refl _)⟩
  | cons s argv ih =>
    intro ustack d k hlen hargc hd hle h
    rw [List.length_cons] at hargc
    have hs := hlen s List.mem_cons_self
    have hsrc : (s ++ [0]).length = s.length + 1 := List.length_append
    have hup := le_up16 (d + (s.length + 1))
    have hdeep : up16 (d + (s.length + 1)) ≤ depth (s :: argv) d := le_depth argv
    unfold pushStrings
    rw [if_neg (by omega)]
    dsimp only
    rw [wp_ite]
    by_cases hfit : up16 (d + (s.length + 1)) ≤ USERSTACK * PGSIZE
    swap
    · -- too deep already
      have hbig := Nat.lt_of_not_le hfit
      have hstop : Ready D held root sz k ∧ Framed D k k ∧
        USERSTACK * PGSIZE < depth (s :: argv) d :=
        ⟨h, Framed.refl D k, Nat.lt_of_lt_of_le hbig hdeep⟩
      rw [← hsrc] at hbig ⊢
      refine ⟨fun _ => hstop, fun hge => ?_⟩
      refine (push_over h hd hle hbase
        (List.append_ne_nil_of_right_ne_nil s (List.cons_ne_nil 0 []))
        (by omega) hbig hge).andThen fun ok k₁ h₁ => ?_
      obtain ⟨rfl, rfl⟩ := h₁
      rw [if_pos rfl]
      exact hstop
    rw [← hsrc] at hfit
    obtain ⟨hsp, hge, hcopy⟩ := @push_fits D held root k sz base d p (s ++ [0]) h hbase hd hfit
    rw [hsrc] at hfit hsp hge hcopy
    refine ⟨fun hc => absurd hc hge, fun _ => ?_⟩
    rw [hsp]
    refine hcopy.andThen fun ok k₁ h₁ => ?_
    obtain ⟨rfl, hw⟩ := h₁
    rw [if_neg (Ne.symm Bool.false_ne_true)]
    refine (@ih (ustack ++ [sz - up16 (d + (s.length + 1))]) (up16 (d + (s.length + 1))) k₁
      (fun t ht => hlen t (List.mem_cons_of_mem s ht)) ?_ (up16_mod _) hfit (hw.ready h)).mono
      fun r k₂ h₂ => ?_
    · rw [List.length_append, List.length_singleton]
      omega
    obtain ⟨hr₂, hf₂, h₂⟩ := h₂
    refine ⟨hr₂, hw.kept.framed.trans hf₂, ?_⟩
    cases r with
    | none => exact h₂
    | some r =>
      obtain ⟨hfit₂, hsp₂, hview, us, hus, hlaid⟩ := h₂
      have hroom := h.room
      rw [stack_size.1] at hroom
      rw [stack_size.2] at hfit
      refine ⟨hfit₂, hsp₂, fun b hb => ?_, _, hus.trans (List.append_assoc _ _ _), ?_⟩
      · rw [hview b (by omega), hw.view b, hsrc, if_neg (by omega)]
      · refine .cons (by omega) (hw.holds.keep fun b hb _ => hview b hb) hlaid

theorem pushArgs_spec (hlen : ∀ s ∈ argv, s.length + 1 < 2 ^ 31) (hargc : argv.length < MAXARG)
    (h : Ready D held root sz k) (hbase : base = sz - USERSTACK * PGSIZE) :
    wp (pushArgs p root base sz argv) (fun r k' =>
      Ready D held root sz k' ∧ Framed D k k' ∧ match r with
      | none => USERSTACK * PGSIZE < stackSize argv
      | some sp => stackSize argv ≤ USERSTACK * PGSIZE ∧ ∃ us, Marshalled ⟨sz, root⟩ argv sp us k')
      NoPanic k := by
  have hbig := depth_le_stackSize argv
  have hstart := @pushStrings_spec D held root sz base p hbase argv [] 0 k hlen
    (by rwa [List.length_nil, Nat.zero_add]) rfl (Nat.zero_le _) h
  rw [Nat.sub_zero] at hstart
  unfold pushArgs
  refine hstart.andThen fun r k₁ hr => ?_
  obtain ⟨hr₁, hf₁, hr⟩ := hr
  cases r with
  | none => exact ⟨hr₁, hf₁, Nat.lt_of_lt_of_le hr (by omega)⟩
  | some r =>
    obtain ⟨sp, ustack⟩ := r
    obtain ⟨hfit, hsp₁, _, us, hus, hlaid⟩ := hr
    rw [List.nil_append] at hus
    rw [hsp₁, hus]
    have hsrc : (words (us ++ [0])).length = (argv.length + 1) * 8 := by
      rw [words_length, List.length_append, hlaid.length]
      exact Nat.mul_comm _ _
    have hpos : words (us ++ [0]) ≠ [] := List.length_pos_iff.mp (by omega)
    have hsmall : (words (us ++ [0])).length ≤ 2 ^ 31 := by
      have hm : MAXARG = 32 := rfl
      omega
    have hmod := @depth_mod argv 0 rfl
    dsimp only
    rw [wp_ite]
    by_cases hall : stackSize argv ≤ USERSTACK * PGSIZE
    -- the strings fit, the pointers do not
    swap
    · have hover := Nat.lt_of_not_le hall
      have hstop : Ready D held root sz k₁ ∧ Framed D k k₁ ∧ USERSTACK * PGSIZE < stackSize argv :=
        ⟨hr₁, hf₁, hover⟩
      unfold stackSize at hover
      rw [← hsrc] at hover ⊢
      refine ⟨fun _ => hstop, fun hge => ?_⟩
      refine (push_over hr₁ hmod hfit hbase hpos hsmall hover hge).andThen fun ok k₂ h₂ => ?_
      obtain ⟨rfl, rfl⟩ := h₂
      rw [if_pos rfl]
      exact hstop
    have hall' := hall
    unfold stackSize at hall'
    rw [← hsrc] at hall'
    obtain ⟨hsp, hge, hcopy⟩ := @push_fits D held root k₁ sz base (depth argv 0) p
      (words (us ++ [0])) hr₁
      hbase hmod hall'
    have hstack : up16 (depth argv 0 + (argv.length + 1) * 8) = stackSize argv := rfl
    rw [hsrc, hstack] at hsp hcopy
    rw [hsrc] at hge
    refine ⟨fun hc => absurd hc hge, fun _ => ?_⟩
    rw [hsp]
    refine hcopy.andThen fun ok k₂ h₂ => ?_
    obtain ⟨rfl, hw⟩ := h₂
    rw [if_neg (Ne.symm Bool.false_ne_true)]
    refine ⟨hw.ready hr₁, hf₁.trans hw.kept.framed, hall, us, ?_⟩
    have hm := stackSize_mod argv
    have hroom := hr₁.room
    have hpage := hr₁.mod
    have hmax := hr₁.sized.max
    rw [stack_size.1] at hroom
    rw [stack_size.2] at hall
    rw [PGSIZE_eq] at hpage
    rw [TRAPFRAME_eq] at hmax
    -- the pointers are below the strings, which are as they were
    have hkeep : Laid ⟨sz, root⟩ k₂ (sz - depth argv 0) sz argv us := hlaid.keep fun b hb _ => by
      rw [hw.view b, hsrc, if_neg (by omega)]
    exact hkeep.marshalled rfl hw.holds (by omega) (by omega)
      (by rw [stack_size.2]; omega) (by omega)

end Xv6.Vm
