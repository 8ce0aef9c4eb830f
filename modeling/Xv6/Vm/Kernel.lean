import Xv6.Proc.Basic
import Xv6.Vm.CopyInStr
import Xv6.Vm.Lookup

/-!
# The kernel's own page table

`kvmmake` draws one range of pages after the other into an empty table, and then a page
for every kernel stack. Its panics mean that `kalloc` had no page left: `mappages` never
finds a page mapped already.

> When `kvmmake` returns, every device and all of memory lie at their own addresses, every
> process has a stack between two pages that are not mapped, and no page is for the user, or
> for writing and executing both. With 400 free pages it returns (`kernel_table`).

The tables are in memory, and so are mapped as data: the tree is no `Proper` one.
`kalloc` is not checked for the root, and `memset` writes through a null pointer then
(`BootPanic.null`).
-/

namespace Xv6.Vm

open Lib

def UART0 : Nat := 0x10000000
def VIRTIO0 : Nat := 0x10001000
def PLIC : Nat := 0x0c000000

/-- The stack of the process in slot `p`. -/
def KSTACK (p : Nat) : Nat := TRAMPOLINE - (p + 1) * 2 * PGSIZE

inductive BootPanic
  | vm (e : Panic)
  | kvmmap
  | kalloc
  | null
  deriving DecidableEq, Repr

abbrev Boot := Prog Kmem BootPanic

@[irreducible] def kvmmap (kpgtbl : Frame) (va : Nat) (pa : Frame) (sz perm : Nat) :
    Boot PUnit := do
  let ok ← among BootPanic.vm (mappages kpgtbl va sz pa perm)
  if ok = false then stop .kvmmap else pure ⟨⟩

/-- The loop of `proc_mapstacks`. -/
def mapstacksFrom (kpgtbl : Frame) : List Slot → Boot PUnit
  | [] => pure ⟨⟩
  | p :: ps => do
    match ← among BootPanic.vm Vm.kalloc with
    | none => stop .kalloc
    | some pa => do
      kvmmap kpgtbl (KSTACK p) pa PGSIZE (PTE_R ||| PTE_W)
      mapstacksFrom kpgtbl ps

def proc_mapstacks (kpgtbl : Frame) : Boot PUnit := mapstacksFrom kpgtbl (List.finRange NPROC)

/-- `etext` is the page where the kernel's data begins. -/
def kvmmake (etext : Nat) : Boot Frame := do
  let k ← get
  match ← among BootPanic.vm Vm.kalloc with
  | none => stop .null
  | some kpgtbl => do
    among BootPanic.vm (memset kpgtbl 0)
    kvmmap kpgtbl UART0 (UART0 / PGSIZE) PGSIZE (PTE_R ||| PTE_W)
    kvmmap kpgtbl VIRTIO0 (VIRTIO0 / PGSIZE) PGSIZE (PTE_R ||| PTE_W)
    kvmmap kpgtbl PLIC (PLIC / PGSIZE) 0x4000000 (PTE_R ||| PTE_W)
    kvmmap kpgtbl KERNBASE (KERNBASE / PGSIZE) (etext * PGSIZE - KERNBASE) (PTE_R ||| PTE_X)
    kvmmap kpgtbl (etext * PGSIZE) etext (PHYSTOP - etext * PGSIZE) (PTE_R ||| PTE_W)
    kvmmap kpgtbl TRAMPOLINE k.trampoline PGSIZE (PTE_R ||| PTE_X)
    proc_mapstacks kpgtbl
    pure kpgtbl

/-! ## What a table shows -/

/-- The table shows `m` for every page. -/
def Shows (root : Frame) (m : Nat → Option Pte) (k : Kmem) : Prop :=
  ∀ q : List (Fin 512), q.length = 3 → k.leaf root q = m (pageOf q)

/-- `m`, and `n` pages from the page `v` on that lead to `pa` and what follows. -/
def drawn (v n : Nat) (pa : Frame) (perm : Nat) (m : Nat → Option Pte) (i : Nat) : Option Pte :=
  if v ≤ i ∧ i < v + n then some (entryOf (pa + (i - v)) perm) else m i

/-- Memory ran out, which it cannot do if `rich`. -/
def OutOfMemory (rich : Prop) : BootPanic → Kmem → Prop := fun e _ =>
  (e = .kvmmap ∨ e = .kalloc ∨ e = .null) ∧ ¬rich

variable {root t f pa : Frame} {k₀ k k' k'' : Kmem} {m m' : Nat → Option Pte}
  {etext v n c perm va : Nat} {rich : Prop}

/-! ## The pages that tables take -/

/-- Where the tables exist, `walk` takes no page. -/
theorem walkFrom_present : ∀ (level : Nat) {p : List (Fin 512)} {t : Frame},
    k.node root p = some t → k.node root (below va level p) ≠ none →
    wp (walkFrom va true level t) (fun r k' => r ≠ none ∧ k' = k) NoPanic k := by
  intro level
  induction level with
  | zero =>
    intro p t _ _
    exact ⟨Option.some_ne_none _, rfl⟩
  | succ level ih =>
    intro p t h hb
    have hn := node_next h (PX (level + 1) va)
    unfold walkFrom
    rw [wp_bind, wp_get, wp_ite]
    refine ⟨fun hv => ih (hn.trans (next_of_valid hv)) hb, fun hv => ?_⟩
    exact absurd (node_below_none level (hn.trans (next_of_invalid (not_not.mp hv)))) hb

/-- The table of leaves for the page `v` is there. -/
def Present (root : Frame) (v : Nat) (k : Kmem) : Prop :=
  k.node root [PX 1 (v * PGSIZE), PX 2 (v * PGSIZE)] ≠ none

/-- 512 pages share a table. -/
theorem Present.next {v' : Nat} (h : Present root v k) (hv : v / 512 = v' / 512) :
    Present root v' k := by
  have hpx : ∀ v, PX 1 (v * PGSIZE) = ⟨v / 512 % 512, Nat.mod_lt _ (by decide)⟩ ∧
      PX 2 (v * PGSIZE) = ⟨v / 512 / 512 % 512, Nat.mod_lt _ (by decide)⟩ := by
    intro v
    unfold PX
    rw [PGSIZE_eq]
    constructor
    · rw [Fin.mk.injEq]
      omega
    · rw [Fin.mk.injEq]
      omega
  unfold Present at h ⊢
  rw [(hpx v').1, (hpx v').2, ← hv, ← (hpx v).1, ← (hpx v).2]
  exact h

open Classical in
/-- The pages that `walk` may take for the page `v`. -/
noncomputable def fee (root : Frame) (v : Nat) (k : Kmem) : Nat := if Present root v k then 0 else 2

/-- The pages that the tables of `n + 1` pages may take. -/
@[irreducible] def toll (v n : Nat) : Nat := 2 * ((v + n) / 512 - v / 512)

theorem Plenty.fewer (h : Plenty n k) (hle : c ≤ n) : Plenty c k := ⟨h.1, Nat.le_trans hle h.2⟩

theorem walk_plenty (h : TableTree root k) (hv : v * PGSIZE < MAXVA)
    (hk : Plenty (fee root v k + c) k) :
    wp (walk root (v * PGSIZE) true) (fun r k' => r ≠ none ∧ Present root v k' ∧ Plenty c k')
      Whatever k := by
  have hcount : wp (walk root (v * PGSIZE) true) (fun r k' => r ≠ none ∧ Plenty c k')
      Whatever k := by
    unfold walk
    rw [if_neg (Nat.not_le_of_lt hv)]
    unfold fee at hk
    split at hk
    next hp =>
      refine ((walkFrom_present 2 (p := []) rfl hp).monoStop fun _ _ he => he.elim).mono
        fun r k' hr => ?_
      rw [Nat.zero_add] at hk
      exact ⟨hr.1, hr.2 ▸ hk⟩
    next => exact walkFrom_plenty 2 hk
  refine ((hcount.and (walk_tables h hv)).monoStop fun _ _ _ => trivial).mono fun r k' hr => ?_
  obtain ⟨⟨hne, hk'⟩, -, -, -, hfound⟩ := hr
  refine ⟨hne, ?_, hk'⟩
  cases r with
  | none => exact absurd rfl hne
  | some ti =>
    have hnode := (hfound ti.1 ti.2 rfl).2
    unfold Present
    rw [hnode]
    exact Option.some_ne_none _

/-- **The loop of `mappages`** takes no more pages than its tables need. -/
theorem mappagesFrom_plenty : ∀ (n : Nat) {v : Nat} {pa : Frame} {k : Kmem}, TableTree root k →
    (v + n) * PGSIZE < MAXVA → pa + n < 2 ^ 44 → perm < 1024 →
    Plenty (fee root v k + (toll v n + c)) k →
    wp (mappagesFrom root perm n (v * PGSIZE) pa) (fun ok k' => ok = true ∧ Plenty c k')
      Whatever k := by
  intro n
  induction n with
  | zero =>
    intro v pa k h hv _ _ hk
    unfold mappagesFrom
    refine (walk_plenty h hv hk).andThen fun r k₁ hr => ?_
    obtain ⟨hne, -, hk₁⟩ := hr
    cases r with
    | none => exact absurd rfl hne
    | some ti =>
      obtain ⟨t, i⟩ := ti
      show wp (get >>= fun k => _) _ _ _
      rw [wp_bind, wp_get, wp_ite]
      exact ⟨fun _ => trivial, fun _ => ⟨rfl, hk₁.1, Nat.le_trans (Nat.le_add_left _ _) hk₁.2⟩⟩
  | succ n ih =>
    intro v pa k h hv hpa hperm hk
    have hlt : v * PGSIZE < MAXVA :=
      Nat.lt_of_le_of_lt (Nat.mul_le_mul_right PGSIZE (Nat.le_add_right v (n + 1))) hv
    have hnext : (v + 1) * PGSIZE = v * PGSIZE + PGSIZE := Nat.succ_mul v PGSIZE
    unfold mappagesFrom
    refine (((walk_plenty h hlt hk).and (walk_tables h hlt)).monoStop fun _ _ _ =>
      trivial).andThen fun r k₁ hr => ?_
    obtain ⟨⟨hne, hpresent, hk₁⟩, hs₁, -, -, hfound⟩ := hr
    cases r with
    | none => exact absurd rfl hne
    | some ti =>
      obtain ⟨t, i⟩ := ti
      obtain ⟨rfl, ht⟩ := hfound t i rfl
      show wp (get >>= fun k => _) _ _ _
      rw [wp_bind, wp_get, wp_ite]
      refine ⟨fun _ => trivial, fun _ => ?_⟩
      rw [wp_bind, wp_modify]
      have hlt' : pa < 2 ^ 44 := Nat.lt_of_le_of_lt (Nat.le_add_right pa (n + 1)) hpa
      obtain ⟨-, hn₂⟩ := setLeaf hs₁.apart ht (entryOf_lt hlt' hperm)
      have hs₂ : TableTree root (k₁.setPte t (PX 0 (v * PGSIZE)) (entryOf pa perm)) :=
        ⟨hs₁.nodup, hs₁.ram, apart_congr hs₁.apart hn₂, fun {p u} hp hu =>
          hs₁.live hp ((hn₂ p hp).symm.trans hu)⟩
      have hpresent₂ : Present root v (k₁.setPte t (PX 0 (v * PGSIZE)) (entryOf pa perm)) := by
        unfold Present
        rw [hn₂ [_, _] (Nat.le_refl 2)]
        exact hpresent
      -- a new table for the next page is in the toll already
      have hfee : fee root (v + 1) (k₁.setPte t (PX 0 (v * PGSIZE)) (entryOf pa perm)) +
          toll (v + 1) n ≤ toll v (n + 1) := by
        unfold fee toll
        split
        next => omega
        next hno =>
          have hcross : v / 512 ≠ (v + 1) / 512 := fun hc => hno (hpresent₂.next hc)
          omega
      rw [← hnext]
      have hend : v + 1 + n = v + (n + 1) := by omega
      have hpa' : pa + 1 + n < 2 ^ 44 := by
        rw [Nat.add_assoc, Nat.add_comm 1 n]
        exact hpa
      refine ih hs₂ (hend.symm ▸ hv) hpa' hperm ⟨hk₁.1, Nat.le_trans ?_ hk₁.2⟩
      rw [← Nat.add_assoc]
      exact Nat.add_le_add_right hfee c

theorem Mapped.shows (h : Mapped root (v * PGSIZE) n pa perm k k') (hm : Shows root m k) :
    Shows root (drawn v n pa perm m) k' := by
  intro q hq
  have hv : v * PGSIZE / PGSIZE = v := Nat.mul_div_cancel v (by decide)
  have hw : Within (v * PGSIZE) n q ↔ v ≤ pageOf q ∧ pageOf q < v + n := by
    unfold Within
    rw [hv]
  rw [h q hq, hm q hq]
  unfold drawn
  simp only [hw, hv]

/-- What happens to a table that is being drawn. -/
structure Draws (root : Frame) (m : Nat → Option Pte) (k k' : Kmem) : Prop where
  tree : TableTree root k'
  shows : Shows root m k'
  grown : TablesGrown root k k'

theorem Draws.refl (ht : TableTree root k) (hm : Shows root m k) : Draws root m k k :=
  ⟨ht, hm, TablesGrown.refl root k⟩

/-- **One range is drawn**, where nothing was. -/
theorem kvmmap_draws {va sz : Nat} (v n pa perm c : Nat) (h : Draws root m k₀ k)
    (hk : rich → Plenty (2 + (toll v (n - 1) + c)) k) (hat : va = v * PGSIZE)
    (hsz : sz = n * PGSIZE) (hpos : 0 < n) (hva : v + n ≤ MAXVA / PGSIZE) (hpa : pa + n < 2 ^ 44)
    (hperm : perm < 1024) (hnew : ∀ i, v ≤ i → i < v + n → m i = none) :
    wp (kvmmap root va pa sz perm) (fun _ k' => Draws root (drawn v n pa perm m) k₀ k' ∧
      (rich → Plenty c k')) (OutOfMemory rich) k := by
  obtain ⟨n, rfl⟩ : ∃ n', n = n' + 1 := ⟨n - 1, (Nat.sub_add_cancel hpos).symm⟩
  rw [Nat.add_sub_cancel] at hk
  have hv : v * PGSIZE / PGSIZE = v := Nat.mul_div_cancel v (by decide)
  have hn : sz / PGSIZE - 1 = n := by
    rw [hsz, Nat.mul_div_cancel _ (by decide), Nat.add_sub_cancel]
  have hmod : sz % PGSIZE = 0 := by
    rw [hsz]
    exact Nat.mul_mod_left _ _
  have hne : sz ≠ 0 := by
    rw [hsz]
    exact Nat.ne_of_gt (Nat.mul_pos (Nat.succ_pos n) (by decide))
  have hle : (v + (n + 1)) * PGSIZE ≤ MAXVA :=
    Nat.le_trans (Nat.mul_le_mul_right PGSIZE hva) (by decide)
  have hcount : wp (mappagesFrom root perm n (v * PGSIZE) pa)
      (fun ok k' => rich → ok = true ∧ Plenty c k') Whatever k := by
    by_cases hr : rich
    · have hfee : fee root v k ≤ 2 := by
        unfold fee
        split
        next => exact Nat.zero_le 2
        next => exact Nat.le_refl 2
      have hlt : (v + n) * PGSIZE < MAXVA :=
        Nat.lt_of_lt_of_le (Nat.mul_lt_mul_of_pos_right (Nat.lt_succ_self _) (by decide)) hle
      refine (mappagesFrom_plenty n h.tree hlt (Nat.lt_of_succ_lt hpa) hperm
        ⟨(hk hr).1, Nat.le_trans (Nat.add_le_add_right hfee _) (hk hr).2⟩).mono
        fun _ _ hok _ => hok
    · exact (wp_true _).mono fun _ _ _ hc => absurd hc hr
  unfold kvmmap
  rw [hat, wp_bind, wp_among]
  unfold mappages
  rw [if_neg (not_not.mpr (Nat.mul_mod_left v PGSIZE)), if_neg (not_not.mpr hmod), if_neg hne, hn]
  refine (((mappagesFrom_tables n h.tree ?_ (Nat.le_of_lt hpa) hperm fun q hq hw => ?_).and
    hcount).monoStop fun _ _ he => he.1.elim).mono fun ok k' hk => ?_
  · rw [← Nat.add_mul]
    exact hle
  · unfold Within at hw
    rw [hv] at hw
    exact (h.shows q hq).trans (hnew _ hw.1 hw.2)
  · obtain ⟨⟨hs, hg, hm⟩, hr⟩ := hk
    rw [wp_ite]
    refine ⟨fun hok => ⟨Or.inl rfl, fun hc => ?_⟩, fun hok => ⟨?_, fun hc => (hr hc).2⟩⟩
    · exact absurd (hok.symm.trans (hr hc).1) Bool.false_ne_true
    · exact ⟨hs, (hm (Bool.eq_true_of_not_eq_false hok)).shows h.shows, h.grown.trans hg⟩

/-- One page is drawn. -/
theorem kvmmap_page {va : Nat} (v pa perm c : Nat) (h : Draws root m k₀ k)
    (hk : rich → Plenty (2 + c) k) (hat : va = v * PGSIZE) (hva : v < MAXVA / PGSIZE)
    (hpa : pa + 1 < 2 ^ 44) (hperm : perm < 1024) (hnew : m v = none) :
    wp (kvmmap root va pa PGSIZE perm) (fun _ k' => Draws root (drawn v 1 pa perm m) k₀ k' ∧
      (rich → Plenty c k')) (OutOfMemory rich) k := by
  have htoll : toll v 0 = 0 := by
    unfold toll
    rw [Nat.add_zero, Nat.sub_self]
  have hk' : rich → Plenty (2 + (toll v (1 - 1) + c)) k := by
    rw [Nat.sub_self, htoll, Nat.zero_add]
    exact hk
  refine kvmmap_draws v 1 pa perm c h hk' hat (by decide) (by decide) hva hpa hperm
    fun i hlo hhi => ?_
  obtain rfl : i = v := by omega
  exact hnew

/-! ## The stacks -/

/-- The page of the stack of `p`, by its number. -/
def stackPage (p : Nat) : Nat := MAXVA / PGSIZE - 1 - 2 * (p + 1)

theorem KSTACK_eq {p : Nat} (hp : p < NPROC) : KSTACK p = stackPage p * PGSIZE := by
  have hp : p < 64 := hp
  show 274877906944 - 4096 - (p + 1) * 2 * 4096 = (67108864 - 1 - 2 * (p + 1)) * 4096
  omega

theorem stackPage_inj {p p' : Nat} (hp : p < NPROC) (hp' : p' < NPROC)
    (h : stackPage p = stackPage p') : p = p' := by
  have hp : p < 64 := hp
  have hp' : p' < 64 := hp'
  have h : 67108864 - 1 - 2 * (p + 1) = 67108864 - 1 - 2 * (p' + 1) := h
  omega

/-- `m`, and the stacks of `ps`. -/
def withStacks (ps : List Slot) (stack : Slot → Frame) (m : Nat → Option Pte) (i : Nat) :
    Option Pte :=
  match ps.find? fun p : Slot => stackPage p = i with
  | some p => some (entryOf (stack p) (PTE_R ||| PTE_W))
  | none => m i

theorem withStacks_some {ps : List Slot} {stack : Slot → Frame} {p : Slot} (hp : p ∈ ps) :
    withStacks ps stack m (stackPage p) = some (entryOf (stack p) (PTE_R ||| PTE_W)) := by
  unfold withStacks
  cases hf : ps.find? fun p' : Slot => stackPage p' = stackPage p with
  | none =>
    have hno := List.find?_eq_none.mp hf p hp
    exact absurd (decide_eq_true rfl) hno
  | some p' =>
    have heq := List.find?_some hf
    simp only [decide_eq_true_eq] at heq
    rw [Fin.ext (stackPage_inj p'.isLt p.isLt heq)]

theorem withStacks_none {ps : List Slot} {stack : Slot → Frame} {i : Nat}
    (hi : ∀ p ∈ ps, stackPage p ≠ i) : withStacks ps stack m i = m i := by
  unfold withStacks
  have hno : ps.find? (fun p : Slot => stackPage p = i) = none :=
    List.find?_eq_none.mpr fun p hp hc => hi p hp (of_decide_eq_true hc)
  rw [hno]

/-- The first stack, and the others. -/
theorem withStacks_cons {ps : List Slot} {p : Slot} (hp : p ∉ ps) (stack : Slot → Frame) :
    withStacks (p :: ps) (Function.update stack p f) m =
      withStacks ps stack (drawn (stackPage p) 1 f (PTE_R ||| PTE_W) m) := by
  funext i
  by_cases hi : stackPage p = i
  · have hout : ∀ p' ∈ ps, stackPage p' ≠ i := fun p' hp' hc =>
      hp (Fin.ext (stackPage_inj p'.isLt p.isLt (hc.trans hi.symm)) ▸ hp')
    rw [withStacks_none hout, ← hi, withStacks_some List.mem_cons_self, Function.update_self]
    unfold drawn
    rw [if_pos ⟨Nat.le_refl _, Nat.lt_succ_self _⟩, Nat.sub_self, Nat.add_zero]
  · by_cases hin : ∃ p' ∈ ps, stackPage p' = i
    · obtain ⟨p', hp', rfl⟩ := hin
      have hne : p' ≠ p := fun he => hp (he ▸ hp')
      rw [withStacks_some (List.mem_cons_of_mem p hp'), withStacks_some hp',
        Function.update_of_ne hne]
    · have hout : ∀ p' ∈ ps, stackPage p' ≠ i := fun p' hp' hc => hin ⟨p', hp', hc⟩
      have hall : ∀ p' ∈ p :: ps, stackPage p' ≠ i := by
        intro p' hp'
        rcases List.mem_cons.mp hp' with rfl | hp'
        · exact hi
        · exact hout p' hp'
      rw [withStacks_none hall, withStacks_none hout]
      unfold drawn
      rw [if_neg (by omega)]

/-- Every stack has a page of its own, which is not free any more and not a table. -/
structure Stacks (root : Frame) (ps : List Slot) (stack : Slot → Frame) (k k' : Kmem) : Prop where
  inj : ∀ p ∈ ps, ∀ p' ∈ ps, stack p = stack p' → p = p'
  free : ∀ p ∈ ps, stack p ∈ k.freelist
  busy : ∀ p ∈ ps, Busy root k' (stack p)

/-- A page that is taken stays out of the tables. -/
theorem TablesGrown.busy (h : TablesGrown root k k') (hf : Busy root k f) : Busy root k' f := by
  refine ⟨fun hc => hf.1 (h.fewer hc), fun p hp hc => ?_⟩
  rcases h.new p f hp hc with hc | hc
  · exact hf.2 p hp hc
  · exact hf.1 hc

theorem Taken.grown (htk : Taken f k k') (hkept : TablesKept root k k') :
    TablesGrown root k k' where
  tables p t hp ht := (hkept.node (Nat.le_succ_of_le hp)).trans ht
  new p t hp ht := Or.inl ((hkept.node (Nat.le_succ_of_le hp)).symm.trans ht)
  fewer g hg := by
    rw [htk.free]
    exact List.mem_cons_of_mem f hg
  low := htk.low

theorem kalloc_rich (hk : rich → Plenty (c + 1) k) : wp kalloc (fun r k' =>
    (r = none ∧ ¬rich ∨ ∃ f, r = some f ∧ Taken f k k') ∧ (rich → Plenty c k')) NoPanic k := by
  have hcount : wp kalloc (fun r k' => rich → r ≠ none ∧ Plenty c k') Whatever k := by
    by_cases hr : rich
    · refine (kalloc_plenty (hk hr)).mono fun r k' h _ => ?_
      obtain ⟨f, rfl, -, hk'⟩ := h
      exact ⟨Option.some_ne_none f, hk'⟩
    · exact (wp_true _).mono fun _ _ _ hc => absurd hc hr
  refine ((kalloc_wp.and hcount).monoStop fun _ _ he => he.1).mono fun r k' h => ?_
  obtain ⟨htake, hrich⟩ := h
  refine ⟨?_, fun hr => (hrich hr).2⟩
  rcases htake with ⟨hnone, -⟩ | htake
  · exact Or.inl ⟨hnone, fun hr => (hrich hr).1 hnone⟩
  · exact Or.inr htake

/-- **The loop over the stacks.** -/
theorem mapstacksFrom_spec : ∀ (ps : List Slot) {m : Nat → Option Pte} {k : Kmem}, ps.Nodup →
    Draws root m k₀ k → (rich → Plenty (3 * ps.length) k) → (∀ p ∈ ps, m (stackPage p) = none) →
    wp (mapstacksFrom root ps) (fun _ k' => ∃ stack, Draws root (withStacks ps stack m) k₀ k' ∧
      Stacks root ps stack k k' ∧ TablesGrown root k k') (OutOfMemory rich) k := by
  intro ps
  induction ps with
  | nil =>
    intro m k _ h _ _
    refine ⟨fun _ => 0, h, ⟨?_, ?_, ?_⟩, TablesGrown.refl root k⟩
    · exact fun p hp => absurd hp List.not_mem_nil
    · exact fun p hp => absurd hp List.not_mem_nil
    · exact fun p hp => absurd hp List.not_mem_nil
  | cons p ps ih =>
    intro m k hnd h hk hnew
    obtain ⟨hp, hnd⟩ := List.nodup_cons.mp hnd
    rw [List.length_cons] at hk
    unfold mapstacksFrom
    rw [wp_bind, wp_among]
    have hk : rich → Plenty (2 + 3 * ps.length + 1) k := fun hr => by
      rw [Nat.add_right_comm, Nat.add_comm 3]
      exact hk hr
    refine ((kalloc_rich hk).monoStop fun _ _ he => he.elim).mono fun r k₁ hr => ?_
    obtain ⟨hr, hk₁⟩ := hr
    rcases hr with ⟨rfl, hno⟩ | ⟨f, rfl, htk⟩
    · exact ⟨Or.inr (Or.inl rfl), hno⟩
    · obtain ⟨ht₁, hkept, hff, hram, hft⟩ := h.tree.take htk
      have hg₁ := htk.grown hkept
      have h₁ : Draws root m k₁ k₁ :=
        Draws.refl ht₁ fun q hq => (hkept.leaf (Nat.le_of_eq hq)).trans (h.shows q hq)
      have hpage : stackPage p < MAXVA / PGSIZE :=
        Nat.lt_of_le_of_lt (Nat.sub_le _ _) (by decide)
      show wp (kvmmap root (KSTACK p) f PGSIZE (PTE_R ||| PTE_W) >>= fun _ => _) _ _ _
      have hpa : f + 1 < 2 ^ 44 := Nat.lt_of_le_of_lt hram (by decide)
      refine (kvmmap_page _ _ _ _ h₁ hk₁ (KSTACK_eq p.isLt) hpage hpa (by decide)
        (hnew p List.mem_cons_self)).andThen fun _ k₂ h₂ => ?_
      obtain ⟨h₂, hk₂⟩ := h₂
      have hothers : ∀ p' ∈ ps, drawn (stackPage p) 1 f (PTE_R ||| PTE_W) m (stackPage p') =
          none := by
        intro p' hp'
        have hne : stackPage p' ≠ stackPage p := fun hc =>
          hp (Fin.ext (stackPage_inj p'.isLt p.isLt hc) ▸ hp')
        unfold drawn
        rw [if_neg (by omega)]
        exact hnew p' (List.mem_cons_of_mem p hp')
      have h₀₂ : Draws root (drawn (stackPage p) 1 f (PTE_R ||| PTE_W) m) k₀ k₂ :=
        ⟨h₂.tree, h₂.shows, (h.grown.trans hg₁).trans h₂.grown⟩
      refine (ih hnd h₀₂ hk₂ hothers).mono fun _ k₃ h₃ => ?_
      obtain ⟨stack, hd, hst, hg₃⟩ := h₃
      have hself : ∀ p' ∈ ps, Function.update stack p f p' = stack p' := by
        intro p' hp'
        have hne : p' ≠ p := fun he => hp (he ▸ hp')
        exact Function.update_of_ne hne f stack
      have hfree : ∀ p' ∈ ps, stack p' ∈ k₁.freelist := fun p' hp' =>
        h₂.grown.fewer (hst.free p' hp')
      refine ⟨Function.update stack p f, ?_, ⟨?_, ?_, ?_⟩, (hg₁.trans h₂.grown).trans hg₃⟩
      · rw [withStacks_cons hp]
        exact hd
      · intro p₁ hp₁ p₂ hp₂ heq
        rcases List.mem_cons.mp hp₁ with he₁ | hp₁
        · rcases List.mem_cons.mp hp₂ with he₂ | hp₂
          · exact he₁.trans he₂.symm
          · rw [he₁, Function.update_self, hself p₂ hp₂] at heq
            exact absurd (heq ▸ hfree p₂ hp₂) hff
        · rcases List.mem_cons.mp hp₂ with he₂ | hp₂
          · rw [he₂, Function.update_self, hself p₁ hp₁] at heq
            exact absurd (heq ▸ hfree p₁ hp₁) hff
          · rw [hself p₁ hp₁, hself p₂ hp₂] at heq
            exact hst.inj p₁ hp₁ p₂ hp₂ heq
      · intro p' hp'
        rcases List.mem_cons.mp hp' with rfl | hp'
        · rw [Function.update_self]
          exact htk.mem_free
        · rw [hself p' hp']
          exact hg₁.fewer (hfree p' hp')
      · intro p' hp'
        rcases List.mem_cons.mp hp' with rfl | hp'
        · rw [Function.update_self]
          exact (h₂.grown.trans hg₃).busy ⟨hff, hft⟩
        · rw [hself p' hp']
          exact hst.busy p' hp'

/-! ## The table of the kernel -/

/-- A page of zeros is an empty page table, if it is not free. -/
theorem tableTree_zero (hnd : k.freelist.Nodup) (hram : ∀ g ∈ k.freelist, g < PHYSTOP / PGSIZE)
    (hf : root ∉ k.freelist) (hz : k.mem root = fun _ => 0) : TableTree root k := by
  have hnil : ∀ {p : List (Fin 512)} {t : Frame}, k.node root p = some t → p = [] ∧ t = root := by
    intro p t hp
    cases p with
    | nil => exact ⟨rfl, (Option.some.inj hp).symm⟩
    | cons i p => exact absurd (hp.symm.trans (node_zero hz i p)) (Option.some_ne_none t)
  refine ⟨hnd, hram, fun {p q t} _ _ hp hq => ?_, fun {p t} _ ht => ?_⟩
  · rw [(hnil hp).1, (hnil hq).1]
  · rw [(hnil ht).2]
    exact hf

/-- After `kinit`: the text of the kernel, with the trampoline in it, ends at the page
`etext`, and the free pages come after the kernel. -/
structure Kinited (etext : Nat) (k : Kmem) : Prop where
  nodup : k.freelist.Nodup
  ram : ∀ f ∈ k.freelist, f < PHYSTOP / PGSIZE
  text : KERNBASE / PGSIZE ≤ k.trampoline
  trampoline : etext > k.trampoline
  data : etext < PHYSTOP / PGSIZE

/-- The registers of the devices. -/
def Device (va : Nat) : Prop :=
  UART0 ≤ va ∧ va < UART0 + PGSIZE ∨ VIRTIO0 ≤ va ∧ va < VIRTIO0 + PGSIZE ∨
    PLIC ≤ va ∧ va < PLIC + 0x4000000

/-- The page above the stack of `p` and the one below. -/
def Guard (p : Slot) (va : Nat) : Prop :=
  KSTACK p - PGSIZE ≤ va ∧ va < KSTACK p ∨ KSTACK p + PGSIZE ≤ va ∧ va < KSTACK p + 2 * PGSIZE

/-- What the kernel's page table says, with the stacks in pages that were free. -/
structure KernelTable (etext : Nat) (trampoline root : Frame) (k k' : Kmem) (stack : Slot → Frame) :
    Prop where
  tree : TableTree root k'
  text : ∀ va, KERNBASE ≤ va → va < etext * PGSIZE →
    Looks k' root va (some (entryOf (va / PGSIZE) (PTE_R ||| PTE_X)))
  ram : ∀ va, etext * PGSIZE ≤ va → va < PHYSTOP →
    Looks k' root va (some (entryOf (va / PGSIZE) (PTE_R ||| PTE_W)))
  device : ∀ va, Device va → Looks k' root va (some (entryOf (va / PGSIZE) (PTE_R ||| PTE_W)))
  trampoline : ∀ va, TRAMPOLINE ≤ va → va < MAXVA →
    Looks k' root va (some (entryOf trampoline (PTE_R ||| PTE_X)))
  owned : Stacks root (List.finRange NPROC) stack k k'
  stack : ∀ (p : Slot) va, KSTACK p ≤ va → va < KSTACK p + PGSIZE →
    Looks k' root va (some (entryOf (stack p) (PTE_R ||| PTE_W)))
  guard : ∀ (p : Slot) va, Guard p va → va < TRAMPOLINE → Looks k' root va none
  /-- Everything else is not mapped. -/
  only : ∀ va < MAXVA, va < TRAMPOLINE → ¬Device va → ¬(KERNBASE ≤ va ∧ va < PHYSTOP) →
    (∀ p : Slot, ¬(KSTACK p ≤ va ∧ va < KSTACK p + PGSIZE)) → Looks k' root va none
  flags : ∀ va < MAXVA, ∀ pte, Looks k' root va (some pte) →
    pte &&& PTE_U = 0 ∧ (pte &&& PTE_W = 0 ∨ pte &&& PTE_X = 0)

/-- What was drawn before the stacks. -/
def lowMap (etext : Nat) (trampoline : Frame) : Nat → Option Pte :=
  drawn (TRAMPOLINE / PGSIZE) 1 trampoline (PTE_R ||| PTE_X) <|
    drawn etext (PHYSTOP / PGSIZE - etext) etext (PTE_R ||| PTE_W) <|
    drawn (KERNBASE / PGSIZE) (etext - KERNBASE / PGSIZE) (KERNBASE / PGSIZE)
      (PTE_R ||| PTE_X) <|
    drawn (PLIC / PGSIZE) 0x4000 (PLIC / PGSIZE) (PTE_R ||| PTE_W) <|
    drawn (VIRTIO0 / PGSIZE) 1 (VIRTIO0 / PGSIZE) (PTE_R ||| PTE_W) <|
    drawn (UART0 / PGSIZE) 1 (UART0 / PGSIZE) (PTE_R ||| PTE_W) fun _ => none

/-- The numbers of the pages that matter. -/
theorem layout : UART0 / PGSIZE = 65536 ∧ VIRTIO0 / PGSIZE = 65537 ∧ PLIC / PGSIZE = 49152 ∧
    KERNBASE / PGSIZE = 524288 ∧ PHYSTOP / PGSIZE = 557056 ∧ TRAMPOLINE / PGSIZE = 67108863 ∧
    MAXVA / PGSIZE = 67108864 := by decide

theorem drawn_in {i : Nat} (h : v ≤ i ∧ i < v + n) :
    drawn v n pa perm m i = some (entryOf (pa + (i - v)) perm) := if_pos h

theorem drawn_out {i : Nat} (h : ¬(v ≤ i ∧ i < v + n)) : drawn v n pa perm m i = m i := if_neg h

/-- A range that is drawn at its own address. -/
theorem drawn_self {i : Nat} (h : v ≤ i ∧ i < v + n) :
    drawn v n v perm m i = some (entryOf i perm) := by
  rw [drawn_in h, Nat.add_sub_cancel' h.1]

section LowMap

variable {trampoline : Frame} {i : Nat}

theorem lowMap_trampoline :
    lowMap etext trampoline (TRAMPOLINE / PGSIZE) =
      some (entryOf trampoline (PTE_R ||| PTE_X)) := by
  unfold lowMap
  rw [drawn_in ⟨Nat.le_refl _, Nat.lt_succ_self _⟩, Nat.sub_self, Nat.add_zero]

theorem lowMap_ram (hlo : etext ≤ i) (hhi : i < PHYSTOP / PGSIZE) :
    lowMap etext trampoline i = some (entryOf i (PTE_R ||| PTE_W)) := by
  obtain ⟨-, -, -, -, hp, ht, -⟩ := layout
  unfold lowMap
  rw [drawn_out (by omega), drawn_self (by omega)]

theorem lowMap_text (he : etext < PHYSTOP / PGSIZE) (hlo : KERNBASE / PGSIZE ≤ i)
    (hhi : i < etext) :
    lowMap etext trampoline i = some (entryOf i (PTE_R ||| PTE_X)) := by
  obtain ⟨-, -, -, hk, hp, ht, -⟩ := layout
  unfold lowMap
  rw [drawn_out (by omega), drawn_out (by omega), drawn_self (by omega)]

theorem lowMap_device (he : KERNBASE / PGSIZE < etext)
    (hi : i = UART0 / PGSIZE ∨ i = VIRTIO0 / PGSIZE ∨
      PLIC / PGSIZE ≤ i ∧ i < PLIC / PGSIZE + 0x4000) :
    lowMap etext trampoline i = some (entryOf i (PTE_R ||| PTE_W)) := by
  obtain ⟨hu, hv, hc, hk, -, ht, -⟩ := layout
  unfold lowMap
  rw [drawn_out (by omega), drawn_out (by omega), drawn_out (by omega)]
  rcases hi with hi | hi | hi
  · rw [drawn_out (by omega), drawn_out (by omega), drawn_self (by omega)]
  · rw [drawn_out (by omega), drawn_self (by omega)]
  · exact drawn_self (by omega)

theorem lowMap_none (he : KERNBASE / PGSIZE < etext) (he' : etext < PHYSTOP / PGSIZE)
    (ht : i ≠ TRAMPOLINE / PGSIZE) (hr : ¬(KERNBASE / PGSIZE ≤ i ∧ i < PHYSTOP / PGSIZE))
    (hc : ¬(PLIC / PGSIZE ≤ i ∧ i < PLIC / PGSIZE + 0x4000)) (hv : i ≠ VIRTIO0 / PGSIZE)
    (hu : i ≠ UART0 / PGSIZE) : lowMap etext trampoline i = none := by
  unfold lowMap
  rw [drawn_out (by omega), drawn_out (by omega), drawn_out (by omega), drawn_out (by omega),
    drawn_out (by omega), drawn_out (by omega)]

/-- The entries of one page are the entries of another with `W` or with `X`. -/
def Fair (pte : Pte) : Prop := pte &&& PTE_U = 0 ∧ (pte &&& PTE_W = 0 ∨ pte &&& PTE_X = 0)

theorem fair_rw : Fair (entryOf pa (PTE_R ||| PTE_W)) := by
  refine ⟨?_, Or.inr ?_⟩
  · rw [entryOf_and (by decide)]
    decide
  · rw [entryOf_and (by decide)]
    decide

theorem fair_rx : Fair (entryOf pa (PTE_R ||| PTE_X)) := by
  refine ⟨?_, Or.inl ?_⟩
  · rw [entryOf_and (by decide)]
    decide
  · rw [entryOf_and (by decide)]
    decide

theorem drawn_fair (hp : ∀ pa, Fair (entryOf pa perm)) (hm : ∀ i pte, m i = some pte → Fair pte)
    {pte : Pte} (h : drawn v n pa perm m i = some pte) : Fair pte := by
  unfold drawn at h
  split at h
  · rw [Option.some.injEq] at h
    exact h ▸ hp _
  · exact hm i pte h

theorem lowMap_fair {pte : Pte} (h : lowMap etext trampoline i = some pte) : Fair pte := by
  unfold lowMap at h
  refine drawn_fair (fun _ => fair_rx) (fun i pte h => ?_) h
  refine drawn_fair (fun _ => fair_rw) (fun i pte h => ?_) h
  refine drawn_fair (fun _ => fair_rx) (fun i pte h => ?_) h
  refine drawn_fair (fun _ => fair_rw) (fun i pte h => ?_) h
  refine drawn_fair (fun _ => fair_rw) (fun i pte h => ?_) h
  refine drawn_fair (fun _ => fair_rw) (fun i pte h => ?_) h
  exact absurd h.symm (Option.some_ne_none pte)

end LowMap

/-- The stacks lie above memory and below the trampoline. -/
theorem stackPage_bounds {p : Nat} (hp : p < NPROC) :
    PHYSTOP / PGSIZE < stackPage p - 1 ∧ stackPage p + 2 ≤ TRAMPOLINE / PGSIZE ∧
      stackPage p = TRAMPOLINE / PGSIZE - 2 * (p + 1) := by
  have hp : p < 64 := hp
  obtain ⟨-, -, -, -, hpp, ht, hm⟩ := layout
  have hs : stackPage p = MAXVA / PGSIZE - 1 - 2 * (p + 1) := rfl
  omega

theorem toll_PLIC : 2 + (toll (PLIC / PGSIZE) (0x4000 - 1) + 331) ≤ 395 := by
  obtain ⟨-, -, hc, -, -, -, -⟩ := layout
  unfold toll
  omega

/-- Text and data share one table at most. -/
theorem toll_memory (he : KERNBASE / PGSIZE < etext) (he' : etext < PHYSTOP / PGSIZE) :
    2 + (toll (KERNBASE / PGSIZE) (etext - KERNBASE / PGSIZE - 1) +
      (2 + (toll etext (PHYSTOP / PGSIZE - etext - 1) + 201))) ≤ 331 := by
  obtain ⟨-, -, -, hk, hp, -, -⟩ := layout
  unfold toll
  omega

/-- **`kvmmake`** draws its seven ranges. -/
theorem kvmmake_draws (h : Kinited etext k) (hk : rich → Plenty 400 k) :
    wp (kvmmake etext) (fun root k' => ∃ k₁ stack, TableTree root k₁ ∧ k₁.freelist ⊆ k.freelist ∧
      Draws root (withStacks (List.finRange NPROC) stack (lowMap etext k.trampoline)) k₁ k' ∧
      Stacks root (List.finRange NPROC) stack k₁ k') (OutOfMemory rich) k := by
  obtain ⟨hu, hv, hc, hkb, hps, htr, hmx⟩ := layout
  have htext : KERNBASE / PGSIZE < etext := Nat.lt_of_le_of_lt h.text h.trampoline
  have hdata := h.data
  have htramp := h.trampoline
  -- the sizes of the two parts of memory
  have hlen : etext * PGSIZE - KERNBASE = (etext - KERNBASE / PGSIZE) * PGSIZE := by
    rw [Nat.sub_mul, Nat.div_mul_cancel (by decide)]
  have hlen' : PHYSTOP - etext * PGSIZE = (PHYSTOP / PGSIZE - etext) * PGSIZE := by
    rw [Nat.sub_mul, Nat.div_mul_cancel (by decide)]
  unfold kvmmake
  rw [hlen, hlen', wp_bind, wp_get, wp_bind, wp_among]
  refine ((kalloc_rich hk).monoStop fun _ _ he => he.elim).mono fun r k₀ hr => ?_
  obtain ⟨hr, hk₀⟩ := hr
  rcases hr with ⟨rfl, hno⟩ | ⟨root, rfl, htk⟩
  · exact ⟨Or.inr (Or.inr rfl), hno⟩
  · have hnd := h.nodup
    rw [htk.free] at hnd
    obtain ⟨hroot, hnd⟩ := List.nodup_cons.mp hnd
    have hsub : k₀.freelist ⊆ k.freelist := fun g hg => by
      rw [htk.free]
      exact List.mem_cons_of_mem root hg
    show wp (among BootPanic.vm (memset root 0) >>= fun _ => _) _ _ _
    unfold memset
    rw [wp_bind, wp_among, wp_modify]
    have ht₁ : TableTree root (k₀.setPage root fun _ => 0) :=
      tableTree_zero hnd (fun g hg => h.ram g (hsub hg)) hroot (setPage_self k₀ root _)
    have hd₁ : Draws root (fun _ => none) (k₀.setPage root fun _ => 0)
        (k₀.setPage root fun _ => 0) := by
      refine Draws.refl ht₁ fun q hq => ?_
      cases q with
      | nil => exact absurd hq (by decide)
      | cons i p =>
        have hno := node_zero (setPage_self k₀ root fun _ => 0) i p
        rw [node_of_leaf hq, Option.map_eq_none_iff] at hno
        exact hno
    generalize hk₁ : (k₀.setPage root fun _ => 0) = k₁ at *
    have hsub₁ : k₁.freelist ⊆ k.freelist := by
      rw [← hk₁]
      exact hsub
    have hrich₁ : rich → Plenty 399 k₁ := by
      rw [← hk₁]
      exact fun hr => ⟨(hk₀ hr).1, (hk₀ hr).2⟩
    refine (kvmmap_page (UART0 / PGSIZE) (UART0 / PGSIZE) (PTE_R ||| PTE_W) 397 hd₁ hrich₁
      (by decide) (by omega) (by omega) (by decide) rfl).andThen fun _ k₂ hd₂ => ?_
    obtain ⟨hd₂, hrich₂⟩ := hd₂
    refine (kvmmap_page (VIRTIO0 / PGSIZE) (VIRTIO0 / PGSIZE) (PTE_R ||| PTE_W) 395 hd₂ hrich₂
      (by decide) (by omega) (by omega) (by decide) (drawn_out (by omega))).andThen
      fun _ k₃ hd₃ => ?_
    obtain ⟨hd₃, hrich₃⟩ := hd₃
    refine (kvmmap_draws (PLIC / PGSIZE) 0x4000 (PLIC / PGSIZE) (PTE_R ||| PTE_W) 331 hd₃
      (fun hr => (hrich₃ hr).fewer toll_PLIC) (by decide) (by decide) (by decide) (by omega)
      (by decide) (by decide) fun i hlo hhi => ?_).andThen fun _ k₄ hd₄ => ?_
    · rw [drawn_out (by omega), drawn_out (by omega)]
    obtain ⟨hd₄, hrich₄⟩ := hd₄
    refine (kvmmap_draws (KERNBASE / PGSIZE) (etext - KERNBASE / PGSIZE) (KERNBASE / PGSIZE)
      (PTE_R ||| PTE_X) (2 + (toll etext (PHYSTOP / PGSIZE - etext - 1) + 201)) hd₄
      (fun hr => (hrich₄ hr).fewer (toll_memory htext hdata)) (by decide) rfl (by omega)
      (by omega) (by omega) (by decide) fun i hlo hhi => ?_).andThen fun _ k₅ hd₅ => ?_
    · rw [drawn_out (by omega), drawn_out (by omega), drawn_out (by omega)]
    obtain ⟨hd₅, hrich₅⟩ := hd₅
    refine (kvmmap_draws etext (PHYSTOP / PGSIZE - etext) etext (PTE_R ||| PTE_W) 201 hd₅ hrich₅
      rfl rfl (by omega) (by omega) (by omega) (by decide) fun i hlo hhi => ?_).andThen
      fun _ k₆ hd₆ => ?_
    · rw [drawn_out (by omega), drawn_out (by omega), drawn_out (by omega), drawn_out (by omega)]
    obtain ⟨hd₆, hrich₆⟩ := hd₆
    refine (kvmmap_page (TRAMPOLINE / PGSIZE) k.trampoline (PTE_R ||| PTE_X) 199 hd₆ hrich₆
      (by decide) (by omega) (by omega) (by decide) ?_).andThen fun _ k₇ hd₇ => ?_
    · rw [drawn_out (by omega), drawn_out (by omega), drawn_out (by omega), drawn_out (by omega),
        drawn_out (by omega)]
    obtain ⟨hd₇, hrich₇⟩ := hd₇
    have hstacks : 3 * (List.finRange NPROC).length ≤ 199 := by
      rw [List.length_finRange]
      decide
    unfold proc_mapstacks
    refine (mapstacksFrom_spec (List.finRange NPROC) (List.nodup_finRange NPROC) hd₇
      (fun hr => (hrich₇ hr).fewer hstacks) fun p _ => ?_).andThen fun _ k₈ h₈ => ?_
    · obtain ⟨hlo, hhi, -⟩ := stackPage_bounds p.isLt
      exact lowMap_none (by omega) hdata (by omega) (by omega) (by omega) (by omega) (by omega)
    · obtain ⟨stack, hd₈, hst, -⟩ := h₈
      refine ⟨k₁, stack, ht₁, hsub₁, hd₈, ⟨hst.inj, fun p hp => ?_, hst.busy⟩⟩
      exact hd₇.grown.fewer (hst.free p hp)

/-- **The kernel's page table.** If `kvmmake` returns, the table it returns is this one; it
stops for want of memory only. -/
theorem kernel_table (h : Kinited etext k) : wp (kvmmake etext)
    (fun root k' => ∃ stack, KernelTable etext k.trampoline root k k' stack)
    (OutOfMemory (Plenty 400 k)) k := by
  obtain ⟨hu, hv, hc, hkb, hps, htr, hmx⟩ := layout
  have htext : KERNBASE / PGSIZE < etext := Nat.lt_of_le_of_lt h.text h.trampoline
  have hdata := h.data
  have hU : UART0 = 65536 * 4096 := rfl
  have hV : VIRTIO0 = 65537 * 4096 := rfl
  have hC : PLIC = 49152 * 4096 := rfl
  have hK : KERNBASE = 524288 * 4096 := rfl
  have hP : PHYSTOP = 557056 * 4096 := rfl
  have hT : TRAMPOLINE = 67108863 * 4096 := rfl
  have hM : MAXVA = 67108864 * 4096 := rfl
  refine (kvmmake_draws h id).mono fun root k' hd => ?_
  obtain ⟨k₁, stack, _, hsub, hd, hst⟩ := hd
  -- what the table says about an address is what was drawn for its page
  have hlook : ∀ va < MAXVA, ∀ r, withStacks (List.finRange NPROC) stack
      (lowMap etext k.trampoline) (va / PGSIZE) = r → Looks k' root va r := by
    intro va hva r hr
    rw [looks_iff hva, hd.shows (way va) rfl, pageOf_way (Nat.lt_trans hva (by decide)), hr]
  have hlow : ∀ i, (∀ p : Slot, stackPage p ≠ i) →
      withStacks (List.finRange NPROC) stack (lowMap etext k.trampoline) i =
        lowMap etext k.trampoline i := fun i hi => withStacks_none fun p _ => hi p
  have hapart : ∀ i, i < PHYSTOP / PGSIZE ∨ i = TRAMPOLINE / PGSIZE →
      ∀ p : Slot, stackPage p ≠ i := by
    intro i hi p
    obtain ⟨hlo, hhi, -⟩ := stackPage_bounds p.isLt
    omega
  have hstack : ∀ (p : Slot) va, KSTACK p ≤ va ∧ va < KSTACK p + PGSIZE ↔
      va / PGSIZE = stackPage p := by
    intro p va
    rw [KSTACK_eq p.isLt, PGSIZE_eq]
    omega
  refine ⟨stack, hd.tree, fun va hlo hhi => ?_, fun va hlo hhi => ?_, fun va hdev => ?_,
    fun va hlo hhi => ?_, ⟨hst.inj, fun p hp => hsub (hst.free p hp), hst.busy⟩,
    fun p va hlo hhi => ?_, fun p va hg ht => ?_, fun va hva ht hdev hram hno => ?_,
    fun va hva pte hl => ?_⟩
  · rw [PGSIZE_eq] at hhi
    have hpage : KERNBASE / PGSIZE ≤ va / PGSIZE ∧ va / PGSIZE < etext := by
      rw [PGSIZE_eq] at *
      omega
    refine hlook va (by omega) _ ?_
    rw [hlow _ (hapart _ (Or.inl (by omega))), lowMap_text hdata hpage.1 hpage.2]
  · rw [PGSIZE_eq] at hlo
    have hpage : etext ≤ va / PGSIZE ∧ va / PGSIZE < PHYSTOP / PGSIZE := by
      rw [PGSIZE_eq] at *
      omega
    refine hlook va (by omega) _ ?_
    rw [hlow _ (hapart _ (Or.inl hpage.2)), lowMap_ram hpage.1 hpage.2]
  · have hpage : va / PGSIZE = UART0 / PGSIZE ∨ va / PGSIZE = VIRTIO0 / PGSIZE ∨
        PLIC / PGSIZE ≤ va / PGSIZE ∧ va / PGSIZE < PLIC / PGSIZE + 0x4000 := by
      unfold Device at hdev
      rw [PGSIZE_eq] at *
      omega
    refine hlook va (by unfold Device at hdev; rw [PGSIZE_eq] at hdev; omega) _ ?_
    rw [hlow _ (hapart _ (Or.inl (by omega))), lowMap_device htext hpage]
  · have hpage : va / PGSIZE = TRAMPOLINE / PGSIZE := by
      rw [PGSIZE_eq] at *
      omega
    refine hlook va hhi _ ?_
    rw [hpage, hlow _ (hapart _ (Or.inr rfl)), lowMap_trampoline]
  · have hpage := (hstack p va).mp ⟨hlo, hhi⟩
    obtain ⟨-, hb, -⟩ := stackPage_bounds p.isLt
    refine hlook va (by rw [PGSIZE_eq] at hpage; omega) _ ?_
    rw [hpage, withStacks_some (List.mem_finRange p)]
  · have hp := p.isLt
    have hN : NPROC = 64 := rfl
    have hpage : va / PGSIZE + 1 = stackPage p ∨ va / PGSIZE = stackPage p + 1 := by
      unfold Guard at hg
      obtain ⟨hb, -, -⟩ := stackPage_bounds p.isLt
      rw [KSTACK_eq p.isLt] at hg
      rw [PGSIZE_eq] at *
      omega
    obtain ⟨hb, hb', hs⟩ := stackPage_bounds p.isLt
    have hnone : ∀ p' : Slot, stackPage p' ≠ va / PGSIZE := by
      intro p'
      obtain ⟨-, -, hs'⟩ := stackPage_bounds p'.isLt
      omega
    have htop : va / PGSIZE ≠ TRAMPOLINE / PGSIZE := by
      rw [PGSIZE_eq] at *
      omega
    refine hlook va (by omega) _ ?_
    rw [hlow _ hnone]
    exact lowMap_none htext hdata htop (by omega) (by omega) (by omega) (by omega)
  · have hnone : ∀ p' : Slot, stackPage p' ≠ va / PGSIZE := fun p' hc =>
      hno p' ((hstack p' va).mpr hc.symm)
    refine hlook va hva _ ?_
    rw [hlow _ hnone]
    have hpage : va / PGSIZE ≠ TRAMPOLINE / PGSIZE ∧
        ¬(KERNBASE / PGSIZE ≤ va / PGSIZE ∧ va / PGSIZE < PHYSTOP / PGSIZE) ∧
        ¬(PLIC / PGSIZE ≤ va / PGSIZE ∧ va / PGSIZE < PLIC / PGSIZE + 0x4000) ∧
        va / PGSIZE ≠ VIRTIO0 / PGSIZE ∧ va / PGSIZE ≠ UART0 / PGSIZE := by
      unfold Device at hdev
      rw [PGSIZE_eq] at *
      omega
    obtain ⟨h₁, h₂, h₃, h₄, h₅⟩ := hpage
    exact lowMap_none htext hdata h₁ h₂ h₃ h₄ h₅
  · rw [looks_iff hva, hd.shows (way va) rfl] at hl
    unfold withStacks at hl
    split at hl
    · rw [Option.some.injEq] at hl
      exact hl ▸ fair_rw
    · exact lowMap_fair hl.symm

/-- 400 free pages after a kernel of sixteen. -/
def booting : Kmem where
  mem _ _ := 0
  freelist := List.range' 0x80010 400
  oom := []
  low := 0x80010
  trampoline := 0x80007

theorem booting_kinited : Kinited 0x80008 booting where
  nodup := List.nodup_range'
  ram f hf := by
    obtain ⟨-, -, -, -, hp, -, -⟩ := layout
    rw [hp]
    exact Nat.lt_trans (List.mem_range'_1.mp hf).2 (by decide)
  text := by decide
  trampoline := by decide
  data := by decide

theorem booting_table : ∃ root k' stack, exec (kvmmake 0x80008) booting = (.ok root, k') ∧
    KernelTable 0x80008 0x80007 root booting k' stack := by
  have hrich : Plenty 400 booting := by
    refine ⟨fun b hb => absurd hb List.not_mem_nil, Nat.le_of_eq ?_⟩
    exact (List.length_range').symm
  obtain ⟨root, k', hexec, stack, ht⟩ :=
    (kernel_table booting_kinited).returns fun _ _ he => he.2 hrich
  exact ⟨root, k', stack, hexec, ht⟩

end Xv6.Vm
