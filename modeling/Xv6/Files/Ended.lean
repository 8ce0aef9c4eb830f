import Xv6.Files.Agree
import Xv6.Files.Smear

/-!
# However a copy ends

`writei` may come to the end of the source too early, when bytes are in the buffer that are
not in the log; `readi` may come to the end of its destination. Neither matters to who has
which block:

  > `Tidy.writei`: what a call of `writei` leaves is `Alike` a tidy file system, and the one
  > block that differs is a block of bytes (`Plain`).

The failed call is compared with one whose buffer was let go as it had been read: for that
one the inode is written by the lemma for a call that ends well (`finish_wp`).
-/

namespace Xv6.Files

open Lib
open Lib.Bytes (blit)
open Mkfs (Block Dinode Superblock BSIZE NDIRECT NINDIRECT MAXFILE)

variable {sb : Superblock} {pick : Nat → Option Nat} {s s' s'' t u : Fs} {ip : Nat} {mem : Mem}

/-- A block that holds no addresses. -/
def Plain (sb : Superblock) (V : Nat → Block) (b : Nat) : Prop :=
  Data sb b ∧ ∀ j, Live sb (onDisk sb V) j → (onDisk sb V j).addrs NDIRECT ≠ b

/-- A call on inode `ip` that may have taken blocks. -/
structure Grew (sb : Superblock) (s s' : Fs) (ip : Nat) : Prop where
  tidy : Tidy sb s'
  other : ∀ j, j < sb.ninodes → j ≠ ip → (onDisk sb s'.view j).Same (onDisk sb s.view j)
  locked : Locked sb s' ip

theorem Grew.refl (h : Tidy sb s) (hk : Locked sb s ip) : Grew sb s s ip :=
  ⟨h, fun _ _ _ => Same.refl _, hk⟩

/-- **After `writei`** the file system is tidy. -/
theorem Wrotei.grew {off tot : Nat} {src : Nat → UInt8} (hl : Layout sb) (h : Tidy sb s)
    (hk : Locked sb s ip)
    (hw : Wrotei sb (s.inodes (inodes sb s ip)) s' ip off tot src)
    (hmax : off + tot ≤ MAXFILE * BSIZE)
    (hs : s''.inodes s'.ino = s') (hi : s''.ino = Function.update s.ino ip (s'.ino ip)) :
    Grew sb s s'' ip := by
  have hr := hw.replaced hl (h.ready hk) (h.allocated hk) hmax hs hi
  have hv : (s''.inodes s'.ino).view = s'.view := congrArg Fs.view hs
  have hv : s''.view = s'.view := hv
  have hvalid : (s''.inodes s'.ino).valid = s'.valid := congrArg Fs.valid hs
  have hvalid : s''.valid = s.valid := hvalid.trans hw.valid
  have href : (s''.inodes s'.ino).ref = s'.ref := congrArg Fs.ref hs
  have href : s''.ref = s.ref := href.trans hw.ref
  have hother :
    ∀ j, j < sb.ninodes → j ≠ ip → (onDisk sb s''.view j).Same (onDisk sb s.view j) := by
    intro j hj hne
    rw [hv]
    exact (hw.other j hne).2 hj
  have hsame : ∀ i, i < sb.ninodes → (inodes sb s'' ip i).Same (onDisk sb s''.view i) := by
    intro i _
    by_cases hii : i = ip
    · rw [hii, inodes_self]
      exact Same.symm hr.inode
    · rw [inodes_ne hii]
      exact Same.refl _
  refine ⟨⟨hr.ready.coherent, hr.ready.held, ?_, fun j hj => ?_, fun j hjn hrj hvj => ?_⟩,
    hother, hk.lt,
    by rw [href]; exact hk.ref, by rw [hvalid]; exact hk.valid⟩
  · rw [← owner_same hsame]
    exact hr.ready.owned
  · by_cases hjp : j = ip
    · subst hjp
      have ha := hr.allocated
      refine Complete.congr ⟨ha.size, ha.mapped⟩ hr.inode.size fun σ => addr_same hr.inode σ
    · have hold : Live sb (onDisk sb s.view) j := ⟨hj.1, (hother j hj.1 hjp).type ▸ hj.2⟩
      have hcomplete := h.whole j hold
      have hsize := (hother j hj.1 hjp).size
      refine ⟨hsize ▸ hcomplete.size, fun k hlt => ?_⟩
      rw [hsize] at hlt
      have hle := hcomplete.size
      have hB : BSIZE = 1024 := rfl
      have hM : MAXFILE = 268 := rfl
      rw [hM, hB] at hle
      exact ((hr.other j hjp hold).byte k (by rw [hM, hB]; omega) (hcomplete.mapped k hlt)).1
  · by_cases hjp : j = ip
    · subst hjp
      exact ⟨hr.inode, hr.ready.live.2⟩
    · rw [hr.memory j hjp]
      obtain ⟨hs', ht⟩ := h.copies j hjn (href ▸ hrj) (hvalid ▸ hvj)
      exact ⟨(hother j hjn hjp).trans hs', ht⟩

/-! ## A buffer that is not logged -/

/-- A state that looks the same. -/
theorem Written.look {off₀ off : Nat} {src : Nat → UInt8} (h : Written sb s s' ip off₀ off src)
    (hw : Wrote s' s'' s'.view s'.ino []) (hh : s''.held = []) :
    Written sb s s'' ip off₀ off src where
  toAdded := h.toAdded.of_same hw.coherent hw.view hw.ino
  held := hh
  disk := hw.disk.trans h.disk
  valid := hw.valid.trans h.valid
  ref := hw.ref.trans h.ref
  pinned b hb := (hw.lh b).mpr (.inl (h.pinned b hb))
  data := by rw [hw.view]; exact h.data
  mapped := by rw [hw.view, hw.ino]; exact h.mapped
  byte := by rw [hw.view, hw.ino]; exact h.byte

/-- The same, but for the block that was stored to. -/
theorem Alike.smear (hc : Coherent s) (a : Nat) (f : Block → Block) :
    Alike (· = a) (s.smear pick a f) ((s.load pick a).drop a) := by
  have hl := (@Wrote.load s pick hc a).coherent
  have hcache : ∀ c, c ≠ a → (s.smear pick a f).cache c = (s.load pick a).cache c := fun c hne =>
    Function.update_of_ne hne _ _
  refine ⟨rfl, rfl, rfl, rfl, rfl, rfl, rfl, fun c => ?_, hcache, fun _ _ _ => rfl,
    fun c hm => hl.pinned hm,
    fun c hm => hl.held (List.mem_of_mem_erase hm)⟩
  show _ ↔ (s.load pick a).cache c = none
  by_cases hca : c = a
  · subst hca
    rw [(smear_cache s c f).1, (load_loaded s c).some]
    exact ⟨fun h => absurd h (Option.some_ne_none _), fun h => absurd h (Option.some_ne_none _)⟩
  · rw [hcache c hca]

theorem Alike.inodes {D : Nat → Prop} (h : Alike D s t) (O : Nat → Dinode) :
    Alike D (s.inodes O) (t.inodes O) :=
  { h with ino := rfl }

variable {user : Bool} {addr off n tot a : Nat} {l : List UInt8}

/-- What `writei` leaves. -/
def Ended (sb : Superblock) (s : Fs) (ip : Nat) (s' : Fs) : Prop :=
  ∃ u D, Grew sb s u ip ∧ Alike D s' u ∧ ∀ b, D b → Plain sb u.view b

theorem Ended.clean (h : Grew sb s s' ip) : Ended sb s ip s' :=
  ⟨s', fun _ => False, h, Alike.refl h.tidy.coherent, fun _ hb => hb.elim⟩

/-- **The source ends early**: the inode is written, and one buffer is not what is on the disk. -/
theorem Fault.ended {s₁ : Fs} (hl : Layout sb) (h : Tidy sb s) (hk : Locked sb s ip)
    (hmax : off + tot ≤ MAXFILE * BSIZE)
    (hf : Fault sb mem user addr n (s.inodes (inodes sb s ip)) ip off tot s₁ a l)
    (f : Block → Block) :
    wp (finish sb pick ip tot (off + tot)) (fun _ s' => ∀ s'', s''.inodes s'.ino = s' →
      s''.ino = Function.update s.ino ip (s'.ino ip) → Ended sb s ip s'') (fun _ _ => False)
      (s₁.smear pick a f) := by
  have hr := h.ready hk
  have hw := hf.written.toWritten
  have hip₁ := (hw.live ip).mpr hr.isLive
  have ha : Data sb a := by
    have hd := hw.owned.addr_data hip₁ (by rw [hf.slot]; exact hf.ne_zero)
    rwa [hf.slot] at hd
  -- no inode has the block for its addresses
  have hnot : ∀ j, Live sb s₁.ino j → (s₁.ino j).addrs NDIRECT ≠ a := by
    intro j hj he
    rw [← hf.slot] at he
    have h0 : (slotOf ((off + tot) / BSIZE)).addr s₁.view (s₁.ino ip) ≠ 0 := by
      rw [hf.slot]
      exact hf.ne_zero
    exact slotOf_ne_indirect _ (hw.owned.once (τ := .indirect) hip₁ hj h0 he.symm).2
  have hload := (@Wrote.load s₁ pick hw.coherent a).drop a
  have hheld : ((s₁.load pick a).drop a).held = [] := by
    show (s₁.load pick a).held.erase a = []
    rw [(load_rest s₁ a).1, hw.held, List.erase_cons_head]
  have hagree : Agree (· = a) ip (s₁.smear pick a f) ((s₁.load pick a).drop a) := by
    refine ⟨_, fun _ hb => hb, Alike.smear hw.coherent a f, fun _ => ?_⟩
    rw [hload.ino]
    exact hnot ip hip₁
  have hend : wp (finish sb pick ip tot (off + tot))
      (fun _ u => Wrotei sb (s.inodes (inodes sb s ip)) u ip off tot (srcByte mem user addr))
      (fun _ _ => False) ((s₁.load pick a).drop a) :=
    finish_wp (hw.look hload hheld) hl hr.isLive hr.fits_inodes hmax fun u hu _ => hu
  refine ((hagree.finish tot (off + tot)).wp hend).mono (fun r s' hr' s'' hs hi => ?_) |>.monoStop
    fun _ _ ⟨_, hfalse⟩ => hfalse
  obtain ⟨-, u, ⟨-, D, hD, hal, hind⟩, hwu⟩ := hr'
  have halike := hal.inodes s''.ino
  have hs'' : s'.inodes s''.ino = s'' := by
    rw [← hs]
    rfl
  rw [hs''] at halike
  have hself : u.ino ip = s'.ino ip := by rw [hal.ino]
  have hg : Grew sb s (u.inodes s''.ino) ip := hwu.grew hl h hk hmax rfl (by rw [hself]; exact hi)
  refine ⟨_, D, hg, halike, fun b hb => ?_⟩
  obtain rfl : b = a := hD b hb
  refine ⟨ha, fun j hj he => ?_⟩
  by_cases hjp : j = ip
  · subst hjp
    have hsame := (hg.tidy.same hg.locked).addrs NDIRECT le_rfl
    have hino : (u.inodes s''.ino).ino j = u.ino j := by
      rw [hself]
      exact (congrFun hi j).trans (Function.update_self ..)
    rw [hino, he] at hsame
    refine hind ?_ (by rw [← hsame]; exact hb)
    rw [← hsame]
    exact hf.ne_zero
  · have hold := (hg.other j hj.1 hjp)
    have hlive : Live sb (s.inodes (inodes sb s ip)).ino j := by
      refine ⟨hj.1, ?_⟩
      show (inodes sb s ip j).type ≠ 0
      rw [inodes_ne hjp, ← hold.type]
      exact hj.2
    have hij : (s.inodes (inodes sb s ip)).ino j = onDisk sb s.view j := inodes_ne hjp
    refine hnot j ((hw.live j).mpr hlive) ?_
    rw [hw.other j hjp, hij, ← hold.addrs NDIRECT le_rfl]
    exact he

/-- **`writei`**, whatever its source. -/
theorem Tidy.writei (hl : Layout sb) (h : Tidy sb s) (hk : Locked sb s ip) (hoff : off < 2 ^ 32)
    (hn : n < 2 ^ 32) :
    wp (writei sb pick mem ip user addr off n) (fun _ s' => Ended sb s ip s')
      (fun _ _ => False) s := by
  have hr := h.ready hk
  have hino : (s.inodes (Files.inodes sb s ip)).ino ip = s.ino ip := inodes_self
  refine (only_writei sb pick mem user addr off n).wp inodes_self
    (writei_wp hl hr.sound hr.held hr.isLive
    hr.fits_inodes (h.allocated hk).inodes hoff hn (fun _ _ s'' hs hi => ?_)
      (fun hre s' _ hw _ s'' hs hi => ?_)
    (fun hre tot s' _ hf _ hw _ s'' hs hi => ?_) fun hre tot s₁ a l _ hf => ?_)
  · -- it is refused
    rw [hino, Function.update_eq_self] at hi
    have hsame : s'' = s := by
      calc s'' = (s''.inodes (Files.inodes sb s ip)).inodes s''.ino := rfl
        _ = (s.inodes (Files.inodes sb s ip)).inodes
          s.ino := by rw [hi, show s''.inodes (Files.inodes sb s ip) = _ from hs]
        _ = s := rfl
    rw [hsame]
    exact .clean (.refl h hk)
  all_goals have hmax := (not_refused hoff hn hre).2
  · exact .clean (hw.grew hl h hk hmax hs hi)
  · have hlt := hf.lt
    exact .clean (hw.grew hl h hk (by omega) hs hi)
  · have hlt := hf.lt
    exact (hf.ended hl h hk (by omega) _).mono fun r s' hend _ s'' hs hi => hend s'' hs hi

/-! ## Reading -/

variable {E : Panic → Fs → Prop} {user_dst : Bool}

/-- **The loop of `readi`**, whatever its destination. -/
theorem readFrom_looks (hl : Layout sb) (hs : Sound sb s) (hip : Live sb s.ino ip)
    (ha : Allocated s ip) :
    ∀ fuel tot off dst (s₁ : Fs), off + (n - tot) ≤ (s.ino ip).size → Wrote s s₁ s.view s.ino [] →
      s₁.held = [] →
      wp (readFrom sb pick mem ip user_dst n fuel tot off dst)
        (fun _ s' => Wrote s s' s.view s.ino [] ∧ s'.held = []) E s₁ := by
  have hB : BSIZE = 1024 := rfl
  have hM : MAXFILE = 268 := rfl
  have hsize := ha.size
  rw [hM, hB] at hsize
  intro fuel
  induction fuel with
  | zero =>
    intro tot off dst s₁ _ hw hh
    exact ⟨hw, hh⟩
  | succ fuel ih =>
    intro tot off dst s₁ hoff hw hh
    unfold readFrom
    rw [wp_ite]
    refine ⟨fun hlt => ?_, fun _ => ⟨hw, hh⟩⟩
    have hs₁ : Sound sb s₁ := by
      refine ⟨hw.coherent, ?_⟩
      rw [hw.view, hw.ino]
      exact hs.owned
    have hbn : off / BSIZE < MAXFILE := by
      rw [hM, hB]
      omega
    have hm := ha.mapped off (by omega)
    unfold Mapped at hm
    rw [wp_bind]
    refine (bmap_got hl hs₁ hh (by rw [hw.ino]; exact hip) hbn).mono fun b s₂ h₂ => ?_
    obtain ⟨hgot, hh₂, -⟩ := h₂
    have hlook := hgot.look (by rw [hw.view, hw.ino]; exact hm)
    have hfull := hgot.full
    rw [hw.view, hw.ino] at hlook hfull
    have hw₂ := hw.look hlook
    rw [wp_ite]
    refine ⟨fun hz => absurd (hfull hz).1 hm, fun _ => ?_⟩
    rw [wp_bind]
    refine bread_wp hw₂.coherent (by rw [hh₂]; exact List.not_mem_nil) fun s₃ hw₃ hh₃ => ?_
    rw [hw₂.view, hw₂.ino] at hw₃
    dsimp only
    generalize either_copyout mem user_dst dst (min (n - tot) (BSIZE - off % BSIZE)) = r
    obtain ⟨done, ok⟩ := r
    have hh₄ : (s₃.drop b).held = [] := by
      show s₃.held.erase b = []
      rw [hh₃, hh₂, List.erase_cons_head]
    have hw₄ := (hw₂.look hw₃).drop b
    rw [wp_bind]
    show wp (ite _ _ _) _ E (s₃.drop b)
    rw [wp_ite]
    refine ⟨fun _ => ⟨hw₄, hh₄⟩, fun _ => ?_⟩
    rw [wp_bind]
    exact ih _ _ _ _ (by omega) hw₄ hh₄

theorem readi_looks (hl : Layout sb) (hs : Sound sb s) (hh : s.held = []) (hip : Live sb s.ino ip)
    (ha : Allocated s ip) (hoff : off < 2 ^ 32) (hn : n < 2 ^ 32) {dst : Nat} :
    wp (readi sb pick mem ip user_dst dst off n)
      (fun _ s' => Wrote s s' s.view s.ino [] ∧ s'.held = []) E s := by
  have hrefl := Wrote.refl hs.coherent
  unfold readi
  rw [wp_bind, wp_get, wp_ite]
  refine ⟨fun _ => ⟨hrefl, hh⟩, fun hr => readFrom_looks hl hs hip ha _ _ _ _ s ?_ hrefl hh⟩
  split <;> omega

/-- **`readi`** changes nothing. -/
theorem Tidy.readi (hl : Layout sb) (h : Tidy sb s) (hk : Locked sb s ip)
    (hoff : off < 2 ^ 32) (hn : n < 2 ^ 32)
    {dst : Nat} :
    wp (readi sb pick mem ip user_dst dst off n)
      (fun _ s' => Wrote s s' s.view s.ino [] ∧ s'.held = []) (fun _ _ => False) s := by
  have hr := h.ready hk
  refine (only_readi sb pick mem user_dst dst off n).wp inodes_self
    ((readi_looks hl hr.sound hr.held hr.isLive
    (h.allocated hk).inodes hoff hn).mono fun _ s' hw _ s'' hs hi => ?_)
  obtain ⟨hw, hh⟩ := hw
  have hself : s'.ino ip = s.ino ip := by
    rw [hw.ino]
    exact inodes_self
  rw [hself, Function.update_eq_self] at hi
  rw [← hs] at hw hh
  exact ⟨⟨⟨hw.coherent.clean, hw.coherent.pinned, hw.coherent.held⟩, hw.view, hi, hw.disk, hw.lh,
    hw.op, hw.valid,
    hw.ref⟩, hh⟩

end Xv6.Files
