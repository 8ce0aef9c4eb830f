import Xv6.Files.Content

/-!
# A source that ends early

`either_copyin` copies into the buffer of the block and may fail half-way; `writei` then
lets the buffer go without `log_write`. The bytes that came before the failure are in
the cache: they are not counted in what `writei` returns, and need not be in the log.

`Smears` says, of the state before the call, when that shows: the piece in which the
source ends goes to a block the file already has, and one of its readable bytes
differs from the byte there, which is one of the file's or in a block that the log does
not have.

  > `reports_iff`: a call of `writei` does what it reports, whatever buffers are recycled
  > meanwhile, if and only if it does not smear.
-/

namespace Xv6.Files

open Lib
open Lib.Bytes (blit)
open Mkfs (Block Dinode Superblock zeroes BSIZE NDIRECT NINDIRECT MAXFILE)

variable {sb : Superblock} {pick : Nat → Option Nat} {s s₁ s' : Fs} {ip : Nat} {mem : Mem}
  {user_src : Bool} {addr off n tot a : Nat} {l : List UInt8} {E : Panic → Fs → Prop}

/-- `r` bytes were written, and every buffer is the block on the disk or in the log. -/
structure Reports (s : Fs) (ip off : Nat) (src : Nat → UInt8) (r : Int) (s' : Fs) : Prop where
  size : (s'.ino ip).size =
    if r.toNat = 0 then (s.ino ip).size else max (s.ino ip).size (off + r.toNat)
  byte : ∀ k, k < (s'.ino ip).size → fileByte s'.view (s'.ino ip) k =
    if off ≤ k ∧ k < off + r.toNat then src (k - off) else fileByte s.view (s.ino ip) k
  cache : ∀ b data, s'.cache b = some data → b ∉ s'.held → s'.disk b = data ∨ b ∈ s'.lh

/-- The source ends at `acc`, in a piece that goes to a block which is there and is reached, and a
byte before it is another than the one there. -/
structure Smears (sb : Superblock) (mem : Mem) (user_src : Bool) (s : Fs)
    (ip addr off n acc : Nat) : Prop where
  accepted : ¬Refused (s.ino ip) off n
  lt : acc < n
  stop : byteAt mem user_src (addr + acc) = none
  first : ∀ k, k < acc → byteAt mem user_src (addr + k) ≠ none
  there : (slotOf ((off + acc) / BSIZE)).addr s.view (s.ino ip) ≠ 0
  reached : missing s.view (s.ino ip) (off / BSIZE) ((off + acc) / BSIZE)
    ≤ (freeList sb s.view).length
  differs : ∃ k, off ≤ k ∧ (off + acc) / BSIZE * BSIZE ≤ k ∧ k < off + acc ∧
    srcByte mem user_src addr (k - off) ≠ fileByte s.view (s.ino ip) k ∧
      (k < (s.ino ip).size ∨ (slotOf ((off + acc) / BSIZE)).addr s.view (s.ino ip) ∉ s.lh)

/-! ## The buffer -/

/-- What the store does to the buffers. -/
theorem smear_cache (s : Fs) (a : Nat) (f : Block → Block) :
    (s.smear pick a f).cache a = some (f (s.view a)) ∧
      ∀ c, c ≠ a → (s.smear pick a f).cache c = (s.load pick a).cache c := by
  refine ⟨?_, fun c hc => Function.update_of_ne hc _ _⟩
  have hu : Function.update (s.load pick a).cache a (((s.load pick a).cache a).map f) a
      = ((s.load pick a).cache a).map f := Function.update_self _ _ _
  exact hu.trans (by rw [(load_loaded s a).some, Option.map_some])

theorem smear_rest (s : Fs) (a : Nat) (f : Block → Block) (hh : s.held = []) :
    (s.smear pick a f).held = [] ∧ (s.smear pick a f).lh = s.lh ∧ (s.smear pick a f).disk = s.disk ∧
      (s.smear pick a f).op = s.op ∧ (s.smear pick a f).ino = s.ino ∧
      (s.smear pick a f).valid = s.valid ∧
      (s.smear pick a f).ref = s.ref := by
  obtain ⟨hheld, hlh, hdisk, hop, hino, hvalid, href⟩ := @load_rest pick s a
  refine ⟨?_, hlh, hdisk, hop, hino, hvalid, href⟩
  show (s.load pick a).held.erase a = []
  rw [hheld, hh, List.erase_cons_head]

/-- **No harm** in a block of the log, or when the bytes are those that were there. -/
theorem smear_wrote (hc : Coherent s) (hh : s.held = []) {f : Block → Block}
    (ha : a ∈ s.lh ∨ f (s.view a) = s.view a) :
    Wrote s (s.smear pick a f) (Function.update s.view a (f (s.view a))) s.ino [] := by
  have hw := @Wrote.load _ pick hc a
  obtain ⟨hself, hother⟩ := @smear_cache pick s a f
  obtain ⟨hheld, hlh, hdisk, hop, hino, hvalid, href⟩ := @smear_rest pick s a f hh
  have hlh' : (s.load pick a).lh = s.lh := hlh
  refine ⟨⟨fun {c data} hcd hn => ?_, fun {c} hm => ?_, fun {c} hm => ?_⟩, funext fun c => ?_,
    hino, hdisk,
    fun c => by rw [hlh]; simp, fun c => by rw [hop]; simp, hvalid, href⟩
  · by_cases hca : c = a
    · subst hca
      rw [hself] at hcd
      rw [hlh] at hn
      rw [hdisk, ← Option.some.inj hcd, ha.resolve_left hn, hc.view_eq hn]
    · rw [hother c hca] at hcd
      exact hw.coherent.clean hcd (by rw [hlh'] at *; rwa [hlh] at hn)
  · by_cases hca : c = a
    · rw [hca, hself]
      exact Option.some_ne_none _
    · rw [hother c hca]
      exact hw.coherent.pinned (by rw [hlh']; rwa [hlh] at hm)
  · rw [hheld] at hm
    cases hm
  · by_cases hca : c = a
    · rw [hca, Function.update_self]
      exact view_of_some hself
    · rw [Function.update_of_ne hca, ← hw.view]
      unfold Fs.view
      rw [hother c hca]
      rfl

/-- What is left when no buffer is recycled. -/
structure Left (sb : Superblock) (s₁ : Fs) (ip a : Nat) (f : Block → Block) (off : Nat)
    (s' : Fs) : Prop where
  cache : s'.cache a = some (f (s₁.view a))
  view : ∀ c, c ≠ a → c ≠ IBLOCK sb ip → s'.view c = s₁.view c
  disk : s'.disk = s₁.disk
  lh : ∀ c, c ≠ IBLOCK sb ip → (c ∈ s'.lh ↔ c ∈ s₁.lh)
  held : s'.held = []
  ino : s'.ino ip = bump off (s₁.ino ip)

theorem load_none (s : Fs) (b c : Nat) (hc : c ≠ b) :
    (s.load (fun _ => none) b).cache c = s.cache c := by
  unfold Fs.load
  split
  next => rfl
  next => exact Function.update_of_ne hc _ _

theorem finish_left {Q : Int → Fs → Prop} {f : Block → Block} (hh : s₁.held = [])
    (ha : a ≠ IBLOCK sb ip)
    (hQ : ∀ s', Left sb s₁ ip a f off s' → Q tot s') :
    wp (finish sb (fun _ => none) ip tot off) Q E (s₁.smear (fun _ => none) a f) := by
  obtain ⟨hself, hother⟩ := @smear_cache (fun _ => none) s₁ a f
  obtain ⟨hheld, hlh, hdisk, -, hino, -, -⟩ := @smear_rest (fun _ => none) s₁ a f hh
  generalize s₁.smear (fun _ => none) a f = s₂ at *
  have hcache : ∀ c, c ≠ a → s₂.cache c = s₁.cache c := fun c hc => by
    rw [hother c hc, load_none s₁ a c hc]
  unfold finish
  rw [wp_bind]
  show wp (iupdate sb (fun _ => none) ip >>= _) Q E
    { s₂ with ino := Function.update s₂.ino ip (bump off (s₂.ino ip)) }
  rw [wp_bind]
  unfold iupdate
  rw [wp_bind]
  refine bread_load (by show _ ∉ s₂.held; rw [hheld]; exact List.not_mem_nil) ?_
  generalize hd : Function.update s₂.ino ip (bump off (s₂.ino ip)) = I
  obtain ⟨hh₃, hlh₃, hdisk₃, -, hino₃, -, -⟩ :=
    @load_rest (fun _ => none) { s₂ with ino := I } (IBLOCK sb ip)
  have hc₃ : ∀ c, c ≠ IBLOCK sb ip →
      ({ s₂ with ino := I }.load (fun _ => none) (IBLOCK sb ip)).cache c = s₂.cache c :=
    fun c hc => load_none _ _ c hc
  generalize hs₃ : ({ s₂ with ino := I } : Fs).load (fun _ => none) (IBLOCK sb ip) = s₃ at *
  rw [wp_bind, wp_get]
  generalize hg : (fun data => Mkfs.setDinode data (Mkfs.dinodeOff ip) (s₃.ino ip)) = g
  refine hQ ((s₃.edit (IBLOCK sb ip) g).drop (IBLOCK sb ip)) ⟨?_, fun c hca hci => ?_, ?_,
    fun c hci => ?_, ?_, ?_⟩
  · show Function.update s₃.cache (IBLOCK sb ip) _ a = _
    rw [Function.update_of_ne ha, hc₃ a ha, hself]
  · unfold Fs.view
    show (Function.update s₃.cache (IBLOCK sb ip) _ c).getD (s₃.disk c) = _
    rw [Function.update_of_ne hci, hc₃ c hci, hcache c hca, hdisk₃]
    show (s₁.cache c).getD (s₂.disk c) = _
    rw [hdisk]
  · show s₃.disk = _
    rw [hdisk₃]
    exact hdisk
  · show c ∈ (s₃.edit (IBLOCK sb ip) g).lh ↔ _
    rw [mem_edit_lh, hlh₃]
    show c ∈ s₂.lh ∨ _ ↔ _
    rw [hlh]
    exact or_iff_left hci
  · show s₃.held.erase (IBLOCK sb ip) = []
    rw [hh₃]
    show (IBLOCK sb ip :: s₂.held).erase _ = []
    rw [List.erase_cons_head, hheld]
  · show s₃.ino ip = _
    rw [hino₃]
    show I ip = _
    rw [← hd, Function.update_self, hino]

/-! ## The piece in which the source ends -/

/-- Where the source ends, and what was copied. -/
structure Ends (mem : Mem) (user_src : Bool) (addr off n tot : Nat) (l : List UInt8) : Prop where
  lt : tot + l.length < n
  stop : byteAt mem user_src (addr + (tot + l.length)) = none
  first : ∀ k, k < tot + l.length → byteAt mem user_src (addr + k) ≠ none
  block : (off + (tot + l.length)) / BSIZE = (off + tot) / BSIZE
  fits : (off + tot) % BSIZE + l.length < BSIZE
  bytes : ∀ j, j < l.length → l.getD j 0 = srcByte mem user_src addr (tot + j)

theorem Fault.ends (hf : Fault sb mem user_src addr n s ip off tot s₁ a l)
    (hread : ∀ k, k < tot → byteAt mem user_src (addr + k) ≠ none) :
    Ends mem user_src addr off n tot l := by
  have hB : BSIZE = 1024 := rfl
  have hcop := either_copyin_copied mem user_src (addr + tot) (piece off n tot)
  rw [hf.copy] at hcop
  obtain ⟨hlen, hstop⟩ := hcop.stop rfl
  have hbytes := hcop.bytes
  dsimp only at hlen hstop hbytes
  unfold piece at hlen
  rw [hB] at hlen
  refine ⟨by omega, by rw [← Nat.add_assoc]; exact hstop,
    fun k hk => ?_, by rw [hB]; omega, by rw [hB]; omega,
    fun j hj => ?_⟩
  · by_cases hkt : k < tot
    · exact hread k hkt
    · have hb := hbytes (k - tot) (by omega)
      rw [show addr + tot + (k - tot) = addr + k by omega] at hb
      rw [hb]
      exact Option.some_ne_none _
  · unfold srcByte
    rw [← Nat.add_assoc, hbytes j hj, Option.getD_some]

/-- The source ends once. -/
theorem Ends.eq {acc : Nat} (he : Ends mem user_src addr off n tot l)
    (hstop : byteAt mem user_src (addr + acc) = none)
    (hfirst : ∀ k, k < acc → byteAt mem user_src (addr + k) ≠ none) : acc = tot + l.length := by
  rcases Nat.lt_trichotomy acc (tot + l.length) with h | h | h
  · exact absurd hstop (he.first acc h)
  · exact h
  · exact absurd he.stop (hfirst _ h)

/-- The blocks written before are others. -/
theorem Fault.before (hf : Fault sb mem user_src addr n s ip off tot s₁ a l)
    {k : Nat} (h1 : off ≤ k)
    (h2 : k < off + tot) : k / BSIZE ≠ (off + tot) / BSIZE := by
  have hB : BSIZE = 1024 := rfl
  rcases hf.start with h0 | h0
  · omega
  · rw [hB] at h0 ⊢
    omega

/-- The block that was there is the one that the piece goes to, with the bytes it had. -/
theorem Fault.there (hf : Fault sb mem user_src addr n s ip off tot s₁ a l) (hip : Live sb s.ino ip)
    (hbn : (off + tot) / BSIZE < MAXFILE)
    (h0 : (slotOf ((off + tot) / BSIZE)).addr s.view (s.ino ip) ≠ 0) :
    a = (slotOf ((off + tot) / BSIZE)).addr s.view (s.ino ip) ∧ s₁.view a = s.view a := by
  have ha : a = (slotOf ((off + tot) / BSIZE)).addr s.view (s.ino ip) :=
    hf.slot.symm.trans (hf.written.keep ip _ hip h0)
  have hown := hf.written.own _ hbn h0 fun k h1 h2 => hf.before h1 h2
  rw [← ha] at hown
  exact ⟨ha, hown⟩

/-- The free blocks sufficed up to here. -/
theorem Fault.reached (hf : Fault sb mem user_src addr n s ip off tot s₁ a l)
    (hbn : (off + tot) / BSIZE < MAXFILE)
    (h0 : (slotOf ((off + tot) / BSIZE)).addr s.view (s.ino ip) ≠ 0) :
    missing s.view (s.ino ip) (off / BSIZE) ((off + tot) / BSIZE)
      ≤ (freeList sb s.view).length := by
  have hcount := hf.written.count _ le_rfl hbn h0
  rw [missing_succ _ _ (Nat.div_le_div_right (Nat.le_add_right _ _)), if_neg h0] at hcount
  omega

/-- The store of the readable bytes. -/
theorem blit_eq {l : List UInt8} {o : Nat} {f : Block}
    (h : ∀ j, j < l.length → l.getD j 0 = f (o + j)) :
    blit f o l = f := by
  funext k
  by_cases hk : o ≤ k ∧ k < o + l.length
  · have hb := Bytes.blit_of_in f (o := o) (l := l) (k := k - o) (by omega)
    rw [show o + (k - o) = k by omega] at hb
    have hj := h (k - o) (by omega)
    rw [show o + (k - o) = k by omega] at hj
    rw [hb, hj]
  · exact Bytes.blit_of_out f (by omega)

/-- **Without a smear** the store does not show. -/
theorem Fault.harmless (hl : Layout sb) (hip : Live sb s.ino ip) (ha : Allocated s ip)
    (hr : ¬Refused (s.ino ip) off n) (hmax : off + n ≤ MAXFILE * BSIZE)
    (hf : Fault sb mem user_src addr n s ip off tot s₁ a l)
    (he : Ends mem user_src addr off n tot l)
    (hno : ∀ acc, ¬Smears sb mem user_src s ip addr off n acc) :
    Written sb s (s₁.smear pick a fun data => blit data ((off + tot) % BSIZE) l) ip off (off + tot)
      (srcByte mem user_src addr) := by
  have hB : BSIZE = 1024 := rfl
  have hM : MAXFILE = 268 := rfl
  have hw := hf.written
  have hlt := hf.lt
  have hsize := ha.size
  rw [hM, hB] at hmax hsize
  have hbn : (off + tot) / BSIZE < MAXFILE := by
    rw [hM, hB]
    omega
  -- the block is in the log or keeps its bytes, and those of the file are as they were
  have hkey : (a ∈ s₁.lh ∨ blit (s₁.view a) ((off + tot) % BSIZE) l = s₁.view a) ∧
      ∀ k, k < (s.ino ip).size ∨ k < off + tot → k / BSIZE = (off + tot) / BSIZE →
        blit (s₁.view a) ((off + tot) % BSIZE) l (k % BSIZE) = s₁.view a (k % BSIZE) := by
    by_cases h0 : (slotOf ((off + tot) / BSIZE)).addr s.view (s.ino ip) = 0
    · refine ⟨.inl (hf.fresh h0).2, fun k hk hkb => ?_⟩
      by_cases hks : k < (s.ino ip).size
      · have hm := ha.mapped k hks
        unfold Mapped at hm
        rw [hkb] at hm
        exact absurd h0 hm
      · refine Bytes.blit_of_out _ (.inl ?_)
        rw [hB] at hkb ⊢
        omega
    · obtain ⟨hae, hav⟩ := hf.there hip hbn h0
      have hall : ∀ j, j < l.length → l.getD j 0 = s₁.view a ((off + tot) % BSIZE + j) ∨
          ((s.ino ip).size ≤ off + tot + j ∧ a ∈ s.lh) := by
        intro j hj
        by_contra hc
        rw [not_or, not_and_or] at hc
        obtain ⟨hne, hvis⟩ := hc
        have hfits := he.fits
        rw [hB] at hfits
        refine hno (tot + l.length) ⟨hr, he.lt, he.stop, he.first, ?_, ?_,
          off + tot + j, by omega, ?_,
          by omega, ?_, ?_⟩
        · rw [he.block]
          exact h0
        · rw [he.block]
          exact hf.reached hbn h0
        · rw [he.block, hB]
          omega
        · have hbyte := he.bytes j hj
          unfold fileByte
          rw [hB] at hne hae ⊢
          rw [show off + tot + j - off = tot + j by omega, ← hbyte, show (off + tot + j) / 1024 =
            (off + tot) / 1024
            by omega, show (off + tot + j) % 1024 = (off + tot) % 1024 + j by omega, ← hae, ← hav]
          exact hne
        · rw [he.block, ← hae]
          rcases hvis with h | h
          · exact .inl (by omega)
          · exact .inr h
      have hlog : a ∈ s.lh ∨ ∀ j, j < l.length → l.getD j 0 =
        s₁.view a ((off + tot) % BSIZE + j) := by
        by_cases hin : a ∈ s.lh
        · exact .inl hin
        · exact .inr fun j hj => (hall j hj).resolve_right fun hc => hin hc.2
      refine ⟨hlog.imp (hw.pinned a) blit_eq, fun k hk hkb => ?_⟩
      by_cases hin : (off + tot) % BSIZE ≤ k % BSIZE ∧ k % BSIZE < (off + tot) % BSIZE + l.length
      · have hko : k = off + tot + (k % BSIZE - (off + tot) % BSIZE) := by
          rw [hB] at hkb hin ⊢
          omega
        have hj := (hall (k % BSIZE - (off + tot) % BSIZE) (by omega)).resolve_right fun hc => by
          omega
        have hb := Bytes.blit_of_in (s₁.view a) (o := (off + tot) % BSIZE) (l := l)
          (k := k % BSIZE - (off + tot) % BSIZE) (by omega)
        rw [show (off + tot) % BSIZE + (k % BSIZE - (off + tot) % BSIZE) =
          k % BSIZE by omega] at hb hj
        rw [hb, hj]
      · exact Bytes.blit_of_out _ (by omega)
  have hsm := @smear_wrote pick s₁ a hw.coherent hw.held
    (f := fun data => blit data ((off + tot) % BSIZE) l) hkey.1
  have hslot := hf.slot
  rw [← hslot] at hsm
  refine hw.toWritten.touch hl hip hbn (by rw [hslot]; exact hf.ne_zero)
    (by rw [hslot] at hsm ⊢; exact hsm)
    (smear_rest s₁ a _ hw.held).1 (fun k hk => ⟨by rw [hM, hB]; omega, hw.mapped k hk⟩)
    fun k hk => ?_
  rw [← hw.byte k hk]
  by_cases hkb : k / BSIZE = (off + tot) / BSIZE
  · rw [if_pos hkb, hkey.2 k hk hkb]
    unfold fileByte
    rw [hkb, hslot]
  · rw [if_neg hkb]

/-- A block of the file that was not logged before is not logged by the pieces before it. -/
theorem Fault.not_logged (hl : Layout sb) (hs : Sound sb s) (hip : Live sb s.ino ip)
    (hmax : off + n ≤ MAXFILE * BSIZE) (hf : Fault sb mem user_src addr n s ip off tot s₁ a l)
    (h0 : (slotOf ((off + tot) / BSIZE)).addr s.view (s.ino ip) ≠ 0) (ha : a ∉ s.lh) :
    a ∉ s₁.lh := by
  have hB : BSIZE = 1024 := rfl
  have hM : MAXFILE = 268 := rfl
  have hlt := hf.lt
  rw [hM, hB] at hmax
  have hbn : (off + tot) / BSIZE < MAXFILE := by
    rw [hM, hB]
    omega
  obtain ⟨hae, -⟩ := hf.there hip hbn h0
  have hown := owner_some.mpr ⟨hip, rfl, h0⟩
  intro hin
  rcases hf.written.log a hin with h | h | ⟨k, h1, h2, hk⟩
  · exact ha h
  · rcases h with h | ⟨-, h⟩ | ⟨h, hz⟩
    · rw [hae] at h
      exact hl.not_bitmap (hs.owned.addr_data hip h0) h
    · rw [hae] at h
      exact h (hs.owned.used hown)
    · rw [hae] at h
      exact slotOf_ne_indirect _ (hs.owned.once (τ := .indirect) hip hip h0 h).2
  · have hip₁ := (hf.written.live ip).mpr hip
    have hslot := hf.slot
    rw [← hslot] at hk
    have hsame := (hf.written.owned.once hip₁ hip₁ (by rw [hslot]; exact hf.ne_zero) hk).2
    have hkm : k / BSIZE < MAXFILE := by
      rw [hM, hB]
      omega
    exact hf.before h1 h2 (slotOf_inj hbn hkm hsame).symm

/-- **A smear shows**, in the bytes of the file or in the cache. -/
theorem Smears.not_reports {acc : Nat} (hsm : Smears sb mem user_src s ip addr off n acc)
    (hl : Layout sb)
    (hs : Sound sb s) (hip : Live sb s.ino ip) (hmax : off + n ≤ MAXFILE * BSIZE)
    (hf : Fault sb mem user_src addr n s ip off tot s₁ a l)
    (he : Ends mem user_src addr off n tot l)
    (hleft : Left sb s₁ ip a (fun data => blit data ((off + tot) % BSIZE) l) (off + tot) s') :
    ¬Reports s ip off (srcByte mem user_src addr) tot s' := by
  have hB : BSIZE = 1024 := rfl
  have hM : MAXFILE = 268 := rfl
  have hlt := hf.lt
  have hbn : (off + tot) / BSIZE < MAXFILE := by
    rw [hM, hB] at hmax
    rw [hM, hB]
    omega
  have hacc := he.eq hsm.stop hsm.first
  have h0 := hsm.there
  have hdiff := hsm.differs
  rw [hacc, he.block] at h0 hdiff
  obtain ⟨k, hk1, hk2, hk3, hne, hvis⟩ := hdiff
  obtain ⟨hae, hav⟩ := hf.there hip hbn h0
  have hfits := he.fits
  have hkt : off + tot ≤ k := by
    rcases hf.start with h | h
    · omega
    · rw [hB] at h hk2
      omega
  have hkb : k / BSIZE = (off + tot) / BSIZE := by
    rw [hB] at hfits hk2 ⊢
    omega
  have hmod : k % BSIZE = (off + tot) % BSIZE + (k - (off + tot)) := by
    rw [hB] at hfits hk2 hkb ⊢
    omega
  have hstored : blit (s₁.view a) ((off + tot) % BSIZE) l (k % BSIZE) =
    srcByte mem user_src addr (k - off) := by
    rw [hmod, Bytes.blit_of_in _ (by omega), he.bytes _ (by omega)]
    rw [show tot + (k - (off + tot)) = k - off by omega]
  have hold : s.view a (k % BSIZE) = fileByte s.view (s.ino ip) k := by
    unfold fileByte
    rw [hkb, ← hae]
  have hip₁ := (hf.written.live ip).mpr hip
  have hda : Data sb a := by
    have hd := hf.written.owned.addr_data hip₁ (by rw [hf.slot]; exact hf.ne_zero)
    rwa [hf.slot] at hd
  have hai : a ≠ IBLOCK sb ip := fun h => hl.not_inode hda hip.1 h.symm
  intro hrep
  rcases hvis with hks | hlog
  · -- the byte is one of the file's
    have hsize : (s₁.ino ip).size = (s.ino ip).size := by rw [hf.written.same]
    have hb := hrep.byte k (by rw [hleft.ino, bump_size, hsize]; omega)
    rw [Int.toNat_natCast, if_neg (by omega)] at hb
    have haddr : (slotOf ((off + tot) / BSIZE)).addr s'.view (s'.ino ip) = a := by
      rw [← hf.slot, hleft.ino]
      refine addr_congr _ (fun i _ => by rw [bump_addrs]) fun hz => ?_
      have hind := hf.written.owned.addr_data (σ := .indirect) hip₁ hz
      refine hleft.view _ (fun hc => ?_) fun hc => hl.not_inode hind hip.1 hc.symm
      rw [← hf.slot] at hc
      exact slotOf_ne_indirect _ (hf.written.owned.once (σ := .indirect) hip₁ hip₁ hz hc).2.symm
    unfold fileByte at hb
    rw [hkb, haddr, view_of_some hleft.cache, hstored] at hb
    rw [← hkb] at hb
    exact hne hb
  · -- the buffer is neither the block on the disk nor in the log
    rw [← hae] at hlog
    rcases hrep.cache a _ hleft.cache (by rw [hleft.held]; exact List.not_mem_nil) with h | h
    · rw [hleft.disk, hf.written.disk, ← hs.coherent.view_eq hlog] at h
      have hkk := congrFun h (k % BSIZE)
      rw [hold, hstored] at hkk
      exact hne hkk.symm
    · exact hf.not_logged hl hs hip hmax h0 hlog ((hleft.lh a hai).mp h)

/-! ## The call -/

theorem Coherent.cache (hc : Coherent s) (b : Nat) (data : Block) (h : s.cache b = some data) :
    s.disk b = data ∨ b ∈ s.lh := by
  by_cases hb : b ∈ s.lh
  · exact .inr hb
  · exact .inl (hc.clean h hb)

theorem Wrotei.reports {src : Nat → UInt8} (h : Wrotei sb s s' ip off tot src)
    (hoff : off ≤ (s.ino ip).size) :
    Reports s ip off src tot s' := by
  refine ⟨?_, fun k hk => ?_, fun b data hb _ => h.sound.coherent.cache b data hb⟩
  · rw [Int.toNat_natCast, h.size]
    split <;> omega
  · rw [Int.toNat_natCast]
    exact h.byte k hk

theorem Reports.refl {src : Nat → UInt8} (hc : Coherent s) : Reports s ip off src (-1) s := by
  refine ⟨rfl, fun k _ => ?_, fun b data hb _ => hc.cache b data hb⟩
  rw [show (-1 : Int).toNat = 0 from rfl, if_neg (by omega)]

/-- It does what it reports, on whatever buffers are recycled. -/
def AlwaysReports (sb : Superblock) (mem : Mem) (user_src : Bool) (s : Fs)
    (ip addr off n : Nat) : Prop :=
  ∀ pick, wp (writei sb pick mem ip user_src addr off n)
    (Reports s ip off (srcByte mem user_src addr))
    (fun _ _ => False) s

theorem wp_contra {α : Type} {m : Kern α} {Q : α → Fs → Prop} (h : wp m Q (fun _ _ => False) s)
    (h' : wp m (fun r s' => ¬Q r s') E s) : False := by
  unfold wp at h h'
  cases hx : exec m s with
  | mk r s' =>
    rw [hx] at h h'
    cases r with
    | ok a => exact h' h
    | error e => exact h

theorem sound_reports_iff (hl : Layout sb) (hs : Sound sb s) (hh : s.held = [])
    (hip : Live sb s.ino ip)
    (hfit : (s.ino ip).Fits) (ha : Allocated s ip) (hoff : off < 2 ^ 32) (hn : n < 2 ^ 32) :
    AlwaysReports sb mem user_src s ip addr off n ↔
      ∀ acc, ¬Smears sb mem user_src s ip addr off n acc := by
  constructor
  · intro hall acc hsm
    have hmax := (not_refused hoff hn hsm.accepted).2
    refine wp_contra (E := fun _ _ => True) (hall fun _ => none) ?_
    refine writei_wp hl hs hh hip hfit ha hoff hn (fun hr => absurd hr hsm.accepted)
      (fun _ s' hread _ => absurd hsm.stop (hread acc hsm.lt)) (fun _ tot s' hread hf _ _ => ?_)
      fun _ tot s₁ a l hread hf => ?_
    · -- the disk was full before
      exfalso
      have hB : BSIZE = 1024 := rfl
      have hM : MAXFILE = 268 := rfl
      have hge : tot ≤ acc := by
        by_contra hc
        exact hread acc (by omega) hsm.stop
      have hle : (off + tot) / BSIZE ≤ (off + acc) / BSIZE := Nat.div_le_div_right (by omega)
      have hne : (off + tot) / BSIZE ≠ (off + acc) / BSIZE := fun he => hsm.there (he ▸ hf.empty)
      have hlt := hsm.lt
      have hbn : (off + acc) / BSIZE < MAXFILE := by
        rw [hM, hB] at hmax
        rw [hM, hB]
        omega
      have hcount := hf.count _ (by omega) hbn hsm.there
      have hsucc := missing_succ s.view (s.ino ip) (a := off / BSIZE) (b := (off + tot) / BSIZE)
        (Nat.div_le_div_right (Nat.le_add_right _ _))
      rw [if_pos hf.empty] at hsucc
      have hmono := missing_mono s.view (s.ino ip) (off / BSIZE)
        (show (off + tot) / BSIZE + 1 ≤ (off + acc) / BSIZE by omega)
      have hreached := hsm.reached
      omega
    · have hip₁ := (hf.written.live ip).mpr hip
      have hda : Data sb a := by
        have hd := hf.written.owned.addr_data hip₁ (by rw [hf.slot]; exact hf.ne_zero)
        rwa [hf.slot] at hd
      exact finish_left hf.written.held (fun h => hl.not_inode hda hip.1 h.symm) fun s' hleft =>
        hsm.not_reports hl hs hip hmax hf (hf.ends hread) hleft
  · intro hno pick
    refine writei_wp hl hs hh hip hfit ha hoff hn (fun _ => Reports.refl hs.coherent)
      (fun hr s' _ h => h.reports (not_refused hoff hn hr).1)
      (fun hr tot s' _ _ _ h => h.reports (not_refused hoff hn hr).1)
      fun hr tot s₁ a l hread hf => ?_
    obtain ⟨hle, hmax⟩ := not_refused hoff hn hr
    have hlt := hf.lt
    exact finish_wp (hf.harmless hl hip ha hr hmax (hf.ends hread) hno) hl hip hfit (by omega)
      fun s' h _ => h.reports hle

theorem Smears.inodes {O : Nat → Dinode} {acc : Nat} (ho : O ip = s.ino ip)
    (h : Smears sb mem user_src (s.inodes O) ip addr off n acc) :
    Smears sb mem user_src s ip addr off n acc := by
  have hi : (s.inodes O).ino ip = s.ino ip := ho
  obtain ⟨h1, h2, h3, h4, h5, h6, h7⟩ := h
  rw [hi] at h1 h5 h6
  simp only [hi] at h7
  exact ⟨h1, h2, h3, h4, h5, h6, h7⟩

theorem AlwaysReports.inodes {O : Nat → Dinode} (ho : O ip = s.ino ip)
    (h : AlwaysReports sb mem user_src s ip addr off n) :
    AlwaysReports sb mem user_src (s.inodes O) ip addr off n := by
  intro pick
  refine (only_writei sb pick mem user_src addr off n).wp (O := s.ino) ho.symm
    ((h pick).mono fun r s' hrep _ s'' hs hi => ?_)
  have hi' : s''.ino ip = s'.ino ip := by rw [hi, Function.update_self]
  have hb : (s.inodes O).ino ip = s.ino ip := ho
  have hv : (s''.inodes s'.ino).view = s'.view := congrArg Fs.view hs
  have hv : s''.view = s'.view := hv
  have hc : (s''.inodes s'.ino).cache = s'.cache := congrArg Fs.cache hs
  have hd : (s''.inodes s'.ino).disk = s'.disk := congrArg Fs.disk hs
  have hh : (s''.inodes s'.ino).held = s'.held := congrArg Fs.held hs
  have hl : (s''.inodes s'.ino).lh = s'.lh := congrArg Fs.lh hs
  refine ⟨?_, fun k hk => ?_, fun b data hb hnh => ?_⟩
  · rw [hi', hb]
    exact hrep.size
  · rw [hi'] at hk
    rw [hi', hb, hv]
    exact hrep.byte k hk
  · have hcb : s'.cache b = some data := (congrFun hc b).symm.trans hb
    have hr := hrep.cache b data hcb (by rw [← hh]; exact hnh)
    rw [← hd, ← hl] at hr
    exact hr

/-- **A faulting write** changes what it reports, and no more, if and only if it does not smear. -/
theorem reports_iff (hl : Layout sb) (hr : Ready sb s ip) (ha : Allocated s ip)
    (hoff : off < 2 ^ 32)
    (hn : n < 2 ^ 32) :
    AlwaysReports sb mem true s ip addr off n ↔ ∀ acc, ¬Smears sb mem true s ip addr off n acc := by
  have hself : inodes sb s ip ip = s.ino ip := inodes_self
  have hiff : AlwaysReports sb mem true (s.inodes (Files.inodes sb s ip)) ip addr off n ↔
      ∀ acc, ¬Smears sb mem true (s.inodes (Files.inodes sb s ip)) ip addr off n acc :=
    sound_reports_iff hl hr.sound hr.held hr.isLive hr.fits_inodes ha.inodes hoff hn
  constructor
  · intro h acc hsm
    refine hiff.mp (h.inodes hself) acc ?_
    exact Smears.inodes (s := s.inodes (Files.inodes sb s ip)) (O := s.ino) hself.symm hsm
  · intro h
    have hall := hiff.mpr fun acc hsm => h acc (hsm.inodes hself)
    exact AlwaysReports.inodes (s := s.inodes (Files.inodes sb s ip)) (O := s.ino) hself.symm hall

/-! ## A smear -/

/-- Inode 1 has a block of zeroes, which is not in the cache. -/
def torn : Fs where
  disk b := if b = 3 then Mkfs.bitmap 21 else zeroes
  cache _ := none
  lh := []
  held := []
  turn := 0
  op := []
  ino _ := ⟨Mkfs.T_FILE, 0, 0, 1, 1024, fun i => if i = 0 then 20 else 0⟩
  valid i := i == 1
  ref i := if i = 1 then 1 else 0

/-- The first page of the user is there, and no other. -/
def tornMem : Mem :=
  ⟨fun va0 => if va0 = 0 then some fun _ => 65 else none, fun _ => false, fun _ => 0⟩

theorem torn_used {b : Nat} (hb : b < 40) : used small torn.view b ↔ b < 21 := by
  have hz : BBLOCK small b = 3 := by
    show b / 8192 + 3 = 3
    omega
  have hm : b % Mkfs.BPB = b := Nat.mod_eq_of_lt (show b < 8192 by omega)
  unfold used
  rw [hz, hm]
  exact Mkfs.marked_bitmap 21 b

theorem torn_owner (p : Nat × Mkfs.Slot) : owner small torn.view (inodes small torn 1) p =
    if p = (1, slotOf 0) then some 20 else none := by
  obtain ⟨i, σ⟩ := p
  unfold owner
  split
  next hlive =>
    obtain ⟨hi, ht⟩ := hlive
    dsimp only at hi ht ⊢
    by_cases h1 : i = 1
    · rw [h1, inodes_self]
      cases σ with
      | direct j =>
        by_cases hj : j = ⟨0, by decide⟩
        · rw [hj]
          rfl
        · have hne : j.val ≠ 0 := fun h => hj (Fin.ext h)
          have hslot : (1, Mkfs.Slot.direct j) ≠ (1, slotOf 0) := fun h =>
            hj (Mkfs.Slot.direct.inj (Prod.mk.inj h).2)
          rw [if_neg hslot]
          show Mkfs.nonzero (if j.val = 0 then 20 else 0) = none
          rw [if_neg hne]
          rfl
      | indirect => rfl
      | entry j =>
        have hslot : (1, Mkfs.Slot.entry j) ≠ (1, slotOf 0) :=
          fun h => Mkfs.Slot.noConfusion (Prod.mk.inj h).2
        rw [if_neg hslot]
        rfl
    · rw [inodes_ne h1] at ht
      refine absurd ?_ ht
      refine Bytes.get_zero fun k _ => ?_
      have hi : i < 16 := hi
      have hb : IBLOCK small i = 2 := by
        show i / 16 + 2 = 2
        omega
      rw [hb]
      rfl
  next hdead =>
    rw [if_neg fun h => hdead ?_]
    rw [(Prod.mk.inj h).1]
    refine ⟨show 1 < 16 by omega, ?_⟩
    rw [inodes_self]
    decide

theorem torn_ready : Ready small torn 1 where
  coherent := ⟨fun h => (by cases h), fun h => (by cases h), fun h => (by cases h)⟩
  held := rfl
  live := ⟨by decide, by decide⟩
  fits := ⟨by decide, by decide, by decide, by decide, by decide, fun i _ => by
    show (if i = 0 then 20 else 0) < 256 ^ 4
    split <;> decide⟩
  owned := by
    have hown : ∀ {p b}, owner small torn.view (inodes small torn 1) p = some b → p =
      (1, slotOf 0) ∧ b = 20 := by
      intro p b hp
      rw [torn_owner] at hp
      split at hp
      next he => exact ⟨he, (Option.some.inj hp).symm⟩
      next => cases hp
    refine ⟨⟨freeList_nodup _, fun b => ?_, fun {b q} hq hm => ?_, fun {q r b} hq hr => ?_⟩,
      fun b hb => ?_⟩
    · rw [mem_freeList]
      constructor
      · intro hd
        have hd2 : b < 40 := hd.2
        have hd1 : 20 ≤ b := hd.1
        by_cases he : b = 20
        · exact .inr ⟨(1, slotOf 0), by rw [torn_owner, if_pos rfl, he]⟩
        · exact .inl ⟨hd, by rw [torn_used hd2]; omega⟩
      · rintro (h | ⟨q, hq⟩)
        · exact h.1
        · rw [(hown hq).2]
          exact ⟨by decide, by decide⟩
    · rw [(hown hq).2] at hm
      exact (mem_freeList.mp hm).2 ((torn_used (by decide)).mpr (by decide))
    · rw [(hown hq).1, (hown hr).1]
    · have hb : b < 20 := hb
      exact (torn_used (by omega)).mpr (by omega)

theorem torn_allocated : Allocated torn 1 where
  size := by decide
  mapped k hk := by
    have hk : k < 1024 := hk
    unfold Mapped
    rw [show k / BSIZE = 0 from Nat.div_eq_of_lt hk]
    decide

/-- Three bytes of the page that is there go over the file as they should. Of the two that end at
its edge, the first is left in the buffer. -/
theorem reports_iff_torn : AlwaysReports small tornMem true torn 1 0 1 3 ∧
    ¬AlwaysReports small tornMem true torn 1 4095 0 2 := by
  refine ⟨(reports_iff small_layout torn_ready torn_allocated (by decide) (by decide)).mpr ?_,
    fun h => (reports_iff small_layout torn_ready torn_allocated (by decide)
      (by decide)).mp h 1 ?_⟩
  · intro acc hsm
    have hlt := hsm.lt
    have hstop := hsm.stop
    obtain rfl | rfl | rfl : acc = 0 ∨ acc = 1 ∨ acc = 2 := by omega
    all_goals exact absurd hstop (by decide)
  · refine ⟨?_, by decide, by decide, fun k hk => ?_, by decide, ?_, 0, le_rfl, by decide,
      by decide, by decide, .inl (by decide)⟩
    · unfold Refused
      decide
    · obtain rfl : k = 0 := by omega
      decide
    · exact Nat.zero_le _

/-- Two bytes, the second on a page that is not there: `writei` returns 0, and the first byte is in
the buffer, but neither on the disk nor in the log. -/
theorem torn_not_reports : Ready small torn 1 ∧ Allocated torn 1 ∧
    ¬AlwaysReports small tornMem true torn 1 4095 0 2 := by
  refine ⟨torn_ready, torn_allocated, fun h => ?_⟩
  have hw := h fun _ => none
  unfold wp at hw
  have hcache : ((exec (writei small (fun _ => none) tornMem 1 true 4095 0 2) torn).2.cache 20).map
      (fun data => data 0) = some 65 := by decide +kernel
  have hdisk :
    (exec (writei small (fun _ => none) tornMem 1 true 4095 0 2) torn).2.disk 20 0 = 0 := by
    decide +kernel
  have hheld : 20 ∉ (exec (writei small (fun _ => none) tornMem 1 true 4095 0 2) torn).2.held := by
    decide +kernel
  have hlog : 20 ∉ (exec (writei small (fun _ => none) tornMem 1 true 4095 0 2) torn).2.lh := by
    decide +kernel
  cases hx : exec (writei small (fun _ => none) tornMem 1 true 4095 0 2) torn with
  | mk r s' =>
    rw [hx] at hw hcache hdisk hheld hlog
    cases r with
    | error e => exact hw
    | ok r =>
      obtain ⟨data, hd, h65⟩ := Option.map_eq_some_iff.mp hcache
      rcases hw.cache 20 data hd hheld with he | he
      · dsimp only at hdisk
        rw [he, h65] at hdisk
        cases hdisk
      · exact hlog he

end Xv6.Files
