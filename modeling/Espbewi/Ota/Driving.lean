import Espbewi.Ota.Artifact
import Espbewi.Lib.Filling
import Espbewi.Lib.PowerCut

/-! Driving a stream through the artifact storage, in chunks and with interruptions. -/

namespace Espbewi

open Lib Nor

namespace EspArtifactStorage

variable (g : Geometry) (w : Nat)

/-! ### The content of the partition -/

/-- `S`, then zeros up to a multiple of the write size, then erased bytes up to a whole sector. -/
def sectors (S : List UInt8) : List UInt8 :=
  block g S ++ List.replicate (roundUp g.eraseSize S.length - padded g S.length) 0xFF

variable {g : Geometry} {w : Nat}

theorem padded_le_roundUp (n : Nat) : padded g n ≤ roundUp g.eraseSize n := by
  have hdvd : g.writeSize ∣ roundUp g.eraseSize n := g.write_dvd.trans (dvd_roundUp ..)
  have hmono := roundUp_mono g.writeSize (le_roundUp g.erase_pos n)
  rwa [roundUp_of_dvd (write_pos g) hdvd] at hmono

theorem sectors_length (S : List UInt8) : (sectors g S).length = roundUp g.eraseSize S.length := by
  have := padded_le_roundUp (g := g) S.length
  rw [sectors, List.length_append, block_length, List.length_replicate]
  omega

theorem getD_block (bytes : List UInt8) (j : Nat) : (block g bytes).getD j 0xFF =
    if j < bytes.length then bytes.getD j 0 else if j < padded g bytes.length then 0 else 0xFF := by
  have hle := le_padded (g := g) bytes.length
  have hlen := block_length (g := g) bytes
  split
  · next h =>
    rw [block, List.getD_append _ _ _ _ h, List.getD_eq_getElem _ _ h, List.getD_eq_getElem _ _ h]
  · next h =>
    split
    · next hj =>
      rw [block, List.getD_append_right _ _ _ _ (by omega), List.getD_eq_getElem _ _ (by simp; omega),
        List.getElem_replicate]
    · rw [List.getD_eq_default _ _ (by omega)]

theorem getD_sectors (S : List UInt8) {i : Nat} (hi : i < roundUp g.eraseSize S.length) : (sectors g S).getD i 0 =
    if i < S.length then S.getD i 0 else if i < padded g S.length then 0 else 0xFF := by
  rw [← getD_block, sectors]
  by_cases h : i < padded g S.length
  · have hlen : i < (block g S).length := by rwa [block_length]
    rw [List.getD_append _ _ _ _ hlen, List.getD_eq_getElem _ _ hlen, List.getD_eq_getElem _ _ hlen]
  · have hlen : (block g S).length ≤ i := by rw [block_length]; omega
    rw [List.getD_append_right _ _ _ _ hlen, List.getD_eq_default _ _ hlen,
      List.getD_eq_getElem _ _ (by rw [block_length, List.length_replicate]; omega), List.getElem_replicate]

theorem next_sector {q n : Nat} (hq : q % g.eraseSize = 0) (h : q < n) :
    q + g.eraseSize ≤ roundUp g.eraseSize n := by
  have hadd := roundUp_add g.erase_pos (Nat.dvd_of_mod_eq_zero hq) (n - q)
  rw [Nat.add_sub_cancel' (Nat.le_of_lt h)] at hadd
  have hone := roundUp_mono g.eraseSize (show 1 ≤ n - q by omega)
  rw [roundUp_of_le Nat.one_pos g.erase_pos] at hone
  omega

/-- The padded block that is flushed at `q` is the sector of the content there. -/
theorem sector_block {S : List UInt8} {q : Nat} (hq : q % g.eraseSize = 0) (h : q < S.length)
    (hblock : (block g ((S.drop q).take g.eraseSize)).length ≤ g.eraseSize) :
    Filling.Sector (sectors g S) (block g ((S.drop q).take g.eraseSize)) q g.eraseSize where
  room := hblock
  fits := by
    rw [sectors_length]
    exact next_sector hq h
  bytes j hj := by
    have hfits := next_sector hq h
    have hdvd : g.writeSize ∣ q := g.write_dvd.trans (Nat.dvd_of_mod_eq_zero hq)
    rw [getD_sectors S (by omega), getD_block, List.length_take, List.length_drop]
    by_cases hj' : q + j < S.length
    · rw [if_pos hj', if_pos (by omega), List.getD_eq_getElem _ _ hj',
        List.getD_eq_getElem _ _ (by rw [List.length_take, List.length_drop]; omega), List.getElem_take,
        List.getElem_drop]
    · have hlast : min g.eraseSize (S.length - q) = S.length - q := by omega
      have hpadded := roundUp_add (write_pos g) hdvd (S.length - q)
      rw [Nat.add_sub_cancel' (Nat.le_of_lt h), ← padded_eq, ← padded_eq] at hpadded
      rw [if_neg hj', hlast, if_neg (show ¬ j < S.length - q by omega), hpadded]
      simp only [Nat.add_lt_add_iff_left]

/-! ### Driving a stream -/

/-- Hands the chunks to `write`, each behind the tail that is left, and the last tail to `finish`:
the final offset, the offsets returned on the way, and the scratch buffer. -/
def drive (g : Geometry) (w : Nat) (st : EspArtifactStorage) :
    List (List UInt8) → UInt64 → List UInt8 → List UInt8 →
      NorProg (Except FlashWriteError UInt64 × List UInt64 × List UInt8)
  | [], d, tail, scratch => st.finish g w d tail scratch >>= fun (r, scratch) => pure (r, [], scratch)
  | chunk :: rest, d, tail, scratch => st.write g w d (tail ++ chunk) scratch >>= fun
    | (.error e, scratch) => pure (.error e, [], scratch)
    | (.ok d', scratch) =>
      drive g w st rest d' ((tail ++ chunk).drop (d'.toNat - d.toNat)) scratch >>= fun (r, offsets, scratch) =>
        pure (r, d' :: offsets, scratch)

/-- The largest multiples of the erase size not above the bytes given after each chunk. -/
def marks (g : Geometry) : Nat → List (List UInt8) → List Nat
  | _, [] => []
  | given, chunk :: rest =>
    (given + chunk.length) / g.eraseSize * g.eraseSize :: marks g (given + chunk.length) rest

variable {st : EspArtifactStorage} {b : Behaviour} {s : State} {S : List UInt8} {f₀ : Flash}
  {C : Flash → Prop} {scratch : List UInt8}

/-- The flash while `S` is driven into the partition of `st`. -/
abbrev Driven (g : Geometry) (st : EspArtifactStorage) (S : List UInt8) : Flash → Nat → Flash → Prop :=
  Filling st.partitionOffset.toNat (sectors g S) (st.eraseBeforeWrite = false)

/-- `flush_block` of the next sector moves the watermark by one sector or leaves it, and so does
a cut. -/
theorem wp_flushBlock_driven (hb : b.Honest) {offset : UInt64} (hlast : offset.toNat < S.length)
    (h : Driven g st S f₀ offset.toNat s.flash) (hC : ∀ f, Driven g st S f₀ offset.toNat f → C f)
    {Q : Except FlashWriteError Unit × List UInt8 → State → Prop}
    (hok : ∀ s' scratch', offset.toNat + g.eraseSize ≤ st.partitionSize →
      Driven g st S f₀ (offset.toNat + g.eraseSize) s'.flash → Q (.ok (), scratch') s')
    (herr : ∀ s' scratch' e, Driven g st S f₀ offset.toNat s'.flash → Q (.error e, scratch') s') :
    (flushBlock g w st offset ((S.drop offset.toNat).take g.eraseSize) scratch).wp (norDevice b)
      (cutGuard NorOp.cmd? C) Q s := by
  rcases flushBlock_cases g w st offset ((S.drop offset.toNat).take g.eraseSize) scratch with
    ⟨e, scratch', -, heq⟩ | ⟨absolute, eraseEnd, scratch', hplaced, -, heq⟩
  · rw [heq]
    exact herr s scratch' e h
  · have hpos := g.erase_pos
    have hsector := sector_block hplaced.aligned hlast hplaced.block
    have hne : block g ((S.drop offset.toNat).take g.eraseSize) ≠ [] :=
      block_ne_nil (List.ne_nil_of_length_pos (by rw [List.length_take, List.length_drop]; omega))
    -- the program, from a state where the sector is clear for it
    have hprogram : ∀ s₁ : State, Driven g st S f₀ offset.toNat s₁.flash →
        (∀ i, offset.toNat ≤ i → i < offset.toNat + g.eraseSize →
          Within ((sectors g S).getD i 0) (s₁.flash (st.partitionOffset.toNat + i))) →
        (ExceptT.run (NorFlash.write absolute (block g ((S.drop offset.toNat).take g.eraseSize))
          FlashWriteError.flash)).wp (norDevice b) (cutGuard NorOp.cmd? C) (fun r s' => Q (r, scratch') s') s₁ := by
      intro s₁ h₁ hclear
      have hguard : cutGuard NorOp.cmd? C s₁
          (.write absolute (block g ((S.drop offset.toNat).take g.eraseSize))) := by
        refine cutGuard_of_some (if_neg hne) fun f hf => hC f ?_
        rw [hplaced.absolute] at hf
        exact h₁.program_torn (Nat.le_refl _) hsector hf
      refine NorFlash.wp_write hb hne hguard (fun s' hf _ => ?_) (fun s' hf _ => ?_)
      · rw [hplaced.absolute] at hf
        exact hok s' scratch' hplaced.inside (h₁.program hsector hclear hf)
      · rw [hplaced.absolute] at hf
        exact herr s' scratch' _ (h₁.program_torn (Nat.le_refl _) hsector hf)
    rw [heq, Prog.wp_bind]
    unfold flushAt
    cases hmode : st.eraseBeforeWrite with
    | false =>
      refine hprogram s h fun i hlo hhi => h.clear hmode i ?_
      have := hsector.fits
      omega
    | true =>
      have hkeep : ¬ st.eraseBeforeWrite = false := by rw [hmode]; decide
      have htorn : ∀ f, (Cmd.erase absolute.toNat eraseEnd.toNat).Torn s.flash f →
          Driven g st S f₀ offset.toNat f := by
        intro f hf
        rw [hplaced.absolute, hplaced.eraseEnd] at hf
        exact h.erase_torn hkeep (Nat.le_refl _) hsector.fits hf
      simp only [if_true]
      rw [Prog.wp_try]
      refine NorFlash.wp_erase hb (cutGuard_of_some rfl fun f hf => hC f (htorn f hf))
        (fun s₁ hf _ => ?_) (fun s₁ hf _ => herr s₁ scratch' _ (htorn _ hf))
      refine hprogram s₁ (htorn _ (hf ▸ Cmd.torn_apply _ _)) fun i hlo hhi => ?_
      rw [hf, hplaced.absolute, hplaced.eraseEnd]
      simp only [Cmd.apply]
      rw [if_pos (by omega)]
      exact within_ff _

theorem drop_take_of_prefix {pending : List UInt8} {q k n : Nat} (h : pending <+: S.drop q)
    (hk : k + n ≤ pending.length) : (pending.drop k).take n = (S.drop (q + k)).take n := by
  obtain ⟨rest, hrest⟩ := h
  rw [← List.drop_drop, ← hrest, List.drop_append_of_le_length (by omega),
    List.take_append_of_le_length (by rw [List.length_drop]; omega)]

theorem length_le_of_prefix {pending : List UInt8} {q : Nat} (h : pending <+: S.drop q) :
    pending.length ≤ S.length - q := by
  have := h.length_le
  rwa [List.length_drop] at this

/-- `write` moves the watermark by whole sectors, or an error or a cut leaves it. -/
theorem wp_writeLoop_driven (hb : b.Honest) (hsize : st.partitionSize < 2 ^ 64) {d : UInt64}
    {pending : List UInt8} (hpending : pending <+: S.drop d.toNat) {consumed : Nat}
    (hconsumed : consumed ≤ pending.length) (hblocks : consumed % g.eraseSize = 0)
    (hinside : consumed = 0 ∨ d.toNat + consumed ≤ st.partitionSize)
    (h : Driven g st S f₀ (d.toNat + consumed) s.flash) (hC : ∀ f, Driven g st S f₀ d.toNat f → C f)
    {Q : Except FlashWriteError UInt64 × List UInt8 → State → Prop}
    (hok : ∀ s' scratch' d', d'.toNat = d.toNat + pending.length / g.eraseSize * g.eraseSize →
      Driven g st S f₀ d'.toNat s'.flash → Q (.ok d', scratch') s')
    (herr : ∀ s' scratch' e, Driven g st S f₀ d.toNat s'.flash → Q (.error e, scratch') s') :
    (writeLoop g w st d pending consumed scratch).wp (norDevice b) (cutGuard NorOp.cmd? C) Q s := by
  induction hn : pending.length - consumed using Nat.strongRecOn generalizing consumed scratch s with
  | ind n ih =>
    have hpos := g.erase_pos
    have hd := d.toNat_lt
    have hlen := length_le_of_prefix hpending
    have hat : (d + UInt64.ofNat consumed).toNat = d.toNat + consumed := by
      rw [UInt64.toNat_add, UInt64.toNat_ofNat']
      omega
    unfold writeLoop
    split
    · next hfull =>
      rw [Prog.wp_bind, drop_take_of_prefix hpending (by omega), ← hat]
      refine wp_flushBlock_driven hb (by omega) (by rwa [hat]) ?_ (fun s' scratch' hfits hs' => ?_)
        (fun s' scratch' e hs' => ?_)
      · exact fun f hf => hC f (hf.weaken (by omega))
      · rw [hat] at hfits hs'
        refine ih _ (by omega) (by omega) ?_ (.inr (by omega)) ?_ rfl
        · rw [Nat.add_mod_right]
          exact hblocks
        · rwa [← Nat.add_assoc]
      · exact herr s' scratch' e (hs'.weaken (by omega))
    · next hlast =>
      have hdiv : pending.length / g.eraseSize * g.eraseSize = consumed := by
        obtain ⟨k, rfl⟩ := Nat.dvd_of_mod_eq_zero hblocks
        rw [show pending.length = (pending.length - g.eraseSize * k) + g.eraseSize * k by omega,
          Nat.add_mul_div_left _ _ hpos, Nat.div_eq_of_lt (by omega), Nat.zero_add, Nat.mul_comm]
      exact hok s scratch _ (by rw [hat, hdiv]) (by rwa [hat])

theorem wp_write_driven (hb : b.Honest) (hsize : st.partitionSize < 2 ^ 64) {d : UInt64}
    {pending : List UInt8} (hpending : pending <+: S.drop d.toNat)
    (h : Driven g st S f₀ d.toNat s.flash) (hC : ∀ f, Driven g st S f₀ d.toNat f → C f)
    {Q : Except FlashWriteError UInt64 × List UInt8 → State → Prop}
    (hok : ∀ s' scratch' d', d'.toNat = d.toNat + pending.length / g.eraseSize * g.eraseSize →
      Driven g st S f₀ d'.toNat s'.flash → Q (.ok d', scratch') s')
    (herr : ∀ s' scratch' e, Driven g st S f₀ d.toNat s'.flash → Q (.error e, scratch') s') :
    (write g w st d pending scratch).wp (norDevice b) (cutGuard NorOp.cmd? C) Q s :=
  wp_writeLoop_driven hb hsize hpending (Nat.zero_le _) (Nat.zero_mod _) (.inl rfl) h hC hok herr

/-- `finish` of the tail completes the content, or an error or a cut leaves the watermark. -/
theorem wp_finish_driven (hb : b.Honest) (hsize : st.partitionSize < 2 ^ 64) {d : UInt64}
    (hle : d.toNat ≤ S.length) (haligned : d.toNat % g.eraseSize = 0)
    (h : Driven g st S f₀ d.toNat s.flash) (hC : ∀ f, Driven g st S f₀ d.toNat f → C f)
    {Q : Except FlashWriteError UInt64 × List UInt8 → State → Prop}
    (hok : ∀ s' scratch' d', d'.toNat = S.length →
      Driven g st S f₀ (sectors g S).length s'.flash → Q (.ok d', scratch') s')
    (herr : ∀ s' scratch' e, Driven g st S f₀ d.toNat s'.flash → Q (.error e, scratch') s') :
    (finish g w st d (S.drop d.toNat) scratch).wp (norDevice b) (cutGuard NorOp.cmd? C) Q s := by
  unfold finish
  split
  · next hnil =>
    have hend : d.toNat = S.length := by
      have := congrArg List.length hnil
      rw [List.length_drop, List.length_nil] at this
      omega
    refine hok s scratch d hend ?_
    rwa [sectors_length, ← hend, roundUp_of_dvd g.erase_pos (Nat.dvd_of_mod_eq_zero haligned)]
  · next hne =>
    have hlt : d.toNat < S.length := by
      have := List.length_pos_of_ne_nil hne
      rw [List.length_drop] at this
      omega
    split
    · exact herr s scratch _ h
    · next hshort =>
      rw [List.length_drop] at hshort
      have hall : (S.drop d.toNat).take g.eraseSize = S.drop d.toNat :=
        List.take_of_length_le (by rw [List.length_drop]; omega)
      have hend : d.toNat + g.eraseSize = (sectors g S).length := by
        have hadd := roundUp_add g.erase_pos (Nat.dvd_of_mod_eq_zero haligned) (S.length - d.toNat)
        have hone := roundUp_of_le (k := g.eraseSize) (n := S.length - d.toNat) (by omega) (by omega)
        rw [Nat.add_sub_cancel' hle, hone] at hadd
        rw [sectors_length, hadd]
      rw [Prog.wp_bind]
      nth_rewrite 1 [← hall]
      refine wp_flushBlock_driven hb hlt h hC (fun s' scratch' hfits hs' => ?_)
        (fun s' scratch' e hs' => herr s' scratch' e hs')
      refine hok s' scratch' _ ?_ (hend ▸ hs')
      rw [UInt64.toNat_add, UInt64.toNat_ofNat', List.length_drop]
      omega

/-- A whole drive from a state that holds the stream up to `d`. -/
theorem wp_drive (hb : b.Honest) (hsize : st.partitionSize < 2 ^ 64) {chunks : List (List UInt8)}
    {d : UInt64} {tail : List UInt8} (haligned : d.toNat % g.eraseSize = 0) (hle : d.toNat ≤ S.length)
    (hrest : tail ++ chunks.flatten = S.drop d.toNat) (h : Driven g st S f₀ d.toNat s.flash)
    {Q : Except FlashWriteError UInt64 × List UInt64 × List UInt8 → State → Prop}
    (hok : ∀ s' scratch' d' offsets, d'.toNat = S.length →
      offsets.map UInt64.toNat = marks g (d.toNat + tail.length) chunks →
      Driven g st S f₀ (sectors g S).length s'.flash → Q (.ok d', offsets, scratch') s')
    (herr : ∀ s' scratch' e offsets, Q (.error e, offsets, scratch') s') :
    (drive g w st chunks d tail scratch).wp (norDevice b) (fun _ _ => True) Q s := by
  induction chunks generalizing d tail scratch s Q with
  | nil =>
    simp only [List.flatten_nil, List.append_nil] at hrest
    subst hrest
    unfold drive
    rw [Prog.wp_bind]
    refine Prog.wp_guard_mono (I := cutGuard NorOp.cmd? fun _ => True) (fun _ _ _ => trivial) ?_
    refine wp_finish_driven hb hsize hle haligned h (fun _ _ => trivial) (fun s' scratch' d' hd' hs' => ?_)
      (fun s' scratch' e _ => herr s' scratch' e [])
    exact hok s' scratch' d' [] hd' rfl hs'
  | cons chunk rest ih =>
    have hpos := g.erase_pos
    have hpending : tail ++ chunk <+: S.drop d.toNat :=
      ⟨rest.flatten, by rw [List.append_assoc, ← List.flatten_cons, hrest]⟩
    have hlen := length_le_of_prefix hpending
    unfold drive
    rw [Prog.wp_bind]
    refine Prog.wp_guard_mono (I := cutGuard NorOp.cmd? fun _ => True) (fun _ _ _ => trivial) ?_
    refine wp_write_driven hb hsize hpending h (fun _ _ => trivial) (fun s' scratch' d' hd' hs' => ?_)
      (fun s' scratch' e _ => herr s' scratch' e [])
    have hdiv := Nat.div_mul_le_self (tail ++ chunk).length g.eraseSize
    have hgiven : (d.toNat + (tail ++ chunk).length) / g.eraseSize * g.eraseSize = d'.toNat := by
      obtain ⟨k, hk⟩ := Nat.dvd_of_mod_eq_zero haligned
      rw [hd', hk, Nat.mul_add_div hpos, Nat.add_mul, Nat.mul_comm k]
    rw [List.length_append] at hdiv hd' hgiven
    simp only
    rw [Prog.wp_bind, hd', Nat.add_sub_cancel_left]
    refine ih ?_ (by rw [List.length_append] at hlen; omega) ?_ hs' (fun s₁ scratch₁ d₁ offsets hd₁ hoffsets hs₁ => ?_)
      (fun s₁ scratch₁ e offsets => herr s₁ scratch₁ e _)
    · rw [← hgiven]
      exact Nat.mul_mod_left ..
    · rw [hd', ← List.drop_drop, ← hrest, List.flatten_cons, ← List.append_assoc]
      exact (List.drop_append_of_le_length (by rw [List.length_append]; exact hdiv)).symm
    · refine hok s₁ scratch₁ d₁ _ hd₁ ?_ hs₁
      rw [List.map_cons, hoffsets, marks, Nat.add_assoc, hgiven, List.length_drop, List.length_append, hd']
      congr 2
      omega

/-- The sectors that `S` covers are erased, where the storage relies on it. -/
def Ready (g : Geometry) (st : EspArtifactStorage) (S : List UInt8) (f : Flash) : Prop :=
  st.eraseBeforeWrite = false → ∀ x, st.partitionOffset.toNat ≤ x →
    x < st.partitionOffset.toNat + (sectors g S).length → f x = 0xFF

/-- A point a drive can go on from: `d` is aligned, and the stream is there up to `d`. -/
structure Reached (g : Geometry) (st : EspArtifactStorage) (S : List UInt8) (f₀ : Flash) (f : Flash)
    (d : UInt64) : Prop where
  aligned : d.toNat % g.eraseSize = 0
  behind : d.toNat ≤ S.length
  driven : Driven g st S f₀ d.toNat f

theorem Reached.drive (hb : b.Honest) (hsize : st.partitionSize < 2 ^ 64) {d : UInt64}
    (h : Reached g st S f₀ s.flash d) {chunks : List (List UInt8)} (hchunks : chunks.flatten = S.drop d.toNat)
    {final : UInt64} {offsets : List UInt64} {scratch' : List UInt8} {s' : State}
    (hrun : (drive g w st chunks d [] scratch).run (norDevice b) s = ((.ok final, offsets, scratch'), s')) :
    final.toNat = S.length ∧ offsets.map UInt64.toNat = marks g d.toNat chunks ∧
      s'.flash = overwrite f₀ st.partitionOffset.toNat (sectors g S) := by
  have hwp : (EspArtifactStorage.drive g w st chunks d [] scratch).wp (norDevice b) (fun _ _ => True)
      (fun r s' => ∀ final, r.1 = .ok final → final.toNat = S.length ∧
        r.2.1.map UInt64.toNat = marks g d.toNat chunks ∧
        s'.flash = overwrite f₀ st.partitionOffset.toNat (sectors g S)) s := by
    refine wp_drive hb hsize h.aligned h.behind hchunks h.driven
      (fun s' scratch' d' offsets hd' hoffsets hs' => ?_) (fun _ _ _ _ => ?_)
    · rintro final ⟨⟩
      exact ⟨hd', hoffsets, hs'.eq_overwrite⟩
    · rintro final ⟨⟩
  have := Prog.run_of_wp hwp
  rw [hrun] at this
  exact this final rfl

/-- Driving any chunking to its end leaves `S` in whole sectors and nothing else. -/
theorem drive_writes (hb : b.Honest) (hsize : st.partitionSize < 2 ^ 64) {chunks : List (List UInt8)}
    (hready : Ready g st chunks.flatten s.flash) {final : UInt64} {offsets : List UInt64}
    {scratch' : List UInt8} {s' : State}
    (hrun : (drive g w st chunks 0 [] scratch).run (norDevice b) s = ((.ok final, offsets, scratch'), s')) :
    final.toNat = chunks.flatten.length ∧ offsets.map UInt64.toNat = marks g 0 chunks ∧
      s'.flash = overwrite s.flash st.partitionOffset.toNat (sectors g chunks.flatten) := by
  have hreached : Reached g st chunks.flatten s.flash s.flash 0 :=
    ⟨Nat.zero_mod _, Nat.zero_le _, Filling.start hready⟩
  exact hreached.drive hb hsize rfl hrun

def tinySectors : Geometry where
  eraseSize := 4
  writeSize := 2
  erase_pos := Nat.succ_pos 3
  write_dvd := ⟨2, rfl⟩

/-- Two sectors at address 16. -/
def tinySlot : EspArtifactStorage := ⟨16, 8, true⟩

theorem drive_writes_five :
    let r := (drive tinySectors 32 tinySlot [[1, 2, 3], [4, 5]] 0 [] [0, 0, 0, 0]).run (norDevice perfect)
      ⟨fun _ => 0, [], 0⟩
    r.1.2.1.map UInt64.toNat = [0, 4] ∧ r.2.flash = overwrite (fun _ => 0) 16 [1, 2, 3, 4, 5, 0, 0xFF, 0xFF] := by
  intro r
  have hok : r.1.1 = .ok 5 := by decide +kernel
  have hready : Ready tinySectors tinySlot [1, 2, 3, 4, 5] fun _ => 0 := fun h => by cases h
  have hrun : (drive tinySectors 32 tinySlot [[1, 2, 3], [4, 5]] 0 [] [0, 0, 0, 0]).run (norDevice perfect)
      ⟨fun _ => 0, [], 0⟩ = ((.ok 5, r.1.2.1, r.1.2.2), r.2) := Prog.run_eq hok
  obtain ⟨-, hoffsets, hflash⟩ := drive_writes perfect_honest (by decide) hready hrun
  exact ⟨hoffsets.trans (by decide), hflash.trans (congrArg _ (by decide))⟩

/-! ### Interruptions -/

/-- A run that starts at `d₀`, with the flash it has reached and the last offset that was returned:
calls that succeed, and calls that fail or are cut anywhere. -/
inductive Interrupted (g : Geometry) (w : Nat) (st : EspArtifactStorage) (S : List UInt8) (f₀ : Flash)
    (d₀ : UInt64) : Flash → UInt64 → Prop
  | start : Interrupted g w st S f₀ d₀ f₀ d₀
  | write {s d b pending scratch d' scratch' s'} : Interrupted g w st S f₀ d₀ s.flash d → b.Honest →
      pending <+: S.drop d.toNat →
      (st.write g w d pending scratch).run (norDevice b) s = ((.ok d', scratch'), s') →
      Interrupted g w st S f₀ d₀ s'.flash d'
  | cutWrite {s d b pending scratch f} : Interrupted g w st S f₀ d₀ s.flash d → b.Honest →
      pending <+: S.drop d.toNat →
      CutPoint NorOp.cmd? (norDevice b) (st.write g w d pending scratch) s f → Interrupted g w st S f₀ d₀ f d
  | cutFinish {s d b scratch f} : Interrupted g w st S f₀ d₀ s.flash d → b.Honest →
      CutPoint NorOp.cmd? (norDevice b) (st.finish g w d (S.drop d.toNat) scratch) s f →
      Interrupted g w st S f₀ d₀ f d

/-- The flash at the start of a run: aligned, with the stream up to `d₀`, and erased from there
on where the storage relies on it. -/
structure Started (g : Geometry) (st : EspArtifactStorage) (S : List UInt8) (f₀ : Flash) (d₀ : UInt64) :
    Prop where
  aligned : d₀.toNat % g.eraseSize = 0
  behind : d₀.toNat ≤ S.length
  holds : ∀ i < d₀.toNat, f₀ (st.partitionOffset.toNat + i) = S.getD i 0
  ready : st.eraseBeforeWrite = false → ∀ i, d₀.toNat ≤ i → i < (sectors g S).length →
    f₀ (st.partitionOffset.toNat + i) = 0xFF

variable {d d₀ : UInt64} {f : Flash}

theorem getD_sectors_of_lt {i : Nat} (hi : i < S.length) : (sectors g S).getD i 0 = S.getD i 0 := by
  rw [getD_sectors S (Nat.lt_of_lt_of_le hi (le_roundUp g.erase_pos _)), if_pos hi]

theorem Started.driven (h : Started g st S f₀ d₀) : Driven g st S f₀ d₀.toNat f₀ where
  behind := by
    rw [sectors_length]
    exact Nat.le_trans h.behind (le_roundUp g.erase_pos _)
  holds i hi := by
    rw [h.holds i hi, getD_sectors_of_lt (Nat.lt_of_lt_of_le hi h.behind)]
  outside _ _ := rfl
  clear hmode i hi := by
    by_cases hlt : i < d₀.toNat
    · rw [h.holds i hlt, getD_sectors_of_lt (Nat.lt_of_lt_of_le hlt h.behind)]
      exact Within.refl _
    · rw [h.ready hmode i (by omega) hi]
      exact within_ff _

theorem Interrupted.reached (hsize : st.partitionSize < 2 ^ 64) (hstart : Started g st S f₀ d₀)
    (h : Interrupted g w st S f₀ d₀ f d) : Reached g st S f₀ f d := by
  induction h with
  | start => exact ⟨hstart.aligned, hstart.behind, hstart.driven⟩
  | @write s d b pending scratch d' scratch' s' _ hb hpending hrun ih =>
    have hwp : (st.write g w d pending scratch).wp (norDevice b) (cutGuard NorOp.cmd? fun _ => True)
        (fun r s' => ∀ d', r.1 = .ok d' → Reached g st S f₀ s'.flash d') s := by
      refine wp_write_driven hb hsize hpending ih.driven (fun _ _ => trivial)
        (fun s' scratch' d' hd' hs' => ?_) (fun _ _ _ _ => ?_)
      · rintro d' ⟨⟩
        have hlen := length_le_of_prefix hpending
        have hdiv := Nat.div_mul_le_self pending.length g.eraseSize
        have hbehind := ih.behind
        refine ⟨?_, by omega, hs'⟩
        rw [hd', Nat.add_mul_mod_self_right]
        exact ih.aligned
      · rintro d' ⟨⟩
    have := (Prog.wp_iff ..).mp hwp
    rw [hrun] at this
    exact this.2 d' rfl
  | cutWrite _ hb hpending hcut ih =>
    refine ⟨ih.aligned, ih.behind, cutPoint_of_wp ?_ hcut⟩
    refine wp_write_driven hb hsize hpending ih.driven (fun _ hf => hf) (fun _ _ d' hd' hs' => ?_)
      fun _ _ _ hs' => hs'
    exact hs'.weaken (by omega)
  | cutFinish _ hb hcut ih =>
    refine ⟨ih.aligned, ih.behind, cutPoint_of_wp ?_ hcut⟩
    exact wp_finish_driven hb hsize ih.behind ih.aligned ih.driven (fun _ hf => hf)
      (fun _ _ _ _ hs' => hs'.weaken ih.driven.behind) fun _ _ _ hs' => hs'

/-- A drive from offset `d` that succeeds, and what it leaves. -/
def Completes (g : Geometry) (w : Nat) (st : EspArtifactStorage) (chunks : List (List UInt8)) (d : UInt64)
    (f f' : Flash) : Prop :=
  ∃ b scratch s final offsets scratch' s', b.Honest ∧ s.flash = f ∧ s'.flash = f' ∧
    (drive g w st chunks d [] scratch).run (norDevice b) s = ((.ok final, offsets, scratch'), s')

theorem Reached.completes (hsize : st.partitionSize < 2 ^ 64) (h : Reached g st S f₀ f d)
    {chunks : List (List UInt8)} (hchunks : chunks.flatten = S.drop d.toNat) {f' : Flash}
    (hrun : Completes g w st chunks d f f') :
    f' = overwrite f₀ st.partitionOffset.toNat (sectors g S) := by
  obtain ⟨b, scratch, s, final, offsets, scratch', s', hb, rfl, rfl, hrun⟩ := hrun
  exact (h.drive hb hsize hchunks hrun).2.2

/-- However a run was interrupted, the bytes below the last offset returned are there, and
driving the rest of the stream from it leaves what a run without interruptions leaves. -/
theorem interrupted_replayed (hsize : st.partitionSize < 2 ^ 64) (hstart : Started g st S f₀ d₀)
    (h : Interrupted g w st S f₀ d₀ f d) :
    d.toNat ≤ S.length ∧ (∀ i < d.toNat, f (st.partitionOffset.toNat + i) = S.getD i 0) ∧
    ∀ chunks f', chunks.flatten = S.drop d.toNat → Completes g w st chunks d f f' →
      f' = overwrite f₀ st.partitionOffset.toNat (sectors g S) ∧
      ∀ chunks₀ f₁, chunks₀.flatten = S.drop d₀.toNat → Completes g w st chunks₀ d₀ f₀ f₁ → f' = f₁ := by
  have hreached := h.reached hsize hstart
  refine ⟨hreached.behind, fun i hi => ?_, fun chunks f' hchunks hrun => ?_⟩
  · rw [hreached.driven.holds i hi, getD_sectors_of_lt (Nat.lt_of_lt_of_le hi hreached.behind)]
  · have hf' := hreached.completes hsize hchunks hrun
    refine ⟨hf', fun chunks₀ f₁ hchunks₀ hrun₀ => ?_⟩
    have hfirst : Reached g st S f₀ f₀ d₀ := (Interrupted.start : Interrupted g w st S f₀ d₀ _ _).reached hsize hstart
    rw [hf', hfirst.completes hsize hchunks₀ hrun₀]

/-- Five bytes, cut after the erase of the second sector, and driven again from offset 4. -/
theorem interrupted_replayed_five : ∃ f f' : Flash, f 20 = 0xFF ∧
    (∀ i < 4, f (16 + i) = [1, 2, 3, 4, 5].getD i 0) ∧ Completes tinySectors 32 tinySlot [[5]] 4 f f' ∧
    f' = overwrite (fun _ => 0) 16 [1, 2, 3, 4, 5, 0, 0xFF, 0xFF] := by
  let s : State := ⟨fun _ => 0, [], 0⟩
  let r := (write tinySectors 32 tinySlot 0 [1, 2, 3, 4, 5] [0, 0, 0, 0]).run (norDevice perfect) s
  let f := (Cmd.erase 20 24).apply r.2.flash
  let r' := (drive tinySectors 32 tinySlot [[5]] 4 [] [0, 0, 0, 0]).run (norDevice perfect) ⟨f, [], 0⟩
  have hstart : Started tinySectors tinySlot [1, 2, 3, 4, 5] s.flash 0 :=
    ⟨by decide, by decide, fun i hi => absurd hi (Nat.not_lt_zero i), fun h => by cases h⟩
  have hwrite : Interrupted tinySectors 32 tinySlot [1, 2, 3, 4, 5] s.flash 0 r.2.flash 4 :=
    .write (s := s) .start perfect_honest (List.prefix_refl _)
      (Prog.run_eq (by decide +kernel : r.1.1 = .ok 4))
  have hpoint : CutPoint NorOp.cmd? (norDevice perfect)
      (finish tinySectors 32 tinySlot 4 [5] [0, 0, 0, 0]) r.2 f :=
    .inl ⟨r.2, .erase 20 24, .inl ⟨rfl, rfl⟩, Cmd.torn_apply _ _⟩
  have hcut : Interrupted tinySectors 32 tinySlot [1, 2, 3, 4, 5] s.flash 0 f 4 :=
    .cutFinish (s := r.2) hwrite perfect_honest hpoint
  have hcompletes : Completes tinySectors 32 tinySlot [[5]] 4 f r'.2.flash :=
    ⟨perfect, [0, 0, 0, 0], ⟨f, [], 0⟩, 5, r'.1.2.1, r'.1.2.2, r'.2, perfect_honest, rfl, rfl,
      Prog.run_eq (by decide +kernel : r'.1.1 = .ok 5)⟩
  obtain ⟨-, hholds, hreplay⟩ := interrupted_replayed (by decide) hstart hcut
  obtain ⟨hflash, -⟩ := hreplay [[5]] r'.2.flash rfl hcompletes
  exact ⟨f, r'.2.flash, rfl, hholds, hcompletes, hflash.trans (congrArg _ (by decide))⟩

end EspArtifactStorage

end Espbewi
