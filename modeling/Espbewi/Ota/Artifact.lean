import Espbewi.Ota.Storage
import Espbewi.Lib.Stream
import Espbewi.Lib.Bytes

/-! The artifact storage over a region that was erased ahead. -/

namespace Espbewi

open Lib Nor

variable {g : Geometry} {w : Nat} {b : Behaviour} {s s₀ : State}

/-! ### Erasing a range of the partition -/

theorem eraseBounds_some {range : PartitionRange} {lo hi : UInt64} {absLo absHi : UInt32}
    (h : eraseBounds g w range lo hi = .ok (some (absLo, absHi))) :
    absLo.toNat = range.offset.toNat + lo.toNat ∧ absHi.toNat = range.offset.toNat + hi.toNat ∧
      lo.toNat % g.eraseSize = 0 ∧ hi.toNat % g.eraseSize = 0 ∧ lo.toNat < hi.toNat ∧
      hi.toNat ≤ range.size := by
  simp only [eraseBounds, bind_ok, unless_ok, tryUsize_ok, UInt64.lt_iff_toNat_lt] at h
  obtain ⟨hle, _, ⟨-, rfl⟩, _, ⟨-, rfl⟩, haligned, hfits, h⟩ := h
  split at h
  · cases h
  · simp only [bind_ok, tryUsize_ok, checkedAdd_ok, tryU32_ok] at h
    obtain ⟨_, ⟨-, rfl⟩, _, ⟨-, rfl⟩, _, ⟨-, rfl⟩, _, ⟨-, hlo⟩, _, ⟨-, hhi⟩, h⟩ := h
    cases h
    exact ⟨hlo, hhi, by omega, by omega, by omega, by omega⟩

theorem eraseBounds_none {range : PartitionRange} {lo hi : UInt64}
    (h : eraseBounds g w range lo hi = .ok none) : lo = hi ∧ hi.toNat % g.eraseSize = 0 := by
  simp only [eraseBounds, bind_ok, unless_ok, tryUsize_ok] at h
  obtain ⟨-, _, ⟨-, rfl⟩, _, ⟨-, rfl⟩, haligned, -, h⟩ := h
  split at h
  · exact ⟨UInt64.toNat_inj.mp ‹_›, by omega⟩
  · simp only [bind_ok] at h
    obtain ⟨_, -, _, -, _, -, _, -, _, -, h⟩ := h
    cases h

section Erase

variable {p : AppPartition} {S : List UInt8} {erased durable : Nat}

/-- Erasing from the watermark on either moves it or leaves it, with the stream intact. -/
theorem wp_erasePartitionRange (hb : b.Honest) {lo hi : UInt64} (hle : lo ≤ hi)
    (h : Streaming p.offset.toNat p.size S s₀ lo.toNat durable s)
    {Q : Except FlashWriteError Unit → State → Prop}
    (hok : ∀ s', hi.toNat % g.eraseSize = 0 →
      Streaming p.offset.toNat p.size S s₀ hi.toNat durable s' → Q (.ok ()) s')
    (herr : ∀ s' e, Streaming p.offset.toNat p.size S s₀ lo.toNat durable s' → Q (.error e) s') :
    (ExceptT.run (erasePartitionRange g w p lo hi)).wp (norDevice b) (fun _ _ => True) Q s := by
  unfold erasePartitionRange eraseRange
  rw [Prog.wp_adapt, Prog.wp_try, Prog.wp_ofExcept]
  cases hbounds : eraseBounds g w { offset := p.offset, size := p.size } lo hi with
  | error e => exact herr s _ h
  | ok bounds =>
    cases bounds with
    | none =>
      obtain ⟨rfl, haligned⟩ := eraseBounds_none hbounds
      exact hok s haligned h
    | some bounds =>
      obtain ⟨hlo, hhi, -, haligned, -, hfits⟩ := eraseBounds_some hbounds
      refine NorFlash.wp_erase hb trivial (fun s' hf hlog => ?_) (fun s' hf hlog => ?_)
      · rw [hlo, hhi] at hf hlog
        exact hok s' haligned (h.erase (UInt64.le_iff_toNat_le.mp hle) hfits hf hlog)
      · rw [hlo, hhi] at hf hlog
        exact herr s' _ (h.erase_torn (Nat.le_refl _) (Nat.add_le_add_left hfits _) hf hlog)

end Erase

/-! ### Flushing a block -/

namespace EspArtifactStorage

theorem write_pos (g : Geometry) : 0 < g.writeSize :=
  Nat.pos_of_dvd_of_pos g.write_dvd g.erase_pos

theorem padded_eq (len : Nat) : padded g len = roundUp g.writeSize len := rfl

theorem le_padded (len : Nat) : len ≤ padded g len := le_roundUp (write_pos g) len

theorem padded_eraseSize : padded g g.eraseSize = g.eraseSize := roundUp_of_dvd (write_pos g) g.write_dvd

variable {st : EspArtifactStorage} {offset : UInt64} {bytes scratch : List UInt8}

theorem blockOffset_ok {logical : Nat} (h : blockOffset g w st offset bytes scratch = .ok logical) :
    logical = offset.toNat ∧ bytes.length ≤ g.eraseSize ∧ logical % g.eraseSize = 0 ∧
      logical + g.eraseSize ≤ st.partitionSize ∧ padded g bytes.length ≤ g.eraseSize ∧
      padded g bytes.length ≤ scratch.length := by
  simp only [blockOffset, bind_ok, unless_ok, tryUsize_ok, checkedAdd_ok] at h
  obtain ⟨hlen, _, ⟨-, rfl⟩, haligned, _, ⟨-, rfl⟩, hfits, hpadded, h⟩ := h
  cases h
  exact ⟨rfl, by omega, by omega, by omega, by omega, by omega⟩

theorem blockBounds_ok {logical : Nat} {absolute eraseEnd : UInt32}
    (h : blockBounds g w st logical = .ok (absolute, eraseEnd)) :
    absolute.toNat = st.partitionOffset.toNat + logical ∧
      eraseEnd.toNat = st.partitionOffset.toNat + logical + g.eraseSize := by
  simp only [blockBounds, bind_ok, tryUsize_ok, checkedAdd_ok, tryU32_ok] at h
  obtain ⟨_, ⟨-, rfl⟩, _, ⟨-, rfl⟩, _, ⟨-, rfl⟩, _, ⟨-, habsolute⟩, _, ⟨-, hend⟩, h⟩ := h
  cases h
  exact ⟨habsolute, hend⟩

/-- The bytes that are programmed for a block. -/
def block (g : Geometry) (bytes : List UInt8) : List UInt8 :=
  bytes ++ List.replicate (padded g bytes.length - bytes.length) 0

theorem block_length (bytes : List UInt8) : (block g bytes).length = padded g bytes.length := by
  have := le_padded (g := g) bytes.length
  rw [block, List.length_append, List.length_replicate]
  omega

theorem fillScratch_take (bytes scratch : List UInt8) :
    (fillScratch g bytes scratch).take (padded g bytes.length) = block g bytes := by
  rw [fillScratch]
  exact List.take_left' (block_length bytes)

theorem fillScratch_length (hpadded : padded g bytes.length ≤ scratch.length) :
    (fillScratch g bytes scratch).length = scratch.length := by
  have : (fillScratch g bytes scratch).length = (block g bytes).length +
      (scratch.drop (padded g bytes.length)).length := List.length_append
  rw [this, block_length, List.length_drop]
  omega

/-- A block that can be flushed: its bounds, relative to the partition and absolute. -/
structure Placed (g : Geometry) (st : EspArtifactStorage) (offset : UInt64) (bytes : List UInt8)
    (absolute eraseEnd : UInt32) : Prop where
  aligned : offset.toNat % g.eraseSize = 0
  inside : offset.toNat + g.eraseSize ≤ st.partitionSize
  block : (block g bytes).length ≤ g.eraseSize
  absolute : absolute.toNat = st.partitionOffset.toNat + offset.toNat
  eraseEnd : eraseEnd.toNat = st.partitionOffset.toNat + offset.toNat + g.eraseSize

/-- `flush_block` refuses a block without any command, or flushes the padded block. -/
theorem flushBlock_cases (g : Geometry) (w : Nat) (st : EspArtifactStorage) (offset : UInt64)
    (bytes scratch : List UInt8) :
    (∃ e scratch', scratch'.length = scratch.length ∧
      flushBlock g w st offset bytes scratch = pure (.error e, scratch')) ∨
    (∃ absolute eraseEnd scratch', Placed g st offset bytes absolute eraseEnd ∧
      scratch'.length = scratch.length ∧ flushBlock g w st offset bytes scratch =
        ExceptT.run (flushAt st absolute eraseEnd (block g bytes)) >>= fun r => pure (r, scratch')) := by
  unfold flushBlock
  cases hoffset : blockOffset g w st offset bytes scratch with
  | error e => exact .inl ⟨e, scratch, rfl, rfl⟩
  | ok logical =>
    obtain ⟨rfl, hlen, haligned, hfits, hpadded, hscratch⟩ := blockOffset_ok hoffset
    have hfill : (fillScratch g bytes scratch).length = scratch.length := fillScratch_length hscratch
    simp only
    cases hbounds : blockBounds g w st offset.toNat with
    | error e => exact .inl ⟨e, _, hfill, rfl⟩
    | ok bounds =>
      obtain ⟨absolute, eraseEnd⟩ := bounds
      obtain ⟨habsolute, hend⟩ := blockBounds_ok hbounds
      have hblock : (block g bytes).length ≤ g.eraseSize := by rwa [block_length]
      refine .inr ⟨absolute, eraseEnd, _, ⟨haligned, hfits, hblock, habsolute, hend⟩, hfill, ?_⟩
      simp only [fillScratch_take]

theorem block_ne_nil (hne : bytes ≠ []) : block g bytes ≠ [] :=
  List.append_ne_nil_of_left_ne_nil hne _

/-- `flush_block` of a storage that does not erase: it fails before any command, or it
programs the padded block at its place. -/
theorem wp_flushBlock (hb : b.Honest) (herase : st.eraseBeforeWrite = false) (hne : bytes ≠ [])
    (hscratch : scratch.length = g.eraseSize)
    {Q : Except FlashWriteError Unit × List UInt8 → State → Prop}
    (hskip : ∀ e scratch', scratch'.length = g.eraseSize → Q (.error e, scratch') s)
    (hflush : offset.toNat % g.eraseSize = 0 → offset.toNat + g.eraseSize ≤ st.partitionSize →
      (block g bytes).length ≤ g.eraseSize → ∀ s' scratch', scratch'.length = g.eraseSize →
      let c := Cmd.program (st.partitionOffset.toNat + offset.toNat) (block g bytes)
      s'.log = s.log ++ [c] →
        (s'.flash = c.apply s.flash → Q (.ok (), scratch') s') ∧
        (c.Torn s.flash s'.flash → ∀ e, Q (.error e, scratch') s')) :
    (flushBlock g w st offset bytes scratch).wp (norDevice b) (fun _ _ => True) Q s := by
  rcases flushBlock_cases g w st offset bytes scratch with
    ⟨e, scratch', hlen, heq⟩ | ⟨absolute, eraseEnd, scratch', hplaced, hlen, heq⟩
  · rw [heq]
    exact hskip e scratch' (hlen.trans hscratch)
  · have hflush := fun s' => hflush hplaced.aligned hplaced.inside hplaced.block s' scratch'
      (hlen.trans hscratch)
    simp only [← hplaced.absolute] at hflush
    rw [heq, Prog.wp_bind]
    unfold flushAt
    rw [herase]
    simp only [Bool.false_eq_true, if_false]
    refine NorFlash.wp_write hb (block_ne_nil hne) trivial (fun s' hf hlog => ?_) (fun s' hf hlog => ?_)
    · exact (hflush s' hlog).1 hf
    · exact (hflush s' hlog).2 hf _

theorem block_of_full (h : bytes.length = g.eraseSize) : block g bytes = bytes := by
  rw [block, h, padded_eraseSize, Nat.sub_self, List.replicate_zero, List.append_nil]

/-! ### Writing and finishing a stream -/

section Stream

variable {S pending : List UInt8} {erased : Nat}

/-- `write` advances by whole blocks, each of them inside the erased part. -/
theorem wp_writeLoop (hb : b.Honest) (herase : st.eraseBeforeWrite = false)
    (hscratch : scratch.length = g.eraseSize) (hagrees : Agrees S offset.toNat pending)
    (hrange : offset.toNat + pending.length < 2 ^ 64)
    (hahead : min (offset.toNat + pending.length) st.partitionSize ≤ erased) {consumed : Nat}
    (hconsumed : consumed ≤ pending.length) (hblocks : consumed % g.eraseSize = 0)
    (h : Streaming st.partitionOffset.toNat st.partitionSize S s₀ erased (offset.toNat + consumed) s)
    {Q : Except FlashWriteError UInt64 × List UInt8 → State → Prop}
    (hok : ∀ s' scratch' d, scratch'.length = g.eraseSize →
      d.toNat = offset.toNat + pending.length / g.eraseSize * g.eraseSize →
      Streaming st.partitionOffset.toNat st.partitionSize S s₀ erased d.toNat s' →
        Q (.ok d, scratch') s')
    (herr : ∀ s' scratch' e, scratch'.length = g.eraseSize →
      Streaming st.partitionOffset.toNat st.partitionSize S s₀ erased offset.toNat s' →
        Q (.error e, scratch') s') :
    (writeLoop g w st offset pending consumed scratch).wp (norDevice b) (fun _ _ => True) Q s := by
  induction hn : pending.length - consumed using Nat.strongRecOn generalizing consumed scratch s with
  | ind n ih =>
    have hpos := g.erase_pos
    have hat : (offset + UInt64.ofNat consumed).toNat = offset.toNat + consumed := by
      rw [UInt64.toNat_add, UInt64.toNat_ofNat']
      omega
    unfold writeLoop
    split
    · next hfull =>
      have hlen : ((pending.drop consumed).take g.eraseSize).length = g.eraseSize := by
        rw [List.length_take, List.length_drop]
        omega
      have hslice := hagrees.slice consumed g.eraseSize
      rw [Prog.wp_bind]
      refine wp_flushBlock hb herase (List.ne_nil_of_length_pos (by omega)) hscratch
        (fun e scratch' hlen' => herr s scratch' e hlen' (h.weaken (Nat.le_add_right ..))) ?_
      rw [hat, block_of_full hlen]
      intro _ hfits _ s' scratch' hlen' c hlog
      refine ⟨fun hf => ?_, fun hf e => ?_⟩
      · refine ih _ ?_ hlen' ?_ ?_ ?_ rfl
        · omega
        · omega
        · rw [Nat.add_mod_right]
          exact hblocks
        · rw [← Nat.add_assoc, ← hlen]
          exact h.program hslice (by omega) hf hlog
      · exact herr s' scratch' e hlen'
          ((h.program_torn hslice (by omega) hf hlog).weaken (Nat.le_add_right ..))
    · next hlast =>
      have hdiv : pending.length / g.eraseSize * g.eraseSize = consumed := by
        obtain ⟨k, rfl⟩ := Nat.dvd_of_mod_eq_zero hblocks
        rw [show pending.length = (pending.length - g.eraseSize * k) + g.eraseSize * k by omega,
          Nat.add_mul_div_left _ _ hpos, Nat.div_eq_of_lt (by omega), Nat.zero_add, Nat.mul_comm]
      refine hok s scratch _ hscratch (by rw [hat, hdiv]) ?_
      rw [hat]
      exact h

/-- `finish` flushes what is left, up to the end of the stream. -/
theorem wp_finish (hb : b.Honest) (herase : st.eraseBeforeWrite = false)
    (hscratch : scratch.length = g.eraseSize) (hagrees : Agrees S offset.toNat pending)
    (hlast : S.length ≤ offset.toNat + pending.length)
    (hahead : offset.toNat + pending.length ≤ erased) (hblocks : erased % g.eraseSize = 0)
    (h : Streaming st.partitionOffset.toNat st.partitionSize S s₀ erased offset.toNat s)
    {Q : Except FlashWriteError UInt64 × List UInt8 → State → Prop}
    (hok : ∀ s' scratch' d,
      Streaming st.partitionOffset.toNat st.partitionSize S s₀ erased S.length s' →
        Q (.ok d, scratch') s')
    (herr : ∀ s' scratch' e, Q (.error e, scratch') s') :
    (finish g w st offset pending scratch).wp (norDevice b) (fun _ _ => True) Q s := by
  unfold finish
  split
  · next hnil =>
    rw [hnil, List.length_nil, Nat.add_zero] at hlast
    exact hok s scratch _ (h.weaken hlast)
  · next hne =>
    split
    · exact herr s scratch _
    · rw [Prog.wp_bind]
      refine wp_flushBlock hb herase hne hscratch (fun e scratch' _ => herr s scratch' e) ?_
      intro haligned _ hlen s' scratch' _ c hlog
      refine ⟨fun hf => ?_, fun _ e => herr s' scratch' e⟩
      have hpos := List.length_pos_of_ne_nil hne
      have hroom : offset.toNat + g.eraseSize ≤ erased := by
        obtain ⟨k, hk⟩ := Nat.dvd_of_mod_eq_zero haligned
        obtain ⟨m, hm⟩ := Nat.dvd_of_mod_eq_zero hblocks
        have hlt : k < m := Nat.lt_of_mul_lt_mul_left (a := g.eraseSize) (by omega)
        calc offset.toNat + g.eraseSize = g.eraseSize * (k + 1) := by rw [hk, Nat.mul_succ]
          _ ≤ g.eraseSize * m := Nat.mul_le_mul_left _ hlt
          _ = erased := hm.symm
      have hblock : Agrees S offset.toNat (block g pending) := hagrees.append_of_le hlast _
      refine hok s' scratch' _ ((h.program hblock (by omega) hf hlog).weaken ?_)
      have := le_padded (g := g) pending.length
      rw [block_length]
      omega

end Stream

end EspArtifactStorage

end Espbewi
