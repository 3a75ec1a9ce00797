import Espbewi.Ota.Driving
import Espbewi.System.Upload

/-! A finished upload, sector by sector: what erasing ahead leaves is what erasing before each write leaves. -/

namespace Espbewi.System

open Lib Nor EspArtifactStorage ArtifactWriter

variable {g : Geometry} {w : Nat} {E : Engine} {pending : E.WriteSession → List UInt8} {b : Behaviour}
  {p : AppPartition} {S : List UInt8} {s₀ s s' : State} {a : ArtifactWriter} {e : E.WriteSession} {n : Nat}

/-! ### The stream with its padding -/

theorem sectors_getElem {i : Nat} (hi : i < S.length) (hi' : i < (sectors g S).length) :
    (sectors g S)[i] = S[i] := by
  rw [← List.getD_eq_getElem _ 0 hi', getD_sectors_of_lt hi, List.getD_eq_getElem _ _ hi]

theorem agrees_sectors {data : List UInt8} (hdata : data <+: S.drop n) : Nor.Agrees (sectors g S) n data := by
  intro i hi hS
  have hlen := hdata.length_le
  rw [List.length_drop] at hlen
  rw [sectors_getElem (by omega), hdata.getElem hi, List.getElem_drop]

theorem le_sectors (S : List UInt8) : S.length ≤ (sectors g S).length := by
  rw [sectors_length]
  exact le_roundUp g.erase_pos _

/-- What the engine holds back at the end is the last of `S`. -/
theorem Session.pending_eq (h : Session g pending p (sectors g S) s₀ a e S.length s) :
    pending e = S.drop (E.durable e).toNat := by
  have hheld := h.held
  have hle := le_sectors (g := g) S
  refine List.ext_getElem (by rw [List.length_drop]; omega) fun i hi _ => ?_
  rw [h.agrees i hi (by omega), sectors_getElem (by omega), List.getElem_drop]

/-- The last block is the last sector of the padded stream. -/
theorem Session.agrees_block (h : Session g pending p (sectors g S) s₀ a e S.length s) (hne : pending e ≠ [])
    (hblock : (block g (pending e)).length ≤ g.eraseSize) :
    Nor.Agrees (sectors g S) (E.durable e).toNat (block g (pending e)) := by
  have hheld := h.held
  have hpos := List.length_pos_of_ne_nil hne
  have hshort := h.short
  have htake : (S.drop (E.durable e).toNat).take g.eraseSize = pending e := by
    rw [← h.pending_eq, List.take_of_length_le (Nat.le_of_lt hshort)]
  have hsector := sector_block (S := S) h.durable (by omega) (by rwa [htake])
  rw [htake] at hsector
  intro i hi hS
  have hbyte := hsector.bytes i (by omega)
  rwa [List.getD_eq_getElem _ _ hS, List.getD_eq_getElem _ _ hi, eq_comm] at hbyte

/-- The partition holds the sectors of `S`. -/
def Holds (g : Geometry) (p : AppPartition) (S : List UInt8) (f : Flash) : Prop :=
  (sectors g S).length ≤ p.size ∧
    ∀ i (hi : i < (sectors g S).length), f (p.offset.toNat + i) = (sectors g S)[i]

theorem Holds.bytes {f : Flash} (h : Holds g p S f) :
    S.length ≤ p.size ∧ ∀ i (hi : i < S.length), f (p.offset.toNat + i) = S[i] := by
  have hle := le_sectors (g := g) S
  refine ⟨Nat.le_trans hle h.1, fun i hi => ?_⟩
  rw [h.2 i (Nat.lt_of_lt_of_le hi hle), sectors_getElem hi]

/-- Behind the padded stream the erased part is still erased. -/
theorem holds_of_streaming {erased : Nat} (herased : (sectors g S).length ≤ erased)
    (h : Streaming p.offset.toNat p.size (sectors g S) s₀ erased (padded g S.length) s) :
    Holds g p S s.flash := by
  refine ⟨Nat.le_trans herased h.fits, fun i hi => ?_⟩
  by_cases hin : i < padded g S.length
  · exact h.holds i hin hi
  · have hclear := h.clear i (by omega) hi
    have hle := le_padded (g := g) S.length
    have hff : (sectors g S)[i] = 0xFF := by
      rw [← List.getD_eq_getElem _ 0 hi, getD_sectors S (by rwa [← sectors_length]), if_neg (by omega), if_neg hin]
    rw [hff] at hclear ⊢
    exact (within_ff _).antisymm hclear

/-! ### The two ways to write -/

theorem Session.padded_eq (h : Session g pending p (sectors g S) s₀ a e S.length s) :
    (E.durable e).toNat + (block g (pending e)).length = padded g S.length := by
  have hdvd : g.writeSize ∣ (E.durable e).toNat := g.write_dvd.trans (Nat.dvd_of_mod_eq_zero h.durable)
  rw [block_length, EspArtifactStorage.padded_eq, EspArtifactStorage.padded_eq, ← roundUp_add (write_pos g) hdvd,
    h.held]

/-- The storage completes the last sector. -/
theorem wp_close_sectors (hb : b.Honest) {st : EspArtifactStorage}
    (hst : EspArtifactStorage.newPreErased g p a.scratch = .ok st)
    (h : Session g pending p (sectors g S) s₀ a e S.length s)
    (herased : (sectors g S).length ≤ a.erasedThrough.toNat) :
    (EspArtifactStorage.finish g w st (E.durable e) (pending e) a.scratch).wp (norDevice b) (fun _ _ => True)
      (fun r s' => ∀ d, r.1 = .ok d → Holds g p S s'.flash) s := by
  have hend := h.padded_eq
  have hpadded := padded_le_roundUp (g := g) S.length
  rw [← sectors_length] at hpadded
  have hscratch := h.scratch
  unfold EspArtifactStorage.newPreErased EspArtifactStorage.newWithEraseMode at hst
  rw [if_neg (by omega)] at hst
  cases hst
  unfold EspArtifactStorage.finish
  split
  · next hnil =>
    intro d _
    have hnone : (block g (pending e)).length = 0 := by
      rw [hnil, block_length, EspArtifactStorage.padded_eq]
      exact roundUp_of_dvd (write_pos g) (Nat.dvd_zero _)
    rw [hnone, Nat.add_zero] at hend
    exact holds_of_streaming herased (hend ▸ h.stream)
  · next hne =>
    rw [if_neg (Nat.not_le_of_lt h.short), Prog.wp_bind]
    refine EspArtifactStorage.wp_flushBlock hb rfl hne hscratch (fun err scratch _ => ?_) ?_
    · rintro d ⟨⟩
    · intro _ _ hlen s' scratch _ c hlog
      refine ⟨fun hf d _ => ?_, fun _ err => ?_⟩
      · have hstream := h.stream.program (h.agrees_block hne hlen) (by omega) hf hlog
        exact holds_of_streaming herased (hend ▸ hstream)
      · rintro d ⟨⟩

/-- A `finish` that returns `Ok` has completed the last sector. -/
theorem wp_finish_sectors (hb : b.Honest) (hE : E.Law pending)
    (h : Session g pending p (sectors g S) s₀ a e S.length s) :
    (finish g w E a e).wp (norDevice b) (fun _ _ => True)
      (fun r s' => ∀ size, r.1 = .ok size → Holds g p S s'.flash) s := by
  unfold ArtifactWriter.finish
  split
  · rintro size ⟨⟩
  · next hcovered =>
    have hcovered := UInt64.le_iff_toNat_le.mp (UInt64.not_lt.mp hcovered)
    rw [h.received] at hcovered
    have herased : (sectors g S).length ≤ a.erasedThrough.toNat := by
      rw [sectors_length, ← roundUp_of_dvd g.erase_pos (Nat.dvd_of_mod_eq_zero h.erased)]
      exact roundUp_mono _ hcovered
    split
    · rintro size ⟨⟩
    · next st hst =>
      rw [h.partition] at hst
      rw [Prog.wp_bind, hE.close]
      refine Prog.wp_mono (fun r s' hholds => ?_) (wp_close_sectors hb hst h herased)
      simp only
      split
      · rintro size ⟨⟩
      · next size hcommit =>
        obtain ⟨d, hd⟩ := hE.commit hcommit
        exact fun _ _ => hholds d hd

/-- A call of `append` with the next bytes of `S`. -/
theorem Session.append_sectors (hb : b.Honest) (hE : E.Law pending) (hS : (sectors g S).length < 2 ^ 64)
    (hsize : p.size < 2 ^ 64) (h : Session g pending p (sectors g S) s₀ a e n s) (hle : n ≤ S.length)
    {data : List UInt8} (hdata : data <+: S.drop n) {ok : Bool} {a' : ArtifactWriter} {e' : E.WriteSession}
    (hrun : (append g w E a e data).run (norDevice b) s = ((ok, a', e'), s')) :
    Session g pending p (sectors g S) s₀ a' e' (if ok then n + data.length else n) s' ∧
      (if ok then n + data.length else n) ≤ S.length := by
  have hlen := hdata.length_le
  have hsectors := le_sectors (g := g) S
  rw [List.length_drop] at hlen
  have := Prog.run_of_wp (wp_append (w := w) hb hE hS hsize h (agrees_sectors hdata) (by omega))
  rw [hrun] at this
  refine ⟨this, ?_⟩
  split <;> omega

theorem Session.finish_sectors (hb : b.Honest) (hE : E.Law pending)
    (h : Session g pending p (sectors g S) s₀ a e S.length s) {size : UInt64} {a' : ArtifactWriter}
    (hrun : (finish g w E a e).run (norDevice b) s = ((.ok size, a'), s')) : Holds g p S s'.flash := by
  have := Prog.run_of_wp (wp_finish_sectors (w := w) hb hE h)
  rw [hrun] at this
  exact this size rfl

theorem Session.start (hE : E.Law pending) : Session g pending p (sectors g S) s (.new g p) E.new 0 s := by
  obtain ⟨hreceived, hdurable, hpending⟩ := hE.new
  exact {
    partition := rfl
    scratch := List.length_replicate
    erased := Nat.zero_mod _
    durable := by rw [hdurable]; exact Nat.zero_mod _
    received := by rw [hreceived]; rfl
    held := by rw [hdurable, hpending]; rfl
    short := by rw [hpending]; exact g.erase_pos
    agrees := by rw [hpending]; exact fun i hi => absurd hi (Nat.not_lt_zero i)
    within := Nat.zero_le _
    stream := by rw [hdurable]; exact .start .. }

theorem Uploading.sectors (hb : b.Honest) (hE : E.Law pending) (hS : (sectors g S).length < 2 ^ 64)
    (hsize : p.size < 2 ^ 64) (h : Uploading g w E b p S s₀ a e n s) :
    Session g pending p (EspArtifactStorage.sectors g S) s₀ a e n s ∧ n ≤ S.length := by
  induction h with
  | start => exact ⟨.start hE, Nat.zero_le _⟩
  | append _ hdata hcall ih => exact ih.1.append_sectors hb hE hS hsize ih.2 hdata hcall

/-- Erasing ahead in batches and erasing before each block leave the same sectors: whatever the flash held,
however `S` was cut into chunks, and whatever failed and was tried again. -/
theorem erase_ahead_agrees (hb : b.Honest) (hE : E.Law pending) (hS : (sectors g S).length < 2 ^ 64)
    (hsize : p.size < 2 ^ 64) (h : Uploading g w E b p S s₀ a e S.length s) {size : UInt64} {a' : ArtifactWriter}
    (hfinish : (finish g w E a e).run (norDevice b) s = ((.ok size, a'), s')) {bPlain : Behaviour}
    (hbPlain : bPlain.Honest) {st : EspArtifactStorage} {scratch scratch' : List UInt8}
    (hst : EspArtifactStorage.new g p scratch = .ok st) {chunks : List (List UInt8)} (hchunks : chunks.flatten = S)
    {t t' : State} {final : UInt64} {offsets : List UInt64}
    (hdrive : (drive g w st chunks 0 [] scratch).run (norDevice bPlain) t = ((.ok final, offsets, scratch'), t')) :
    ∀ i < (sectors g S).length, s'.flash (p.offset.toNat + i) = t'.flash (p.offset.toNat + i) := by
  obtain ⟨-, hholds⟩ := (h.sectors hb hE hS hsize).1.finish_sectors hb hE hfinish
  have hmode : st.partitionOffset = p.offset ∧ st.partitionSize = p.size ∧ st.eraseBeforeWrite = true := by
    unfold EspArtifactStorage.new EspArtifactStorage.newWithEraseMode at hst
    split at hst
    · cases hst
    · cases hst
      exact ⟨rfl, rfl, rfl⟩
  have hreached : Reached g st S t.flash t.flash 0 :=
    ⟨Nat.zero_mod _, Nat.zero_le _, Filling.start fun hkeep => by rw [hmode.2.2] at hkeep; cases hkeep⟩
  obtain ⟨-, -, hflash⟩ := hreached.drive hbPlain (hmode.2.1 ▸ hsize) hchunks hdrive
  intro i hi
  rw [hholds i hi, hflash, hmode.1, overwrite, if_pos ⟨Nat.le_add_right .., Nat.add_lt_add_left hi _⟩,
    Nat.add_sub_cancel_left, List.getD_eq_getElem _ _ hi]

/-- Two splits of the same five bytes, over different content. -/
theorem erase_ahead_agrees_five : ∃ a e s a' s' offsets scratch' t',
    Uploading smallSectors 32 listEngine perfect dirtySlot [1, 2, 3, 4, 5] ⟨fun _ => 0, [], 0⟩ a e 5 s ∧
    (finish smallSectors 32 listEngine a e).run (norDevice perfect) s = ((.ok 5, a'), s') ∧
    (drive smallSectors 32 ⟨16, 8, true⟩ [[1], [2, 3, 4, 5]] 0 [] [0, 0, 0, 0]).run (norDevice perfect)
      ⟨fun _ => 7, [], 0⟩ = ((.ok 5, offsets, scratch'), t') ∧
    ∀ i < 8, s'.flash (16 + i) = t'.flash (16 + i) := by
  obtain ⟨a, e, s, a', s', hrun, hfinish⟩ := uploading_two_chunks
  have hok : ((drive smallSectors 32 ⟨16, 8, true⟩ [[1], [2, 3, 4, 5]] 0 [] [0, 0, 0, 0]).run
    (norDevice perfect) ⟨fun _ => 7, [], 0⟩).1.1 = .ok 5 := by decide +kernel
  have hdrive : (drive smallSectors 32 ⟨16, 8, true⟩ [[1], [2, 3, 4, 5]] 0 [] [0, 0, 0, 0]).run (norDevice perfect)
      ⟨fun _ => 7, [], 0⟩ = ((.ok 5, _, _), _) := Prog.run_eq hok
  have hst : EspArtifactStorage.new smallSectors dirtySlot [0, 0, 0, 0] = .ok ⟨16, 8, true⟩ := rfl
  exact ⟨a, e, s, a', s', _, _, _, hrun, hfinish, hdrive, erase_ahead_agrees perfect_honest listEngine_law (by decide)
    (by decide) hrun hfinish perfect_honest hst rfl hdrive⟩

end Espbewi.System
