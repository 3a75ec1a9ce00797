import Espbewi.System.Running
import Espbewi.Lib.Trace

/-! The readers of `otadata`: which entry each of them takes for the current image. -/

namespace Espbewi.System

open Lib Nor Boot Otadata

variable {fb : Fibewi} {entries : Entries} {c c' e e' : fb.Entry} {sector sector' : UInt8}

/-- The newest VALID or PENDING entry. -/
structure Current (fb : Fibewi) (entries : Entries) (c : fb.Entry) : Prop where
  entry : ∃ sector, fb.entryOf entries sector = some c
  running : fb.Running c
  newest : ∀ seq, HasSeq fb entries seq → seq ≤ fb.seq c

/-- Entries of the two sectors have different sequence numbers. -/
def Distinct (fb : Fibewi) (entries : Entries) : Prop :=
  ∀ e e', fb.decode entries.1 = some e → fb.decode entries.2 = some e' → fb.seq e ≠ fb.seq e'

def HasState (fb : Fibewi) (entries : Entries) (state : UInt32) : Prop :=
  ∃ sector e, fb.entryOf entries sector = some e ∧ fb.state e = state

/-- A PENDING entry lies beside a VALID one that is newer. -/
def Overtaken (fb : Fibewi) (entries : Entries) : Prop :=
  ∃ sector e sector' e', fb.entryOf entries sector = some e ∧ fb.state e = fb.PENDING_VERIFY ∧
    fb.entryOf entries sector' = some e' ∧ fb.state e' = fb.VALID ∧ fb.seq e < fb.seq e'

/-- The readers agree on which image is current. -/
structure Agree (fb : Fibewi) (entries : Entries) : Prop where
  pending : imageOutcome fb entries = .pendingConfirmation ↔
    ∃ c, Current fb entries c ∧ fb.state c = fb.PENDING_VERIFY
  confirmed : imageOutcome fb entries = .confirmed ↔ ∃ c, Current fb entries c ∧ fb.state c = fb.VALID
  other : imageOutcome fb entries = .other ↔ ¬ ∃ c, Current fb entries c
  boot : ∀ b, bootEntry fb entries = some b → b.state = "valid" ∨ b.state = "pending_verify" →
    ∃ c, Current fb entries c ∧ b.seq = fb.seq c ∧ b.state = stateName fb (fb.state c)
  target : ∀ b, bootEntry fb entries = some b → b.state = "valid" ∨ b.state = "pending_verify" →
    ∀ (idf : EspIdf) (σ : Type) (d : Device NorOp NorOp.Ans σ) (s : σ) (p : AppPartition),
      ((ExceptT.run (readEntries idf fb)).run d s).1 = .ok entries →
      ((ExceptT.run (writeTarget idf fb)).run d s).1 = .ok p →
      ∃ slot : AppSlot, b.slot = slot.asStr ∧ slot ≠ p.slot

/-! ### Two sectors -/

theorem entryOf_cases (fb : Fibewi) (entries : Entries) (sector : UInt8) :
    fb.entryOf entries sector = fb.decode entries.1 ∨ fb.entryOf entries sector = fb.decode entries.2 := by
  unfold Fibewi.entryOf
  split
  · exact .inl rfl
  · exact .inr rfl

theorem Distinct.eq (h : Distinct fb entries) (he : fb.entryOf entries sector = some e)
    (he' : fb.entryOf entries sector' = some e') (hseq : fb.seq e = fb.seq e') : e = e' := by
  rcases entryOf_cases fb entries sector with hs | hs <;>
    rcases entryOf_cases fb entries sector' with hs' | hs' <;> rw [hs] at he <;> rw [hs'] at he'
  · exact Option.some.inj (he.symm.trans he')
  · exact absurd hseq (h e e' he he')
  · exact absurd hseq.symm (h e' e he' he)
  · exact Option.some.inj (he.symm.trans he')

/-- There is no third entry. -/
theorem entry_eq_or (he : fb.entryOf entries sector = some e) (he' : fb.entryOf entries sector' = some e')
    (hne : e ≠ e') {sector'' : UInt8} (hc : fb.entryOf entries sector'' = some c) : c = e ∨ c = e' := by
  rcases entryOf_cases fb entries sector with hs | hs <;>
    rcases entryOf_cases fb entries sector' with hs' | hs' <;>
    rcases entryOf_cases fb entries sector'' with hs'' | hs'' <;>
    rw [hs] at he <;> rw [hs'] at he' <;> rw [hs''] at hc
  all_goals grind

/-! ### The current entry -/

theorem Current.hasSeq (h : Current fb entries c) : HasSeq fb entries (fb.seq c) := by
  obtain ⟨sector, hc⟩ := h.entry
  exact ⟨sector, c, hc, h.running, rfl⟩

theorem Current.unique (hdistinct : Distinct fb entries) (h : Current fb entries c)
    (h' : Current fb entries c') : c = c' := by
  obtain ⟨sector, hc⟩ := h.entry
  obtain ⟨sector', hc'⟩ := h'.entry
  exact hdistinct.eq hc hc' (UInt32.le_antisymm (h'.newest _ h.hasSeq) (h.newest _ h'.hasSeq))

theorem exists_current (he : fb.entryOf entries sector = some e) (hrun : fb.Running e) :
    ∃ c, Current fb entries c := by
  have hmem : fb.seq e ∈ runningSeqs fb entries := mem_runningSeqs.mpr ⟨sector, e, he, hrun, rfl⟩
  cases hmax : (runningSeqs fb entries).max? with
  | none =>
    rw [List.max?_eq_none_iff.mp hmax] at hmem
    cases hmem
  | some seq =>
    obtain ⟨hseq, hle⟩ := List.max?_eq_some_iff.mp hmax
    obtain ⟨sector', c, hc, hrun', rfl⟩ := mem_runningSeqs.mp hseq
    exact ⟨c, ⟨sector', hc⟩, hrun', fun seq' h' => hle _ (mem_runningSeqs.mpr h')⟩

/-- `write_target` targets the slot that the current entry is not of. -/
theorem Current.targetSlot (h : Current fb entries c) :
    targetSlot fb entries = otherSlot (fb.slotOf (fb.seq c) SLOT_COUNT) := by
  have hmax : (runningSeqs fb entries).max? = some (fb.seq c) :=
    List.max?_eq_some_iff.mpr ⟨mem_runningSeqs.mpr h.hasSeq, fun seq' h' => h.newest _ (mem_runningSeqs.mp h')⟩
  rw [Otadata.targetSlot, hmax]

/-! ### `image_outcome` -/

theorem hasState_iff {state : UInt32} : HasState fb entries state ↔
    ∃ e, (fb.decode entries.1 = some e ∨ fb.decode entries.2 = some e) ∧ fb.state e = state := by
  constructor
  · rintro ⟨sector, e, he, hstate⟩
    rcases entryOf_cases fb entries sector with hs | hs
    · exact ⟨e, .inl (hs ▸ he), hstate⟩
    · exact ⟨e, .inr (hs ▸ he), hstate⟩
  · rintro ⟨e, he | he, hstate⟩
    · exact ⟨0, e, he, hstate⟩
    · exact ⟨1, e, he, hstate⟩

theorem imageOutcome_cases (fb : Fibewi) (entries : Entries) :
    imageOutcome fb entries = .pendingConfirmation ∧ HasState fb entries fb.PENDING_VERIFY ∨
      ¬ HasState fb entries fb.PENDING_VERIFY ∧
        (imageOutcome fb entries = .confirmed ∧ HasState fb entries fb.VALID ∨
          imageOutcome fb entries = .other ∧ ¬ HasState fb entries fb.VALID) := by
  simp only [hasState_iff, imageOutcome, Entries.toList, List.any_cons, List.any_nil]
  obtain h₀ | ⟨e₀, h₀⟩ := Option.eq_none_or_eq_some (fb.decode entries.1) <;>
    obtain h₁ | ⟨e₁, h₁⟩ := Option.eq_none_or_eq_some (fb.decode entries.2) <;>
    simp only [h₀, h₁]
  all_goals grind

theorem Current.hasState (h : Current fb entries c) : HasState fb entries (fb.state c) := by
  obtain ⟨sector, hc⟩ := h.entry
  exact ⟨sector, c, hc, rfl⟩

/-- A PENDING entry that is not overtaken is the current one. -/
theorem current_pending (hdistinct : Distinct fb entries) (hfresh : ¬ Overtaken fb entries)
    (hpending : HasState fb entries fb.PENDING_VERIFY) :
    ∃ c, Current fb entries c ∧ fb.state c = fb.PENDING_VERIFY := by
  obtain ⟨sector, e, he, hstate⟩ := hpending
  obtain ⟨c, hc⟩ := exists_current he (.inr hstate)
  refine ⟨c, hc, ?_⟩
  rcases hc.running with hvalid | hpending
  · obtain ⟨sector', hcurrent⟩ := hc.entry
    have hle : fb.seq e ≤ fb.seq c := hc.newest _ ⟨sector, e, he, .inr hstate, rfl⟩
    have hnlt : ¬ fb.seq e < fb.seq c := fun hlt =>
      hfresh ⟨sector, e, sector', c, he, hstate, hcurrent, hvalid, hlt⟩
    rw [← hdistinct.eq he hcurrent (UInt32.le_antisymm hle (UInt32.not_lt.mp hnlt)), hstate]
  · exact hpending

/-- A PENDING entry that is overtaken is not the current one. -/
theorem Overtaken.not_current (hstates : fb.VALID ≠ fb.PENDING_VERIFY) (h : Overtaken fb entries)
    (hc : Current fb entries c) : fb.state c ≠ fb.PENDING_VERIFY := by
  obtain ⟨sector, e, sector', e', he, hpending, he', hvalid, hlt⟩ := h
  intro hstate
  have hne : e ≠ e' := by
    rintro rfl
    exact hstates (hvalid.symm.trans hpending)
  obtain ⟨sector'', hcurrent⟩ := hc.entry
  rcases entry_eq_or he he' hne hcurrent with rfl | rfl
  · exact absurd (hc.newest _ ⟨sector', e', he', .inl hvalid, rfl⟩) (UInt32.not_le.mpr hlt)
  · exact hstates (hvalid.symm.trans hstate)

/-! ### `boot_entry` and `write_target` -/

theorem running_of_stateName {state : UInt32}
    (h : stateName fb state = "valid" ∨ stateName fb state = "pending_verify") :
    state = fb.VALID ∨ state = fb.PENDING_VERIFY := by
  unfold stateName at h
  split at h
  · simp at h
  split at h
  · exact .inr ‹_›
  split at h
  · exact .inl ‹_›
  split at h
  · simp at h
  split at h
  · simp at h
  · simp at h

/-- The newest entry of all, when it is VALID or PENDING, is the current one. -/
theorem bootEntry_current {b : BootEntry} (h : bootEntry fb entries = some b)
    (hstate : b.state = "valid" ∨ b.state = "pending_verify") :
    ∃ c, Current fb entries c ∧ b.seq = fb.seq c ∧ b.state = stateName fb (fb.state c) ∧
      ∀ slot, otherSlot (fb.slotOf (fb.seq c) SLOT_COUNT) = some slot →
        ∃ slot' : AppSlot, b.slot = slot'.asStr ∧ slot' ≠ slot := by
  unfold bootEntry at h
  obtain ⟨m, hm, hb⟩ := Option.bind_eq_some_iff.mp h
  cases hb
  refine ⟨m, ⟨mem_decoded.mp (maxBySeq_mem hm), running_of_stateName hstate, ?_⟩, rfl, rfl, ?_⟩
  · rintro seq ⟨sector, e, he, -, rfl⟩
    obtain ⟨m', hm', hle⟩ := maxBySeq_le (mem_decoded.mpr ⟨sector, he⟩)
    rw [hm] at hm'
    cases hm'
    exact hle
  · intro slot hslot
    unfold otherSlot at hslot
    split at hslot
    · cases hslot
      exact ⟨.ota0, rfl, by decide⟩
    · cases hslot
      exact ⟨.ota1, rfl, by decide⟩
    · cases hslot

theorem runs_findAppPartition {idf : EspIdf} {slot : AppSlot} {tr : List (Event NorOp NorOp.Ans)}
    {p : AppPartition} (h : Prog.Runs (ExceptT.run (findAppPartition idf slot)) tr (.ok p)) :
    p.slot = slot := by
  obtain ⟨tr₁, tr₂, range, -, -, hpure⟩ := Prog.runs_try_ok h
  obtain ⟨-, hp⟩ := Prog.runs_ret.mp hpure
  cases hp
  rfl

theorem writeTarget_targetSlot {idf : EspIdf} {σ : Type} {d : Device NorOp NorOp.Ans σ} {s : σ}
    {p : AppPartition} (hread : ((ExceptT.run (readEntries idf fb)).run d s).1 = .ok entries)
    (htarget : ((ExceptT.run (writeTarget idf fb)).run d s).1 = .ok p) :
    Otadata.targetSlot fb entries = some p.slot := by
  unfold writeTarget at htarget
  rw [Prog.run_try] at htarget
  generalize (ExceptT.run (readEntries idf fb)).run d s = answer at hread htarget
  obtain ⟨r, s'⟩ := answer
  cases hread
  simp only at htarget
  cases hslot : Otadata.targetSlot fb entries with
  | none =>
    rw [hslot] at htarget
    cases htarget
  | some slot =>
    rw [hslot] at htarget
    have hruns := Prog.runs_events d (ExceptT.run ((findAppPartition idf slot).adapt fun _ => Error.unavailable)) s'
    simp only at htarget
    rw [htarget] at hruns
    obtain ⟨r, hfind, hr⟩ := Prog.runs_adapt hruns
    cases r with
    | error e => cases hr
    | ok p' =>
      cases hr
      rw [runs_findAppPartition hfind]

/-! ### Agreement -/

theorem overtaken_of_decode (he : fb.decode entries.1 = some e) (hpending : fb.state e = fb.PENDING_VERIFY)
    (he' : fb.decode entries.2 = some e') (hvalid : fb.state e' = fb.VALID) (hlt : fb.seq e < fb.seq e') :
    Overtaken fb entries :=
  ⟨0, e, 1, e', he, hpending, he', hvalid, hlt⟩

theorem Overtaken.pendingConfirmation (h : Overtaken fb entries) :
    imageOutcome fb entries = .pendingConfirmation := by
  obtain ⟨sector, e, -, -, he, hpending, -⟩ := h
  rcases imageOutcome_cases fb entries with ⟨houtcome, -⟩ | ⟨hnone, -⟩
  · exact houtcome
  · exact absurd ⟨sector, e, he, hpending⟩ hnone

theorem pending_iff (hdistinct : Distinct fb entries) (hfresh : ¬ Overtaken fb entries) :
    imageOutcome fb entries = .pendingConfirmation ↔
      ∃ c, Current fb entries c ∧ fb.state c = fb.PENDING_VERIFY := by
  constructor
  · intro houtcome
    rcases imageOutcome_cases fb entries with ⟨-, hpending⟩ | ⟨-, ⟨h, -⟩ | ⟨h, -⟩⟩
    · exact current_pending hdistinct hfresh hpending
    · cases houtcome.symm.trans h
    · cases houtcome.symm.trans h
  · rintro ⟨c, hc, hstate⟩
    rcases imageOutcome_cases fb entries with ⟨houtcome, -⟩ | ⟨hnone, -⟩
    · exact houtcome
    · exact absurd (hstate ▸ hc.hasState) hnone

theorem confirmed_iff (hstates : fb.VALID ≠ fb.PENDING_VERIFY) (hdistinct : Distinct fb entries)
    (hfresh : ¬ Overtaken fb entries) :
    imageOutcome fb entries = .confirmed ↔ ∃ c, Current fb entries c ∧ fb.state c = fb.VALID := by
  constructor
  · intro houtcome
    rcases imageOutcome_cases fb entries with ⟨h, -⟩ | ⟨hnone, ⟨-, sector, e, he, hvalid⟩ | ⟨h, -⟩⟩
    · cases houtcome.symm.trans h
    · obtain ⟨c, hc⟩ := exists_current he (.inl hvalid)
      exact ⟨c, hc, hc.running.resolve_right fun hpending => hnone (hpending ▸ hc.hasState)⟩
    · cases houtcome.symm.trans h
  · rintro ⟨c, hc, hvalid⟩
    rcases imageOutcome_cases fb entries with ⟨-, hpending⟩ | ⟨-, ⟨houtcome, -⟩ | ⟨-, hnone⟩⟩
    · obtain ⟨c', hc', hstate⟩ := current_pending hdistinct hfresh hpending
      rw [← hc.unique hdistinct hc', hvalid] at hstate
      exact absurd hstate hstates
    · exact houtcome
    · exact absurd (hvalid ▸ hc.hasState) hnone

theorem other_iff : imageOutcome fb entries = .other ↔ ¬ ∃ c, Current fb entries c := by
  constructor
  · rintro houtcome ⟨c, hc⟩
    rcases imageOutcome_cases fb entries with ⟨h, -⟩ | ⟨hpending, ⟨h, -⟩ | ⟨-, hvalid⟩⟩
    · cases houtcome.symm.trans h
    · cases houtcome.symm.trans h
    · rcases hc.running with hstate | hstate
      · exact hvalid (hstate ▸ hc.hasState)
      · exact hpending (hstate ▸ hc.hasState)
  · intro hnone
    rcases imageOutcome_cases fb entries with
      ⟨-, sector, e, he, hpending⟩ | ⟨-, ⟨-, sector, e, he, hvalid⟩ | ⟨houtcome, -⟩⟩
    · exact absurd (exists_current he (.inr hpending)) hnone
    · exact absurd (exists_current he (.inl hvalid)) hnone
    · exact houtcome

/-- The readers agree exactly when no PENDING entry lies beside a newer VALID one. -/
theorem readers_agree_iff (hstates : fb.VALID ≠ fb.PENDING_VERIFY) (hdistinct : Distinct fb entries) :
    Agree fb entries ↔ ¬ Overtaken fb entries := by
  constructor
  · intro hagree hover
    obtain ⟨c, hc, hstate⟩ := hagree.pending.mp hover.pendingConfirmation
    exact hover.not_current hstates hc hstate
  · intro hfresh
    refine ⟨pending_iff hdistinct hfresh, confirmed_iff hstates hdistinct hfresh, other_iff, ?_, ?_⟩
    · intro b hb hstate
      obtain ⟨c, hc, hseq, hname, -⟩ := bootEntry_current hb hstate
      exact ⟨c, hc, hseq, hname⟩
    · intro b hb hstate idf σ d s p hread htarget
      obtain ⟨c, hc, -, -, hslots⟩ := bootEntry_current hb hstate
      exact hslots p.slot (hc.targetSlot.symm.trans (writeTarget_targetSlot hread htarget))

section Sample

open Sample (fibewi PENDING_VERIFY VALID decodeEncode)

theorem sample_first (e₀ e₁ : Sample.Entry) : fibewi.decode (sampleEntries e₀ e₁).1 = some e₀ :=
  decodeEncode e₀

theorem sample_second (e₀ e₁ : Sample.Entry) : fibewi.decode (sampleEntries e₀ e₁).2 = some e₁ :=
  decodeEncode e₁

theorem sample_distinct {e₀ e₁ : Sample.Entry} (h : e₀.seq ≠ e₁.seq) :
    Distinct fibewi (sampleEntries e₀ e₁) := by
  intro e e' he he'
  obtain rfl : e₀ = e := Option.some.inj ((sample_first e₀ e₁).symm.trans he)
  obtain rfl : e₁ = e' := Option.some.inj ((sample_second e₀ e₁).symm.trans he')
  exact h

theorem sample_entry {e₀ e₁ e : Sample.Entry} {sector : UInt8}
    (h : fibewi.entryOf (sampleEntries e₀ e₁) sector = some e) : e = e₀ ∨ e = e₁ := by
  rcases entryOf_cases fibewi (sampleEntries e₀ e₁) sector with hs | hs
  · rw [hs, sample_first] at h
    exact .inl (Option.some.inj h).symm
  · rw [hs, sample_second] at h
    exact .inr (Option.some.inj h).symm

theorem readers_agree_trial : Agree fibewi (sampleEntries ⟨1, VALID⟩ ⟨2, PENDING_VERIFY⟩) := by
  refine (readers_agree_iff (by decide) (sample_distinct (by decide))).mpr ?_
  rintro ⟨sector, e, sector', e', he, hpending, he', hvalid, hlt⟩
  rcases sample_entry he with rfl | rfl
  · exact absurd hpending (by decide)
  · rcases sample_entry he' with rfl | rfl
    · exact absurd hlt (by decide)
    · exact absurd hvalid (by decide)

/-- A stale PENDING entry of slot 0 hides the VALID image of slot 1. -/
theorem stale_pending_reported : ¬ ∀ entries, Distinct fibewi entries → Agree fibewi entries := by
  intro hall
  have hagree := hall (sampleEntries ⟨1, PENDING_VERIFY⟩ ⟨2, VALID⟩) (sample_distinct (by decide))
  have hover : Overtaken fibewi (sampleEntries ⟨1, PENDING_VERIFY⟩ ⟨2, VALID⟩) :=
    overtaken_of_decode (sample_first ..) rfl (sample_second ..) rfl (by decide)
  obtain ⟨c, hc, hstate⟩ := hagree.pending.mp hover.pendingConfirmation
  exact hover.not_current (by decide) hc hstate

end Sample

end Espbewi.System
