import Espbewi.System.Lifetime

/-! A confirmed image keeps running until another one is activated. -/

namespace Espbewi.System

open Lib Nor Boot Hw Platform Otadata Bootloader Prog SharedFlash

variable {idf : EspIdf} {fb : Fibewi} {entries entries' : Entries} {ok : UInt8 → Bool} {write : Write fb.Entry}
  {sector : UInt8} {e : fb.Entry} {bootable : fb.Entry → Prop}

/-! ### The newest entry -/

/-- A valid entry that no other live one is newer than. -/
structure Newest (fb : Fibewi) (bootable : fb.Entry → Prop) (entries : Entries) (sector : UInt8) (e : fb.Entry) :
    Prop where
  entry : fb.entryOf entries sector = some e
  valid : fb.state e = fb.VALID
  newest : ∀ sector' e', fb.entryOf entries sector' = some e' → fb.Live bootable e' → fb.seq e' ≤ fb.seq e

theorem Newest.wrote (h : Newest fb bootable entries sector e) (hw : Wrote fb write entries entries')
    (hne : ¬ (sector = 0 ↔ write.sector = 0)) (hle : fb.Live bootable write.entry → fb.seq write.entry ≤ fb.seq e) :
    Newest fb bootable entries' sector e where
  entry := (hw.other hne).trans h.entry
  valid := h.valid
  newest sector' e' he' hlive := by
    rcases hw.cases he' with he | ⟨-, rfl⟩
    · exact h.newest _ _ he hlive
    · exact hle hlive

/-- Confirming and rejecting are about the other entry. -/
theorem Newest.call (htl : fb.TransitionLaw) (hrl : fb.RevivalLaw bootable) (hstates : fb.VALID ≠ fb.PENDING_VERIFY)
    (h : Newest fb bootable entries sector e) {call : Call} (hw : call.decision fb entries = some write)
    (hcall : ∀ target, call ≠ .activate target) (hwrote : Wrote fb write entries entries') :
    Newest fb bootable entries' sector e := by
  cases call with
  | confirm =>
    obtain ⟨e', he', hpending, hseq, -⟩ := htl.confirm hw
    have hne := pending_elsewhere hstates h.entry h.valid he' hpending
    exact h.wrote hwrote hne fun _ => hseq ▸ h.newest _ _ he' (.inr (.inr hpending))
  | reject =>
    obtain ⟨e', he', hpending, hstopped⟩ := htl.reject hw
    have hne := pending_elsewhere hstates h.entry h.valid he' hpending
    exact h.wrote hwrote hne fun hlive => absurd hlive (not_or.mpr ⟨hrl.rejected hw, hstopped⟩)
  | activate target => exact absurd rfl (hcall target)

theorem Newest.plan (hpl : fb.SparingLaw) (hrl : fb.RevivalLaw bootable) (h : Newest fb bootable entries sector e)
    (hok : ok (fb.slotOf (fb.seq e) 2) = true) (hw : WroteAll fb (fb.planned entries ok).writes entries entries') :
    Newest fb bootable entries' sector e := by
  refine hw.preserves (J := fun entries => Newest fb bootable entries sector e) ?_ h
  intro write hmem _ _ hwrote h'
  refine h'.wrote hwrote (planned_beside hpl hmem h.entry h.valid hok) fun hlive => ?_
  obtain ⟨e', he', hlive', hseq⟩ := (hrl.revived hmem hlive).resolve_right (not_blank h.entry)
  exact hseq ▸ h.newest _ _ he' hlive'

/-- The plan boots the newest entry, whose image is accepted. -/
theorem Newest.boots (hpl : fb.SparingLaw) (hplan : fb.PlanLaw bootable) (hrl : fb.RevivalLaw bootable)
    (h : Newest fb bootable entries sector e) (hok : ok (fb.slotOf (fb.seq e) 2) = true) :
    (fb.planned entries ok).boot = .slot (fb.slotOf (fb.seq e) 2) (fb.seq e) := by
  obtain ⟨sector', e', he', hbootable, -, hboot⟩ := boots_entry hpl hplan hrl h.entry h.valid hok
  have hle := hplan.highest hboot h.entry (hrl.valid h.valid) hok
  rw [hboot, UInt32.le_antisymm (h.newest _ _ he' (.inl hbootable)) hle]

/-- `write_target` never names its slot. -/
theorem Newest.targetSlot_ne (h : Newest fb bootable entries sector e) {x : AppSlot}
    (htarget : targetSlot fb entries = some x) : slotIndex x ≠ fb.slotOf (fb.seq e) 2 := by
  have hgoverns : Governs fb entries (fb.slotOf (fb.seq e) 2) := fun seq hseq hmax => by
    obtain ⟨sector', e', he', hrun, rfl⟩ := hseq
    rw [UInt32.le_antisymm (h.newest _ _ he' (.inr hrun)) (hmax _ ⟨sector, e, h.entry, .inl h.valid, rfl⟩)]
  exact hgoverns.targetSlot_ne htarget

/-! ### The flash -/

variable {H : Sha256} {g : Geometry} {w : Nat} {E : Engine} {M : FlashMap}
  {judge : Flash → UInt32 → UInt32 → Option Image} {layout : Layout} {b : Behaviour} {s : State} {f f' : Flash}
  {x : AppSlot} {image : Image}

/-- The newest live entry is valid and names the slot that holds this image. -/
structure Settled (idf : EspIdf) (fb : Fibewi) (bootable : fb.Entry → Prop) (M : FlashMap)
    (judge : Flash → UInt32 → UInt32 → Option Image) (layout : Layout) (x : AppSlot) (image : Image) (f : Flash) : Prop
    extends Charted idf fb M layout f where
  newest : ∃ sector e, Newest fb bootable (entriesAt fb f M.ota.offset) sector e ∧
    fb.slotOf (fb.seq e) 2 = slotIndex x
  image : judge f (partition layout x).1 (partition layout x).2 = some image

/-- Nothing is activated, and uploads go to the slot that `write_target` names. -/
def Routine (fb : Fibewi) (f : Flash) : Request E M → Prop
  | .append x .. | .finish x .. => targetSlot fb (entriesAt fb f M.ota.offset) = some x
  | .activate _ => False
  | _ => True

theorem Settled.accepts (h : Settled idf fb bootable M judge layout x image f) :
    System.accepts judge layout f (slotIndex x) = true :=
  accepts_of_judge h.image

/-- A slot that is written is not the one of the newest entry. -/
theorem Settled.not_writes (h : Settled idf fb bootable M judge layout x image f) {c : Request E M}
    (hroutine : Routine fb f c) : ¬ Request.Writes x c := by
  obtain ⟨sector, e, hnewest, hslot⟩ := h.newest
  intro hwrites
  cases c with
  | append y u data =>
    cases (show y = x from hwrites)
    exact hnewest.targetSlot_ne hroutine hslot.symm
  | finish y u =>
    cases (show y = x from hwrites)
    exact hnewest.targetSlot_ne hroutine hslot.symm
  | _ => cases hwrites

section Steps

variable (hl : fb.OpsLaw) (hsl : fb.SectorLaw) (hj : Judged judge) (hsame : SameSlots layout M)

include hl hsl hj hsame

theorem Settled.request (htl : fb.TransitionLaw) (hrl : fb.RevivalLaw bootable)
    (hstates : fb.VALID ≠ fb.PENDING_VERIFY) (h : Settled idf fb bootable M judge layout x image f) {c : Request E M}
    (hroutine : Routine fb f c) (hcut : RequestCut fb c f f') : Settled idf fb bootable M judge layout x image f' := by
  have hcharted := h.toCharted.request hl hsl hcut
  rcases hcut.cases with ⟨hc, hframe⟩ | rfl | ⟨call, write, hc, hw, hu⟩
  · refine ⟨hcharted, ?_, (judge_frame hj hsame hframe (region_other (h.not_writes hroutine))).trans h.image⟩
    rw [entriesAt_frame hl (region_ota hc) hframe]
    exact h.newest
  · exact h
  · have hsector := Call.sector_lt hsl hw
    obtain ⟨sector, e, hnewest, hslot⟩ := h.newest
    refine ⟨hcharted, ⟨sector, e, hnewest.call htl hrl hstates hw ?_ (hu.wrote hl), hslot⟩,
      (judge_frame hj hsame (Elsewhere.frame hsector hu.safe.outside) (ota_slot x)).trans h.image⟩
    rintro target rfl
    cases activate_of_call? hc
    exact hroutine

theorem Settled.boot (hpl : fb.SparingLaw) (hrl : fb.RevivalLaw bootable)
    (h : Settled idf fb bootable M judge layout x image f)
    (hcut : WritesCut fb M.ota.offset (bootPlan fb judge layout M.ota.offset f).writes f f') :
    Settled idf fb bootable M judge layout x image f' := by
  have hsectors : ∀ write ∈ (bootPlan fb judge layout M.ota.offset f).writes, write.sector < 2 := bootPlan_sectors hsl
  obtain ⟨sector, e, hnewest, hslot⟩ := h.newest
  exact ⟨h.toCharted.writes hl hsectors hcut,
    ⟨sector, e, hnewest.plan hpl hrl (hslot ▸ h.accepts) (hcut.wrote hl), hslot⟩,
    (judge_frame hj hsame (hcut.frame hsectors) (ota_slot x)).trans h.image⟩

end Steps

/-- Without faults the image runs. -/
theorem Settled.boots (hl : fb.OpsLaw) (hde : fb.DecodeEncode) (hdw : fb.DecodeWorn) (hsl : fb.SectorLaw)
    (hslot : fb.SlotLaw) (hwl : fb.WordLaw) (hpl : fb.SparingLaw) (hplan : fb.PlanLaw bootable)
    (hrl : fb.RevivalLaw bootable) (hj : Judged judge) (hsame : SameSlots layout M)
    (hend : M.ota.offset.toNat + 0x2000 < 2 ^ 32) (h : Settled idf fb bootable M judge layout x image s.flash)
    {map : MemoryMap} {other : State → (o : HwOp) → o.Ans} (hhealthy : Healthy judge map other) :
    ∃ s', (ExceptT.run (Bootloader.boot fb map)).run (romDevice perfect other) s = (.ok image.entry, s') := by
  obtain ⟨sector, e, hnewest, heq⟩ := h.newest
  have hboots : (bootPlan fb judge layout M.ota.offset s.flash).boot = .slot (slotIndex x) (fb.seq e) :=
    heq ▸ hnewest.boots hpl hplan hrl (heq ▸ h.accepts)
  obtain ⟨s', hrun, -⟩ := h.toCharted.boots hl hde hdw hsl hslot hwl hj hsame hend hhealthy hboots h.image
  exact ⟨s', hrun⟩

/-- While nothing is activated, the confirmed image is the one that every boot without faults jumps to, after any
sequence of sessions that upload to the other slot, and of boots, each of them cut anywhere, on flash whose commands
may fail. -/
theorem confirmed_stays (hl : fb.OpsLaw) (hde : fb.DecodeEncode) (hdw : fb.DecodeWorn) (hsl : fb.SectorLaw)
    (hslot : fb.SlotLaw) (hwl : fb.WordLaw) (htl : fb.TransitionLaw) (hpl : fb.SparingLaw) (hplan : fb.PlanLaw bootable)
    (hrl : fb.RevivalLaw bootable) (hstates : fb.VALID ≠ fb.PENDING_VERIFY)
    (hj : Judged judge) (hsame : SameSlots layout M) (hend : M.ota.offset.toNat + 0x2000 < 2 ^ 32) {f₀ : Flash}
    (h₀ : Settled idf fb bootable M judge layout x image f₀)
    (hrun : Relation.ReflTransGen (Lived idf fb H g w E M judge (Routine fb)) f₀ s.flash) {map : MemoryMap}
    {other : State → (o : HwOp) → o.Ans} (hhealthy : Healthy judge map other) :
    ∃ s', (ExceptT.run (boot fb map)).run (romDevice perfect other) s = (.ok image.entry, s') := by
  have hsettled : Settled idf fb bootable M judge layout x image s.flash := by
    refine lived_invariant hl hdw hsl hslot (fun _ h => h.toCharted) ?_ ?_ h₀ hrun
    · exact fun _ _ _ h hroutine hcut => h.request hl hsl hj hsame htl hrl hstates hroutine hcut
    · exact fun _ _ h hcut => h.boot hl hsl hj hsame hpl hrl hcut
  exact hsettled.boots hl hde hdw hsl hslot hwl hpl hplan hrl hj hsame hend hhealthy

/-! ### An upload beside it -/

theorem settled_oneEntry (himage : judge (Sample.otaFlash oneEntry) 0x20000 0x100000 = some image) :
    Settled firstMatch Sample.fibewi (fun e => Sample.bootable e = true) sampleMap judge sampleLayout .ota0 image
      (Sample.otaFlash oneEntry) where
  sound := sound_oneEntry
  table := table_otaFlash oneEntry
  newest := by
    rw [entriesAt_oneEntry]
    refine ⟨0, ⟨1, Sample.VALID⟩, ⟨by decide, rfl, fun sector e he _ => ?_⟩, by decide⟩
    cases entryOf_oneEntry he
    exact UInt32.le_refl _
  image := himage

/-- Five bytes were appended to the other slot. -/
theorem confirmed_stays_upload : ∃ s', (ExceptT.run (boot Sample.fibewi esp32c3)).run
    (romDevice perfect (steady firstOnly)) sampleChunk.2 = (.ok 0x40380000, s') := by
  have htarget : targetSlot Sample.fibewi (entriesAt Sample.fibewi (Sample.otaFlash oneEntry) sampleMap.ota.offset) =
      some .ota1 := by
    rw [entriesAt_oneEntry]
    decide
  have hlived : Lived firstMatch Sample.fibewi Preloaded.messageHasher smallSectors 32 listEngine sampleMap
      (fun _ => firstOnly) (Routine Sample.fibewi) (Sample.otaFlash oneEntry) sampleChunk.2.flash :=
    lived_call (s := ⟨Sample.otaFlash oneEntry, [], 0⟩) (r := sampleChunk) perfect_honest
      (.append .ota1 sampleUpload [1, 2, 3, 4, 5]) rfl htarget rfl
  exact confirmed_stays Sample.opsLaw Sample.decodeEncode (fun _ _ _ _ => Sample.decodeWorn) Sample.sectorLaw
    Sample.slotLaw Sample.wordLaw Sample.transitionLaw Sample.sparingLaw Sample.planLaw Sample.revivalLaw (by decide)
    judged_firstOnly sameSlots_sample (by decide) (settled_oneEntry rfl) (.single hlived) (healthy_steady firstOnly)

end Espbewi.System
