import Espbewi.System.Healthy
import Espbewi.System.Readers

/-! A device that boots again, whatever is uploaded to it and wherever power is cut. -/

namespace Espbewi.System

open Lib Nor Boot Hw Platform Otadata Bootloader Prog SharedFlash

variable {idf : EspIdf} {fb : Fibewi} {entries entries' : Entries} {ok ok' : UInt8 → Bool} {write : Write fb.Entry}
  {sector sector' : UInt8} {e e' : fb.Entry}

/-! ### The two sectors -/

theorem entry_unique (heq : sector = 0 ↔ sector' = 0) (he : fb.entryOf entries sector = some e)
    (he' : fb.entryOf entries sector' = some e') : e' = e := by
  rw [← Fibewi.entryOf_congr heq, he] at he'
  exact (Option.some.inj he').symm

theorem same_sector {sector₁ sector₂ : UInt8} (hne₁ : ¬ (sector = 0 ↔ sector₁ = 0))
    (hne₂ : ¬ (sector = 0 ↔ sector₂ = 0)) : sector₁ = 0 ↔ sector₂ = 0 := by
  tauto

theorem one_sub_sector (hs : sector < 2) : ¬ (1 - sector = 0 ↔ sector = 0) := by
  rcases sector_cases hs with rfl | rfl <;> decide

theorem not_blank (he : fb.entryOf entries sector = some e) : ¬ ∀ sector, fb.entryOf entries sector = none :=
  fun hblank => Option.some_ne_none e (he.symm.trans (hblank sector))

/-- A valid and a pending entry lie in different sectors. -/
theorem pending_elsewhere (hstates : fb.VALID ≠ fb.PENDING_VERIFY) (he : fb.entryOf entries sector = some e)
    (hvalid : fb.state e = fb.VALID) (he' : fb.entryOf entries sector' = some e')
    (hpending : fb.state e' = fb.PENDING_VERIFY) : ¬ (sector = 0 ↔ sector' = 0) := by
  intro heq
  cases entry_unique heq he he'
  exact hstates (hvalid.symm.trans hpending)

/-! ### A pair of entries, and the verdicts on the images -/

/-- A valid entry with an accepted image. Every other one that counts as running has one too, or is a valid
one that is no newer. -/
structure Fallback (fb : Fibewi) (ok : UInt8 → Bool) (entries : Entries) (sector : UInt8) (e : fb.Entry) : Prop where
  entry : fb.entryOf entries sector = some e
  valid : fb.state e = fb.VALID
  accepted : ok (fb.slotOf (fb.seq e) 2) = true
  others : ∀ sector' e', fb.entryOf entries sector' = some e' → fb.Running e' →
    ok (fb.slotOf (fb.seq e') 2) = true ∨ fb.state e' = fb.VALID ∧ fb.seq e' ≤ fb.seq e

/-- There is something to boot: an entry to fall back to, or the image of a first boot. -/
inductive Alive (fb : Fibewi) (ok : UInt8 → Bool) (entries : Entries) : Prop
  | fallback {sector : UInt8} {e : fb.Entry} : Fallback fb ok entries sector e → Alive fb ok entries
  | factory : (∀ sector, fb.entryOf entries sector = none) → ok 0 = true → Alive fb ok entries

/-- What a write leaves of the entries when it is cut anywhere. -/
def Wrote (fb : Fibewi) (write : Write fb.Entry) (entries entries' : Entries) : Prop :=
  ∀ sector, fb.entryOf entries' sector = fb.entryOf entries sector ∨ ((sector = 0 ↔ write.sector = 0) ∧
    (fb.entryOf entries' sector = none ∨ fb.entryOf entries' sector = some write.entry))

theorem Wrote.other (h : Wrote fb write entries entries') (hne : ¬ (sector = 0 ↔ write.sector = 0)) :
    fb.entryOf entries' sector = fb.entryOf entries sector :=
  (h sector).resolve_right fun hr => hne hr.1

theorem Wrote.cases (h : Wrote fb write entries entries') (he : fb.entryOf entries' sector = some e) :
    fb.entryOf entries sector = some e ∨ (sector = 0 ↔ write.sector = 0) ∧ e = write.entry := by
  rcases h sector with hsame | ⟨heq, hnone | hnew⟩
  · exact .inl (hsame ▸ he)
  · rw [hnone] at he
    cases he
  · exact .inr ⟨heq, Option.some.inj (he.symm.trans hnew)⟩

theorem Fallback.wrote (h : Fallback fb ok entries sector e) (hw : Wrote fb write entries entries')
    (hne : ¬ (sector = 0 ↔ write.sector = 0))
    (hrun : fb.Running write.entry → ok (fb.slotOf (fb.seq write.entry) 2) = true) :
    Fallback fb ok entries' sector e where
  entry := (hw.other hne).trans h.entry
  valid := h.valid
  accepted := h.accepted
  others sector' e' he' hrun' := by
    rcases hw.cases he' with he | ⟨-, rfl⟩
    · exact h.others _ _ he hrun'
    · exact .inl (hrun hrun')

/-- A valid entry that is no older will do as well. -/
theorem Fallback.promote (h : Fallback fb ok entries sector e) (he' : fb.entryOf entries sector' = some e')
    (hvalid : fb.state e' = fb.VALID) (hle : fb.seq e ≤ fb.seq e') : Fallback fb ok entries sector' e' where
  entry := he'
  valid := hvalid
  accepted := by
    rcases h.others _ _ he' (.inl hvalid) with hok | ⟨-, hge⟩
    · exact hok
    · rw [UInt32.le_antisymm hge hle]
      exact h.accepted
  others sector'' e'' he'' hrun := (h.others _ _ he'' hrun).imp_right fun ⟨hv, hge⟩ => ⟨hv, UInt32.le_trans hge hle⟩

/-- While the running image is confirmed nothing is pending. -/
theorem valid_of_confirmed (hconfirmed : imageOutcome fb entries = .confirmed)
    (he : fb.entryOf entries sector = some e) (hrun : fb.Running e) : fb.state e = fb.VALID := by
  refine hrun.resolve_right fun hpending => ?_
  rcases imageOutcome_cases fb entries with ⟨h, -⟩ | ⟨h, -⟩
  · rw [hconfirmed] at h
    cases h
  · exact h ⟨sector, e, he, hpending⟩

theorem entry_of_confirmed (hconfirmed : imageOutcome fb entries = .confirmed) :
    ∃ sector e, fb.entryOf entries sector = some e := by
  rcases imageOutcome_cases fb entries with ⟨h, -⟩ | ⟨-, ⟨-, sector, e, he, -⟩ | ⟨h, -⟩⟩
  · exact absurd (h.symm.trans hconfirmed) nofun
  · exact ⟨sector, e, he⟩
  · exact absurd (h.symm.trans hconfirmed) nofun

/-! ### The calls -/

/-- A pending entry is not the one to fall back to. -/
theorem Fallback.elsewhere (hstates : fb.VALID ≠ fb.PENDING_VERIFY) (h : Fallback fb ok entries sector e)
    (he' : fb.entryOf entries sector' = some e') (hpending : fb.state e' = fb.PENDING_VERIFY) :
    ¬ (sector = 0 ↔ sector' = 0) ∧ ok (fb.slotOf (fb.seq e') 2) = true :=
  ⟨pending_elsewhere hstates h.entry h.valid he' hpending,
    (h.others _ _ he' (.inr hpending)).resolve_right fun hv => hstates (hv.1.symm.trans hpending)⟩

/-- Confirming and rejecting leave an entry to fall back to, and so does activating while nothing is pending. -/
theorem Alive.call (htl : fb.TransitionLaw) (hstates : fb.VALID ≠ fb.PENDING_VERIFY) (h : Alive fb ok entries)
    {call : Call} (hw : call.decision fb entries = some write) (hsector : write.sector < 2)
    (hwrote : Wrote fb write entries entries')
    (hprudent : ∀ target, call = .activate target → imageOutcome fb entries = .confirmed) :
    Alive fb ok entries' := by
  cases h with
  | factory hblank _ =>
    cases call with
    | confirm =>
      obtain ⟨e, he, -⟩ := htl.confirm hw
      exact absurd hblank (not_blank he)
    | reject =>
      obtain ⟨e, he, -⟩ := htl.reject hw
      exact absurd hblank (not_blank he)
    | activate target =>
      obtain ⟨sector, e, he⟩ := entry_of_confirmed (hprudent _ rfl)
      exact absurd hblank (not_blank he)
  | @fallback sector e h =>
    cases call with
    | confirm =>
      obtain ⟨e', he', hpending, hseq, -⟩ := htl.confirm hw
      obtain ⟨hne, hok⟩ := h.elsewhere hstates he' hpending
      exact .fallback (h.wrote hwrote hne fun _ => hseq ▸ hok)
    | reject =>
      obtain ⟨e', he', hpending, hstopped⟩ := htl.reject hw
      exact .fallback (h.wrote hwrote (h.elsewhere hstates he' hpending).1 fun hrun => absurd hrun hstopped)
    | activate target =>
      obtain ⟨hstopped, hnewest⟩ := htl.activate hw
      by_cases heq : sector = 0 ↔ write.sector = 0
      · -- the entry is overwritten, but a running one that is no older is not
        obtain ⟨e', he', hrun, hle⟩ := hnewest e (Fibewi.entryOf_congr heq ▸ h.entry) (.inl h.valid)
        have hvalid := valid_of_confirmed (hprudent _ rfl) he' hrun
        refine .fallback ((h.promote he' hvalid hle).wrote hwrote ?_ fun hrun => absurd hrun hstopped)
        exact one_sub_sector hsector
      · exact .fallback (h.wrote hwrote heq fun hrun => absurd hrun hstopped)

/-- The slot that `write_target` names holds no image that is needed. -/
theorem Alive.reuse (h : Alive fb ok entries) (hconfirmed : imageOutcome fb entries = .confirmed) {x : AppSlot}
    (htarget : targetSlot fb entries = some x) (hok : ∀ slot, slot ≠ slotIndex x → ok slot = true → ok' slot = true) :
    Alive fb ok' entries := by
  cases h with
  | factory hblank _ =>
    obtain ⟨sector, e, he⟩ := entry_of_confirmed hconfirmed
    exact absurd hblank (not_blank he)
  | @fallback sector e h =>
    obtain ⟨c, hc⟩ := exists_current h.entry (.inl h.valid)
    obtain ⟨sector', he'⟩ := hc.entry
    have hnewest := h.promote he' (valid_of_confirmed hconfirmed he' hc.running)
      (hc.newest _ ⟨sector, e, h.entry, .inl h.valid, rfl⟩)
    have hgoverns : Governs fb entries (fb.slotOf (fb.seq c) 2) := fun seq hseq hmax => by
      rw [UInt32.le_antisymm (hc.newest _ hseq) (hmax _ hc.hasSeq)]
    refine .fallback ⟨he', hnewest.valid, hok _ (hgoverns.targetSlot_ne htarget).symm hnewest.accepted, ?_⟩
    intro sector'' e'' he'' hrun
    exact .inr ⟨valid_of_confirmed hconfirmed he'' hrun, hc.newest _ ⟨sector'', e'', he'', hrun, rfl⟩⟩

/-! ### Booting -/

/-- What a cut leaves while writes are carried out in order. -/
inductive WroteAll (fb : Fibewi) : List (Write fb.Entry) → Entries → Entries → Prop
  | between (writes : List (Write fb.Entry)) (entries : Entries) : WroteAll fb writes entries entries
  | inside {write : Write fb.Entry} {rest : List (Write fb.Entry)} {entries entries' : Entries} :
      Wrote fb write entries entries' → WroteAll fb (write :: rest) entries entries'
  | next {write : Write fb.Entry} {rest : List (Write fb.Entry)} {entries entries' entries'' : Entries} :
      Wrote fb write entries entries' → WroteAll fb rest entries' entries'' →
      WroteAll fb (write :: rest) entries entries''

/-- What every one of the writes preserves. -/
theorem WroteAll.preserves {J : Entries → Prop} {writes : List (Write fb.Entry)}
    (hstep : ∀ write ∈ writes, ∀ entries entries', Wrote fb write entries entries' → J entries → J entries')
    (h : WroteAll fb writes entries entries') (hJ : J entries) : J entries' := by
  induction h with
  | between => exact hJ
  | inside hw => exact hstep _ (.head _) _ _ hw hJ
  | next hw _ ih =>
    exact ih (fun write hmem => hstep write (.tail _ hmem)) (hstep _ (.head _) _ _ hw hJ)

/-- What a plan writes lies beside a valid entry whose image is accepted. -/
theorem planned_beside (hpl : fb.SparingLaw) (hmem : write ∈ (fb.planned entries ok).writes)
    (he : fb.entryOf entries sector = some e) (hvalid : fb.state e = fb.VALID)
    (hok : ok (fb.slotOf (fb.seq e) 2) = true) : ¬ (sector = 0 ↔ write.sector = 0) := by
  intro heq
  have hspared := hpl.spared hmem (Fibewi.entryOf_congr heq ▸ he) hvalid
  exact absurd (hok.symm.trans hspared) (by decide)

theorem planned_boots (hpl : fb.SparingLaw) (he : fb.entryOf entries sector = some e) (hvalid : fb.state e = fb.VALID)
    (hok : ok (fb.slotOf (fb.seq e) 2) = true) : ∃ slot seq, (fb.planned entries ok).boot = .slot slot seq := by
  cases hboot : (fb.planned entries ok).boot with
  | slot slot seq => exact ⟨slot, seq, rfl⟩
  | halt why => exact absurd (hok.symm.trans (hpl.halted hboot he hvalid)) (by decide)

/-- And it boots an entry that is there. -/
theorem boots_entry {bootable : fb.Entry → Prop} (hpl : fb.SparingLaw) (hplan : fb.PlanLaw bootable)
    (hrl : fb.RevivalLaw bootable) (he : fb.entryOf entries sector = some e) (hvalid : fb.state e = fb.VALID)
    (hok : ok (fb.slotOf (fb.seq e) 2) = true) :
    ∃ sector₁ e₁, fb.entryOf entries sector₁ = some e₁ ∧ bootable e₁ ∧ ok (fb.slotOf (fb.seq e₁) 2) = true ∧
      (fb.planned entries ok).boot = .slot (fb.slotOf (fb.seq e₁) 2) (fb.seq e₁) := by
  obtain ⟨slot, seq, hboot⟩ := planned_boots hpl he hvalid hok
  obtain ⟨sector₁, e₁, he₁, hbootable, rfl⟩ := (hrl.booted hboot).resolve_right (not_blank he)
  have hslot := (hplan.booted hboot).1
  exact ⟨sector₁, e₁, he₁, hbootable, hslot ▸ hpl.booted hboot, by rw [hslot, hboot]⟩

theorem Alive.plan (hpl : fb.SparingLaw) (h : Alive fb ok entries)
    (hw : WroteAll fb (fb.planned entries ok).writes entries entries') : Alive fb ok entries' := by
  cases h with
  | @fallback sector e h =>
    refine .fallback (hw.preserves (J := fun entries => Fallback fb ok entries sector e) ?_ h)
    intro write hmem _ _ hwrote h'
    exact h'.wrote hwrote (planned_beside hpl hmem h.entry h.valid h.accepted) (hpl.marked hmem)
  | factory hblank hok =>
    -- on a first boot every entry there is was made valid for an accepted image
    have hvalid : ∀ sector e, fb.entryOf entries' sector = some e →
        fb.state e = fb.VALID ∧ ok (fb.slotOf (fb.seq e) 2) = true := by
      refine hw.preserves (J := fun entries => ∀ sector e, fb.entryOf entries sector = some e →
        fb.state e = fb.VALID ∧ ok (fb.slotOf (fb.seq e) 2) = true) ?_ fun sector e he => ?_
      · intro write hmem entries₁ entries₂ hwrote h₁ sector e he
        rcases hwrote.cases he with he | ⟨-, rfl⟩
        · exact h₁ sector e he
        · have hvalid := (hpl.first hblank hok).2 write hmem
          exact ⟨hvalid, hpl.marked hmem (.inl hvalid)⟩
      · rw [hblank] at he
        cases he
    by_cases hnone : ∀ sector, fb.entryOf entries' sector = none
    · exact .factory hnone hok
    · obtain ⟨sector, hsome⟩ := not_forall.mp hnone
      obtain ⟨e, he⟩ := Option.ne_none_iff_exists'.mp hsome
      obtain ⟨hv, hok'⟩ := hvalid sector e he
      exact .fallback ⟨he, hv, hok', fun sector' e' he' _ => .inl (hvalid sector' e' he').2⟩

/-- As long as there is something to boot, the plan boots. -/
theorem Alive.boots (hpl : fb.SparingLaw) (h : Alive fb ok entries) :
    ∃ slot seq, (fb.planned entries ok).boot = .slot slot seq := by
  cases h with
  | fallback h => exact planned_boots hpl h.entry h.valid h.accepted
  | factory hblank hok =>
    cases hboot : (fb.planned entries ok).boot with
    | slot slot seq => exact ⟨slot, seq, rfl⟩
    | halt why => exact absurd hboot ((hpl.first hblank hok).1 why)

/-! ### The flash -/

/-- What `image::validate` relies on: the bytes of the partition alone, and segments inside the flash. -/
structure Judged (judge : Flash → UInt32 → UInt32 → Option Image) : Prop where
  here : ∀ {f g : Flash} {offset size : UInt32},
    (∀ x, offset.toNat ≤ x → x < offset.toNat + size.toNat → g x = f x) → judge g offset size = judge f offset size
  fits : ∀ {f offset size image}, judge f offset size = some image → ∀ seg ∈ nonEmpty image,
    seg.dataOffset.toNat + seg.len.toNat ≤ 2 ^ 32

variable {H : Sha256} {g : Geometry} {w : Nat} {E : Engine} {M : FlashMap}
  {judge : Flash → UInt32 → UInt32 → Option Image} {layout : Layout} {b : Behaviour} {s : State} {f f' : Flash}

/-- The bootloader finds the slots where the application does. -/
def SameSlots (layout : Layout) (M : FlashMap) : Prop :=
  ∀ x, (partition layout x).1 = (M.slot x).offset ∧ (partition layout x).2.toNat = (M.slot x).size

theorem slotIndex_of_accepts {slot : UInt8} (h : accepts judge layout f slot = true) : ∃ x, slot = slotIndex x := by
  unfold accepts verdict at h
  split at h
  · exact ⟨.ota0, rfl⟩
  · exact ⟨.ota1, rfl⟩
  · cases h

theorem accepts_slotIndex (x : AppSlot) : accepts judge layout f (slotIndex x) =
    (judge f (partition layout x).1 (partition layout x).2).isSome := by
  cases x <;> rfl

theorem accepts_of_judge {x : AppSlot} {image : Image}
    (h : judge f (partition layout x).1 (partition layout x).2 = some image) :
    accepts judge layout f (slotIndex x) = true := by
  rw [accepts_slotIndex, h]
  rfl

theorem judge_frame (hj : Judged judge) (hsame : SameSlots layout M) {r : Region} (hframe : r.Frame f f') {x : AppSlot}
    (hr : r.Apart (.ofSlot (M.slot x))) :
    judge f' (partition layout x).1 (partition layout x).2 = judge f (partition layout x).1 (partition layout x).2 := by
  obtain ⟨hoffset, hsize⟩ := hsame x
  refine hj.here fun z hlo hhi => hframe z fun hz => hr z hz ?_
  rw [hoffset] at hlo hhi
  rw [hsize] at hhi
  exact ⟨hlo, hhi⟩

theorem accepts_frame (hj : Judged judge) (hsame : SameSlots layout M) {r : Region} (hframe : r.Frame f f')
    (hr : ∀ x, r.Apart (.ofSlot (M.slot x))) : accepts judge layout f' = accepts judge layout f := by
  have hslot : ∀ x, accepts judge layout f' (slotIndex x) = accepts judge layout f (slotIndex x) := fun x => by
    rw [accepts_slotIndex, accepts_slotIndex, judge_frame hj hsame hframe (hr x)]
  funext slot
  by_cases h : accepts judge layout f slot = true
  · obtain ⟨x, rfl⟩ := slotIndex_of_accepts h
    exact hslot x
  · by_cases h' : accepts judge layout f' slot = true
    · obtain ⟨x, rfl⟩ := slotIndex_of_accepts h'
      exact hslot x
    · exact (Bool.eq_false_iff.mpr h').trans (Bool.eq_false_iff.mpr h).symm

theorem ota_slot (x : AppSlot) : (Region.ofEntry M.ota).Apart (.ofSlot (M.slot x)) :=
  fun z hz hz' => M.slot_ota x z hz' hz

theorem entryOf_entriesAt {base : UInt32} (hs : sector < 2) :
    fb.entryOf (entriesAt fb f base) sector = fb.decode (rawAt fb f base sector) := by
  rcases sector_cases hs with rfl | rfl <;> rfl

theorem UpdateCut.wrote (hl : fb.OpsLaw) (hu : UpdateCut fb M.ota.offset write f f') :
    Wrote fb write (entriesAt fb f M.ota.offset) (entriesAt fb f' M.ota.offset) := by
  have hat : ∀ i, i < 2 → fb.entryOf (entriesAt fb f' M.ota.offset) i = fb.entryOf (entriesAt fb f M.ota.offset) i ∨
      i = write.sector ∧ (fb.entryOf (entriesAt fb f' M.ota.offset) i = none ∨
        fb.entryOf (entriesAt fb f' M.ota.offset) i = some write.entry) := by
    intro i hi
    rw [entryOf_entriesAt hi, entryOf_entriesAt hi]
    by_cases hne : i = write.sector
    · subst hne
      rcases hu.safe.decodes with hnone | hold | hnew
      · exact .inr ⟨rfl, .inl hnone⟩
      · exact .inl hold
      · exact .inr ⟨rfl, .inr hnew⟩
    · exact .inl (congrArg _ (hu.keeps hl hi hne))
  intro sector
  by_cases hzero : sector = 0
  · subst hzero
    exact (hat 0 (by decide)).imp_right fun ⟨hi, hw⟩ => ⟨by rw [← hi], hw⟩
  · have hone : sector = 0 ↔ (1 : UInt8) = 0 := iff_of_false hzero (by decide)
    rw [Fibewi.entryOf_congr hone, Fibewi.entryOf_congr hone]
    exact (hat 1 (by decide)).imp_right fun ⟨hi, hw⟩ => ⟨by rw [← hi]; exact hone, hw⟩

theorem WritesCut.wrote (hl : fb.OpsLaw) {writes : List (Write fb.Entry)}
    (h : WritesCut fb M.ota.offset writes f f') :
    WroteAll fb writes (entriesAt fb f M.ota.offset) (entriesAt fb f' M.ota.offset) := by
  induction h with
  | between => exact .between _ _
  | inside hcut => exact .inside (hcut.wrote hl)
  | next hcut _ _ ih => exact .next (hcut.wrote hl) ih

theorem ota_table : (Region.ofEntry M.ota).Apart tableRegion := by
  have hapart := M.placed.apart
  intro x hx hx'
  simp only [Region.ofEntry, Region.Has, tableRegion] at hx hx'
  omega

theorem read_table {r : Region} (hframe : r.Frame f f') (hr : r.Apart tableRegion) :
    Nor.read f' 0x8000 0xC00 = Nor.read f 0x8000 0xC00 :=
  read_eq_iff.mpr fun i hi => (Frame.table hframe hr (by omega) (by omega)).symm

theorem entriesAt_frame (hl : fb.OpsLaw) {r : Region} (hr : r.Apart (.ofEntry M.ota)) (hframe : r.Frame f f') :
    entriesAt fb f' M.ota.offset = entriesAt fb f M.ota.offset :=
  Prod.ext (rawAt_frame hl hr hframe (by decide)) (rawAt_frame hl hr hframe (by decide))

/-- The application and the bootloader find the boot entries, in sectors that stay legible, and the slots. -/
structure Charted (idf : EspIdf) (fb : Fibewi) (M : FlashMap) (layout : Layout) (f : Flash) : Prop where
  sound : Sound idf fb M.ota f
  table : layoutOf (Nor.read f 0x8000 0xC00) = .ok layout

theorem Charted.request (hl : fb.OpsLaw) (hsl : fb.SectorLaw) (h : Charted idf fb M layout f) {c : Request E M}
    (hcut : RequestCut fb c f f') : Charted idf fb M layout f' := by
  refine ⟨h.sound.request hl hsl hcut, (congrArg layoutOf ?_).trans h.table⟩
  rcases hcut.cases with ⟨-, hframe⟩ | rfl | ⟨call, write, -, hw, hu⟩
  · exact read_table hframe (region_table c)
  · rfl
  · exact read_table (Elsewhere.frame (Call.sector_lt hsl hw) hu.safe.outside) ota_table

theorem Charted.writes (hl : fb.OpsLaw) (h : Charted idf fb M layout f) {writes : List (Write fb.Entry)}
    (hsectors : ∀ write ∈ writes, write.sector < 2) (hcut : WritesCut fb M.ota.offset writes f f') :
    Charted idf fb M layout f' :=
  ⟨h.sound.writes hl M.placed hsectors hcut,
    (congrArg layoutOf (read_table (hcut.frame hsectors) ota_table)).trans h.table⟩

/-- The flash can be booted from. -/
structure Survives (idf : EspIdf) (fb : Fibewi) (M : FlashMap) (judge : Flash → UInt32 → UInt32 → Option Image)
    (layout : Layout) (f : Flash) : Prop extends Charted idf fb M layout f where
  alive : Alive fb (accepts judge layout f) (entriesAt fb f M.ota.offset)

/-- An upload goes to the slot that `write_target` names, and uploads and activations wait until `image_outcome`
reports the running image confirmed. -/
def Prudent (fb : Fibewi) (f : Flash) : Request E M → Prop
  | .append x .. | .finish x .. => imageOutcome fb (entriesAt fb f M.ota.offset) = .confirmed ∧
    targetSlot fb (entriesAt fb f M.ota.offset) = some x
  | .activate _ => imageOutcome fb (entriesAt fb f M.ota.offset) = .confirmed
  | _ => True

theorem writes_unique {c : Request E M} {x y : AppSlot} (hx : Request.Writes x c) (hy : Request.Writes y c) :
    x = y := by
  cases c with
  | append z u data => exact hx.symm.trans hy
  | finish z u => exact hx.symm.trans hy
  | _ => cases hx

theorem Prudent.of_writes {c : Request E M} {x : AppSlot} (h : Prudent fb f c) (hx : Request.Writes x c) :
    imageOutcome fb (entriesAt fb f M.ota.offset) = .confirmed ∧
      targetSlot fb (entriesAt fb f M.ota.offset) = some x := by
  cases c with
  | append y u data =>
    cases (show y = x from hx)
    exact h
  | finish y u =>
    cases (show y = x from hx)
    exact h
  | _ => cases hx

theorem Prudent.of_call {c : Request E M} {call : Call} (h : Prudent fb f c) (hc : c.call? = some call) :
    ∀ target, call = .activate target → imageOutcome fb (entriesAt fb f M.ota.offset) = .confirmed := by
  rintro target rfl
  cases activate_of_call? hc
  exact h

section Steps

variable (hl : fb.OpsLaw) (hsl : fb.SectorLaw) (hj : Judged judge) (hsame : SameSlots layout M)

include hl hj hsame

/-- A call that updates no boot entry leaves something to boot. -/
theorem Survives.frame (h : Survives idf fb M judge layout f) {c : Request E M} (hc : c.call? = none)
    (hprudent : Prudent fb f c) (hframe : c.region.Frame f f') :
    Alive fb (accepts judge layout f') (entriesAt fb f' M.ota.offset) := by
  rw [entriesAt_frame hl (region_ota hc) hframe]
  by_cases hwrites : ∃ x, Request.Writes x c
  · obtain ⟨x, hx⟩ := hwrites
    obtain ⟨hconfirmed, htarget⟩ := hprudent.of_writes hx
    refine h.alive.reuse hconfirmed htarget fun slot hne hok => ?_
    obtain ⟨y, rfl⟩ := slotIndex_of_accepts hok
    have hother : ¬ Request.Writes y c := fun hy => hne (congrArg slotIndex (writes_unique hy hx))
    rw [accepts_slotIndex] at hok ⊢
    rwa [judge_frame hj hsame hframe (region_other hother)]
  · rw [accepts_frame hj hsame hframe fun x => region_other fun hx => hwrites ⟨x, hx⟩]
    exact h.alive

include hsl

theorem Survives.request (htl : fb.TransitionLaw) (hstates : fb.VALID ≠ fb.PENDING_VERIFY)
    (h : Survives idf fb M judge layout f) {c : Request E M} (hprudent : Prudent fb f c)
    (hcut : RequestCut fb c f f') : Survives idf fb M judge layout f' := by
  refine ⟨h.toCharted.request hl hsl hcut, ?_⟩
  rcases hcut.cases with ⟨hc, hframe⟩ | rfl | ⟨call, write, hc, hw, hu⟩
  · exact h.frame hl hj hsame hc hprudent hframe
  · exact h.alive
  · have hsector := Call.sector_lt hsl hw
    rw [accepts_frame hj hsame (Elsewhere.frame hsector hu.safe.outside) ota_slot]
    exact h.alive.call htl hstates hw hsector (hu.wrote hl) (hprudent.of_call hc)

theorem Survives.boot (hpl : fb.SparingLaw) (h : Survives idf fb M judge layout f)
    (hcut : WritesCut fb M.ota.offset (bootPlan fb judge layout M.ota.offset f).writes f f') :
    Survives idf fb M judge layout f' := by
  have hsectors : ∀ write ∈ (bootPlan fb judge layout M.ota.offset f).writes, write.sector < 2 := bootPlan_sectors hsl
  refine ⟨h.toCharted.writes hl hsectors hcut, ?_⟩
  rw [accepts_frame hj hsame (hcut.frame hsectors) ota_slot]
  exact h.alive.plan hpl (hcut.wrote hl)

end Steps

end Espbewi.System
