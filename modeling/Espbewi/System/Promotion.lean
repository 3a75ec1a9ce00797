import Espbewi.System.Verdict

/-! An image that is activated, up to its trial. -/

namespace Espbewi.System

open Lib Nor Boot Hw Platform Otadata Bootloader Prog SharedFlash

variable {idf : EspIdf} {fb : Fibewi} {bootable : fb.Entry → Prop} {entries entries' : Entries} {ok : UInt8 → Bool}
  {write : Write fb.Entry} {sector sector' : UInt8} {e e' : fb.Entry}

/-! ### The entries -/

/-- A valid entry, and a newer one that was activated. -/
structure Promoted (fb : Fibewi) (bootable : fb.Entry → Prop) (entries : Entries) (sector : UInt8) (e : fb.Entry)
    (sector' : UInt8) (e' : fb.Entry) : Prop where
  old : fb.entryOf entries sector = some e
  valid : fb.state e = fb.VALID
  new : fb.entryOf entries sector' = some e'
  bootable : bootable e'
  stopped : ¬ fb.Running e'
  newer : fb.seq e < fb.seq e'

/-- `activate` leaves a newest entry beside the one it writes. -/
theorem Newest.aside (htl : fb.TransitionLaw) (h : Newest fb bootable entries sector e)
    (hconfirmed : imageOutcome fb entries = .confirmed) {slot : UInt8} (hw : fb.activate entries 2 slot = some write)
    (hsector : write.sector < 2) : ∃ sector₀ e₀, Newest fb bootable entries sector₀ e₀ ∧ fb.seq e₀ = fb.seq e ∧
      ¬ (sector₀ = 0 ↔ write.sector = 0) := by
  by_cases heq : sector = 0 ↔ write.sector = 0
  · -- the entry is overwritten, and the other sector holds a valid one of the same age
    obtain ⟨e₀, he₀, hrun, hle⟩ := (htl.activate hw).2 e (Fibewi.entryOf_congr heq ▸ h.entry) (.inl h.valid)
    have hseq := UInt32.le_antisymm (h.newest _ _ he₀ (.inr hrun)) hle
    refine ⟨_, e₀, ⟨he₀, valid_of_confirmed hconfirmed he₀ hrun, fun sector₁ e₁ he₁ hlive => ?_⟩, hseq, ?_⟩
    · exact hseq ▸ h.newest _ _ he₁ hlive
    · exact one_sub_sector hsector
  · exact ⟨sector, e, h, rfl, heq⟩

theorem promoted_of_activate (htl : fb.TransitionLaw) (hal : fb.ActivateLaw) (hbl : fb.BootLaw bootable) {slot : UInt8}
    (hw : fb.activate entries 2 slot = some write) (he : fb.entryOf entries sector = some e)
    (hvalid : fb.state e = fb.VALID) (hold : fb.entryOf entries' sector = some e)
    (hnew : fb.entryOf entries' write.sector = some write.entry) :
    Promoted fb bootable entries' sector e write.sector write.entry :=
  ⟨hold, hvalid, hnew, hbl.activated hw, (htl.activate hw).1, hal.newest hw he⟩

theorem Newest.activate (hde : fb.DecodeEncode) (htl : fb.TransitionLaw) (hal : fb.ActivateLaw)
    (hbl : fb.BootLaw bootable) (h : Newest fb bootable entries sector e)
    (hconfirmed : imageOutcome fb entries = .confirmed) {slot : UInt8} (hw : fb.activate entries 2 slot = some write)
    (hsector : write.sector < 2) :
    ∃ sector₀ e₀, Promoted fb bootable (fb.written entries write) sector₀ e₀ write.sector write.entry ∧
      fb.seq e₀ = fb.seq e := by
  obtain ⟨sector₀, e₀, hnewest, hseq, hne⟩ := h.aside htl hconfirmed hw hsector
  have hold := (Fibewi.written_other hde hne).trans hnewest.entry
  exact ⟨sector₀, e₀, promoted_of_activate htl hal hbl hw hnewest.entry hnewest.valid hold (Fibewi.written_same hde),
    hseq⟩

theorem Promoted.sector_ne (h : Promoted fb bootable entries sector e sector' e') : ¬ (sector = 0 ↔ sector' = 0) := by
  intro heq
  cases entry_unique heq h.old h.new
  exact UInt32.lt_irrefl _ h.newer

/-- There are two sectors only. -/
theorem Promoted.other (h : Promoted fb bootable entries sector e sector' e') {sector₁ : UInt8} {e₁ : fb.Entry}
    (hne : ¬ (sector = 0 ↔ sector₁ = 0)) (he : fb.entryOf entries sector₁ = some e₁) : e₁ = e' :=
  entry_unique (same_sector h.sector_ne hne) h.new he

theorem Promoted.cases (h : Promoted fb bootable entries sector e sector' e') {sector₁ : UInt8} {e₁ : fb.Entry}
    (he : fb.entryOf entries sector₁ = some e₁) : e₁ = e ∨ e₁ = e' := by
  by_cases heq : sector = 0 ↔ sector₁ = 0
  · exact .inl (entry_unique heq h.old he)
  · exact .inr (h.other heq he)

/-- The plan boots the activated entry, whose image is accepted. -/
theorem Promoted.boots (hpl : fb.SparingLaw) (hplan : fb.PlanLaw bootable) (hrl : fb.RevivalLaw bootable)
    (h : Promoted fb bootable entries sector e sector' e') (hold : ok (fb.slotOf (fb.seq e) 2) = true)
    (hnew : ok (fb.slotOf (fb.seq e') 2) = true) :
    (fb.planned entries ok).boot = .slot (fb.slotOf (fb.seq e') 2) (fb.seq e') := by
  obtain ⟨sector₁, e₁, he₁, -, -, hboot⟩ := boots_entry hpl hplan hrl h.old h.valid hold
  have hle := hplan.highest hboot h.new h.bootable hnew
  rcases h.cases he₁ with rfl | rfl
  · exact absurd h.newer (UInt32.not_lt.mpr hle)
  · exact hboot

/-- And puts it on trial. -/
theorem Promoted.onTrial (hde : fb.DecodeEncode) (hpl : fb.SparingLaw) (hplan : fb.PlanLaw bootable)
    (hrl : fb.RevivalLaw bootable) (htrial : fb.TrialLaw) (h : Promoted fb bootable entries sector e sector' e')
    (hold : ok (fb.slotOf (fb.seq e) 2) = true) (hnew : ok (fb.slotOf (fb.seq e') 2) = true) :
    ∃ sector₂ e₂, OnTrial fb (fb.writtenAll entries (fb.planned entries ok).writes) sector e sector₂ e₂ ∧
      fb.seq e₂ = fb.seq e' := by
  obtain ⟨-, sector₂, e₂, -, he₂, hrun, hseq⟩ := hplan.booted (h.boots hpl hplan hrl hold hnew)
  refine ⟨sector₂, e₂, ⟨?_, h.valid, he₂, hrun.resolve_left fun hvalid => ?_, ?_⟩, hseq⟩
  · exact (Fibewi.writtenAll_other hde fun write hmem => planned_beside hpl hmem h.old h.valid hold).trans h.old
  · -- a valid one is not written, and was not there
    rcases Fibewi.writtenAll_cases hde he₂ with he | ⟨write, hmem, rfl⟩
    · rcases h.cases he with rfl | rfl
      · exact UInt32.lt_irrefl _ (hseq ▸ h.newer)
      · exact h.stopped hrun
    · exact not_blank h.old (htrial _ _ write hmem hvalid)
  · exact hseq ▸ UInt32.le_of_lt h.newer

/-! ### The flash -/

variable {H : Sha256} {g : Geometry} {w : Nat} {E : Engine} {M : FlashMap}
  {judge : Flash → UInt32 → UInt32 → Option Image} {layout : Layout} {b : Behaviour} {s s' : State} {f f' : Flash}
  {x y : AppSlot} {old new : Image}

/-- Slot `y` was activated, and slot `x` holds the image that was confirmed before. -/
structure Staged (idf : EspIdf) (fb : Fibewi) (bootable : fb.Entry → Prop) (M : FlashMap)
    (judge : Flash → UInt32 → UInt32 → Option Image) (layout : Layout) (x y : AppSlot) (old new : Image) (f : Flash) :
    Prop extends Charted idf fb M layout f where
  entries : ∃ sector e sector' e', Promoted fb bootable (entriesAt fb f M.ota.offset) sector e sector' e' ∧
    fb.slotOf (fb.seq e) 2 = slotIndex x ∧ fb.slotOf (fb.seq e') 2 = slotIndex y
  old : judge f (partition layout x).1 (partition layout x).2 = some old
  new : judge f (partition layout y).1 (partition layout y).2 = some new

/-- A call that updates no boot entry and writes no slot. -/
def Still (c : Request E M) : Prop := c.call? = none ∧ ∀ z, ¬ Request.Writes z c

section Steps

variable (hl : fb.OpsLaw) (hsl : fb.SectorLaw) (hj : Judged judge) (hsame : SameSlots layout M)

include hl hsl hj hsame

theorem Staged.request (h : Staged idf fb bootable M judge layout x y old new f) {c : Request E M} (hc : Still c)
    (hcut : RequestCut fb c f f') : Staged idf fb bootable M judge layout x y old new f' := by
  have hframe := hcut.frame hc.1
  have hslots : ∀ z, judge f' (partition layout z).1 (partition layout z).2 =
      judge f (partition layout z).1 (partition layout z).2 := fun z =>
    judge_frame hj hsame hframe (region_other (hc.2 z))
  refine ⟨h.toCharted.request hl hsl hcut, ?_, (hslots x).trans h.old, (hslots y).trans h.new⟩
  rw [entriesAt_frame hl (region_ota hc.1) hframe]
  exact h.entries

theorem Settled.activate (hdw : fb.DecodeWorn) (hde : fb.DecodeEncode) (htl : fb.TransitionLaw) (hal : fb.ActivateLaw)
    (hbl : fb.BootLaw bootable) (hb : b.Honest) (h : Settled idf fb bootable M judge layout x old s.flash)
    (hconfirmed : imageOutcome fb (entriesAt fb s.flash M.ota.offset) = .confirmed)
    (hnew : judge s.flash (partition layout y).1 (partition layout y).2 = some new)
    (hserves : (service idf fb H g w E M).Serves (Service.ofDevice (norDevice b)).bound ⟨.activate y, .ok (), s, s'⟩) :
    Staged idf fb bootable M judge layout x y old new s'.flash := by
  have hcharted : Charted idf fb M layout s'.flash :=
    serves_invariant (P := fun _ _ => True) hl hdw hsl (fun _ h => h) (fun _ _ _ h _ hcut => h.request hl hsl hcut) hb
      h.toCharted (fun _ => trivial) hserves
  have hrun : (ExceptT.run (Call.exec idf fb (.activate y))).run (norDevice b) s = (.ok (), s') := hserves.run rfl
  obtain ⟨write, hw, hsector, helse, hentries⟩ := call_ok hb hl hsl M.placed h.sound.app hrun
  obtain ⟨sector, e, hnewest, hslot⟩ := h.newest
  obtain ⟨sector₀, e₀, hpromoted, hseq⟩ := hnewest.activate hde htl hal hbl hconfirmed hw hsector
  have hframe := Elsewhere.frame hsector helse
  refine ⟨hcharted, ⟨sector₀, e₀, write.sector, write.entry, hentries ▸ hpromoted, hseq ▸ hslot, hal.slot hw⟩, ?_, ?_⟩
  · exact (judge_frame hj hsame hframe (ota_slot x)).trans h.image
  · exact (judge_frame hj hsame hframe (ota_slot y)).trans hnew

/-- Without faults the activated image runs, on trial. -/
theorem Staged.boots (hde : fb.DecodeEncode) (hdw : fb.DecodeWorn) (hslot : fb.SlotLaw) (hwl : fb.WordLaw)
    (hpl : fb.SparingLaw) (hplan : fb.PlanLaw bootable) (hrl : fb.RevivalLaw bootable) (htrial : fb.TrialLaw)
    (hend : M.ota.offset.toNat + 0x2000 < 2 ^ 32) (h : Staged idf fb bootable M judge layout x y old new s.flash)
    {map : MemoryMap} {other : State → (o : HwOp) → o.Ans} (hhealthy : Healthy judge map other) :
    ∃ s', (ExceptT.run (boot fb map)).run (romDevice perfect other) s = (.ok new.entry, s') ∧
      Trial idf fb M judge layout x y old new s'.flash := by
  obtain ⟨sector, e, sector', e', hpromoted, hx, hy⟩ := h.entries
  have hold : accepts judge layout s.flash (fb.slotOf (fb.seq e) 2) = true := hx ▸ accepts_of_judge h.old
  have hnew : accepts judge layout s.flash (fb.slotOf (fb.seq e') 2) = true := hy ▸ accepts_of_judge h.new
  have hboots : (bootPlan fb judge layout M.ota.offset s.flash).boot = .slot (slotIndex y) (fb.seq e') :=
    hy ▸ hpromoted.boots hpl hplan hrl hold hnew
  obtain ⟨s', hrun, hcut, hentries⟩ := h.toCharted.boots hl hde hdw hsl hslot hwl hj hsame hend hhealthy hboots h.new
  obtain ⟨sector₂, e₂, hontrial, hseq⟩ := hpromoted.onTrial hde hpl hplan hrl htrial hold hnew
  have hsectors : ∀ write ∈ (bootPlan fb judge layout M.ota.offset s.flash).writes, write.sector < 2 :=
    bootPlan_sectors hsl
  have hslots : ∀ z, judge s'.flash (partition layout z).1 (partition layout z).2 =
      judge s.flash (partition layout z).1 (partition layout z).2 := fun z =>
    judge_frame hj hsame (hcut.frame hsectors) (ota_slot z)
  exact ⟨s', hrun, h.toCharted.writes hl hsectors hcut, ⟨sector, e, sector₂, e₂, hentries ▸ hontrial, hx, hseq ▸ hy⟩,
    (hslots x).trans h.old, (hslots y).trans h.new⟩

end Steps

/-- From a confirmed image to the trial of the next one. Once `activate` has returned `Ok` for a slot whose image is
accepted, while the one that runs is confirmed, the next boot without faults jumps to the new image and leaves it on
trial, with the image before it to go back to: wherever power is cut, after any interleaving of tasks in which no
further call updated a boot entry or wrote a slot. -/
theorem activated_on_trial (hl : fb.OpsLaw) (hde : fb.DecodeEncode) (hdw : fb.DecodeWorn) (hsl : fb.SectorLaw)
    (hslot : fb.SlotLaw) (hwl : fb.WordLaw) (htl : fb.TransitionLaw) (hal : fb.ActivateLaw) (hbl : fb.BootLaw bootable)
    (hpl : fb.SparingLaw) (hplan : fb.PlanLaw bootable) (hrl : fb.RevivalLaw bootable) (htrial : fb.TrialLaw)
    (hstates : fb.VALID ≠ fb.PENDING_VERIFY) (hj : Judged judge) (hsame : SameSlots layout M)
    (hend : M.ota.offset.toNat + 0x2000 < 2 ^ 32) (hb : b.Honest) {s₀ : State}
    (h₀ : Settled idf fb bootable M judge layout x old s₀.flash) {ι : Type} [DecidableEq ι]
    {st : (service idf fb H g w E M).State ι State State}
    (hreach : Service.Reach _ (Service.ofDevice (norDevice b)) s₀ st) {before after : List (Served idf fb H g w E M)}
    {s₁ s₂ : State} (hhistory : st.history = before ++ ⟨.activate y, .ok (), s₁, s₂⟩ :: after)
    (hbefore : ∀ ev ∈ before, early E M ev.call = none → Routine fb ev.before.flash ev.call)
    (hconfirmed : imageOutcome fb (entriesAt fb s₁.flash M.ota.offset) = .confirmed)
    (hnew : judge s₁.flash (partition layout y).1 (partition layout y).2 = some new)
    (hafter : ∀ ev ∈ after, early E M ev.call = none → Still ev.call)
    (hinside : ∀ i c p, st.task i = .inside c p → Still c) (hcut : CutAt st s.flash) {map : MemoryMap}
    {other : State → (o : HwOp) → o.Ans} (hhealthy : Healthy judge map other) :
    ∃ s', (ExceptT.run (boot fb map)).run (romDevice perfect other) s = (.ok new.entry, s') ∧
      Trial idf fb M judge layout x y old new s'.flash := by
  have hserial := (Service.serializable (fun c r => by trivial) hreach).1
  rw [hhistory] at hserial
  obtain ⟨u, hfirst, hrest⟩ := hserial.split
  obtain ⟨hstart, hserves, hlater⟩ := hrest.first
  rw [hstart] at hfirst
  have hsettled : Settled idf fb bootable M judge layout x old s₁.flash :=
    serial_invariant hl hdw hsl (fun _ h => h.toCharted)
      (fun _ _ _ h hc hcut => h.request hl hsl hj hsame htl hrl hstates hc hcut) hb h₀ hfirst hbefore
  have hstaged := hsettled.activate hl hsl hj hsame hdw hde htl hal hbl hb hconfirmed hnew hserves
  have hstill : ∀ f f' (c : Request E M), Staged idf fb bootable M judge layout x y old new f → Still c →
      RequestCut fb c f f' → Staged idf fb bootable M judge layout x y old new f' :=
    fun _ _ _ h hc hcut => h.request hl hsl hj hsame hc hcut
  have hkept := serial_invariant (P := fun _ c => Still c) hl hdw hsl (fun _ h => h.toCharted) hstill hb hstaged hlater
    hafter
  have hcutoff := cut_invariant (P := fun _ c => Still c) hl hdw hsl hstill hb h₀.sound hreach hkept hinside hcut
  exact hcutoff.boots hl hsl hj hsame hde hdw hslot hwl hpl hplan hrl htrial hend hhealthy

/-! ### A switch to the other slot -/

theorem reach_sampleSwitch : ∃ s₀ : State, s₀.flash = Sample.otaFlash oneEntry ∧
    Service.Reach sampleService (Service.ofDevice (norDevice perfect)) s₀
      ⟨sampleSwitch.2, none, fun _ : Nat => .idle, sampleSwitch.2,
        [] ++ [⟨.activate .ota1, .ok (), s₀, sampleSwitch.2⟩]⟩ := by
  have hok : sampleSwitch.1 = .ok () := by decide +kernel
  exact ⟨_, rfl, hok ▸ reach_call (.activate .ota1) rfl (r := sampleSwitch) rfl⟩

/-- Slot 1 was activated while slot 0 ran. -/
theorem activated_on_trial_switch : ∃ s', (ExceptT.run (boot Sample.fibewi esp32c3)).run
    (romDevice perfect (steady eachSlot)) sampleSwitch.2 = (.ok 0x40390000, s') ∧
    Trial firstMatch Sample.fibewi sampleMap (fun _ => eachSlot) sampleLayout .ota0 .ota1 ⟨0x40380000, []⟩
      ⟨0x40390000, []⟩ s'.flash := by
  obtain ⟨s₀, hflash, hreach⟩ := reach_sampleSwitch
  have hconfirmed : imageOutcome Sample.fibewi (entriesAt Sample.fibewi s₀.flash sampleMap.ota.offset) = .confirmed :=
    hflash ▸ confirmed_oneEntry
  generalize sampleSwitch.2 = s at hreach ⊢
  exact activated_on_trial Sample.opsLaw Sample.decodeEncode (fun _ _ _ _ => Sample.decodeWorn) Sample.sectorLaw
    Sample.slotLaw Sample.wordLaw Sample.transitionLaw Sample.activateLaw Sample.bootLaw Sample.sparingLaw
    Sample.planLaw Sample.revivalLaw Sample.trialLaw (by decide) judged_eachSlot sameSlots_sample (by decide)
    perfect_honest (hflash ▸ settled_oneEntry rfl) hreach rfl (fun _ hmem => absurd hmem List.not_mem_nil) hconfirmed rfl
    (fun _ hmem => absurd hmem List.not_mem_nil) (fun _ _ _ h => by cases h) (cutAt_idle s _)
    (healthy_steady eachSlot)

end Espbewi.System
