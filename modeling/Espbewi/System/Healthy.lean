import Espbewi.System.UploadBoot

/-! `boot` on a device without faults, whose image check goes by what is in flash. -/

namespace Espbewi.System

open Lib Nor Boot Hw Platform Otadata Bootloader Prog SharedFlash

variable {idf : EspIdf} {fb : Fibewi} {M : FlashMap} {b : Behaviour} {other : State → (o : HwOp) → o.Ans}
  {map : MemoryMap} {layout : Layout} {judge : Flash → UInt32 → UInt32 → Option Image} {s : State} {f : Flash}

/-- The image check answers by the flash it finds. -/
def Truthful (judge : Flash → UInt32 → UInt32 → Option Image) (other : State → (o : HwOp) → o.Ans)
    (map : MemoryMap) : Prop :=
  ∀ s offset size, other s (.validate offset size map) = judge s.flash offset size

/-- The image of this slot is accepted. -/
def accepts (judge : Flash → UInt32 → UInt32 → Option Image) (layout : Layout) (f : Flash) : UInt8 → Bool :=
  verdict (fun offset size => (judge f offset size).isSome) layout

/-- What `boot` plans from this flash. -/
def bootPlan (fb : Fibewi) (judge : Flash → UInt32 → UInt32 → Option Image) (layout : Layout) (base : UInt32)
    (f : Flash) : Plan fb.Entry :=
  fb.planned (entriesAt fb f base) (accepts judge layout f)

/-! ### The plan -/

theorem validate_truthful (layout : Layout) (ht : Truthful judge other map) {slot : UInt8} (h : slot < 2) :
    ∃ part, layout.app slot = pure part ∧ accepts judge layout s.flash slot = (judge s.flash part.1 part.2).isSome ∧
      (ExceptT.run (validate layout map slot)).run (romDevice b other) s = (.ok (judge s.flash part.1 part.2), s) := by
  obtain ⟨part, happ, haccepts⟩ := app_eq (fun offset size => (judge s.flash offset size).isSome) layout h
  refine ⟨part, happ, haccepts, ?_⟩
  unfold validate
  rw [happ, pure_bind, ← ht s part.1 part.2]
  rfl

theorem runPlan_truthful (ht : Truthful judge other map) {α : Type} {p : Prog UInt8 (fun _ => Bool) α}
    (hp : p.Only (· < 2)) :
    (ExceptT.run (runPlan layout map p)).run (romDevice b other) s =
      (.ok (p.run (fun s' slot => (accepts judge layout s.flash slot, s')) ()).1, s) := by
  induction p with
  | ret a => rfl
  | call slot k ih =>
    unfold runPlan
    obtain ⟨part, -, haccepts, hrun⟩ := validate_truthful (b := b) (s := s) layout ht hp.1
    rw [run_try, hrun, run_call, haccepts]
    exact ih _ (hp.2 _)

theorem bootPlan_sectors (hsl : fb.SectorLaw) {base : UInt32} :
    ∀ write ∈ (bootPlan fb judge layout base f).writes, write.sector < 2 :=
  hsl.planBoot (runs_events (fun s slot => (accepts judge layout f slot, s)) _ ())

theorem wp_plan_truthful (hl : fb.OpsLaw) (hslot : fb.SlotLaw) (ht : Truthful judge other map)
    (hlayout : layoutOf (Nor.read s.flash 0x8000 0xC00) = .ok layout) (hota : layout.otadata.1 = M.ota.offset)
    {I : State → HwOp → Prop} {Q : Except Stop (Layout × Plan fb.Entry) → State → Prop}
    (hI : ∀ k o, Quiet o → I { s with reads := k } o)
    (hok : ∀ k, Q (.ok (layout, bootPlan fb judge layout M.ota.offset s.flash)) { s with reads := k })
    (herr : ¬ b.Readable → ∀ k e, Q (.error e) { s with reads := k }) :
    (ExceptT.run (plan fb map)).wp (romDevice b other) I Q s := by
  have hsmall := hl.small
  have hasks : (fb.planBoot (entriesAt fb s.flash M.ota.offset) Bootloader.SLOT_COUNT).Only (· < 2) :=
    hslot.asks _
  refine wp_plan (fun layout' hlayout' sector hs => ?_) hI (fun k k' layout' plan hlayout' hrun => ?_)
    (fun hlost k e => ?_)
  · rw [hlayout] at hlayout'
    cases hlayout'
    have := M.placed.block hs
    rw [hota]
    omega
  · rw [hlayout] at hlayout'
    cases hlayout'
    rw [hota, runPlan_truthful ht hasks] at hrun
    cases hrun
    exact hok k
  · rcases hlost with hr | hnone
    · exact herr hr k e
    · obtain ⟨k', e', hfailed⟩ := hnone layout hlayout
      rw [hota, runPlan_truthful ht hasks] at hfailed
      cases hfailed

/-- A cut during such a boot falls into the writes of its plan. -/
theorem wp_boot_truthful (hb : b.Honest) (hl : fb.OpsLaw) (hdw : fb.DecodeWorn) (hsl : fb.SectorLaw)
    (hslot : fb.SlotLaw) (ht : Truthful judge other map) (hsound : Sound idf fb M.ota s.flash)
    (hlayout : layoutOf (Nor.read s.flash 0x8000 0xC00) = .ok layout) :
    (ExceptT.run (boot fb map)).wp (romDevice b other)
      (cutGuard HwOp.cmd? (WritesCut fb M.ota.offset (bootPlan fb judge layout M.ota.offset s.flash).writes s.flash))
      (fun _ s' => WritesCut fb M.ota.offset (bootPlan fb judge layout M.ota.offset s.flash).writes s.flash s'.flash)
      s := by
  have hota := hsound.boot layout hlayout
  generalize hwrites : (bootPlan fb judge layout M.ota.offset s.flash).writes = writes
  have hsectors : ∀ write ∈ writes, write.sector < 2 := hwrites ▸ bootPlan_sectors hsl
  have hbetween : WritesCut fb M.ota.offset writes s.flash s.flash := .between writes s.flash
  unfold boot prepare
  rw [wp_try, wp_try]
  refine wp_plan_truthful hl hslot ht hlayout hota (fun k o ho => cutGuard_of_none ho hbetween) (fun k => ?_)
    fun _ _ _ => hbetween
  simp only
  rw [wp_try, wp_adapt, wp_ofExcept]
  cases plannedSlot (bootPlan fb judge layout M.ota.offset s.flash).boot with
  | error e => exact hbetween
  | ok slot =>
    simp only [Except.mapError]
    rw [wp_try, hwrites]
    refine wp_mono (fun r s' h => ?_) (wp_executeAll_safe (s := { s with reads := k }) hb hl hdw M.placed hota
      hsound hsectors)
    cases r with
    | error e => exact h
    | ok _ =>
      change (ExceptT.run (load fb map layout slot)).wp _ _ _ _
      exact wp_quiet (only_load ..) (fun _ _ ho => cutGuard_of_none ho h) fun _ => h

/-! ### The writes -/

theorem execute_run (hl : fb.OpsLaw) (hde : fb.DecodeEncode) (hwl : fb.WordLaw)
    (hunlock : ∀ s, other s .spiflashUnlock = true) (hota : layout.otadata.1 = M.ota.offset)
    (hend : M.ota.offset.toNat + 0x2000 < 2 ^ 32) {write : Write fb.Entry} (hsector : write.sector < 2) :
    ∃ s', (ExceptT.run (Bootloader.execute fb write layout)).run (romDevice perfect other) s = (.ok (), s') ∧
      (Region.ofEntry M.ota).Frame s.flash s'.flash := by
  obtain ⟨o₁, p₁, o₂, p₂, hops, ok, g, log, hupdate, hok⟩ := update_protocol hl hde M.placed hsector s.flash s.log
  obtain ⟨o₁', p₁', o₂', p₂', hops', h₁, h₂, -, -⟩ := hl.shape write
  rw [hops] at hops'
  cases hops'
  obtain ⟨ho₁, hp₁, ho₂, hp₂⟩ := hwl.words hops
  obtain ⟨haligned, -⟩ := M.placed.block hsector
  have hroom : (sectorAt M.ota.offset write.sector).toNat + 0x1000 < 2 ^ 32 := by
    have hs : write.sector.toNat < 2 := hsector
    rw [sectorAt_eq _ hsector]
    omega
  have hboot := boot_update (s := s) perfect_readable hunlock (sectorAt M.ota.offset write.sector) hops haligned hroom
    hwl.size ⟨ho₁, hp₁, h₁⟩ ⟨ho₂, hp₂, h₂⟩
  simp only [hupdate, Prod.mk.injEq] at hboot
  have hframe := run_of_wp (d := romDevice perfect other) (wp_guard_mono (fun _ _ _ => trivial)
    (wp_boot_update (s := s) perfect_honest hl M.placed hota hsector elsewhere_throughout))
  have hat : Bootloader.execute fb write layout =
      Bootloader.executeAt fb write (sectorAt M.ota.offset write.sector) := by
    unfold Bootloader.execute
    rw [hota]
    rfl
  rw [hat] at hframe ⊢
  have hisOk := hboot.1.trans (hok.resolve_right fun h => absurd h.2 (by omega))
  generalize (ExceptT.run (Bootloader.executeAt fb write (sectorAt M.ota.offset write.sector))).run
    (romDevice perfect other) s = r at hisOk hframe
  obtain ⟨_ | _, s'⟩ := r
  · cases hisOk
  · exact ⟨s', rfl, Elsewhere.frame hsector hframe.1⟩

theorem executeAll_run (hl : fb.OpsLaw) (hde : fb.DecodeEncode) (hwl : fb.WordLaw)
    (hunlock : ∀ s, other s .spiflashUnlock = true) (hota : layout.otadata.1 = M.ota.offset)
    (hend : M.ota.offset.toNat + 0x2000 < 2 ^ 32) {writes : List (Write fb.Entry)}
    (hsectors : ∀ write ∈ writes, write.sector < 2) :
    ∃ s', (ExceptT.run (executeAll fb layout writes)).run (romDevice perfect other) s = (.ok (), s') ∧
      (Region.ofEntry M.ota).Frame s.flash s'.flash := by
  induction writes generalizing s with
  | nil => exact ⟨s, rfl, .refl _ _⟩
  | cons write rest ih =>
    obtain ⟨s₁, hrun, hframe⟩ := execute_run (s := s) hl hde hwl hunlock hota hend (hsectors write (.head _))
    obtain ⟨s₂, hrest, hframe'⟩ := ih (s := s₁) fun write' hw => hsectors write' (.tail _ hw)
    refine ⟨s₂, ?_, hframe.trans hframe'⟩
    unfold executeAll
    rw [run_try, hrun]
    exact hrest

/-! ### Loading -/

/-- The MMU refuses nothing. -/
structure Mapping (other : State → (o : HwOp) → o.Ans) : Prop where
  ibus : ∀ s vaddr paddr num, other s (.ibusMmuSet vaddr paddr num) = 0
  dbus : ∀ s vaddr paddr num, other s (.dbusMmuSet vaddr paddr num) = 0

theorem wp_copyLoop {seg : Segment} {target : UInt32} (hfits : seg.dataOffset.toNat + seg.len.toNat ≤ 2 ^ 32)
    (copied : Nat) : (ExceptT.run (copyLoop seg target copied)).wp (romDevice perfect other) (fun _ _ => True)
      (fun r _ => r = .ok ()) s := by
  induction hn : seg.len.toNat - copied using Nat.strongRecOn generalizing copied s with
  | ind n ih =>
    unfold copyLoop
    split
    · next hlt =>
      have hat : (seg.dataOffset + UInt32.ofNat copied).toNat = seg.dataOffset.toNat + copied :=
        toNat_add_ofNat (by omega)
      rw [wp_try]
      refine wp_bootRead (by rw [hat]; omega) (fun _ _ _ => trivial) (fun k => ?_)
        fun hb _ _ => absurd perfect_readable hb
      simp only
      rw [wp_try]
      exact ⟨trivial, ih _ (by omega) _ rfl⟩
    · rfl

theorem wp_copySegments {segs : List Segment}
    (hfits : ∀ seg ∈ segs, seg.dataOffset.toNat + seg.len.toNat ≤ 2 ^ 32) :
    (ExceptT.run (copySegments fb map segs)).wp (romDevice perfect other) (fun _ _ => True)
      (fun r _ => r = .ok ()) s := by
  induction segs generalizing s with
  | nil => rfl
  | cons seg rest ih =>
    have hrest : ∀ s, (ExceptT.run (copySegments fb map rest)).wp (romDevice perfect other) (fun _ _ => True)
        (fun r _ => r = .ok ()) s := fun s => ih fun seg' h => hfits seg' (.tail _ h)
    unfold copySegments
    split
    · rw [wp_try]
      refine wp_mono (fun r s' h => ?_) (wp_copyLoop (hfits seg (.head _)) 0)
      cases h
      exact hrest s'
    · exact hrest s

theorem wp_mapSegment (hm : Mapping other) (seg : Segment) :
    (ExceptT.run (mapSegment map seg)).wp (romDevice perfect other) (fun _ _ => True)
      (fun r _ => r = .ok ()) s := by
  unfold mapSegment
  split
  · have hrc : ∀ vaddr paddr pages, (if map.drom.contains seg.load then mapDrom vaddr paddr pages else
        mapIrom vaddr paddr pages).wp (romDevice perfect other) (fun _ _ => True) (fun rc _ => rc = 0) s := by
      intro vaddr paddr pages
      split
      · exact ⟨trivial, hm.dbus s vaddr paddr pages⟩
      · exact ⟨trivial, hm.ibus s vaddr paddr pages⟩
    rw [wp_try, wp_lift]
    refine wp_mono (fun rc s' h => ?_) (hrc ..)
    cases h
    rfl
  · rfl

theorem wp_mapSegments (hm : Mapping other) (segs : List Segment) :
    (ExceptT.run (mapSegments map segs)).wp (romDevice perfect other) (fun _ _ => True)
      (fun r _ => r = .ok ()) s := by
  induction segs generalizing s with
  | nil => rfl
  | cons seg rest ih =>
    unfold mapSegments
    rw [wp_try]
    refine wp_mono (fun r s' h => ?_) (wp_mapSegment hm seg)
    cases h
    exact ih

theorem wp_place (hm : Mapping other) {image : Image}
    (hfits : ∀ seg ∈ nonEmpty image, seg.dataOffset.toNat + seg.len.toNat ≤ 2 ^ 32) :
    (ExceptT.run (place fb map image)).wp (romDevice perfect other) (fun _ _ => True)
      (fun r _ => r = .ok image.entry) s := by
  unfold place
  rw [wp_try]
  refine wp_mono (fun r s₁ h => ?_) (wp_copySegments hfits)
  cases h
  simp only
  rw [wp_try, wp_lift]
  refine ⟨trivial, ?_⟩
  simp only
  rw [wp_ret, wp_try]
  refine wp_mono (fun r s₂ h => ?_) (wp_mapSegments hm _)
  cases h
  exact ⟨trivial, trivial, rfl⟩

/-- Without faults `boot` carries out its plan and jumps to the image that is accepted in the slot it plans to
boot. -/
theorem boot_run (hl : fb.OpsLaw) (hde : fb.DecodeEncode) (hsl : fb.SectorLaw) (hslot : fb.SlotLaw)
    (hwl : fb.WordLaw) (hunlock : ∀ s, other s .spiflashUnlock = true) (hm : Mapping other)
    (ht : Truthful judge other map) (hlayout : layoutOf (Nor.read s.flash 0x8000 0xC00) = .ok layout)
    (hota : layout.otadata.1 = M.ota.offset) (hend : M.ota.offset.toNat + 0x2000 < 2 ^ 32)
    {slot : UInt8} {seq : UInt32} (hplan : (bootPlan fb judge layout M.ota.offset s.flash).boot = .slot slot seq)
    {part : UInt32 × UInt32} (happ : layout.app slot = pure part) {image : Image}
    (himage : ∀ f, (Region.ofEntry M.ota).Frame s.flash f → judge f part.1 part.2 = some image)
    (hfits : ∀ seg ∈ nonEmpty image, seg.dataOffset.toNat + seg.len.toNat ≤ 2 ^ 32) :
    ∃ s', (ExceptT.run (boot fb map)).run (romDevice perfect other) s = (.ok image.entry, s') ∧
      (Region.ofEntry M.ota).Frame s.flash s'.flash ∧
      entriesAt fb s'.flash M.ota.offset = fb.writtenAll (entriesAt fb s.flash M.ota.offset)
        (bootPlan fb judge layout M.ota.offset s.flash).writes := by
  have hsectors : ∀ write ∈ (bootPlan fb judge layout M.ota.offset s.flash).writes, write.sector < 2 :=
    bootPlan_sectors hsl
  have hwp : (ExceptT.run (boot fb map)).wp (romDevice perfect other) (fun _ _ => True)
      (fun r s' => r = .ok image.entry ∧ (Region.ofEntry M.ota).Frame s.flash s'.flash ∧
        entriesAt fb s'.flash M.ota.offset = fb.writtenAll (entriesAt fb s.flash M.ota.offset)
          (bootPlan fb judge layout M.ota.offset s.flash).writes) s := by
    unfold boot prepare
    rw [wp_try, wp_try]
    refine wp_plan_truthful hl hslot ht hlayout hota (fun _ _ _ => trivial) (fun k => ?_)
      fun hb => absurd perfect_readable hb
    simp only
    rw [wp_try, wp_adapt, wp_ofExcept, hplan]
    simp only [plannedSlot, Except.mapError]
    rw [wp_try]
    obtain ⟨s₁, hrun, hframe⟩ := executeAll_run (s := { s with reads := k }) hl hde hwl hunlock hota hend hsectors
    have hentries := run_of_wp (d := romDevice perfect other) (wp_executeAll_ok (s := { s with reads := k })
      perfect_honest hl M.placed hota hsectors)
    rw [hrun] at hentries
    refine (wp_iff ..).mpr ⟨fun _ _ _ => trivial, ?_⟩
    rw [hrun]
    change (ExceptT.run (load fb map layout slot)).wp _ _ _ _
    have hload : (ExceptT.run (load fb map layout slot)).wp (romDevice perfect other) (fun _ _ => True)
        (fun r _ => r = .ok image.entry) s₁ := by
      unfold load validate Bootloader.call
      rw [happ, pure_bind, wp_try, wp_lift]
      refine ⟨trivial, ?_⟩
      have hanswer : (romDevice perfect other s₁ (.validate part.1 part.2 map)).1 = some image :=
        (ht s₁ part.1 part.2).trans (himage s₁.flash hframe)
      rw [hanswer]
      exact wp_place hm hfits
    refine (wp_iff ..).mpr ⟨fun _ _ _ => trivial, run_of_wp hload, ?_⟩
    rw [flash_of_quiet (only_load ..)]
    exact ⟨hframe, (hentries rfl).1⟩
  obtain ⟨hok, hafter⟩ := run_of_wp hwp
  exact ⟨_, Prod.ext hok rfl, hafter⟩

end Espbewi.System
