import Espbewi.Bootloader.Layout
import Espbewi.Lib.Trace
import Espbewi.Ota.OtadataLaws

/-! Everything `boot` does around the updates leaves the flash alone. -/

namespace Espbewi.Bootloader

open Lib Nor Boot Hw Platform Prog

/-- The phases of `boot` by the calls they make. -/
inductive Kind
  | look
  | judge
  | update
  | copy
  | map
  deriving DecidableEq

def kind : HwOp → Kind
  | .spiflashRead .. | .setLegacyFlashSize _ | .attachAndConfig _ => .look
  | .validate .. => .judge
  | .spiflashWrite .. | .spiflashEraseSector _ | .spiflashUnlock => .update
  | .copyNonoverlapping .. => .copy
  | .cacheBegin | .ibusMmuSet .. | .dbusMmuSet .. | .cacheFinish _ | .delayUs _ => .map

abbrev Among (kinds : List Kind) (o : HwOp) : Prop := kind o ∈ kinds

theorem Among.mono {kinds kinds' : List Kind} (h : kinds ⊆ kinds') (o : HwOp) (ho : Among kinds o) :
    Among kinds' o := h ho

theorem quiet_of_among {kinds : List Kind} (h : .update ∉ kinds) (o : HwOp) (ho : Among kinds o) :
    Quiet o := by
  cases o with
  | spiflashWrite dest words len => exact absurd ho h
  | spiflashEraseSector sector => exact absurd ho h
  | _ => rfl

theorem only_readLoop (offset : UInt32) (len done : Nat) (out : List UInt8) :
    (readLoop offset len done out).Only (Among [.look]) := by
  induction hn : len - done using Nat.strongRecOn generalizing done out with
  | ind n ih =>
    unfold readLoop
    split
    · refine ⟨.head _, fun r => ?_⟩
      cases r with
      | none => trivial
      | some window => exact ih _ (by omega) _ _ rfl
    · trivial

theorem only_hwFlashRead (offset : UInt32) (len : Nat) :
    Only (Among [.look]) (ExceptT.run (Hw.flashRead offset len)) := by
  unfold Hw.flashRead flashReadInto
  refine only_bind (only_readLoop ..) fun r => ?_
  rcases r with ⟨_ | _, out⟩ <;> trivial

theorem only_flashRead (offset : UInt32) (len : Nat) :
    Only (Among [.look]) (ExceptT.run (flashRead offset len)) :=
  only_adapt (only_hwFlashRead offset len)

theorem only_flashSizeFromHeader : Only (Among [.look]) (ExceptT.run flashSizeFromHeader) :=
  only_try (only_hwFlashRead 0 4) fun _ => trivial

theorem only_setFlashSize : Only (Among [.look]) (ExceptT.run setFlashSize) := by
  refine only_try (only_adapt (only_try only_flashSizeFromHeader fun size => ?_)) fun _ => trivial
  exact only_try (only_lift (only_op (.head _))) fun _ => trivial

theorem only_flashReinit : flashReinit.Only (Among [.look]) :=
  only_bind only_flashSizeFromHeader fun _ => only_bind (only_op (.head _)) fun _ => trivial

theorem only_readTable : Only (Among [.look]) (ExceptT.run readTable) := by
  refine only_bind (only_flashRead ..) fun r => ?_
  cases r with
  | ok table => trivial
  | error e => exact only_bind only_flashReinit fun _ => only_flashRead ..

theorem only_readLayout : Only (Among [.look]) (ExceptT.run readLayout) :=
  only_try only_readTable fun _ => only_adapt (only_ofExcept _)

theorem only_readOtadata (fb : Fibewi) (layout : Layout) :
    Only (Among [.look]) (ExceptT.run (readOtadata fb layout)) :=
  only_try (only_flashRead ..) fun _ => only_try (only_flashRead ..) fun _ => trivial

theorem only_app {P : HwOp → Prop} (layout : Layout) (slot : UInt8) :
    Only P (ExceptT.run (layout.app slot)) := by
  unfold Layout.app
  split <;> trivial

theorem only_validate (layout : Layout) (map : MemoryMap) (slot : UInt8) :
    Only (Among [.judge]) (ExceptT.run (validate layout map slot)) :=
  only_try (only_app layout slot) fun _ => only_lift (only_op (.head _))

theorem only_runPlan {α : Type} (layout : Layout) (map : MemoryMap)
    (p : Prog UInt8 (fun _ => Bool) α) :
    Only (Among [.judge]) (ExceptT.run (runPlan layout map p)) := by
  induction p with
  | ret plan => trivial
  | call slot k ih => exact only_try (only_validate layout map slot) fun image => ih image.isSome

theorem only_copyLoop (seg : Segment) (target : UInt32) (copied : Nat) :
    Only (Among [.look, .copy]) (ExceptT.run (copyLoop seg target copied)) := by
  induction hn : seg.len.toNat - copied using Nat.strongRecOn generalizing copied with
  | ind n ih =>
    unfold copyLoop
    split
    · refine only_try ((only_flashRead ..).mono (Among.mono (by decide))) fun chunk => ?_
      refine only_try (only_lift (only_op (.tail _ (.head _)))) fun _ => ?_
      exact ih _ (by omega) _ rfl
    · trivial

theorem only_copySegments (fb : Fibewi) (map : MemoryMap) (segs : List Segment) :
    Only (Among [.look, .copy]) (ExceptT.run (copySegments fb map segs)) := by
  induction segs with
  | nil => trivial
  | cons seg rest ih =>
    unfold copySegments
    split
    · exact only_try (only_copyLoop ..) fun _ => ih
    · exact only_try (p := pure ()) trivial fun _ => ih

theorem only_mapSegments (map : MemoryMap) (segs : List Segment) :
    Only (Among [.map]) (ExceptT.run (mapSegments map segs)) := by
  induction segs with
  | nil => trivial
  | cons seg rest ih =>
    refine only_try ?_ fun _ => ih
    unfold mapSegment
    split
    · refine only_try (only_lift ?_) fun rc => ?_
      · split <;> exact only_op (.head _)
      · split <;> trivial
    · trivial

theorem only_load (fb : Fibewi) (map : MemoryMap) (layout : Layout) (slot : UInt8) :
    Only Quiet (ExceptT.run (load fb map layout slot)) := by
  have hcalls : Only (Among [.judge, .look, .copy, .map]) (ExceptT.run (load fb map layout slot)) := by
    have hmap : ∀ {o}, kind o = .map → Among [.judge, .look, .copy, .map] o := fun h => by
      rw [Among, h]
      decide
    refine only_try ((only_validate ..).mono (Among.mono (by decide))) fun image => ?_
    cases image with
    | none => trivial
    | some image =>
      refine only_try ((only_copySegments ..).mono (Among.mono (by decide))) fun _ => ?_
      refine only_try (only_lift (only_op (hmap rfl))) fun _ => ?_
      refine only_try ((only_mapSegments ..).mono (Among.mono (by decide))) fun _ => ?_
      refine only_try (only_lift (only_op (hmap rfl))) fun _ => ?_
      exact only_try (only_lift (only_op (hmap rfl))) fun _ => trivial
  exact hcalls.mono (quiet_of_among (by decide))

theorem only_plan (fb : Fibewi) (map : MemoryMap) :
    Only (Among [.look, .judge]) (ExceptT.run (plan fb map)) := by
  refine only_try (only_setFlashSize.mono (Among.mono (by decide))) fun _ => ?_
  refine only_try (only_readLayout.mono (Among.mono (by decide))) fun layout => ?_
  refine only_try ((only_readOtadata ..).mono (Among.mono (by decide))) fun _ => ?_
  exact only_try ((only_runPlan ..).mono (Among.mono (by decide))) fun _ => trivial

/-! ### The plan -/

/-- `plan_boot` gets an answer for each slot it asks about. -/
theorem runs_of_runPlan {α : Type} {layout : Layout} {map : MemoryMap}
    {p : Prog UInt8 (fun _ => Bool) α} {tr : List (Event HwOp HwOp.Ans)} {plan : α}
    (h : Runs (ExceptT.run (runPlan layout map p)) tr (.ok plan)) : ∃ tr', Runs p tr' plan := by
  induction p generalizing tr with
  | ret a =>
    obtain ⟨-, h⟩ := runs_ret.mp h
    cases h
    exact ⟨[], .ret⟩
  | call slot k ih =>
    rcases runs_try.mp h with ⟨e, -, he⟩ | ⟨tr₁, tr₂, image, -, -, h⟩
    · cases he
    · obtain ⟨tr', h⟩ := ih image.isSome h
      exact ⟨_, .call h⟩

section Rom

variable {fb : Fibewi} {b : Behaviour} {other : State → (o : HwOp) → o.Ans}
  {I : State → HwOp → Prop} {s : State}

theorem wp_readOtadata {layout : Layout} {Q : Except Stop (Raw × Raw) → State → Prop}
    (hin : ∀ sector, sector < 2 →
      (Otadata.sectorAt layout.otadata.1 sector).toNat + fb.ENTRY_SIZE ≤ 2 ^ 32)
    (hI : ∀ k o, Quiet o → I { s with reads := k } o)
    (hok : ∀ k, Q (.ok (Otadata.entriesAt fb s.flash layout.otadata.1)) { s with reads := k })
    (herr : ¬ b.Readable → ∀ k e, Q (.error e) { s with reads := k }) :
    (ExceptT.run (readOtadata fb layout)).wp (romDevice b other) I Q s := by
  unfold readOtadata
  rw [Prog.wp_try]
  refine wp_bootRead (hin 0 (by decide)) (fun _ _ _ => hI _ _ rfl) (fun k => ?_)
    (fun hb k e => herr hb k _)
  simp only
  rw [Prog.wp_try]
  exact wp_bootRead (hin 1 (by decide)) (fun _ _ _ => hI _ _ rfl) (fun k' => hok k')
    (fun hb k' e => herr hb k' _)

theorem wp_setFlashSize {Q : Except Stop Unit → State → Prop}
    (hI : ∀ k o, Quiet o → I { s with reads := k } o) (hok : ∀ k, Q (.ok ()) { s with reads := k })
    (herr : ¬ b.Readable → ∀ k e, Q (.error e) { s with reads := k }) :
    (ExceptT.run setFlashSize).wp (romDevice b other) I Q s := by
  unfold setFlashSize setFlashSizeFromHeader flashSizeFromHeader
  rw [Prog.wp_try, Prog.wp_adapt, Prog.wp_try, Prog.wp_try]
  refine wp_flashRead (by decide) (fun _ _ _ => hI _ _ rfl) (fun k => ?_) (fun hb k e => herr hb k _)
  exact ⟨hI k _ rfl, hok k⟩

/-- The plan is made from the table and the entries in flash. -/
theorem wp_plan {map : MemoryMap} {Q : Except Stop (Layout × Plan fb.Entry) → State → Prop}
    (hin : ∀ layout, layoutOf (Nor.read s.flash 0x8000 0xC00) = .ok layout → ∀ sector, sector < 2 →
      (Otadata.sectorAt layout.otadata.1 sector).toNat + fb.ENTRY_SIZE ≤ 2 ^ 32)
    (hI : ∀ k o, Quiet o → I { s with reads := k } o)
    (hok : ∀ k k' layout plan, layoutOf (Nor.read s.flash 0x8000 0xC00) = .ok layout →
      ((ExceptT.run (runPlan layout map (fb.planBoot (Otadata.entriesAt fb s.flash layout.otadata.1)
        SLOT_COUNT))).run (romDevice b other) { s with reads := k' }).1 = .ok plan →
      Q (.ok (layout, plan)) { s with reads := k })
    (herr : (¬ b.Readable ∨ ∀ layout, layoutOf (Nor.read s.flash 0x8000 0xC00) = .ok layout →
        ∃ k' e, ((ExceptT.run (runPlan layout map (fb.planBoot
          (Otadata.entriesAt fb s.flash layout.otadata.1) SLOT_COUNT))).run (romDevice b other)
            { s with reads := k' }).1 = .error e) →
      ∀ k e, Q (.error e) { s with reads := k }) :
    (ExceptT.run (plan fb map)).wp (romDevice b other) I Q s := by
  unfold plan
  rw [Prog.wp_try]
  refine wp_setFlashSize hI (fun k => ?_) (fun hb k e => herr (.inl hb) k e)
  simp only
  rw [Prog.wp_try]
  refine wp_readLayout (fun k o => hI k o) (fun k => ?_) (fun hb k e => herr (.inl hb) k _)
  cases hlayout : layoutOf (Nor.read s.flash 0x8000 0xC00) with
  | error e => exact herr (.inr fun layout h => by rw [hlayout] at h; cases h) k _
  | ok layout =>
    simp only [Except.mapError]
    rw [Prog.wp_try]
    refine wp_readOtadata (hin layout hlayout) (fun k o => hI k o) (fun k => ?_)
      (fun hb k e => herr (.inl hb) k _)
    simp only
    rw [Prog.wp_try]
    refine wp_quiet ((only_runPlan ..).mono (quiet_of_among (by decide))) (fun k o => hI k o) (fun k' => ?_)
    cases hr : ((ExceptT.run (runPlan layout map (fb.planBoot (Otadata.entriesAt fb s.flash
        layout.otadata.1) SLOT_COUNT))).run (romDevice b other) { s with reads := k }).1 with
    | error e => exact herr (.inr fun layout' h => by rw [hlayout] at h; cases h; exact ⟨k, e, hr⟩) k' _
    | ok plan => exact hok k' k layout plan hlayout hr

end Rom

end Espbewi.Bootloader
