import Espbewi.Bootloader.Loading
import Espbewi.System.Jump

/-! `load` puts every byte of an image where the image says. -/

namespace Espbewi.System

open Lib Nor Boot Hw Platform Prog Bootloader

variable {fb : Fibewi} {map : MemoryMap} {mmu : Mmu} {f : Flash} {layout : Layout}

/-- The target lies inside one memory of the map. -/
def InMemory (map : MemoryMap) (target len : UInt32) : Prop :=
  ∃ r ∈ [map.iram, map.dram, map.rtc], r.start.toNat ≤ target.toNat ∧ target.toNat + len.toNat ≤ r.stop.toNat

/-- The target is clear of the boot window. -/
def Clear (map : MemoryMap) (target len : UInt32) : Prop :=
  target.toNat + len.toNat ≤ map.bootWindow.start.toNat ∨ map.bootWindow.stop.toNat ≤ target.toNat

/-- What `validate` has checked of the non-empty segments of an image it accepts. -/
structure Validated (fb : Fibewi) (mmu : Mmu) (map : MemoryMap) (image : Image) : Prop where
  flash : ∀ seg ∈ nonEmpty image, seg.dataOffset.toNat + seg.len.toNat ≤ 2 ^ 32
  bus : ∀ seg ∈ nonEmpty image, map.isFlashMapped seg.load → OnBus map seg
  memory : ∀ seg ∈ nonEmpty image, ∀ target, fb.ramTarget seg map = some target → InMemory map target seg.len
  clear : ∀ seg ∈ nonEmpty image, ∀ target, fb.ramTarget seg map = some target → Clear map target seg.len
  targets : (nonEmpty image).Pairwise fun seg seg' => ∀ target target', fb.ramTarget seg map = some target →
    fb.ramTarget seg' map = some target' → Apart target seg.len target' seg'.len
  pages : (nonEmpty image).Pairwise fun seg seg' => map.isFlashMapped seg.load →
    map.isFlashMapped seg'.load → ∀ page page', Touches seg page → Touches seg' page' →
      mmu.entry page ≠ mmu.entry page'

theorem nonEmpty_pos {image : Image} {seg : Segment} (h : seg ∈ nonEmpty image) : 0 < seg.len.toNat := by
  have := (List.mem_filter.mp h).2
  simpa [UInt32.lt_iff_toNat_lt] using this

theorem Validated.toTargets {image : Image} (h : Validated fb mmu map image) :
    Targets fb map (nonEmpty image) where
  fits seg hseg target htarget := by
    refine ⟨h.flash seg hseg, ?_⟩
    obtain ⟨r, -, -, hstop⟩ := h.memory seg hseg target htarget
    have := r.stop.toNat_lt
    omega
  apart := h.targets

theorem Validated.mappable {image : Image} (h : Validated fb mmu map image) :
    Mappable mmu map (nonEmpty image) where
  nonempty _ := nonEmpty_pos
  bus := h.bus
  apart := h.pages

/-- RAM and MMU hold the image, and nothing else has changed or been mapped. -/
structure Loaded (fb : Fibewi) (mmu : Mmu) (map : MemoryMap) (f : Flash) (image : Image) (ram ram' : Ram)
    (s' : mmu.State) : Prop where
  copied : ∀ seg ∈ nonEmpty image, ∀ target, fb.ramTarget seg map = some target → ∀ i < seg.len.toNat,
    ram' (target.toNat + i) = f (seg.dataOffset.toNat + i)
  frame : ∀ a, ¬ Targeted fb map (nonEmpty image) a → ram' a = ram a
  window : ∀ a, map.bootWindow.start.toNat ≤ a → a < map.bootWindow.stop.toNat → ram' a = ram a
  mapped : ∀ seg ∈ nonEmpty image, map.isFlashMapped seg.load → ∀ i < seg.len.toNat,
    mmu.translate s' (seg.load.toNat + i) = some (seg.dataOffset.toNat + i)
  pages : ∀ e page, mmu.table s' e = some page → Used mmu map (nonEmpty image) e

theorem translate_of_hit {s : mmu.State} (hpage : map.mmuPage = 0x10000) {seg : Segment}
    (hbus : OnBus map seg) {i : Nat} (h : mmu.table s (mmu.entry ((seg.load.toNat + i) / PAGE)) =
      some (seg.dataOffset.toNat / PAGE + ((seg.load.toNat + i) / PAGE - seg.load.toNat / PAGE))) :
    mmu.translate s (seg.load.toNat + i) = some (seg.dataOffset.toNat + i) := by
  have hcongr := hbus.congruent
  rw [hpage, show (0x10000 : UInt32).toNat = 0x10000 from rfl] at hcongr
  rw [Mmu.translate, h, Option.map_some]
  unfold PAGE
  congr 1
  omega

/-- Around the mappings: the table is empty before them, and stays as they leave it. -/
theorem runs_mappings_table (hlaw : mmu.Law map) {image : Image} {tr : Trace} {entry : UInt32}
    (h : Runs (ExceptT.run (do
      let autoload ← ExceptT.lift cacheBeginMapping
      mapSegments map (nonEmpty image)
      ExceptT.lift (cacheFinishMapping autoload)
      ExceptT.lift (delayUs 50000)
      return image.entry : BootM UInt32)) tr (.ok entry)) (s : mmu.State) :
    ∃ s₁ trs, (∀ e, mmu.table s₁ e = none) ∧
      Runs (ExceptT.run (mapSegments map (nonEmpty image))) trs (.ok ()) ∧
      mmu.table (mmu.after s tr) = mmu.table (mmu.after s₁ trs) := by
  obtain ⟨_, _, autoload, rfl, hbegin, h⟩ := runs_try_ok h
  obtain ⟨r, hbegin, -⟩ := runs_lift hbegin
  obtain ⟨trs, _, _, rfl, hsegs, h⟩ := runs_try_ok h
  obtain ⟨_, _, _, rfl, hfinish, h⟩ := runs_try_ok h
  obtain ⟨_, hfinish, -⟩ := runs_lift hfinish
  obtain ⟨_, _, _, rfl, hdelay, h⟩ := runs_try_ok h
  obtain ⟨_, hdelay, -⟩ := runs_lift hdelay
  obtain ⟨rfl, -⟩ := runs_ret.mp h
  rw [runs_op.mp hbegin, runs_op.mp hfinish, runs_op.mp hdelay]
  refine ⟨mmu.step s ⟨.cacheBegin, r⟩, trs, hlaw.init s r, hsegs, ?_⟩
  simp only [Mmu.after_append]
  exact (hlaw.delay ..).trans (hlaw.finish ..)

theorem runs_place {image : Image} (hlaw : mmu.Law map) (hbuses : Buses map)
    (hvalid : Validated fb mmu map image) {tr : Trace} {entry : UInt32} (hf : Faithful f tr)
    (h : Runs (ExceptT.run (place fb map image)) tr (.ok entry)) :
    entry = image.entry ∧ ∀ ram s, Loaded fb mmu map f image ram (Ram.after ram tr) (mmu.after s tr) := by
  obtain ⟨trc, trm, _, rfl, hcopy, hmap⟩ := runs_try_ok h
  obtain ⟨-, hmapping, rfl⟩ := runs_mappings hmap
  refine ⟨rfl, fun ram s => ?_⟩
  have hf₁ : Faithful f trc := hf.mono (List.subset_append_left ..)
  have hframe {a : Nat} : ¬ Targeted fb map (nonEmpty image) a → Ram.after ram trc a = ram a :=
    runs_copySegments_frame hvalid.toTargets hf₁ hcopy
  obtain ⟨s₁, trs, hinit, hsegs, htable⟩ := runs_mappings_table hlaw hmap (mmu.after s trc)
  rw [Ram.after_append, Ram.after_of_among [.map] (by decide) fun ev hev =>
    List.mem_singleton.mpr (hmapping ev hev), Mmu.after_append]
  constructor
  · intro seg hseg target htarget i hi
    exact runs_copySegments_placed hvalid.toTargets hf₁ hcopy hseg htarget hi
  · exact fun a ha => hframe ha
  · intro a hlo hhi
    refine hframe ?_
    rintro ⟨seg, hseg, target, htarget, hin⟩
    have := hvalid.clear seg hseg target htarget
    unfold Clear at this
    omega
  · intro seg hseg hmapped i hi
    refine translate_of_hit hbuses.page (hvalid.bus seg hseg hmapped) ?_
    rw [htable]
    exact runs_mapSegments_hit hlaw hbuses hvalid.mappable hsegs hseg hmapped ⟨i, hi, rfl⟩
  · intro e page he
    by_contra hunused
    rw [htable, runs_mapSegments_frame hlaw hbuses hvalid.mappable hsegs hunused, hinit] at he
    cases he

/-- Any run of `load` that reaches the jump has put the image that `validate` accepted where it
says, on either chip. -/
theorem load_places (hmap : map = esp32c3 ∨ map = esp32s3) (hlaw : mmu.Law map) {slot : UInt8} {tr : Trace}
    {entry : UInt32} (hf : Faithful f tr)
    (hvalid : ∀ offset size image, (⟨.validate offset size map, some image⟩ : Event HwOp HwOp.Ans) ∈ tr →
      Validated fb mmu map image)
    (h : Runs (ExceptT.run (load fb map layout slot)) tr (.ok entry)) :
    ∃ part image, layout.app slot = pure part ∧
      (⟨.validate part.1 part.2 map, some image⟩ : Event HwOp HwOp.Ans) ∈ tr ∧ entry = image.entry ∧
      ∀ ram s, Loaded fb mmu map f image ram (Ram.after ram tr) (mmu.after s tr) := by
  obtain ⟨_, trl, answer, rfl, hvalidate, hplace⟩ := runs_try_ok h
  obtain ⟨part, happ, rfl⟩ := runs_validate hvalidate
  cases answer with
  | none =>
    obtain ⟨-, hr⟩ := runs_ret.mp hplace
    cases hr
  | some image =>
    obtain ⟨hentry, hloaded⟩ := runs_place hlaw (buses_of_chip hmap) (hvalid _ _ image (.head _))
      (hf.mono (List.subset_append_right ..)) hplace
    exact ⟨part, image, happ, .head _, hentry, fun ram s => hloaded ram _⟩

/-! ### An image on the ESP32-C3 -/

/-- The 128 entries of the ESP32-C3, shared by the two buses. -/
def sampleMmu : Mmu where
  State := Nat → Option Nat
  step s
    | ⟨.cacheBegin, _⟩ => fun _ => none
    | ⟨.ibusMmuSet vaddr paddr num, rc⟩ | ⟨.dbusMmuSet vaddr paddr num, rc⟩ => fun e =>
      match (List.range num.toNat).find? fun i => (vaddr.toNat / PAGE + i) % 128 = e with
      | some i => if rc = 0 then some (paddr.toNat / PAGE + i) else s e
      | none => s e
    | _ => s
  entry page := page % 128
  table s := s

theorem sampleMmu_sets {s : Nat → Option Nat} {vaddr paddr num : Nat} (hnum : num ≤ 128) :
    sampleMmu.Sets s (fun e =>
      match (List.range num).find? fun i => (vaddr / PAGE + i) % 128 = e with
      | some i => if (0 : Int32) = 0 then some (paddr / PAGE + i) else s e
      | none => s e) vaddr paddr num := by
  constructor
  · intro i hi
    have hfound : (List.range num).find? (fun j => (vaddr / PAGE + j) % 128 = (vaddr / PAGE + i) % 128) =
        some i := by
      rw [List.find?_range_eq_some]
      refine ⟨by simp, List.mem_range.mpr hi, fun j hj => ?_⟩
      simp
      omega
    simp only [sampleMmu, hfound, if_true]
  · intro e he
    have hnone : (List.range num).find? (fun j => (vaddr / PAGE + j) % 128 = e) = none := by
      rw [List.find?_eq_none]
      intro j hj
      rw [decide_eq_true_eq]
      exact he j (List.mem_range.mp hj)
    simp only [sampleMmu, hnone]

theorem sampleMmu_law : sampleMmu.Law esp32c3 where
  drom page page' hlo hhi hlo' hhi' he := by
    simp only [sampleMmu, esp32c3, PAGE, UInt32.reduceToNat] at *
    omega
  irom page page' hlo hhi hlo' hhi' he := by
    simp only [sampleMmu, esp32c3, PAGE, UInt32.reduceToNat] at *
    omega
  init _ _ _ := rfl
  dbus s vaddr paddr num hlo hhi := sampleMmu_sets (by
    simp only [esp32c3, PAGE, UInt32.reduceToNat] at hlo hhi
    omega)
  ibus s vaddr paddr num hlo hhi := sampleMmu_sets (by
    simp only [esp32c3, PAGE, UInt32.reduceToNat] at hlo hhi
    omega)
  finish _ _ _ := rfl
  delay _ _ _ := rfl

/-- DROM data over three pages, 300 bytes of RAM data, nothing, and code. -/
def sampleImage : Image where
  entry := 0x42030010
  segments := [⟨0x3C000020, 0x1FFF0, 0x20020⟩, ⟨0x3FC90000, 300, 0x50000⟩, ⟨0x3FC90000, 0, 0x50000⟩,
    ⟨0x42030010, 16, 0x60010⟩]

/-- A ROM that succeeds, over flash that holds the low bytes of the addresses. -/
def loadingRom : Device HwOp HwOp.Ans Unit := fun _ o => match o with
  | .spiflashRead src _ => (some fun i => UInt8.ofNat (src.toNat + i), ())
  | .spiflashWrite .. | .spiflashEraseSector _ | .spiflashUnlock => (true, ())
  | .validate .. => (some sampleImage, ())
  | .cacheBegin => (0, ())
  | .ibusMmuSet .. | .dbusMmuSet .. => (0, ())
  | .setLegacyFlashSize _ | .attachAndConfig _ | .cacheFinish _ | .copyNonoverlapping .. | .delayUs _ =>
    ((), ())

theorem validated_sampleImage : Validated Sample.fibewi sampleMmu esp32c3 sampleImage := by
  have hne : nonEmpty sampleImage =
      [⟨0x3C000020, 0x1FFF0, 0x20020⟩, ⟨0x3FC90000, 300, 0x50000⟩, ⟨0x42030010, 16, 0x60010⟩] := by decide
  have htarget : ∀ seg ∈ nonEmpty sampleImage, ∀ target, Sample.fibewi.ramTarget seg esp32c3 = some target →
      seg = ⟨0x3FC90000, 300, 0x50000⟩ ∧ target = 0x3FC90000 := by
    rw [hne]
    rintro seg hseg target htarget
    simp only [List.mem_cons, List.not_mem_nil, or_false] at hseg
    rcases hseg with rfl | rfl | rfl
    · cases htarget
    · cases htarget
      exact ⟨rfl, rfl⟩
    · cases htarget
  constructor
  · rw [hne]
    decide
  · rw [hne]
    rintro seg hseg hmapped
    simp only [List.mem_cons, List.not_mem_nil, or_false] at hseg
    rcases hseg with rfl | rfl | rfl
    · exact ⟨by decide, by decide⟩
    · cases hmapped
    · exact ⟨by decide, by decide⟩
  · intro seg hseg target ht
    obtain ⟨rfl, rfl⟩ := htarget seg hseg target ht
    exact ⟨esp32c3.dram, by decide, by decide, by decide⟩
  · intro seg hseg target ht
    obtain ⟨rfl, rfl⟩ := htarget seg hseg target ht
    exact .inl (by decide)
  · rw [hne]
    refine .cons ?_ (.cons ?_ (.cons (fun _ h => by cases h) .nil))
    · rintro seg' - target target' ht
      cases ht
    · rintro seg' hseg' target target' - ht
      cases List.mem_singleton.mp hseg'
      cases ht
  · rw [hne]
    refine .cons ?_ (.cons ?_ (.cons (fun _ h => by cases h) .nil))
    · rintro seg' hseg' - hmapped page page' ⟨i, hi, rfl⟩ ⟨j, hj, rfl⟩
      rcases List.mem_cons.mp hseg' with rfl | hseg'
      · cases hmapped
      · cases List.mem_singleton.mp hseg'
        simp only [sampleMmu, PAGE, UInt32.reduceToNat] at *
        omega
    · rintro seg' - hmapped
      cases hmapped

theorem load_places_image : ∃ tr, Runs (ExceptT.run
      (load Sample.fibewi esp32c3 sampleLayout 0)) tr (.ok 0x42030010) ∧
    ∀ ram s, Loaded Sample.fibewi sampleMmu esp32c3 UInt8.ofNat sampleImage ram
      (Ram.after ram tr) (sampleMmu.after s tr) := by
  have hruns := runs_events loadingRom (ExceptT.run (load Sample.fibewi esp32c3 sampleLayout 0)) ()
  rw [show ((ExceptT.run (load Sample.fibewi esp32c3 sampleLayout 0)).run loadingRom ()).1 =
    .ok 0x42030010 by decide +kernel] at hruns
  refine ⟨_, hruns, ?_⟩
  have hanswer : ∀ ev ∈ (ExceptT.run (load Sample.fibewi esp32c3 sampleLayout 0)).events loadingRom (),
      ev.2 = (loadingRom () ev.1).1 := fun ev hev => (answer_of_mem_events hev).choose_spec
  obtain ⟨part, image, -, hmem, -, hloaded⟩ := load_places (f := UInt8.ofNat) (.inl rfl)
    sampleMmu_law (fun src n window hmem i => by cases hanswer _ hmem; rfl)
    (fun offset size image hmem => by cases hanswer _ hmem; exact validated_sampleImage) hruns
  cases hanswer _ hmem
  exact hloaded

end Espbewi.System
