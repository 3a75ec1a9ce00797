import Espbewi.System.Loading
import Espbewi.System.SharedPower
import Espbewi.System.SharedUpload

/-! From the bytes that a client sends to the image that runs. -/

namespace Espbewi.System

open Lib Nor Boot Hw Platform Otadata Bootloader Prog SharedFlash
open EspArtifactStorage (sectors)

variable {idf : EspIdf} {fb : Fibewi} {H : Sha256} {g : Geometry} {w : Nat} {E : Engine} {M : FlashMap}
  {pending : E.WriteSession → List UInt8} {b : Behaviour} {s s' : State} {f f' : Flash} {x : AppSlot}
  {S : List UInt8}

/-! ### The application -/

/-- `x` was activated after `S` was finished in it, and since then no call has written to it or updated a
boot entry. -/
inductive Activated (x : AppSlot) (S : List UInt8) : List (Served idf fb H g w E M) → Prop
  | activate {h before after} : Finished x S h → Activated x S (h ++ [⟨.activate x, .ok (), before, after⟩])
  | other {h} {ev : Served idf fb H g w E M} : Activated x S h → ¬ Request.Writes x ev.call →
      ev.call.call? = none → Activated x S (h ++ [ev])

/-- The slot holds `S`, and the boot entries are as an activation of the slot leaves them. -/
structure Deployed (fb : Fibewi) (M : FlashMap) (x : AppSlot) (S : List UInt8) (f : Flash) : Prop where
  size : S.length ≤ (M.slot x).size
  holds : ∀ i (hi : i < S.length), f ((M.slot x).offset.toNat + i) = S[i]
  entries : ∃ entries write, fb.activate entries 2 (slotIndex x) = some write ∧
    entriesAt fb f M.ota.offset = fb.written entries write

theorem Deployed.frame (hl : fb.OpsLaw) (h : Deployed fb M x S f) {r : Region}
    (hslot : r.Apart (.ofSlot (M.slot x))) (hota : r.Apart (.ofEntry M.ota)) (hframe : r.Frame f f') :
    Deployed fb M x S f' := by
  obtain ⟨entries, write, hw, hentries⟩ := h.entries
  refine ⟨h.size, fun i hi => ?_, entries, write, hw, ?_⟩
  · rw [slot_frame hslot hframe (Nat.lt_of_lt_of_le hi h.size)]
    exact h.holds i hi
  · rw [← hentries]
    exact Prod.ext (rawAt_frame hl hota hframe (by decide)) (rawAt_frame hl hota hframe (by decide))

section History

variable {h : List (Served idf fb H g w E M)}

theorem Activated.deployed (hb : b.Honest) (hl : fb.OpsLaw) (hsl : fb.SectorLaw) (hE : E.Law pending)
    (hS : (sectors g S).length < 2 ^ 64) (hs : Located idf M s) (hactivated : Activated x S h)
    (hserial : (service idf fb H g w E M).Serial (Service.ofDevice (norDevice b)).bound s h s') :
    Deployed fb M x S s'.flash := by
  induction hactivated generalizing s' with
  | @activate h before after hfinished =>
    obtain ⟨hfirst, hserves, rfl⟩ := hserial.last
    obtain ⟨hsize, hholds⟩ := (hfinished.holds hb hl hsl hE hS hs hfirst).bytes
    have hlocated : Located idf M before := serial_located hb hl hsl hfirst hs
    have hrun : (ExceptT.run ((Call.activate x).exec idf fb)).run (norDevice b) before = (.ok (), s') :=
      hserves.run rfl
    obtain ⟨write, hw, hsector, helse, hentries⟩ := call_ok hb hl hsl M.placed hlocated hrun
    refine ⟨hsize, fun i hi => ?_, _, write, hw, hentries⟩
    rw [slot_frame (fun z hz hz' => M.slot_ota x z hz' hz) (Elsewhere.frame hsector helse)
      (Nat.lt_of_lt_of_le hi hsize)]
    exact hholds i hi
  | @other h ev _ hother hnone ih =>
    obtain ⟨hfirst, hserves, rfl⟩ := hserial.last
    exact (ih hfirst).frame hl (region_other hother) (region_ota hnone)
      (serves_frame hb hl hsl (serial_located hb hl hsl hfirst hs) hserves)

/-- Also in a power cut. -/
theorem deployed_of_cut {ι : Type} [DecidableEq ι] (hb : b.Honest) (hl : fb.OpsLaw) (hsl : fb.SectorLaw)
    (hE : E.Law pending) (hS : (sectors g S).length < 2 ^ 64) (hs : Located idf M s)
    {st : (service idf fb H g w E M).State ι State State}
    (hreach : Service.Reach _ (Service.ofDevice (norDevice b)) s st) (hactivated : Activated x S st.history)
    (hquiet : ∀ i c p, st.task i = .inside c p → ¬ Request.Writes x c ∧ c.call? = none)
    (hcut : CutAt st f) : Deployed fb M x S f := by
  have hserial := (Service.serializable (fun c r => by trivial) hreach).1
  have hdeployed := hactivated.deployed hb hl hsl hE hS hs hserial
  rcases CutAt.cases ((guards_table hb hl hsl hs).moment (fun _ _ => rfl) (fun _ _ _ => rfl) hreach) hcut with
    rfl | ⟨i, c, p, hinside, hframe⟩
  · exact hdeployed
  · obtain ⟨hother, hnone⟩ := hquiet i c p hinside
    exact hdeployed.frame hl (region_other hother) (region_ota hnone) hframe

theorem table_of_cut {ι : Type} [DecidableEq ι] (hb : b.Honest) (hl : fb.OpsLaw) (hsl : fb.SectorLaw)
    (hs : Located idf M s) {st : (service idf fb H g w E M).State ι State State}
    (hreach : Service.Reach _ (Service.ofDevice (norDevice b)) s st) (hcut : CutAt st f) :
    Nor.read f 0x8000 0xC00 = Nor.read s.flash 0x8000 0xC00 := by
  have hmoment := (guards_table hb hl hsl hs).moment (fun _ _ => rfl) (fun _ _ _ => rfl) hreach
  refine read_eq_iff.mpr fun i hi => ?_
  rw [hmoment.settled (0x8000 + i) (by omega) (by omega)]
  rcases CutAt.cases hmoment hcut with rfl | ⟨i, c, p, -, hframe⟩
  · rfl
  · exact (Frame.table hframe (region_table c) (by omega) (by omega)).symm

end History

/-! ### The bootloader -/

/-- The plan boots the slot that was activated, if its image is accepted. -/
theorem planned_activated (hde : fb.DecodeEncode) (hal : fb.ActivateLaw) {bootable : fb.Entry → Prop}
    (hpl : fb.PlanLaw bootable) (hbl : fb.BootLaw bootable) {entries : Entries} {write : Write fb.Entry}
    {target : UInt8} (hw : fb.activate entries 2 target = some write) {ok : UInt8 → Bool}
    (hok : ok target = true) {slot : UInt8} {seq : UInt32}
    (hboot : (fb.planned (fb.written entries write) ok).boot = .slot slot seq) : slot = target := by
  have hthere : fb.entryOf (fb.written entries write) write.sector = some write.entry :=
    Fibewi.written_same hde
  have hle : fb.seq write.entry ≤ seq :=
    hpl.highest hboot hthere (hbl.activated hw) ((congrArg ok (hal.slot hw)).trans hok)
  have hge : seq ≤ fb.seq write.entry := by
    rcases hbl.there hboot with ⟨sector, e, he, rfl⟩ | hnone
    · obtain ⟨-, rfl⟩ | ⟨-, he⟩ := Fibewi.written_cases hde he
      · exact UInt32.le_refl _
      · exact UInt32.le_of_lt (hal.newest hw he)
    · rw [hnone] at hthere
      cases hthere
  rw [← (hpl.booted hboot).1, UInt32.le_antisymm hge hle, hal.slot hw]

theorem WritesCut.frame {writes : List (Write fb.Entry)} (hsectors : ∀ write ∈ writes, write.sector < 2)
    (h : WritesCut fb M.ota.offset writes f f') : (Region.ofEntry M.ota).Frame f f' := by
  induction h with
  | between => exact .refl _ _
  | inside hcut => exact Elsewhere.frame (hsectors _ (.head _)) hcut.safe.outside
  | next hcut _ _ ih =>
    exact (Elsewhere.frame (hsectors _ (.head _)) hcut.safe.outside).trans
      (ih fun write hw => hsectors write (.tail _ hw))

theorem BootCut.frame (hsl : fb.SectorLaw) (h : BootCut fb M.ota.offset f f') :
    (Region.ofEntry M.ota).Frame f f' := by
  rcases h with rfl | ⟨tr, plan, hplan, hu⟩
  · exact .refl _ _
  · exact hu.frame (hsl.planBoot hplan)

section Rom

variable {other : State → (o : HwOp) → o.Ans}

theorem flash_of_quiet {α : Type} {p : HwProg α} (hp : p.Only Quiet) :
    (p.run (romDevice b other) s).2.flash = s.flash :=
  run_of_wp (wp_quiet (Q := fun _ s' => s'.flash = s.flash) hp (fun _ _ _ => trivial) fun _ => rfl)

/-- Calls without flash commands read the same flash throughout. -/
theorem faithful_of_quiet {α : Type} {p : HwProg α} (hp : p.Only Quiet) :
    Faithful s.flash (p.events (romDevice b other) s) := by
  induction p generalizing s with
  | ret a => exact fun _ _ _ h => by cases h
  | call o k ih =>
    have hflash : (romDevice b other s o).2.flash = s.flash := flash_of_quiet (p := op o) ⟨hp.1, fun _ => trivial⟩
    have hrest := ih (romDevice b other s o).1 (s := (romDevice b other s o).2) (hp.2 _)
    rw [hflash] at hrest
    intro src n window hmem
    rcases List.mem_cons.mp hmem with hev | hmem
    · obtain rfl : o = .spiflashRead src n := (congrArg Sigma.fst hev).symm
      have hanswer : some window = (b.fetch s src.toNat n.toNat).1 := eq_of_heq (Sigma.mk.inj hev).2
      unfold Behaviour.fetch at hanswer
      split at hanswer
      · cases hanswer
        exact fun _ => rfl
      · cases hanswer
    · exact hrest src n window hmem

theorem boot_frame (hb : b.Honest) (hl : fb.OpsLaw) (hdw : fb.DecodeWorn) (hsl : fb.SectorLaw)
    (hsound : Sound idf fb M.ota s.flash) {map : MemoryMap} :
    (Region.ofEntry M.ota).Frame s.flash ((ExceptT.run (boot fb map)).run (romDevice b other) s).2.flash := by
  have hcut : BootCut fb M.ota.offset s.flash ((ExceptT.run (boot fb map)).run (romDevice b other) s).2.flash :=
    ((wp_iff ..).mp (wp_boot_cut hb hl hdw hsl M.placed hsound map)).2
  exact hcut.frame hsl

theorem layout_of_prepare (hb : b.Honest) (hl : fb.OpsLaw) (hsl : fb.SectorLaw)
    (hsound : Sound idf fb M.ota s.flash) {map : MemoryMap} {layout : Layout} {slot : UInt8}
    (h : (ExceptT.run (prepare fb map)).run (romDevice b other) s = (.ok (layout, slot), s')) :
    layoutOf (Nor.read s.flash 0x8000 0xC00) = .ok layout := by
  have hsmall := hl.small
  have hwp : (ExceptT.run (prepare fb map)).wp (romDevice b other) (fun _ _ => True)
      (fun r _ => ∀ layout slot, r = .ok (layout, slot) →
        layoutOf (Nor.read s.flash 0x8000 0xC00) = .ok layout) s := by
    unfold prepare
    rw [wp_try]
    refine wp_plan (fun layout hlayout sector hs => ?_) (fun _ _ _ => trivial)
      (fun k k' layout plan hlayout hplan => ?_) (fun _ _ _ _ _ h => by cases h)
    · have := M.placed.block hs
      rw [hsound.boot layout hlayout]
      omega
    · have hota := hsound.boot layout hlayout
      rw [hota] at hplan
      have hsectors := hsl.planBoot (runs_of_runPlan (hplan ▸ runs_events ..)).choose_spec
      simp only
      rw [wp_try, wp_adapt, wp_ofExcept]
      cases plannedSlot plan.boot with
      | error e => exact fun _ _ h => by cases h
      | ok slot =>
        simp only [Except.mapError]
        rw [wp_try]
        refine wp_mono (fun r s' _ => ?_) (wp_executeAll_ok (s := { s with reads := k }) hb hl M.placed hota
          hsectors)
        cases r with
        | error e => exact fun _ _ h => by cases h
        | ok _ =>
          rintro layout' slot' ⟨⟩
          exact hlayout
  have := run_of_wp hwp
  rw [h] at this
  exact this layout slot rfl

/-- What the image takes from the slot is what was sent: copied to RAM, or behind its address. -/
structure Serving (fb : Fibewi) (mmu : Mmu) (map : MemoryMap) (offset : UInt32) (S : List UInt8) (image : Image)
    (f : Flash) (ram : Ram) (m : mmu.State) : Prop where
  copied : ∀ seg ∈ nonEmpty image, ∀ target, fb.ramTarget seg map = some target → ∀ i < seg.len.toNat,
    ∀ j (hj : j < S.length), seg.dataOffset.toNat + i = offset.toNat + j → ram (target.toNat + i) = S[j]
  mapped : ∀ seg ∈ nonEmpty image, map.isFlashMapped seg.load → ∀ i < seg.len.toNat,
    ∀ j (hj : j < S.length), seg.dataOffset.toNat + i = offset.toNat + j →
      ∃ a, mmu.translate m (seg.load.toNat + i) = some a ∧ f a = S[j]

/-- A boot that jumps has loaded the image of the slot it prepared, from flash it did not touch after. -/
theorem load_of_boot {map : MemoryMap} {entry : UInt32} {s₁ : State}
    (h : (ExceptT.run (boot fb map)).run (romDevice b other) s = (.ok entry, s₁)) :
    ∃ layout slot s' trp trl, (ExceptT.run (prepare fb map)).run (romDevice b other) s = (.ok (layout, slot), s') ∧
      (ExceptT.run (boot fb map)).events (romDevice b other) s = trp ++ trl ∧
      Runs (ExceptT.run (load fb map layout slot)) trl (.ok entry) ∧ Faithful s₁.flash trl ∧
      ∀ ev ∈ trl, ∃ t, ev.2 = (romDevice b other t ev.1).1 := by
  obtain ⟨layout, slot, s', entry', hprepare, hload⟩ := boot_ok h
  have hrun : (ExceptT.run (boot fb map)).run (romDevice b other) s =
      (ExceptT.run (load fb map layout slot)).run (romDevice b other) s' := by
    unfold boot
    rw [run_try, hprepare]
  rw [h, hload] at hrun
  cases hrun
  have hquiet := only_load fb map layout slot
  have hflash : s₁.flash = s'.flash := by
    have : ((ExceptT.run (load fb map layout slot)).run (romDevice b other) s').2.flash = s'.flash :=
      flash_of_quiet hquiet
    rwa [hload] at this
  refine ⟨layout, slot, s', _, _, hprepare, events_try hprepare, ?_, hflash ▸ faithful_of_quiet hquiet,
    fun ev hev => answer_of_mem_events hev⟩
  have := runs_events (romDevice b other) (ExceptT.run (load fb map layout slot)) s'
  rwa [hload] at this

end Rom

section UploadBoot

variable (hl : fb.OpsLaw) (hde : fb.DecodeEncode) (hdw : fb.DecodeWorn) (hsl : fb.SectorLaw)
  (hal : fb.ActivateLaw) {bootable : fb.Entry → Prop} (hpl : fb.PlanLaw bootable) (hbl : fb.BootLaw bootable)

include hl hde hdw hsl hal hpl hbl

/-- A boot from flash that `S` was deployed to. -/
theorem Deployed.serving (hb : b.Honest) {map : MemoryMap} {mmu : Mmu} (hmap : map = esp32c3 ∨ map = esp32s3)
    (hlaw : mmu.Law map) {other : State → (o : HwOp) → o.Ans} {judge : UInt32 → UInt32 → Bool}
    (hj : Judges other map judge)
    (hvalid : ∀ t offset size image, other t (.validate offset size map) = some image →
      Validated fb mmu map image)
    (hsound : Sound idf fb M.ota s.flash) {part : UInt32 × UInt32}
    (hpart : ∀ layout, layoutOf (Nor.read s.flash 0x8000 0xC00) = .ok layout → partition layout x = part)
    (hoffset : part.1 = (M.slot x).offset) (haccepted : judge part.1 part.2 = true)
    (h : Deployed fb M x S s.flash) {entry : UInt32} {s₁ : State}
    (hrun : (ExceptT.run (boot fb map)).run (romDevice b other) s = (.ok entry, s₁)) :
    ∃ t image, other t (.validate part.1 part.2 map) = some image ∧ entry = image.entry ∧
      ∀ ram m, Serving fb mmu map part.1 S image s₁.flash
        (Ram.after ram ((ExceptT.run (boot fb map)).events (romDevice b other) s))
        (mmu.after m ((ExceptT.run (boot fb map)).events (romDevice b other) s)) := by
  have hframe : (Region.ofEntry M.ota).Frame s.flash s₁.flash := by
    have hboot : (Region.ofEntry M.ota).Frame s.flash
        ((ExceptT.run (boot fb map)).run (romDevice b other) s).2.flash := boot_frame hb hl hdw hsl hsound
    rwa [hrun] at hboot
  have hholds : ∀ j (hj : j < S.length), s₁.flash (part.1.toNat + j) = S[j] := by
    intro j hj
    rw [hoffset, slot_frame (fun z hz hz' => M.slot_ota x z hz' hz) hframe (Nat.lt_of_lt_of_le hj h.size)]
    exact h.holds j hj
  obtain ⟨layout, slot, s', trp, trl, hprepare, hevents, hload, hfaithful, hanswers⟩ := load_of_boot hrun
  have hlayout := hpart layout (layout_of_prepare hb hl hsl hsound hprepare)
  obtain ⟨⟨seq, hboots⟩, -, -⟩ := prepare_ok hb hl hsl M.placed hsound.boot hj hprepare
  obtain ⟨entries, write, hw, hentries⟩ := h.entries
  rw [hentries] at hboots
  have hverdict : verdict judge layout (slotIndex x) = true := by
    have hx : slotIndex x < 2 := by cases x <;> decide
    obtain ⟨part', happ, hv⟩ := app_eq judge layout hx
    rw [app_slotIndex, hlayout] at happ
    cases happ
    exact hv.trans haccepted
  obtain rfl := planned_activated hde hal hpl hbl hw hverdict hboots
  obtain ⟨_, trc, answer, rfl, hvalidate, hplace⟩ := runs_try_ok hload
  obtain ⟨part', happ, rfl⟩ := runs_validate hvalidate
  rw [app_slotIndex, hlayout] at happ
  cases happ
  cases answer with
  | none =>
    obtain ⟨-, hr⟩ := runs_ret.mp hplace
    cases hr
  | some image =>
    obtain ⟨t, hanswer⟩ := hanswers _ (.head _)
    refine ⟨t, image, hanswer.symm, ?_⟩
    obtain ⟨hentry, hloaded⟩ := runs_place hlaw (buses_of_chip hmap) (hvalid t _ _ image hanswer.symm)
      (hfaithful.mono (List.subset_append_right ..)) hplace
    refine ⟨hentry, fun ram m => ?_⟩
    rw [hevents, ← List.append_assoc, Ram.after_append, Mmu.after_append]
    refine ⟨fun seg hseg target htarget i hi j hj hij => ?_, fun seg hseg hmapped i hi j hj hij => ?_⟩
    · rw [(hloaded _ m).copied seg hseg target htarget i hi, hij]
      exact hholds j hj
    · exact ⟨_, (hloaded ram _).mapped seg hseg hmapped i hi, hij ▸ hholds j hj⟩

/-- What a client sends is what runs: after any interleaving of the tasks in which `S` was uploaded to a slot
and the slot activated, cut at any later moment, a boot that accepts the image of the slot and jumps has put
the bytes of `S` where the image wants them. -/
theorem uploaded_image_runs {ι : Type} [DecidableEq ι] (hE : E.Law pending) (hS : (sectors g S).length < 2 ^ 64)
    {bApp : Behaviour} (hbApp : bApp.Honest) {s₀ : State} (hsound : Sound idf fb M.ota s₀.flash)
    {st : (service idf fb H g w E M).State ι State State}
    (hreach : Service.Reach _ (Service.ofDevice (norDevice bApp)) s₀ st)
    (hactivated : Activated x S st.history)
    (hquiet : ∀ i c p, st.task i = .inside c p → ¬ Request.Writes x c ∧ c.call? = none)
    (hcut : CutAt st s.flash)
    (hb : b.Honest) {map : MemoryMap} {mmu : Mmu} (hmap : map = esp32c3 ∨ map = esp32s3)
    (hlaw : mmu.Law map) {other : State → (o : HwOp) → o.Ans} {judge : UInt32 → UInt32 → Bool}
    (hj : Judges other map judge)
    (hvalid : ∀ t offset size image, other t (.validate offset size map) = some image →
      Validated fb mmu map image)
    {part : UInt32 × UInt32}
    (hpart : ∀ layout, layoutOf (Nor.read s₀.flash 0x8000 0xC00) = .ok layout → partition layout x = part)
    (hoffset : part.1 = (M.slot x).offset) (haccepted : judge part.1 part.2 = true)
    {entry : UInt32} {s₁ : State} (hrun : (ExceptT.run (boot fb map)).run (romDevice b other) s = (.ok entry, s₁)) :
    ∃ t image, other t (.validate part.1 part.2 map) = some image ∧ entry = image.entry ∧
      ∀ ram m, Serving fb mmu map part.1 S image s₁.flash
        (Ram.after ram ((ExceptT.run (boot fb map)).events (romDevice b other) s))
        (mmu.after m ((ExceptT.run (boot fb map)).events (romDevice b other) s)) := by
  have hdeployed := deployed_of_cut hbApp hl hsl hE hS hsound.app hreach hactivated hquiet hcut
  have htable := table_of_cut hbApp hl hsl hsound.app hreach hcut
  have hsound' := hsound.tasks hl hdw hsl hbApp hreach hcut
  refine hdeployed.serving hl hde hdw hsl hal hpl hbl hb hmap hlaw hj hvalid hsound' ?_ hoffset haccepted hrun
  rw [htable]
  exact hpart

end UploadBoot

/-! ### Five bytes that run -/

def sampleActivate : Except Otadata.Error Unit × State :=
  (ExceptT.run (Otadata.activate firstMatch Sample.fibewi .ota1)).run (norDevice perfect) sampleFinish.2

/-- The image of slot 1: the five bytes, in RAM. -/
def fiveImage : Image where
  entry := 0x3FC90000
  segments := [⟨0x3FC90000, 5, 0x120000⟩]

def fiveImages (_offset _size : UInt32) : Option Image := some fiveImage

def sampleBoot : Except Stop UInt32 × State :=
  (ExceptT.run (boot Sample.fibewi esp32c3)).run (romDevice perfect (steady fiveImages)) sampleActivate.2

theorem reach_activated : ∃ h, Service.Reach sampleService (Service.ofDevice (norDevice perfect))
      ⟨Sample.otaFlash oneEntry, [], 0⟩ ⟨sampleActivate.2, none, fun _ : Nat => .idle, sampleActivate.2, h⟩ ∧
    Activated .ota1 [1, 2, 3, 4, 5] h := by
  obtain ⟨h, hreach, hfinished⟩ := reach_five_bytes
  have hok : sampleActivate.1 = .ok () := by decide +kernel
  have hcall := hreach.call 0 (.activate .ota1) rfl fun _ _ => rfl
  refine ⟨_, hcall, ?_⟩
  rw [show ((sampleService.body (.activate .ota1)).run (norDevice perfect) sampleFinish.2).1 = .ok () from hok]
  exact .activate hfinished

theorem sound_otaFlash {entries : Entries} (h₀ : entries.1.length = 20) (h₁ : entries.2.length = 20)
    (hfirst : entries.1 = Sample.fibewi.BLANK ∨ Sample.fibewi.Worn entries.1)
    (hsecond : entries.2 = Sample.fibewi.BLANK ∨ Sample.fibewi.Worn entries.2) :
    Sound firstMatch Sample.fibewi sampleMap.ota (Sample.otaFlash entries) where
  app := (congrFun (Sample.lookupIn_otaFlash _) _).trans (Sample.lookupIn_table .dataOta)
  boot layout h := by
    rw [Sample.read_otaFlash, layoutOf_table] at h
    cases h
    rfl
  legible sector hs := by
    have hentries : entriesAt Sample.fibewi (Sample.otaFlash entries) 0xD000 = entries := entriesAt_otaFlash h₀ h₁
    rcases sector_cases hs with rfl | rfl
    · rw [show rawAt Sample.fibewi (Sample.otaFlash entries) sampleMap.ota.offset 0 = entries.1 from
        congrArg Prod.fst hentries]
      exact hfirst
    · rw [show rawAt Sample.fibewi (Sample.otaFlash entries) sampleMap.ota.offset 1 = entries.2 from
        congrArg Prod.snd hentries]
      exact hsecond

theorem sound_oneEntry : Sound firstMatch Sample.fibewi sampleMap.ota (Sample.otaFlash oneEntry) :=
  sound_otaFlash (by decide) (by decide) (.inr ⟨⟨1, Sample.VALID⟩, forall₂_within_refl _⟩) (.inl rfl)

theorem validated_fiveImage : Validated Sample.fibewi sampleMmu esp32c3 fiveImage := by
  have hseg : ∀ seg ∈ nonEmpty fiveImage, seg = ⟨0x3FC90000, 5, 0x120000⟩ := by decide
  constructor
  · decide
  · rintro seg hmem hmapped
    cases hseg seg hmem
    cases hmapped
  · rintro seg hmem target ht
    cases hseg seg hmem
    cases ht
    exact ⟨esp32c3.dram, by decide, by decide, by decide⟩
  · rintro seg hmem target ht
    cases hseg seg hmem
    cases ht
    exact .inl (by decide)
  · exact .cons (fun _ h => by cases h) .nil
  · exact .cons (fun _ h => by cases h) .nil

theorem cutAt_idle (s : State) (h : List (sampleService.Event State)) :
    CutAt (⟨s, none, fun _ => .idle, s, h⟩ : sampleService.State Nat State State) s.flash := .free rfl

theorem uploaded_image_runs_five : ∃ s₁, sampleBoot = (.ok 0x3FC90000, s₁) ∧ ∀ ram : Ram, ∀ j (hj : j < 5),
    Ram.after ram ((ExceptT.run (boot Sample.fibewi esp32c3)).events (romDevice perfect (steady fiveImages))
      sampleActivate.2) ((0x3FC90000 : UInt32).toNat + j) = [(1 : UInt8), 2, 3, 4, 5][j] := by
  obtain ⟨h, hreach, hactivated⟩ := reach_activated
  have hboot : sampleBoot.1 = .ok 0x3FC90000 := by decide +kernel
  generalize hsample : sampleBoot = r at hboot
  obtain ⟨r, s₁⟩ := r
  cases hboot
  have hrun : (ExceptT.run (boot Sample.fibewi esp32c3)).run (romDevice perfect (steady fiveImages))
    sampleActivate.2 = (.ok 0x3FC90000, s₁) := hsample
  refine ⟨s₁, rfl, fun ram j hj => ?_⟩
  have hpart : ∀ layout, layoutOf (Nor.read (Sample.otaFlash oneEntry) 0x8000 0xC00) = .ok layout →
      partition layout .ota1 = (0x120000, 0x100000) := by
    intro layout hlayout
    rw [Sample.read_otaFlash, layoutOf_table] at hlayout
    cases hlayout
    rfl
  obtain ⟨t, image, himage, -, hserving⟩ := uploaded_image_runs Sample.opsLaw Sample.decodeEncode
    (fun _ _ _ _ => Sample.decodeWorn) Sample.sectorLaw Sample.activateLaw Sample.planLaw Sample.bootLaw
    listEngine_law (by decide) perfect_honest sound_oneEntry hreach hactivated (fun _ _ _ hinside => by cases hinside)
    (cutAt_idle _ h) perfect_honest (.inl rfl) sampleMmu_law (judges_steady fiveImages _)
    (fun _ _ _ _ h => by cases h; exact validated_fiveImage)
    hpart rfl rfl hrun
  cases himage
  have hmem : ⟨0x3FC90000, 5, 0x120000⟩ ∈ nonEmpty fiveImage := by decide
  exact (hserving ram fun _ => none).copied _ hmem 0x3FC90000 rfl j hj j hj rfl

end Espbewi.System
