import Espbewi.System.Survival

/-! Whole lifetimes: sessions of tasks and boots, each cut anywhere, and the boot after them. -/

namespace Espbewi.System

open Lib Nor Boot Hw Platform Otadata Bootloader Prog SharedFlash

section Defs

variable (idf : EspIdf) (fb : Fibewi) (H : Sha256) (g : Geometry) (w : Nat) (E : Engine) (M : FlashMap)
  (judge : Flash → UInt32 → UInt32 → Option Image) (P : Flash → Request E M → Prop)

/-- One session of the application, in which every call that got the lock satisfied `P` when it got it, or one
boot. Both are cut anywhere. -/
inductive Lived : Flash → Flash → Prop
  | tasks {b : Behaviour} {s : State} {f : Flash} {st : (service idf fb H g w E M).State Nat State State} : b.Honest →
      Service.Reach _ (Service.ofDevice (norDevice b)) s st →
      (∀ ev ∈ st.history, early E M ev.call = none → P ev.before.flash ev.call) →
      (∀ i c p, st.task i = .inside c p → P st.settled.flash c) → CutAt st f → Lived s.flash f
  | boot {b : Behaviour} {other : State → (o : HwOp) → o.Ans} {s : State} {f : Flash} (map : MemoryMap) : b.Honest →
      Truthful judge other map → CutPoint HwOp.cmd? (romDevice b other) (ExceptT.run (boot fb map)) s f →
      Lived s.flash f

/-- The chip without faults. -/
structure Healthy (map : MemoryMap) (other : State → (o : HwOp) → o.Ans) : Prop where
  unlock : ∀ s, other s .spiflashUnlock = true
  mapping : Mapping other
  truthful : Truthful judge other map

end Defs

variable {idf : EspIdf} {fb : Fibewi} {H : Sha256} {g : Geometry} {w : Nat} {E : Engine} {M : FlashMap}
  {judge : Flash → UInt32 → UInt32 → Option Image} {layout : Layout} {b : Behaviour} {s s' : State} {f f' : Flash}

/-- What holds after the calls and is preserved by the one that runs, holds after a cut. -/
theorem cut_invariant {P : Flash → Request E M → Prop} {J : Flash → Prop} {ι : Type} [DecidableEq ι]
    (hl : fb.OpsLaw) (hdw : fb.DecodeWorn) (hsl : fb.SectorLaw)
    (hrequest : ∀ f f' c, J f → P f c → RequestCut fb c f f' → J f') (hb : b.Honest) (hs : Sound idf fb M.ota s.flash)
    {st : (service idf fb H g w E M).State ι State State}
    (hreach : Service.Reach _ (Service.ofDevice (norDevice b)) s st) (hsettled : J st.settled.flash)
    (hinside : ∀ i c p, st.task i = .inside c p → P st.settled.flash c) (hcut : CutAt st f) : J f := by
  rcases hcut.cases (moment_sound hl hdw hsl hb hs hreach) with rfl | ⟨i, c, p, htask, hc⟩
  · exact hsettled
  · exact hrequest _ _ _ hsettled (hinside i c p htask) hc

section Invariant

variable {P : Flash → Request E M → Prop} {J : Flash → Prop} (hl : fb.OpsLaw) (hdw : fb.DecodeWorn)
  (hsl : fb.SectorLaw) (hslot : fb.SlotLaw) (hcharted : ∀ f, J f → Charted idf fb M layout f)
  (hrequest : ∀ f f' c, J f → P f c → RequestCut fb c f f' → J f')
  (hboot : ∀ f f', J f → WritesCut fb M.ota.offset (bootPlan fb judge layout M.ota.offset f).writes f f' → J f')

include hl hdw hsl hcharted hrequest

theorem serves_invariant (hb : b.Honest) {ev : Served idf fb H g w E M} (h : J ev.before.flash)
    (hP : early E M ev.call = none → P ev.before.flash ev.call)
    (hserves : (service idf fb H g w E M).Serves (Service.ofDevice (norDevice b)).bound ev) : J ev.after.flash := by
  cases hearly : (service idf fb H g w E M).early ev.call with
  | some r =>
    rw [(hserves.early hearly).2]
    exact h
  | none =>
    have hcut := run_of_wp (wp_guard_mono (fun _ _ _ => trivial)
      (wp_body_safe (H := H) (g := g) (w := w) hb hl hdw hsl (hcharted _ h).sound ev.call))
    rw [show (body idf fb H g w E M ev.call).run (norDevice b) ev.before = (ev.result, ev.after) from
      hserves.run hearly] at hcut
    exact hrequest _ _ _ h (hP hearly) hcut

/-- What every call preserves, holds after the calls. -/
theorem serial_invariant (hb : b.Honest) (h : J s.flash) {history : List (Served idf fb H g w E M)}
    (hserial : Service.Serial _ (Service.ofDevice (norDevice b)).bound s history s')
    (hhistory : ∀ ev ∈ history, early E M ev.call = none → P ev.before.flash ev.call) : J s'.flash :=
  (hserial.invariant (J := fun s => J s.flash) (fun ev hmem hbefore hserves =>
    serves_invariant hl hdw hsl hcharted hrequest hb hbefore (hhistory ev hmem) hserves) h).1

/-- And so it holds at every moment of every interleaving. -/
theorem tasks_invariant {ι : Type} [DecidableEq ι] (hb : b.Honest) (h : J s.flash)
    {st : (service idf fb H g w E M).State ι State State}
    (hreach : Service.Reach _ (Service.ofDevice (norDevice b)) s st)
    (hhistory : ∀ ev ∈ st.history, early E M ev.call = none → P ev.before.flash ev.call)
    (hinside : ∀ i c p, st.task i = .inside c p → P st.settled.flash c) (hcut : CutAt st f) : J f :=
  cut_invariant hl hdw hsl hrequest hb (hcharted _ h).sound hreach
    (serial_invariant hl hdw hsl hcharted hrequest hb h (Service.serializable (fun c r => by trivial) hreach).1
      hhistory) hinside hcut

include hslot hboot

/-- What every call and every boot preserves, a lifetime preserves. -/
theorem lived_invariant (h : J f) (hrun : Relation.ReflTransGen (Lived idf fb H g w E M judge P) f f') : J f' := by
  induction hrun with
  | refl => exact h
  | tail _ hstep ih =>
    cases hstep with
    | tasks hb hreach hhistory hinside hcut =>
      exact tasks_invariant hl hdw hsl hcharted hrequest hb ih hreach hhistory hinside hcut
    | boot map hb ht hcut =>
      exact hboot _ _ ih
        (cutPoint_of_wp (wp_boot_truthful hb hl hdw hsl hslot ht (hcharted _ ih).sound (hcharted _ ih).table) hcut)

end Invariant

/-! ### Booting again -/

/-- Without faults the image of the slot that the plan boots runs. -/
theorem Charted.boots (hl : fb.OpsLaw) (hde : fb.DecodeEncode) (hdw : fb.DecodeWorn) (hsl : fb.SectorLaw)
    (hslot : fb.SlotLaw) (hwl : fb.WordLaw) (hj : Judged judge) (hsame : SameSlots layout M)
    (hend : M.ota.offset.toNat + 0x2000 < 2 ^ 32) (h : Charted idf fb M layout s.flash) {map : MemoryMap}
    {other : State → (o : HwOp) → o.Ans} (hhealthy : Healthy judge map other) {x : AppSlot} {seq : UInt32}
    (hplan : (bootPlan fb judge layout M.ota.offset s.flash).boot = .slot (slotIndex x) seq) {image : Image}
    (himage : judge s.flash (partition layout x).1 (partition layout x).2 = some image) :
    ∃ s', (ExceptT.run (Bootloader.boot fb map)).run (romDevice perfect other) s = (.ok image.entry, s') ∧
      WritesCut fb M.ota.offset (bootPlan fb judge layout M.ota.offset s.flash).writes s.flash s'.flash ∧
      entriesAt fb s'.flash M.ota.offset = fb.writtenAll (entriesAt fb s.flash M.ota.offset)
        (bootPlan fb judge layout M.ota.offset s.flash).writes := by
  obtain ⟨s', hrun, -, hentries⟩ := boot_run hl hde hsl hslot hwl hhealthy.unlock hhealthy.mapping hhealthy.truthful
    h.table (h.sound.boot layout h.table) hend hplan (app_slotIndex layout x)
    (fun f hframe => (judge_frame hj hsame hframe (ota_slot x)).trans himage) (hj.fits himage)
  have hcut := run_of_wp (wp_guard_mono (fun _ _ _ => trivial)
    (wp_boot_truthful perfect_honest hl hdw hsl hslot hhealthy.truthful h.sound h.table))
  rw [hrun] at hcut
  exact ⟨s', hrun, hcut, hentries⟩

/-- The boot entries and the images that are there suffice for a boot without faults. -/
theorem Survives.boots (hl : fb.OpsLaw) (hde : fb.DecodeEncode) (hdw : fb.DecodeWorn) (hsl : fb.SectorLaw)
    (hslot : fb.SlotLaw) (hwl : fb.WordLaw) (hpl : fb.SparingLaw) (hj : Judged judge) (hsame : SameSlots layout M)
    (hend : M.ota.offset.toNat + 0x2000 < 2 ^ 32) (h : Survives idf fb M judge layout s.flash) {map : MemoryMap}
    {other : State → (o : HwOp) → o.Ans} (hhealthy : Healthy judge map other) :
    ∃ x image s', judge s.flash (partition layout x).1 (partition layout x).2 = some image ∧
      (ExceptT.run (Bootloader.boot fb map)).run (romDevice perfect other) s = (.ok image.entry, s') := by
  obtain ⟨slot, seq, hplan⟩ := h.alive.boots hpl
  have haccepted := hpl.booted hplan
  obtain ⟨x, rfl⟩ := slotIndex_of_accepts haccepted
  rw [accepts_slotIndex] at haccepted
  obtain ⟨image, himage⟩ := Option.isSome_iff_exists.mp haccepted
  obtain ⟨s', hrun, -⟩ := h.toCharted.boots hl hde hdw hsl hslot hwl hj hsame hend hhealthy hplan himage
  exact ⟨x, image, s', himage, hrun⟩

/-- After any sequence of prudent sessions and of boots, each of them cut anywhere, on flash whose commands may
fail, the next boot without faults jumps to the entry point of an accepted image. -/
theorem always_boots (hl : fb.OpsLaw) (hde : fb.DecodeEncode) (hdw : fb.DecodeWorn) (hsl : fb.SectorLaw)
    (hslot : fb.SlotLaw) (hwl : fb.WordLaw) (htl : fb.TransitionLaw) (hpl : fb.SparingLaw)
    (hstates : fb.VALID ≠ fb.PENDING_VERIFY) (hj : Judged judge) (hsame : SameSlots layout M)
    (hend : M.ota.offset.toNat + 0x2000 < 2 ^ 32) {f₀ : Flash} (h₀ : Survives idf fb M judge layout f₀)
    (hrun : Relation.ReflTransGen (Lived idf fb H g w E M judge (Prudent fb)) f₀ s.flash) {map : MemoryMap}
    {other : State → (o : HwOp) → o.Ans} (hhealthy : Healthy judge map other) :
    ∃ x image s', judge s.flash (partition layout x).1 (partition layout x).2 = some image ∧
      (ExceptT.run (boot fb map)).run (romDevice perfect other) s = (.ok image.entry, s') := by
  have hsurvives : Survives idf fb M judge layout s.flash := by
    refine lived_invariant hl hdw hsl hslot (fun _ h => h.toCharted) ?_ ?_ h₀ hrun
    · exact fun _ _ _ h hprudent hcut => h.request hl hsl hj hsame htl hstates hprudent hcut
    · exact fun _ _ h hcut => h.boot hl hsl hj hsame hpl hcut
  exact hsurvives.boots hl hde hdw hsl hslot hwl hpl hj hsame hend hhealthy

/-! ### The sample -/

theorem sameSlots_sample : SameSlots sampleLayout sampleMap := fun x => by
  cases x <;> exact ⟨rfl, rfl⟩

theorem healthy_steady (images : UInt32 → UInt32 → Option Image) :
    Healthy (fun _ => images) esp32c3 (steady images) :=
  ⟨fun _ => rfl, ⟨fun _ _ _ _ => rfl, fun _ _ _ _ => rfl⟩, fun _ _ _ => rfl⟩

theorem table_otaFlash (entries : Entries) :
    layoutOf (Nor.read (Sample.otaFlash entries) 0x8000 0xC00) = .ok sampleLayout := by
  rw [Sample.read_otaFlash]
  exact layoutOf_table

theorem entriesAt_oneEntry : entriesAt Sample.fibewi (Sample.otaFlash oneEntry) sampleMap.ota.offset = oneEntry :=
  entriesAt_otaFlash (by decide) (by decide)

theorem entryOf_oneEntry {sector : UInt8} {e : Sample.Entry} (he : Sample.fibewi.entryOf oneEntry sector = some e) :
    e = ⟨1, Sample.VALID⟩ := by
  rcases entryOf_cases Sample.fibewi oneEntry sector with hs | hs
  · rw [hs, show Sample.fibewi.decode oneEntry.1 = some ⟨1, Sample.VALID⟩ by decide] at he
    exact (Option.some.inj he).symm
  · rw [hs, show Sample.fibewi.decode oneEntry.2 = none by decide] at he
    cases he

theorem confirmed_oneEntry : imageOutcome Sample.fibewi
    (entriesAt Sample.fibewi (Sample.otaFlash oneEntry) sampleMap.ota.offset) = .confirmed := by
  rw [entriesAt_oneEntry]
  decide

/-! ### A slot without an image -/

/-- Only slot 0 holds an image. -/
def firstOnly (offset _size : UInt32) : Option Image :=
  if offset = 0x20000 then some ⟨0x40380000, []⟩ else none

theorem judged_firstOnly : Judged fun _ => firstOnly where
  here _ := rfl
  fits {f offset size image} h := by
    unfold firstOnly at h
    split at h
    · cases h
      exact fun _ hmem => absurd hmem List.not_mem_nil
    · cases h

theorem survives_oneEntry : Survives firstMatch Sample.fibewi sampleMap (fun _ => firstOnly) sampleLayout
    (Sample.otaFlash oneEntry) where
  sound := sound_oneEntry
  table := table_otaFlash oneEntry
  alive := by
    rw [entriesAt_oneEntry]
    have hfirst : Sample.fibewi.entryOf oneEntry 0 = some ⟨1, Sample.VALID⟩ := by decide
    refine .fallback ⟨hfirst, rfl, by decide, fun sector e he _ => ?_⟩
    cases entryOf_oneEntry he
    exact .inl (by decide)

theorem reach_call (c : Request E M) (hearly : early E M c = none) {r : c.Result × State}
    (hr : (body idf fb H g w E M c).run (norDevice b) s = r) :
    Service.Reach (service idf fb H g w E M) (Service.ofDevice (norDevice b)) s
      ⟨r.2, none, fun _ : Nat => .idle, r.2, [] ++ [⟨c, r.1, s, r.2⟩]⟩ := by
  have hstart : Service.Reach (ι := Nat) (service idf fb H g w E M) (Service.ofDevice (norDevice b)) s
    ⟨s, none, fun _ => .idle, s, []⟩ := .refl
  have hreach := hstart.call 0 c hearly fun _ _ => rfl
  rwa [show ((service idf fb H g w E M).body c).run (norDevice b) s = r from hr] at hreach

/-- A session of one call. -/
theorem lived_call {P : Flash → Request E M → Prop} (hb : b.Honest) (c : Request E M) (hearly : early E M c = none)
    (hP : P s.flash c) {r : c.Result × State} (hr : (body idf fb H g w E M c).run (norDevice b) s = r) :
    Lived idf fb H g w E M judge P s.flash r.2.flash := by
  refine .tasks hb (reach_call c hearly hr) (fun ev hmem _ => ?_) (fun _ _ _ h => by cases h) (.free rfl)
  rw [List.nil_append] at hmem
  rw [List.mem_singleton.mp hmem]
  exact hP

theorem lived_activate {target : AppSlot} {r : Except Otadata.Error Unit × State} (hb : b.Honest)
    (hconfirmed : imageOutcome fb (entriesAt fb s.flash M.ota.offset) = .confirmed)
    (hr : (ExceptT.run (Otadata.activate idf fb target)).run (norDevice b) s = r) :
    Lived idf fb H g w E M judge (Prudent fb) s.flash r.2.flash :=
  lived_call hb (.activate target) rfl hconfirmed hr

def sampleSwitch : Except Otadata.Error Unit × State :=
  (ExceptT.run (Otadata.activate firstMatch Sample.fibewi .ota1)).run (norDevice perfect)
    ⟨Sample.otaFlash oneEntry, [], 0⟩

/-- Slot 1 was activated although it holds no image. -/
theorem always_boots_stray : ∃ x image s',
    firstOnly (partition sampleLayout x).1 (partition sampleLayout x).2 = some image ∧
      (ExceptT.run (boot Sample.fibewi esp32c3)).run (romDevice perfect (steady firstOnly)) sampleSwitch.2 =
        (.ok image.entry, s') := by
  have hlived : Lived firstMatch Sample.fibewi Preloaded.messageHasher smallSectors 32 listEngine sampleMap
      (fun _ => firstOnly) (Prudent Sample.fibewi) (Sample.otaFlash oneEntry) sampleSwitch.2.flash :=
    lived_activate (s := ⟨Sample.otaFlash oneEntry, [], 0⟩) (r := sampleSwitch) perfect_honest confirmed_oneEntry rfl
  exact always_boots Sample.opsLaw Sample.decodeEncode (fun _ _ _ _ => Sample.decodeWorn) Sample.sectorLaw
    Sample.slotLaw Sample.wordLaw Sample.transitionLaw Sample.sparingLaw (by decide) judged_firstOnly sameSlots_sample
    (by decide) survives_oneEntry (.single hlived) (healthy_steady firstOnly)

end Espbewi.System
