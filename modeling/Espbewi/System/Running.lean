import Espbewi.System.Activation
import Espbewi.Bootloader.Plan
import Mathlib.Logic.Relation

/-! The slot that runs, and the slot that an upload may be written to. -/

namespace Espbewi.System

open Lib Nor Boot Hw Otadata Bootloader

variable {idf : EspIdf} {fb : Fibewi} {entries entries' : Entries} {r : UInt8}

/-! ### What `write_target` takes for the running slot -/

/-- Some VALID or PENDING entry has this sequence number. -/
def HasSeq (fb : Fibewi) (entries : Entries) (seq : UInt32) : Prop :=
  ∃ sector e, fb.entryOf entries sector = some e ∧ fb.Running e ∧ fb.seq e = seq

theorem isRunning_iff {e : fb.Entry} : isRunning fb e = true ↔ fb.Running e := by
  simp [isRunning, Fibewi.Running]

theorem mem_runningSeqs {seq : UInt32} : seq ∈ runningSeqs fb entries ↔ HasSeq fb entries seq := by
  simp only [runningSeqs, Entries.toList, List.mem_filterMap, List.mem_cons, List.not_mem_nil, or_false]
  constructor
  · rintro ⟨raw, hraw, h⟩
    split at h
    · next e he =>
      obtain ⟨hrun, hseq⟩ := Option.ite_none_right_eq_some.mp h
      rcases hraw with rfl | rfl
      · exact ⟨0, e, he, isRunning_iff.mp hrun, Option.some.inj hseq⟩
      · exact ⟨1, e, he, isRunning_iff.mp hrun, Option.some.inj hseq⟩
    · cases h
  · rintro ⟨sector, e, he, hrun, rfl⟩
    rw [Fibewi.entryOf] at he
    split at he
    · exact ⟨_, .inl rfl, by simp only [he]; exact if_pos (isRunning_iff.mpr hrun)⟩
    · exact ⟨_, .inr rfl, by simp only [he]; exact if_pos (isRunning_iff.mpr hrun)⟩

/-- The newest VALID or PENDING entry, if there is one, is an entry of slot `r`. -/
def Governs (fb : Fibewi) (entries : Entries) (r : UInt8) : Prop :=
  ∀ seq, HasSeq fb entries seq → (∀ seq', HasSeq fb entries seq' → seq' ≤ seq) → fb.slotOf seq 2 = r

theorem Governs.targetSlot_ne (h : Governs fb entries r) {slot : AppSlot}
    (ht : targetSlot fb entries = some slot) : slotIndex slot ≠ r := by
  unfold targetSlot at ht
  split at ht
  · next seq hmax =>
    rw [List.max?_eq_some_iff] at hmax
    have hr := h seq (mem_runningSeqs.mp hmax.1) fun seq' h' => hmax.2 _ (mem_runningSeqs.mpr h')
    rw [show Otadata.SLOT_COUNT = 2 from rfl, hr] at ht
    unfold otherSlot at ht
    split at ht <;> cases ht <;> decide
  · cases ht

theorem Governs.mono (h : Governs fb entries r)
    (hsub : ∀ seq, HasSeq fb entries' seq → HasSeq fb entries seq)
    (hdom : ∀ seq, HasSeq fb entries seq → ∃ seq', HasSeq fb entries' seq' ∧ seq ≤ seq') :
    Governs fb entries' r := by
  intro seq hseq hmax
  refine h seq (hsub seq hseq) fun seq' h' => ?_
  obtain ⟨seq'', hseq'', hle⟩ := hdom seq' h'
  exact UInt32.le_trans hle (hmax seq'' hseq'')

/-! ### Transitions -/

/-- Once the entry that `write` replaces is gone, what is left to be taken for the running
slot is `r`. -/
def Sole (fb : Fibewi) (r : UInt8) (entries : Entries) (write : Write fb.Entry) : Prop :=
  ∀ e, fb.entryOf entries (1 - write.sector) = some e → fb.Running e → fb.slotOf (fb.seq e) 2 = r

/-- The call is not a reject that leaves an entry of the other slot as the newest. -/
def Spares (fb : Fibewi) (r : UInt8) (entries : Entries) (call : Call) : Prop :=
  call = .reject → ∀ write, fb.reject entries = some write → Sole fb r entries write

theorem other_sector {sector : UInt8} (h : sector < 2) {sector' : UInt8}
    (hne : ¬(sector' = 0 ↔ sector = 0)) : sector' = 0 ↔ 1 - sector = 0 := by
  rcases sector_cases h with rfl | rfl
  · simpa using hne
  · simpa using hne

/-- Behind a write that stops its entry, the running entries are those of the other sector. -/
theorem hasSeq_stopped (hde : fb.DecodeEncode) {write : Write fb.Entry}
    (hstopped : ¬ fb.Running write.entry) {seq : UInt32} (h : HasSeq fb (fb.written entries write) seq) :
    ∃ sector e, ¬ (sector = 0 ↔ write.sector = 0) ∧ fb.entryOf entries sector = some e ∧
      fb.Running e ∧ fb.seq e = seq := by
  obtain ⟨sector, e, he, hrun, rfl⟩ := h
  obtain ⟨-, rfl⟩ | ⟨hne, he⟩ := Fibewi.written_cases hde he
  · exact absurd hrun hstopped
  · exact ⟨sector, e, hne, he, hrun, rfl⟩

theorem Governs.call (hde : fb.DecodeEncode) (hsl : fb.SectorLaw) (htl : fb.TransitionLaw)
    (h : Governs fb entries r) {call : Call} {write : Write fb.Entry}
    (hw : call.decision fb entries = some write) (hspares : Spares fb r entries call) :
    Governs fb (fb.written entries write) r := by
  have hsector := Call.sector_lt hsl hw
  cases call with
  | confirm =>
    obtain ⟨e, he, hpending, hseq, hvalid⟩ := htl.confirm hw
    refine h.mono ?_ ?_
    · rintro seq ⟨sector, e', he', hrun, rfl⟩
      obtain ⟨-, rfl⟩ | ⟨-, he'⟩ := Fibewi.written_cases hde he'
      · exact ⟨write.sector, e, he, .inr hpending, hseq.symm⟩
      · exact ⟨sector, e', he', hrun, rfl⟩
    · rintro seq ⟨sector, e', he', hrun, rfl⟩
      by_cases heq : sector = 0 ↔ write.sector = 0
      · rw [Fibewi.entryOf_congr heq, he] at he'
        cases he'
        exact ⟨_, ⟨write.sector, write.entry, Fibewi.written_same hde, .inl hvalid, rfl⟩,
          hseq ▸ UInt32.le_refl _⟩
      · exact ⟨_, ⟨sector, e', (Fibewi.written_other hde heq).trans he', hrun, rfl⟩, UInt32.le_refl _⟩
  | reject =>
    obtain ⟨-, -, -, hstopped⟩ := htl.reject hw
    rintro seq hseq -
    obtain ⟨sector, e, hne, he, hrun, rfl⟩ := hasSeq_stopped hde hstopped hseq
    rw [Fibewi.entryOf_congr (other_sector hsector hne)] at he
    exact hspares rfl write hw e he hrun
  | activate target =>
    obtain ⟨hstopped, hnewest⟩ := htl.activate hw
    refine h.mono ?_ ?_
    · intro seq hseq
      obtain ⟨sector, e, -, he, hrun, rfl⟩ := hasSeq_stopped hde hstopped hseq
      exact ⟨sector, e, he, hrun, rfl⟩
    · rintro seq ⟨sector, e, he, hrun, rfl⟩
      by_cases heq : sector = 0 ↔ write.sector = 0
      · rw [Fibewi.entryOf_congr heq] at he
        obtain ⟨e', he', hrun', hle⟩ := hnewest e he hrun
        refine ⟨_, ⟨1 - write.sector, e', (Fibewi.written_other hde ?_).trans he', hrun', rfl⟩, hle⟩
        rcases sector_cases hsector with h | h <;> rw [h] <;> decide
      · exact ⟨_, ⟨sector, e, (Fibewi.written_other hde heq).trans he, hrun, rfl⟩, UInt32.le_refl _⟩

/-! ### Booting -/

/-- Every VALID or PENDING entry is matched by a bootable one at least as new whose
image is accepted. -/
def Leads (fb : Fibewi) (bootable : fb.Entry → Prop) (ok : UInt8 → Bool) (entries : Entries) : Prop :=
  ∀ sector e, fb.entryOf entries sector = some e → fb.Running e → ∃ sector' e',
    fb.entryOf entries sector' = some e' ∧ bootable e' ∧ ok (fb.slotOf (fb.seq e') 2) = true ∧
      fb.seq e ≤ fb.seq e'

theorem governs_planned {bootable : fb.Entry → Prop} (hpl : fb.PlanLaw bootable) {ok : UInt8 → Bool}
    (hleads : Leads fb bootable ok entries) {slot : UInt8} {seq : UInt32}
    (hboot : (fb.planned entries ok).boot = .slot slot seq) :
    Governs fb (fb.writtenAll entries (fb.planned entries ok).writes) slot := by
  obtain ⟨hslot, sector, e, -, he, hrun, rfl⟩ := hpl.booted hboot
  rintro seq ⟨sector', e', he', hrun', rfl⟩ hmax
  have hle : fb.seq e ≤ fb.seq e' := hmax _ ⟨sector, e, he, hrun, rfl⟩
  by_cases hlt : fb.seq e < fb.seq e'
  · obtain ⟨sector'', e'', he'', hb, hok, hle'⟩ := hleads _ _ (hpl.kept hboot he' hrun' hlt) hrun'
    have := hpl.highest hboot he'' hb hok
    exact absurd (UInt32.le_trans hle' this) (UInt32.not_le.mpr hlt)
  · rw [UInt32.le_antisymm (UInt32.not_lt.mp hlt) hle]
    exact hslot

section Boot

variable {b : Behaviour} {other : State → (o : HwOp) → o.Ans} {s : State} {layout : Layout}
  {p : PartitionEntry} {map : Platform.MemoryMap}

theorem wp_executeAll_ok (hb : b.Honest) (hl : fb.OpsLaw) (hp : Placed p)
    (hlayout : layout.otadata.1 = p.offset) {writes : List (Write fb.Entry)}
    (hsectors : ∀ write ∈ writes, write.sector < 2) :
    (ExceptT.run (executeAll fb layout writes)).wp (romDevice b other) (fun _ _ => True)
      (fun r s' => r = .ok () →
        entriesAt fb s'.flash p.offset = fb.writtenAll (entriesAt fb s.flash p.offset) writes ∧
          ∀ a, 0x8000 ≤ a → a < 0x8C00 → s.flash a = s'.flash a) s := by
  induction writes generalizing s with
  | nil => exact fun _ => ⟨rfl, fun _ _ _ => rfl⟩
  | cons write rest ih =>
    have hsector := hsectors write (List.mem_cons_self ..)
    unfold executeAll
    rw [Prog.wp_try]
    refine Prog.wp_guard_mono (fun _ _ _ => trivial) (Prog.wp_mono (fun r s' h => ?_)
      (wp_boot_update hb hl hp hlayout hsector elsewhere_throughout))
    cases r with
    | error e => exact fun h => by cases h
    | ok _ =>
      refine Prog.wp_mono (fun r s'' hrest hr => ?_)
        (ih fun write hw => hsectors write (List.mem_cons_of_mem _ hw))
      obtain ⟨hentries, htable⟩ := hrest hr
      have hclear := hp.clear hsector
      refine ⟨?_, fun a hlo hhi => (h.1 a (by omega)).symm.trans (htable a hlo hhi)⟩
      rw [hentries, entriesAt_written hl hp hsector h.1 (h.2 rfl)]
      rfl

theorem plannedSlot_ok {boot : Decision} {slot : UInt8} (h : plannedSlot boot = .ok slot) :
    ∃ seq, boot = .slot slot seq := by
  unfold plannedSlot at h
  split at h
  · cases h
    exact ⟨_, rfl⟩
  · cases h
  · cases h

/-- What a successful run of `boot` has done before it loads the slot: it has carried out the plan,
which boots this slot. -/
structure Prepared (fb : Fibewi) (base : UInt32) (plan : Plan fb.Entry) (slot : UInt8) (f f' : Flash) :
    Prop where
  slot : ∃ seq, plan.boot = .slot slot seq
  entries : entriesAt fb f' base = fb.writtenAll (entriesAt fb f base) plan.writes
  table : ∀ a, 0x8000 ≤ a → a < 0x8C00 → f a = f' a

theorem prepare_ok (hb : b.Honest) (hl : fb.OpsLaw) (hsl : fb.SectorLaw) (hp : Placed p)
    (hshared : ∀ layout, layoutOf (Nor.read s.flash 0x8000 0xC00) = .ok layout →
      layout.otadata.1 = p.offset)
    {image : UInt32 → UInt32 → Bool} (hj : Judges other map image) {slot : UInt8} {s' : State}
    (h : (ExceptT.run (prepare fb map)).run (romDevice b other) s = (.ok (layout, slot), s')) :
    Prepared fb p.offset (fb.planned (entriesAt fb s.flash p.offset) (verdict image layout)) slot
      s.flash s'.flash := by
  have hsmall := hl.small
  have hwp : (ExceptT.run (prepare fb map)).wp (romDevice b other) (fun _ _ => True)
      (fun r s' => ∀ layout slot, r = .ok (layout, slot) → Prepared fb p.offset
        (fb.planned (entriesAt fb s.flash p.offset) (verdict image layout)) slot s.flash s'.flash) s := by
    unfold prepare
    rw [Prog.wp_try]
    refine wp_plan (fun layout hlayout sector hs => ?_) (fun _ _ _ => trivial)
      (fun k k' layout plan hlayout hplan => ?_) (fun _ _ _ _ _ h => by cases h)
    · rw [hshared layout hlayout]
      have := hp.block hs
      omega
    · rw [hshared layout hlayout] at hplan
      have hsectors := hsl.planBoot (runs_of_runPlan (hplan ▸ Prog.runs_events ..)).choose_spec
      have hplanned := runPlan_ok hj hplan
      change plan = fb.planned (entriesAt fb s.flash p.offset) (verdict image layout) at hplanned
      simp only
      rw [Prog.wp_try, Prog.wp_adapt, Prog.wp_ofExcept]
      cases hslot : plannedSlot plan.boot with
      | error e => exact fun _ _ h => by cases h
      | ok slot =>
        simp only [Except.mapError]
        rw [Prog.wp_try]
        refine Prog.wp_mono (fun r s' h => ?_) (wp_executeAll_ok (s := { s with reads := k }) hb hl hp
          (hshared layout hlayout) hsectors)
        cases r with
        | error e => exact fun _ _ h => by cases h
        | ok _ =>
          rintro layout' slot' ⟨⟩
          obtain ⟨hentries, htable⟩ := h rfl
          rw [← hplanned]
          exact ⟨plannedSlot_ok hslot, hentries, htable⟩
  have := Prog.run_of_wp hwp
  rw [h] at this
  exact this layout slot rfl

/-- A plan without writes is made and leaves the flash alone. -/
theorem prepare_run (hb : b.Readable) (hl : fb.OpsLaw) (hp : Placed p)
    (hlayout : layoutOf (Nor.read s.flash 0x8000 0xC00) = .ok layout)
    (hshared : layout.otadata.1 = p.offset) {image : UInt32 → UInt32 → Bool}
    (hj : Judges other map image)
    (hasks : (fb.planBoot (entriesAt fb s.flash p.offset) 2).Only (· < 2)) {slot : UInt8} {seq : UInt32}
    (hplan : fb.planned (entriesAt fb s.flash p.offset) (verdict image layout) = ⟨.slot slot seq, []⟩) :
    ∃ s', (ExceptT.run (prepare fb map)).run (romDevice b other) s = (.ok (layout, slot), s') ∧
      s'.flash = s.flash := by
  have hsmall := hl.small
  have hwp : (ExceptT.run (prepare fb map)).wp (romDevice b other) (fun _ _ => True)
      (fun r s' => r = .ok (layout, slot) ∧ s'.flash = s.flash) s := by
    unfold prepare
    rw [Prog.wp_try]
    refine wp_plan (fun layout' hlayout' sector hs => ?_) (fun _ _ _ => trivial)
      (fun k k' layout' plan hlayout' hrun => ?_) (fun hlost k e => ?_)
    · rw [hlayout] at hlayout'
      cases hlayout'
      rw [hshared]
      have := hp.block hs
      omega
    · rw [hlayout] at hlayout'
      cases hlayout'
      rw [hshared] at hrun
      have hplanned := runPlan_ok hj hrun
      change plan = fb.planned (entriesAt fb s.flash p.offset) (verdict image layout) at hplanned
      rw [hplan] at hplanned
      rw [hplanned]
      exact ⟨rfl, rfl⟩
    · rcases hlost with hr | hnone
      · exact absurd hb hr
      · obtain ⟨k', e', herr⟩ := hnone layout hlayout
        rw [hshared] at herr
        exact absurd (herr.symm.trans (congrArg Prod.fst (runPlan_run hj hasks))) fun h => by cases h
  have := Prog.run_of_wp hwp
  exact ⟨_, Prod.ext this.1 rfl, this.2⟩

/-- An image without segments is only jumped to. -/
theorem load_run {image : UInt32 → UInt32 → Option Image} {slot : UInt8} {part : UInt32 × UInt32}
    {entry : UInt32} (happ : layout.app slot = pure part)
    (himage : image part.1 part.2 = some ⟨entry, []⟩) :
    (ExceptT.run (load fb map layout slot)).run (romDevice b (steady image)) s = (.ok entry, s) := by
  have hvalidate : (ExceptT.run (validate layout map slot)).run (romDevice b (steady image)) s =
      (.ok (some ⟨entry, []⟩), s) := by
    unfold validate
    rw [happ, pure_bind, ← himage]
    rfl
  unfold load
  rw [Prog.run_try, hvalidate]
  rfl

end Boot

/-- `boot` prepares slot `r` and jumps to its image. -/
def Boots (fb : Fibewi) (map : Platform.MemoryMap) (d : Device HwOp HwOp.Ans State) (s s₁ : State)
    (layout : Layout) (r : UInt8) : Prop :=
  ∃ s' entry, (ExceptT.run (prepare fb map)).run d s = (.ok (layout, r), s') ∧
    (ExceptT.run (load fb map layout r)).run d s' = (.ok entry, s₁)

/-- Whenever `boot` jumps, it boots some slot. -/
theorem boot_ok {map : Platform.MemoryMap} {d : Device HwOp HwOp.Ans State} {s s₁ : State}
    {entry : UInt32} (h : (ExceptT.run (boot fb map)).run d s = (.ok entry, s₁)) :
    ∃ layout r, Boots fb map d s s₁ layout r := by
  unfold boot at h
  rw [Prog.run_try] at h
  rcases hprep : (ExceptT.run (prepare fb map)).run d s with ⟨r, s'⟩
  rw [hprep] at h
  cases r with
  | error e => cases h
  | ok r => exact ⟨r.1, r.2, s', entry, hprep, h⟩

/-! ### The session -/

/-- One call of the application that spares `r`: any call on flash without faults, and a
call that succeeds on any honest flash. -/
inductive Called (idf : EspIdf) (fb : Fibewi) (base : UInt32) (r : UInt8) : Flash → Flash → Prop
  | mk {b s} (call : Call) : b.Honest →
      (b = perfect ∨ ((ExceptT.run (call.exec idf fb)).run (norDevice b) s).1 = .ok ()) →
      Spares fb r (entriesAt fb s.flash base) call →
      Called idf fb base r s.flash ((ExceptT.run (call.exec idf fb)).run (norDevice b) s).2.flash

section Session

variable {p : PartitionEntry} {f g : Flash}

theorem Called.keeps (hl : fb.OpsLaw) (hde : fb.DecodeEncode) (hsl : fb.SectorLaw)
    (htl : fb.TransitionLaw) (hp : Placed p) (h : Called idf fb p.offset r f g)
    (hlookup : idf.lookupIn f .dataOta = some p) (hgov : Governs fb (entriesAt fb f p.offset) r) :
    idf.lookupIn g .dataOta = some p ∧ Governs fb (entriesAt fb g p.offset) r := by
  obtain ⟨call, hb, hdone, hspares⟩ := h
  rename_i b s
  have hcase : ((ExceptT.run (call.exec idf fb)).run (norDevice b) s).1 = .ok () ∨
      ((ExceptT.run (call.exec idf fb)).run (norDevice b) s).2.flash = s.flash := by
    rcases hdone with rfl | hok
    · exact (Prog.run_of_wp (wp_call_perfect hl hde hsl hp hlookup call)).imp_right And.left
    · exact .inl hok
  rcases hcase with hok | hsame
  · obtain ⟨write, hw, hsector, helse, hentries⟩ := call_ok hb hl hsl hp hlookup (Prod.ext hok rfl)
    have hclear := hp.clear hsector
    refine ⟨?_, hentries ▸ hgov.call hde hsl htl hw hspares⟩
    rw [← idf.lookupIn_congr fun a hlo hhi => (helse a (by omega)).symm]
    exact hlookup
  · rw [hsame]
    exact ⟨hlookup, hgov⟩

/-- An upload after a boot of slot `r` targets the other slot, in every session that
follows a boot without an outranked refusal and whose calls spare `r`. -/
theorem running_slot_spared (hl : fb.OpsLaw) (hde : fb.DecodeEncode) (hsl : fb.SectorLaw)
    (htl : fb.TransitionLaw) {bootable : fb.Entry → Prop} (hpl : fb.PlanLaw bootable)
    (hp : Placed p) {b : Behaviour} (hb : b.Honest) {other : State → (o : HwOp) → o.Ans}
    {map : Platform.MemoryMap} {image : UInt32 → UInt32 → Bool} (hj : Judges other map image)
    {s s₁ : State} {layout : Layout} (hlookup : idf.lookupIn s.flash .dataOta = some p)
    (hshared : ∀ layout, layoutOf (Nor.read s.flash 0x8000 0xC00) = .ok layout →
      layout.otadata.1 = p.offset)
    (hboots : Boots fb map (romDevice b other) s s₁ layout r)
    (hleads : Leads fb bootable (verdict image layout) (entriesAt fb s.flash p.offset))
    (hrun : Relation.ReflTransGen (Called idf fb p.offset r) s₁.flash f)
    {bApp : Behaviour} {t t' : State} (ht : t.flash = f) {target : AppPartition}
    (htarget : (ExceptT.run (writeTarget idf fb)).run (norDevice bApp) t = (.ok target, t')) :
    slotIndex target.slot ≠ r := by
  obtain ⟨s', entry, hprepare, hload⟩ := hboots
  obtain ⟨⟨seq, hslot⟩, hentries, htable⟩ := prepare_ok hb hl hsl hp hshared hj hprepare
  have hflash : s₁.flash = s'.flash := by
    have := Prog.run_of_wp (d := romDevice b other) (s := s') (wp_quiet (b := b)
      (Q := fun _ s₁ => s₁.flash = s'.flash) (only_load fb map layout r) (fun _ _ _ => trivial)
      fun _ => rfl)
    rw [hload] at this
    exact this
  have hinv : idf.lookupIn f .dataOta = some p ∧ Governs fb (entriesAt fb f p.offset) r := by
    clear ht
    induction hrun with
    | refl =>
      rw [hflash, ← idf.lookupIn_congr htable, hentries]
      exact ⟨hlookup, governs_planned hpl hleads hslot⟩
    | tail _ hstep ih => exact hstep.keeps hl hde hsl htl hp ih.1 ih.2
  obtain ⟨-, ota, -, hota, htargeted, -⟩ := writeTarget_ok htarget
  rw [ht, hinv.1] at hota
  cases hota
  rw [ht] at htargeted
  exact hinv.2.targetSlot_ne htargeted

end Session

/-! ### Runs on the sample flash -/

section Sample

open Sample (fibewi otaFlash encode VALID PENDING_VERIFY)

/-- Both partitions of the sample table hold an image, except those refused. -/
def imageAt (refused : List UInt32) (offset _size : UInt32) : Option Image :=
  if offset ∈ refused then none else some ⟨0x42000020, []⟩

def sampleLayout : Layout := ⟨(0xD000, 0x2000), (0x20000, 0x100000), (0x120000, 0x100000)⟩

def sampleRom (refused : List UInt32) : Device HwOp HwOp.Ans State :=
  romDevice perfect (steady (imageAt refused))

/-- The boot partition lookups and the entries of a flash. -/
structure Holding (f : Flash) (entries : Entries) : Prop where
  lookup : firstMatch.lookupIn f = firstMatch.lookupIn (Sample.tableFlash Sample.table)
  entries : entriesAt fibewi f 0xD000 = entries

theorem sample_placed : Placed ⟨0xD000, 0x2000, ""⟩ := ⟨by decide, by decide, by decide⟩

theorem Holding.find {f : Flash} {entries : Entries} (h : Holding f entries) :
    firstMatch.lookupIn f .dataOta = some ⟨0xD000, 0x2000, ""⟩ :=
  (congrFun h.lookup _).trans (Sample.lookupIn_table .dataOta)

theorem sample_boots (entries : Entries) (refused : List UInt32) (slot : UInt8) (seq : UInt32)
    (map : Platform.MemoryMap) (h₀ : entries.1.length = 20) (h₁ : entries.2.length = 20) (hlt : slot < 2)
    (hplan : fibewi.planned entries (verdict (fun o n => (imageAt refused o n).isSome) sampleLayout) =
      ⟨.slot slot seq, []⟩)
    (hslot : verdict (fun o n => (imageAt refused o n).isSome) sampleLayout slot = true) :
    ∃ s₁ : State, Holding s₁.flash entries ∧
      Boots fibewi map (sampleRom refused) ⟨otaFlash entries, [], 0⟩ s₁ sampleLayout slot := by
  obtain ⟨s', hprepare, hflash⟩ := prepare_run (s := ⟨otaFlash entries, [], 0⟩) perfect_readable
    Sample.opsLaw sample_placed ((congrArg layoutOf (Sample.read_otaFlash entries)).trans layoutOf_table)
    rfl (judges_steady (imageAt refused) map) (Sample.only_planBoot _)
    (by rw [entriesAt_otaFlash h₀ h₁]; exact hplan)
  obtain ⟨part, happ, hverdict⟩ := app_eq (fun o n => (imageAt refused o n).isSome)
    sampleLayout hlt
  have himage : imageAt refused part.1 part.2 = some ⟨0x42000020, []⟩ := by
    rw [hverdict] at hslot
    unfold imageAt at hslot ⊢
    split
    · next href => simp [href] at hslot
    · rfl
  refine ⟨s', ⟨?_, ?_⟩, s', _, hprepare, load_run happ himage⟩
  · rw [hflash, Sample.lookupIn_otaFlash]
  · rw [hflash, entriesAt_otaFlash h₀ h₁]

theorem sample_call {s : State} {entries : Entries} (h : Holding s.flash entries) (call : Call)
    (write : Write Sample.Entry) (hw : call.decision fibewi entries = some write) :
    ∃ s', (ExceptT.run (call.exec firstMatch fibewi)).run (norDevice perfect) s = (.ok (), s') ∧
      Holding s'.flash (fibewi.written entries write) := by
  have hin : (sectorAt 0xD000 write.sector).toNat + 0x1000 < 2 ^ 32 := by
    rcases sector_cases (Call.sector_lt Sample.sectorLaw hw) with hs | hs <;> rw [hs] <;> decide
  have hw' : call.decision fibewi (entriesAt fibewi s.flash 0xD000) = some write := by
    rw [h.entries]
    exact hw
  obtain ⟨s', hrun, hlookup, hentries⟩ := call_run Sample.opsLaw Sample.decodeEncode
    Sample.sectorLaw sample_placed h.find hw' hin
  exact ⟨s', hrun, hlookup.trans h.lookup, hentries.trans (congrArg (fibewi.written · write) h.entries)⟩

theorem sample_target {t : State} {entries : Entries} (h : Holding t.flash entries) (slot : AppSlot)
    (hslot : targetSlot fibewi entries = some slot) :
    ∃ target t', (ExceptT.run (writeTarget firstMatch fibewi)).run (norDevice perfect) t =
      (.ok target, t') ∧ target.slot = slot := by
  obtain ⟨t', hrun, -⟩ := writeTarget_run (s := t) perfect_readable h.find
    ((congrArg (targetSlot fibewi) h.entries).trans hslot)
    ((congrFun h.lookup _).trans (Sample.lookupIn_table slot.subtype))
  exact ⟨_, t', hrun, rfl⟩

def sampleEntries (e₀ e₁ : Sample.Entry) : Entries := (encode e₀, encode e₁)

/-- Slot 0 runs, and `write_target` hands it out: after a fallback from a VALID entry that
is newer. Slot 1 runs, and is handed out after a reject that leaves a VALID entry of slot 0. -/
theorem running_slot_targeted :
    (∃ s₁ target t', Boots fibewi Platform.esp32c3 (sampleRom [0x120000])
        ⟨otaFlash (sampleEntries ⟨1, VALID⟩ ⟨2, VALID⟩), [], 0⟩ s₁ sampleLayout 0 ∧
      (ExceptT.run (writeTarget firstMatch fibewi)).run (norDevice perfect) s₁ = (.ok target, t') ∧
      slotIndex target.slot = 0) ∧
    (∃ s₁ s₂ target t', Boots fibewi Platform.esp32c3 (sampleRom [])
        ⟨otaFlash (sampleEntries ⟨1, VALID⟩ ⟨2, PENDING_VERIFY⟩), [], 0⟩ s₁ sampleLayout 1 ∧
      (ExceptT.run (Otadata.reject firstMatch fibewi)).run (norDevice perfect) s₁ = (.ok (), s₂) ∧
      (ExceptT.run (writeTarget firstMatch fibewi)).run (norDevice perfect) s₂ = (.ok target, t') ∧
      slotIndex target.slot = 1) := by
  constructor
  · obtain ⟨s₁, hheld, hboots⟩ := sample_boots (sampleEntries ⟨1, VALID⟩ ⟨2, VALID⟩) [0x120000] 0 1
      Platform.esp32c3 (by decide) (by decide) (by decide) (by decide) (by decide)
    obtain ⟨target, t', hrun, hslot⟩ := sample_target hheld .ota0 (by decide)
    exact ⟨s₁, target, t', hboots, hrun, by rw [hslot]; rfl⟩
  · obtain ⟨s₁, hheld, hboots⟩ := sample_boots (sampleEntries ⟨1, VALID⟩ ⟨2, PENDING_VERIFY⟩) [] 1 2
      Platform.esp32c3 (by decide) (by decide) (by decide) (by decide) (by decide)
    obtain ⟨s₂, hreject, hheld⟩ := sample_call hheld .reject ⟨1, 2, Sample.ABORTED⟩
      (by decide)
    obtain ⟨target, t', hrun, hslot⟩ := sample_target hheld .ota1 (by decide)
    exact ⟨s₁, s₂, target, t', hboots, hreject, hrun, by rw [hslot]; rfl⟩

theorem leads_of_accepted {fb : Fibewi} {bootable : fb.Entry → Prop} {ok : UInt8 → Bool}
    {entries : Entries} (hb : ∀ e, fb.Running e → bootable e)
    (h : ∀ sector e, fb.entryOf entries sector = some e → ok (fb.slotOf (fb.seq e) 2) = true) :
    Leads fb bootable ok entries := fun sector e he hrun =>
  ⟨sector, e, he, hb e hrun, h sector e he, UInt32.le_refl _⟩

theorem running_slot_spared_table : ∃ s₁ s₂ target t',
    Boots fibewi Platform.esp32c3 (sampleRom [])
      ⟨otaFlash (sampleEntries ⟨1, VALID⟩ ⟨2, VALID⟩), [], 0⟩ s₁ sampleLayout 1 ∧
    (ExceptT.run (Otadata.activate firstMatch fibewi .ota0)).run (norDevice perfect) s₁ = (.ok (), s₂) ∧
    (ExceptT.run (writeTarget firstMatch fibewi)).run (norDevice perfect) s₂ = (.ok target, t') ∧
    slotIndex target.slot ≠ 1 := by
  obtain ⟨s₁, hheld, hboots⟩ := sample_boots (sampleEntries ⟨1, VALID⟩ ⟨2, VALID⟩) [] 1 2
    Platform.esp32c3 (by decide) (by decide) (by decide) (by decide) (by decide)
  obtain ⟨s₂, hactivate, hheld₂⟩ := sample_call hheld (.activate .ota0) ⟨0, 3, Sample.NEW⟩
    (by decide)
  obtain ⟨target, t', hrun, -⟩ := sample_target hheld₂ .ota0 (by decide)
  have hcalled : Called firstMatch fibewi 0xD000 1 s₁.flash s₂.flash := by
    have hcalled : Called firstMatch fibewi 0xD000 1 s₁.flash
        ((ExceptT.run (Call.exec firstMatch fibewi (.activate .ota0))).run (norDevice perfect) s₁).2.flash :=
      .mk _ perfect_honest (.inl rfl) fun h => by cases h
    rwa [show (ExceptT.run (Call.exec firstMatch fibewi (.activate .ota0))).run (norDevice perfect) s₁ =
      (.ok (), s₂) from hactivate] at hcalled
  have hstart : Holding (otaFlash (sampleEntries ⟨1, VALID⟩ ⟨2, VALID⟩))
      (sampleEntries ⟨1, VALID⟩ ⟨2, VALID⟩) :=
    ⟨Sample.lookupIn_otaFlash _, entriesAt_otaFlash (by decide) (by decide)⟩
  refine ⟨s₁, s₂, target, t', hboots, hactivate, hrun, ?_⟩
  refine running_slot_spared (s := ⟨otaFlash (sampleEntries ⟨1, VALID⟩ ⟨2, VALID⟩), [], 0⟩)
    (p := ⟨0xD000, 0x2000, ""⟩) Sample.opsLaw Sample.decodeEncode Sample.sectorLaw Sample.transitionLaw
    Sample.planLaw sample_placed
    perfect_honest (judges_steady (imageAt []) _) hstart.find (fun layout h => ?_) hboots
    (leads_of_accepted (fun e => Sample.bootable_of_running) ?_)
    (.single hcalled) rfl hrun
  · rw [Sample.read_otaFlash, layoutOf_table] at h
    cases h
    rfl
  · rw [hstart.entries]
    intro sector e he
    change verdict _ _ (Sample.slotOf e.seq 2) = true
    rcases sector_cases (Sample.slotOf_lt e.seq) with h | h <;> rw [h] <;> decide

end Sample

end Espbewi.System
