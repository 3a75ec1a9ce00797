import Espbewi.System.PowerCut
import Espbewi.System.Calls
import Espbewi.System.LayoutAgreement
import Espbewi.Bootloader.Quiet
import Mathlib.Logic.Relation

/-! Runs of updates, cut anywhere: by the application and by the bootloader. -/

namespace Espbewi.System

open Lib Nor Boot Hw Otadata Bootloader

variable {idf : EspIdf} {fb : Fibewi} {b : Behaviour} {f g : Flash} {p : PartitionEntry}
  {write : Write fb.Entry}

/-- A cut during one update: its own sector is safe, the other one is as it was. -/
structure UpdateCut (fb : Fibewi) (base : UInt32) (write : Write fb.Entry) (f g : Flash) : Prop where
  safe : SafeCut fb (sectorAt base write.sector).toNat write.entry f g
  other : ∀ sector, sector < 2 → sector ≠ write.sector → ∀ i < 0x1000,
    g ((sectorAt base sector).toNat + i) = f ((sectorAt base sector).toNat + i)

theorem SafeCut.update (hp : Placed p) (hsector : write.sector < 2)
    (h : SafeCut fb (sectorAt p.offset write.sector).toNat write.entry f g) :
    UpdateCut fb p.offset write f g := by
  refine ⟨h, fun sector hs hne i hi => h.outside _ fun hin => ?_⟩
  have := hp.disjoint hs hsector hne
  omega

/-- An entry of the other sector stays what it was. -/
theorem UpdateCut.keeps (hl : fb.OpsLaw) (h : UpdateCut fb p.offset write f g) {sector : UInt8}
    (hs : sector < 2) (hne : sector ≠ write.sector) :
    rawAt fb g p.offset sector = rawAt fb f p.offset sector := by
  have hsmall := hl.small
  exact read_eq_iff.mpr fun i hi => h.other sector hs hne i (by omega)

/-- A cut while the writes of a plan are carried out in order. -/
inductive WritesCut (fb : Fibewi) (base : UInt32) : List (Write fb.Entry) → Flash → Flash → Prop
  | between (writes f) : WritesCut fb base writes f f
  | inside {write rest f g} : UpdateCut fb base write f g → WritesCut fb base (write :: rest) f g
  | next {write rest f f' g} : UpdateCut fb base write f f' →
      rawAt fb f' base write.sector = fb.encode write.entry → WritesCut fb base rest f' g →
      WritesCut fb base (write :: rest) f g

/-! ### The invariant of the flash -/

/-- Both programs find `otadata` at the same place, and each sector is erased or holds
an entry, perhaps with bits set since. -/
structure Sound (idf : EspIdf) (fb : Fibewi) (p : PartitionEntry) (f : Flash) : Prop where
  app : idf.lookupIn f .dataOta = some p
  boot : ∀ layout, layoutOf (Nor.read f 0x8000 0xC00) = .ok layout → layout.otadata.1 = p.offset
  legible : ∀ sector, sector < 2 →
    rawAt fb f p.offset sector = fb.BLANK ∨ fb.Worn (rawAt fb f p.offset sector)

theorem encode_within_blank (hl : fb.OpsLaw) (write : Write fb.Entry) :
    List.Forall₂ Within (fb.encode write.entry) fb.BLANK := by
  obtain ⟨o₁, p₁, o₂, p₂, -, -, -, hover₁, hover₂⟩ := hl.shape write
  have hcommit := overlay_within (fb.body write.entry) o₂.toNat p₂.slice
  have hbody := overlay_within fb.BLANK o₁.toNat p₁.slice
  rw [hover₂] at hcommit
  rw [hover₁] at hbody
  exact forall₂_within_trans hcommit hbody

theorem Sound.worn (hl : fb.OpsLaw) (h : Sound idf fb p f) (write : Write fb.Entry)
    (hsector : write.sector < 2) : fb.Worn (rawAt fb f p.offset write.sector) := by
  rcases h.legible write.sector hsector with hblank | hworn
  · rw [hblank]
    exact ⟨write.entry, encode_within_blank hl write⟩
  · exact hworn

theorem Sound.update (hl : fb.OpsLaw) (hp : Placed p) (h : Sound idf fb p f)
    (hsector : write.sector < 2) (hu : UpdateCut fb p.offset write f g) : Sound idf fb p g := by
  have hclear := hp.clear hsector
  have htable : ∀ a, 0x8000 ≤ a → a < 0x8C00 → f a = g a := fun a hlo hhi =>
    (hu.safe.outside a (by omega)).symm
  have hread : Nor.read g 0x8000 0xC00 = Nor.read f 0x8000 0xC00 :=
    read_eq_iff.mpr fun i hi => (htable _ (by omega) (by omega)).symm
  refine ⟨?_, fun layout hlayout => h.boot layout (hread ▸ hlayout), fun sector hs => ?_⟩
  · rw [← idf.lookupIn_congr htable]
    exact h.app
  · by_cases hne : sector = write.sector
    · rw [hne]
      exact .inr hu.safe.worn
    · rw [hu.keeps hl hs hne]
      exact h.legible sector hs

theorem Sound.writes (hl : fb.OpsLaw) (hp : Placed p) (h : Sound idf fb p f)
    {writes : List (Write fb.Entry)} (hsectors : ∀ write ∈ writes, write.sector < 2)
    (hu : WritesCut fb p.offset writes f g) : Sound idf fb p g := by
  induction hu with
  | between => exact h
  | inside hcut => exact h.update hl hp (hsectors _ (List.mem_cons_self ..)) hcut
  | next hcut _ _ ih =>
    exact ih (h.update hl hp (hsectors _ (List.mem_cons_self ..)) hcut)
      fun write hw => hsectors write (List.mem_cons_of_mem _ hw)

/-! ### The calls of the application -/

def CallCut (fb : Fibewi) (base : UInt32) (call : Call) (f g : Flash) : Prop :=
  g = f ∨ ∃ write, call.decision fb (entriesAt fb f base) = some write ∧ UpdateCut fb base write f g

theorem wp_call_safe (hb : b.Honest) (hl : fb.OpsLaw) (hdw : fb.DecodeWorn) (hsl : fb.SectorLaw)
    (hp : Placed p) {s : State} (hsound : Sound idf fb p s.flash) (call : Call) :
    (ExceptT.run (call.exec idf fb)).wp (norDevice b)
      (cutGuard NorOp.cmd? (CallCut fb p.offset call s.flash))
      (fun r s' => CallCut fb p.offset call s.flash s'.flash ∧ (r.isOk = true →
        ∃ write, call.decision fb (entriesAt fb s.flash p.offset) = some write ∧
          rawAt fb s'.flash p.offset write.sector = fb.encode write.entry)) s := by
  refine wp_call hsl hsound.app call (fun _ _ _ => cutGuard_of_none rfl (.inl rfl))
    (fun _ _ _ => ⟨.inl rfl, fun h => by cases h⟩) (fun k write hw hsector => ?_)
  have hup : ∀ g, SafeCut fb (sectorAt p.offset write.sector).toNat write.entry s.flash g →
      CallCut fb p.offset call s.flash g := fun g hg => .inr ⟨write, hw, hg.update hp hsector⟩
  refine wp_cutGuard_mono hup (Prog.wp_mono (fun r s' h => ?_) (wp_app_update
    (s := { s with reads := k }) hb hl hp hsound.app hsector
    (SafeCut.throughout hdw (hsound.worn hl write hsector))))
  exact ⟨hup _ h.1, fun hok => ⟨write, hw, h.2 hok⟩⟩

/-! ### The bootloader -/

section Boot

variable {other : State → (o : HwOp) → o.Ans} {s : State} {layout : Layout}

theorem wp_executeAll_safe (hb : b.Honest) (hl : fb.OpsLaw) (hdw : fb.DecodeWorn) (hp : Placed p)
    (hlayout : layout.otadata.1 = p.offset) (hsound : Sound idf fb p s.flash)
    {writes : List (Write fb.Entry)} (hsectors : ∀ write ∈ writes, write.sector < 2) :
    (ExceptT.run (executeAll fb layout writes)).wp (romDevice b other)
      (cutGuard HwOp.cmd? (WritesCut fb p.offset writes s.flash))
      (fun _ s' => WritesCut fb p.offset writes s.flash s'.flash) s := by
  induction writes generalizing s with
  | nil => exact .between _ _
  | cons write rest ih =>
    have hsector := hsectors write (List.mem_cons_self ..)
    have hup : ∀ g, SafeCut fb (sectorAt p.offset write.sector).toNat write.entry s.flash g →
        WritesCut fb p.offset (write :: rest) s.flash g := fun g hg => .inside (hg.update hp hsector)
    unfold executeAll
    rw [Prog.wp_try]
    refine wp_cutGuard_mono hup (Prog.wp_mono (fun r s' h => ?_) (wp_boot_update hb hl hp hlayout
      hsector (SafeCut.throughout hdw (hsound.worn hl write hsector))))
    cases r with
    | error e => exact hup _ h.1
    | ok _ =>
      have hcut := h.1.update hp hsector
      have hnext : ∀ g, WritesCut fb p.offset rest s'.flash g →
          WritesCut fb p.offset (write :: rest) s.flash g := fun g hg => .next hcut (h.2 rfl) hg
      exact wp_cutGuard_mono hnext (Prog.wp_mono (fun _ s'' h => hnext _ h)
        (ih (hsound.update hl hp hsector hcut) fun write hw =>
          hsectors write (List.mem_cons_of_mem _ hw)))

/-- A cut during `boot`: outside the updates, or in the writes of a plan made from the
entries that were there. -/
def BootCut (fb : Fibewi) (base : UInt32) (f g : Flash) : Prop :=
  g = f ∨ ∃ tr plan, Prog.Runs (fb.planBoot (entriesAt fb f base) 2) tr plan ∧
    WritesCut fb base plan.writes f g

theorem wp_boot_cut (hb : b.Honest) (hl : fb.OpsLaw) (hdw : fb.DecodeWorn) (hsl : fb.SectorLaw)
    (hp : Placed p) (hsound : Sound idf fb p s.flash) (map : Platform.MemoryMap) :
    (ExceptT.run (boot fb map)).wp (romDevice b other)
      (cutGuard HwOp.cmd? (BootCut fb p.offset s.flash))
      (fun _ s' => BootCut fb p.offset s.flash s'.flash) s := by
  have hsmall := hl.small
  have hquiet : ∀ k o, Quiet o → cutGuard HwOp.cmd? (BootCut fb p.offset s.flash)
      { s with reads := k } o := fun _ _ ho => cutGuard_of_none ho (.inl rfl)
  unfold boot prepare
  rw [Prog.wp_try, Prog.wp_try]
  refine wp_plan (fun layout hlayout sector hs => ?_) hquiet (fun k k' layout plan hlayout hr => ?_)
    (fun _ _ _ => .inl rfl)
  · rw [hsound.boot layout hlayout]
    have := hp.block hs
    omega
  · rw [hsound.boot layout hlayout] at hr
    obtain ⟨tr', hplan⟩ := runs_of_runPlan (hr ▸ Prog.runs_events ..)
    have hsectors := hsl.planBoot hplan
    have hup : ∀ g, WritesCut fb p.offset plan.writes s.flash g → BootCut fb p.offset s.flash g :=
      fun g hg => .inr ⟨tr', plan, hplan, hg⟩
    simp only
    rw [Prog.wp_try, Prog.wp_adapt, Prog.wp_ofExcept]
    cases plannedSlot plan.boot with
    | error e => exact .inl rfl
    | ok slot =>
      simp only [Except.mapError]
      rw [Prog.wp_try]
      refine wp_cutGuard_mono hup (Prog.wp_mono (fun r s' h => ?_) (wp_executeAll_safe
        (s := { s with reads := k }) hb hl hdw hp (hsound.boot layout hlayout) hsound hsectors))
      cases r with
      | error e => exact hup _ h
      | ok _ =>
        change (ExceptT.run (load fb map layout slot)).wp _ _ _ _
        exact wp_quiet (only_load ..) (fun _ _ ho => cutGuard_of_none ho (hup _ h)) fun _ => hup _ h

end Boot

/-! ### Whole runs -/

/-- One call of the application or one boot, cut anywhere or carried to its end, on any
honest flash. -/
inductive Powered (idf : EspIdf) (fb : Fibewi) : Flash → Flash → Prop
  | call {b s g} (call : Call) : b.Honest →
      CutPoint NorOp.cmd? (norDevice b) (ExceptT.run (call.exec idf fb)) s g → Powered idf fb s.flash g
  | boot {b other s g} (map : Platform.MemoryMap) : b.Honest →
      CutPoint HwOp.cmd? (romDevice b other) (ExceptT.run (boot fb map)) s g →
      Powered idf fb s.flash g

section Runs

variable (hl : fb.OpsLaw) (hdw : fb.DecodeWorn) (hsl : fb.SectorLaw) (hp : Placed p)

include hl hdw hsl hp

theorem call_cut {s : State} (hb : b.Honest) (hsound : Sound idf fb p s.flash) {call : Call}
    (h : CutPoint NorOp.cmd? (norDevice b) (ExceptT.run (call.exec idf fb)) s g) :
    CallCut fb p.offset call s.flash g :=
  cutPoint_of_wp (Prog.wp_mono (fun _ _ h => h.1) (wp_call_safe hb hl hdw hsl hp hsound call)) h

theorem boot_cut {other : State → (o : HwOp) → o.Ans} {s : State} (hb : b.Honest)
    (hsound : Sound idf fb p s.flash) {map : Platform.MemoryMap}
    (h : CutPoint HwOp.cmd? (romDevice b other) (ExceptT.run (boot fb map)) s g) :
    BootCut fb p.offset s.flash g :=
  cutPoint_of_wp (wp_boot_cut hb hl hdw hsl hp hsound map) h

theorem Sound.powered (h : Sound idf fb p f) (hstep : Powered idf fb f g) : Sound idf fb p g := by
  cases hstep with
  | call call hb hcut =>
    rcases call_cut hl hdw hsl hp hb h hcut with rfl | ⟨write, hw, hu⟩
    · exact h
    · exact h.update hl hp (Call.sector_lt hsl hw) hu
  | boot map hb hcut =>
    rcases boot_cut hl hdw hsl hp hb h hcut with rfl | ⟨tr, plan, hplan, hu⟩
    · exact h
    · exact h.writes hl hp (hsl.planBoot hplan) hu

theorem Sound.runs {f₀ : Flash} (h : Sound idf fb p f₀)
    (hrun : Relation.ReflTransGen (Powered idf fb) f₀ f) : Sound idf fb p f := by
  induction hrun with
  | refl => exact h
  | tail _ hstep ih => exact ih.powered hl hdw hsl hp hstep

end Runs

/-- What the next call or boot can do to the flash, on any honest flash. -/
structure PowerSafe (idf : EspIdf) (fb : Fibewi) (p : PartitionEntry) (f : Flash) : Prop where
  call : ∀ {b s} (call : Call), b.Honest → s.flash = f → ∀ g,
    CutPoint NorOp.cmd? (norDevice b) (ExceptT.run (call.exec idf fb)) s g →
    CallCut fb p.offset call f g
  call_ok : ∀ {b s} (call : Call), b.Honest → s.flash = f →
    ((ExceptT.run (call.exec idf fb)).run (norDevice b) s).1.isOk = true →
    ∃ write, call.decision fb (entriesAt fb f p.offset) = some write ∧
      rawAt fb ((ExceptT.run (call.exec idf fb)).run (norDevice b) s).2.flash p.offset write.sector =
        fb.encode write.entry
  boot : ∀ {b other s} (map : Platform.MemoryMap), b.Honest → s.flash = f → ∀ g,
    CutPoint HwOp.cmd? (romDevice b other) (ExceptT.run (boot fb map)) s g →
    BootCut fb p.offset f g
  boot_ok : ∀ {b other s} {layout : Layout} (write : Write fb.Entry), b.Honest → s.flash = f →
    layout.otadata.1 = p.offset → write.sector < 2 →
    ((ExceptT.run (Bootloader.execute fb write layout)).run (romDevice b other) s).1.isOk = true →
    rawAt fb ((ExceptT.run (Bootloader.execute fb write layout)).run (romDevice b other) s).2.flash
      p.offset write.sector = fb.encode write.entry

/-- After any run of calls and boots, each of them cut anywhere, the next one is safe
against a cut, and an update that succeeds has written its entry. -/
theorem otadata_power_safe (hl : fb.OpsLaw) (hdw : fb.DecodeWorn) (hsl : fb.SectorLaw) (hp : Placed p)
    {f₀ : Flash} (h₀ : Sound idf fb p f₀) (hrun : Relation.ReflTransGen (Powered idf fb) f₀ f) :
    PowerSafe idf fb p f := by
  have hsound := h₀.runs hl hdw hsl hp hrun
  refine ⟨?_, ?_, ?_, ?_⟩
  · rintro b s call hb rfl g hcut
    exact call_cut hl hdw hsl hp hb hsound hcut
  · rintro b s call hb rfl
    exact ((Prog.wp_iff ..).mp (wp_call_safe hb hl hdw hsl hp hsound call)).2.2
  · rintro b other s map hb rfl g hcut
    exact boot_cut hl hdw hsl hp hb hsound hcut
  · rintro b other s layout write hb rfl hlayout hsector
    exact ((Prog.wp_iff ..).mp (wp_boot_update hb hl hp hlayout hsector
      (SafeCut.throughout hdw (hsound.worn hl write hsector)))).2.2

theorem sound_table : Sound firstMatch Sample.fibewi ⟨0xD000, 0x2000, ""⟩
    (Sample.tableFlash Sample.table) where
  app := Sample.lookupIn_table .dataOta
  boot layout h := by
    rw [layoutOf_table] at h
    cases h
    rfl
  legible sector hs := by
    left
    rcases sector_cases hs with rfl | rfl <;> decide

/-- What `activate` writes first for slot 1 in erased sectors. -/
def sampleBody : List UInt8 := [2, 0, 0, 0, 0, 0, 0, 0, 0xFD] ++ List.replicate 7 0xFF

/-- Only the first bytes of it were written. -/
def halfWritten (f : Flash) : Flash := fun a =>
  if a < 0xD008 then (Cmd.program 0xD000 sampleBody).apply f a else f a

theorem issues_sampleBody : ∃ s, (ExceptT.run (Call.exec firstMatch Sample.fibewi (.activate .ota1))).Issues
      (norDevice perfect) ⟨Sample.tableFlash Sample.table, [], 0⟩ s (.write 0xD000 sampleBody) ∧
    Nor.read (halfWritten s.flash) 0xD000 16 = [2, 0, 0, 0, 0, 0, 0, 0] ++ List.replicate 8 0xFF := by
  have h : ((ExceptT.run (Call.exec firstMatch Sample.fibewi (.activate .ota1))).issueAt (norDevice perfect)
      ⟨Sample.tableFlash Sample.table, [], 0⟩ 8).map
        (fun x => (x.2, Nor.read (halfWritten x.1.flash) 0xD000 16)) =
      some (.write 0xD000 sampleBody, [2, 0, 0, 0, 0, 0, 0, 0] ++ List.replicate 8 0xFF) := by
    decide +kernel
  obtain ⟨⟨s, o⟩, hissue, heq⟩ := Option.map_eq_some_iff.mp h
  obtain ⟨rfl, hread⟩ := Prod.ext_iff.mp heq
  exact ⟨s, Prog.issues_of_issueAt hissue, hread⟩

/-- The activation of slot 1 was cut in the middle of its first write. -/
theorem otadata_power_safe_cut : ∃ s, (ExceptT.run (Call.exec firstMatch Sample.fibewi (.activate .ota1))).Issues
      (norDevice perfect) ⟨Sample.tableFlash Sample.table, [], 0⟩ s (.write 0xD000 sampleBody) ∧
    Nor.read (halfWritten s.flash) 0xD000 16 = [2, 0, 0, 0, 0, 0, 0, 0] ++ List.replicate 8 0xFF ∧
    PowerSafe firstMatch Sample.fibewi ⟨0xD000, 0x2000, ""⟩ (halfWritten s.flash) := by
  obtain ⟨s, hissues, hread⟩ := issues_sampleBody
  have hcut : Powered firstMatch Sample.fibewi (Sample.tableFlash Sample.table) (halfWritten s.flash) :=
    .call (s := ⟨Sample.tableFlash Sample.table, [], 0⟩) (.activate .ota1) perfect_honest
      (.inl ⟨s, _, hissues, Cmd.torn_until _ _ _⟩)
  exact ⟨s, hissues, hread, otadata_power_safe Sample.opsLaw (fun _ _ _ _ => Sample.decodeWorn) Sample.sectorLaw
    ⟨by decide, by decide, by decide⟩ sound_table (.single hcut)⟩

end Espbewi.System
