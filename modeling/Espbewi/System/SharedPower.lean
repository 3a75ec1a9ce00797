import Espbewi.System.Shared
import Espbewi.System.PowerRuns
import Espbewi.System.Upload

/-! The boot entries, while tasks share the flash and power may be cut. -/

namespace Espbewi.System

open Lib Nor Boot Hw Otadata Prog SharedFlash
open Bootloader (boot)

variable {idf : EspIdf} {fb : Fibewi} {H : Sha256} {g : Geometry} {w : Nat} {E : Engine} {M : FlashMap}
  {b : Behaviour} {s s' : State} {f f' : Flash}

/-- What a cut during a call may leave: of an update of a boot entry, what it may leave of that; of any other
call, the boot entries as they were. -/
def RequestCut (fb : Fibewi) (c : Request E M) (f f' : Flash) : Prop :=
  match c.call? with
  | some update => CallCut fb M.ota.offset update f f'
  | none => c.region.Frame f f'

theorem RequestCut.frame {c : Request E M} (h : RequestCut fb c f f') (hc : c.call? = none) : c.region.Frame f f' := by
  simpa only [RequestCut, hc] using h

theorem RequestCut.cases {c : Request E M} (h : RequestCut fb c f f') :
    c.call? = none ∧ c.region.Frame f f' ∨ f' = f ∨ ∃ update write, c.call? = some update ∧
      update.decision fb (entriesAt fb f M.ota.offset) = some write ∧ UpdateCut fb M.ota.offset write f f' := by
  unfold RequestCut at h
  cases hc : c.call? with
  | none =>
    rw [hc] at h
    exact .inl ⟨rfl, h⟩
  | some update =>
    rw [hc] at h
    exact .inr (h.imp_right fun ⟨write, hw, hu⟩ => ⟨update, write, rfl, hw, hu⟩)

theorem activate_of_call? {c : Request E M} {target : AppSlot} (h : c.call? = some (.activate target)) :
    c = .activate target := by
  cases c with
  | activate target' =>
    cases h
    rfl
  | _ => cases h

theorem region_ota {c : Request E M} (h : c.call? = none) : c.region.Apart (.ofEntry M.ota) := by
  cases c with
  | confirm | reject | activate target => cases h
  | append x u data => exact M.slot_ota x
  | finish x u => exact M.slot_ota x
  | nvs p hp => exact M.nvs_ota
  | _ =>
    intro x hx
    simp only [Request.region, Region.Has] at hx
    omega

theorem rawAt_frame (hl : fb.OpsLaw) {r : Region} (hr : r.Apart (.ofEntry M.ota)) (h : r.Frame f f')
    {sector : UInt8} (hs : sector < 2) :
    rawAt fb f' M.ota.offset sector = rawAt fb f M.ota.offset sector := by
  have hsmall := hl.small
  refine read_eq_iff.mpr fun i hi => h _ fun hin => hr _ hin (sector_inside M hs ?_)
  omega

theorem Sound.frame (hl : fb.OpsLaw) (h : Sound idf fb M.ota f) {r : Region} (htable : r.Apart tableRegion)
    (hota : r.Apart (.ofEntry M.ota)) (hframe : r.Frame f f') : Sound idf fb M.ota f' := by
  have hread : Nor.read f' 0x8000 0xC00 = Nor.read f 0x8000 0xC00 :=
    read_eq_iff.mpr fun i hi => (Frame.table hframe htable (by omega) (by omega)).symm
  refine ⟨(lookupIn_frame hframe htable _).trans h.app, fun layout hlayout => h.boot layout (hread ▸ hlayout),
    fun sector hs => ?_⟩
  rw [rawAt_frame hl hota hframe hs]
  exact h.legible sector hs

theorem Sound.request (hl : fb.OpsLaw) (hsl : fb.SectorLaw) {c : Request E M} (h : Sound idf fb M.ota f)
    (hcut : RequestCut fb c f f') : Sound idf fb M.ota f' := by
  rcases hcut.cases with ⟨hc, hframe⟩ | rfl | ⟨update, write, -, hw, hu⟩
  · exact h.frame hl (region_table c) (region_ota hc) hframe
  · exact h
  · exact h.update hl M.placed (Call.sector_lt hsl hw) hu

theorem wp_body_safe (hb : b.Honest) (hl : fb.OpsLaw) (hdw : fb.DecodeWorn) (hsl : fb.SectorLaw)
    (hs : Sound idf fb M.ota s.flash) (c : Request E M) :
    (body idf fb H g w E M c).wp (norDevice b) (cutGuard NorOp.cmd? (RequestCut fb c s.flash))
      (fun _ s' => RequestCut fb c s.flash s'.flash) s := by
  unfold RequestCut
  cases hc : c.call? with
  | none => exact wp_stays hb (only_body hc) (.refl _ _)
  | some update =>
    exact body_of_call hc (wp_mono (fun _ _ h => h.1) (wp_call_safe hb hl hdw hsl M.placed hs update))

theorem guards_sound (hb : b.Honest) (hl : fb.OpsLaw) (hdw : fb.DecodeWorn) (hsl : fb.SectorLaw) :
    (service idf fb H g w E M).Guards (norDevice b) (fun s => Sound idf fb M.ota s.flash)
      (fun c s => cutGuard NorOp.cmd? (RequestCut fb c s.flash))
      fun c s s' => RequestCut fb c s.flash s'.flash :=
  fun c _ _ hs => wp_mono (fun _ _ h => ⟨hs.request hl hsl h, h⟩) (wp_body_safe hb hl hdw hsl hs c)

/-! ### Sessions of tasks and boots -/

section Defs

variable (idf : EspIdf) (fb : Fibewi) (H : Sha256) (g : Geometry) (w : Nat) (E : Engine) (M : FlashMap)

/-- One session of the application, with any number of tasks, or one boot, cut anywhere. -/
inductive SharedPowered : Flash → Flash → Prop
  | tasks {b : Behaviour} {s : State} {f : Flash} {st : (service idf fb H g w E M).State Nat State State} : b.Honest →
      Service.Reach _ (Service.ofDevice (norDevice b)) s st → CutAt st f → SharedPowered s.flash f
  | boot {b : Behaviour} {other} {s : State} {f : Flash} (map : Platform.MemoryMap) : b.Honest →
      CutPoint HwOp.cmd? (romDevice b other) (ExceptT.run (boot fb map)) s f → SharedPowered s.flash f

/-- A sector decodes as before, unless a task is updating it: then it decodes to the new entry or not at all. -/
def Intact {ι : Type} (st : (service idf fb H g w E M).State ι State State) (f : Flash) (sector : UInt8) : Prop :=
  fb.decode (rawAt fb f M.ota.offset sector) = fb.decode (rawAt fb st.settled.flash M.ota.offset sector) ∨
    ∃ i c p update write, st.task i = .inside c p ∧ c.call? = some update ∧
      update.decision fb (entriesAt fb st.settled.flash M.ota.offset) = some write ∧ write.sector = sector ∧
      (fb.decode (rawAt fb f M.ota.offset sector) = none ∨
        fb.decode (rawAt fb f M.ota.offset sector) = some write.entry)

/-- What power cuts can do from here on, at every moment of every interleaving and of every boot. -/
structure SharedSafe (f : Flash) : Prop where
  sound : Sound idf fb M.ota f
  tasks : ∀ {b s} {st : (service idf fb H g w E M).State Nat State State}, b.Honest → s.flash = f →
    Service.Reach _ (Service.ofDevice (norDevice b)) s st → ∀ f', CutAt st f' →
      Sound idf fb M.ota f' ∧ ∀ sector, sector < 2 → Intact idf fb H g w E M st f' sector
  boot : ∀ {b other s} (map : Platform.MemoryMap), b.Honest → s.flash = f → ∀ f',
    CutPoint HwOp.cmd? (romDevice b other) (ExceptT.run (boot fb map)) s f' → BootCut fb M.ota.offset f f'

end Defs

section Runs

variable (hl : fb.OpsLaw) (hdw : fb.DecodeWorn) (hsl : fb.SectorLaw)

include hl hdw hsl

theorem moment_sound {ι : Type} [DecidableEq ι] (hb : b.Honest) (hs : Sound idf fb M.ota s.flash)
    {st : (service idf fb H g w E M).State ι State State}
    (hreach : Service.Reach _ (Service.ofDevice (norDevice b)) s st) :
    Service.Moment (norDevice b) (fun s => Sound idf fb M.ota s.flash)
      (fun c s => cutGuard NorOp.cmd? (RequestCut fb c s.flash))
      (fun c s s' => RequestCut fb c s.flash s'.flash) st :=
  (guards_sound hb hl hdw hsl).moment (fun _ _ => rfl) hs hreach

theorem Sound.tasks {ι : Type} [DecidableEq ι] (hb : b.Honest) (hs : Sound idf fb M.ota s.flash)
    {st : (service idf fb H g w E M).State ι State State}
    (hreach : Service.Reach _ (Service.ofDevice (norDevice b)) s st) (hcut : CutAt st f) :
    Sound idf fb M.ota f := by
  have hmoment := moment_sound hl hdw hsl hb hs hreach
  rcases hcut.cases hmoment with rfl | ⟨i, c, p, -, hc⟩
  · exact hmoment.settled
  · exact hmoment.settled.request hl hsl hc

theorem Sound.sharedPowered (h : Sound idf fb M.ota f) (hstep : SharedPowered idf fb H g w E M f f') :
    Sound idf fb M.ota f' := by
  cases hstep with
  | tasks hb hreach hcut => exact h.tasks hl hdw hsl hb hreach hcut
  | boot map hb hcut => exact h.powered hl hdw hsl M.placed (.boot map hb hcut)

theorem intact_of_cut {ι : Type} [DecidableEq ι] (hb : b.Honest) (hs : Sound idf fb M.ota s.flash)
    {st : (service idf fb H g w E M).State ι State State}
    (hreach : Service.Reach _ (Service.ofDevice (norDevice b)) s st) (hcut : CutAt st f) {sector : UInt8}
    (hsector : sector < 2) : Intact idf fb H g w E M st f sector := by
  rcases hcut.cases (moment_sound hl hdw hsl hb hs hreach) with rfl | ⟨i, c, p, hinside, hc⟩
  · exact .inl rfl
  · rcases hc.cases with ⟨hcall, hframe⟩ | rfl | ⟨update, write, hcall, hw, hu⟩
    · exact .inl (congrArg _ (rawAt_frame hl (region_ota hcall) hframe hsector))
    · exact .inl rfl
    · by_cases hne : sector = write.sector
      · subst hne
        rcases hu.safe.decodes with hd | hd | hd
        · exact .inr ⟨i, c, p, update, write, hinside, hcall, hw, rfl, .inl hd⟩
        · exact .inl hd
        · exact .inr ⟨i, c, p, update, write, hinside, hcall, hw, rfl, .inr hd⟩
      · exact .inl (congrArg _ (hu.keeps hl hsector hne))

end Runs

/-- After any sequence of sessions, each with any interleaving of any number of tasks, and of boots, all of
them cut anywhere, the boot entries are safe at every moment of the next one. -/
theorem shared_power_safe (hl : fb.OpsLaw) (hdw : fb.DecodeWorn) (hsl : fb.SectorLaw)
    {f₀ : Flash} (h₀ : Sound idf fb M.ota f₀)
    (hrun : Relation.ReflTransGen (SharedPowered idf fb H g w E M) f₀ f) :
    SharedSafe idf fb H g w E M f := by
  have hsound : Sound idf fb M.ota f := by
    induction hrun with
    | refl => exact h₀
    | tail _ hstep ih => exact ih.sharedPowered hl hdw hsl hstep
  refine ⟨hsound, ?_, ?_⟩
  · rintro b s st hb rfl hreach f' hcut
    exact ⟨hsound.tasks hl hdw hsl hb hreach hcut, fun sector => intact_of_cut hl hdw hsl hb hsound hreach hcut⟩
  · rintro b other s map hb rfl f' hcut
    exact boot_cut hl hdw hsl M.placed hb hsound hcut

/-- The task that activates slot 1 was cut in the middle of its first write. -/
theorem shared_power_safe_cut : ∃ (s : State) (st : (service firstMatch Sample.fibewi Preloaded.messageHasher
      smallSectors 32 listEngine sampleMap).State Nat State State) (k : _),
    Service.Reach _ (Service.ofDevice (norDevice perfect)) ⟨Sample.tableFlash Sample.table, [], 0⟩ st ∧
    st.task 0 = .inside (.activate .ota1) (.call (.write 0xD000 sampleBody) k) ∧ st.shared = s ∧
    Nor.read (halfWritten s.flash) 0xD000 16 = [2, 0, 0, 0, 0, 0, 0, 0] ++ List.replicate 8 0xFF ∧
    SharedSafe firstMatch Sample.fibewi Preloaded.messageHasher smallSectors 32 listEngine sampleMap
      (halfWritten s.flash) := by
  obtain ⟨s, hissues, hread⟩ := issues_sampleBody
  obtain ⟨st, k, hreach, htask, rfl⟩ := Service.Reach.underway (S := service firstMatch Sample.fibewi
    Preloaded.messageHasher smallSectors 32 listEngine sampleMap) 0 (c := .activate .ota1) rfl hissues
  have hcut : SharedPowered firstMatch Sample.fibewi Preloaded.messageHasher smallSectors 32 listEngine sampleMap
      (Sample.tableFlash Sample.table) (halfWritten st.shared.flash) :=
    .tasks perfect_honest hreach (.inside htask (Cmd.torn_until _ _ _))
  exact ⟨_, st, k, hreach, htask, rfl, hread,
    shared_power_safe Sample.opsLaw (fun _ _ _ _ => Sample.decodeWorn) Sample.sectorLaw sound_table (.single hcut)⟩

end Espbewi.System
