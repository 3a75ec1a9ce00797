import Espbewi.Ota.SharedFlash

/-! The tasks that share the flash, each of them in its own region. -/

namespace Espbewi.System

open Lib Nor Boot Otadata Prog SharedFlash

variable {idf : EspIdf} {fb : Fibewi} {H : Sha256} {g : Geometry} {w : Nat} {E : Engine} {M : FlashMap}
  {b : Behaviour} {s s' : State} {f f' : Flash}

/-! ### What one call changes -/

theorem flash_of_cmd_none {o : NorOp} (h : o.cmd? = none) : (norDevice b s o).2.flash = s.flash := by
  cases o with
  | read offset len => rfl
  | erase lo hi => cases h
  | write offset bytes =>
    simp only [NorOp.cmd?] at h
    split at h
    · next hnil => simp [norDevice, hnil]
    · cases h

theorem torn_of_cmd_some (hb : b.Honest) {o : NorOp} {c : Cmd} (h : o.cmd? = some c) :
    c.Torn s.flash (norDevice b s o).2.flash := by
  have hissue : c.Torn s.flash (b.issue s c).2.flash := by
    cases hr : (b.cmd s.log s.flash c).1 with
    | true =>
      rw [Behaviour.issue, hb.done _ _ _ hr]
      exact c.torn_apply _
    | false => exact hb.torn _ _ _ hr
  cases o with
  | read offset len => cases h
  | erase lo hi =>
    cases h
    exact hissue
  | write offset bytes =>
    simp only [NorOp.cmd?] at h
    split at h
    · cases h
    · next hne =>
      cases h
      simpa [norDevice, hne] using hissue

/-- A program that stays in a region leaves the rest of the flash alone, also when it is cut. -/
theorem wp_stays (hb : b.Honest) {α : Type} {p : NorProg α} {r : Region}
    (hp : p.Only (Stays r.base r.size)) (hf : r.Frame f s.flash) :
    p.wp (norDevice b) (cutGuard NorOp.cmd? (r.Frame f)) (fun _ s' => r.Frame f s'.flash) s := by
  induction p generalizing s with
  | ret a => exact hf
  | call o k ih =>
    cases hc : o.cmd? with
    | none =>
      refine ⟨cutGuard_of_none hc hf, ih _ (hp.2 _) ?_⟩
      rw [flash_of_cmd_none hc]
      exact hf
    | some c =>
      have hcut : ∀ g, c.Torn s.flash g → r.Frame f g := fun g hg x hx => by
        rw [hg.of_not_covers fun hcov => hx (hp.1 c hc x hcov)]
        exact hf x hx
      exact ⟨cutGuard_of_some hc hcut, ih _ (hp.2 _) (hcut _ (torn_of_cmd_some hb hc))⟩

theorem sector_inside (M : FlashMap) {sector : UInt8} (hs : sector < 2) {x : Nat}
    (hx : (sectorAt M.ota.offset sector).toNat ≤ x ∧ x < (sectorAt M.ota.offset sector).toNat + 0x1000) :
    (Region.ofEntry M.ota).Has x := by
  have hn : sector.toNat < 2 := hs
  have hlong := M.placed.long
  have hfits := M.fits
  have haligned := M.placed.aligned
  rw [sectorAt_eq _ hs] at hx
  simp only [Region.Has, Region.ofEntry]
  omega

theorem Elsewhere.frame {sector : UInt8} (hs : sector < 2)
    (h : Elsewhere (sectorAt M.ota.offset sector).toNat f f') : (Region.ofEntry M.ota).Frame f f' :=
  fun x hx => h x fun hin => hx (sector_inside M hs hin)

theorem wp_call_frame (hb : b.Honest) (hl : fb.OpsLaw) (hsl : fb.SectorLaw)
    (hlookup : idf.lookupIn s.flash .dataOta = some M.ota) (call : Call) :
    (ExceptT.run (call.exec idf fb)).wp (norDevice b)
      (cutGuard NorOp.cmd? ((Region.ofEntry M.ota).Frame s.flash))
      (fun _ s' => (Region.ofEntry M.ota).Frame s.flash s'.flash) s := by
  refine wp_call hsl hlookup call (fun _ _ _ => cutGuard_of_none rfl (.refl _ _)) (fun _ _ _ => .refl _ _)
    fun k write hw hsector => ?_
  refine wp_cutGuard_mono (fun _ h => Elsewhere.frame hsector h) (wp_mono (fun r s' h => ?_)
    (wp_app_update (s := { s with reads := k }) hb hl M.placed hlookup hsector elsewhere_throughout))
  exact Elsewhere.frame hsector h.1

theorem body_of_call {c : Request E M} {call : Call} (h : c.call? = some call) {I : State → NorOp → Prop}
    {Q : State → Prop}
    (hwp : (ExceptT.run (call.exec idf fb)).wp (norDevice b) I (fun _ s' => Q s') s) :
    (body idf fb H g w E M c).wp (norDevice b) I (fun _ s' => Q s') s := by
  cases c with
  | confirm =>
    cases h
    exact hwp
  | reject =>
    cases h
    exact hwp
  | activate target =>
    cases h
    exact hwp
  | _ => cases h

theorem region_of_call {c : Request E M} {call : Call} (h : c.call? = some call) :
    c.region = .ofEntry M.ota := by
  cases c with
  | confirm | reject | activate target => rfl
  | _ => cases h

/-- Every call keeps to its region, also when it is cut. -/
theorem wp_body_frame (hb : b.Honest) (hl : fb.OpsLaw) (hsl : fb.SectorLaw)
    (hlookup : idf.lookupIn s.flash .dataOta = some M.ota) (c : Request E M) :
    (body idf fb H g w E M c).wp (norDevice b) (cutGuard NorOp.cmd? (c.region.Frame s.flash))
      (fun _ s' => c.region.Frame s.flash s'.flash) s := by
  cases hc : c.call? with
  | none => exact wp_stays hb (only_body hc) (.refl _ _)
  | some call =>
    rw [region_of_call hc]
    exact body_of_call hc (wp_call_frame hb hl hsl hlookup call)

/-! ### The table -/

theorem region_table (c : Request E M) : c.region.Apart tableRegion := by
  cases c with
  | confirm | reject | activate target =>
    have hapart := M.placed.apart
    intro x hx hx'
    simp only [Request.region, Region.ofEntry, Region.Has, tableRegion] at hx hx'
    omega
  | append x u data => exact M.slot_table x
  | finish x u => exact M.slot_table x
  | nvs p h => exact M.nvs_table
  | _ =>
    intro x hx
    simp only [Request.region, Region.Has] at hx
    omega

theorem Frame.table {r : Region} (h : r.Frame f f') (hr : r.Apart tableRegion) {x : Nat}
    (hlo : 0x8000 ≤ x) (hhi : x < 0x8C00) : f x = f' x := by
  refine (h x fun hx => hr x hx ?_).symm
  simp only [Region.Has, tableRegion]
  omega

theorem lookupIn_frame {r : Region} (h : r.Frame f f') (hr : r.Apart tableRegion) (kind : PartitionType) :
    idf.lookupIn f' kind = idf.lookupIn f kind :=
  congrFun (idf.lookupIn_congr fun _ hlo hhi => Frame.table h hr hlo hhi).symm kind

/-- `otadata` is where the map says. -/
def Located (idf : EspIdf) (M : FlashMap) (s : State) : Prop := idf.lookupIn s.flash .dataOta = some M.ota

/-- The table is as in `f`. -/
def SameTable (f : Flash) (s : State) : Prop := ∀ x, 0x8000 ≤ x → x < 0x8C00 → f x = s.flash x

theorem SameTable.located (h : SameTable f s) (hlookup : idf.lookupIn f .dataOta = some M.ota) :
    Located idf M s :=
  (congrFun (idf.lookupIn_congr h).symm _).trans hlookup

theorem guards_table (hb : b.Honest) (hl : fb.OpsLaw) (hsl : fb.SectorLaw)
    (hlookup : idf.lookupIn f .dataOta = some M.ota) :
    (service idf fb H g w E M).Guards (norDevice b) (SameTable f)
      (fun c s => cutGuard NorOp.cmd? (c.region.Frame s.flash)) fun c s s' => c.region.Frame s.flash s'.flash := by
  intro c s _ hs
  refine wp_mono (fun r s' h => ⟨fun x hlo hhi => ?_, h⟩) (wp_body_frame hb hl hsl (hs.located hlookup) c)
  exact (hs x hlo hhi).trans (Frame.table h (region_table c) hlo hhi)

/-! ### Power cuts -/

section Cuts

variable {ι : Type} {C : Request E M → Flash → Flash → Prop} {J : State → Prop}

/-- What a power cut at this moment may leave in the flash. -/
inductive CutAt (st : (service idf fb H g w E M).State ι State State) : Flash → Prop
  | free : st.holder = none → CutAt st st.shared.flash
  | inside {i c o k g'} : st.task i = .inside c (.call o k) → Cut NorOp.cmd? o st.shared.flash g' → CutAt st g'
  | last {i c r} : st.task i = .inside c (.ret r) → CutAt st st.shared.flash

theorem CutAt.cases {st : (service idf fb H g w E M).State ι State State} {d : Device NorOp NorOp.Ans State}
    (hmoment : Service.Moment d J (fun c s => cutGuard NorOp.cmd? (C c s.flash))
      (fun c s s' => C c s.flash s'.flash) st) (h : CutAt st f) :
    f = st.settled.flash ∨ ∃ i c p, st.task i = .inside c p ∧ C c st.settled.flash f := by
  cases h with
  | free hfree => exact .inl (congrArg State.flash (hmoment.free hfree).symm)
  | @inside i c o k _ hinside hcut =>
    have hi := hmoment.task i
    rw [hinside] at hi
    exact .inr ⟨i, c, _, hinside, hi.2.1 f hcut⟩
  | @last i c r hinside =>
    have hi := hmoment.task i
    rw [hinside] at hi
    exact .inr ⟨i, c, _, hinside, hi.2.2⟩

end Cuts

def sampleMap : FlashMap where
  ota := ⟨0xD000, 0x2000, ""⟩
  slot
    | .ota0 => ⟨.ota0, 0x20000, 0x100000⟩
    | .ota1 => ⟨.ota1, 0x120000, 0x100000⟩
  nvs := ⟨0x9000, 0x4000⟩
  placed := ⟨by decide, by decide, by decide⟩
  fits := by decide
  named x := by cases x <;> rfl
  sized x := by cases x <;> decide
  slot_table x := by cases x <;> exact .of_ends (by decide)
  slot_ota x := by cases x <;> exact .of_ends (by decide)
  slot_slot := .of_ends (by decide)
  nvs_table := .of_ends (by decide)
  nvs_ota := .of_ends (by decide)
  nvs_slot x := by cases x <;> exact .of_ends (by decide)

end Espbewi.System
