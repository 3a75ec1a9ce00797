import Espbewi.System.Update

/-! The calls by which the application updates the boot entries. -/

namespace Espbewi.System

open Lib Nor Boot Hw Otadata

inductive Call
  | confirm
  | reject
  | activate (target : AppSlot)
  deriving DecidableEq

namespace Call

variable (idf : EspIdf) (fb : Fibewi)

def exec : Call → OtaM Unit
  | .confirm => Otadata.confirm idf fb
  | .reject => Otadata.reject idf fb
  | .activate target => Otadata.activate idf fb target

def decision : Call → Entries → Option (Write fb.Entry)
  | .confirm => fb.confirm
  | .reject => fb.reject
  | .activate target => fun entries => fb.activate entries Otadata.SLOT_COUNT (slotIndex target)

theorem exec_eq (call : Call) : call.exec idf fb = transition idf fb (call.decision fb) := by
  cases call <;> rfl

variable {fb}

theorem sector_lt (hs : fb.SectorLaw) {call : Call} {entries : Entries} {write : Write fb.Entry}
    (h : call.decision fb entries = some write) : write.sector < 2 := by
  cases call with
  | confirm => exact hs.confirm h
  | reject => exact hs.reject h
  | activate target => exact hs.activate h

end Call

variable {idf : EspIdf} {fb : Fibewi} {b : Behaviour} {f g : Flash} {p : PartitionEntry}
  {write : Write fb.Entry}

/-- A sector written whole, and nothing else changed, is the pair of entries after the write. -/
theorem entriesAt_written (hl : fb.OpsLaw) (hp : Placed p) (hsector : write.sector < 2)
    (helse : Elsewhere (sectorAt p.offset write.sector).toNat f g)
    (hraw : rawAt fb g p.offset write.sector = fb.encode write.entry) :
    entriesAt fb g p.offset = fb.written (entriesAt fb f p.offset) write := by
  have hsmall := hl.small
  have hother : ∀ sector, sector < 2 → sector ≠ write.sector →
      rawAt fb g p.offset sector = rawAt fb f p.offset sector := fun sector hs hne => by
    have := hp.disjoint hs hsector hne
    exact read_eq_iff.mpr fun i hi => helse _ (by omega)
  rcases sector_cases hsector with h | h
  · rw [Fibewi.written, if_pos h, entriesAt, ← hraw, h, hother 1 (by decide) (by rw [h]; decide)]
    rfl
  · rw [Fibewi.written, if_neg (by rw [h]; decide), entriesAt, ← hraw, h,
      hother 0 (by decide) (by rw [h]; decide)]
    rfl

theorem wp_call (hsl : fb.SectorLaw) {s : State} (hlookup : idf.lookupIn s.flash .dataOta = some p) (call : Call)
    {I : State → NorOp → Prop} {Q : Except Error Unit → State → Prop}
    (hI : ∀ k offset len, I { s with reads := k } (.read offset len))
    (herr : (¬ b.Readable ∨ call.decision fb (entriesAt fb s.flash p.offset) = none) →
      ∀ e k, Q (.error e) { s with reads := k })
    (hwrite : ∀ k write, call.decision fb (entriesAt fb s.flash p.offset) = some write →
      write.sector < 2 →
      (ExceptT.run (execute idf fb write)).wp (norDevice b) I Q { s with reads := k }) :
    (ExceptT.run (call.exec idf fb)).wp (norDevice b) I Q s := by
  rw [call.exec_eq]
  unfold transition
  rw [Prog.wp_try]
  refine wp_readEntries hI (fun p' k hp' => ?_) (fun hlost k => herr (hlost.imp_right fun hnone => ?_) _ k)
  · rw [hlookup] at hp'
    cases hp'
    simp only
    cases hw : call.decision fb (entriesAt fb s.flash p.offset) with
    | none => exact herr (.inr hw) _ k
    | some write => exact hwrite k write hw (Call.sector_lt hsl hw)
  · rw [hlookup] at hnone
    cases hnone

/-- A call that succeeds has written the entry it decided on. -/
theorem call_ok (hb : b.Honest) (hl : fb.OpsLaw) (hsl : fb.SectorLaw) (hp : Placed p) {s s' : State}
    (hlookup : idf.lookupIn s.flash .dataOta = some p) {call : Call}
    (h : (ExceptT.run (call.exec idf fb)).run (norDevice b) s = (.ok (), s')) :
    ∃ write, call.decision fb (entriesAt fb s.flash p.offset) = some write ∧ write.sector < 2 ∧
      Elsewhere (sectorAt p.offset write.sector).toNat s.flash s'.flash ∧
      entriesAt fb s'.flash p.offset = fb.written (entriesAt fb s.flash p.offset) write := by
  have hwp : (ExceptT.run (call.exec idf fb)).wp (norDevice b) (fun _ _ => True)
      (fun r s' => r = .ok () → ∃ write, call.decision fb (entriesAt fb s.flash p.offset) = some write ∧
        write.sector < 2 ∧ Elsewhere (sectorAt p.offset write.sector).toNat s.flash s'.flash ∧
        entriesAt fb s'.flash p.offset = fb.written (entriesAt fb s.flash p.offset) write) s := by
    refine wp_call hsl hlookup call (fun _ _ _ => trivial) (fun _ e k h => by cases h) ?_
    intro k write hw hsector
    refine Prog.wp_guard_mono (fun _ _ _ => trivial) (Prog.wp_mono (fun r s' hend hr => ?_)
      (wp_app_update (s := { s with reads := k }) hb hl hp hlookup hsector elsewhere_throughout))
    subst hr
    exact ⟨write, hw, hsector, hend.1, entriesAt_written hl hp hsector hend.1 (hend.2 rfl)⟩
  have := Prog.run_of_wp hwp
  rw [h] at this
  exact this rfl

/-! ### On flash without faults -/

/-- Without faults the update succeeds, unless the sector is the last of the address
space, where the driver's bounds of the erase are empty. -/
theorem update_protocol (hl : fb.OpsLaw) (hde : fb.DecodeEncode) (hp : Placed p)
    (hsector : write.sector < 2) (f : Flash) (log : List Cmd) :
    ∃ o₁ p₁ o₂ p₂, fb.ops write = (.erase, .program o₁ p₁, .program o₂ p₂) ∧
      ∃ ok g log', update perfect (protocol fb write (sectorAt p.offset write.sector) o₁ o₂ p₁ p₂) f
        log = (ok, g, log') ∧ (ok = true ∨
          g = f ∧ 2 ^ 32 ≤ (sectorAt p.offset write.sector).toNat + 0x1000) := by
  obtain ⟨o₁, p₁, o₂, p₂, hops, h₁, h₂, hover₁, hover₂⟩ := hl.shape write
  have hsmall := hl.small
  obtain ⟨-, hblock⟩ := hp.block hsector
  refine ⟨o₁, p₁, o₂, p₂, hops, ?_⟩
  have hprogram : ∀ {o : UInt32} {q : Payload} (f' : Flash), o.toNat + q.len ≤ fb.ENTRY_SIZE →
      after (NorFlash.programCmds (sectorAt p.offset write.sector + o) q.slice) f' =
        (Cmd.program ((sectorAt p.offset write.sector).toNat + o.toNat) q.slice).apply f' := by
    intro o q f' hq
    have hat := programs_at (show o.toNat + q.len ≤ 0x1000 by omega) hblock
    rcases NorFlash.programCmds_programs (hat.imp_right And.left) (fun _ => true) with hrefused | ⟨-, -, hafter⟩
    · cases congrFun (congrArg Phase.seen hrefused) f'
    · exact hafter f'
  have hhi : (sectorAt p.offset write.sector + SECTOR_SIZE).toNat =
      ((sectorAt p.offset write.sector).toNat + 0x1000) % 2 ^ 32 := UInt32.toNat_add ..
  rw [protocol, Fibewi.phases, update_perfect, after_cons, after_nil]
  generalize (sectorAt p.offset write.sector).toNat = a at *
  by_cases hblank : Nor.read ((Cmd.erase a (sectorAt p.offset write.sector + SECTOR_SIZE).toNat).apply
      f) a fb.ENTRY_SIZE = fb.BLANK
  · generalize (Cmd.erase a (sectorAt p.offset write.sector + SECTOR_SIZE).toNat).apply f = f₁ at *
    have hraw₁ : Nor.read ((Cmd.program (a + o₁.toNat) p₁.slice).apply f₁) a fb.ENTRY_SIZE =
        fb.body write.entry := by
      rw [read_program, hblank, hover₁]
    have hraw₂ : Nor.read ((Cmd.program (a + o₂.toNat) p₂.slice).apply
        ((Cmd.program (a + o₁.toNat) p₁.slice).apply f₁)) a fb.ENTRY_SIZE = fb.encode write.entry := by
      rw [read_program, hraw₁, hover₂]
    rw [if_pos (decide_eq_true hblank), update_perfect]
    simp only
    rw [hprogram f₁ h₁, if_pos (decide_eq_true hraw₁), update_perfect]
    simp only
    rw [hprogram _ h₂, if_pos (decide_eq_true ⟨hraw₂, hraw₂ ▸ hde write.entry⟩)]
    exact ⟨true, _, _, rfl, .inl rfl⟩
  · rw [if_neg (by simpa using hblank)]
    have hwrap : 2 ^ 32 ≤ a + 0x1000 := by
      by_contra hlt
      apply hblank
      rw [hl.blank]
      exact read_erase (Nat.le_refl a) (by omega)
    refine ⟨false, _, _, rfl, .inr ⟨?_, hwrap⟩⟩
    funext x
    exact Cmd.apply_of_not_covers fun hx => by
      simp only [Cmd.Covers, Cmd.lo, Cmd.hi] at hx
      omega

/-- Without faults a call succeeds or leaves the flash as it was. -/
theorem wp_call_perfect (hl : fb.OpsLaw) (hde : fb.DecodeEncode) (hsl : fb.SectorLaw) (hp : Placed p)
    {s : State} (hlookup : idf.lookupIn s.flash .dataOta = some p) (call : Call) :
    (ExceptT.run (call.exec idf fb)).wp (norDevice perfect) (fun _ _ => True)
      (fun r s' => r = .ok () ∨ s'.flash = s.flash ∧
        (∀ write, call.decision fb (entriesAt fb s.flash p.offset) = some write →
          2 ^ 32 ≤ (sectorAt p.offset write.sector).toNat + 0x1000)) s := by
  refine wp_call hsl hlookup call (fun _ _ _ => trivial) ?_ (fun k write hw hsector => ?_)
  · rintro (hr | hnone) e k
    · exact absurd perfect_readable hr
    · refine .inr ⟨rfl, fun write hw => ?_⟩
      rw [hnone] at hw
      cases hw
  · obtain ⟨o₁, p₁, o₂, p₂, hops, ok, g, log', hu, hg⟩ :=
      update_protocol hl hde hp hsector s.flash s.log
    have hrun := app_update (s := { s with reads := k }) perfect_readable hops hlookup
    simp only [hu, Prod.mk.injEq] at hrun
    refine (Prog.wp_iff ..).mpr ⟨fun _ _ _ => trivial, ?_⟩
    rcases hg with rfl | ⟨rfl, hwrap⟩
    · left
      revert hrun
      cases ((ExceptT.run (execute idf fb write)).run (norDevice perfect) { s with reads := k }).1 with
      | ok u => exact fun _ => rfl
      | error e => exact fun h => by cases h.1
    · refine .inr ⟨hrun.2.1, fun write' hw' => ?_⟩
      rw [hw] at hw'
      cases hw'
      exact hwrap

/-- Without faults a call carries out what it decides. -/
theorem call_run (hl : fb.OpsLaw) (hde : fb.DecodeEncode) (hsl : fb.SectorLaw) (hp : Placed p)
    {s : State} (hlookup : idf.lookupIn s.flash .dataOta = some p) {call : Call}
    (hw : call.decision fb (entriesAt fb s.flash p.offset) = some write)
    (hin : (sectorAt p.offset write.sector).toNat + 0x1000 < 2 ^ 32) :
    ∃ s', (ExceptT.run (call.exec idf fb)).run (norDevice perfect) s = (.ok (), s') ∧
      idf.lookupIn s'.flash = idf.lookupIn s.flash ∧
      entriesAt fb s'.flash p.offset = fb.written (entriesAt fb s.flash p.offset) write := by
  have hok : ((ExceptT.run (call.exec idf fb)).run (norDevice perfect) s).1 = .ok () := by
    rcases Prog.run_of_wp (wp_call_perfect hl hde hsl hp hlookup call) with hok | ⟨-, hwrap⟩
    · exact hok
    · exact absurd (hwrap write hw) (by omega)
  have hrun : (ExceptT.run (call.exec idf fb)).run (norDevice perfect) s =
    (.ok (), ((ExceptT.run (call.exec idf fb)).run (norDevice perfect) s).2) := Prod.ext hok rfl
  obtain ⟨write', hw', hsector, helse, hentries⟩ := call_ok perfect_honest hl hsl hp hlookup hrun
  rw [hw] at hw'
  cases hw'
  have hclear := hp.clear hsector
  exact ⟨_, hrun, (idf.lookupIn_congr fun a hlo hhi => (helse a (by omega)).symm).symm, hentries⟩

end Espbewi.System
