import Espbewi.System.Executors

/-! One update of a boot entry on an honest flash, by either executor. -/

namespace Espbewi.System

open Lib Nor Boot Hw Otadata

variable {idf : EspIdf} {fb : Fibewi} {b : Behaviour} {f g : Flash} {a : Nat} {e : fb.Entry}
  {C : Flash → Prop}

/-- `C` holds of whatever the sector at `a` may hold while `entry` is written there. -/
structure Throughout (fb : Fibewi) (a : Nat) (entry : fb.Entry) (f : Flash) (C : Flash → Prop) :
    Prop where
  erase : ∀ {hi g}, hi ≤ a + 0x1000 → (Cmd.erase a hi).Torn f g → C g
  program : ∀ {f' g o data}, o + data.length ≤ 0x1000 → C f' →
    List.Forall₂ Within (fb.encode entry)
      (Nor.read ((Cmd.program (a + o) data).apply f') a fb.ENTRY_SIZE) →
    Partly (a + o) (a + o + data.length) f' ((Cmd.program (a + o) data).apply f') g → C g

theorem Throughout.start (h : Throughout fb a e f C) : C f :=
  h.erase (Nat.le_add_right a 0x1000) (Cmd.torn_self _ _)

def Elsewhere (a : Nat) (f g : Flash) : Prop := ∀ x, ¬ (a ≤ x ∧ x < a + 0x1000) → g x = f x

theorem elsewhere_throughout : Throughout fb a e f (Elsewhere a f) where
  erase hhi h x hx := h.of_not_covers fun hc => hx ⟨hc.1, Nat.lt_of_lt_of_le hc.2 hhi⟩
  program hin hf' _ hg x hx := (hg.outside x fun hx' => hx (by omega)).trans (hf' x hx)

/-- What is left when the update ends: after a success, the entry. -/
def Ended (fb : Fibewi) (a : Nat) (entry : fb.Entry) (C : Flash → Prop) (ok : Bool) (g : Flash) :
    Prop :=
  C g ∧ (ok = true → Nor.read g a fb.ENTRY_SIZE = fb.encode entry)

theorem ended_failed (h : C g) : Ended fb a e C false g :=
  ⟨h, fun h => by cases h⟩

theorem updating_phases (hb : b.Honest) (hl : fb.OpsLaw) {write : Write fb.Entry}
    {o₁ o₂ : UInt32} {p₁ p₂ : Payload} {body commit : (Flash → Bool) → Phase}
    (hbody : Programs (a + o₁.toNat) p₁.slice body) (hcommit : Programs (a + o₂.toNat) p₂.slice commit)
    (h₁ : o₁.toNat + p₁.len ≤ fb.ENTRY_SIZE) (h₂ : o₂.toNat + p₂.len ≤ fb.ENTRY_SIZE)
    (hover₁ : overlay fb.BLANK o₁.toNat p₁.slice = fb.body write.entry)
    (hover₂ : overlay (fb.body write.entry) o₂.toNat p₂.slice = fb.encode write.entry)
    {hi : Nat} (hhi : hi ≤ a + 0x1000) (hC : Throughout fb a write.entry f C) (log : List Cmd) :
    updating b C (fb.phases write a (.erase a hi) body commit)
      (fun ok g _ => Ended fb a write.entry C ok g) f log := by
  have hsmall := hl.small
  -- the erase
  refine issuing_cmd hb (fun g hg => hC.erase hhi hg)
    (fun g hg => ⟨fun _ => ended_failed (hC.erase hhi hg), fun h => by cases h⟩) ?_
  have hf₁ := hC.erase hhi (Cmd.torn_apply _ f)
  generalize (Cmd.erase a hi).apply f = f₁ at hf₁ ⊢
  refine ⟨hf₁, fun _ => ended_failed hf₁, fun _ hblank => ?_⟩
  have hblank := of_decide_eq_true hblank
  -- the body
  have hraw₁ : Nor.read ((Cmd.program (a + o₁.toNat) p₁.slice).apply f₁) a fb.ENTRY_SIZE =
      fb.body write.entry := by
    rw [read_program, hblank, hover₁]
  have hpart₁ : ∀ g, Partly (a + o₁.toNat) (a + o₁.toNat + p₁.slice.length) f₁
      ((Cmd.program (a + o₁.toNat) p₁.slice).apply f₁) g → C g := fun g hg =>
    hC.program (by rw [Payload.slice_length]; omega) hf₁ (hraw₁ ▸ hover₂ ▸ overlay_within _ _ _) hg
  refine updating_programs hb hbody hpart₁ (fun g log hg => ended_failed (hpart₁ g hg)) fun log _ => ?_
  have hf₂ := hpart₁ _ (partly_full ..)
  generalize (Cmd.program (a + o₁.toNat) p₁.slice).apply f₁ = f₂ at hf₂ hraw₁ ⊢
  -- the commit word
  have hraw₂ : Nor.read ((Cmd.program (a + o₂.toNat) p₂.slice).apply f₂) a fb.ENTRY_SIZE =
      fb.encode write.entry := by
    rw [read_program, hraw₁, hover₂]
  have hpart₂ : ∀ g, Partly (a + o₂.toNat) (a + o₂.toNat + p₂.slice.length) f₂
      ((Cmd.program (a + o₂.toNat) p₂.slice).apply f₂) g → C g := fun g hg =>
    hC.program (by rw [Payload.slice_length]; omega) hf₂ (hraw₂ ▸ forall₂_within_refl _) hg
  refine updating_programs hb hcommit hpart₂ (fun g log hg => ended_failed (hpart₂ g hg)) fun log _ => ?_
  exact ⟨hpart₂ _ (partly_full ..), fun _ => hraw₂⟩

/-! ### The two executors -/

theorem programs_at {base : UInt32} {o : UInt32} {p : Payload}
    (hin : o.toNat + p.len ≤ 0x1000) (hbase : base.toNat + 0x1000 ≤ 2 ^ 32) :
    p.slice = [] ∨ ((base + o).toNat = base.toNat + o.toNat ∧
      base.toNat + o.toNat + p.slice.length ≤ 2 ^ 32) := by
  rw [Payload.slice_length]
  by_cases hp : p.len = 0
  · exact .inl (List.length_eq_zero_iff.mp (p.slice_length.trans hp))
  · refine .inr ⟨?_, by omega⟩
    rw [UInt32.toNat_add]
    omega

section Executors

variable {s : State} {p : PartitionEntry} {write : Write fb.Entry}

theorem wp_app_update (hb : b.Honest) (hl : fb.OpsLaw) (hp : Placed p)
    (hlookup : idf.lookupIn s.flash .dataOta = some p) (hsector : write.sector < 2)
    (hC : Throughout fb (sectorAt p.offset write.sector).toNat write.entry s.flash C) :
    (ExceptT.run (execute idf fb write)).wp (norDevice b) (cutGuard NorOp.cmd? C)
      (fun r s' => Ended fb (sectorAt p.offset write.sector).toNat write.entry C r.isOk s'.flash) s := by
  obtain ⟨o₁, p₁, o₂, p₂, hops, h₁, h₂, hover₁, hover₂⟩ := hl.shape write
  have hsmall := hl.small
  obtain ⟨halign, hblock⟩ := hp.block hsector
  refine wp_execute (Q := fun ok g _ =>
    Ended fb (sectorAt p.offset write.sector).toNat write.entry C ok g) hops hC.start
    (fun _ => ended_failed hC.start) ?_
  rintro p' base hp' rfl
  rw [hlookup] at hp'
  cases hp'
  refine updating_phases hb hl ?_ ?_ h₁ h₂ hover₁ hover₂ ?_ hC s.log
  · exact NorFlash.programCmds_programs ((programs_at (by omega) hblock).imp_right And.left)
  · exact NorFlash.programCmds_programs ((programs_at (by omega) hblock).imp_right And.left)
  · rw [UInt32.toNat_add]
    exact Nat.mod_le _ _

theorem wp_boot_update (hb : b.Honest) {other : State → (o : HwOp) → o.Ans} (hl : fb.OpsLaw)
    (hp : Placed p) {layout : Bootloader.Layout} (hlayout : layout.otadata.1 = p.offset)
    (hsector : write.sector < 2)
    (hC : Throughout fb (sectorAt p.offset write.sector).toNat write.entry s.flash C) :
    (ExceptT.run (Bootloader.execute fb write layout)).wp (romDevice b other) (cutGuard HwOp.cmd? C)
      (fun r s' => Ended fb (sectorAt p.offset write.sector).toNat write.entry C r.isOk s'.flash) s := by
  obtain ⟨o₁, p₁, o₂, p₂, hops, h₁, h₂, hover₁, hover₂⟩ := hl.shape write
  have hsmall := hl.small
  obtain ⟨halign, hblock⟩ := hp.block hsector
  unfold Bootloader.execute
  rw [hlayout]
  change (ExceptT.run (Bootloader.executeAt fb write (sectorAt p.offset write.sector))).wp _ _ _ _
  have hdiv : (sectorAt p.offset write.sector / Bootloader.SECTOR).toNat * 0x1000 =
      (sectorAt p.offset write.sector).toNat := by
    have hdiv : (sectorAt p.offset write.sector / Bootloader.SECTOR).toNat =
        (sectorAt p.offset write.sector).toNat / 0x1000 := UInt32.toNat_div ..
    omega
  refine Bootloader.wp_executeAt (Q := fun ok g _ =>
    Ended fb (sectorAt p.offset write.sector).toNat write.entry C ok g) (by omega) hops hC.start
    (fun _ => ended_failed hC.start) ?_
  rw [hdiv]
  refine updating_phases hb hl ?_ ?_ h₁ h₂ hover₁ hover₂ (by omega) hC s.log
  · exact programPhase_programs (programs_at (by omega) hblock)
  · exact programPhase_programs (programs_at (by omega) hblock)

end Executors

end Espbewi.System
