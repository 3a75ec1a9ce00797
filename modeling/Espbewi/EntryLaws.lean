import Espbewi.Fibewi
import Espbewi.Lib.Update

/-! What this workspace relies on in `fibewi`: the entry format, and what the
decisions over a pair of entries may be. -/

namespace Espbewi

open Lib Nor Boot

namespace Fibewi

variable (fb : Fibewi)

/-- An erase, then two programs inside the entry that make a blank sector hold first
the body and then the committed entry. -/
structure OpsLaw : Prop where
  blank : fb.BLANK = List.replicate fb.ENTRY_SIZE 0xFF
  small : fb.ENTRY_SIZE ≤ 0x1000
  shape : ∀ write, ∃ o₁ p₁ o₂ p₂, fb.ops write = (.erase, .program o₁ p₁, .program o₂ p₂) ∧
    o₁.toNat + p₁.len ≤ fb.ENTRY_SIZE ∧ o₂.toNat + p₂.len ≤ fb.ENTRY_SIZE ∧
    overlay fb.BLANK o₁.toNat p₁.slice = fb.body write.entry ∧
    overlay (fb.body write.entry) o₂.toNat p₂.slice = fb.encode write.entry

/-- The update protocol: erase the sector, program the body, program the commit word,
and read the entry back after each. -/
def phases (write : Write fb.Entry) (base : Nat) (erase : Cmd)
    (body commit : (Flash → Bool) → Phase) : List Phase :=
  [⟨[erase], fun f => decide (Nor.read f base fb.ENTRY_SIZE = fb.BLANK)⟩,
    body fun f => decide (Nor.read f base fb.ENTRY_SIZE = fb.body write.entry),
    commit fun f => decide (Nor.read f base fb.ENTRY_SIZE = fb.encode write.entry ∧
      fb.decode (Nor.read f base fb.ENTRY_SIZE) = some write.entry)]

def DecodeEncode : Prop := ∀ e, fb.decode (fb.encode e) = some e

/-- Setting bits of an entry makes no entry that was not there before. -/
def DecodeWorn : Prop :=
  ∀ e raw raw' e', List.Forall₂ Within (fb.encode e) raw → List.Forall₂ Within raw raw' →
    fb.decode raw' = some e' → e' = e ∧ fb.decode raw = some e

/-- What a sector can hold: an entry, perhaps with bits set since. -/
def Worn (raw : Raw) : Prop := ∃ e, List.Forall₂ Within (fb.encode e) raw

/-! ### Decisions over the two entries -/

def Running (e : fb.Entry) : Prop := fb.state e = fb.VALID ∨ fb.state e = fb.PENDING_VERIFY

instance (e : fb.Entry) : Decidable (fb.Running e) := inferInstanceAs (Decidable (_ ∨ _))

def entryOf (entries : Raw × Raw) (sector : UInt8) : Option fb.Entry :=
  fb.decode (if sector = 0 then entries.1 else entries.2)

/-- The entries after a write. -/
def written (entries : Raw × Raw) (write : Write fb.Entry) : Raw × Raw :=
  if write.sector = 0 then (fb.encode write.entry, entries.2) else (entries.1, fb.encode write.entry)

theorem entryOf_written {fb : Fibewi} (h : fb.DecodeEncode) (entries : Raw × Raw)
    (write : Write fb.Entry) (sector : UInt8) :
    fb.entryOf (fb.written entries write) sector =
      if sector = 0 ↔ write.sector = 0 then some write.entry else fb.entryOf entries sector := by
  by_cases hs : sector = 0 <;> by_cases hw : write.sector = 0 <;>
    simp [entryOf, written, hs, hw, h write.entry]

section Written

variable {fb : Fibewi} {entries : Raw × Raw} {write : Write fb.Entry} {sector : UInt8} {e : fb.Entry}

theorem entryOf_congr {sector' : UInt8} (h : sector = 0 ↔ sector' = 0) :
    fb.entryOf entries sector = fb.entryOf entries sector' := by
  simp only [entryOf, h]

theorem written_same (hde : fb.DecodeEncode) :
    fb.entryOf (fb.written entries write) write.sector = some write.entry := by
  rw [entryOf_written hde, if_pos Iff.rfl]

theorem written_other (hde : fb.DecodeEncode) (hne : ¬ (sector = 0 ↔ write.sector = 0)) :
    fb.entryOf (fb.written entries write) sector = fb.entryOf entries sector := by
  rw [entryOf_written hde, if_neg hne]

theorem written_cases (hde : fb.DecodeEncode)
    (h : fb.entryOf (fb.written entries write) sector = some e) :
    (sector = 0 ↔ write.sector = 0) ∧ e = write.entry ∨
      ¬ (sector = 0 ↔ write.sector = 0) ∧ fb.entryOf entries sector = some e := by
  by_cases heq : sector = 0 ↔ write.sector = 0
  · rw [entryOf_congr heq, written_same hde] at h
    exact .inl ⟨heq, (Option.some.inj h).symm⟩
  · rw [written_other hde heq] at h
    exact .inr ⟨heq, h⟩

end Written

/-- Every decision is about one of the two sectors. -/
structure SectorLaw : Prop where
  confirm : ∀ {entries write}, fb.confirm entries = some write → write.sector < 2
  reject : ∀ {entries write}, fb.reject entries = some write → write.sector < 2
  activate : ∀ {entries i write}, fb.activate entries 2 i = some write → write.sector < 2
  planBoot : ∀ {entries tr plan}, Prog.Runs (fb.planBoot entries 2) tr plan →
    ∀ write ∈ plan.writes, write.sector < 2

/-- The plan asks about the two slots only, and boots one of them. -/
structure SlotLaw : Prop where
  asks : ∀ entries, (fb.planBoot entries 2).Only (· < 2)
  boots : ∀ {entries tr plan slot seq}, Prog.Runs (fb.planBoot entries 2) tr plan →
    plan.boot = .slot slot seq → slot < 2

structure ActivateLaw : Prop where
  newest : ∀ {entries i write sector e}, fb.activate entries 2 i = some write →
    fb.entryOf entries sector = some e → fb.seq e < fb.seq write.entry
  slot : ∀ {entries i write}, fb.activate entries 2 i = some write →
    fb.slotOf (fb.seq write.entry) 2 = i

/-- Confirming and rejecting rewrite the pending entry where it lies, and activating
spares the newest running entry. -/
structure TransitionLaw : Prop where
  confirm : ∀ {entries write}, fb.confirm entries = some write →
    ∃ e, fb.entryOf entries write.sector = some e ∧ fb.state e = fb.PENDING_VERIFY ∧
      fb.seq write.entry = fb.seq e ∧ fb.state write.entry = fb.VALID
  reject : ∀ {entries write}, fb.reject entries = some write →
    ∃ e, fb.entryOf entries write.sector = some e ∧ fb.state e = fb.PENDING_VERIFY ∧
      ¬ fb.Running write.entry
  activate : ∀ {entries i write}, fb.activate entries 2 i = some write →
    ¬ fb.Running write.entry ∧ ∀ e, fb.entryOf entries write.sector = some e → fb.Running e →
      ∃ e', fb.entryOf entries (1 - write.sector) = some e' ∧ fb.Running e' ∧ fb.seq e ≤ fb.seq e'

/-- The plan when `ok` answers for the image of each slot. -/
def planned (entries : Raw × Raw) (ok : UInt8 → Bool) : Plan fb.Entry :=
  ((fb.planBoot entries 2).run (fun s slot => (ok slot, s)) ()).1

def writtenAll (entries : Raw × Raw) (writes : List (Write fb.Entry)) : Raw × Raw :=
  writes.foldl fb.written entries

section WrittenAll

variable {fb : Fibewi} {entries : Raw × Raw} {writes : List (Write fb.Entry)} {sector : UInt8} {e : fb.Entry}

/-- An entry after the writes was there before, or is one of them. -/
theorem writtenAll_cases (hde : fb.DecodeEncode) (h : fb.entryOf (fb.writtenAll entries writes) sector = some e) :
    fb.entryOf entries sector = some e ∨ ∃ write ∈ writes, e = write.entry := by
  induction writes generalizing entries with
  | nil => exact .inl h
  | cons write rest ih =>
    rcases ih h with he | ⟨write', hmem, rfl⟩
    · rcases written_cases hde he with ⟨-, rfl⟩ | ⟨-, he⟩
      · exact .inr ⟨write, .head _, rfl⟩
      · exact .inl he
    · exact .inr ⟨write', .tail _ hmem, rfl⟩

theorem writtenAll_other (hde : fb.DecodeEncode) (hne : ∀ write ∈ writes, ¬ (sector = 0 ↔ write.sector = 0)) :
    fb.entryOf (fb.writtenAll entries writes) sector = fb.entryOf entries sector := by
  induction writes generalizing entries with
  | nil => rfl
  | cons write rest ih =>
    exact (ih fun write' hmem => hne write' (.tail _ hmem)).trans (written_other hde (hne write (.head _)))

end WrittenAll

/-- The plan boots the newest bootable entry whose image is accepted. A fallback
rewrites none of the entries it passes over. -/
structure PlanLaw (bootable : fb.Entry → Prop) : Prop where
  booted : ∀ {entries ok slot seq}, (fb.planned entries ok).boot = .slot slot seq →
    fb.slotOf seq 2 = slot ∧ ∃ sector e, sector < 2 ∧
      fb.entryOf (fb.writtenAll entries (fb.planned entries ok).writes) sector = some e ∧
      fb.Running e ∧ fb.seq e = seq
  kept : ∀ {entries ok slot seq sector e}, (fb.planned entries ok).boot = .slot slot seq →
    fb.entryOf (fb.writtenAll entries (fb.planned entries ok).writes) sector = some e →
    fb.Running e → seq < fb.seq e → fb.entryOf entries sector = some e
  highest : ∀ {entries ok slot seq sector e}, (fb.planned entries ok).boot = .slot slot seq →
    fb.entryOf entries sector = some e → bootable e → ok (fb.slotOf (fb.seq e) 2) = true →
    fb.seq e ≤ seq

/-- What was activated can be booted, and a plan boots an entry that is there, if there is one. -/
structure BootLaw (bootable : fb.Entry → Prop) : Prop where
  activated : ∀ {entries i write}, fb.activate entries 2 i = some write → bootable write.entry
  there : ∀ {entries ok slot seq}, (fb.planned entries ok).boot = .slot slot seq →
    (∃ sector e, fb.entryOf entries sector = some e ∧ fb.seq e = seq) ∨
      ∀ sector, fb.entryOf entries sector = none

/-- The plan boots an accepted image, marks only accepted ones as running, spares the valid entries of accepted
images, and halts only when there is none. On a first boot slot 0 is checked before it is made valid. -/
structure SparingLaw : Prop where
  booted : ∀ {entries ok slot seq}, (fb.planned entries ok).boot = .slot slot seq → ok slot = true
  marked : ∀ {entries ok write}, write ∈ (fb.planned entries ok).writes → fb.Running write.entry →
    ok (fb.slotOf (fb.seq write.entry) 2) = true
  spared : ∀ {entries ok write e}, write ∈ (fb.planned entries ok).writes →
    fb.entryOf entries write.sector = some e → fb.state e = fb.VALID → ok (fb.slotOf (fb.seq e) 2) = false
  halted : ∀ {entries ok why sector e}, (fb.planned entries ok).boot = .halt why →
    fb.entryOf entries sector = some e → fb.state e = fb.VALID → ok (fb.slotOf (fb.seq e) 2) = false
  first : ∀ {entries ok}, (∀ sector, fb.entryOf entries sector = none) → ok 0 = true →
    (∀ why, (fb.planned entries ok).boot ≠ .halt why) ∧
      ∀ write ∈ (fb.planned entries ok).writes, fb.state write.entry = fb.VALID

/-- Entries that can be booted, now or once they are confirmed. -/
def Live (bootable : fb.Entry → Prop) (e : fb.Entry) : Prop := bootable e ∨ fb.Running e

/-- A plan boots a bootable entry that is there, and no write of it brings one to life: what is live after it has
the sequence number of a live entry that it replaces. A first boot apart, where there is none. -/
structure RevivalLaw (bootable : fb.Entry → Prop) : Prop where
  valid : ∀ {e}, fb.state e = fb.VALID → bootable e
  rejected : ∀ {entries write}, fb.reject entries = some write → ¬ bootable write.entry
  booted : ∀ {entries ok slot seq}, (fb.planned entries ok).boot = .slot slot seq →
    (∃ sector e, fb.entryOf entries sector = some e ∧ bootable e ∧ fb.seq e = seq) ∨
      ∀ sector, fb.entryOf entries sector = none
  revived : ∀ {entries ok write}, write ∈ (fb.planned entries ok).writes → fb.Live bootable write.entry →
    (∃ e, fb.entryOf entries write.sector = some e ∧ fb.Live bootable e ∧ fb.seq write.entry = fb.seq e) ∨
      ∀ sector, fb.entryOf entries sector = none

/-- A plan confirms nothing: it makes an entry valid on a first boot only. -/
def TrialLaw : Prop :=
  ∀ entries ok, ∀ write ∈ (fb.planned entries ok).writes, fb.state write.entry = fb.VALID →
    ∀ sector, fb.entryOf entries sector = none

/-- A plan activates nothing: what it writes either runs or cannot be booted. -/
def StagingLaw (bootable : fb.Entry → Prop) : Prop :=
  ∀ entries ok, ∀ write ∈ (fb.planned entries ok).writes, bootable write.entry → fb.Running write.entry

/-- The operations of a write are on whole words, and an entry is read back at once. -/
structure WordLaw : Prop where
  size : fb.ENTRY_SIZE ≤ 256
  words : ∀ {write o₁ p₁ o₂ p₂}, fb.ops write = (.erase, .program o₁ p₁, .program o₂ p₂) →
    o₁.toNat % 4 = 0 ∧ p₁.len % 4 = 0 ∧ o₂.toNat % 4 = 0 ∧ p₂.len % 4 = 0

end Fibewi

end Espbewi
