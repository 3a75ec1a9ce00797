import Espbewi.Ota.Otadata
import Espbewi.Hardware.PartitionTable

namespace Espbewi.Otadata

open Lib Nor Boot

/-! ### Reading the entries -/

/-- Address of the sector with the given index in an `otadata` partition at `base`. -/
def sectorAt (base : UInt32) (sector : UInt8) : UInt32 := base + sector.toUInt32 * SECTOR_SIZE

variable (idf : EspIdf) (fb : Fibewi)

def rawAt (f : Flash) (base : UInt32) (sector : UInt8) : Raw :=
  Nor.read f (sectorAt base sector).toNat fb.ENTRY_SIZE

def entriesAt (f : Flash) (base : UInt32) : Entries := (rawAt fb f base 0, rawAt fb f base 1)

section Read

variable {idf fb} {b : Behaviour} {I : State → NorOp → Prop} {s : State}

theorem wp_locate {Q : Except Error PartitionEntry → State → Prop}
    (hI : ∀ k offset len, I { s with reads := k } (.read offset len))
    (hok : ∀ p k, idf.lookupIn s.flash .dataOta = some p → Q (.ok p) { s with reads := k })
    (herr : (¬ b.Readable ∨ idf.lookupIn s.flash .dataOta = none) →
      ∀ k, Q (.error .unavailable) { s with reads := k }) :
    (ExceptT.run (locate idf)).wp (norDevice b) I Q s := by
  unfold locate
  rw [Prog.wp_try]
  refine wp_readPartitionTable hI (fun t k ht => ?_) (fun h k => ?_)
  · have hlookup := EspIdf.lookupIn_of_parse .dataOta ht
    simp only
    cases hf : idf.find t .dataOta with
    | none => exact herr (.inr (by rw [hlookup, hf]; rfl)) _
    | some entry => cases entry with
      | none => exact herr (.inr (by rw [hlookup, hf]; rfl)) _
      | some entry => exact hok entry _ (by rw [hlookup, hf]; rfl)
  · exact herr (h.imp_right EspIdf.lookupIn_of_parse_none) _

theorem wp_readAt {Q : Except Error (UInt32 × Entries) → State → Prop}
    (hI : ∀ k offset len, I { s with reads := k } (.read offset len))
    (hok : ∀ p k, idf.lookupIn s.flash .dataOta = some p →
      Q (.ok (p.offset, entriesAt fb s.flash p.offset)) { s with reads := k })
    (herr : (¬ b.Readable ∨ idf.lookupIn s.flash .dataOta = none) →
      ∀ k, Q (.error .unavailable) { s with reads := k }) :
    (ExceptT.run (readAt idf fb)).wp (norDevice b) I Q s := by
  unfold readAt
  rw [Prog.wp_try]
  refine wp_locate hI (fun p k hp => ?_) herr
  simp only
  rw [Prog.wp_try]
  refine NorFlash.wp_read (hI _ _ _) ?_ (fun hr => herr (.inl hr) _)
  simp only
  rw [Prog.wp_try]
  exact NorFlash.wp_read (hI _ _ _) (hok p _ hp) (fun hr => herr (.inl hr) _)

theorem wp_readEntries {Q : Except Error Entries → State → Prop}
    (hI : ∀ k offset len, I { s with reads := k } (.read offset len))
    (hok : ∀ p k, idf.lookupIn s.flash .dataOta = some p →
      Q (.ok (entriesAt fb s.flash p.offset)) { s with reads := k })
    (herr : (¬ b.Readable ∨ idf.lookupIn s.flash .dataOta = none) →
      ∀ k, Q (.error .unavailable) { s with reads := k }) :
    (ExceptT.run (readEntries idf fb)).wp (norDevice b) I Q s := by
  unfold readEntries
  rw [Prog.wp_try]
  exact wp_readAt hI (fun p k hp => hok p k hp) (fun h k => herr h k)

theorem readEntries_run (hb : b.Readable) {p : PartitionEntry}
    (hp : idf.lookupIn s.flash .dataOta = some p) :
    ((ExceptT.run (readEntries idf fb)).run (norDevice b) s).1 =
      .ok (entriesAt fb s.flash p.offset) := by
  refine Prog.run_of_wp (Q := fun r _ => r = _) (wp_readEntries (fun _ _ _ => trivial) ?_ ?_)
  · intro p' k hp'
    rw [hp] at hp'
    cases hp'
    rfl
  · rintro (hr | hnone)
    · exact absurd hb hr
    · rw [hp] at hnone
      cases hnone

theorem wp_findAppPartition {slot : AppSlot} {Q : Except PartitionError AppPartition → State → Prop}
    (hI : ∀ k offset len, I { s with reads := k } (.read offset len))
    (hok : ∀ entry k, idf.lookupIn s.flash slot.subtype = some entry →
      Q (.ok ⟨slot, entry.offset, entry.len.toNat⟩) { s with reads := k })
    (herr : (¬ b.Readable ∨ idf.lookupIn s.flash slot.subtype = none) →
      ∀ err k, Q (.error err) { s with reads := k }) :
    (ExceptT.run (findAppPartition idf slot)).wp (norDevice b) I Q s := by
  unfold findAppPartition
  rw [Prog.wp_try, Prog.wp_adapt]
  exact wp_findPartition hI (fun entry k h => hok entry k h) (fun h err k => herr h _ k)

theorem wp_writeTarget {Q : Except Error AppPartition → State → Prop}
    (hI : ∀ k offset len, I { s with reads := k } (.read offset len))
    (hok : ∀ p slot entry k, idf.lookupIn s.flash .dataOta = some p →
      targetSlot fb (entriesAt fb s.flash p.offset) = some slot →
      idf.lookupIn s.flash slot.subtype = some entry →
      Q (.ok ⟨slot, entry.offset, entry.len.toNat⟩) { s with reads := k })
    (herr : (¬ b.Readable ∨ ∀ p slot entry, idf.lookupIn s.flash .dataOta = some p →
      targetSlot fb (entriesAt fb s.flash p.offset) = some slot →
      idf.lookupIn s.flash slot.subtype ≠ some entry) →
      ∀ k, Q (.error .unavailable) { s with reads := k }) :
    (ExceptT.run (writeTarget idf fb)).wp (norDevice b) I Q s := by
  unfold writeTarget
  rw [Prog.wp_try]
  refine wp_readEntries hI (fun p k hp => ?_) (fun hlost k => herr (hlost.imp_right ?_) k)
  · simp only
    cases ht : targetSlot fb (entriesAt fb s.flash p.offset) with
    | none => exact herr (.inr fun p' _ _ hp' ht' => by
        rw [hp] at hp'; cases hp'; rw [ht] at ht'; cases ht') k
    | some slot =>
      simp only
      rw [Prog.wp_adapt]
      refine wp_findAppPartition (fun k => hI k) (fun entry k he => hok p slot entry k hp ht he)
        (fun hlost _ k => herr (hlost.imp_right fun hnone p' slot' entry hp' ht' he => ?_) k)
      rw [hp] at hp'
      cases hp'
      rw [ht] at ht'
      cases ht'
      rw [hnone] at he
      cases he
  · intro hnone p _ _ hp
    rw [hnone] at hp
    cases hp

theorem writeTarget_run (hb : b.Readable) {p entry : PartitionEntry} {slot : AppSlot}
    (hp : idf.lookupIn s.flash .dataOta = some p)
    (hslot : targetSlot fb (entriesAt fb s.flash p.offset) = some slot)
    (hentry : idf.lookupIn s.flash slot.subtype = some entry) :
    ∃ s', (ExceptT.run (writeTarget idf fb)).run (norDevice b) s =
      (.ok ⟨slot, entry.offset, entry.len.toNat⟩, s') ∧ s'.flash = s.flash := by
  have := Prog.run_of_wp (d := norDevice b) (s := s) (p := ExceptT.run (writeTarget idf fb))
    (Q := fun r s' => r = .ok ⟨slot, entry.offset, entry.len.toNat⟩ ∧ s'.flash = s.flash)
    (wp_writeTarget (fun _ _ _ => trivial) (fun p' slot' entry' k hp' hslot' hentry' => ?_)
      (fun hlost k => ?_))
  · exact ⟨_, Prod.ext this.1 rfl, this.2⟩
  · rw [hp] at hp'
    cases hp'
    rw [hslot] at hslot'
    cases hslot'
    rw [hentry] at hentry'
    cases hentry'
    exact ⟨rfl, rfl⟩
  · rcases hlost with hr | hnone
    · exact absurd hb hr
    · exact absurd hentry (hnone p slot entry hp hslot)

end Read

/-- A target that `write_target` returns is the slot `targetSlot` picks, at the place
the partition table gives it. The flash is left as it was. -/
theorem writeTarget_ok {idf : EspIdf} {fb : Fibewi} {b : Behaviour} {s s' : State} {p : AppPartition}
    (h : (ExceptT.run (writeTarget idf fb)).run (norDevice b) s = (.ok p, s')) :
    s'.flash = s.flash ∧ ∃ ota entry, idf.lookupIn s.flash .dataOta = some ota ∧
      targetSlot fb (entriesAt fb s.flash ota.offset) = some p.slot ∧
      idf.lookupIn s.flash p.slot.subtype = some entry ∧
      p.offset = entry.offset ∧ p.size = entry.len.toNat := by
  have := Prog.run_of_wp (d := norDevice b) (s := s) (p := ExceptT.run (writeTarget idf fb))
    (Q := fun r s' => ∀ p, r = .ok p → s'.flash = s.flash ∧
      ∃ ota entry, idf.lookupIn s.flash .dataOta = some ota ∧
      targetSlot fb (entriesAt fb s.flash ota.offset) = some p.slot ∧
      idf.lookupIn s.flash p.slot.subtype = some entry ∧
      p.offset = entry.offset ∧ p.size = entry.len.toNat)
    (wp_writeTarget (fun _ _ _ => trivial)
      (fun ota slot entry k hota hslot hentry p hp => ?_) (fun _ k p hp => by cases hp))
  · rw [h] at this
    exact this p rfl
  · cases hp
    exact ⟨rfl, ota, entry, hota, hslot, hentry, rfl, rfl⟩

end Espbewi.Otadata
