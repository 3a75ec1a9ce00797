import Espbewi.Ota.OtadataLaws

/-! Where the two sectors of an `otadata` partition lie. -/

namespace Espbewi.Otadata

open Lib Nor Boot

theorem sector_cases {sector : UInt8} (h : sector < 2) : sector = 0 ∨ sector = 1 := by
  have h : sector.toNat < 2 := h
  rcases (by omega : sector.toNat = 0 ∨ sector.toNat = 1) with h | h
  · exact .inl (UInt8.toNat_inj.mp h)
  · exact .inr (UInt8.toNat_inj.mp h)

theorem sectorAt_eq (base : UInt32) {sector : UInt8} (h : sector < 2) :
    (sectorAt base sector).toNat = (base.toNat + sector.toNat * 0x1000) % 2 ^ 32 := by
  have hs : sector.toNat < 2 := h
  have hmul : (sector.toUInt32 * SECTOR_SIZE).toNat = sector.toNat * 0x1000 % 2 ^ 32 :=
    UInt32.toNat_mul ..
  rw [sectorAt, UInt32.toNat_add, hmul]
  omega

/-- Whole sectors, at least two of them, clear of the partition table. -/
structure Placed (p : PartitionEntry) : Prop where
  aligned : p.offset.toNat % 0x1000 = 0
  long : 0x2000 ≤ p.len.toNat
  apart : p.offset.toNat + p.len.toNat ≤ 0x8000 ∨ 0x8C00 ≤ p.offset.toNat

namespace Placed

variable {p : PartitionEntry} {sector sector' : UInt8}

theorem block (h : Placed p) (hs : sector < 2) :
    (sectorAt p.offset sector).toNat % 0x1000 = 0 ∧
      (sectorAt p.offset sector).toNat + 0x1000 ≤ 2 ^ 32 := by
  have haligned := h.aligned
  have hlt := p.offset.toNat_lt
  rw [sectorAt_eq _ hs]
  omega

theorem clear (h : Placed p) (hs : sector < 2) :
    (sectorAt p.offset sector).toNat + 0x1000 ≤ 0x8000 ∨
      0x8C00 ≤ (sectorAt p.offset sector).toNat := by
  have haligned := h.aligned
  have hlong := h.long
  have hapart := h.apart
  have hlt := p.offset.toNat_lt
  have hn : sector.toNat < 2 := hs
  rw [sectorAt_eq _ hs]
  omega

theorem disjoint (h : Placed p) (hs : sector < 2) (hs' : sector' < 2) (hne : sector ≠ sector') :
    (sectorAt p.offset sector).toNat + 0x1000 ≤ (sectorAt p.offset sector').toNat ∨
      (sectorAt p.offset sector').toNat + 0x1000 ≤ (sectorAt p.offset sector).toNat := by
  have haligned := h.aligned
  have hlt := p.offset.toNat_lt
  have hn : sector.toNat < 2 := hs
  have hn' : sector'.toNat < 2 := hs'
  have hne : sector.toNat ≠ sector'.toNat := fun h => hne (UInt8.toNat_inj.mp h)
  rw [sectorAt_eq _ hs, sectorAt_eq _ hs']
  omega

end Placed

end Espbewi.Otadata
