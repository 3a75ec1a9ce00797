import Espbewi.Ota.Executor
import Espbewi.Ota.Sectors
import Espbewi.Bootloader.Executor
import Espbewi.Sample

/-! The two executors of an `otadata` update, on one flash. -/

namespace Espbewi.System

open Lib Nor Boot Hw Otadata

variable {idf : EspIdf} {fb : Fibewi} {b : Behaviour} {other : State → (o : HwOp) → o.Ans} {s : State}

/-- A program operation on whole words inside the entry. -/
structure WordFit (fb : Fibewi) (offset : UInt32) (data : Payload) : Prop where
  offset_word : offset.toNat % 4 = 0
  len_word : data.len % 4 = 0
  inside : offset.toNat + data.len ≤ fb.ENTRY_SIZE

/-- What both executors do to the sector at `base`. -/
def protocol (fb : Fibewi) (write : Write fb.Entry) (base o₁ o₂ : UInt32) (p₁ p₂ : Payload) :
    List Phase :=
  fb.phases write base.toNat (.erase base.toNat (base + SECTOR_SIZE).toNat)
    (.mk (NorFlash.programCmds (base + o₁) p₁.slice)) (.mk (NorFlash.programCmds (base + o₂) p₂.slice))

theorem app_update (hb : b.Readable) {write : Write fb.Entry} {o₁ o₂ : UInt32} {p₁ p₂ : Payload}
    (hops : fb.ops write = (.erase, .program o₁ p₁, .program o₂ p₂)) {ota : PartitionEntry}
    (hota : idf.lookupIn s.flash .dataOta = some ota) :
    let r := (ExceptT.run (execute idf fb write)).run (norDevice b) s
    (r.1.isOk, r.2.flash, r.2.log) =
      update b (protocol fb write (sectorAt ota.offset write.sector) o₁ o₂ p₁ p₂) s.flash s.log := by
  generalize hu : update b (protocol fb write (sectorAt ota.offset write.sector) o₁ o₂ p₁ p₂)
    s.flash s.log = u
  refine ((Prog.wp_iff ..).mp (wp_execute (C := fun _ => True) (Q := fun ok f log => (ok, f, log) = u)
    hops trivial ?_ ?_)).2
  · rintro (hr | hnone)
    · exact absurd hb hr
    · rw [hota] at hnone
      cases hnone
  · rintro p base hp rfl
    rw [hota] at hp
    cases hp
    exact updating_of_update hb hu

theorem boot_update (hb : b.Readable) (hunlock : ∀ s, other s .spiflashUnlock = true)
    {write : Write fb.Entry} (base : UInt32) {o₁ o₂ : UInt32} {p₁ p₂ : Payload}
    (hops : fb.ops write = (.erase, .program o₁ p₁, .program o₂ p₂))
    (haligned : base.toNat % 0x1000 = 0) (hinside : base.toNat + 0x1000 < 2 ^ 32)
    (hsize : fb.ENTRY_SIZE ≤ 256) (h₁ : WordFit fb o₁ p₁) (h₂ : WordFit fb o₂ p₂) :
    let r := (ExceptT.run (Bootloader.executeAt fb write base)).run (romDevice b other) s
    (r.1.isOk, r.2.flash, r.2.log) = update b (protocol fb write base o₁ o₂ p₁ p₂) s.flash s.log := by
  have herase : Cmd.erase ((base / Bootloader.SECTOR).toNat * 0x1000)
      (((base / Bootloader.SECTOR).toNat + 1) * 0x1000) =
      .erase base.toNat (base + SECTOR_SIZE).toNat := by
    have hdiv : (base / Bootloader.SECTOR).toNat = base.toNat / 0x1000 := UInt32.toNat_div ..
    have hadd : (base + SECTOR_SIZE).toNat = (base.toNat + 0x1000) % 2 ^ 32 := UInt32.toNat_add ..
    rw [hdiv, hadd, Cmd.erase.injEq]
    omega
  have hprogram : ∀ {o : UInt32} {p : Payload}, WordFit fb o p →
      programPhase (base + o) p.slice = .mk (NorFlash.programCmds (base + o) p.slice) := by
    intro o p h
    funext seen
    have := h.offset_word
    have := h.inside
    refine programPhase_eq ?_ ?_ ?_
    · rw [UInt32.toNat_add]
      omega
    · rw [Payload.slice_length, h.len_word]
    · rw [Payload.slice_length]
      omega
  generalize hu : update b (protocol fb write base o₁ o₂ p₁ p₂) s.flash s.log = u
  refine ((Prog.wp_iff ..).mp (Bootloader.wp_executeAt (C := fun _ => True)
    (Q := fun ok f log => (ok, f, log) = u) (by omega) hops trivial ?_ ?_)).2
  · intro hlocked
    rw [hunlock] at hlocked
    cases hlocked
  · rw [herase, hprogram h₁, hprogram h₂]
    exact updating_of_update hb hu

/-- The same commands in the same order, the same content, and success together. -/
structure SameOutcome {ε ε' : Type} (r : Except ε Unit × State) (r' : Except ε' Unit × State) : Prop where
  log : r.2.log = r'.2.log
  flash : r.2.flash = r'.2.flash
  ok : r.1.isOk = r'.1.isOk

/-- On a flash that can be read the bootloader's and the application's executor issue
the same commands, leave the same content and succeed together, whatever the commands do. -/
theorem executors_equivalent (hb : b.Readable) (hunlock : ∀ s, other s .spiflashUnlock = true)
    {write : Write fb.Entry} (hsector : write.sector < 2) {o₁ o₂ : UInt32} {p₁ p₂ : Payload}
    (hops : fb.ops write = (.erase, .program o₁ p₁, .program o₂ p₂)) (hsize : fb.ENTRY_SIZE ≤ 256)
    (h₁ : WordFit fb o₁ p₁) (h₂ : WordFit fb o₂ p₂) {layout : Bootloader.Layout}
    {ota : PartitionEntry} (hota : idf.lookupIn s.flash .dataOta = some ota)
    (hsame : ota.offset = layout.otadata.1) (haligned : layout.otadata.1.toNat % 0x1000 = 0)
    (hinside : layout.otadata.1.toNat + 0x2000 < 2 ^ 32) :
    SameOutcome ((ExceptT.run (Bootloader.execute fb write layout)).run (romDevice b other) s)
      ((ExceptT.run (execute idf fb write)).run (norDevice b) s) := by
  have hat := sectorAt_eq layout.otadata.1 hsector
  have hs : write.sector.toNat < 2 := hsector
  have happ := app_update (s := s) hb hops hota
  have hboot := boot_update (s := s) hb hunlock (sectorAt layout.otadata.1 write.sector) hops
    (by omega) (by omega) hsize h₁ h₂
  rw [hsame] at happ
  have heq := hboot.trans happ.symm
  simp only [Prod.mk.injEq] at heq
  exact ⟨heq.2.2, heq.2.1, heq.1⟩

theorem executors_equivalent_table :
    SameOutcome ((ExceptT.run (Bootloader.execute Sample.fibewi ⟨1, 3, Sample.VALID⟩
        ⟨(0xD000, 0x2000), (0x20000, 0x100000), (0x120000, 0x100000)⟩)).run
          (romDevice perfect (steady fun _ _ => none)) ⟨Sample.tableFlash Sample.table, [], 0⟩)
      ((ExceptT.run (execute firstMatch Sample.fibewi ⟨1, 3, Sample.VALID⟩)).run (norDevice perfect)
        ⟨Sample.tableFlash Sample.table, [], 0⟩) := by
  have hota : firstMatch.lookupIn (Sample.tableFlash Sample.table) .dataOta =
      some ⟨0xD000, 0x2000, ""⟩ := Sample.lookupIn_table .dataOta
  refine executors_equivalent perfect_readable (fun _ => rfl) (by decide) rfl (by decide) ?_ ?_ hota
    rfl (by decide) (by decide)
  · exact ⟨by decide, by decide, by decide⟩
  · exact ⟨by decide, by decide, by decide⟩

end Espbewi.System
