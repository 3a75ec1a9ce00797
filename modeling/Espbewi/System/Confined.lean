import Espbewi.Bootloader.Traces
import Espbewi.Ota.Sectors
import Espbewi.System.LayoutAgreement

/-! Where the updates of the boot entries erase and program. -/

namespace Espbewi.System

open Lib Nor Boot Hw Otadata Prog

/-- The command changes bytes of `[base, base + size)` only. -/
def Inside (base size : Nat) (c : Cmd) : Prop := ∀ x, c.Covers x → base ≤ x ∧ x < base + size

variable {fb : Fibewi}

/-! ### The bootloader -/

section Bootloader

open Bootloader

variable {layout : Layout} {write : Write fb.Entry}

theorem erase_inside_iff {base size sector : Nat} :
    Inside base size (.erase (sector * 0x1000) ((sector + 1) * 0x1000)) ↔
      base ≤ sector * 0x1000 ∧ (sector + 1) * 0x1000 ≤ base + size := by
  simp only [Inside, Cmd.Covers, Cmd.lo, Cmd.hi]
  constructor
  · intro h
    have hfirst := (h (sector * 0x1000) (by omega)).1
    have hlast := (h ((sector + 1) * 0x1000 - 1) (by omega)).2
    exact ⟨hfirst, by omega⟩
  · intro h x hx
    omega

/-- A run of `execute` that gets as far as the erase. -/
theorem runs_erase (hl : fb.OpsLaw) (layout : Layout) (write : Write fb.Entry) :
    ∃ tr e, Runs (ExceptT.run (Bootloader.execute fb write layout)) tr (.error e) ∧
      Cmd.erase (((sectorAt layout.otadata.1 write.sector) / SECTOR).toNat * 0x1000)
        ((((sectorAt layout.otadata.1 write.sector) / SECTOR).toNat + 1) * 0x1000) ∈ commands tr := by
  obtain ⟨o₁, p₁, o₂, p₂, hops, -⟩ := hl.shape write
  refine ⟨[⟨.spiflashUnlock, true⟩, ⟨.spiflashEraseSector _, false⟩],
    .error (.otadataWrite 0 (sectorAt layout.otadata.1 write.sector)), ?_, .head _⟩
  unfold Bootloader.execute Bootloader.executeAt
  rw [hops]
  exact .call (.call .ret)

theorem base_toNat {sector : UInt8} (hs : sector < 2) (base : UInt32) :
    (sectorAt base sector / SECTOR).toNat = (base.toNat + sector.toNat * 0x1000) % 2 ^ 32 / 0x1000 := by
  rw [UInt32.toNat_div, sectorAt_eq _ hs]
  rfl

/-- The erase of a sector stays inside the partition. -/
def EraseInside (base : UInt32) (size : Nat) (sector : UInt8) : Prop :=
  base.toNat ≤ (base.toNat + sector.toNat * 0x1000) % 2 ^ 32 / 0x1000 * 0x1000 ∧
    ((base.toNat + sector.toNat * 0x1000) % 2 ^ 32 / 0x1000 + 1) * 0x1000 ≤ base.toNat + size

theorem eraseInside_of_runs (hl : fb.OpsLaw) {e : fb.Entry} {sector : UInt8} (hs : sector < 2)
    (h : ∀ tr r, Runs (ExceptT.run (Bootloader.execute fb ⟨sector, e⟩ layout)) tr r →
      ∀ c ∈ commands tr, Inside layout.otadata.1.toNat layout.otadata.2.toNat c) :
    EraseInside layout.otadata.1 layout.otadata.2.toNat sector := by
  obtain ⟨tr, err, hrun, hmem⟩ := runs_erase hl layout ⟨sector, e⟩
  have := erase_inside_iff.mp (h tr _ hrun _ hmem)
  rwa [base_toNat hs] at this

theorem mem_opCommands {base : UInt32} {o : UInt32} {p : Payload} {n : Nat}
    (hin : o.toNat + p.len ≤ n) (hbase : base.toNat + n ≤ 2 ^ 32) {c : Cmd}
    (hc : c ∈ opCommands base (.program o p)) : c.Programs base.toNat (base.toNat + n) := by
  have hlt := o.toNat_lt
  by_cases hp : p.len = 0
  · have hnil : p.slice.length = 0 := by rw [Payload.slice_length, hp]
    change c ∈ chunkCmds (base + o) p.slice 0 at hc
    rw [chunkCmds, if_neg (by omega)] at hc
    cases hc
  · have hat : (base + o).toNat = base.toNat + o.toNat := by
      rw [UInt32.toNat_add]
      omega
    have := mem_chunkCmds (by rw [hat, Payload.slice_length]; omega) c hc
    rw [hat, Payload.slice_length] at this
    cases c with
    | erase lo hi => exact this
    | program a data =>
      simp only [Cmd.Programs] at this ⊢
      omega

theorem Inside.of_programs {base size lo hi : Nat} {c : Cmd} (h : c.Programs lo hi) (hlo : base ≤ lo)
    (hhi : hi ≤ base + size) : Inside base size c := by
  cases c with
  | erase => cases h
  | program a data =>
    intro x hx
    simp only [Cmd.Covers, Cmd.lo, Cmd.hi, Cmd.Programs] at hx h
    omega

theorem inside_of_aligned (hl : fb.OpsLaw) (haligned : layout.otadata.1.toNat % 0x1000 = 0)
    (hfits : layout.otadata.1.toNat + 0x2000 ≤ 2 ^ 32) (hlong : 0x2000 ≤ layout.otadata.2.toNat)
    (hs : write.sector < 2) {c : Cmd} (hc : c ∈ writeCommands fb layout write) :
    Inside layout.otadata.1.toNat layout.otadata.2.toNat c := by
  obtain ⟨o₁, p₁, o₂, p₂, hops, h₁, h₂, -⟩ := hl.shape write
  have hsmall := hl.small
  have hn : write.sector.toNat < 2 := hs
  have hbase := sectorAt_eq layout.otadata.1 hs
  unfold writeCommands at hc
  simp only [hops, List.mem_append] at hc
  rcases hc with hc | hc | hc
  · simp only [opCommands, List.mem_singleton] at hc
    subst hc
    rw [erase_inside_iff, base_toNat hs]
    omega
  · exact .of_programs (mem_opCommands h₁ (by omega) hc) (by omega) (by omega)
  · exact .of_programs (mem_opCommands h₂ (by omega) hc) (by omega) (by omega)

/-- The bootloader stays inside the `otadata` partition exactly on the tables that give it
an offset on a sector boundary, with two sectors inside the address space. -/
theorem boot_confined_iff (hl : fb.OpsLaw) {table : List UInt8} {layout : Layout}
    (h : layoutOf table = .ok layout) (e : fb.Entry) :
    (∀ sector : UInt8, sector < 2 → ∀ tr r,
      Runs (ExceptT.run (Bootloader.execute fb ⟨sector, e⟩ layout)) tr r →
        ∀ c ∈ commands tr, Inside layout.otadata.1.toNat layout.otadata.2.toNat c) ↔
    layout.otadata.1.toNat % 0x1000 = 0 ∧ layout.otadata.1.toNat + 0x2000 ≤ 2 ^ 32 := by
  have hlong := UInt32.le_iff_toNat_le.mp (layoutOf_ok h).2.1
  change 0x2000 ≤ _ at hlong
  constructor
  · intro hin
    have h₀ : EraseInside _ _ 0 := eraseInside_of_runs hl (by decide) (hin 0 (by decide))
    have h₁ : EraseInside _ _ 1 := eraseInside_of_runs hl (by decide) (hin 1 (by decide))
    have hlt := layout.otadata.1.toNat_lt
    simp only [EraseInside, show (0 : UInt8).toNat = 0 from rfl, show (1 : UInt8).toNat = 1 from rfl]
      at h₀ h₁
    omega
  · rintro ⟨haligned, hfits⟩ sector hs tr r hrun c hc
    exact inside_of_aligned hl haligned hfits hlong hs ((scripted_execute _ _ _ hrun).1.subset hc)

/-- The table with `data/ota` off a sector boundary. -/
def shifted : List (List UInt8) :=
  [Sample.tableRecord .dataOta 0xD100 0x2000, Sample.tableRecord .appOta0 0x20000 0x100000,
    Sample.tableRecord .appOta1 0x120000 0x100000]

theorem records_shifted :
    PartitionTable.records (Nor.read (Sample.tableFlash shifted) 0x8000 0xC00) = shifted := by
  rw [PartitionTable.records_read _ _ 96]
  decide +kernel

/-- The first update erases from `0xD000` on, in front of the partition. -/
theorem boot_escapes :
    let layout : Layout := ⟨(0xD100, 0x2000), (0x20000, 0x100000), (0x120000, 0x100000)⟩
    layoutOf (Nor.read (Sample.tableFlash shifted) 0x8000 0xC00) = .ok layout ∧
      ∃ tr r, Runs (ExceptT.run (Bootloader.execute Sample.fibewi ⟨0, ⟨1, Sample.VALID⟩⟩ layout)) tr r ∧
        ∃ c ∈ commands tr, ¬ Inside 0xD100 0x2000 c := by
  intro layout
  refine ⟨?_, ?_⟩
  · rw [layoutOf_records (read_length ..) records_shifted (by decide)]
    decide
  · obtain ⟨tr, err, hrun, hmem⟩ := runs_erase Sample.opsLaw layout ⟨0, ⟨1, Sample.VALID⟩⟩
    refine ⟨tr, _, hrun, _, hmem, fun h => ?_⟩
    have := (erase_inside_iff.mp h).1
    revert this
    decide

theorem boot_confined_table :
    let layout : Layout := ⟨(0xD000, 0x2000), (0x20000, 0x100000), (0x120000, 0x100000)⟩
    layoutOf (Nor.read (Sample.tableFlash Sample.table) 0x8000 0xC00) = .ok layout ∧
      ∀ sector : UInt8, sector < 2 → ∀ tr r, Runs (ExceptT.run (Bootloader.execute Sample.fibewi
        ⟨sector, ⟨1, Sample.VALID⟩⟩ layout)) tr r → ∀ c ∈ commands tr, Inside 0xD000 0x2000 c :=
  ⟨layoutOf_table, (boot_confined_iff Sample.opsLaw layoutOf_table ⟨1, Sample.VALID⟩).mpr
    ⟨by decide, by decide⟩⟩

end Bootloader

/-! ### The application -/

section Application

variable {idf : EspIdf} {write : Write fb.Entry} {b : Behaviour} {s : State} {p : PartitionEntry}

def programOffset : Op → Option UInt32
  | .erase => none
  | .program offset _ => some offset

/-- The sums that `read_at` and `execute` form in `u32`, in the order of the source. -/
def sums (fb : Fibewi) (base : UInt32) (write : Write fb.Entry) : List (UInt32 × UInt32) :=
  [(base, 0 * SECTOR_SIZE), (base, 1 * SECTOR_SIZE), (base, write.sector.toUInt32 * SECTOR_SIZE),
    (sectorAt base write.sector, SECTOR_SIZE)] ++
  [(fb.ops write).2.1, (fb.ops write).2.2].filterMap fun op =>
    (programOffset op).map fun offset => (sectorAt base write.sector, offset)

/-- None of them wraps around. -/
def NoWrap (fb : Fibewi) (base : UInt32) (write : Write fb.Entry) : Prop :=
  ∀ xy ∈ sums fb base write, xy.1.toNat + xy.2.toNat < 2 ^ 32

/-- Every erase and program of the run is inside the partition. -/
def Confined (idf : EspIdf) (fb : Fibewi) (b : Behaviour) (s : State) (p : PartitionEntry)
    (write : Write fb.Entry) : Prop :=
  ∀ s' o, (ExceptT.run (Otadata.execute idf fb write)).Issues (norDevice b) s s' o →
    ∀ c, o.cmd? = some c → Inside p.offset.toNat p.len.toNat c

/-- The commands of an operation, if it gets to the driver. -/
def OpInside (base : UInt32) (lo size : Nat) : Op → Prop
  | .erase => True
  | .program offset data => ∀ c, NorOp.cmd? (.write (base + offset) data.slice) = some c → Inside lo size c

theorem only_executeAt {base : UInt32} {lo size : Nat}
    (herase : Inside lo size (.erase base.toNat (base + SECTOR_SIZE).toNat))
    (hbody : OpInside base lo size (fb.ops write).2.1)
    (hcommit : OpInside base lo size (fb.ops write).2.2) :
    Only (fun o => ∀ c, NorOp.cmd? o = some c → Inside lo size c)
      (ExceptT.run (Otadata.executeAt fb write base)) := by
  have hread : ∀ n, Only (fun o => ∀ c, NorOp.cmd? o = some c → Inside lo size c)
      (ExceptT.run (NorFlash.read base n Error.verify)) := by
    intro n
    refine only_try (only_bind (only_op fun c hc => by cases hc) fun window => ?_) fun _ => trivial
    cases window <;> trivial
  unfold Otadata.executeAt
  generalize fb.ops write = ops at hbody hcommit
  obtain ⟨op, body, commit⟩ := ops
  cases op with
  | program offset data => trivial
  | erase =>
  refine only_try (only_check (only_op fun c hc => by cases hc; exact herase) _) fun _ => ?_
  refine only_try (hread _) fun back => only_unless ?_
  cases body with
  | erase => trivial
  | program offset data =>
  refine only_try (only_check (only_op fun c hc => hbody c hc) _) fun _ => only_try (hread _) fun back => only_unless ?_
  cases commit with
  | erase => trivial
  | program offset data =>
  refine only_try (only_check (only_op fun c hc => hcommit c hc) _) fun _ => only_try (hread _) fun back => ?_
  split <;> trivial

theorem erase_end (base : UInt32) : (base + SECTOR_SIZE).toNat = (base.toNat + 0x1000) % 2 ^ 32 :=
  UInt32.toNat_add ..

theorem sector_product {sector : UInt8} (hs : sector < 2) :
    (sector.toUInt32 * SECTOR_SIZE).toNat = sector.toNat * 0x1000 := by
  have hn : sector.toNat < 2 := hs
  have hmul : (sector.toUInt32 * SECTOR_SIZE).toNat = sector.toNat * 0x1000 % 2 ^ 32 := UInt32.toNat_mul ..
  omega

/-- On flash without faults the erase of the sector is issued. -/
theorem Confined.erase (h : Confined idf fb perfect s p write) (hl : fb.OpsLaw)
    (hp : idf.lookupIn s.flash .dataOta = some p) : Inside p.offset.toNat p.len.toNat
      (.erase (sectorAt p.offset write.sector).toNat (sectorAt p.offset write.sector + SECTOR_SIZE).toNat) := by
  obtain ⟨o₁, p₁, o₂, p₂, hops, -⟩ := hl.shape write
  have hwp := (wp_iff (norDevice perfect) (fun _ o => ∀ c, NorOp.cmd? o = some c →
    Inside p.offset.toNat p.len.toNat c) (ExceptT.run (Otadata.execute idf fb write))
    (fun _ _ => True) s).mpr ⟨h, trivial⟩
  unfold Otadata.execute at hwp
  rw [wp_try] at hwp
  have hexec := ((wp_iff ..).mp hwp).2
  simp only [readAt_run perfect_readable, hp] at hexec
  unfold Otadata.executeAt at hexec
  rw [hops] at hexec
  exact hexec.1 _ rfl

theorem room_of_confined (hl : fb.OpsLaw) (hp : idf.lookupIn s.flash .dataOta = some p)
    (hs : write.sector < 2) (h : Confined idf fb perfect s p write) (hwrap : NoWrap fb p.offset write) :
    (write.sector.toNat + 1) * 0x1000 ≤ p.len.toNat ∧
      p.offset.toNat + (write.sector.toNat + 1) * 0x1000 < 2 ^ 32 := by
  have hn : write.sector.toNat < 2 := hs
  have hbase := sectorAt_eq p.offset hs
  have hfirst : p.offset.toNat + (write.sector.toUInt32 * SECTOR_SIZE).toNat < 2 ^ 32 :=
    hwrap (p.offset, write.sector.toUInt32 * SECTOR_SIZE) (by simp [sums])
  have hlast : (sectorAt p.offset write.sector).toNat + 0x1000 < 2 ^ 32 :=
    hwrap (sectorAt p.offset write.sector, SECTOR_SIZE) (by simp [sums])
  rw [sector_product hs] at hfirst
  have hx := (h.erase hl hp ((sectorAt p.offset write.sector).toNat + 0xFFF) (by
    simp only [Cmd.Covers, Cmd.lo, Cmd.hi, erase_end]
    omega)).2
  omega

theorem confined_of_room (hl : fb.OpsLaw) (hp : idf.lookupIn s.flash .dataOta = some p)
    (hs : write.sector < 2) (hlen : (write.sector.toNat + 1) * 0x1000 ≤ p.len.toNat)
    (hfits : p.offset.toNat + (write.sector.toNat + 1) * 0x1000 < 2 ^ 32) :
    Confined idf fb b s p write := by
  have hn : write.sector.toNat < 2 := hs
  have hbase := sectorAt_eq p.offset hs
  have hsmall := hl.small
  obtain ⟨o₁, p₁, o₂, p₂, hops, h₁, h₂, -⟩ := hl.shape write
  have hprogram : ∀ {o : UInt32} {q : Payload}, o.toNat + q.len ≤ fb.ENTRY_SIZE →
      OpInside (sectorAt p.offset write.sector) p.offset.toNat p.len.toNat (.program o q) := by
    intro o q hq c hc
    simp only [NorOp.cmd?] at hc
    split at hc
    · cases hc
    · cases hc
      intro x hx
      simp only [Cmd.Covers, Cmd.lo, Cmd.hi, Payload.slice_length] at hx
      rw [UInt32.toNat_add] at hx
      omega
  refine ((wp_iff ..).mp (?_ : wp (norDevice b) (fun _ o => ∀ c, NorOp.cmd? o = some c →
    Inside p.offset.toNat p.len.toNat c) _ (fun _ _ => True) s)).1
  unfold Otadata.execute
  rw [wp_try]
  refine wp_readAt (fun k offset len c hc => by cases hc) (fun p' k hp' => ?_) fun _ _ => trivial
  rw [hp] at hp'
  cases hp'
  change wp _ _ (ExceptT.run (Otadata.executeAt fb write (sectorAt p.offset write.sector))) _ _
  refine (only_executeAt ?_ ?_ ?_).wp (fun _ _ h => h) _
  · intro x hx
    simp only [Cmd.Covers, Cmd.lo, Cmd.hi, erase_end] at hx
    omega
  · rw [hops]
    exact hprogram h₁
  · rw [hops]
    exact hprogram h₂

theorem noWrap_of_room (hl : fb.OpsLaw) (hs : write.sector < 2)
    (hfits : p.offset.toNat + (write.sector.toNat + 1) * 0x1000 < 2 ^ 32) : NoWrap fb p.offset write := by
  have hn : write.sector.toNat < 2 := hs
  have hbase := sectorAt_eq p.offset hs
  have hsmall := hl.small
  have hproduct := sector_product hs
  have hzero : (0 * SECTOR_SIZE).toNat = 0 := rfl
  have hone : (1 * SECTOR_SIZE).toNat = 0x1000 := rfl
  have hsector : SECTOR_SIZE.toNat = 0x1000 := rfl
  obtain ⟨o₁, p₁, o₂, p₂, hops, h₁, h₂, -⟩ := hl.shape write
  intro xy hxy
  simp only [sums, hops, programOffset, List.filterMap_cons, List.filterMap_nil, Option.map_some,
    List.cons_append, List.nil_append, List.mem_cons, List.not_mem_nil, or_false] at hxy
  rcases hxy with rfl | rfl | rfl | rfl | rfl | rfl <;> simp only <;> omega

/-- The application stays inside the partition it finds, with no sum wrapping around, exactly
when the partition is long enough for the sector and ends inside the address space there. -/
theorem app_confined_iff (hl : fb.OpsLaw) (hp : idf.lookupIn s.flash .dataOta = some p)
    (hs : write.sector < 2) :
    ((∀ b, Confined idf fb b s p write) ∧ NoWrap fb p.offset write) ↔
      (write.sector.toNat + 1) * 0x1000 ≤ p.len.toNat ∧
        p.offset.toNat + (write.sector.toNat + 1) * 0x1000 < 2 ^ 32 :=
  ⟨fun h => room_of_confined hl hp hs (h.1 perfect) h.2,
    fun h => ⟨fun _ => confined_of_room hl hp hs h.1 h.2, noWrap_of_room hl hs h.2⟩⟩

/-- The partition of the sample table. -/
def roomy : PartitionEntry := ⟨0xD000, 0x2000, ""⟩

theorem app_confined_table :
    (∀ b, Confined firstMatch Sample.fibewi b ⟨Sample.tableFlash Sample.table, [], 0⟩ roomy ⟨1, ⟨2, Sample.NEW⟩⟩) ∧
      NoWrap Sample.fibewi roomy.offset ⟨1, ⟨2, Sample.NEW⟩⟩ := by
  have hp : firstMatch.lookupIn (Sample.tableFlash Sample.table) .dataOta = some roomy :=
    Sample.lookupIn_table .dataOta
  have hiff := @app_confined_iff Sample.fibewi firstMatch ⟨1, ⟨2, Sample.NEW⟩⟩
    ⟨Sample.tableFlash Sample.table, [], 0⟩ roomy Sample.opsLaw hp (by decide)
  refine hiff.mpr ⟨?_, ?_⟩
  · show 2 * 0x1000 ≤ 0x2000
    omega
  · show 0xD000 + 2 * 0x1000 < 2 ^ 32
    omega

/-- The table with an `otadata` partition of one sector. -/
def short : List (List UInt8) :=
  [Sample.tableRecord .dataOta 0xD000 0x1000, Sample.tableRecord .appOta0 0x20000 0x100000,
    Sample.tableRecord .appOta1 0x120000 0x100000]

/-- An update of sector 1 erases `0xE000` to `0xF000`, behind the partition. -/
theorem app_escapes :
    firstMatch.lookupIn (Sample.tableFlash short) .dataOta = some ⟨0xD000, 0x1000, ""⟩ ∧
      ¬ Confined firstMatch Sample.fibewi perfect ⟨Sample.tableFlash short, [], 0⟩ ⟨0xD000, 0x1000, ""⟩
        ⟨1, ⟨2, Sample.NEW⟩⟩ := by
  have hrecords : PartitionTable.records (Nor.read (Sample.tableFlash short) 0x8000 0xC00) = short := by
    rw [PartitionTable.records_read _ _ 96]
    decide +kernel
  have hlookup : firstMatch.lookupIn (Sample.tableFlash short) .dataOta = some ⟨0xD000, 0x1000, ""⟩ := by
    rw [EspIdf.lookupIn_of_parse .dataOta (t := short) (congrArg some hrecords)]
    decide
  refine ⟨hlookup, fun h => ?_⟩
  have hcovers : (Cmd.erase 0xE000 0xF000).Covers 0xE000 := by
    simp only [Cmd.Covers, Cmd.lo, Cmd.hi]
    omega
  have hinside : Inside 0xD000 0x1000 (.erase 0xE000 0xF000) := h.erase Sample.opsLaw hlookup
  have := (hinside 0xE000 hcovers).2
  omega

end Application

end Espbewi.System
