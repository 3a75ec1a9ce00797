import Espbewi.Bootloader.Layout
import Espbewi.Ota.OtadataLaws
import Espbewi.Sample

/-! The flash layout as the bootloader and as the running application see it. -/

namespace Espbewi.System

open Lib Nor Hw Bootloader Otadata PartitionTable

def partition (layout : Layout) : AppSlot → UInt32 × UInt32
  | .ota0 => layout.apps.1
  | .ota1 => layout.apps.2

/-- What the application looks up in `f` is what the bootloader works with. -/
structure Agrees (idf : EspIdf) (fb : Fibewi) (b : Behaviour) (f : Flash) (layout : Layout) : Prop where
  otadata : ∀ s : State, s.flash = f → ∃ entries,
    ((ExceptT.run (readAt idf fb)).run (norDevice b) s).1 = .ok (layout.otadata.1, entries)
  app : ∀ (s : State) (slot : AppSlot), s.flash = f →
    ((ExceptT.run (findAppPartition idf slot)).run (norDevice b) s).1 =
      .ok ⟨slot, (partition layout slot).1, (partition layout slot).2.toNat⟩

/-- The first and the last record of a kind name the same place. -/
structure Unambiguous (table : List UInt8) : Prop where
  otadata : (first .dataOta table).map Prod.fst = (last .dataOta table).map Prod.fst
  app : ∀ slot : AppSlot, first slot.subtype table = last slot.subtype table

section Lookups

variable {idf : EspIdf} {fb : Fibewi} {b : Behaviour}

theorem readAt_run (hb : b.Readable) (s : State) :
    ((ExceptT.run (readAt idf fb)).run (norDevice b) s).1 =
      match idf.lookupIn s.flash .dataOta with
      | some p => .ok (p.offset, entriesAt fb s.flash p.offset)
      | none => .error .unavailable := by
  refine Prog.run_of_wp (Q := fun r _ => r = _) (wp_readAt (fun _ _ _ => trivial) ?_ ?_)
  · intro p k hp
    rw [hp]
  · intro h k
    rw [h.resolve_left (not_not.mpr hb)]

theorem findAppPartition_run (hb : b.Readable) (slot : AppSlot) (s : State)
    {entry : PartitionEntry} (h : idf.lookupIn s.flash slot.subtype = some entry) :
    ((ExceptT.run (findAppPartition idf slot)).run (norDevice b) s).1 =
      .ok ⟨slot, entry.offset, entry.len.toNat⟩ := by
  refine Prog.run_of_wp (Q := fun r _ => r = _) (wp_findAppPartition (fun _ _ _ => trivial) ?_ ?_)
  · intro entry' k he
    rw [h] at he
    cases he
    rfl
  · intro hnone
    rcases hnone with hr | hnone
    · exact absurd hb hr
    · rw [h] at hnone
      cases hnone

end Lookups

theorem last_partition {table : List UInt8} {layout : Layout} (h : layoutOf table = .ok layout)
    (slot : AppSlot) : last slot.subtype table = some (partition layout slot) := by
  obtain ⟨-, -, h₀, h₁⟩ := layoutOf_ok h
  cases slot with
  | ota0 => exact h₀
  | ota1 => exact h₁

section Agreement

variable {idf : EspIdf} {fb : Fibewi} {b : Behaviour} {f : Flash} {layout : Layout}

theorem Agrees.unambiguous (hidf : idf.FirstMatch) (hb : b.Readable)
    (hl : layoutOf (Nor.read f 0x8000 0xC00) = .ok layout) (h : Agrees idf fb b f layout) :
    Unambiguous (Nor.read f 0x8000 0xC00) where
  otadata := by
    have hlast := (layoutOf_ok hl).1
    obtain ⟨p, hfirst⟩ := first_isSome_of_last hlast
    obtain ⟨entry, hentry, hextent⟩ := Option.map_eq_some_iff.mp
      ((hidf.lookupIn_extent f .dataOta).trans hfirst)
    obtain ⟨entries, hrun⟩ := h.otadata ⟨f, [], 0⟩ rfl
    rw [readAt_run hb, hentry] at hrun
    have hoffset : entry.offset = layout.otadata.1 := congrArg Prod.fst (Except.ok.inj hrun)
    rw [hfirst, hlast, ← hextent]
    exact congrArg some hoffset
  app slot := by
    have hlast := last_partition hl slot
    obtain ⟨p, hfirst⟩ := first_isSome_of_last hlast
    obtain ⟨entry, hentry, hextent⟩ := Option.map_eq_some_iff.mp
      ((hidf.lookupIn_extent f slot.subtype).trans hfirst)
    have hrun := h.app ⟨f, [], 0⟩ slot rfl
    rw [findAppPartition_run hb slot ⟨f, [], 0⟩ hentry] at hrun
    have hpart := Except.ok.inj hrun
    have hoffset : entry.offset = (partition layout slot).1 := congrArg AppPartition.offset hpart
    have hsize : entry.len.toNat = (partition layout slot).2.toNat := congrArg AppPartition.size hpart
    rw [hfirst, hlast, ← hextent]
    exact congrArg some (Prod.ext hoffset (UInt32.toNat_inj.mp hsize))

theorem Unambiguous.agrees (hidf : idf.FirstMatch) (hb : b.Readable)
    (hl : layoutOf (Nor.read f 0x8000 0xC00) = .ok layout)
    (h : Unambiguous (Nor.read f 0x8000 0xC00)) : Agrees idf fb b f layout where
  otadata s hs := by
    have hext := congrArg (Option.map Prod.fst) (hidf.lookupIn_extent f .dataOta)
    rw [h.otadata, (layoutOf_ok hl).1, Option.map_map] at hext
    obtain ⟨entry, hentry, hoffset⟩ := Option.map_eq_some_iff.mp hext
    refine ⟨entriesAt fb f entry.offset, ?_⟩
    rw [readAt_run hb, hs, hentry, ← hoffset]
    rfl
  app s slot hs := by
    have hext := hidf.lookupIn_extent f slot.subtype
    rw [h.app slot, last_partition hl slot] at hext
    obtain ⟨entry, hentry, hextent⟩ := Option.map_eq_some_iff.mp hext
    rw [findAppPartition_run hb slot s (hs ▸ hentry), ← hextent]

end Agreement

/-- The bootloader keeps the last record of each kind and the application takes the
first: they agree exactly on the tables where the two name the same place. -/
theorem layout_agrees_iff {idf : EspIdf} (hidf : idf.FirstMatch) (fb : Fibewi) {b bApp : Behaviour}
    (hb : bApp.Readable) {other : State → (o : HwOp) → o.Ans} {s : State} {layout : Layout}
    (h : ((ExceptT.run readLayout).run (romDevice b other) s).1 = .ok layout) :
    Agrees idf fb bApp s.flash layout ↔ Unambiguous (Nor.read s.flash 0x8000 0xC00) :=
  ⟨fun ha => ha.unambiguous hidf hb (layoutOf_of_readLayout h),
    fun hu => hu.agrees hidf hb (layoutOf_of_readLayout h)⟩

/-- A table whose second `data/ota` record lies elsewhere than the first. -/
def doubled : List (List UInt8) := Sample.table ++ [Sample.tableRecord .dataOta 0x10000 0x2000]

theorem layoutOf_table : layoutOf (Nor.read (Sample.tableFlash Sample.table) 0x8000 0xC00) =
    .ok ⟨(0xD000, 0x2000), (0x20000, 0x100000), (0x120000, 0x100000)⟩ := by
  rw [layoutOf_records (read_length ..) Sample.records_table (by decide)]
  decide

theorem layout_agrees_table :
    Agrees firstMatch Sample.fibewi perfect (Sample.tableFlash Sample.table)
        ⟨(0xD000, 0x2000), (0x20000, 0x100000), (0x120000, 0x100000)⟩ ↔
      Unambiguous (Nor.read (Sample.tableFlash Sample.table) 0x8000 0xC00) := by
  have hrun : ((ExceptT.run readLayout).run (romDevice perfect (steady fun _ _ => none))
      ⟨Sample.tableFlash Sample.table, [], 0⟩).1 =
        .ok ⟨(0xD000, 0x2000), (0x20000, 0x100000), (0x120000, 0x100000)⟩ := by
    rw [readLayout_run perfect_readable]
    exact congrArg _ layoutOf_table
  exact layout_agrees_iff firstMatch_firstMatch Sample.fibewi perfect_readable hrun

theorem records_doubled :
    records (Nor.read (Sample.tableFlash doubled) 0x8000 0xC00) = doubled := by
  rw [records_read _ _ 96]
  decide +kernel

/-- The bootloader takes `otadata` at `0x10000`, the application at `0xD000`. -/
theorem layout_disagreement :
    ((ExceptT.run readLayout).run (romDevice perfect (steady fun _ _ => none))
        ⟨Sample.tableFlash doubled, [], 0⟩).1 =
      .ok ⟨(0x10000, 0x2000), (0x20000, 0x100000), (0x120000, 0x100000)⟩ ∧
    firstMatch.lookupIn (Sample.tableFlash doubled) .dataOta = some ⟨0xD000, 0x2000, ""⟩ ∧
    ¬ Agrees firstMatch Sample.fibewi perfect (Sample.tableFlash doubled)
        ⟨(0x10000, 0x2000), (0x20000, 0x100000), (0x120000, 0x100000)⟩ := by
  have hlayout : layoutOf (Nor.read (Sample.tableFlash doubled) 0x8000 0xC00) =
      .ok ⟨(0x10000, 0x2000), (0x20000, 0x100000), (0x120000, 0x100000)⟩ := by
    rw [layoutOf_records (read_length ..) records_doubled (by decide)]
    decide
  refine ⟨?_, ?_, fun h => ?_⟩
  · rw [readLayout_run perfect_readable, hlayout]
    rfl
  · rw [EspIdf.lookupIn_of_parse .dataOta (t := doubled) (congrArg some records_doubled)]
    decide
  · have := (h.unambiguous firstMatch_firstMatch perfect_readable hlayout).otadata
    rw [first, last, records_doubled] at this
    revert this
    decide

end Espbewi.System
