import Espbewi.Bootloader.Main
import Espbewi.Hardware.Rom
import Espbewi.Hardware.PartitionTable
import Espbewi.Ota.Otadata

/-! The bootloader's partition scan against the application's table lookups. -/

namespace Espbewi.Bootloader

open Lib Nor Hw PartitionTable

def Found.get (found : Found) : PartitionType → Option (UInt32 × UInt32)
  | .dataOta => found.otadata
  | .appOta0 => found.ota0
  | .appOta1 => found.ota1

/-! ### The scan keeps the last record of each kind -/

theorem record_get (found : Found) (entry : List UInt8) (kind : PartitionType) :
    (found.record entry).get kind =
      if hasKind kind entry then some (extent entry) else found.get kind := by
  unfold Found.record
  simp only [hasKind, beq_iff_eq]
  split <;> cases kind <;> simp_all [PartitionType.raw, Found.get, extent, PartitionTable.le32, le32]

theorem scan_get (l : List (List UInt8)) (found : Found) (kind : PartitionType) :
    (scan l found).get kind =
      (((l.takeWhile isRecord).reverse.find? (hasKind kind)).map extent).or (found.get kind) := by
  induction l generalizing found with
  | nil => rfl
  | cons entry rest ih =>
    have hmagic : isRecord entry = decide (le16 entry 0 = PARTITION_ENTRY_MAGIC) := rfl
    rw [scan, List.takeWhile_cons, hmagic]
    by_cases h : le16 entry 0 = PARTITION_ENTRY_MAGIC
    · simp only [h, ne_eq, not_true_eq_false, if_false, decide_true, if_true]
      rw [ih, record_get, List.reverse_cons, List.find?_append, List.find?_singleton]
      cases (List.takeWhile isRecord rest).reverse.find? (hasKind kind) <;>
        cases hasKind kind entry <;> rfl
    · simp [h]

theorem scan_last (table : List UInt8) (kind : PartitionType) :
    (scan (chunksExact 32 table) {}).get kind = last kind table := by
  rw [scan_get, last, records]
  cases kind <;> simp [Found.get]

/-- What a layout that `read_layout` accepts says about the table. -/
theorem layoutOf_ok {table : List UInt8} {layout : Layout} (h : layoutOf table = .ok layout) :
    last .dataOta table = some layout.otadata ∧ 2 * SECTOR ≤ layout.otadata.2 ∧
      last .appOta0 table = some layout.apps.1 ∧ last .appOta1 table = some layout.apps.2 := by
  unfold layoutOf at h
  split at h
  · cases h
  · have h₀ := scan_last table .dataOta
    have h₁ := scan_last table .appOta0
    have h₂ := scan_last table .appOta1
    simp only [Found.get] at h₀ h₁ h₂
    unfold Found.layout at h
    rw [h₀, h₁, h₂] at h
    revert h
    cases last .dataOta table with
    | none => intro h; cases h
    | some o =>
      by_cases hs : o.2 < 2 * SECTOR
      · intro h
        simp only [hs, if_true] at h
        cases h
      · cases last .appOta0 table with
        | none => intro h; simp only [hs, if_false] at h; cases h
        | some a₀ =>
          cases last .appOta1 table with
          | none => intro h; simp only [hs, if_false] at h; cases h
          | some a₁ =>
            intro h
            simp only [hs, if_false] at h
            cases h
            exact ⟨rfl, UInt32.not_lt.mp hs, rfl, rfl⟩

theorem first_isSome_of_last {kind : PartitionType} {table : List UInt8} {r : UInt32 × UInt32}
    (h : last kind table = some r) : ∃ r', first kind table = some r' := by
  rw [last, Option.map_eq_some_iff] at h
  obtain ⟨entry, hfind, -⟩ := h
  have hmem := List.mem_of_find?_eq_some hfind
  have hkind := List.find?_some hfind
  rw [first]
  cases hf : (records table).find? (hasKind kind) with
  | some e => exact ⟨extent e, rfl⟩
  | none =>
    have := List.find?_eq_none.mp hf entry (List.mem_reverse.mp hmem)
    exact absurd hkind this

theorem scan_records (l : List (List UInt8)) (found : Found) :
    scan l found = (l.takeWhile isRecord).foldl Found.record found := by
  induction l generalizing found with
  | nil => rfl
  | cons entry rest ih =>
    have hmagic : isRecord entry = decide (le16 entry 0 = PARTITION_ENTRY_MAGIC) := rfl
    rw [scan, List.takeWhile_cons, hmagic]
    by_cases h : le16 entry 0 = PARTITION_ENTRY_MAGIC
    · simp [h, ih]
    · simp [h]

theorem layoutOf_records {table : List UInt8} {rs : List (List UInt8)}
    (hlen : table.length = 0xC00) (hrs : records table = rs) (hne : rs ≠ []) :
    layoutOf table = (rs.foldl Found.record {}).layout := by
  have hfirst : le16 table 0 = PARTITION_ENTRY_MAGIC := by
    by_contra hbad
    apply hne
    have hmagic : isRecord (table.take 32) = false := by
      have : PartitionTable.le16 (table.take 32) 0 = le16 table 0 := by
        rw [PartitionTable.le16, le16, List.drop_zero, List.drop_zero, List.take_take]
        rfl
      rw [isRecord, this, beq_eq_false_iff_ne]
      exact hbad
    rw [← hrs, records, chunksExact, hlen]
    change List.takeWhile isRecord (table.take 32 :: chunks 32 95 (table.drop 32)) = []
    rw [List.takeWhile_cons, hmagic]
    rfl
  rw [layoutOf, if_neg (not_not.mpr hfirst), scan_records, ← hrs, records]

/-! ### `read_layout` over the ROM -/

section Rom

variable {b : Behaviour} {other : State → (o : HwOp) → o.Ans} {I : State → HwOp → Prop} {s : State}

/-- `flash_read` of the bootloader: no change, and a success is the flash content. -/
theorem wp_bootRead {offset : UInt32} {len : Nat} {Q : Except Stop (List UInt8) → State → Prop}
    (hlen : offset.toNat + len ≤ 2 ^ 32)
    (hI : ∀ k src n, I { s with reads := k } (.spiflashRead src n))
    (hok : ∀ k, Q (.ok (Nor.read s.flash offset.toNat len)) { s with reads := k })
    (herr : ¬ b.Readable → ∀ k e, Q (.error (.error e)) { s with reads := k }) :
    (ExceptT.run (flashRead offset len)).wp (romDevice b other) I Q s := by
  unfold flashRead
  rw [Prog.wp_adapt]
  refine wp_flashRead hlen hI (fun k => hok k) (fun hb k e => ?_)
  cases e <;> exact herr hb k _

theorem wp_flashReinit {Q : UInt32 → State → Prop}
    (hI : ∀ k o, Quiet o → I { s with reads := k } o) (hQ : ∀ k size, Q size { s with reads := k }) :
    flashReinit.wp (romDevice b other) I Q s := by
  unfold flashReinit flashSizeFromHeader
  rw [Prog.wp_bind, Prog.wp_try]
  refine wp_flashRead (by decide) (fun _ _ _ => hI _ _ rfl) (fun k => ?_) (fun _ k e => ?_)
  · exact ⟨hI k _ rfl, hQ k _⟩
  · exact ⟨hI k _ rfl, hQ k _⟩

theorem wp_readTable {Q : Except Stop (List UInt8) → State → Prop}
    (hI : ∀ k o, Quiet o → I { s with reads := k } o)
    (hok : ∀ k, Q (.ok (Nor.read s.flash 0x8000 0xC00)) { s with reads := k })
    (herr : ¬ b.Readable → ∀ k e, Q (.error (.error e)) { s with reads := k }) :
    (ExceptT.run readTable).wp (romDevice b other) I Q s := by
  unfold readTable
  rw [ExceptT.run_mk, Prog.wp_bind]
  refine wp_bootRead (by decide) (fun _ _ _ => hI _ _ rfl) (fun k => hok k) (fun hb k e => ?_)
  simp only
  rw [Prog.wp_bind]
  refine wp_flashReinit (fun k' o => hI k' o) (fun k' size => ?_)
  exact wp_bootRead (by decide) (fun _ _ _ => hI _ _ rfl) (fun k => hok k) (fun hb k e => herr hb k e)

theorem wp_readLayout {Q : Except Stop Layout → State → Prop}
    (hI : ∀ k o, Quiet o → I { s with reads := k } o)
    (hok : ∀ k, Q ((layoutOf (Nor.read s.flash 0x8000 0xC00)).mapError .error) { s with reads := k })
    (herr : ¬ b.Readable → ∀ k e, Q (.error (.error e)) { s with reads := k }) :
    (ExceptT.run readLayout).wp (romDevice b other) I Q s := by
  unfold readLayout
  rw [Prog.wp_try]
  refine wp_readTable hI (fun k => ?_) herr
  simp only
  rw [Prog.wp_adapt, Prog.wp_ofExcept]
  exact hok k

theorem readLayout_run (hb : b.Readable) :
    ((ExceptT.run readLayout).run (romDevice b other) s).1 =
      (layoutOf (Nor.read s.flash 0x8000 0xC00)).mapError .error := by
  generalize hr : (layoutOf (Nor.read s.flash 0x8000 0xC00)).mapError Stop.error = r
  refine Prog.run_of_wp (Q := fun r' _ => r' = r) (wp_readLayout (fun _ _ _ => trivial) ?_ ?_)
  · intro k
    exact hr
  · intro hnot
    exact absurd hb hnot

theorem layoutOf_of_readLayout {layout : Layout}
    (h : ((ExceptT.run readLayout).run (romDevice b other) s).1 = .ok layout) :
    layoutOf (Nor.read s.flash 0x8000 0xC00) = .ok layout := by
  have := Prog.run_of_wp (d := romDevice b other) (s := s) (p := ExceptT.run readLayout)
    (Q := fun r _ => ∀ layout, r = .ok layout →
      layoutOf (Nor.read s.flash 0x8000 0xC00) = .ok layout)
    (wp_readLayout (fun _ _ _ => trivial) (fun _ layout h => ?_) (fun _ _ _ _ h => by cases h))
  · exact this layout h
  · cases hl : layoutOf (Nor.read s.flash 0x8000 0xC00) with
    | error e => rw [hl] at h; cases h
    | ok l => rw [hl] at h; cases h; rfl

end Rom

end Espbewi.Bootloader
