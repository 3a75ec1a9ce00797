import Espbewi.Hardware.NorFlash

/-! `espbewi-partitions`, over the partition-table parser of `esp-bootloader-esp-idf`. -/

namespace Espbewi

open Lib Nor

/-- The partition kinds this workspace asks for. -/
inductive PartitionType
  | appOta0
  | appOta1
  | dataOta
  deriving DecidableEq

/-- The type and subtype bytes of a table record. -/
def PartitionType.raw : PartitionType → UInt8 × UInt8
  | .appOta0 => (0x00, 0x10)
  | .appOta1 => (0x00, 0x11)
  | .dataOta => (0x01, 0x00)

structure PartitionEntry where
  offset : UInt32
  len : UInt32
  label : String
  deriving DecidableEq

/-- The partition-table functions of `esp-bootloader-esp-idf`. `find` answers
`none` on an error, `some none` when no partition has the type. -/
structure EspIdf where
  Table : Type
  parse : List UInt8 → Option Table
  find : Table → PartitionType → Option (Option PartitionEntry)
  booted : Table → Option (Option PartitionEntry)

def PARTITION_TABLE_OFFSET : UInt32 := 0x8000
def PARTITION_TABLE_MAX_LEN : Nat := 0xC00

variable {ε : Type}

def readPartitionTable (idf : EspIdf) (e : ε) : ExceptT ε (Prog NorOp NorOp.Ans) idf.Table := do
  let bytes ← NorFlash.read PARTITION_TABLE_OFFSET PARTITION_TABLE_MAX_LEN e
  match idf.parse bytes with
  | some table => pure table
  | none => throw e

structure PartitionRange where
  offset : UInt32
  size : Nat
  deriving DecidableEq

inductive PartitionError
  | tableUnreadable
  | notFound
  | addressOverflow
  | unaligned
  | flash
  deriving DecidableEq

def findPartition (idf : EspIdf) (kind : PartitionType) :
    ExceptT PartitionError (Prog NorOp NorOp.Ans) PartitionRange := do
  let table ← readPartitionTable idf PartitionError.tableUnreadable
  match idf.find table kind with
  | none => throw .tableUnreadable
  | some none => throw .notFound
  | some (some entry) => return { offset := entry.offset, size := entry.len.toNat }

/-! ### Checked machine arithmetic

A `usize` of `w` bits is a natural number; what the code checks is checked here. -/

def tryUsize (w x : Nat) (e : ε) : Except ε Nat := if x < 2 ^ w then .ok x else .error e

def checkedAdd (w x y : Nat) (e : ε) : Except ε Nat := tryUsize w (x + y) e

def tryU32 (x : Nat) (e : ε) : Except ε UInt32 :=
  if x < 2 ^ 32 then .ok (UInt32.ofNat x) else .error e

section Ok

variable {α β : Type} {e : ε}

theorem bind_ok {x : Except ε α} {f : α → Except ε β} {b : β} :
    x >>= f = .ok b ↔ ∃ a, x = .ok a ∧ f a = .ok b := by
  cases x with
  | error e =>
    refine ⟨fun h => ?_, fun ⟨_, h, _⟩ => ?_⟩ <;> cases h
  | ok a => exact ⟨fun h => ⟨a, rfl, h⟩, fun ⟨_, rfl, h⟩ => h⟩

theorem unless_ok {c : Prop} [Decidable c] {f : PUnit → Except ε α} {k : Except ε α} {a : α} :
    (if c then throw e >>= f else k) = .ok a ↔ ¬ c ∧ k = .ok a := by
  by_cases hc : c
  · rw [if_pos hc]
    exact ⟨fun h => (by cases h), fun h => absurd hc h.1⟩
  · simp [hc]

theorem tryUsize_ok {w x y : Nat} : tryUsize w x e = .ok y ↔ x < 2 ^ w ∧ x = y := by
  rw [tryUsize]
  split <;> simp_all

theorem checkedAdd_ok {w x y z : Nat} : checkedAdd w x y e = .ok z ↔ x + y < 2 ^ w ∧ x + y = z :=
  tryUsize_ok

theorem tryU32_ok {x : Nat} {y : UInt32} : tryU32 x e = .ok y ↔ x < 2 ^ 32 ∧ y.toNat = x := by
  rw [tryU32]
  split
  · next h =>
    rw [Except.ok.injEq, ← UInt32.toNat_inj, UInt32.toNat_ofNat', Nat.mod_eq_of_lt h]
    exact ⟨fun heq => ⟨h, heq.symm⟩, fun heq => heq.2.symm⟩
  · next h => exact ⟨fun heq => (by cases heq), fun heq => absurd heq.1 h⟩

end Ok

/-- `F::ERASE_SIZE` and `F::WRITE_SIZE`. -/
structure Geometry where
  eraseSize : Nat
  writeSize : Nat
  erase_pos : 0 < eraseSize
  write_dvd : writeSize ∣ eraseSize

/-- `erase_range`: the absolute bounds to erase, or `none` for an empty range. -/
def eraseBounds (g : Geometry) (w : Nat) (partition : PartitionRange) (logicalFrom logicalTo : UInt64) :
    Except PartitionError (Option (UInt32 × UInt32)) := do
  if logicalTo < logicalFrom then throw .addressOverflow
  let fromOff ← tryUsize w logicalFrom.toNat .addressOverflow
  let toOff ← tryUsize w logicalTo.toNat .addressOverflow
  if fromOff % g.eraseSize ≠ 0 ∨ toOff % g.eraseSize ≠ 0 then throw .unaligned
  if toOff > partition.size then throw .addressOverflow
  if fromOff = toOff then return none
  let base ← tryUsize w partition.offset.toNat .addressOverflow
  let absoluteFrom ← checkedAdd w base fromOff .addressOverflow
  let absoluteTo ← checkedAdd w base toOff .addressOverflow
  return some (← tryU32 absoluteFrom .addressOverflow, ← tryU32 absoluteTo .addressOverflow)

def eraseRange (g : Geometry) (w : Nat) (partition : PartitionRange) (logicalFrom logicalTo : UInt64) :
    ExceptT PartitionError (Prog NorOp NorOp.Ans) Unit := do
  match ← Prog.ofExcept (eraseBounds g w partition logicalFrom logicalTo) with
  | none => pure ()
  | some (fromOff, toOff) => NorFlash.erase fromOff toOff .flash

end Espbewi
