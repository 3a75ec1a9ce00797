import Espbewi.Fibewi
import Espbewi.Ota.Storage

/-! `espbewi-ota::otadata`: the boot entries as the application reads and updates them. -/

namespace Espbewi.Otadata

open Lib Nor Boot

def SLOT_COUNT : UInt8 := 2
def SECTOR_SIZE : UInt32 := 0x1000

inductive Error
  | unavailable
  | noTransition
  | verify
  deriving DecidableEq

abbrev Entries := Raw × Raw

def Entries.toList (e : Entries) : List Raw := [e.1, e.2]

abbrev OtaM (α : Type) := ExceptT Error (Prog NorOp NorOp.Ans) α

section Read

variable (idf : EspIdf) (fb : Fibewi)

/-- The table part of `read_at`. -/
def locate : OtaM PartitionEntry := do
  let table ← readPartitionTable idf Error.unavailable
  match idf.find table .dataOta with
  | some (some partition) => pure partition
  | _ => throw .unavailable

def readAt : OtaM (UInt32 × Entries) := do
  let partition ← locate idf
  let base := partition.offset
  let raw₀ ← NorFlash.read (base + 0 * SECTOR_SIZE) fb.ENTRY_SIZE Error.unavailable
  let raw₁ ← NorFlash.read (base + 1 * SECTOR_SIZE) fb.ENTRY_SIZE Error.unavailable
  return (base, raw₀, raw₁)

def readEntries : OtaM Entries := do
  let (_, entries) ← readAt idf fb
  return entries

/-- The partition actually booted, by its label. -/
def bootedSlot : OtaM String := do
  let table ← readPartitionTable idf Error.unavailable
  match idf.booted table with
  | some (some entry) => match entry.label with
    | "ota_0" => return "ota_0"
    | "ota_1" => return "ota_1"
    | "factory" => return "factory"
    | _ => throw .unavailable
  | _ => throw .unavailable

end Read

variable (idf : EspIdf) (fb : Fibewi)

/-- The entries `write_target` takes for a running image. -/
def isRunning (e : fb.Entry) : Bool :=
  fb.state e == fb.VALID || fb.state e == fb.PENDING_VERIFY

def runningSeqs (entries : Entries) : List UInt32 :=
  entries.toList.filterMap fun raw => match fb.decode raw with
    | some e => if isRunning fb e then some (fb.seq e) else none
    | none => none

def otherSlot (slot : UInt8) : Option AppSlot :=
  match slot with
  | 0 => some .ota1
  | 1 => some .ota0
  | _ => none

def targetSlot (entries : Entries) : Option AppSlot :=
  match (runningSeqs fb entries).max? with
  | some seq => otherSlot (fb.slotOf seq SLOT_COUNT)
  | none => none

def writeTarget : OtaM AppPartition := do
  let entries ← readEntries idf fb
  match targetSlot fb entries with
  | some target => (findAppPartition idf target).adapt fun _ => Error.unavailable
  | none => throw .unavailable

inductive BackendOutcome
  | pendingConfirmation
  | confirmed
  | other
  deriving DecidableEq

def imageOutcome (entries : Entries) : BackendOutcome :=
  let is (wanted : UInt32) := entries.toList.any fun raw => match fb.decode raw with
    | some e => fb.state e == wanted
    | none => false
  if is fb.PENDING_VERIFY then .pendingConfirmation
  else if is fb.VALID then .confirmed
  else .other

structure BootEntry where
  slot : String
  seq : UInt32
  state : String
  deriving DecidableEq

/-- `max_by_key(|e| e.seq)`: among equal keys the last one wins. -/
def maxBySeq : List fb.Entry → Option fb.Entry
  | [] => none
  | e :: es => match maxBySeq es with
    | none => some e
    | some m => if fb.seq e ≤ fb.seq m then some m else some e

def stateName (s : UInt32) : String :=
  if s = fb.NEW then "new"
  else if s = fb.PENDING_VERIFY then "pending_verify"
  else if s = fb.VALID then "valid"
  else if s = fb.INVALID then "invalid"
  else if s = fb.ABORTED then "aborted"
  else "unknown"

def bootEntry (entries : Entries) : Option BootEntry := do
  let entry ← maxBySeq fb (entries.toList.filterMap fb.decode)
  return {
    slot := match fb.slotOf (fb.seq entry) SLOT_COUNT with
      | 0 => "ota_0"
      | 1 => "ota_1"
      | _ => ""
    seq := fb.seq entry
    state := stateName fb (fb.state entry) }

/-- The part of `execute` after the partition is known; `base` is the sector's address. -/
def executeAt (write : Write fb.Entry) (base : UInt32) : OtaM Unit :=
  match fb.ops write with
  | (.erase, body, commit) => do
    NorFlash.erase base (base + SECTOR_SIZE) Error.verify
    let back ← NorFlash.read base fb.ENTRY_SIZE Error.verify
    if back ≠ fb.BLANK then throw .verify
    let .program offset data := body | throw .verify
    NorFlash.write (base + offset) data.slice Error.verify
    let back ← NorFlash.read base fb.ENTRY_SIZE Error.verify
    if back ≠ fb.body write.entry then throw .verify
    let .program offset data := commit | throw .verify
    NorFlash.write (base + offset) data.slice Error.verify
    let back ← NorFlash.read base fb.ENTRY_SIZE Error.verify
    if back ≠ fb.encode write.entry ∨ fb.decode back ≠ some write.entry then throw .verify
  | _ => throw .verify

def execute (write : Write fb.Entry) : OtaM Unit := do
  let (partitionBase, _) ← readAt idf fb
  executeAt fb write (partitionBase + write.sector.toUInt32 * SECTOR_SIZE)

/-- The transition `fibewi` decides from the entries, carried out. -/
def transition (decide : Entries → Option (Write fb.Entry)) : OtaM Unit := do
  let entries ← readEntries idf fb
  match decide entries with
  | some write => execute idf fb write
  | none => throw .noTransition

def confirm : OtaM Unit := transition idf fb fb.confirm

def reject : OtaM Unit := transition idf fb fb.reject

def slotIndex : AppSlot → UInt8
  | .ota0 => 0
  | .ota1 => 1

def activate (target : AppSlot) : OtaM Unit :=
  transition idf fb fun entries => fb.activate entries SLOT_COUNT (slotIndex target)

end Espbewi.Otadata
