import Espbewi.Hardware.Boot

/-! The second-stage bootloader. A jump to the application is the result `ok entry`. -/

namespace Espbewi.Bootloader

open Lib Boot Hw Platform

def PARTITION_TABLE_OFFSET : UInt32 := 0x8000
def PARTITION_TABLE_LEN : Nat := 0xC00
def PARTITION_ENTRY_MAGIC : Nat := 0x50AA
def SECTOR : UInt32 := 0x1000
def SLOT_COUNT : UInt8 := 2

inductive BootError
  | flashRead (addr : UInt32)
  | noPartitionTable
  | missingPartition (which : UInt32)
  | halt (why : UInt32)
  | otadataWrite (step addr : UInt32)
  | image
  | mmu (rc : Int32)
  deriving DecidableEq

/-- How `boot` ends without a jump: an error, or an array index out of bounds. -/
inductive Stop
  | error (e : BootError)
  | panic
  deriving DecidableEq

abbrev BootM (α : Type) := ExceptT Stop (Prog HwOp HwOp.Ans) α

def fail {α : Type} (e : BootError) : BootM α := throw (.error e)

def call (o : HwOp) : BootM o.Ans := ExceptT.lift (hwOp o)

def le16 (b : List UInt8) (i : Nat) : Nat := ofLe ((b.drop i).take 2)

def le32 (b : List UInt8) (i : Nat) : UInt32 := UInt32.ofNat (ofLe ((b.drop i).take 4))

def flashRead (offset : UInt32) (len : Nat) : BootM (List UInt8) :=
  (Hw.flashRead offset len).adapt fun e => match e with
    | .read addr => .error (.flashRead addr)
    | _ => .error (.flashRead offset)

def setFlashSize : BootM Unit := do
  let _ ← setFlashSizeFromHeader.adapt fun e => match e with
    | .read addr => Stop.error (.flashRead addr)
    | _ => Stop.error (.flashRead 0)

/-! ### Flash layout -/

/-- (offset, size) of the three partitions. -/
structure Layout where
  otadata : UInt32 × UInt32
  apps : (UInt32 × UInt32) × (UInt32 × UInt32)
  deriving DecidableEq

/-- `layout.apps[usize::from(slot)]`. -/
def Layout.app (layout : Layout) (slot : UInt8) : BootM (UInt32 × UInt32) :=
  match slot with
  | 0 => pure layout.apps.1
  | 1 => pure layout.apps.2
  | _ => throw .panic

structure Found where
  otadata : Option (UInt32 × UInt32) := none
  ota0 : Option (UInt32 × UInt32) := none
  ota1 : Option (UInt32 × UInt32) := none
  deriving DecidableEq

def Found.record (found : Found) (entry : List UInt8) : Found :=
  let here := some (le32 entry 4, le32 entry 8)
  match entry.getD 2 0, entry.getD 3 0 with
  | 0x01, 0x00 => { found with otadata := here }
  | 0x00, 0x10 => { found with ota0 := here }
  | 0x00, 0x11 => { found with ota1 := here }
  | _, _ => found

/-- The loop over the records, with its `break` at the first bad magic. -/
def scan : List (List UInt8) → Found → Found
  | [], found => found
  | entry :: rest, found =>
    if le16 entry 0 ≠ PARTITION_ENTRY_MAGIC then found else scan rest (found.record entry)

def Found.layout (found : Found) : Except BootError Layout := do
  let some otadata := found.otadata | throw (.missingPartition 1)
  if otadata.2 < 2 * SECTOR then throw (.missingPartition 1)
  let some ota0 := found.ota0 | throw (.missingPartition 2)
  let some ota1 := found.ota1 | throw (.missingPartition 3)
  return { otadata, apps := (ota0, ota1) }

/-- What `read_layout` makes of the table it has read. -/
def layoutOf (table : List UInt8) : Except BootError Layout :=
  if le16 table 0 ≠ PARTITION_ENTRY_MAGIC then .error .noPartitionTable
  else (scan (chunksExact 32 table) {}).layout

def readTable : BootM (List UInt8) :=
  ExceptT.mk <| ExceptT.run (flashRead PARTITION_TABLE_OFFSET PARTITION_TABLE_LEN) >>= fun
    | .ok table => pure (.ok table)
    | .error _ => flashReinit >>= fun _ =>
      ExceptT.run (flashRead PARTITION_TABLE_OFFSET PARTITION_TABLE_LEN)

def readLayout : BootM Layout := do
  let table ← readTable
  (Prog.ofExcept (layoutOf table)).adapt Stop.error

/-! ### Boot entries -/

variable (fb : Fibewi)

def readOtadata (layout : Layout) : BootM (Raw × Raw) := do
  let raw₀ ← flashRead (layout.otadata.1 + 0 * SECTOR) fb.ENTRY_SIZE
  let raw₁ ← flashRead (layout.otadata.1 + 1 * SECTOR) fb.ENTRY_SIZE
  return (raw₀, raw₁)

/-- `execute`, once `base` is the address of the sector to write. -/
def executeAt (write : Write fb.Entry) (base : UInt32) : BootM Unit := do
  let failed (step : UInt32) : Stop := .error (.otadataWrite step base)
  let (op, body, commit) := fb.ops write
  flashUnlock.adapt fun _ => failed 0
  -- 0. erase, and see it erased
  let .erase := op | throw (failed 0)
  (flashEraseSector (base / SECTOR)).adapt fun _ => failed 0
  let back ← flashRead base fb.ENTRY_SIZE
  if back ≠ fb.BLANK then throw (failed 0)
  -- 1. the body, and see exactly the body
  let .program offset data := body | throw (failed 1)
  (flashProgram (base + offset) data.slice).adapt fun _ => failed 1
  let back ← flashRead base fb.ENTRY_SIZE
  if back ≠ fb.body write.entry then throw (failed 1)
  -- 2. the commit word, on its own
  let .program offset data := commit | throw (failed 2)
  (flashProgram (base + offset) data.slice).adapt fun _ => failed 2
  let back ← flashRead base fb.ENTRY_SIZE
  if back ≠ fb.encode write.entry ∨ fb.decode back ≠ some write.entry then throw (failed 2)

def execute (write : Write fb.Entry) (layout : Layout) : BootM Unit :=
  executeAt fb write (layout.otadata.1 + write.sector.toUInt32 * SECTOR)

def executeAll (layout : Layout) : List (Write fb.Entry) → BootM Unit
  | [] => pure ()
  | write :: rest => do
    execute fb write layout
    executeAll layout rest

/-! ### Booting -/

def validate (layout : Layout) (map : MemoryMap) (slot : UInt8) : BootM (Option Image) := do
  let (offset, size) ← layout.app slot
  call (.validate offset size map)

/-- `plan_boot` with `image_ok` answering its questions. -/
def runPlan {α : Type} (layout : Layout) (map : MemoryMap) : Prog UInt8 (fun _ => Bool) α → BootM α
  | .ret plan => pure plan
  | .call slot k => do
    let image ← validate layout map slot
    runPlan layout map (k image.isSome)

def plannedSlot (boot : Decision) : Except BootError UInt8 :=
  match boot with
  | .slot slot _ => .ok slot
  | .halt .noImage => .error (.halt 1)
  | .halt .noUsableEntry => .error (.halt 2)

def copyLoop (seg : Segment) (target : UInt32) (copied : Nat) : BootM Unit :=
  if copied < seg.len.toNat then do
    let n := min (seg.len.toNat - copied) 256
    let chunk ← flashRead (seg.dataOffset + UInt32.ofNat copied) n
    call (.copyNonoverlapping (target + UInt32.ofNat copied) chunk)
    copyLoop seg target (copied + n)
  else pure ()
termination_by seg.len.toNat - copied
decreasing_by omega

/-- Copies the RAM segments. -/
def copySegments (map : MemoryMap) : List Segment → BootM Unit
  | [] => pure ()
  | seg :: rest => do
    match fb.ramTarget seg map with
    | some target => copyLoop seg target 0
    | none => pure ()
    copySegments map rest

def divCeil (a b : UInt32) : UInt32 := a / b + if a % b > 0 then 1 else 0

/-- (virtual page, flash page, number of pages) of a flash-mapped segment. -/
def mmuPages (map : MemoryMap) (seg : Segment) : UInt32 × UInt32 × UInt32 :=
  let vaddr := seg.load &&& ~~~(map.mmuPage - 1)
  let paddr := seg.dataOffset &&& ~~~(map.mmuPage - 1)
  (vaddr, paddr, divCeil (seg.len + (seg.load - vaddr)) map.mmuPage)

def mapSegment (map : MemoryMap) (seg : Segment) : BootM Unit :=
  if map.isFlashMapped seg.load then do
    let (vaddr, paddr, pages) := mmuPages map seg
    let rc ← ExceptT.lift <|
      if map.drom.contains seg.load then mapDrom vaddr paddr pages else mapIrom vaddr paddr pages
    if rc ≠ 0 then fail (.mmu rc)
  else pure ()

/-- Maps the DROM and IROM segments. -/
def mapSegments (map : MemoryMap) : List Segment → BootM Unit
  | [] => pure ()
  | seg :: rest => do
    mapSegment map seg
    mapSegments map rest

def nonEmpty (image : Image) : List Segment := image.segments.filter fun seg => seg.len > 0

/-- `load` from the validated image on. -/
def place (map : MemoryMap) (image : Image) : BootM UInt32 := do
  copySegments fb map (nonEmpty image)
  let autoload ← ExceptT.lift cacheBeginMapping
  mapSegments map (nonEmpty image)
  ExceptT.lift (cacheFinishMapping autoload)
  ExceptT.lift (delayUs 50000)
  return image.entry

def load (map : MemoryMap) (layout : Layout) (slot : UInt8) : BootM UInt32 := do
  match ← validate layout map slot with
  | some image => place fb map image
  | none => fail .image

/-- `boot` up to the plan. -/
def plan (map : MemoryMap) : BootM (Layout × Plan fb.Entry) := do
  setFlashSize
  let layout ← readLayout
  let entries ← readOtadata fb layout
  let plan ← runPlan layout map (fb.planBoot entries SLOT_COUNT)
  return (layout, plan)

/-- `boot` up to the call of `load`: the layout and the slot to load. -/
def prepare (map : MemoryMap) : BootM (Layout × UInt8) := do
  let (layout, plan) ← plan fb map
  let slot ← (Prog.ofExcept (plannedSlot plan.boot)).adapt Stop.error
  executeAll fb layout plan.writes
  return (layout, slot)

def boot (map : MemoryMap) : BootM UInt32 := do
  let (layout, slot) ← prepare fb map
  load fb map layout slot

end Espbewi.Bootloader
