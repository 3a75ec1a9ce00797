import Espbewi.Hardware.Partitions

/-! `espbewi-ota`: slots, their partitions, and the artifact storage over one of them. -/

namespace Espbewi

open Lib Nor

inductive AppSlot
  | ota0
  | ota1
  deriving DecidableEq

namespace AppSlot

def fromName : String → Option AppSlot
  | "ota_0" => some .ota0
  | "ota_1" => some .ota1
  | _ => none

def asStr : AppSlot → String
  | .ota0 => "ota_0"
  | .ota1 => "ota_1"

def other : AppSlot → AppSlot
  | .ota0 => .ota1
  | .ota1 => .ota0

def subtype : AppSlot → PartitionType
  | .ota0 => .appOta0
  | .ota1 => .appOta1

end AppSlot

structure AppPartition where
  slot : AppSlot
  offset : UInt32
  size : Nat
  deriving DecidableEq

/-- `find_app_partition`; its error type folds every other failure into `tableUnreadable`. -/
def findAppPartition (idf : EspIdf) (slot : AppSlot) :
    ExceptT PartitionError (Prog NorOp NorOp.Ans) AppPartition := do
  let range ← (findPartition idf slot.subtype).adapt fun e =>
    match e with
    | .notFound => .notFound
    | _ => .tableUnreadable
  return { slot, offset := range.offset, size := range.size }

inductive FlashWriteError
  | scratchTooSmall
  | addressOverflow
  | unaligned
  | flash
  deriving DecidableEq

def erasePartitionRange (g : Geometry) (w : Nat) (partition : AppPartition)
    (logicalFrom logicalTo : UInt64) : ExceptT FlashWriteError (Prog NorOp NorOp.Ans) Unit :=
  (eraseRange g w { offset := partition.offset, size := partition.size } logicalFrom logicalTo).adapt
    fun e => match e with
      | .addressOverflow => .addressOverflow
      | .unaligned => .unaligned
      | _ => .flash

/-- The storage without the flash and the scratch buffer it borrows. -/
structure EspArtifactStorage where
  partitionOffset : UInt32
  partitionSize : Nat
  eraseBeforeWrite : Bool
  deriving DecidableEq

namespace EspArtifactStorage

variable (g : Geometry) (w : Nat)

def newWithEraseMode (partition : AppPartition) (scratch : List UInt8) (eraseBeforeWrite : Bool) :
    Except FlashWriteError EspArtifactStorage :=
  if scratch.length < g.eraseSize then .error .scratchTooSmall
  else .ok { partitionOffset := partition.offset, partitionSize := partition.size, eraseBeforeWrite }

def new (partition : AppPartition) (scratch : List UInt8) : Except FlashWriteError EspArtifactStorage :=
  newWithEraseMode g partition scratch true

def newPreErased (partition : AppPartition) (scratch : List UInt8) :
    Except FlashWriteError EspArtifactStorage :=
  newWithEraseMode g partition scratch false

/-- `bytes.len().div_ceil(WRITE_SIZE) * WRITE_SIZE`. -/
def padded (len : Nat) : Nat := (len + g.writeSize - 1) / g.writeSize * g.writeSize

/-- The checks `flush_block` makes before it fills the scratch buffer. -/
def blockOffset (st : EspArtifactStorage) (logicalOffset : UInt64) (bytes scratch : List UInt8) :
    Except FlashWriteError Nat := do
  if bytes.length > g.eraseSize then throw .flash
  let logical ← tryUsize w logicalOffset.toNat .addressOverflow
  if logical % g.eraseSize ≠ 0 then throw .unaligned
  let eraseLogicalEnd ← checkedAdd w logical g.eraseSize .addressOverflow
  if eraseLogicalEnd > st.partitionSize then throw .addressOverflow
  if padded g bytes.length > g.eraseSize ∨ padded g bytes.length > scratch.length then
    throw .scratchTooSmall
  return logical

def fillScratch (bytes scratch : List UInt8) : List UInt8 :=
  bytes ++ List.replicate (padded g bytes.length - bytes.length) 0 ++ scratch.drop (padded g bytes.length)

/-- The absolute bounds of the erase block. -/
def blockBounds (st : EspArtifactStorage) (logical : Nat) : Except FlashWriteError (UInt32 × UInt32) := do
  let base ← tryUsize w st.partitionOffset.toNat .addressOverflow
  let absolute ← checkedAdd w base logical .addressOverflow
  let eraseEnd ← checkedAdd w absolute g.eraseSize .addressOverflow
  return (← tryU32 absolute .addressOverflow, ← tryU32 eraseEnd .addressOverflow)

/-- What `flush_block` issues once its bounds are known. -/
def flushAt (st : EspArtifactStorage) (absolute eraseEnd : UInt32) (block : List UInt8) :
    ExceptT FlashWriteError (Prog NorOp NorOp.Ans) Unit := do
  if st.eraseBeforeWrite then NorFlash.erase absolute eraseEnd FlashWriteError.flash
  NorFlash.write absolute block FlashWriteError.flash

/-- `flush_block`: the result and the scratch buffer it leaves. -/
def flushBlock (st : EspArtifactStorage) (logicalOffset : UInt64) (bytes scratch : List UInt8) :
    NorProg (Except FlashWriteError Unit × List UInt8) :=
  match blockOffset g w st logicalOffset bytes scratch with
  | .error e => pure (.error e, scratch)
  | .ok logical =>
    let scratch := fillScratch g bytes scratch
    match blockBounds g w st logical with
    | .error e => pure (.error e, scratch)
    | .ok (absolute, eraseEnd) =>
      ExceptT.run (flushAt st absolute eraseEnd (scratch.take (padded g bytes.length))) >>= fun r =>
        pure (r, scratch)

def writeLoop (st : EspArtifactStorage) (durableOffset : UInt64) (pending : List UInt8)
    (consumed : Nat) (scratch : List UInt8) :
    NorProg (Except FlashWriteError UInt64 × List UInt8) :=
  if pending.length - consumed ≥ g.eraseSize then
    let stop := consumed + g.eraseSize
    flushBlock g w st (durableOffset + UInt64.ofNat consumed)
        ((pending.drop consumed).take g.eraseSize) scratch >>= fun
      | (.error e, scratch) => pure (.error e, scratch)
      | (.ok _, scratch) => writeLoop st durableOffset pending stop scratch
  else pure (.ok (durableOffset + UInt64.ofNat consumed), scratch)
termination_by pending.length - consumed
decreasing_by
  have := g.erase_pos
  omega

def write (st : EspArtifactStorage) (durableOffset : UInt64) (pending scratch : List UInt8) :
    NorProg (Except FlashWriteError UInt64 × List UInt8) :=
  writeLoop g w st durableOffset pending 0 scratch

def finish (st : EspArtifactStorage) (durableOffset : UInt64) (pending scratch : List UInt8) :
    NorProg (Except FlashWriteError UInt64 × List UInt8) :=
  if pending = [] then pure (.ok durableOffset, scratch)
  else if pending.length ≥ g.eraseSize then pure (.error .flash, scratch)
  else flushBlock g w st durableOffset pending scratch >>= fun
    | (.error e, scratch) => pure (.error e, scratch)
    | (.ok _, scratch) => pure (.ok (durableOffset + UInt64.ofNat pending.length), scratch)

end EspArtifactStorage

end Espbewi
