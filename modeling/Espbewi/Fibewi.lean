import Espbewi.Lib.Prog
import Espbewi.Hardware.Platform

/-! What the workspace uses of the `fibewi` crate: the types it matches on, and its
functions as the fields of a structure the rest of the development is generic in. -/

namespace Espbewi

open Lib Platform

namespace Boot

/-- `boot::Raw`, the bytes of one entry as they lie in flash. -/
abbrev Raw := List UInt8

/-- `data[..len]` of a program operation. -/
structure Payload where
  data : List UInt8
  len : Nat
  fits : len ≤ data.length

def Payload.slice (p : Payload) : List UInt8 := p.data.take p.len

@[simp] theorem Payload.slice_length (p : Payload) : p.slice.length = p.len := by
  simp [Payload.slice, p.fits]

inductive Op
  | erase
  | program (offset : UInt32) (bytes : Payload)

structure Write (Entry : Type) where
  sector : UInt8
  entry : Entry
  deriving DecidableEq

inductive Halt
  | noImage
  | noUsableEntry
  deriving DecidableEq

inductive Decision
  | slot (slot : UInt8) (seq : UInt32)
  | halt (why : Halt)
  deriving DecidableEq

structure Plan (Entry : Type) where
  boot : Decision
  writes : List (Write Entry)
  deriving DecidableEq

/-- One segment of an application image. -/
structure Segment where
  load : UInt32
  len : UInt32
  dataOffset : UInt32
  deriving DecidableEq

structure Image where
  entry : UInt32
  segments : List Segment
  deriving DecidableEq

end Boot

open Boot

/-- The `fibewi::boot` module. `decode` answers `some e` for `Decoded::Ok(e)`. -/
structure Fibewi where
  Entry : Type
  entryDecEq : DecidableEq Entry
  seq : Entry → UInt32
  state : Entry → UInt32
  NEW : UInt32
  PENDING_VERIFY : UInt32
  VALID : UInt32
  INVALID : UInt32
  ABORTED : UInt32
  ENTRY_SIZE : Nat
  BLANK : Raw
  decode : Raw → Option Entry
  encode : Entry → Raw
  body : Entry → Raw
  ops : Write Entry → Op × Op × Op
  slotOf : UInt32 → UInt8 → UInt8
  confirm : Raw × Raw → Option (Write Entry)
  reject : Raw × Raw → Option (Write Entry)
  activate : Raw × Raw → UInt8 → UInt8 → Option (Write Entry)
  planBoot : Raw × Raw → UInt8 → Prog UInt8 (fun _ => Bool) (Plan Entry)
  ramTarget : Segment → MemoryMap → Option UInt32

instance (fb : Fibewi) : DecidableEq fb.Entry := fb.entryDecEq

end Espbewi
