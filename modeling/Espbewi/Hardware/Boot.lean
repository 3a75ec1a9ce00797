import Espbewi.Fibewi
import Espbewi.Lib.Bytes

/-! `espbewi-boot`: ROM flash access, cache and MMU mapping. The ESP32-C3 and the
ESP32-S3 modules agree in everything modelled here. -/

namespace Espbewi.Hw

open Lib Boot Platform

/-- What the boot code calls outside itself: the ROM, the image validator of
`fibewi`, and the copy into RAM. -/
inductive HwOp
  | spiflashRead (src len : UInt32)
  | spiflashWrite (dest : UInt32) (words : List UInt32) (len : UInt32)
  | spiflashEraseSector (sector : UInt32)
  | spiflashUnlock
  | setLegacyFlashSize (size : UInt32)
  | attachAndConfig (chipSize : UInt32)
  | cacheBegin
  | ibusMmuSet (vaddr paddr num : UInt32)
  | dbusMmuSet (vaddr paddr num : UInt32)
  | cacheFinish (autoload : UInt32)
  | validate (offset size : UInt32) (map : MemoryMap)
  | copyNonoverlapping (dst : UInt32) (bytes : List UInt8)
  | delayUs (us : UInt32)

@[reducible] def HwOp.Ans : HwOp → Type
  | .spiflashRead _ len => Option (Fin len.toNat → UInt8)
  | .spiflashWrite .. | .spiflashEraseSector _ | .spiflashUnlock => Bool
  | .cacheBegin => UInt32
  | .ibusMmuSet .. | .dbusMmuSet .. => Int32
  | .validate .. => Option Image
  | .setLegacyFlashSize _ | .attachAndConfig _ | .cacheFinish _
  | .copyNonoverlapping .. | .delayUs _ => Unit

inductive FlashError
  | read (addr : UInt32)
  | program (addr : UInt32)
  | erase (sector : UInt32)
  | unlock
  deriving DecidableEq

abbrev HwProg (α : Type) := Prog HwOp HwOp.Ans α
abbrev HwM (α : Type) := ExceptT FlashError (Prog HwOp HwOp.Ans) α

def hwOp (o : HwOp) : HwProg o.Ans := Prog.op o

/-- `out[at..at + bytes.len()].copy_from_slice(bytes)`. -/
def copyInto (out : List UInt8) (start : Nat) (bytes : List UInt8) : List UInt8 :=
  out.take start ++ bytes ++ out.drop (start + bytes.length)

/-- The windows of `flash_read`: each is at most 252 bytes wide, so that with the
unaligned head it still fits the 64-word window. -/
def readLoop (offset : UInt32) (len done : Nat) (out : List UInt8) :
    HwProg (Except FlashError Unit × List UInt8) :=
  if done < len then
    let pos := offset + UInt32.ofNat done
    let start := pos &&& ~~~3
    let skip := (pos - start).toNat
    let want := min (len - done) 252
    let words := (skip + want + 3) / 4
    hwOp (.spiflashRead start (UInt32.ofNat (words * 4))) >>= fun
      | none => pure (.error (.read start), out)
      | some window =>
        let bytes := List.ofFn window
        readLoop offset len (done + want) (copyInto out done ((bytes.drop skip).take want))
  else pure (.ok (), out)
termination_by len - done
decreasing_by omega

/-- `flash_read(offset, out)`: the result and the buffer it leaves. -/
def flashReadInto (offset : UInt32) (out : List UInt8) :
    HwProg (Except FlashError Unit × List UInt8) :=
  readLoop offset out.length 0 out

/-- `flash_read` into a fresh buffer of `len` bytes. -/
def flashRead (offset : UInt32) (len : Nat) : HwM (List UInt8) :=
  ExceptT.mk <| flashReadInto offset (List.replicate len 0) >>= fun
    | (.ok _, out) => pure (.ok out)
    | (.error e, _) => pure (.error e)

/-- The 64-word buffer of `flash_program`, filled from the front. -/
def fillWords (chunk : List UInt8) : List UInt32 :=
  (chunksExact 4 chunk).map (fun c => UInt32.ofNat (ofLe c)) ++
    List.replicate (64 - (chunksExact 4 chunk).length) 0

def programLoop (addr : UInt32) (data : List UInt8) (done : Nat) : HwM Unit :=
  if done < data.length then do
    let n := min (data.length - done) 256
    let words := fillWords ((data.drop done).take n)
    let dest := addr + UInt32.ofNat done
    Prog.check (hwOp (.spiflashWrite dest words (UInt32.ofNat n))) (FlashError.program dest)
    programLoop addr data (done + n)
  else pure ()
termination_by data.length - done
decreasing_by omega

def flashProgram (addr : UInt32) (data : List UInt8) : HwM Unit :=
  if addr &&& 3 ≠ 0 ∨ data.length &&& 3 ≠ 0 then throw (.program addr)
  else programLoop addr data 0

def flashUnlock : HwM Unit := Prog.check (hwOp .spiflashUnlock) .unlock

def flashEraseSector (sector : UInt32) : HwM Unit :=
  Prog.check (hwOp (.spiflashEraseSector sector)) (.erase sector)

/-- Flash size named by the upper half of byte 3 of the boot image header. -/
def headerFlashSize (b : UInt8) : UInt32 :=
  match b >>> 4 with
  | 0 => (1 : UInt32) <<< 20
  | 1 => (2 : UInt32) <<< 20
  | 2 => (4 : UInt32) <<< 20
  | 3 => (8 : UInt32) <<< 20
  | 4 => (16 : UInt32) <<< 20
  | _ => (4 : UInt32) <<< 20

def flashSizeFromHeader : HwM UInt32 := do
  let header ← flashRead 0 4
  return headerFlashSize (header.getD 3 0)

def setFlashSizeFromHeader : HwM UInt32 := do
  let size ← flashSizeFromHeader
  ExceptT.lift (hwOp (.setLegacyFlashSize size))
  return size

def flashReinit : HwProg UInt32 :=
  ExceptT.run flashSizeFromHeader >>= fun r =>
    let chipSize := match r with
      | .ok size => size
      | .error _ => (4 : UInt32) <<< 20
    hwOp (.attachAndConfig chipSize) >>= fun _ => pure chipSize

def cacheBeginMapping : HwProg UInt32 := hwOp .cacheBegin

def mapIrom (vaddr paddr pages : UInt32) : HwProg Int32 := hwOp (.ibusMmuSet vaddr paddr pages)

def mapDrom (vaddr paddr pages : UInt32) : HwProg Int32 := hwOp (.dbusMmuSet vaddr paddr pages)

def cacheFinishMapping (autoload : UInt32) : HwProg Unit := hwOp (.cacheFinish autoload)

def delayUs (us : UInt32) : HwProg Unit := hwOp (.delayUs us)

end Espbewi.Hw
