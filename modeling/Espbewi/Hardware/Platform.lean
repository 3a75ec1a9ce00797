import Mathlib.Data.UInt

namespace Espbewi.Platform

/-- `core::ops::Range<u32>`. -/
structure Range where
  start : UInt32
  stop : UInt32
  deriving DecidableEq

def Range.contains (r : Range) (a : UInt32) : Bool := decide (r.start ≤ a) && decide (a < r.stop)

/-- Memory geometry required to validate and load an application image. -/
structure MemoryMap where
  chipId : UInt16
  drom : Range
  irom : Range
  iram : Range
  dram : Range
  rtc : Range
  sramAliasOffset : UInt32
  bootWindow : Range
  mmuPage : UInt32
  deriving DecidableEq

def MemoryMap.isFlashMapped (m : MemoryMap) (a : UInt32) : Bool :=
  m.drom.contains a || m.irom.contains a

def esp32c3 : MemoryMap where
  chipId := 0x0005
  drom := ⟨0x3C000000, 0x3C800000⟩
  irom := ⟨0x42000000, 0x42800000⟩
  iram := ⟨0x4037C000, 0x403E0000⟩
  dram := ⟨0x3FC80000, 0x3FCE0000⟩
  rtc := ⟨0x50000000, 0x50002000⟩
  sramAliasOffset := 0x00700000
  bootWindow := ⟨0x3FCCB000, 0x3FCE0000⟩
  mmuPage := 0x10000

def esp32s3 : MemoryMap where
  chipId := 0x0009
  drom := ⟨0x3C000000, 0x3D000000⟩
  irom := ⟨0x42000000, 0x42800000⟩
  iram := ⟨0x40370000, 0x403E0000⟩
  dram := ⟨0x3FC88000, 0x3FD00000⟩
  rtc := ⟨0x600FE000, 0x60100000⟩
  sramAliasOffset := 0x006F0000
  bootWindow := ⟨0x3FCC8000, 0x3FD00000⟩
  mmuPage := 0x10000

end Espbewi.Platform
