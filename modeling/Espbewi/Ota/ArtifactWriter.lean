import Espbewi.Ota.Artifact

/-! `espbewi-ota::shared_flash`: the writer of one upload session. -/

namespace Espbewi

open Lib Nor

/-- Why `ArtifactWriter::finish` fails; `refused` stands for what else `fibewi` may object to. -/
inductive FinishError
  | incomplete (durable : UInt64)
  | backend (e : FlashWriteError)
  | refused
  deriving DecidableEq

/-- `fibewi::WriteSession`: its watermarks, what `append` and `finish` hand to the storage,
and what they make of its answer. -/
structure Engine where
  WriteSession : Type
  new : WriteSession
  received : WriteSession → UInt64
  durable : WriteSession → UInt64
  canAppend : WriteSession → Nat → Bool
  offer : WriteSession → List UInt8 → Option (UInt64 × List UInt8)
  settle : WriteSession → List UInt8 → Except FlashWriteError UInt64 → Bool × WriteSession
  close : WriteSession → UInt64 × List UInt8
  commit : WriteSession → Except FlashWriteError UInt64 → Except FinishError UInt64

structure ArtifactWriter where
  partition : AppPartition
  scratch : List UInt8
  erasedThrough : UInt64
  sectorsFlushed : UInt32
  eraseBatches : UInt32
  deriving DecidableEq

namespace ArtifactWriter

variable (g : Geometry) (w : Nat) (E : Engine)

def new (partition : AppPartition) : ArtifactWriter where
  partition := partition
  scratch := List.replicate g.eraseSize 0
  erasedThrough := 0
  sectorsFlushed := 0
  eraseBatches := 0

def eraseBatchSize : UInt64 := 64 * 1024

def divCeil (a b : UInt64) : UInt64 := a / b + if a % b > 0 then 1 else 0

def saturatingMul (a b : UInt64) : UInt64 := UInt64.ofNat (min (a.toNat * b.toNat) (2 ^ 64 - 1))

/-- How far the partition has to be erased to receive up to `endReceived`. -/
def desiredErased (a : ArtifactWriter) (endReceived : UInt64) : UInt64 :=
  min (saturatingMul (divCeil endReceived eraseBatchSize) eraseBatchSize) (UInt64.ofNat a.partition.size)

/-- The erase of `append`, if it needs one. -/
def eraseAhead (a : ArtifactWriter) (desired : UInt64) :
    NorProg (Except FlashWriteError Unit × ArtifactWriter) :=
  if desired > a.erasedThrough then
    ExceptT.run (erasePartitionRange g w a.partition a.erasedThrough desired) >>= fun
      | .error e => pure (.error e, a)
      | .ok _ => pure (.ok (), { a with
          eraseBatches := a.eraseBatches + ((desired - a.erasedThrough) / eraseBatchSize).toUInt32
          erasedThrough := desired })
  else pure (.ok (), a)

/-- `engine.append` over a storage for the erased part: whether it accepted the data, the
scratch buffer and the session. -/
def engineAppend (a : ArtifactWriter) (s : E.WriteSession) (data : List UInt8) :
    NorProg (Bool × List UInt8 × E.WriteSession) :=
  match EspArtifactStorage.newPreErased g a.partition a.scratch with
  | .error _ => pure (false, a.scratch, s)
  | .ok st => match E.offer s data with
    | none => pure (false, a.scratch, s)
    | some (offset, bytes) => st.write g w offset bytes a.scratch >>= fun (r, scratch) =>
        pure ((E.settle s data r).1, scratch, (E.settle s data r).2)

/-- `sectors_flushed += (now - before).div_ceil(erase_size)`. -/
def flushed (a : ArtifactWriter) (before now : UInt64) : UInt32 :=
  a.sectorsFlushed + (divCeil (now - before) (UInt64.ofNat g.eraseSize)).toUInt32

def append (a : ArtifactWriter) (s : E.WriteSession) (data : List UInt8) :
    NorProg (Bool × ArtifactWriter × E.WriteSession) :=
  if E.canAppend s data.length then
    let before := E.durable s
    eraseAhead g w a (a.desiredErased (E.received s + UInt64.ofNat data.length)) >>= fun
      | (.error _, a) => pure (false, { a with sectorsFlushed := a.flushed g before (E.durable s) }, s)
      | (.ok _, a) => engineAppend g w E a s data >>= fun (ok, scratch, s) =>
          pure (ok, { a with scratch, sectorsFlushed := a.flushed g before (E.durable s) }, s)
  else pure (false, a, s)

def finish (a : ArtifactWriter) (s : E.WriteSession) :
    NorProg (Except FinishError UInt64 × ArtifactWriter) :=
  if E.received s > a.erasedThrough then pure (.error (.incomplete (E.durable s)), a)
  else match EspArtifactStorage.newPreErased g a.partition a.scratch with
    | .error e => pure (.error (.backend e), a)
    | .ok st => st.finish g w (E.close s).1 (E.close s).2 a.scratch >>= fun (r, scratch) =>
        match E.commit s r with
        | .error e => pure (.error e, { a with scratch })
        | .ok size =>
          pure (.ok size, { a with scratch, sectorsFlushed := a.flushed g (E.durable s) size })

end ArtifactWriter

/-- What the adapter relies on in the engine: `append` offers the durable watermark and all
bytes received since, followed by the new ones. It accepts them only with the watermark the storage
answers, and otherwise stays as it was. -/
structure Engine.Law (E : Engine) (pending : E.WriteSession → List UInt8) : Prop where
  new : E.received E.new = 0 ∧ E.durable E.new = 0 ∧ pending E.new = []
  offer : ∀ {s data offset bytes}, E.offer s data = some (offset, bytes) →
    offset = E.durable s ∧ bytes = pending s ++ data
  accepted : ∀ {s s' data r}, E.settle s data r = (true, s') → ∃ d, r = .ok d ∧
    E.received s' = E.received s + UInt64.ofNat data.length ∧ E.durable s' = d ∧
    pending s' = (pending s ++ data).drop (d.toNat - (E.durable s).toNat)
  refused : ∀ {s s' data r}, E.settle s data r = (false, s') →
    E.received s' = E.received s ∧ E.durable s' = E.durable s ∧ pending s' = pending s
  close : ∀ s, E.close s = (E.durable s, pending s)
  commit : ∀ {s r size}, E.commit s r = .ok size → ∃ d, r = .ok d

end Espbewi
