import Espbewi.ConfigSpace.Nvs
import Espbewi.Lib.Bytes

/-! `espbewi-config-space`: the NVS backend of `config_space_manager`. -/

namespace Espbewi.ConfigSpace

open Lib Prog

inductive NvsConfigError
  | unavailable
  | write
  | invalidSpace
  | corruptRecord
  | generationOverflow
  deriving DecidableEq

def MAGIC : List UInt8 := [0x43, 0x53, 0x4D, 0x31]
def FLAG_PRESENT : UInt8 := 0x01
def HEADER_LEN : Nat := 4 + 8 + 1
def MAX_NVS_KEY_LEN : Nat := 15

structure Snapshot where
  generation : UInt64
  data : List UInt8
  deriving DecidableEq

/-- The bytes of a space name. -/
abbrev Space := List UInt8

def validSpaceName (space : Space) : Bool :=
  !space.isEmpty && space.length ≤ MAX_NVS_KEY_LEN && space.all fun b => b < 128 && b != 0

def encodeRecord (generation : UInt64) (present : Bool) (payload : List UInt8) : List UInt8 :=
  MAGIC ++ toLe 8 generation.toNat ++ [if present then FLAG_PRESENT else 0] ++ payload

def decodeRecord (raw : List UInt8) : Except NvsConfigError (UInt64 × Bool × List UInt8) :=
  if raw.length < HEADER_LEN ∨ raw.take 4 ≠ MAGIC then .error .corruptRecord
  else
    let generation := UInt64.ofNat (ofLe ((raw.drop 4).take 8))
    let flags := raw.getD 12 0
    if flags &&& ~~~FLAG_PRESENT ≠ 0 then .error .corruptRecord
    else .ok (generation, flags &&& FLAG_PRESENT != 0, raw.drop HEADER_LEN)

/-- `generation.checked_add(1)`. -/
def succ? (generation : UInt64) : Option UInt64 :=
  if generation.toNat + 1 < 2 ^ 64 then some (generation + 1) else none

variable (N : EspNvs)

def NAMESPACE : N.Key := N.fromSlice [0x63, 0x66, 0x67, 0x5F, 0x73, 0x70, 0x61, 0x63, 0x65]
def HEALTH_NAMESPACE : N.Key := N.fromSlice [0x63, 0x66, 0x67, 0x5F, 0x68, 0x65, 0x61, 0x6C, 0x74, 0x68]
def HEALTH_KEY : N.Key := N.fromSlice [0x63, 0x61, 0x6E, 0x61, 0x72, 0x79]

def key (space : Space) : Except NvsConfigError N.Key :=
  if validSpaceName space then .ok (N.fromSlice space) else .error .invalidSpace

/-! ### Entries -/

def checkedAdd (a b : Nat) : Option Nat := if a + b ≤ N.usizeMax then some (a + b) else none

def checkedMul (a b : Nat) : Option Nat := if a * b ≤ N.usizeMax then some (a * b) else none

def saturatingAdd (a b : Nat) : Nat := min (a + b) N.usizeMax

def entriesForBlob (encodedSize : Nat) : Option Nat := do
  let dataEntries := (← checkedAdd N encodedSize (N.ITEM_SIZE - 1)) / N.ITEM_SIZE
  let chunks := (← checkedAdd N encodedSize (N.MAX_BLOB_DATA_PER_PAGE - 1)) / N.MAX_BLOB_DATA_PER_PAGE
  checkedAdd N (← checkedAdd N dataEntries chunks) 1

def reservationUnits (space : Space) (maxBytes : Nat) : Option Nat := do
  if !validSpaceName space then none
  let encodedSize ← checkedAdd N HEADER_LEN maxBytes
  let oneVersion ← entriesForBlob N encodedSize
  checkedMul N oneVersion 2

/-! ### Under the lock -/

abbrev NvsM (α : Type) := ExceptT NvsConfigError (Prog (Op N.Key) Op.Ans) α

variable {N}

def nvs (o : NvsOp N.Key) : NvsM N o.Ans := ExceptT.lift (op (Op.nvs o))

def storeHealthy (ok : Bool) : NvsM N Unit := ExceptT.lift (op (Op.storeHealthy ok))

def withNvs (f : NvsM N α) : NvsM N α := do
  match ← nvs .new with
  | .error _ =>
    storeHealthy false
    throw .unavailable
  | .ok _ =>
    match ← ExceptT.lift f.run with
    | .ok r => return r
    | .error e =>
      storeHealthy false
      throw e

def nextGeneration (key : N.Key) : NvsM N UInt64 := do
  match ← nvs (.getBlob (NAMESPACE N) key) with
  | .ok raw =>
    let (generation, _, _) ← Prog.ofExcept (decodeRecord raw)
    match succ? generation with
    | some generation => return generation
    | none => throw .generationOverflow
  | .error .namespaceNotFound => return 1
  | .error .keyNotFound => return 1
  | .error (.other _) => throw .write

def replaceAt (key : N.Key) (present : Bool) (payload : List UInt8) : NvsM N UInt64 := do
  let generation ← nextGeneration key
  match ← nvs (.setBlob (NAMESPACE N) key (encodeRecord generation present payload)) with
  | .ok _ => return generation
  | .error _ => throw .write

def replace (space : Space) (present : Bool) (payload : List UInt8) : NvsM N UInt64 := do
  let key ← Prog.ofExcept (key N space)
  withNvs (replaceAt key present payload)

def loadAt (key : N.Key) : NvsM N (Option Snapshot) := do
  match ← nvs (.getBlob (NAMESPACE N) key) with
  | .ok raw =>
    let (generation, present, payload) ← Prog.ofExcept (decodeRecord raw)
    return if present then some { generation, data := payload } else none
  | .error .namespaceNotFound => return none
  | .error .keyNotFound => return none
  | .error (.other _) => throw .write

def load (space : Space) : NvsM N (Option Snapshot) := do
  let key ← Prog.ofExcept (key N space)
  withNvs (loadAt key)

def commit (space : Space) (data : List UInt8) : NvsM N UInt64 := replace space true data

def clear (space : Space) : NvsM N UInt64 := replace space false []

def canary : NvsM N Bool := do
  match ← nvs (.setU8 (HEALTH_NAMESPACE N) (HEALTH_KEY N) 0xA5) with
  | .error _ => throw .write
  | .ok _ =>
    match ← nvs (.getU8 (HEALTH_NAMESPACE N) (HEALTH_KEY N)) with
    | .error _ => throw .write
    | .ok value =>
      match ← nvs (.delete (HEALTH_NAMESPACE N) (HEALTH_KEY N)) with
      | .error _ => throw .write
      | .ok _ => return value == 0xA5

/-- What `self_check` answers; the flag is stored after the lock is given back. -/
def selfCheck : Prog (Op N.Key) Op.Ans Bool := do
  match ← (withNvs canary).run with
  | .ok readBack => return readBack
  | .error _ => return false

/-! ### Boot -/

/-- The keys of the namespace, up to the first entry that cannot be read. -/
def ownKeys : List (Except NvsError (N.Key × N.Key)) → Except NvsConfigError (List N.Key)
  | [] => .ok []
  | .error _ :: _ => .error .write
  | .ok (ns, key) :: entries => do
    let keys ← ownKeys entries
    return if ns = NAMESPACE N then key :: keys else keys

def sumOwned : List N.Key → Nat → NvsM N Nat
  | [], owned => return owned
  | key :: keys, owned => do
    match ← nvs (.getBlob (NAMESPACE N) key) with
    | .error _ => throw .write
    | .ok raw =>
      match entriesForBlob N raw.length with
      | none => throw .corruptRecord
      | some entries => sumOwned keys (saturatingAdd N owned entries)

def ownedEntries : NvsM N Nat := do
  let keys ← Prog.ofExcept (ownKeys (← nvs .typedEntries))
  sumOwned keys 0

/-- The capacity that `NvsConfigBackend::new` finds; the flag is stored after the lock is given
back. -/
def new : NvsM N Nat := do
  match ← nvs .new with
  | .error _ =>
    storeHealthy false
    throw .unavailable
  | .ok _ =>
    match ← nvs .statistics with
    | .error _ =>
      storeHealthy false
      throw .write
    | .ok stats =>
      let reclaimable := saturatingAdd N stats.empty stats.erased
      let owned ← ownedEntries
      return saturatingAdd N reclaimable owned - N.ENTRIES_PER_PAGE

/-! ### The calls of the tasks -/

inductive Call
  | new
  | load (space : Space)
  | commit (space : Space) (data : List UInt8)
  | clear (space : Space)
  | selfCheck
  deriving DecidableEq

def Call.Result : Call → Type
  | .new => Except NvsConfigError Nat
  | .load _ => Except NvsConfigError (Option Snapshot)
  | .commit .. => Except NvsConfigError UInt64
  | .clear _ => Except NvsConfigError UInt64
  | .selfCheck => Bool

/-- A name that is refused is refused before the lock. -/
def early (N : EspNvs) : (c : Call) → Option c.Result
  | .load space => refuse space
  | .commit space _ => refuse space
  | .clear space => refuse space
  | .new => none
  | .selfCheck => none
where
  refuse {α : Type} (space : Space) : Option (Except NvsConfigError α) :=
    match key N space with
    | .ok _ => none
    | .error e => some (.error e)

def body : (c : Call) → Prog (Op N.Key) Op.Ans c.Result
  | .new => new.run
  | .load space => (load space).run
  | .commit space data => (commit space data).run
  | .clear space => (clear space).run
  | .selfCheck => selfCheck

def rest : (c : Call) → c.Result → Prog (Op N.Key) Op.Ans Unit
  | .new, .ok _ => op (Op.storeHealthy true)
  | .selfCheck, ok => op (Op.storeHealthy ok)
  | _, _ => .ret ()

def backend (N : EspNvs) : Service (Op N.Key) Op.Ans where
  Call := Call
  Result := Call.Result
  early := early N
  body := body
  rest := rest

end Espbewi.ConfigSpace
