import Espbewi.Lib.Mutex

/-! What `espbewi-config-space` uses of the `esp-nvs` crate. -/

namespace Espbewi.ConfigSpace

open Lib

/-- `esp_nvs`: keys, the constants of its entry layout, and the width of `usize`. A key keeps
apart all names of at most 15 bytes none of which is NUL. -/
structure EspNvs where
  Key : Type
  keyDecEq : DecidableEq Key
  fromSlice : List UInt8 → Key
  ITEM_SIZE : Nat
  MAX_BLOB_DATA_PER_PAGE : Nat
  ENTRIES_PER_PAGE : Nat
  usizeMax : Nat
  fromSlice_inj : a.length ≤ 15 → b.length ≤ 15 → 0 ∉ a → 0 ∉ b → fromSlice a = fromSlice b → a = b
  item_pos : 0 < ITEM_SIZE
  item_dvd : ITEM_SIZE ∣ MAX_BLOB_DATA_PER_PAGE
  page_pos : 0 < MAX_BLOB_DATA_PER_PAGE

instance (N : EspNvs) : DecidableEq N.Key := N.keyDecEq

/-- `esp_nvs::error::Error`; the errors that the backend does not tell apart are `other`. -/
inductive NvsError
  | namespaceNotFound
  | keyNotFound
  | other (code : Nat)
  deriving DecidableEq

/-- The values that are stored. -/
inductive Item
  | u8 (value : UInt8)
  | blob (data : List UInt8)
  | other (code : Nat)
  deriving DecidableEq

/-- The live items by namespace and key. -/
abbrev Content (K : Type) := K × K → Option Item

inductive NvsOp (K : Type)
  | new
  | statistics
  | typedEntries
  | getBlob (ns key : K)
  | getU8 (ns key : K)
  | setBlob (ns key : K) (data : List UInt8)
  | setU8 (ns key : K) (value : UInt8)
  | delete (ns key : K)

/-- `entries_overall`, as far as it is read. -/
structure Statistics where
  empty : Nat
  erased : Nat

def NvsOp.Ans : NvsOp K → Type
  | .new => Except NvsError Unit
  | .statistics => Except NvsError Statistics
  | .typedEntries => List (Except NvsError (K × K))
  | .getBlob .. => Except NvsError (List UInt8)
  | .getU8 .. => Except NvsError UInt8
  | .setBlob .. => Except NvsError Unit
  | .setU8 .. => Except NvsError Unit
  | .delete .. => Except NvsError Unit

/-- What is stored is there after a write that succeeds. A write that fails may have stored it, or nothing. -/
def Stores [DecidableEq K] (v : Content K) (k : K × K) (item : Option Item) (r : Except NvsError Unit)
    (v' : Content K) : Prop :=
  v' = Function.update v k item ∨ r.isOk = false ∧ v' = v

/-- How NVS may answer: any operation may fail. -/
def Contract [DecidableEq K] (v : Content K) : (o : NvsOp K) → o.Ans → Content K → Prop
  | .getBlob ns key, .ok raw, v' => v' = v ∧ v (ns, key) = some (.blob raw)
  | .getBlob ns key, .error .namespaceNotFound, v' => v' = v ∧ ∀ raw, v (ns, key) ≠ some (.blob raw)
  | .getBlob ns key, .error .keyNotFound, v' => v' = v ∧ ∀ raw, v (ns, key) ≠ some (.blob raw)
  | .getU8 ns key, .ok value, v' => v' = v ∧ v (ns, key) = some (.u8 value)
  | .setBlob ns key data, r, v' => Stores v (ns, key) (some (.blob data)) r v'
  | .setU8 ns key value, r, v' => Stores v (ns, key) (some (.u8 value)) r v'
  | .delete ns key, r, v' => Stores v (ns, key) none r v'
  | _, _, v' => v' = v

theorem Stores.ok [DecidableEq K] {v v' : Content K} {k : K × K} {item : Option Item} {u : Unit}
    (h : Stores v k item (.ok u) v') : v' = Function.update v k item :=
  h.resolve_right fun hfailed => nomatch hfailed.1

/-- Only the one item changes. -/
theorem Stores.other [DecidableEq K] {v v' : Content K} {k k' : K × K} {item : Option Item}
    {r : Except NvsError Unit} (h : Stores v k item r v') (hne : k' ≠ k) : v' k' = v k' := by
  obtain rfl | ⟨-, rfl⟩ := h
  · exact Function.update_of_ne hne ..
  · rfl

/-- The calls of the backend: NVS, and its `HEALTHY` flag. -/
inductive Op (K : Type)
  | nvs (o : NvsOp K)
  | storeHealthy (ok : Bool)

def Op.Ans : Op K → Type
  | .nvs o => o.Ans
  | .storeHealthy _ => Unit

def Bound [DecidableEq K] (v : Content K) : (o : Op K) → o.Ans → Content K → Prop
  | .nvs o, r, v' => Contract v o r v'
  | .storeHealthy _, _, v' => v' = v

/-- An NVS partition. -/
structure Flash (K : Type) [DecidableEq K] where
  State : Type
  answers : Answers (NvsOp K) NvsOp.Ans State
  restart : State → State → Prop
  content : State → Content K
  contract : answers s o r s' → Contract (content s) o r (content s')
  restart_content : restart s s' → content s' = content s

/-- The partition, and `HEALTHY`, which is `true` after a restart. -/
def Flash.answer [DecidableEq K] (F : Flash K) : Answers (Op K) Op.Ans (F.State × Bool)
  | s, .nvs o, r, s' => F.answers s.1 o r s'.1 ∧ s'.2 = s.2
  | s, .storeHealthy ok, _, s' => s' = (s.1, ok)

theorem Flash.bound [DecidableEq K] {F : Flash K} {s s' : F.State × Bool} {o : Op K} {r : o.Ans}
    (h : F.answer s o r s') : Bound (F.content s.1) o r (F.content s'.1) := by
  cases o with
  | nvs o => exact F.contract h.1
  | storeHealthy ok =>
    obtain rfl := h
    rfl

def Flash.device [DecidableEq K] (F : Flash K) :
    Service.Device (Op K) Op.Ans (F.State × Bool) (Content K) where
  answers := F.answer
  restart s s' := F.restart s.1 s'.1 ∧ s'.2 = true
  view s := F.content s.1
  bound v o r v' := ∃ s s', F.answer s o r s' ∧ F.content s.1 = v ∧ F.content s'.1 = v'
  quiet o := ∃ ok, o = .storeHealthy ok
  view_answers h := ⟨_, _, h, rfl, rfl⟩
  view_restart h := F.restart_content h.1
  view_quiet := by
    rintro _ v r v' ⟨ok, rfl⟩ ⟨s, s', h, rfl, rfl⟩
    exact F.bound h

/-- NVS failed, other than by not finding what it was asked for. -/
def NvsOp.Fails : (o : NvsOp K) → o.Ans → Prop
  | .new, r => r.isOk = false
  | .statistics, r => r.isOk = false
  | .typedEntries, r => broken r
  | .getBlob .., .error (.other _) => True
  | .getBlob .., _ => False
  | .getU8 .., r => r.isOk = false
  | .setBlob .., r => r.isOk = false
  | .setU8 .., r => r.isOk = false
  | .delete .., r => r.isOk = false
where
  broken {K : Type} (entries : List (Except NvsError (K × K))) : Prop := ∃ e, .error e ∈ entries

/-- The answers keep to what NVS promises. -/
abbrev Keeps [DecidableEq K] (A : Answers (Op K) Op.Ans (Content K)) : Prop :=
  ∀ {v o r v'}, A v o r v' → Bound v o r v'

/-- Some call of NVS can fail. -/
def Failing (A : Answers (Op K) Op.Ans (Content K)) : Prop :=
  ∃ v o r v', A v (.nvs o) r v' ∧ o.Fails r

/-- The answers among which NVS does not fail. -/
def Steady (A : Answers (Op K) Op.Ans (Content K)) : Answers (Op K) Op.Ans (Content K)
  | v, .nvs o, r, v' => A v (.nvs o) r v' ∧ ¬ o.Fails r
  | v, .storeHealthy ok, r, v' => A v (.storeHealthy ok) r v'

theorem Steady.keeps [DecidableEq K] {A : Answers (Op K) Op.Ans (Content K)} (hA : Keeps A) : Keeps (Steady A) := by
  intro v o r v' h
  cases o with
  | nvs o => exact hA h.1
  | storeHealthy ok => exact hA h

theorem Steady.not_failing (A : Answers (Op K) Op.Ans (Content K)) : ¬ Failing (Steady A) :=
  fun ⟨_, _, _, _, h, hfails⟩ => h.2 hfails

end Espbewi.ConfigSpace
