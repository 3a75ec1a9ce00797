import Espbewi.Hardware.Partitions
import Espbewi.Lib.Bytes

/-! The partition table as a byte string: 32-byte records up to the first bad magic. -/

namespace Espbewi

open Lib Nor

namespace PartitionTable

def MAGIC : Nat := 0x50AA

def le16 (b : List UInt8) (i : Nat) : Nat := ofLe ((b.drop i).take 2)

def le32 (b : List UInt8) (i : Nat) : UInt32 := UInt32.ofNat (ofLe ((b.drop i).take 4))

def isRecord (entry : List UInt8) : Bool := le16 entry 0 == MAGIC

def hasKind (kind : PartitionType) (entry : List UInt8) : Bool :=
  (entry.getD 2 0, entry.getD 3 0) == kind.raw

/-- Offset and size of the partition a record describes. -/
def extent (entry : List UInt8) : UInt32 × UInt32 := (le32 entry 4, le32 entry 8)

def records (table : List UInt8) : List (List UInt8) := (chunksExact 32 table).takeWhile isRecord

def first (kind : PartitionType) (table : List UInt8) : Option (UInt32 × UInt32) :=
  ((records table).find? (hasKind kind)).map extent

def last (kind : PartitionType) (table : List UInt8) : Option (UInt32 × UInt32) :=
  ((records table).reverse.find? (hasKind kind)).map extent

def Once (kind : PartitionType) (table : List UInt8) : Prop :=
  ((records table).filter (hasKind kind)).length = 1

theorem Once.first_eq_last {kind : PartitionType} {table : List UInt8} (h : Once kind table) :
    first kind table = last kind table := by
  obtain ⟨e, he⟩ := List.length_eq_one_iff.mp h
  rw [first, last, ← List.head?_filter, ← List.head?_filter, List.filter_reverse, he]
  rfl

/-! ### The table in flash, record by record -/

def recordsAt (f : Flash) (a : Nat) : Nat → List (List UInt8)
  | 0 => []
  | k + 1 => if isRecord (Nor.read f a 32) then Nor.read f a 32 :: recordsAt f (a + 32) k else []

theorem chunks_read (f : Flash) (a k : Nat) :
    (chunks 32 k (Nor.read f a (k * 32))).takeWhile isRecord = recordsAt f a k := by
  induction k generalizing a with
  | zero => rfl
  | succ k ih =>
    have hsplit : Nor.read f a ((k + 1) * 32) = Nor.read f a 32 ++ Nor.read f (a + 32) (k * 32) := by
      rw [read_append]
      congr 1
      omega
    rw [hsplit, chunks, List.take_left' (by simp), List.drop_left' (by simp), List.takeWhile_cons, ih]
    rfl

theorem records_read (f : Flash) (a k : Nat) : records (Nor.read f a (k * 32)) = recordsAt f a k := by
  rw [records, chunksExact, read_length, Nat.mul_div_cancel _ (by omega), chunks_read]

end PartitionTable

open PartitionTable

/-- The library parses every table of full length into the records before the first
bad magic, and finds the first one of the requested kind. -/
structure EspIdf.FirstMatch (idf : EspIdf) : Prop where
  lookup : ∀ table : List UInt8, table.length = PARTITION_TABLE_MAX_LEN →
    ∃ t, idf.parse table = some t ∧ ∀ kind, ∃ entry, idf.find t kind = some entry ∧
      entry.map (fun e => (e.offset, e.len)) = first kind table

/-- A parser that does exactly this, with empty labels. -/
def firstMatch : EspIdf where
  Table := List (List UInt8)
  parse table := some (records table)
  find t kind := some ((t.find? (hasKind kind)).map fun e => ⟨(extent e).1, (extent e).2, ""⟩)
  booted _ := some none

theorem firstMatch_firstMatch : firstMatch.FirstMatch where
  lookup table _ := by
    refine ⟨records table, rfl, fun kind => ⟨_, rfl, ?_⟩⟩
    rw [first, Option.map_map]
    rfl

/-- The lookup both users of the library make, as a function of the flash content. -/
def EspIdf.lookupIn (idf : EspIdf) (f : Flash) (kind : PartitionType) : Option PartitionEntry :=
  ((idf.parse (Nor.read f 0x8000 0xC00)).bind fun t => idf.find t kind).join

theorem EspIdf.lookupIn_of_parse {idf : EspIdf} {f : Flash} (kind : PartitionType) {t : idf.Table}
    (h : idf.parse (Nor.read f 0x8000 0xC00) = some t) :
    idf.lookupIn f kind = (idf.find t kind).join := by
  rw [EspIdf.lookupIn, h, Option.bind_some]

theorem EspIdf.lookupIn_of_parse_none {idf : EspIdf} {f : Flash} {kind : PartitionType}
    (h : idf.parse (Nor.read f 0x8000 0xC00) = none) : idf.lookupIn f kind = none := by
  rw [EspIdf.lookupIn, h, Option.bind_none]
  rfl

theorem EspIdf.FirstMatch.lookupIn_extent {idf : EspIdf} (h : idf.FirstMatch) (f : Flash)
    (kind : PartitionType) :
    (idf.lookupIn f kind).map (fun e => (e.offset, e.len)) = first kind (Nor.read f 0x8000 0xC00) := by
  obtain ⟨t, ht, hfind⟩ := h.lookup (Nor.read f 0x8000 0xC00) (read_length ..)
  obtain ⟨entry, he, hmap⟩ := hfind kind
  rw [← hmap, EspIdf.lookupIn_of_parse kind ht, he]
  rfl

/-- The table decides the lookup. -/
theorem EspIdf.lookupIn_congr (idf : EspIdf) {f g : Flash}
    (h : ∀ a, 0x8000 ≤ a → a < 0x8C00 → f a = g a) : idf.lookupIn f = idf.lookupIn g := by
  funext kind
  have htable : Nor.read f 0x8000 0xC00 = Nor.read g 0x8000 0xC00 :=
    read_eq_iff.mpr fun i hi => h _ (by omega) (by omega)
  rw [EspIdf.lookupIn, EspIdf.lookupIn, htable]

section Lookup

variable {idf : EspIdf} {ε : Type} {e : ε} {b : Behaviour} {I : State → NorOp → Prop} {s : State}

theorem wp_readPartitionTable {Q : Except ε idf.Table → State → Prop}
    (hI : ∀ k offset len, I { s with reads := k } (.read offset len))
    (hok : ∀ t k, idf.parse (Nor.read s.flash 0x8000 0xC00) = some t → Q (.ok t) { s with reads := k })
    (herr : (¬ b.Readable ∨ idf.parse (Nor.read s.flash 0x8000 0xC00) = none) →
      ∀ k, Q (.error e) { s with reads := k }) :
    (ExceptT.run (readPartitionTable idf e)).wp (norDevice b) I Q s := by
  unfold readPartitionTable
  rw [Prog.wp_try]
  refine NorFlash.wp_read (hI _ _ _) ?_ (fun hr => herr (.inl hr) _)
  dsimp only
  cases hp : idf.parse (Nor.read s.flash PARTITION_TABLE_OFFSET.toNat PARTITION_TABLE_MAX_LEN) with
  | some t => exact hok t _ hp
  | none => exact herr (.inr hp) _

theorem wp_findPartition {kind : PartitionType} {Q : Except PartitionError PartitionRange → State → Prop}
    (hI : ∀ k offset len, I { s with reads := k } (.read offset len))
    (hok : ∀ entry k, idf.lookupIn s.flash kind = some entry →
      Q (.ok ⟨entry.offset, entry.len.toNat⟩) { s with reads := k })
    (herr : (¬ b.Readable ∨ idf.lookupIn s.flash kind = none) →
      ∀ err k, Q (.error err) { s with reads := k }) :
    (ExceptT.run (findPartition idf kind)).wp (norDevice b) I Q s := by
  unfold findPartition
  rw [Prog.wp_try]
  refine wp_readPartitionTable hI (fun t k ht => ?_) (fun h k => ?_)
  · have hlookup := EspIdf.lookupIn_of_parse kind ht
    simp only
    cases hf : idf.find t kind with
    | none => exact herr (.inr (by rw [hlookup, hf]; rfl)) _ _
    | some entry => cases entry with
      | none => exact herr (.inr (by rw [hlookup, hf]; rfl)) _ _
      | some entry => exact hok entry _ (by rw [hlookup, hf]; rfl)
  · exact herr (h.imp_right EspIdf.lookupIn_of_parse_none) _ _

end Lookup

end Espbewi
