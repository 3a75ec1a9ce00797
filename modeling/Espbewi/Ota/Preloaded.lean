import Espbewi.Ota.OtadataLaws
import Espbewi.Lib.Sha256
import Espbewi.Lib.Trace
import Espbewi.Sample

/-! `espbewi-ota::shared_flash`: the digest of an image that was preloaded into the inactive slot. -/

namespace Espbewi

open Lib Nor

/-- `fibewi::Digest`. -/
structure Digest where
  bytes : List UInt8
  length_eq : bytes.length = 32
  deriving DecidableEq

def Digest.of (data : List UInt8) : Digest := ⟨Lib.Sha256.sha256 data, Lib.Sha256.sha256_length data⟩

/-- `sha2::Sha256`. -/
structure Sha256 where
  Hasher : Type
  new : Hasher
  update : Hasher → List UInt8 → Hasher
  finalize : Hasher → Digest

/-- However a message is split, the digest is that of the whole. -/
def Sha256.Computes (H : Sha256) : Prop := ∀ chunks : List (List UInt8),
  H.finalize (chunks.foldl H.update H.new) = .of chunks.flatten

inductive PreloadedError
  | noTarget
  | tooLarge
  | flash
  deriving DecidableEq

namespace Preloaded

def BUF_LEN : Nat := 4096

/-- How much of the image the next read takes. -/
def take (size offset : UInt32) : Nat := min (size - offset).toNat BUF_LEN

theorem toNat_offset_take {size offset : UInt32} (h : offset < size) :
    (offset + UInt32.ofNat (take size offset)).toNat =
      offset.toNat + min (size.toNat - offset.toNat) BUF_LEN := by
  have hlt := UInt32.lt_iff_toNat_lt.mp h
  have hsize := size.toNat_lt
  rw [UInt32.toNat_add, UInt32.toNat_ofNat', take, UInt32.toNat_sub_of_le _ _ (UInt32.le_of_lt h)]
  omega

section Hash

variable (H : Sha256)

def hashFrom (base size offset : UInt32) (hasher : H.Hasher) :
    ExceptT PreloadedError (Prog NorOp NorOp.Ans) H.Hasher :=
  if offset < size then do
    let chunk ← NorFlash.read (base + offset) (take size offset) PreloadedError.flash
    hashFrom base size (offset + UInt32.ofNat (take size offset)) (H.update hasher chunk)
  else pure hasher
termination_by size.toNat - offset.toNat
decreasing_by
  rename_i h
  have hlt := UInt32.lt_iff_toNat_lt.mp h
  rw [toNat_offset_take h, BUF_LEN]
  omega

end Hash

end Preloaded

def hashPreloaded (H : Sha256) (idf : EspIdf) (fb : Fibewi) (size : UInt32) :
    ExceptT PreloadedError (Prog NorOp NorOp.Ans) (AppSlot × Digest) := do
  let target ← (Otadata.writeTarget idf fb).adapt fun _ => PreloadedError.noTarget
  if size.toNat > target.size then throw .tooLarge
  let hasher ← Preloaded.hashFrom H target.offset size 0 H.new
  return (target.slot, H.finalize hasher)

namespace Preloaded

/-! ### The driver -/

def READ_SIZE : Nat := 4

/-- Reads that are inside the flash and aligned give its bytes, lengths that are not aligned are
refused, and no read changes the flash. -/
structure ReadsAligned {σ : Type} (d : Device NorOp NorOp.Ans σ) (flash : σ → Flash) (capacity : Nat) :
    Prop where
  inside : ∀ s (offset : UInt32) len, offset.toNat % READ_SIZE = 0 → len % READ_SIZE = 0 →
    offset.toNat + len ≤ capacity →
    (d s (.read offset len)).1 = some fun i : Fin len => flash s (offset.toNat + i)
  refused : ∀ s offset len, len % READ_SIZE ≠ 0 → (d s (.read offset len)).1 = none
  same : ∀ s offset len, flash (d s (.read offset len)).2 = flash s

variable {σ ε : Type} {d : Device NorOp NorOp.Ans σ} {flash : σ → Flash} {capacity : Nat} {s : σ} {e : ε}
  {offset : UInt32} {len : Nat} {Q : Except ε (List UInt8) → σ → Prop}

theorem ReadsAligned.wp_read (hd : ReadsAligned d flash capacity) (hoffset : offset.toNat % READ_SIZE = 0)
    (hlen : len % READ_SIZE = 0) (hin : offset.toNat + len ≤ capacity)
    (hQ : ∀ s', flash s' = flash s → Q (.ok (Nor.read (flash s) offset.toNat len)) s') :
    (ExceptT.run (NorFlash.read offset len e)).wp d (fun _ _ => True) Q s := by
  unfold NorFlash.read Prog.expect
  rw [Prog.wp_try, ExceptT.run_mk, Prog.wp_bind]
  refine ⟨trivial, ?_⟩
  rw [hd.inside s offset len hoffset hlen hin]
  exact hQ _ (hd.same ..)

theorem ReadsAligned.wp_refused (hd : ReadsAligned d flash capacity) (hlen : len % READ_SIZE ≠ 0)
    (hQ : ∀ s', Q (.error e) s') :
    (ExceptT.run (NorFlash.read offset len e)).wp d (fun _ _ => True) Q s := by
  unfold NorFlash.read Prog.expect
  rw [Prog.wp_try, ExceptT.run_mk, Prog.wp_bind]
  refine ⟨trivial, ?_⟩
  rw [hd.refused s offset len hlen]
  exact hQ _

/-! ### The loop -/

variable {H : Sha256} {base size : UInt32} {hasher : H.Hasher}

/-- The hasher has been given `data` since it was `hasher`, in parts. -/
def Fed (H : Sha256) (hasher : H.Hasher) (data : List UInt8) (hasher' : H.Hasher) : Prop :=
  ∃ chunks : List (List UInt8), chunks.flatten = data ∧ hasher' = chunks.foldl H.update hasher

theorem Fed.nil : Fed H hasher [] hasher := ⟨[], rfl, rfl⟩

theorem Fed.cons {hasher' : H.Hasher} {chunk data : List UInt8} (h : Fed H (H.update hasher chunk) data hasher') :
    Fed H hasher (chunk ++ data) hasher' := by
  obtain ⟨chunks, rfl, rfl⟩ := h
  exact ⟨chunk :: chunks, rfl, rfl⟩

/-- What the loop ends with, from `offset` on: the rest of the image is hashed, or the last
read is refused. -/
def Hashed (H : Sha256) (f : Flash) (base size offset : UInt32) (hasher : H.Hasher) :
    Except PreloadedError H.Hasher → Prop
  | .ok hasher' => size.toNat % READ_SIZE = 0 ∧
      Fed H hasher (Nor.read f (base.toNat + offset.toNat) (size.toNat - offset.toNat)) hasher'
  | .error _ => size.toNat % READ_SIZE ≠ 0

/-- The loop stands at a whole buffer, or at an end that all its reads could reach. -/
def Stands (size offset : UInt32) : Prop :=
  offset.toNat ≤ size.toNat ∧
    (offset.toNat % BUF_LEN = 0 ∨ offset.toNat = size.toNat ∧ size.toNat % READ_SIZE = 0)

theorem toNat_take {offset : UInt32} (h : offset < size) :
    take size offset = min (size.toNat - offset.toNat) BUF_LEN := by
  rw [take, UInt32.toNat_sub_of_le _ _ (UInt32.le_of_lt h)]

theorem Stands.next {offset : UInt32} (h : Stands size offset) (hlt : offset < size)
    (halign : take size offset % READ_SIZE = 0) : Stands size (offset + UInt32.ofNat (take size offset)) := by
  obtain ⟨hle, hat⟩ := h
  have hlt' := UInt32.lt_iff_toNat_lt.mp hlt
  rw [toNat_take hlt] at halign
  rw [Stands, toNat_offset_take hlt]
  unfold BUF_LEN READ_SIZE at *
  omega

theorem Stands.refused {offset : UInt32} (h : Stands size offset) (hlt : offset < size)
    (halign : take size offset % READ_SIZE ≠ 0) : size.toNat % READ_SIZE ≠ 0 := by
  obtain ⟨hle, hat⟩ := h
  have hlt' := UInt32.lt_iff_toNat_lt.mp hlt
  rw [toNat_take hlt] at halign
  unfold BUF_LEN READ_SIZE at *
  omega

theorem Stands.aligned {offset : UInt32} (h : Stands size offset) (hlt : offset < size) :
    offset.toNat % READ_SIZE = 0 := by
  obtain ⟨hle, hat⟩ := h
  have hlt' := UInt32.lt_iff_toNat_lt.mp hlt
  unfold BUF_LEN READ_SIZE at *
  omega

theorem Stands.done {offset : UInt32} (h : Stands size offset) (hge : ¬ offset < size) :
    offset.toNat = size.toNat ∧ size.toNat % READ_SIZE = 0 := by
  obtain ⟨hle, hat⟩ := h
  have hge' := UInt32.le_iff_toNat_le.mp (UInt32.not_lt.mp hge)
  unfold BUF_LEN READ_SIZE at *
  omega

theorem Hashed.step {f : Flash} {offset : UInt32} {r : Except PreloadedError H.Hasher} (hlt : offset < size)
    (h : Hashed H f base size (offset + UInt32.ofNat (take size offset))
      (H.update hasher (Nor.read f (base.toNat + offset.toNat) (take size offset))) r) :
    Hashed H f base size offset hasher r := by
  cases r with
  | error err => exact h
  | ok hasher' =>
    obtain ⟨haligned, hfed⟩ := h
    refine ⟨haligned, ?_⟩
    have hlt' := UInt32.lt_iff_toNat_lt.mp hlt
    have htake := toNat_take hlt
    have hrest : size.toNat - offset.toNat = take size offset +
        (size.toNat - (offset + UInt32.ofNat (take size offset)).toNat) := by
      rw [toNat_offset_take hlt, htake]
      omega
    have hwhole := hfed.cons
    rw [toNat_offset_take hlt, ← htake, ← Nat.add_assoc, Nor.read_append] at hwhole
    rw [hrest, toNat_offset_take hlt, ← htake]
    exact hwhole

theorem wp_hashFrom (hd : ReadsAligned d flash capacity) (hcapacity : capacity ≤ 2 ^ 32)
    (hbase : base.toNat % READ_SIZE = 0) (hin : base.toNat + size.toNat ≤ capacity) {offset : UInt32}
    (hstands : Stands size offset) :
    (ExceptT.run (hashFrom H base size offset hasher)).wp d (fun _ _ => True)
      (fun r _ => Hashed H (flash s) base size offset hasher r) s := by
  induction hleft : size.toNat - offset.toNat using Nat.strong_induction_on generalizing offset hasher s with
  | _ left ih =>
    rw [hashFrom]
    split
    · next hlt =>
      have hnext := toNat_offset_take hlt
      have hlt' := UInt32.lt_iff_toNat_lt.mp hlt
      have htake := toNat_take hlt
      have haddr : (base + offset).toNat = base.toNat + offset.toNat := by
        rw [UInt32.toNat_add]
        exact Nat.mod_eq_of_lt (by omega)
      rw [Prog.wp_try]
      by_cases halign : take size offset % READ_SIZE = 0
      · have hoffset := hstands.aligned hlt
        have hbuf : 0 < BUF_LEN := by decide
        refine hd.wp_read ?_ halign ?_ fun s' hs' => ?_
        · rw [haddr, Nat.add_mod, hbase, hoffset]
          rfl
        · rw [haddr, htake]
          omega
        · refine Prog.wp_mono ?_ (ih _ ?_ (hstands.next hlt halign) rfl)
          · intro r s'' hrest
            rw [hs', haddr] at hrest
            exact hrest.step hlt
          · rw [hnext]
            omega
      · exact hd.wp_refused halign fun s' => hstands.refused hlt halign
    · next hge =>
      obtain ⟨heq, haligned⟩ := hstands.done hge
      refine ⟨haligned, ?_⟩
      rw [heq, Nat.sub_self]
      exact Fed.nil

/-! ### Finding the target -/

def IsRead : NorOp → Prop
  | .read .. => True
  | .erase .. => False
  | .write .. => False

theorem only_read (offset : UInt32) (len : Nat) (e : ε) :
    Prog.Only IsRead (ExceptT.run (NorFlash.read offset len e)) := by
  refine Prog.only_try (Prog.only_bind (Prog.only_op trivial) fun window => ?_) fun _ => trivial
  cases window with
  | some window => trivial
  | none => trivial

theorem only_readPartitionTable (idf : EspIdf) (e : ε) :
    Prog.Only IsRead (ExceptT.run (readPartitionTable idf e)) := by
  refine Prog.only_try (only_read _ _ _) fun bytes => ?_
  cases idf.parse bytes with
  | some table => trivial
  | none => trivial

theorem only_readEntries (idf : EspIdf) (fb : Fibewi) :
    Prog.Only IsRead (ExceptT.run (Otadata.readEntries idf fb)) := by
  refine Prog.only_try (Prog.only_try (Prog.only_try (only_readPartitionTable _ _) fun table => ?_)
    fun partition => ?_) fun _ => trivial
  · split
    · trivial
    · trivial
  · exact Prog.only_try (only_read _ _ _) fun _ => Prog.only_try (only_read _ _ _) fun _ => trivial

theorem only_writeTarget (idf : EspIdf) (fb : Fibewi) :
    Prog.Only IsRead (ExceptT.run (Otadata.writeTarget idf fb)) := by
  refine Prog.only_try (only_readEntries idf fb) fun entries => ?_
  cases Otadata.targetSlot fb entries with
  | none => trivial
  | some target =>
    refine Prog.only_adapt (Prog.only_try (Prog.only_adapt ?_) fun _ => trivial)
    refine Prog.only_try (only_readPartitionTable _ _) fun table => ?_
    split
    · trivial
    · trivial
    · trivial

theorem ReadsAligned.flash_writeTarget (hd : ReadsAligned d flash capacity) (idf : EspIdf) (fb : Fibewi) :
    flash ((ExceptT.run (Otadata.writeTarget idf fb)).run d s).2 = flash s := by
  refine (only_writeTarget idf fb).run (d := d) (J := fun s' => flash s' = flash s) ?_ rfl
  intro s' o ho hs
  cases o with
  | read offset len => exact (hd.same ..).trans hs
  | erase lo hi => exact ho.elim
  | write offset bytes => exact ho.elim

/-! ### The whole call -/

variable {idf : EspIdf} {fb : Fibewi} {target : AppPartition}

/-- The image is hashed exactly, and one that is too large is not read. -/
structure HashesImage (H : Sha256) (idf : EspIdf) (fb : Fibewi) (d : Device NorOp NorOp.Ans σ)
    (flash : σ → Flash) (s : σ) (target : AppPartition) (size : UInt32) : Prop where
  hashed : size.toNat ≤ target.size → ((ExceptT.run (hashPreloaded H idf fb size)).run d s).1 =
    .ok (target.slot, Digest.of (Nor.read (flash s) target.offset.toNat size.toNat))
  tooLarge : target.size < size.toNat →
    ((ExceptT.run (hashPreloaded H idf fb size)).run d s).1 = .error .tooLarge ∧
      (ExceptT.run (hashPreloaded H idf fb size)).events d s =
        (ExceptT.run (Otadata.writeTarget idf fb)).events d s

theorem run_hashPreloaded (htarget : ((ExceptT.run (Otadata.writeTarget idf fb)).run d s).1 = .ok target)
    (hfits : size.toNat ≤ target.size) :
    ((ExceptT.run (hashPreloaded H idf fb size)).run d s).1 =
      ((ExceptT.run (hashFrom H target.offset size 0 H.new)).run d
        ((ExceptT.run (Otadata.writeTarget idf fb)).run d s).2).1.map
          fun hasher => (target.slot, H.finalize hasher) := by
  unfold hashPreloaded
  rw [Prog.run_try, Prog.run_adapt, htarget]
  simp only [Except.mapError]
  rw [if_neg (by omega), Prog.run_try]
  generalize (ExceptT.run (hashFrom H target.offset size 0 H.new)).run d
    ((ExceptT.run (Otadata.writeTarget idf fb)).run d s).2 = answer
  obtain ⟨r, s'⟩ := answer
  cases r with
  | ok hasher => rfl
  | error err => rfl

theorem hashPreloaded_tooLarge
    (htarget : ((ExceptT.run (Otadata.writeTarget idf fb)).run d s).1 = .ok target)
    (hlarge : target.size < size.toNat) :
    ((ExceptT.run (hashPreloaded H idf fb size)).run d s).1 = .error .tooLarge ∧
      (ExceptT.run (hashPreloaded H idf fb size)).events d s =
        (ExceptT.run (Otadata.writeTarget idf fb)).events d s := by
  unfold hashPreloaded
  constructor
  · rw [Prog.run_try, Prog.run_adapt, htarget]
    simp only [Except.mapError]
    rw [if_pos hlarge]
    rfl
  · rw [ExceptT.run_bind, Prog.events_bind, Prog.events_adapt, Prog.run_adapt, htarget]
    simp only [Except.mapError]
    rw [if_pos hlarge]
    exact List.append_nil _

theorem run_hashFrom (hd : ReadsAligned d flash capacity) (hcapacity : capacity ≤ 2 ^ 32)
    (hbase : base.toNat % READ_SIZE = 0) (hin : base.toNat + size.toNat ≤ capacity) :
    Hashed H (flash s) base size 0 hasher ((ExceptT.run (hashFrom H base size 0 hasher)).run d s).1 :=
  Prog.run_of_wp (wp_hashFrom hd hcapacity hbase hin ⟨Nat.zero_le _, .inl (Nat.zero_mod _)⟩)

/-- `hash_preloaded` hashes exactly the image, except where its last read is of a length that the
driver refuses. -/
theorem hashPreloaded_iff (hd : ReadsAligned d flash capacity) (hcapacity : capacity ≤ 2 ^ 32)
    (hH : H.Computes) (htarget : ((ExceptT.run (Otadata.writeTarget idf fb)).run d s).1 = .ok target)
    (hoffset : 4096 ∣ target.offset.toNat) (hinside : target.offset.toNat + target.size ≤ capacity) :
    HashesImage H idf fb d flash s target size ↔ 4 ∣ size.toNat ∨ target.size < size.toNat := by
  by_cases hlarge : target.size < size.toNat
  · exact ⟨fun _ => .inr hlarge, fun _ => ⟨fun hfits => absurd hlarge (Nat.not_lt.mpr hfits),
      fun _ => hashPreloaded_tooLarge htarget hlarge⟩⟩
  have hfits := Nat.not_lt.mp hlarge
  have haligned : target.offset.toNat % READ_SIZE = 0 := by
    unfold READ_SIZE
    omega
  have hloop : Hashed H (flash s) target.offset size 0 H.new
      ((ExceptT.run (hashFrom H target.offset size 0 H.new)).run d
        ((ExceptT.run (Otadata.writeTarget idf fb)).run d s).2).1 := by
    rw [← hd.flash_writeTarget (s := s) idf fb]
    exact run_hashFrom hd hcapacity haligned (by omega)
  have hrun := run_hashPreloaded (H := H) htarget hfits
  generalize ((ExceptT.run (hashFrom H target.offset size 0 H.new)).run d
    ((ExceptT.run (Otadata.writeTarget idf fb)).run d s).2).1 = r at hloop hrun
  cases r with
  | error err =>
    have hodd : ¬ 4 ∣ size.toNat := fun hdvd => hloop (Nat.mod_eq_zero_of_dvd hdvd)
    refine ⟨fun hhashes => ?_, fun h => absurd h (not_or.mpr ⟨hodd, hlarge⟩)⟩
    cases hrun.symm.trans (hhashes.hashed hfits)
  | ok hasher =>
    obtain ⟨haligned, chunks, hchunks, rfl⟩ := hloop
    rw [show (0 : UInt32).toNat = 0 from rfl, Nat.add_zero, Nat.sub_zero] at hchunks
    refine ⟨fun _ => .inl (Nat.dvd_of_mod_eq_zero haligned), fun _ => ⟨fun _ => ?_, fun h => absurd h hlarge⟩⟩
    rw [hrun, Except.map, hH chunks, hchunks]

/-! ### A read-only driver -/

def alignedDriver (capacity : Nat) : Device NorOp NorOp.Ans Flash
  | f, .read offset len =>
    (if offset.toNat % READ_SIZE = 0 ∧ len % READ_SIZE = 0 ∧ offset.toNat + len ≤ capacity then
      some fun i => f (offset.toNat + i)
    else none, f)
  | f, .erase .. => (false, f)
  | f, .write .. => (false, f)

theorem alignedDriver_reads (capacity : Nat) : ReadsAligned (alignedDriver capacity) id capacity where
  inside _ _ _ hoffset hlen hin := if_pos ⟨hoffset, hlen, hin⟩
  refused _ _ _ hlen := if_neg fun h => hlen h.2.1
  same _ _ _ := rfl

/-- A hasher that keeps the message. -/
def messageHasher : Sha256 where
  Hasher := List UInt8
  new := []
  update := (· ++ ·)
  finalize := Digest.of

theorem messageHasher_computes : messageHasher.Computes := by
  intro chunks
  change Digest.of (chunks.foldl (· ++ id ·) []) = .of chunks.flatten
  rw [List.foldl_append_eq_append, List.nil_append, List.map_id]

/-- Slot 0 runs, and slot 1 is the target. -/
def preloadedFlash : Flash :=
  Sample.otaFlash (Sample.encode ⟨1, Sample.VALID⟩, Sample.encode ⟨2, Sample.ABORTED⟩)

def preloadedTarget : AppPartition := ⟨.ota1, 0x120000, 0x100000⟩

theorem preloaded_target :
    ((ExceptT.run (Otadata.writeTarget firstMatch Sample.fibewi)).run (alignedDriver 0x400000)
      preloadedFlash).1 = .ok preloadedTarget := by
  decide +kernel

theorem hashPreloaded_eight : HashesImage messageHasher firstMatch Sample.fibewi
    (alignedDriver 0x400000) id preloadedFlash preloadedTarget 8 :=
  (hashPreloaded_iff (alignedDriver_reads _) (by decide) messageHasher_computes preloaded_target (by decide)
    (by decide)).mpr (.inl (by decide))

/-- The only read of an image of five bytes is refused. -/
theorem five_bytes_refused : ¬ ∀ size, HashesImage messageHasher firstMatch Sample.fibewi
    (alignedDriver 0x400000) id preloadedFlash preloadedTarget size := by
  intro hall
  have hrefused : ((ExceptT.run (hashPreloaded messageHasher firstMatch Sample.fibewi 5)).run
      (alignedDriver 0x400000) preloadedFlash).1 = .error .flash := by
    decide +kernel
  cases hrefused.symm.trans ((hall 5).hashed (by decide))

end Preloaded

end Espbewi
