import Espbewi.ConfigSpace.Backend
import Mathlib.Algebra.BigOperators.Group.List.Basic

/-! The entries that a blob takes. -/

namespace Espbewi.ConfigSpace

open Lib

variable (N : EspNvs)

/-! ### The entries of a blob -/

/-- The chunks that a blob of `n` bytes is cut into. -/
def chunks (n : Nat) : List Nat :=
  if n = 0 then [] else min n N.MAX_BLOB_DATA_PER_PAGE :: chunks (n - N.MAX_BLOB_DATA_PER_PAGE)
termination_by n
decreasing_by
  have := N.page_pos
  omega

/-- A header and the data of a chunk. -/
def chunkEntries (chunk : Nat) : Nat := 1 + (chunk + (N.ITEM_SIZE - 1)) / N.ITEM_SIZE

/-- The chunks, and the index of the blob. -/
def blobEntries (n : Nat) : Nat := ((chunks N n).map (chunkEntries N)).sum + 1

/-- The entries of a blob among the items. -/
def itemEntries : Option Item → Nat
  | some (.blob data) => blobEntries N data.length
  | _ => 0

variable {N}

theorem ceil_add_mul {k q : Nat} (hk : 0 < k) (hq : k ∣ q) (n : Nat) :
    (q + n + (k - 1)) / k = q / k + (n + (k - 1)) / k := by
  obtain ⟨m, rfl⟩ := hq
  rw [Nat.add_assoc, Nat.mul_add_div hk, Nat.mul_div_cancel_left m hk]

theorem blobEntries_eq (n : Nat) : blobEntries N n = (n + (N.ITEM_SIZE - 1)) / N.ITEM_SIZE +
    (n + (N.MAX_BLOB_DATA_PER_PAGE - 1)) / N.MAX_BLOB_DATA_PER_PAGE + 1 := by
  have hitem := N.item_pos
  have hpage := N.page_pos
  rw [blobEntries]
  congr 1
  induction n using Nat.strongRecOn with | _ n ih =>
  rw [chunks]
  split
  · next hzero =>
    subst hzero
    rw [Nat.zero_add, Nat.zero_add, Nat.div_eq_of_lt (by omega), Nat.div_eq_of_lt (by omega)]
    rfl
  · next hpos =>
    rw [List.map_cons, List.sum_cons, ih _ (by omega), chunkEntries]
    by_cases hlast : n ≤ N.MAX_BLOB_DATA_PER_PAGE
    · -- the last chunk is the rest of the blob
      rw [Nat.min_eq_left hlast, Nat.sub_eq_zero_of_le hlast, Nat.zero_add, Nat.zero_add,
        Nat.div_eq_of_lt (show N.ITEM_SIZE - 1 < N.ITEM_SIZE by omega),
        Nat.div_eq_of_lt (show N.MAX_BLOB_DATA_PER_PAGE - 1 < N.MAX_BLOB_DATA_PER_PAGE by omega),
        show n + (N.MAX_BLOB_DATA_PER_PAGE - 1) = (n - 1) + N.MAX_BLOB_DATA_PER_PAGE by omega,
        Nat.add_div_right _ hpage, Nat.div_eq_of_lt (show n - 1 < N.MAX_BLOB_DATA_PER_PAGE by omega)]
      omega
    · -- a whole chunk holds whole items
      obtain ⟨m, rfl⟩ := Nat.exists_eq_add_of_le (Nat.le_of_not_le hlast)
      have hfull := ceil_add_mul hitem N.item_dvd 0
      have hzero : (0 + (N.ITEM_SIZE - 1)) / N.ITEM_SIZE = 0 := Nat.div_eq_of_lt (by omega)
      rw [hzero, Nat.add_zero, Nat.add_zero] at hfull
      rw [Nat.min_eq_right (by omega), Nat.add_sub_cancel_left, hfull, ceil_add_mul hitem N.item_dvd,
        ceil_add_mul hpage (dvd_refl _), Nat.div_self hpage]
      omega

theorem blobEntries_mono {m n : Nat} (h : m ≤ n) : blobEntries N m ≤ blobEntries N n := by
  rw [blobEntries_eq, blobEntries_eq]
  have hitems : (m + (N.ITEM_SIZE - 1)) / N.ITEM_SIZE ≤ (n + (N.ITEM_SIZE - 1)) / N.ITEM_SIZE :=
    Nat.div_le_div_right (by omega)
  have hchunks : (m + (N.MAX_BLOB_DATA_PER_PAGE - 1)) / N.MAX_BLOB_DATA_PER_PAGE ≤
      (n + (N.MAX_BLOB_DATA_PER_PAGE - 1)) / N.MAX_BLOB_DATA_PER_PAGE :=
    Nat.div_le_div_right (by omega)
  omega

theorem checkedAdd_eq {a b c : Nat} (h : checkedAdd N a b = some c) : c = a + b := by
  unfold checkedAdd at h
  split at h
  · exact (Option.some.inj h).symm
  · cases h

theorem checkedMul_eq {a b c : Nat} (h : checkedMul N a b = some c) : c = a * b := by
  unfold checkedMul at h
  split at h
  · exact (Option.some.inj h).symm
  · cases h

/-- `entries_for_blob` counts chunk by chunk, unless it overflows. -/
theorem entriesForBlob_eq {n entries : Nat} (h : entriesForBlob N n = some entries) :
    entries = blobEntries N n := by
  simp only [entriesForBlob, Option.bind_eq_bind, Option.bind_eq_some_iff] at h
  obtain ⟨a, ha, b, hb, c, hc, h⟩ := h
  rw [checkedAdd_eq h, checkedAdd_eq hc, checkedAdd_eq ha, checkedAdd_eq hb, blobEntries_eq]

theorem entriesForBlob_isSome {n : Nat} (hn : n + N.ITEM_SIZE + N.MAX_BLOB_DATA_PER_PAGE ≤ N.usizeMax)
    (h : blobEntries N n ≤ N.usizeMax) : (entriesForBlob N n).isSome := by
  rw [blobEntries_eq] at h
  simp only [entriesForBlob, checkedAdd, Option.bind_eq_bind]
  rw [if_pos (by omega), if_pos (by omega), Option.bind_some, Option.bind_some, if_pos (by omega),
    Option.bind_some, if_pos h]
  rfl

theorem reservationUnits_eq {space : Space} {maxBytes units : Nat}
    (h : reservationUnits N space maxBytes = some units) :
    units = 2 * blobEntries N (HEADER_LEN + maxBytes) := by
  unfold reservationUnits at h
  split at h
  · cases h
  · simp only [Option.bind_eq_bind, Option.bind_eq_some_iff] at h
    obtain ⟨a, ha, b, hb, h⟩ := h
    rw [checkedMul_eq h, entriesForBlob_eq hb, checkedAdd_eq ha, Nat.mul_comm]

/-- What is reserved is never a wrapped number. -/
theorem reservationUnits_cases (space : Space) (maxBytes : Nat) :
    reservationUnits N space maxBytes = none ∨
      reservationUnits N space maxBytes = some (2 * blobEntries N (HEADER_LEN + maxBytes)) := by
  cases h : reservationUnits N space maxBytes with
  | none => exact .inl rfl
  | some units => exact .inr (congrArg some (reservationUnits_eq h))

end Espbewi.ConfigSpace
