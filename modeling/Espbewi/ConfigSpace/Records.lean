import Espbewi.ConfigSpace.Calls
import Espbewi.Ota.Panics

/-! The record format. -/

namespace Espbewi.ConfigSpace

open Lib

variable {raw : List UInt8} {generation : UInt64} {present : Bool} {payload : List UInt8}

/-- `decode_record` with its slices and its index made explicit: `none` is a panic. -/
def decodeRecordOrPanic (raw : List UInt8) : Option (Except NvsConfigError (UInt64 × Bool × List UInt8)) :=
  if raw.length < HEADER_LEN then some (.error .corruptRecord)
  else do
    let magic ← slice raw 0 4
    if magic ≠ MAGIC then some (.error .corruptRecord)
    else do
      let bytes ← slice raw 4 12
      let generation ← copyFromSlice (List.replicate 8 0) 0 8 bytes
      let flags ← raw[12]?
      if flags &&& ~~~FLAG_PRESENT ≠ 0 then some (.error .corruptRecord)
      else do
        let payload ← slice raw HEADER_LEN raw.length
        some (.ok (UInt64.ofNat (ofLe generation), flags &&& FLAG_PRESENT != 0, payload))

theorem slice_of_le {lo hi : Nat} (hlo : lo ≤ hi) (hhi : hi ≤ raw.length) :
    slice raw lo hi = some ((raw.drop lo).take (hi - lo)) := if_pos ⟨hlo, hhi⟩

theorem decodeRecordOrPanic_eq (raw : List UInt8) : decodeRecordOrPanic raw = some (decodeRecord raw) := by
  unfold decodeRecordOrPanic decodeRecord
  by_cases hshort : raw.length < HEADER_LEN
  · rw [if_pos hshort, if_pos (.inl hshort)]
  · have hlen : HEADER_LEN ≤ raw.length := Nat.not_lt.mp hshort
    have hheader : HEADER_LEN = 13 := rfl
    have hbytes : ((raw.drop 4).take 8).length = 8 := by
      rw [List.length_take, List.length_drop]
      omega
    have hcopy : copyFromSlice (List.replicate 8 (0 : UInt8)) 0 8 ((raw.drop 4).take 8) =
        some ((raw.drop 4).take 8) := by
      rw [copyFromSlice, if_pos ⟨by decide, by decide, hbytes⟩]
      simp
    rw [if_neg hshort, slice_of_le (by decide) (by omega), Option.bind_eq_bind, Option.bind_some,
      List.drop_zero]
    by_cases hmagic : raw.take 4 = MAGIC
    · have hpayload : slice raw HEADER_LEN raw.length = some (raw.drop HEADER_LEN) := by
        rw [slice_of_le hlen (Nat.le_refl _), List.take_of_length_le (by rw [List.length_drop])]
      rw [if_neg (not_not.mpr hmagic), if_neg (not_or.mpr ⟨hshort, not_not.mpr hmagic⟩),
        slice_of_le (by decide) (by omega), Option.bind_eq_bind, Option.bind_some, hcopy,
        Option.bind_some, List.getElem?_eq_getElem (by omega), Option.bind_some, hpayload,
        List.getD_eq_getElem _ _ (by omega)]
      simp only [apply_ite some, Option.bind_some]
    · rw [if_pos hmagic, if_pos (.inr hmagic)]

/-- A flag byte without unknown bits is one of two. -/
theorem flags_eq {x : UInt8} (h : x &&& ~~~FLAG_PRESENT = 0) :
    x = if x &&& FLAG_PRESENT != 0 then FLAG_PRESENT else 0 := by
  have hbits := congrArg UInt8.toNat h
  rw [UInt8.toNat_and, show (~~~FLAG_PRESENT).toNat = (2 ^ 7 - 1) <<< 1 from rfl,
    land_high_bits (k := 1) x.toNat_lt] at hbits
  change x.toNat / 2 * 2 = 0 at hbits
  have hsmall : x.toNat = 0 ∨ x.toNat = 1 := by omega
  rcases hsmall with hx | hx
  · obtain rfl : x = 0 := UInt8.toNat_inj.mp hx
    rfl
  · obtain rfl : x = 1 := UInt8.toNat_inj.mp hx
    rfl

/-- What is decoded is the record it came from. -/
theorem eq_encodeRecord (h : decodeRecord raw = .ok (generation, present, payload)) :
    raw = encodeRecord generation present payload := by
  unfold decodeRecord at h
  split at h
  · cases h
  · next hheader =>
    simp only at h
    split at h
    · cases h
    · next hflags =>
      cases h
      rw [not_or, not_not] at hheader
      obtain ⟨hlen, hmagic⟩ := hheader
      have hlen : 13 ≤ raw.length := Nat.not_lt.mp hlen
      have hbytes : ((raw.drop 4).take 8).length = 8 := by
        rw [List.length_take, List.length_drop]
        omega
      have hgeneration : (UInt64.ofNat (ofLe ((raw.drop 4).take 8))).toNat =
          ofLe ((raw.drop 4).take 8) := by
        have hlt := ofLe_lt ((raw.drop 4).take 8)
        rw [hbytes] at hlt
        exact (UInt64.toNat_ofNat' ..).trans (Nat.mod_eq_of_lt hlt)
      have htoLe : toLe 8 (ofLe ((raw.drop 4).take 8)) = (raw.drop 4).take 8 := by
        have := toLe_ofLe ((raw.drop 4).take 8)
        rwa [hbytes] at this
      have hflag : [raw.getD 12 0] = (raw.drop 12).take 1 := by
        rw [List.getD_eq_getElem _ _ (by omega), List.drop_eq_getElem_cons (by omega), List.take_succ_cons,
          List.take_zero]
      rw [encodeRecord, hgeneration, htoLe, ← flags_eq (not_not.mp hflags), ← hmagic, hflag]
      have hsplit : ∀ i j, raw.drop i = (raw.drop i).take j ++ raw.drop (i + j) := by
        intro i j
        rw [← List.drop_drop, List.take_append_drop]
      calc raw = raw.take 4 ++ raw.drop 4 := (List.take_append_drop ..).symm
        _ = raw.take 4 ++ ((raw.drop 4).take 8 ++ raw.drop 12) := congrArg _ (hsplit 4 8)
        _ = raw.take 4 ++ ((raw.drop 4).take 8 ++ ((raw.drop 12).take 1 ++ raw.drop 13)) :=
          congrArg (fun l => raw.take 4 ++ ((raw.drop 4).take 8 ++ l)) (hsplit 12 1)
        _ = _ := by
          simp only [List.append_assoc]
          rfl

theorem decodeRecord_ok_iff : decodeRecord raw = .ok (generation, present, payload) ↔
    raw = encodeRecord generation present payload := by
  constructor
  · exact eq_encodeRecord
  · rintro rfl
    exact decodeRecord_encodeRecord ..

theorem decodeRecord_error (raw : List UInt8) (e : NvsConfigError) (h : decodeRecord raw = .error e) :
    e = .corruptRecord := by
  unfold decodeRecord at h
  split at h
  · cases h
    rfl
  · simp only at h
    split at h
    · cases h
      rfl
    · cases h

theorem decodeRecord_refuses (h : raw.length < HEADER_LEN ∨ raw.take 4 ≠ MAGIC ∨
    raw.getD 12 0 &&& ~~~FLAG_PRESENT ≠ 0) : decodeRecord raw = .error .corruptRecord := by
  unfold decodeRecord
  split
  · rfl
  · next hheader =>
    exact if_pos (h.elim (fun hshort => absurd (.inl hshort) hheader)
      fun h => h.elim (fun hmagic => absurd (.inr hmagic) hheader) id)

/-- Records and the byte strings that are accepted correspond one to one, every other byte string
is a corrupt record, and decoding stays inside its input. -/
theorem record_bijection :
    (∀ generation present payload, decodeRecord (encodeRecord generation present payload) =
      .ok (generation, present, payload)) ∧
    (∀ raw generation present payload, decodeRecord raw = .ok (generation, present, payload) ↔
      raw = encodeRecord generation present payload) ∧
    (∀ generation present payload generation' present' payload',
      encodeRecord generation present payload = encodeRecord generation' present' payload' →
        generation = generation' ∧ present = present' ∧ payload = payload') ∧
    (∀ raw, (∀ generation present payload, raw ≠ encodeRecord generation present payload) →
      decodeRecord raw = .error .corruptRecord) ∧
    (∀ raw, raw.length < HEADER_LEN ∨ raw.take 4 ≠ MAGIC ∨ raw.getD 12 0 &&& ~~~FLAG_PRESENT ≠ 0 →
      decodeRecord raw = .error .corruptRecord) ∧
    ∀ raw, decodeRecordOrPanic raw = some (decodeRecord raw) := by
  refine ⟨decodeRecord_encodeRecord, fun _ _ _ _ => decodeRecord_ok_iff, ?_, fun raw hraw => ?_,
    fun _ => decodeRecord_refuses, decodeRecordOrPanic_eq⟩
  · intro generation present payload generation' present' payload' h
    have hdecode := decodeRecord_encodeRecord generation present payload
    rw [h, decodeRecord_encodeRecord] at hdecode
    cases hdecode
    exact ⟨rfl, rfl, rfl⟩
  · cases hdecode : decodeRecord raw with
    | ok record => exact absurd (decodeRecord_ok_iff.mp hdecode) (hraw _ _ _)
    | error e => rw [decodeRecord_error raw e hdecode]

end Espbewi.ConfigSpace
