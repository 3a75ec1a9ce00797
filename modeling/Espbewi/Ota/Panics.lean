import Espbewi.Ota.Artifact

/-! The artifact storage with every unchecked sum, product and slice of the code made
explicit: `none` is a panic. -/

namespace Espbewi

open Lib Nor

variable {α : Type}

/-- `x + y` in a word of `w` bits. -/
def addOrPanic (w x y : Nat) : Option Nat := if x + y < 2 ^ w then some (x + y) else none

/-- `x * y` in a word of `w` bits. -/
def mulOrPanic (w x y : Nat) : Option Nat := if x * y < 2 ^ w then some (x * y) else none

/-- `l[lo..hi]`. -/
def slice (l : List α) (lo hi : Nat) : Option (List α) :=
  if lo ≤ hi ∧ hi ≤ l.length then some ((l.drop lo).take (hi - lo)) else none

/-- `l[lo..hi].copy_from_slice(src)`. -/
def copyFromSlice (l : List α) (lo hi : Nat) (src : List α) : Option (List α) :=
  if lo ≤ hi ∧ hi ≤ l.length ∧ src.length = hi - lo then some (l.take lo ++ src ++ l.drop hi) else none

/-- `l[lo..hi].fill(x)`. -/
def fill (l : List α) (lo hi : Nat) (x : α) : Option (List α) :=
  if lo ≤ hi ∧ hi ≤ l.length then some (l.take lo ++ List.replicate (hi - lo) x ++ l.drop hi) else none

namespace EspArtifactStorage

/-- The checks of `flush_block` before the padded length is known. -/
def blockStart (g : Geometry) (w : Nat) (st : EspArtifactStorage) (logicalOffset : UInt64)
    (bytes : List UInt8) : Except FlashWriteError Nat := do
  if bytes.length > g.eraseSize then throw .flash
  let logical ← tryUsize w logicalOffset.toNat .addressOverflow
  if logical % g.eraseSize ≠ 0 then throw .unaligned
  let eraseLogicalEnd ← checkedAdd w logical g.eraseSize .addressOverflow
  if eraseLogicalEnd > st.partitionSize then throw .addressOverflow
  return logical

/-- The scratch buffer with the padded block, and the slice of it that is programmed. -/
def fillOrPanic (bytes scratch : List UInt8) (padded : Nat) : Option (List UInt8 × List UInt8) := do
  let scratch ← copyFromSlice scratch 0 bytes.length bytes
  let scratch ← fill scratch bytes.length padded 0
  return (scratch, ← slice scratch 0 padded)

def flushBlockOrPanic (g : Geometry) (w : Nat) (st : EspArtifactStorage) (logicalOffset : UInt64)
    (bytes scratch : List UInt8) : NorProg (Option (Except FlashWriteError Unit × List UInt8)) :=
  match blockStart g w st logicalOffset bytes with
  | .error e => pure (some (.error e, scratch))
  | .ok logical => match mulOrPanic w ((bytes.length + g.writeSize - 1) / g.writeSize) g.writeSize with
    | none => pure none
    | some padded =>
      if padded > g.eraseSize ∨ padded > scratch.length then pure (some (.error .scratchTooSmall, scratch))
      else match fillOrPanic bytes scratch padded with
        | none => pure none
        | some (scratch, block) => match blockBounds g w st logical with
          | .error e => pure (some (.error e, scratch))
          | .ok (absolute, eraseEnd) =>
            ExceptT.run (flushAt st absolute eraseEnd block) >>= fun r => pure (some (r, scratch))

def writeLoopOrPanic (g : Geometry) (w : Nat) (st : EspArtifactStorage) (durableOffset : UInt64)
    (pending : List UInt8) (consumed : Nat) (scratch : List UInt8) :
    NorProg (Option (Except FlashWriteError UInt64 × List UInt8)) :=
  if pending.length - consumed ≥ g.eraseSize then
    match addOrPanic w consumed g.eraseSize, addOrPanic 64 durableOffset.toNat consumed,
      slice pending consumed (consumed + g.eraseSize) with
    | some _, some offset, some block =>
      flushBlockOrPanic g w st (UInt64.ofNat offset) block scratch >>= fun
        | none => pure none
        | some (.error e, scratch) => pure (some (.error e, scratch))
        | some (.ok _, scratch) =>
          writeLoopOrPanic g w st durableOffset pending (consumed + g.eraseSize) scratch
    | _, _, _ => pure none
  else match addOrPanic 64 durableOffset.toNat consumed with
    | none => pure none
    | some offset => pure (some (.ok (UInt64.ofNat offset), scratch))
termination_by pending.length - consumed
decreasing_by
  have := g.erase_pos
  omega

def writeOrPanic (g : Geometry) (w : Nat) (st : EspArtifactStorage) (durableOffset : UInt64)
    (pending scratch : List UInt8) : NorProg (Option (Except FlashWriteError UInt64 × List UInt8)) :=
  writeLoopOrPanic g w st durableOffset pending 0 scratch

def finishOrPanic (g : Geometry) (w : Nat) (st : EspArtifactStorage) (durableOffset : UInt64)
    (pending scratch : List UInt8) : NorProg (Option (Except FlashWriteError UInt64 × List UInt8)) :=
  if pending = [] then pure (some (.ok durableOffset, scratch))
  else if pending.length ≥ g.eraseSize then pure (some (.error .flash, scratch))
  else flushBlockOrPanic g w st durableOffset pending scratch >>= fun
    | none => pure none
    | some (.error e, scratch) => pure (some (.error e, scratch))
    | some (.ok _, scratch) => match addOrPanic 64 durableOffset.toNat pending.length with
      | none => pure none
      | some offset => pure (some (.ok (UInt64.ofNat offset), scratch))

/-! ### None of them panics -/

variable {g : Geometry} {w : Nat} {st : EspArtifactStorage} {offset : UInt64} {bytes scratch : List UInt8}

theorem fillOrPanic_eq {padded : Nat} (hbytes : bytes.length ≤ padded) (hscratch : padded ≤ scratch.length) :
    fillOrPanic bytes scratch padded =
      some (bytes ++ List.replicate (padded - bytes.length) 0 ++ scratch.drop padded,
        bytes ++ List.replicate (padded - bytes.length) 0) := by
  have hcopy : copyFromSlice scratch 0 bytes.length bytes = some (bytes ++ scratch.drop bytes.length) := by
    rw [copyFromSlice, if_pos ⟨Nat.zero_le _, by omega, rfl⟩, List.take_zero, List.nil_append]
  have hfill : fill (bytes ++ scratch.drop bytes.length) bytes.length padded 0 =
      some (bytes ++ List.replicate (padded - bytes.length) 0 ++ scratch.drop padded) := by
    rw [fill, if_pos ⟨hbytes, by simp; omega⟩, List.take_left, List.drop_append, List.drop_drop,
      List.drop_eq_nil_of_le hbytes, List.nil_append, Nat.add_sub_cancel' hbytes]
  simp only [fillOrPanic, hcopy, hfill, Option.bind_eq_bind, Option.bind_some]
  rw [slice, if_pos ⟨Nat.zero_le _, by simp; omega⟩, List.drop_zero, Nat.sub_zero, List.take_left' (by simp; omega)]
  rfl

theorem padded_le (hbytes : bytes.length ≤ g.eraseSize) : padded g bytes.length ≤ g.eraseSize := by
  have : padded g bytes.length ≤ padded g g.eraseSize :=
    Nat.mul_le_mul_right _ (Nat.div_le_div_right (by omega))
  rwa [padded_eraseSize] at this

theorem blockOffset_eq (g : Geometry) (w : Nat) (st : EspArtifactStorage) (offset : UInt64)
    (bytes scratch : List UInt8) :
    blockOffset g w st offset bytes scratch = blockStart g w st offset bytes >>= fun logical =>
      if padded g bytes.length > g.eraseSize ∨ padded g bytes.length > scratch.length then
        .error .scratchTooSmall
      else .ok logical := by
  unfold blockOffset blockStart
  by_cases hlen : bytes.length > g.eraseSize
  · simp only [if_pos hlen]
    rfl
  · simp only [if_neg hlen]
    cases tryUsize w offset.toNat FlashWriteError.addressOverflow with
    | error e => rfl
    | ok logical =>
      by_cases haligned : logical % g.eraseSize ≠ 0
      · simp only [Except.bind, bind, if_pos haligned]
        rfl
      · cases hend : checkedAdd w logical g.eraseSize FlashWriteError.addressOverflow with
        | error e =>
          simp only [Except.bind, bind, if_neg haligned, hend]
        | ok eraseLogicalEnd =>
          by_cases hfits : eraseLogicalEnd > st.partitionSize
          · simp only [Except.bind, bind, if_neg haligned, hend, if_pos hfits]
            rfl
          · simp only [Except.bind, bind, if_neg haligned, hend, if_neg hfits]
            rfl

theorem blockStart_ok {logical : Nat} (h : blockStart g w st offset bytes = .ok logical) :
    bytes.length ≤ g.eraseSize := by
  simp only [blockStart, bind_ok, unless_ok] at h
  obtain ⟨hlen, -⟩ := h
  omega

/-- `flush_block` never panics. -/
theorem flushBlockOrPanic_eq (hgeo : g.eraseSize < 2 ^ w) :
    flushBlockOrPanic g w st offset bytes scratch =
      flushBlock g w st offset bytes scratch >>= fun r => pure (some r) := by
  unfold flushBlockOrPanic flushBlock
  rw [blockOffset_eq]
  cases hstart : blockStart g w st offset bytes with
  | error e => rfl
  | ok logical =>
    have hpadded := padded_le (blockStart_ok hstart)
    have hmul : mulOrPanic w ((bytes.length + g.writeSize - 1) / g.writeSize) g.writeSize =
        some (padded g bytes.length) := if_pos (Nat.lt_of_le_of_lt hpadded hgeo)
    simp only [hmul, Except.bind, bind]
    by_cases hroom : padded g bytes.length > g.eraseSize ∨ padded g bytes.length > scratch.length
    · simp only [if_pos hroom]
      rfl
    · simp only [if_neg hroom, fillOrPanic_eq (le_padded _) (Nat.le_of_not_lt fun h => hroom (.inr h))]
      cases blockBounds g w st logical with
      | error e => rfl
      | ok bounds =>
        change _ = (ExceptT.run _ >>= _) >>= _
        rw [fillScratch_take, bind_assoc]
        rfl

/-- The rest of `write` never panics, if what was consumed lies inside the partition. -/
theorem writeLoopOrPanic_eq (hw : w ≤ 64) (hgeo : g.eraseSize < 2 ^ w) (hsize : st.partitionSize < 2 ^ w)
    {pending : List UInt8} (hpending : pending.length < 2 ^ w) {consumed : Nat}
    (hconsumed : consumed ≤ pending.length)
    (hinside : consumed = 0 ∨ offset.toNat + consumed ≤ st.partitionSize) :
    writeLoopOrPanic g w st offset pending consumed scratch =
      writeLoop g w st offset pending consumed scratch >>= fun r => pure (some r) := by
  have hword : 2 ^ w ≤ 2 ^ 64 := Nat.pow_le_pow_right (by decide) hw
  induction hn : pending.length - consumed using Nat.strongRecOn generalizing consumed scratch with
  | ind n ih =>
    have hpos := g.erase_pos
    have hoffset := offset.toNat_lt
    have hsum : offset.toNat + consumed < 2 ^ 64 := by omega
    have hat : UInt64.ofNat (offset.toNat + consumed) = offset + UInt64.ofNat consumed := by
      rw [← UInt64.toNat_inj, UInt64.toNat_add, UInt64.toNat_ofNat', UInt64.toNat_ofNat']
      omega
    unfold writeLoopOrPanic writeLoop
    split
    · next hfull =>
      have hslice : slice pending consumed (consumed + g.eraseSize) =
          some ((pending.drop consumed).take g.eraseSize) := by
        rw [slice, if_pos ⟨Nat.le_add_right .., by omega⟩, Nat.add_sub_cancel_left]
      rw [hslice, addOrPanic, if_pos (by omega), addOrPanic, if_pos hsum]
      simp only
      rw [hat, flushBlockOrPanic_eq hgeo]
      rcases flushBlock_cases g w st (offset + UInt64.ofNat consumed)
          ((pending.drop consumed).take g.eraseSize) scratch with
        ⟨e, scratch', -, heq⟩ | ⟨absolute, eraseEnd, scratch', hplaced, -, heq⟩
      · rw [heq]
        rfl
      · have hinside' := hplaced.inside
        rw [← hat, UInt64.toNat_ofNat', Nat.mod_eq_of_lt hsum] at hinside'
        rw [heq]
        simp only [bind_assoc, pure_bind]
        congr 1
        funext r
        cases r with
        | error e => rfl
        | ok u => exact ih _ (by omega) (by omega) (.inr (by omega)) rfl
    · rw [addOrPanic, if_pos hsum]
      simp only
      rw [hat]
      rfl

theorem writeOrPanic_eq (hw : w ≤ 64) (hgeo : g.eraseSize < 2 ^ w) (hsize : st.partitionSize < 2 ^ w)
    {pending : List UInt8} (hpending : pending.length < 2 ^ w) :
    writeOrPanic g w st offset pending scratch =
      write g w st offset pending scratch >>= fun r => pure (some r) :=
  writeLoopOrPanic_eq hw hgeo hsize hpending (Nat.zero_le _) (.inl rfl)

theorem finishOrPanic_eq (hw : w ≤ 64) (hgeo : g.eraseSize < 2 ^ w) (hsize : st.partitionSize < 2 ^ w)
    {pending : List UInt8} :
    finishOrPanic g w st offset pending scratch =
      finish g w st offset pending scratch >>= fun r => pure (some r) := by
  have hword : 2 ^ w ≤ 2 ^ 64 := Nat.pow_le_pow_right (by decide) hw
  unfold finishOrPanic finish
  split
  · rfl
  · split
    · rfl
    · next hlen =>
      rw [flushBlockOrPanic_eq hgeo]
      rcases flushBlock_cases g w st offset pending scratch with
        ⟨e, scratch', -, heq⟩ | ⟨absolute, eraseEnd, scratch', hplaced, -, heq⟩
      · rw [heq]
        rfl
      · have hinside := hplaced.inside
        have hat : UInt64.ofNat (offset.toNat + pending.length) = offset + UInt64.ofNat pending.length := by
          rw [← UInt64.toNat_inj, UInt64.toNat_add, UInt64.toNat_ofNat', UInt64.toNat_ofNat']
          omega
        rw [heq]
        simp only [bind_assoc, pure_bind]
        congr 1
        funext r
        cases r with
        | error e => rfl
        | ok u =>
          rw [addOrPanic, if_pos (by omega)]
          simp only
          rw [hat]
          rfl

end EspArtifactStorage

end Espbewi
