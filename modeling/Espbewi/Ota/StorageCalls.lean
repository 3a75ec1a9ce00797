import Espbewi.Ota.Panics
import Espbewi.Lib.Trace

/-! Any sequence of storage calls on one partition, with one scratch buffer. -/

namespace Espbewi

open Lib Nor Prog EspArtifactStorage

/-- A call, with the erase mode of the storage it is made on. -/
inductive StorageCall
  | erase (logicalFrom logicalTo : UInt64)
  | write (eraseBeforeWrite : Bool) (durableOffset : UInt64) (pending : List UInt8)
  | finish (eraseBeforeWrite : Bool) (durableOffset : UInt64) (pending : List UInt8)

/-- What a call returns; an erase returns no offset. -/
abbrev Outcome := Except FlashWriteError (Option UInt64)

namespace StorageCall

variable (g : Geometry) (w : Nat) (p : AppPartition)

def run : StorageCall → List UInt8 → NorProg (Outcome × List UInt8)
  | .erase logicalFrom logicalTo, scratch =>
    ExceptT.run (erasePartitionRange g w p logicalFrom logicalTo) >>= fun r =>
      pure (r.map fun _ => none, scratch)
  | .write mode durableOffset pending, scratch => match newWithEraseMode g p scratch mode with
    | .error e => pure (.error e, scratch)
    | .ok st => st.write g w durableOffset pending scratch >>= fun (r, scratch) => pure (r.map some, scratch)
  | .finish mode durableOffset pending, scratch => match newWithEraseMode g p scratch mode with
    | .error e => pure (.error e, scratch)
    | .ok st => st.finish g w durableOffset pending scratch >>= fun (r, scratch) => pure (r.map some, scratch)

/-- The same with explicit panics. -/
def runOrPanic : StorageCall → List UInt8 → NorProg (Option (Outcome × List UInt8))
  | .erase logicalFrom logicalTo, scratch =>
    ExceptT.run (erasePartitionRange g w p logicalFrom logicalTo) >>= fun r =>
      pure (some (r.map fun _ => none, scratch))
  | .write mode durableOffset pending, scratch => match newWithEraseMode g p scratch mode with
    | .error e => pure (some (.error e, scratch))
    | .ok st => st.writeOrPanic g w durableOffset pending scratch >>= fun r =>
        pure (r.map fun (r, scratch) => (r.map some, scratch))
  | .finish mode durableOffset pending, scratch => match newWithEraseMode g p scratch mode with
    | .error e => pure (some (.error e, scratch))
    | .ok st => st.finishOrPanic g w durableOffset pending scratch >>= fun r =>
        pure (r.map fun (r, scratch) => (r.map some, scratch))

def runAll : List StorageCall → List UInt8 → NorProg (List Outcome × List UInt8)
  | [], scratch => pure ([], scratch)
  | first :: rest, scratch => first.run g w p scratch >>= fun (outcome, scratch) =>
    runAll rest scratch >>= fun (outcomes, scratch) => pure (outcome :: outcomes, scratch)

def runAllOrPanic : List StorageCall → List UInt8 → NorProg (Option (List Outcome × List UInt8))
  | [], scratch => pure (some ([], scratch))
  | first :: rest, scratch => first.runOrPanic g w p scratch >>= fun
    | none => pure none
    | some (outcome, scratch) => runAllOrPanic rest scratch >>= fun r =>
        pure (r.map fun (outcomes, scratch) => (outcome :: outcomes, scratch))

/-- The slice of the call has a length that a `usize` can hold. -/
def Sized (w : Nat) : StorageCall → Prop
  | .erase .. => True
  | .write _ _ pending | .finish _ _ pending => pending.length < 2 ^ w

end StorageCall

/-! ### Bounds of a call -/

/-- A command in `[lo, hi)` that does not wrap. -/
def InBounds (lo hi : Nat) : NorOp → Prop
  | .read .. => False
  | .erase a b => lo ≤ a.toNat ∧ a.toNat < b.toNat ∧ b.toNat ≤ hi
  | .write a bytes => lo ≤ a.toNat ∧ a.toNat + bytes.length ≤ hi ∧ a.toNat + bytes.length < 2 ^ 32

theorem InBounds.mono {lo hi lo' hi' : Nat} {o : NorOp} (h : InBounds lo hi o) (hlo : lo' ≤ lo)
    (hhi : hi ≤ hi') : InBounds lo' hi' o := by
  cases o <;> simp only [InBounds] at * <;> omega

/-- An erase block of the partition, aligned and inside it. -/
def IsBlock (g : Geometry) (size start : Nat) : Prop :=
  start % g.eraseSize = 0 ∧ start + g.eraseSize ≤ size

variable {g : Geometry} {w : Nat} {p : AppPartition} {st : EspArtifactStorage} {offset : UInt64}
  {bytes pending scratch scratch' : List UInt8} {tr : List (Event NorOp NorOp.Ans)}

theorem only_flushAt {absolute eraseEnd : UInt32} {lo : Nat}
    (hplaced : Placed g st offset bytes absolute eraseEnd)
    (hlo : lo = st.partitionOffset.toNat + offset.toNat) :
    Only (InBounds lo (lo + g.eraseSize)) (ExceptT.run (flushAt st absolute eraseEnd (block g bytes))) := by
  have hpos := g.erase_pos
  have hend := eraseEnd.toNat_lt
  obtain ⟨-, -, hlen, habsolute, heraseEnd⟩ := hplaced
  have hwrite : Only (InBounds lo (lo + g.eraseSize))
      (ExceptT.run (NorFlash.write absolute (block g bytes) FlashWriteError.flash)) := by
    refine only_check (only_op ?_) _
    simp only [InBounds]
    omega
  unfold flushAt
  split
  · refine only_try (only_check (only_op ?_) _) fun _ => hwrite
    simp only [InBounds]
    omega
  · exact hwrite

theorem runs_flushBlock {r : Except FlashWriteError Unit}
    (h : Runs (flushBlock g w st offset bytes scratch) tr (r, scratch')) :
    (tr = [] ∧ r.isOk = false) ∨ (IsBlock g st.partitionSize offset.toNat ∧
      ∀ ev ∈ tr, InBounds (st.partitionOffset.toNat + offset.toNat)
        (st.partitionOffset.toNat + offset.toNat + g.eraseSize) ev.1) := by
  rcases flushBlock_cases g w st offset bytes scratch with
    ⟨e, scratch'', -, heq⟩ | ⟨absolute, eraseEnd, scratch'', hplaced, -, heq⟩
  · rw [heq] at h
    obtain ⟨rfl, hr⟩ := runs_ret.mp h
    cases hr
    exact .inl ⟨rfl, rfl⟩
  · rw [heq] at h
    refine .inr ⟨⟨hplaced.aligned, hplaced.inside⟩, fun ev hev => ?_⟩
    exact (only_bind (only_flushAt hplaced rfl) fun _ => only_ret _).runs h ev hev

/-- Every command of a `write` of `len` bytes from `start` on lies in the partition, and none lies
in a block that does not fit or behind it. -/
structure Blockwise (g : Geometry) (base size start len : Nat) (tr : List (Event NorOp NorOp.Ans))
    (ok : Bool) : Prop where
  inside : ∀ ev ∈ tr, InBounds (base + start) (base + size) ev.1
  unfit : ∀ j, j * g.eraseSize + g.eraseSize ≤ len → ¬ IsBlock g size (start + j * g.eraseSize) →
    ok = false ∧ ∀ ev ∈ tr, InBounds (base + start) (base + (start + j * g.eraseSize)) ev.1

section Blockwise

variable {base size start len : Nat} {tr' : List (Event NorOp NorOp.Ans)} {ok : Bool}

theorem Blockwise.refused : Blockwise g base size start len [] false :=
  ⟨by simp, fun _ _ _ => ⟨rfl, by simp⟩⟩

/-- A block that fits is not the first that does not. -/
theorem IsBlock.later (hblock : IsBlock g size start) {j : Nat}
    (hj : ¬ IsBlock g size (start + j * g.eraseSize)) : ∃ i, j = i + 1 := by
  cases j with
  | zero => exact absurd (by simpa using hblock) hj
  | succ i => exact ⟨i, rfl⟩

theorem Blockwise.failed (hblock : IsBlock g size start)
    (hin : ∀ ev ∈ tr, InBounds (base + start) (base + start + g.eraseSize) ev.1) :
    Blockwise g base size start len tr false := by
  have hfits := hblock.2
  refine ⟨fun ev hev => (hin ev hev).mono (Nat.le_refl _) (by omega), fun j _ hj => ⟨rfl, fun ev hev => ?_⟩⟩
  obtain ⟨i, rfl⟩ := hblock.later hj
  rw [Nat.succ_mul]
  exact (hin ev hev).mono (Nat.le_refl _) (by omega)

theorem Blockwise.step (hblock : IsBlock g size start)
    (hin : ∀ ev ∈ tr, InBounds (base + start) (base + start + g.eraseSize) ev.1)
    (h : Blockwise g base size (start + g.eraseSize) (len - g.eraseSize) tr' ok) :
    Blockwise g base size start len (tr ++ tr') ok := by
  have hfits := hblock.2
  refine ⟨fun ev hev => ?_, fun j hj hnot => ?_⟩
  · rcases List.mem_append.mp hev with hev | hev
    · exact (hin ev hev).mono (Nat.le_refl _) (by omega)
    · exact (h.inside ev hev).mono (by omega) (Nat.le_refl _)
  · obtain ⟨i, rfl⟩ := hblock.later hnot
    rw [Nat.succ_mul] at hj hnot ⊢
    have hshift : start + g.eraseSize + i * g.eraseSize = start + (i * g.eraseSize + g.eraseSize) := by
      omega
    obtain ⟨hok, hin'⟩ := h.unfit i (by omega) (hshift ▸ hnot)
    refine ⟨hok, fun ev hev => ?_⟩
    rcases List.mem_append.mp hev with hev | hev
    · exact (hin ev hev).mono (Nat.le_refl _) (by omega)
    · exact (hin' ev hev).mono (by omega) (by omega)

end Blockwise

theorem runs_writeLoop (hsize : st.partitionSize < 2 ^ 64) {consumed : Nat}
    (hinside : consumed = 0 ∨ offset.toNat + consumed ≤ st.partitionSize)
    {r : Except FlashWriteError UInt64}
    (h : Runs (writeLoop g w st offset pending consumed scratch) tr (r, scratch')) :
    Blockwise g st.partitionOffset.toNat st.partitionSize (offset.toNat + consumed)
      (pending.length - consumed) tr r.isOk := by
  induction hn : pending.length - consumed using Nat.strongRecOn generalizing consumed scratch tr with
  | ind n ih =>
    have hpos := g.erase_pos
    have hoffset := offset.toNat_lt
    have hat : (offset + UInt64.ofNat consumed).toNat = offset.toNat + consumed := by
      rw [UInt64.toNat_add, UInt64.toNat_ofNat']
      omega
    unfold writeLoop at h
    split at h
    · next hfull =>
      obtain ⟨tr₁, tr₂, ⟨r₁, scratch₁⟩, rfl, hflush, hrest⟩ := runs_bind.mp h
      rcases runs_flushBlock hflush with ⟨rfl, herr⟩ | ⟨hblock, hin⟩
      · cases r₁ with
        | ok u => cases herr
        | error e =>
          obtain ⟨rfl, hr⟩ := runs_ret.mp hrest
          cases hr
          exact .refused
      · rw [hat] at hblock hin
        have hfits := hblock.2
        cases r₁ with
        | error e =>
          obtain ⟨rfl, hr⟩ := runs_ret.mp hrest
          cases hr
          rw [List.append_nil]
          exact .failed hblock hin
        | ok u =>
          refine .step hblock hin ?_
          rw [Nat.add_assoc, ← hn, Nat.sub_sub]
          exact ih _ (by omega) (.inr (by omega)) hrest rfl
    · next hlast =>
      obtain ⟨rfl, hr⟩ := runs_ret.mp h
      exact ⟨by simp, fun j hj => absurd hj (by omega)⟩

namespace StorageCall

/-- The commands of a call lie inside the partition and not below the offset it is given, and a
block or range that does not fit gets an error and no command. -/
def Spec (g : Geometry) (p : AppPartition) :
    StorageCall → List (Event NorOp NorOp.Ans) → Outcome → Prop
  | .erase lo hi, tr, outcome =>
    (∀ ev ∈ tr, InBounds p.offset.toNat (p.offset.toNat + p.size) ev.1) ∧
    (tr = [] ∨ ∃ a b r, tr = [⟨.erase a b, r⟩] ∧ a.toNat = p.offset.toNat + lo.toNat ∧
      b.toNat = p.offset.toNat + hi.toNat) ∧
    (lo ≠ hi → (lo.toNat % g.eraseSize ≠ 0 ∨ hi.toNat % g.eraseSize ≠ 0 ∨ hi < lo ∨ p.size < hi.toNat) →
      outcome.isOk = false ∧ tr = [])
  | .write _ d pending, tr, outcome =>
    (∀ ev ∈ tr, InBounds (p.offset.toNat + d.toNat) (p.offset.toNat + p.size) ev.1) ∧
    ∀ k < pending.length / g.eraseSize, ¬ IsBlock g p.size (d.toNat + k * g.eraseSize) →
      outcome.isOk = false ∧
        ∀ ev ∈ tr, InBounds (p.offset.toNat + d.toNat) (p.offset.toNat + (d.toNat + k * g.eraseSize)) ev.1
  | .finish _ d pending, tr, outcome =>
    (∀ ev ∈ tr, InBounds (p.offset.toNat + d.toNat) (p.offset.toNat + p.size) ev.1) ∧
    (pending ≠ [] → ¬ IsBlock g p.size d.toNat → outcome.isOk = false ∧ tr = [])

theorem newWithEraseMode_ok {mode : Bool} (h : newWithEraseMode g p scratch mode = .ok st) :
    st.partitionOffset = p.offset ∧ st.partitionSize = p.size := by
  unfold newWithEraseMode at h
  split at h
  · cases h
  · cases h
    exact ⟨rfl, rfl⟩

theorem isOk_map {ε α β : Type} (f : α → β) (r : Except ε α) : (r.map f).isOk = r.isOk := by
  cases r <;> rfl

theorem runs_erase {lo hi : UInt64} {r : Except FlashWriteError Unit}
    (h : Runs (ExceptT.run (erasePartitionRange g w p lo hi)) tr r) :
    (StorageCall.erase lo hi).Spec g p tr (r.map fun _ => none) := by
  unfold erasePartitionRange at h
  obtain ⟨r', hrange, rfl⟩ := runs_adapt h
  simp only [Spec, isOk_map]
  unfold eraseRange at hrange
  generalize hbounds : eraseBounds g w { offset := p.offset, size := p.size } lo hi = bounds at hrange
  rcases bounds with e | _ | ⟨a, b⟩
  · obtain ⟨rfl, rfl⟩ := runs_ret.mp hrange
    exact ⟨by simp, .inl rfl, fun _ _ => ⟨rfl, rfl⟩⟩
  · obtain ⟨rfl, rfl⟩ := runs_ret.mp hrange
    exact ⟨by simp, .inl rfl, fun hne => absurd (eraseBounds_none hbounds).1 hne⟩
  · obtain ⟨ha, hb, hlo, hhi, hlt, hfits⟩ := eraseBounds_some hbounds
    simp only at ha hb hfits
    change Runs (ExceptT.run (NorFlash.erase a b PartitionError.flash)) tr r' at hrange
    obtain ⟨tr₁, tr₂, ok, rfl, hop, hrest⟩ := runs_bind.mp hrange
    rw [runs_op.mp hop]
    have hrest : tr₂ = [] := by
      cases ok <;> exact (runs_ret.mp hrest).1
    subst hrest
    refine ⟨?_, .inr ⟨a, b, ok, rfl, ha, hb⟩, fun _ hbad => ?_⟩
    · intro ev hev
      rw [List.mem_singleton.mp hev]
      simp only [InBounds]
      omega
    · rw [UInt64.lt_iff_toNat_lt] at hbad
      omega

theorem runs_write {mode : Bool} {d : UInt64} (hsize : p.size < 2 ^ 64) {outcome : Outcome}
    (h : Runs ((StorageCall.write mode d pending).run g w p scratch) tr (outcome, scratch')) :
    (StorageCall.write mode d pending).Spec g p tr outcome := by
  simp only [run] at h
  split at h
  · obtain ⟨rfl, hr⟩ := runs_ret.mp h
    cases hr
    exact ⟨by simp, fun _ _ _ => ⟨rfl, by simp⟩⟩
  · next st hst =>
    obtain ⟨hbase, hpart⟩ := newWithEraseMode_ok hst
    obtain ⟨tr₁, tr₂, ⟨r, scratch₁⟩, rfl, hwrite, h⟩ := runs_bind.mp h
    obtain ⟨rfl, hr⟩ := runs_ret.mp h
    cases hr
    have hblocks := runs_writeLoop (hpart ▸ hsize) (.inl rfl) hwrite
    rw [hbase, hpart, Nat.add_zero] at hblocks
    rw [List.append_nil]
    refine ⟨hblocks.inside, fun k hk hnot => ?_⟩
    rw [isOk_map]
    refine hblocks.unfit k ?_ hnot
    have := (Nat.le_div_iff_mul_le g.erase_pos).mp hk
    rw [Nat.succ_mul] at this
    omega

theorem runs_finish {mode : Bool} {d : UInt64} {outcome : Outcome}
    (h : Runs ((StorageCall.finish mode d pending).run g w p scratch) tr (outcome, scratch')) :
    (StorageCall.finish mode d pending).Spec g p tr outcome := by
  simp only [run] at h
  split at h
  · obtain ⟨rfl, hr⟩ := runs_ret.mp h
    cases hr
    exact ⟨by simp, fun _ _ => ⟨rfl, rfl⟩⟩
  · next st hst =>
    obtain ⟨hbase, hpart⟩ := newWithEraseMode_ok hst
    obtain ⟨tr₁, tr₂, ⟨r, scratch₁⟩, rfl, hfinish, h⟩ := runs_bind.mp h
    obtain ⟨rfl, hr⟩ := runs_ret.mp h
    cases hr
    rw [List.append_nil]
    unfold EspArtifactStorage.finish at hfinish
    split at hfinish
    · next hnil =>
      obtain ⟨rfl, -⟩ := runs_ret.mp hfinish
      exact ⟨by simp, fun hne => absurd hnil hne⟩
    · split at hfinish
      · obtain ⟨rfl, hr⟩ := runs_ret.mp hfinish
        cases hr
        exact ⟨by simp, fun _ _ => ⟨rfl, rfl⟩⟩
      · obtain ⟨tr₂, tr₃, ⟨r₁, scratch₂⟩, rfl, hflush, hrest⟩ := runs_bind.mp hfinish
        have hlast : tr₃ = [] := by
          cases r₁ <;> exact (runs_ret.mp hrest).1
        subst hlast
        rw [List.append_nil]
        rcases runs_flushBlock hflush with ⟨rfl, herr⟩ | ⟨hblock, hin⟩
        · cases r₁ with
          | ok u => cases herr
          | error e =>
            obtain ⟨-, hr⟩ := runs_ret.mp hrest
            cases hr
            exact ⟨by simp, fun _ _ => ⟨rfl, rfl⟩⟩
        · rw [hpart] at hblock
          rw [hbase] at hin
          have hfits := hblock.2
          exact ⟨fun ev hev => (hin ev hev).mono (Nat.le_refl _) (by omega), fun _ hnot => absurd hblock hnot⟩

theorem runs_spec (hsize : p.size < 2 ^ 64) {c : StorageCall} {outcome : Outcome}
    (h : Runs (c.run g w p scratch) tr (outcome, scratch')) : c.Spec g p tr outcome := by
  cases c with
  | erase lo hi =>
    simp only [run] at h
    obtain ⟨tr₁, tr₂, r, rfl, herase, h⟩ := runs_bind.mp h
    obtain ⟨rfl, hr⟩ := runs_ret.mp h
    cases hr
    rw [List.append_nil]
    exact runs_erase herase
  | write mode d pending => exact runs_write hsize h
  | finish mode d pending => exact runs_finish h

theorem runOrPanic_eq (hw : w ≤ 64) (hgeo : g.eraseSize < 2 ^ w) (hsize : p.size < 2 ^ w) {c : StorageCall}
    (hc : c.Sized w) : c.runOrPanic g w p scratch = c.run g w p scratch >>= fun r => pure (some r) := by
  cases c with
  | erase lo hi => simp only [runOrPanic, run, bind_assoc, pure_bind]
  | write mode d pending =>
    simp only [runOrPanic, run]
    cases hst : newWithEraseMode g p scratch mode with
    | error e => rfl
    | ok st =>
      simp only
      rw [writeOrPanic_eq hw hgeo ((newWithEraseMode_ok hst).2 ▸ hsize) hc]
      simp only [bind_assoc, pure_bind, Option.map_some]
  | finish mode d pending =>
    simp only [runOrPanic, run]
    cases hst : newWithEraseMode g p scratch mode with
    | error e => rfl
    | ok st =>
      simp only
      rw [finishOrPanic_eq hw hgeo ((newWithEraseMode_ok hst).2 ▸ hsize)]
      simp only [bind_assoc, pure_bind, Option.map_some]

theorem runAllOrPanic_eq (hw : w ≤ 64) (hgeo : g.eraseSize < 2 ^ w) (hsize : p.size < 2 ^ w)
    {calls : List StorageCall} (hcalls : ∀ c ∈ calls, c.Sized w) :
    runAllOrPanic g w p calls scratch = runAll g w p calls scratch >>= fun r => pure (some r) := by
  induction calls generalizing scratch with
  | nil => rfl
  | cons c rest ih =>
    simp only [runAllOrPanic, runAll]
    rw [runOrPanic_eq hw hgeo hsize (hcalls c (.head _))]
    simp only [bind_assoc, pure_bind, ih fun c' hc' => hcalls c' (.tail _ hc'), Option.map_some]

theorem runs_runAll (hsize : p.size < 2 ^ 64) {calls : List StorageCall} {outcomes : List Outcome}
    (h : Runs (runAll g w p calls scratch) tr (outcomes, scratch')) :
    ∃ parts : List (List (Event NorOp NorOp.Ans) × Outcome), tr = (parts.map Prod.fst).flatten ∧
      outcomes = parts.map Prod.snd ∧ List.Forall₂ (fun c part => c.Spec g p part.1 part.2) calls parts := by
  induction calls generalizing scratch tr outcomes with
  | nil =>
    obtain ⟨rfl, hr⟩ := runs_ret.mp h
    cases hr
    exact ⟨[], rfl, rfl, .nil⟩
  | cons c rest ih =>
    obtain ⟨tr₁, _, ⟨outcome, scratch₁⟩, rfl, hc, h⟩ := runs_bind.mp h
    obtain ⟨tr₂, _, ⟨outcomes₂, scratch₂⟩, rfl, hrest, h⟩ := runs_bind.mp h
    obtain ⟨rfl, hr⟩ := runs_ret.mp h
    cases hr
    obtain ⟨parts, rfl, rfl, hspecs⟩ := ih hrest
    exact ⟨(tr₁, outcome) :: parts, by simp, rfl, .cons (runs_spec hsize hc) hspecs⟩

end StorageCall

/-- Whatever the flash answers, no call of a sequence panics, and every call keeps to its bounds. -/
theorem storage_confined (hw : w = 32 ∨ w = 64) (hgeo : g.eraseSize < 2 ^ w) (hsize : p.size < 2 ^ w)
    {calls : List StorageCall} (hcalls : ∀ c ∈ calls, c.Sized w) (scratch : List UInt8) :
    StorageCall.runAllOrPanic g w p calls scratch =
      StorageCall.runAll g w p calls scratch >>= (fun r => pure (some r)) ∧
    ∀ tr outcomes scratch', Runs (StorageCall.runAll g w p calls scratch) tr (outcomes, scratch') →
      ∃ parts : List (List (Event NorOp NorOp.Ans) × Outcome), tr = (parts.map Prod.fst).flatten ∧
        outcomes = parts.map Prod.snd ∧ List.Forall₂ (fun c part => c.Spec g p part.1 part.2) calls parts := by
  have hword : w ≤ 64 := by omega
  refine ⟨StorageCall.runAllOrPanic_eq hword hgeo hsize hcalls, fun tr outcomes scratch' h => ?_⟩
  exact StorageCall.runs_runAll (Nat.lt_of_lt_of_le hsize (Nat.pow_le_pow_right (by decide) hword)) h

def norSectors : Geometry where
  eraseSize := 4096
  writeSize := 4
  erase_pos := by decide
  write_dvd := by decide

/-- An erase of two sectors, a write of one sector and more, and a tail, on a partition of three. -/
def sampleCalls : List StorageCall :=
  [.erase 0 0x2000, .write false 0 (List.replicate 5000 1), .finish true 0x1000 [1, 2, 3]]

theorem sampleCalls_sized : ∀ c ∈ sampleCalls, c.Sized 32 := by
  intro c hc
  rcases List.mem_cons.mp hc with rfl | hc
  · trivial
  · rcases List.mem_cons.mp hc with rfl | hc
    · show (List.replicate 5000 (1 : UInt8)).length < 2 ^ 32
      rw [List.length_replicate]
      omega
    · rw [List.mem_singleton.mp hc]
      show 3 < 2 ^ 32
      omega

theorem storage_confined_three :
    StorageCall.runAllOrPanic norSectors 32 ⟨.ota0, 0x20000, 0x3000⟩ sampleCalls (List.replicate 4096 0) =
      StorageCall.runAll norSectors 32 ⟨.ota0, 0x20000, 0x3000⟩ sampleCalls (List.replicate 4096 0) >>=
        (fun r => pure (some r)) ∧
    ∀ tr outcomes scratch', Runs (StorageCall.runAll norSectors 32 ⟨.ota0, 0x20000, 0x3000⟩ sampleCalls
        (List.replicate 4096 0)) tr (outcomes, scratch') →
      ∃ parts : List (List (Event NorOp NorOp.Ans) × Outcome), tr = (parts.map Prod.fst).flatten ∧
        outcomes = parts.map Prod.snd ∧ List.Forall₂
          (fun c part => c.Spec norSectors ⟨.ota0, 0x20000, 0x3000⟩ part.1 part.2) sampleCalls parts :=
  storage_confined (.inl rfl) (by decide) (by decide) sampleCalls_sized _

end Espbewi
