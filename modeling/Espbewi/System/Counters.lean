import Espbewi.System.Upload
import Espbewi.Lib.Trace

/-! The counters of an upload session. -/

namespace Espbewi.System

open Lib Nor ArtifactWriter

/-- The states of a session after successful appends: `S` is what they were given. -/
inductive Appended (g : Geometry) (w : Nat) (E : Engine) (b : Behaviour) (p : AppPartition) (s₀ : State) :
    ArtifactWriter → E.WriteSession → List UInt8 → State → Prop
  | start : Appended g w E b p s₀ (.new g p) E.new [] s₀
  | append {a e S s data a' e' s'} : Appended g w E b p s₀ a e S s →
      (append g w E a e data).run (norDevice b) s = ((true, a', e'), s') →
      Appended g w E b p s₀ a' e' (S ++ data) s'

variable {g : Geometry} {w : Nat} {E : Engine} {pending : E.WriteSession → List UInt8} {b : Behaviour}
  {p : AppPartition} {S : List UInt8} {s₀ s : State} {a a' : ArtifactWriter} {e e' : E.WriteSession}

/-- The counters of a writer after `n` bytes equal the work done. -/
structure Counters (g : Geometry) (w : Nat) (E : Engine) (b : Behaviour) (p : AppPartition)
    (a : ArtifactWriter) (e : E.WriteSession) (n : Nat) (s : State) : Prop where
  erasedThrough : a.erasedThrough.toNat = min (roundUp 65536 n) p.size
  sectorsFlushed : a.sectorsFlushed.toNat = (E.durable e).toNat / 4096
  eraseBatches : a.eraseBatches.toNat = (a.erasedThrough.toNat + 65535) / 65536
  finished : ∀ size a' s', (finish g w E a e).run (norDevice b) s = ((.ok size, a'), s') →
    a'.sectorsFlushed.toNat = (n + 4095) / 4096

/-- A commit answers the number of bytes received. -/
def CommitsReceived (E : Engine) : Prop := ∀ e r size, E.commit e r = .ok size → size = E.received e

theorem Appended.uploading (h : Appended g w E b p s₀ a e S s) {S' : List UInt8} (hS : S <+: S') :
    Uploading g w E b p S' s₀ a e S.length s := by
  induction h with
  | start => exact .start
  | @append a e S s data a' e' s' _ hcall ih =>
    obtain ⟨rest, rfl⟩ := hS
    have hprev := ih ⟨data ++ rest, (List.append_assoc ..).symm⟩
    have hdata : data <+: (S ++ data ++ rest).drop S.length := by
      rw [List.append_assoc, List.drop_left' rfl]
      exact List.prefix_append ..
    have hnext := Uploading.append hprev hdata hcall
    rwa [if_pos rfl, ← List.length_append] at hnext

/-! ### Arithmetic of the counters -/

theorem ceil_eq {x y : Nat} (hy : 0 < y) : (x + y - 1) / y = x / y + if 0 < x % y then 1 else 0 := by
  have hdiv := Nat.div_add_mod x y
  have hlt := Nat.mod_lt x hy
  rw [show x + y - 1 = y * (x / y) + (x % y + y - 1) by omega, Nat.mul_add_div hy]
  split
  · rw [show x % y + y - 1 = x % y - 1 + y by omega, Nat.add_div_right _ hy,
      Nat.div_eq_of_lt (show x % y - 1 < y by omega)]
  · rw [Nat.div_eq_of_lt (show x % y + y - 1 < y by omega)]

theorem toNat_divCeil {x y : UInt64} (hy : 0 < y.toNat) (hx : x.toNat < 2 ^ 63) :
    (divCeil x y).toNat = (x.toNat + y.toNat - 1) / y.toNat := by
  have hle : x.toNat / y.toNat ≤ x.toNat := Nat.div_le_self ..
  have hpos : x % y > 0 ↔ 0 < x.toNat % y.toNat := by
    rw [gt_iff_lt, UInt64.lt_iff_toNat_lt, UInt64.toNat_mod]
    rfl
  rw [divCeil, UInt64.toNat_add, UInt64.toNat_div, ceil_eq hy]
  simp only [hpos]
  split
  · exact Nat.mod_eq_of_lt (by change _ + 1 < _; omega)
  · exact Nat.mod_eq_of_lt (by change _ + 0 < _; omega)

theorem toNat_desiredErased {x : UInt64} (hx : x.toNat ≤ a.partition.size) (hsize : a.partition.size < 2 ^ 32) :
    (a.desiredErased x).toNat = min (roundUp 65536 x.toNat) a.partition.size := by
  have hbatch : eraseBatchSize.toNat = 65536 := rfl
  have hceil := toNat_divCeil (x := x) (y := eraseBatchSize) (by decide) (by omega)
  rw [hbatch] at hceil
  rw [desiredErased, toNat_min, UInt64.toNat_ofNat', Nat.mod_eq_of_lt (by omega), saturatingMul,
    UInt64.toNat_ofNat', hceil, hbatch, roundUp]
  omega

/-! ### One call -/

/-- The writer after an erase that succeeds. -/
def advanced (a : ArtifactWriter) (desired : UInt64) : ArtifactWriter :=
  if desired > a.erasedThrough then { a with
    eraseBatches := a.eraseBatches + ((desired - a.erasedThrough) / eraseBatchSize).toUInt32
    erasedThrough := desired }
  else a

@[simp] theorem advanced_sectorsFlushed (a : ArtifactWriter) (desired : UInt64) :
    (advanced a desired).sectorsFlushed = a.sectorsFlushed := by
  unfold advanced
  split
  · rfl
  · rfl

theorem runs_eraseAhead {desired : UInt64} {tr : List (Event NorOp NorOp.Ans)}
    (h : Prog.Runs (eraseAhead g w a desired) tr (.ok (), a')) : a' = advanced a desired := by
  unfold eraseAhead at h
  unfold advanced
  split at h
  · next hahead =>
    rw [if_pos hahead]
    obtain ⟨tr₁, tr₂, r, -, -, hpure⟩ := Prog.runs_bind.mp h
    cases r with
    | error err =>
      obtain ⟨-, hr⟩ := Prog.runs_ret.mp hpure
      cases hr
    | ok u =>
      obtain ⟨-, hr⟩ := Prog.runs_ret.mp hpure
      exact (Prod.ext_iff.mp hr).2
  · next hahead =>
    rw [if_neg hahead]
    obtain ⟨-, hr⟩ := Prog.runs_ret.mp h
    exact (Prod.ext_iff.mp hr).2

/-- What a successful append leaves in the counters. -/
theorem runs_append {data : List UInt8} {tr : List (Event NorOp NorOp.Ans)}
    (h : Prog.Runs (append g w E a e data) tr (true, a', e')) :
    a'.erasedThrough = (advanced a (a.desiredErased (E.received e + UInt64.ofNat data.length))).erasedThrough ∧
      a'.eraseBatches = (advanced a (a.desiredErased (E.received e + UInt64.ofNat data.length))).eraseBatches ∧
      a'.sectorsFlushed = a.flushed g (E.durable e) (E.durable e') := by
  unfold append at h
  split at h
  · obtain ⟨tr₁, tr₂, ⟨r, a₁⟩, -, herase, hrest⟩ := Prog.runs_bind.mp h
    cases r with
    | error err =>
      obtain ⟨-, hr⟩ := Prog.runs_ret.mp hrest
      cases hr
    | ok u =>
      rw [← runs_eraseAhead herase]
      have hsame : a₁.sectorsFlushed = a.sectorsFlushed := by
        rw [runs_eraseAhead herase, advanced_sectorsFlushed]
      obtain ⟨tr₃, tr₄, ⟨ok, scratch, e₁⟩, -, -, hpure⟩ := Prog.runs_bind.mp hrest
      obtain ⟨-, hr⟩ := Prog.runs_ret.mp hpure
      simp only [Prod.mk.injEq] at hr
      obtain ⟨-, rfl, rfl⟩ := hr
      exact ⟨rfl, rfl, by simp only [flushed, hsame]⟩
  · obtain ⟨-, hr⟩ := Prog.runs_ret.mp h
    cases hr

/-! ### Runs -/

/-- The counters of a writer after `n` bytes, as the code counts. -/
structure Counted (p : AppPartition) (a : ArtifactWriter) (n : Nat) : Prop where
  erasedThrough : a.erasedThrough.toNat = min (roundUp 65536 n) p.size
  sectorsFlushed : a.sectorsFlushed.toNat = n / 4096
  eraseBatches : a.eraseBatches.toNat = a.erasedThrough.toNat / 65536

theorem capped_mono {r r' size : Nat} (h : r ≤ r') : min r size ≤ min r' size := by omega

/-- The cap is reached once: a watermark that is not a multiple of 64 KiB does not move again. -/
theorem capped_whole {r r' size : Nat} (h : 65536 ∣ r) :
    min r' size ≤ min r size ∨ min r size % 65536 = 0 := by
  omega

/-- An erase from a multiple of 64 KiB counts the whole blocks up to its end. -/
theorem toNat_advanced {desired : UInt64} (hdesired : desired.toNat < 2 ^ 32)
    (hbatches : a.eraseBatches.toNat = a.erasedThrough.toNat / 65536)
    (hwhole : desired.toNat ≤ a.erasedThrough.toNat ∨ a.erasedThrough.toNat % 65536 = 0) :
    (advanced a desired).erasedThrough.toNat = max a.erasedThrough.toNat desired.toNat ∧
      (advanced a desired).eraseBatches.toNat = (advanced a desired).erasedThrough.toNat / 65536 := by
  unfold advanced
  split
  · next hahead =>
    have hlt := UInt64.lt_iff_toNat_lt.mp hahead
    have hdiff : ((desired - a.erasedThrough) / eraseBatchSize).toNat =
        (desired.toNat - a.erasedThrough.toNat) / 65536 := by
      rw [UInt64.toNat_div, UInt64.toNat_sub_of_le _ _ (UInt64.le_of_lt hahead)]
      rfl
    refine ⟨by simp only; omega, ?_⟩
    simp only
    rw [UInt32.toNat_add, UInt64.toNat_toUInt32, hdiff, hbatches]
    omega
  · next hahead =>
    have hle := UInt64.le_iff_toNat_le.mp (UInt64.not_lt.mp hahead)
    exact ⟨(Nat.max_eq_left hle).symm, hbatches⟩

theorem toNat_flushed {before now : UInt64} (hg : g.eraseSize = 4096) (hle : before ≤ now)
    (hnow : now.toNat < 2 ^ 32) (ha : a.sectorsFlushed.toNat = before.toNat / 4096)
    (hbefore : before.toNat % 4096 = 0) :
    (a.flushed g before now).toNat = (now.toNat + 4095) / 4096 := by
  have hle' := UInt64.le_iff_toNat_le.mp hle
  have hdiff := UInt64.toNat_sub_of_le _ _ hle
  have hsector : (UInt64.ofNat 4096).toNat = 4096 := rfl
  have hceil := toNat_divCeil (x := now - before) (y := UInt64.ofNat 4096) (by decide)
    (by rw [hdiff]; omega)
  rw [hsector, hdiff] at hceil
  rw [flushed, hg, UInt32.toNat_add, UInt64.toNat_toUInt32, hceil, ha]
  omega

/-- The durable watermark is what was received, rounded down to whole sectors. -/
theorem Session.durable_eq {n : Nat} (h : Session g pending p S s₀ a e n s) (hg : g.eraseSize = 4096) :
    (E.durable e).toNat = n / 4096 * 4096 := by
  have hdurable := h.durable
  have hshort := h.short
  have hheld := h.held
  rw [hg] at hdurable hshort
  omega

theorem Counted.append {n : Nat} (hg : g.eraseSize = 4096) (hsize : p.size < 2 ^ 32)
    (h : Counted p a n) {s' : State} {data : List UInt8} (hin : n + data.length ≤ p.size)
    (hsession : Session g pending p S s₀ a e n s)
    (hsession' : Session g pending p S s₀ a' e' (n + data.length) s')
    {tr : List (Event NorOp NorOp.Ans)} (hruns : Prog.Runs (append g w E a e data) tr (true, a', e')) :
    Counted p a' (n + data.length) := by
  obtain ⟨herased, hbatches, hflushed⟩ := runs_append hruns
  have hend : (E.received e + UInt64.ofNat data.length).toNat = n + data.length := by
    rw [UInt64.toNat_add, UInt64.toNat_ofNat', hsession.received]
    omega
  have hdesired := toNat_desiredErased (a := a) (x := E.received e + UInt64.ofNat data.length)
    (by rw [hend, hsession.partition]; exact hin) (by rw [hsession.partition]; exact hsize)
  rw [hend, hsession.partition] at hdesired
  generalize a.desiredErased (E.received e + UInt64.ofNat data.length) = desired at herased hbatches hdesired
  have hlt : desired.toNat < 2 ^ 32 := by
    rw [hdesired]
    exact Nat.lt_of_le_of_lt (Nat.min_le_right ..) hsize
  have hwhole : desired.toNat ≤ a.erasedThrough.toNat ∨ a.erasedThrough.toNat % 65536 = 0 := by
    rw [hdesired, h.erasedThrough]
    exact capped_whole (dvd_roundUp ..)
  obtain ⟨hreach, hcount⟩ := toNat_advanced hlt h.eraseBatches hwhole
  have hbefore := hsession.durable_eq hg
  have hnow := hsession'.durable_eq hg
  have hle : E.durable e ≤ E.durable e' := by
    rw [UInt64.le_iff_toNat_le, hbefore, hnow]
    omega
  have hflush := toNat_flushed (a := a) hg hle (by rw [hnow]; omega)
    (by rw [h.sectorsFlushed, hbefore]; omega) (by rw [hbefore]; omega)
  refine ⟨?_, ?_, ?_⟩
  · rw [herased, hreach, hdesired, h.erasedThrough]
    exact Nat.max_eq_right (capped_mono (roundUp_mono _ (Nat.le_add_right ..)))
  · rw [hflushed, hflush, hnow]
    omega
  · rw [hbatches, herased]
    exact hcount

theorem runs_finish {size : UInt64} {tr : List (Event NorOp NorOp.Ans)}
    (h : Prog.Runs (finish g w E a e) tr (.ok size, a')) :
    (∃ r, E.commit e r = .ok size) ∧ a'.sectorsFlushed = a.flushed g (E.durable e) size := by
  unfold ArtifactWriter.finish at h
  split at h
  · obtain ⟨-, hr⟩ := Prog.runs_ret.mp h
    cases hr
  split at h
  · obtain ⟨-, hr⟩ := Prog.runs_ret.mp h
    cases hr
  obtain ⟨tr₁, tr₂, ⟨r, scratch⟩, -, -, hrest⟩ := Prog.runs_bind.mp h
  cases hcommit : E.commit e r with
  | error err =>
    simp only [hcommit] at hrest
    obtain ⟨-, hr⟩ := Prog.runs_ret.mp hrest
    cases hr
  | ok size' =>
    simp only [hcommit] at hrest
    obtain ⟨-, hr⟩ := Prog.runs_ret.mp hrest
    simp only [Prod.mk.injEq, Except.ok.injEq] at hr
    obtain ⟨rfl, rfl⟩ := hr
    exact ⟨⟨r, hcommit⟩, rfl⟩

theorem Appended.session (hb : b.Honest) (hE : E.Law pending) (hsize : p.size < 2 ^ 32)
    (h : Appended g w E b p s₀ a e S s) {S' : List UInt8} (hS : S <+: S') (hin : S'.length ≤ p.size) :
    Session g pending p S' s₀ a e S.length s :=
  (h.uploading hS).session hb hE (by omega) (by omega)

theorem Appended.counted (hb : b.Honest) (hE : E.Law pending) (hg : g.eraseSize = 4096)
    (hsize : p.size < 2 ^ 32) (h : Appended g w E b p s₀ a e S s) (hin : S.length ≤ p.size) :
    Counted p a S.length := by
  induction h with
  | start => exact ⟨(Nat.zero_min _).symm, rfl, (Nat.zero_div _).symm⟩
  | @append a e S s data a' e' s' hprev hcall ih =>
    have hlen : (S ++ data).length = S.length + data.length := List.length_append
    have hbefore := hprev.session hb hE hsize (List.prefix_append S data) hin
    have hafter := (hprev.append hcall).session hb hE hsize (List.prefix_refl _) hin
    have hruns := Prog.runs_events (norDevice b) (ArtifactWriter.append g w E a e data) s
    rw [hcall] at hruns
    rw [hlen] at hafter hin ⊢
    exact (ih (by omega)).append hg hsize hin hbefore hafter hruns

theorem capped_dvd_iff {r n size : Nat} (hr : 65536 ∣ r) (hle : n ≤ r) (hlt : r < n + 65536)
    (hn : n ≤ size) : min r size / 65536 = (min r size + 65535) / 65536 ↔
      65536 ∣ size ∨ n ≤ size / 65536 * 65536 := by
  omega

/-- The counters equal the work done exactly when the bytes received stay clear of a last block
of the partition that is shorter than 64 KiB. -/
theorem counters_iff (hb : b.Honest) (hE : E.Law pending) (hcommit : CommitsReceived E)
    (hg : g.eraseSize = 4096) (hsize : p.size < 2 ^ 32) (h : Appended g w E b p s₀ a e S s)
    (hin : S.length ≤ p.size) :
    Counters g w E b p a e S.length s ↔
      65536 ∣ p.size ∨ S.length ≤ p.size / 65536 * 65536 := by
  have hcounted := h.counted hb hE hg hsize hin
  have hsession := h.session hb hE hsize (List.prefix_refl _) hin
  have hdurable := hsession.durable_eq hg
  have hblocks := capped_dvd_iff (dvd_roundUp ..) (le_roundUp (by decide) S.length)
    (roundUp_lt (by decide) _) hin
  rw [← hblocks, ← hcounted.erasedThrough, ← hcounted.eraseBatches]
  constructor
  · exact fun hcounters => hcounters.eraseBatches
  · intro hbatches
    refine ⟨hcounted.erasedThrough, ?_, hbatches, ?_⟩
    · rw [hcounted.sectorsFlushed, hdurable, Nat.mul_div_cancel _ (by decide)]
    · intro size a' s' hfinish
      have hruns := Prog.runs_events (norDevice b) (finish g w E a e) s
      rw [hfinish] at hruns
      obtain ⟨⟨r, hsame⟩, hflushed⟩ := runs_finish hruns
      have hreceived := hsession.received
      rw [← hcommit _ _ _ hsame] at hreceived
      rw [hflushed, toNat_flushed hg (UInt64.le_iff_toNat_le.mpr (by omega)) (by omega)
        (by rw [hcounted.sectorsFlushed, hdurable]; omega) (by omega), hreceived]

/-! ### Two partitions -/

/-- `listEngine`, with a commit that answers what it received. -/
def countingEngine : Engine :=
  { listEngine with
    commit := fun e r => r.mapError FinishError.backend |>.map fun _ => e.1 }

theorem countingEngine_law : countingEngine.Law fun e => e.2.2 :=
  { listEngine_law with
    commit := by
      rintro e (err | d) size ⟨⟩
      exact ⟨d, rfl⟩ }

theorem countingEngine_commits : CommitsReceived countingEngine := by
  rintro e (err | d) size ⟨⟩
  rfl

def espSectors : Geometry where
  eraseSize := 4096
  writeSize := 4
  erase_pos := Nat.succ_pos 4095
  write_dvd := ⟨1024, rfl⟩

theorem Appended.accept (h : Appended g w E b p s₀ a e S s) (data : List UInt8)
    (hok : ((ArtifactWriter.append g w E a e data).run (norDevice b) s).1.1 = true) :
    Appended g w E b p s₀ ((ArtifactWriter.append g w E a e data).run (norDevice b) s).1.2.1
      ((ArtifactWriter.append g w E a e data).run (norDevice b) s).1.2.2 (S ++ data)
      ((ArtifactWriter.append g w E a e data).run (norDevice b) s).2 :=
  h.append (Prog.run_eq hok)

def blankState : State := ⟨fun _ => 0xFF, [], 0⟩

/-- Three appends that cross a sector, in a partition of one whole block. -/
theorem counters_block : ∃ a e s,
    Appended espSectors 32 countingEngine perfect ⟨.ota0, 0x10000, 0x10000⟩ blankState a e
      ([] ++ [1, 2, 3] ++ List.replicate 4096 7 ++ [8, 9]) s ∧
    (a.erasedThrough, a.sectorsFlushed, a.eraseBatches) = (0x10000, 1, 1) ∧
    Counters espSectors 32 countingEngine perfect ⟨.ota0, 0x10000, 0x10000⟩ a e 4101 s := by
  have hstart : Appended espSectors 32 countingEngine perfect ⟨.ota0, 0x10000, 0x10000⟩ blankState
    _ _ [] blankState := .start
  have hrun := ((hstart.accept [1, 2, 3] (by decide +kernel)).accept (List.replicate 4096 7)
    (by decide +kernel)).accept [8, 9] (by decide +kernel)
  have hlength : ([] ++ [1, 2, 3] ++ List.replicate 4096 7 ++ [8, 9] : List UInt8).length = 4101 := by
    simp only [List.length_append, List.length_replicate, List.length_cons, List.length_nil]
  have hcounters := (counters_iff perfect_honest countingEngine_law countingEngine_commits rfl (by decide) hrun
    (by rw [hlength]; decide)).mpr (.inl (by decide))
  rw [hlength] at hcounters
  exact ⟨_, _, _, hrun, by decide +kernel, hcounters⟩

/-- Three bytes in a partition of two sectors: its only block is erased, and not counted. -/
theorem last_block_uncounted : ¬ ∀ a e S s,
    Appended espSectors 32 countingEngine perfect ⟨.ota0, 0x10000, 0x2000⟩ blankState a e S s →
      S.length ≤ 0x2000 →
      Counters espSectors 32 countingEngine perfect ⟨.ota0, 0x10000, 0x2000⟩ a e S.length s := by
  intro hall
  have hstart : Appended espSectors 32 countingEngine perfect ⟨.ota0, 0x10000, 0x2000⟩ blankState
    _ _ [] blankState := .start
  have hrun := hstart.accept [1, 2, 3] (by decide +kernel)
  have hbatches := (hall _ _ _ _ hrun (by decide)).eraseBatches
  revert hbatches
  decide +kernel

end Espbewi.System
