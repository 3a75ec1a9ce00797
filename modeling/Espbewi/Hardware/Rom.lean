import Espbewi.Hardware.Boot
import Espbewi.Lib.Update

namespace Espbewi.Hw

open Lib Nor

theorem land_not_three (x : UInt32) : (x &&& ~~~3).toNat = x.toNat / 4 * 4 := by
  rw [UInt32.toNat_and, show (~~~3 : UInt32).toNat = (2 ^ 30 - 1) <<< 2 by decide]
  exact land_high_bits x.toNat_lt

theorem toNat_add_ofNat {x : UInt32} {n : Nat} (h : x.toNat + n < 2 ^ 32) :
    (x + UInt32.ofNat n).toNat = x.toNat + n := by
  rw [UInt32.toNat_add, UInt32.toNat_ofNat']
  omega

/-- The flash command behind a ROM call. -/
def HwOp.cmd? : HwOp → Option Cmd
  | .spiflashWrite dest words len =>
    some (.program dest.toNat ((words.flatMap fun w => toLe 4 w.toNat).take len.toNat))
  | .spiflashEraseSector sector => some (.erase (sector.toNat * 0x1000) ((sector.toNat + 1) * 0x1000))
  | _ => none

/-- The ROM over a flash with faults; every other call is answered by `other`. -/
def romDevice (b : Behaviour) (other : State → (o : HwOp) → o.Ans) : Device HwOp HwOp.Ans State :=
  fun s o => match o with
    | .spiflashRead src len => b.fetch s src.toNat len.toNat
    | .spiflashWrite dest words len =>
      b.issue s (.program dest.toNat ((words.flatMap fun w => toLe 4 w.toNat).take len.toNat))
    | .spiflashEraseSector sector =>
      b.issue s (.erase (sector.toNat * 0x1000) ((sector.toNat + 1) * 0x1000))
    | o => (other s o, s)

/-- Calls behind which there is no flash command. -/
def Quiet (o : HwOp) : Prop := HwOp.cmd? o = none

theorem wp_quiet {α : Type} {b : Behaviour} {other : State → (o : HwOp) → o.Ans}
    {I : State → HwOp → Prop} {p : HwProg α} {Q : α → State → Prop} {s : State} (hp : p.Only Quiet)
    (hI : ∀ k o, Quiet o → I { s with reads := k } o)
    (hQ : ∀ k, Q (p.run (romDevice b other) s).1 { s with reads := k }) :
    p.wp (romDevice b other) I Q s := by
  induction p generalizing s with
  | ret a => exact hQ s.reads
  | call o k ih =>
    refine ⟨hI s.reads o hp.1, ?_⟩
    have hstate : ∃ n, (romDevice b other s o).2 = { s with reads := n } := by
      cases o with
      | spiflashRead src len => exact ⟨s.reads + 1, rfl⟩
      | spiflashWrite dest words len => cases hp.1
      | spiflashEraseSector sector => cases hp.1
      | _ => exact ⟨s.reads, rfl⟩
    obtain ⟨n, hn⟩ := hstate
    simp only [Prog.run_call, hn] at hQ
    rw [hn]
    exact ih _ (hp.2 _) (fun k' o' ho' => hI k' o' ho') hQ

/-- Answers of the rest of the ROM when nothing fails; `image` is the validator. -/
def steady (image : UInt32 → UInt32 → Option Boot.Image) : State → (o : HwOp) → o.Ans
  | _, .validate offset size _ => image offset size
  | _, .spiflashRead .. => none
  | _, .spiflashWrite .. | _, .spiflashEraseSector _ | _, .spiflashUnlock => true
  | _, .cacheBegin | _, .ibusMmuSet .. | _, .dbusMmuSet .. => 0
  | _, .setLegacyFlashSize _ | _, .attachAndConfig _ | _, .cacheFinish _
  | _, .copyNonoverlapping .. | _, .delayUs _ => ()

section Read

variable {b : Behaviour} {other : State → (o : HwOp) → o.Ans} {I : State → HwOp → Prop}
  {s : State} {offset : UInt32} {len : Nat}

@[simp] theorem copyInto_length {out bytes : List UInt8} {start : Nat}
    (h : start + bytes.length ≤ out.length) : (copyInto out start bytes).length = out.length := by
  simp only [copyInto, List.length_append, List.length_take, List.length_drop]
  omega

theorem copyInto_take {out bytes : List UInt8} {start : Nat} (h : start ≤ out.length) :
    (copyInto out start bytes).take (start + bytes.length) = out.take start ++ bytes := by
  rw [copyInto, List.take_append_of_le_length (by simp; omega), List.take_of_length_le (by simp)]

/-- One window of `flash_read`, as the bytes it contributes. -/
theorem window_slice {f : Flash} {pos : UInt32} {want : Nat} (hw : want ≤ 252) :
    ((List.ofFn fun i : Fin (UInt32.ofNat (((pos - (pos &&& ~~~3)).toNat + want + 3) / 4 * 4)).toNat =>
      f ((pos &&& ~~~3).toNat + i)).drop (pos - (pos &&& ~~~3)).toNat).take want =
      read f pos.toNat want := by
  have hand := land_not_three pos
  have hpos := pos.toNat_lt
  have hsub : (pos - (pos &&& ~~~3)).toNat = pos.toNat % 4 := by
    rw [UInt32.toNat_sub_of_le _ _ (UInt32.le_iff_toNat_le.mpr (by omega))]
    omega
  change ((read f _ _).drop _).take _ = _
  rw [hsub, hand, read_drop_take]
  · congr 1
    omega
  · rw [UInt32.toNat_ofNat']
    omega

theorem wp_readLoop {Q : Except FlashError Unit × List UInt8 → State → Prop} {done : Nat}
    {out : List UInt8} (hlen : offset.toNat + len ≤ 2 ^ 32) (hout : out.length = len)
    (hdone : done ≤ len) (hread : out.take done = read s.flash offset.toNat done)
    (hI : ∀ k src n, I { s with reads := k } (.spiflashRead src n))
    (hok : ∀ k, Q (.ok (), read s.flash offset.toNat len) { s with reads := k })
    (herr : ¬ b.Readable → ∀ k e out, Q (.error e, out) { s with reads := k }) :
    (readLoop offset len done out).wp (romDevice b other) I Q s := by
  induction hn : len - done using Nat.strongRecOn generalizing done out s with
  | ind n ih =>
    unfold readLoop
    split
    · next hlt =>
      have hpos := toNat_add_ofNat (x := offset) (n := done) (by omega)
      rw [Prog.wp_bind]
      refine ⟨hI _ _ _, ?_⟩
      simp only [romDevice, Behaviour.fetch]
      by_cases hr : b.read s.log s.reads = true
      · simp only [hr, if_true, Prog.wp_ret]
        rw [window_slice (by omega), hpos]
        have hlen' := read_length s.flash (offset.toNat + done) (min (len - done) 252)
        refine ih _ (by omega) (s := { s with reads := s.reads + 1 }) ?_ (by omega) ?_ hI hok herr rfl
        · rw [copyInto_length (by rw [hlen']; omega), hout]
        · nth_rewrite 1 [← hlen']
          rw [copyInto_take (by omega), hread, read_append]
      · simp only [Bool.not_eq_true] at hr
        simp only [hr, Bool.false_eq_true, if_false, Prog.wp_ret]
        exact herr (fun h => by simp [h s.log s.reads] at hr) _ _ _
    · have : done = len := by omega
      subst this
      rw [List.take_of_length_le (by omega)] at hread
      simpa [hread] using hok s.reads

/-- `flash_read` over the ROM: it changes nothing, and a success is the flash content. -/
theorem wp_flashRead {Q : Except FlashError (List UInt8) → State → Prop}
    (hlen : offset.toNat + len ≤ 2 ^ 32)
    (hI : ∀ k src n, I { s with reads := k } (.spiflashRead src n))
    (hok : ∀ k, Q (.ok (read s.flash offset.toNat len)) { s with reads := k })
    (herr : ¬ b.Readable → ∀ k e, Q (.error e) { s with reads := k }) :
    (ExceptT.run (flashRead offset len)).wp (romDevice b other) I Q s := by
  unfold flashRead flashReadInto
  rw [ExceptT.run_mk, Prog.wp_bind]
  refine wp_readLoop (by simpa using hlen) (by simp) (Nat.zero_le _) (by simp) hI ?_ ?_
  · simpa using hok
  · intro hb k e out
    exact herr hb k e

end Read

section Program

variable {b : Behaviour} {other : State → (o : HwOp) → o.Ans} {C : Flash → Prop} {s : State}
  {R : Bool → Flash → List Cmd → Prop} {Q : Except FlashError Unit → State → Prop}

theorem wp_issuing_eraseSector {sector : UInt32}
    (h : issuing b C [.erase (sector.toNat * 0x1000) ((sector.toNat + 1) * 0x1000)] R s.flash s.log)
    (hok : ∀ s', C s'.flash → R true s'.flash s'.log → Q (.ok ()) s')
    (herr : ∀ s' e, R false s'.flash s'.log → Q (.error e) s') :
    (ExceptT.run (flashEraseSector sector)).wp (romDevice b other) (cutGuard HwOp.cmd? C) Q s := by
  unfold flashEraseSector Prog.check
  rw [ExceptT.run_mk, Prog.wp_bind]
  refine ⟨cutGuard_of_some rfl h.1, ?_⟩
  simp only [romDevice, Behaviour.issue]
  cases hr : (b.cmd s.log s.flash (.erase (sector.toNat * 0x1000) ((sector.toNat + 1) * 0x1000))).1 with
  | true => exact hok _ (h.2.2 hr).1 (h.2.2 hr).2
  | false => exact herr _ _ (h.2.1 hr)

/-- The word buffer holds the bytes it was filled from. -/
theorem fillWords_bytes (chunk : List UInt8) (h : 4 ∣ chunk.length) :
    ((fillWords chunk).flatMap fun w => toLe 4 w.toNat).take chunk.length = chunk := by
  have hfront : ((chunksExact 4 chunk).map fun c => UInt32.ofNat (ofLe c)).flatMap
      (fun w => toLe 4 w.toNat) = chunk := by
    calc ((chunksExact 4 chunk).map fun c => UInt32.ofNat (ofLe c)).flatMap (fun w => toLe 4 w.toNat)
        = (chunksExact 4 chunk).flatMap (fun c => toLe 4 (ofLe c)) := by
          rw [List.flatMap_map, List.flatMap_def, List.flatMap_def]
          congr 1
          apply List.map_congr_left
          intro c hc
          have hlen := length_of_mem_chunks (Nat.div_mul_cancel h).symm hc
          have hlt : ofLe c < 256 ^ 4 := hlen ▸ ofLe_lt c
          change _ < 2 ^ 32 at hlt
          rw [UInt32.toNat_ofNat', Nat.mod_eq_of_lt hlt]
      _ = chunk := chunksExact_toLe h
  rw [fillWords, List.flatMap_append, hfront, List.take_left]

/-- The commands of `flash_program`, one per chunk. -/
def chunkCmds (addr : UInt32) (data : List UInt8) (done : Nat) : List Cmd :=
  if done < data.length then
    .program (addr + UInt32.ofNat done).toNat ((data.drop done).take (min (data.length - done) 256)) ::
      chunkCmds addr data (done + min (data.length - done) 256)
  else []
termination_by data.length - done
decreasing_by omega

theorem wp_issuing_programLoop {addr : UInt32} {data : List UInt8} {done : Nat}
    (hlen : 4 ∣ data.length) (hdone : 4 ∣ done)
    (h : issuing b C (chunkCmds addr data done) R s.flash s.log)
    (hok : ∀ s', C s'.flash → R true s'.flash s'.log → Q (.ok ()) s')
    (herr : ∀ s' e, R false s'.flash s'.log → Q (.error e) s') :
    (ExceptT.run (programLoop addr data done)).wp (romDevice b other) (cutGuard HwOp.cmd? C) Q s := by
  induction hn : data.length - done using Nat.strongRecOn generalizing done s with
  | ind n ih =>
    unfold chunkCmds at h
    unfold programLoop
    split at h
    · next hlt =>
      rw [if_pos hlt]
      have hchunk : ((data.drop done).take (min (data.length - done) 256)).length =
          min (data.length - done) 256 := by
        rw [List.length_take, List.length_drop]
        omega
      have hbytes := fillWords_bytes ((data.drop done).take (min (data.length - done) 256))
        (by rw [hchunk]; omega)
      rw [hchunk] at hbytes
      have hn' : (UInt32.ofNat (min (data.length - done) 256)).toNat = min (data.length - done) 256 := by
        rw [UInt32.toNat_ofNat']
        omega
      rw [Prog.wp_try]
      unfold Prog.check
      rw [ExceptT.run_mk, Prog.wp_bind]
      have hcmd : HwOp.cmd? (.spiflashWrite (addr + UInt32.ofNat done)
          (fillWords ((data.drop done).take (min (data.length - done) 256)))
          (UInt32.ofNat (min (data.length - done) 256))) =
          some (.program (addr + UInt32.ofNat done).toNat
            ((data.drop done).take (min (data.length - done) 256))) := by
        simp only [HwOp.cmd?, hn', hbytes]
      refine ⟨cutGuard_of_some hcmd h.1, ?_⟩
      simp only [romDevice, Behaviour.issue, hn', hbytes]
      cases hr : (b.cmd s.log s.flash (.program (addr + UInt32.ofNat done).toNat
          ((data.drop done).take (min (data.length - done) 256)))).1 with
      | true => exact ih _ (by omega) (s := { s with flash := _, log := _ }) (by omega) (h.2.2 hr) rfl
      | false => exact herr _ _ (h.2.1 hr)
    · next hge =>
      rw [if_neg hge]
      exact hok s h.1 h.2

/-- A program through `flash_program`, which refuses what is not word-aligned. -/
def programPhase (addr : UInt32) (data : List UInt8) (seen : Flash → Bool) : Phase :=
  if addr &&& 3 ≠ 0 ∨ data.length &&& 3 ≠ 0 then ⟨[], fun _ => false⟩
  else ⟨chunkCmds addr data 0, seen⟩

theorem land_three {n : Nat} (h : n &&& 3 = 0) : 4 ∣ n := by
  rw [show (3 : Nat) = 2 ^ 2 - 1 from rfl, Nat.and_two_pow_sub_one_eq_mod] at h
  exact Nat.dvd_of_mod_eq_zero h

theorem land_three_eq_zero {x : UInt32} (h : x.toNat % 4 = 0) : x &&& 3 = 0 := by
  apply UInt32.toNat_inj.mp
  rw [UInt32.toNat_and, show (3 : UInt32).toNat = 2 ^ 2 - 1 from rfl, Nat.and_two_pow_sub_one_eq_mod]
  exact h

/-- An aligned program of one chunk is one command, or none when it is empty. -/
theorem programPhase_eq {addr : UInt32} {data : List UInt8} {seen : Flash → Bool}
    (haddr : addr.toNat % 4 = 0) (hlen : data.length % 4 = 0) (hsmall : data.length ≤ 256) :
    programPhase addr data seen =
      ⟨if data = [] then [] else [.program addr.toNat data], seen⟩ := by
  have hland : data.length &&& 3 = 0 := by
    rw [show (3 : Nat) = 2 ^ 2 - 1 from rfl, Nat.and_two_pow_sub_one_eq_mod]
    exact hlen
  rw [programPhase, if_neg (by simp [land_three_eq_zero haddr, hland])]
  congr 1
  by_cases hd : data = []
  · subst hd
    rw [chunkCmds]
    rfl
  · have hpos := List.length_pos_of_ne_nil hd
    rw [chunkCmds, if_pos hpos, if_neg hd, Nat.sub_zero, Nat.min_eq_left hsmall, chunkCmds,
      if_neg (by omega), List.drop_zero, List.take_length]
    congr 2
    exact congrArg UInt32.toNat (UInt32.add_zero addr)

theorem wp_issuing_flashProgram {addr : UInt32} {data : List UInt8} {seen : Flash → Bool}
    (h : issuing b C (programPhase addr data seen).cmds R s.flash s.log)
    (hok : ∀ s', C s'.flash → R true s'.flash s'.log → (programPhase addr data seen).seen = seen →
      Q (.ok ()) s')
    (hrefused : R true s.flash s.log → (programPhase addr data seen).seen = (fun _ => false) →
      ∀ e, Q (.error e) s)
    (herr : ∀ s' e, R false s'.flash s'.log → Q (.error e) s') :
    (ExceptT.run (flashProgram addr data)).wp (romDevice b other) (cutGuard HwOp.cmd? C) Q s := by
  unfold flashProgram
  unfold programPhase at h hok hrefused
  split
  · next hbad =>
    rw [if_pos hbad] at h hrefused
    exact hrefused h.2 rfl _
  · next hgood =>
    rw [if_neg hgood] at h hok
    rw [not_or, not_not, not_not] at hgood
    exact wp_issuing_programLoop (land_three hgood.2) (by decide) h
      (fun s' hC hR => hok s' hC hR rfl) herr

theorem mem_chunkCmds {addr : UInt32} {data : List UInt8} {done : Nat}
    (h : addr.toNat + data.length ≤ 2 ^ 32) :
    ∀ c ∈ chunkCmds addr data done, c.Programs addr.toNat (addr.toNat + data.length) := by
  induction hn : data.length - done using Nat.strongRecOn generalizing done with
  | ind n ih =>
    unfold chunkCmds
    split
    · next hlt =>
      intro c hc
      rcases List.mem_cons.mp hc with rfl | hc
      · simp only [Cmd.Programs, List.length_take, List.length_drop]
        rw [toNat_add_ofNat (by omega)]
        omega
      · exact ih _ (by omega) rfl c hc
    · intro c hc
      cases hc

theorem after_chunkCmds {addr : UInt32} {data : List UInt8} {done : Nat} (f : Flash)
    (h : addr.toNat + data.length ≤ 2 ^ 32) :
    after (chunkCmds addr data done) f =
      (Cmd.program (addr.toNat + done) (data.drop done)).apply f := by
  induction hn : data.length - done using Nat.strongRecOn generalizing done f with
  | ind n ih =>
    unfold chunkCmds
    split
    · next hlt =>
      rw [after_cons, ih _ (by omega) _ rfl, toNat_add_ofNat (by omega)]
      have hlen : ((data.drop done).take (min (data.length - done) 256)).length =
          min (data.length - done) 256 := by
        rw [List.length_take, List.length_drop]
        omega
      rw [← Nat.add_assoc]
      nth_rewrite 1 [← hlen]
      rw [← List.drop_drop, Cmd.apply_program_append, List.take_append_drop]
    · next hge => rw [List.drop_eq_nil_of_le (by omega), Cmd.apply_program_nil, after_nil]

theorem programPhase_programs {addr : UInt32} {a : Nat} {data : List UInt8}
    (h : data = [] ∨ (addr.toNat = a ∧ a + data.length ≤ 2 ^ 32)) :
    Programs a data (programPhase addr data) := by
  intro seen
  unfold programPhase
  split
  · exact .inl rfl
  · refine .inr ⟨rfl, ?_⟩
    rcases h with rfl | ⟨rfl, h⟩
    · rw [chunkCmds, if_neg (by simp)]
      exact ⟨by simp, fun f => (Cmd.apply_program_nil a f).symm⟩
    · refine ⟨mem_chunkCmds h, fun f => ?_⟩
      rw [after_chunkCmds f h, List.drop_zero, Nat.add_zero]

end Program

end Espbewi.Hw
