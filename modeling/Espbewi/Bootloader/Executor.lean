import Espbewi.EntryLaws
import Espbewi.Bootloader.Layout

/-! The bootloader's executor is a run of the update protocol. -/

namespace Espbewi.Bootloader

open Lib Nor Boot Hw

variable {fb : Fibewi} {b : Behaviour} {other : State → (o : HwOp) → o.Ans} {C : Flash → Prop}
  {s : State}

theorem cutGuard_read {k : Nat} {src n : UInt32} (hC : C s.flash) :
    cutGuard HwOp.cmd? C { s with reads := k } (.spiflashRead src n) :=
  cutGuard_of_none rfl hC

theorem wp_flashUnlock {I : State → HwOp → Prop} {Q : Except FlashError Unit → State → Prop}
    (hI : I s .spiflashUnlock) (hok : other s .spiflashUnlock = true → Q (.ok ()) s)
    (herr : other s .spiflashUnlock = false → Q (.error .unlock) s) :
    (ExceptT.run flashUnlock).wp (romDevice b other) I Q s := by
  unfold flashUnlock Prog.check
  rw [ExceptT.run_mk, Prog.wp_bind]
  refine ⟨hI, ?_⟩
  simp only [romDevice]
  cases hu : other s .spiflashUnlock with
  | true => exact hok hu
  | false => exact herr hu

theorem wp_executeAt {write : Write fb.Entry} {base o₁ o₂ : UInt32} {p₁ p₂ : Payload}
    {Q : Bool → Flash → List Cmd → Prop} (hin : base.toNat + fb.ENTRY_SIZE ≤ 2 ^ 32)
    (hops : fb.ops write = (.erase, .program o₁ p₁, .program o₂ p₂)) (hC : C s.flash)
    (hlocked : other s .spiflashUnlock = false → Q false s.flash s.log)
    (h : updating b C (fb.phases write base.toNat
      (.erase ((base / SECTOR).toNat * 0x1000) (((base / SECTOR).toNat + 1) * 0x1000))
      (programPhase (base + o₁) p₁.slice) (programPhase (base + o₂) p₂.slice)) Q s.flash s.log) :
    (ExceptT.run (executeAt fb write base)).wp (romDevice b other) (cutGuard HwOp.cmd? C)
      (fun r s' => Q r.isOk s'.flash s'.log) s := by
  unfold executeAt
  rw [hops]
  simp only
  rw [Prog.wp_try, Prog.wp_adapt]
  refine wp_flashUnlock (cutGuard_of_none rfl hC) (fun _ => ?_) hlocked
  simp only [Except.mapError]
  rw [Prog.wp_try, Prog.wp_adapt]
  refine wp_issuing_eraseSector h (fun s' hC h => ?_) (fun s' e h => h.1 (.inl rfl))
  simp only [Except.mapError]
  rw [Prog.wp_try]
  refine wp_bootRead hin (fun _ _ _ => cutGuard_read hC) (fun k => ?_) fun hr _ _ => h.1 (.inr (.inl hr))
  refine Prog.wp_unless (fun hne => h.1 (.inr (.inr (decide_eq_false hne)))) fun heq => ?_
  have h := h.2 rfl (decide_eq_true (not_not.mp heq))
  rw [Prog.wp_try, Prog.wp_adapt]
  refine wp_issuing_flashProgram h (fun s' hC h hseen => ?_)
    (fun h hseen _ => h.1 (.inr (.inr (congrFun hseen _)))) (fun s' e h => h.1 (.inl rfl))
  rw [hseen] at h
  simp only [Except.mapError]
  rw [Prog.wp_try]
  refine wp_bootRead hin (fun _ _ _ => cutGuard_read hC) (fun k => ?_) fun hr _ _ => h.1 (.inr (.inl hr))
  refine Prog.wp_unless (fun hne => h.1 (.inr (.inr (decide_eq_false hne)))) fun heq => ?_
  have h := h.2 rfl (decide_eq_true (not_not.mp heq))
  rw [Prog.wp_try, Prog.wp_adapt]
  refine wp_issuing_flashProgram h (fun s' hC h hseen => ?_)
    (fun h hseen _ => h.1 (.inr (.inr (congrFun hseen _)))) (fun s' e h => h.1 (.inl rfl))
  rw [hseen] at h
  simp only [Except.mapError]
  rw [Prog.wp_try]
  refine wp_bootRead hin (fun _ _ _ => cutGuard_read hC) (fun k => ?_) fun hr _ _ => h.1 (.inr (.inl hr))
  simp only
  split
  · next hbad => exact h.1 (.inr (.inr (decide_eq_false fun hg => hbad.elim (· hg.1) (· hg.2))))
  · next hgood =>
    rw [not_or, not_not, not_not] at hgood
    exact h.2 rfl (decide_eq_true hgood)

end Espbewi.Bootloader
