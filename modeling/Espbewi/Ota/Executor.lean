import Espbewi.EntryLaws
import Espbewi.Ota.OtadataLaws

/-! The application's executor is a run of the update protocol. -/

namespace Espbewi.Otadata

open Lib Nor Boot

variable {idf : EspIdf} {fb : Fibewi} {b : Behaviour} {C : Flash → Prop} {s : State}

theorem wp_executeAt {write : Write fb.Entry} {base o₁ o₂ : UInt32} {p₁ p₂ : Payload}
    {Q : Bool → Flash → List Cmd → Prop}
    (hops : fb.ops write = (.erase, .program o₁ p₁, .program o₂ p₂))
    (h : updating b C (fb.phases write base.toNat (.erase base.toNat (base + SECTOR_SIZE).toNat)
      (.mk (NorFlash.programCmds (base + o₁) p₁.slice)) (.mk (NorFlash.programCmds (base + o₂) p₂.slice)))
      Q s.flash s.log) :
    (ExceptT.run (executeAt fb write base)).wp (norDevice b) (cutGuard NorOp.cmd? C)
      (fun r s' => Q r.isOk s'.flash s'.log) s := by
  unfold executeAt
  rw [hops]
  simp only
  rw [Prog.wp_try]
  refine NorFlash.wp_issuing_erase h (fun s' hC h => ?_) (fun s' h => h.1 (.inl rfl))
  simp only
  rw [Prog.wp_try]
  refine NorFlash.wp_read (cutGuard_of_none rfl hC) ?_ fun hr => h.1 (.inr (.inl hr))
  simp only
  refine Prog.wp_unless (fun hne => h.1 (.inr (.inr (decide_eq_false hne)))) fun heq => ?_
  have h := h.2 rfl (decide_eq_true (not_not.mp heq))
  rw [Prog.wp_try]
  refine NorFlash.wp_issuing_write h (fun s' hC h => ?_) (fun s' h => h.1 (.inl rfl))
  simp only
  rw [Prog.wp_try]
  refine NorFlash.wp_read (cutGuard_of_none rfl hC) ?_ fun hr => h.1 (.inr (.inl hr))
  simp only
  refine Prog.wp_unless (fun hne => h.1 (.inr (.inr (decide_eq_false hne)))) fun heq => ?_
  have h := h.2 rfl (decide_eq_true (not_not.mp heq))
  rw [Prog.wp_try]
  refine NorFlash.wp_issuing_write h (fun s' hC h => ?_) (fun s' h => h.1 (.inl rfl))
  simp only
  rw [Prog.wp_try]
  refine NorFlash.wp_read (cutGuard_of_none rfl hC) ?_ fun hr => h.1 (.inr (.inl hr))
  simp only
  split
  · next hbad => exact h.1 (.inr (.inr (decide_eq_false fun hg => hbad.elim (· hg.1) (· hg.2))))
  · next hgood =>
    rw [not_or, not_not, not_not] at hgood
    exact h.2 rfl (decide_eq_true hgood)

theorem wp_execute {write : Write fb.Entry} {o₁ o₂ : UInt32} {p₁ p₂ : Payload}
    {Q : Bool → Flash → List Cmd → Prop}
    (hops : fb.ops write = (.erase, .program o₁ p₁, .program o₂ p₂)) (hC : C s.flash)
    (hlost : (¬ b.Readable ∨ idf.lookupIn s.flash .dataOta = none) → Q false s.flash s.log)
    (h : ∀ p base, idf.lookupIn s.flash .dataOta = some p → base = sectorAt p.offset write.sector →
      updating b C (fb.phases write base.toNat (.erase base.toNat (base + SECTOR_SIZE).toNat)
        (.mk (NorFlash.programCmds (base + o₁) p₁.slice)) (.mk (NorFlash.programCmds (base + o₂) p₂.slice)))
        Q s.flash s.log) :
    (ExceptT.run (execute idf fb write)).wp (norDevice b) (cutGuard NorOp.cmd? C)
      (fun r s' => Q r.isOk s'.flash s'.log) s := by
  unfold execute
  rw [Prog.wp_try]
  refine wp_readAt (fun k _ _ => cutGuard_of_none rfl hC) (fun p k hp => ?_) (fun hnone k => hlost hnone)
  exact wp_executeAt (s := { s with reads := k }) hops (h p _ hp rfl)

end Espbewi.Otadata
