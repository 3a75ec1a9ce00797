import Espbewi.Bootloader.Quiet
import Espbewi.Ota.Sectors

/-! The plan of `boot` as a decision over the entries and the verdicts on the images. -/

namespace Espbewi.Bootloader

open Lib Nor Boot Hw Platform Prog

/-- Whether `image_ok` accepts a slot, given what the validator says of each place. -/
def verdict (image : UInt32 → UInt32 → Bool) (layout : Layout) (slot : UInt8) : Bool :=
  match slot with
  | 0 => image layout.apps.1.1 layout.apps.1.2
  | 1 => image layout.apps.2.1 layout.apps.2.2
  | _ => false

/-- The validator's answer depends on the place alone. -/
def Judges (other : State → (o : HwOp) → o.Ans) (map : MemoryMap) (image : UInt32 → UInt32 → Bool) :
    Prop :=
  ∀ s offset size, (other s (.validate offset size map)).isSome = image offset size

theorem judges_steady (image : UInt32 → UInt32 → Option Image) (map : MemoryMap) :
    Judges (steady image) map fun offset size => (image offset size).isSome :=
  fun _ _ _ => rfl

variable {b : Behaviour} {other : State → (o : HwOp) → o.Ans} {map : MemoryMap} {layout : Layout}
  {image : UInt32 → UInt32 → Bool} {s : State}

theorem app_eq (image : UInt32 → UInt32 → Bool) (layout : Layout) {slot : UInt8} (h : slot < 2) :
    ∃ part, layout.app slot = pure part ∧ verdict image layout slot = image part.1 part.2 := by
  rcases Otadata.sector_cases h with rfl | rfl
  · exact ⟨layout.apps.1, rfl, rfl⟩
  · exact ⟨layout.apps.2, rfl, rfl⟩

theorem app_panic {slot : UInt8} (h : ¬ slot < 2) : layout.app slot = throw .panic := by
  unfold Layout.app
  split
  · exact absurd (by decide) h
  · exact absurd (by decide) h
  · rfl

theorem validate_run (layout : Layout) (hj : Judges other map image) {slot : UInt8} (h : slot < 2) :
    ∃ answer, (ExceptT.run (validate layout map slot)).run (romDevice b other) s = (.ok answer, s) ∧
      answer.isSome = verdict image layout slot := by
  obtain ⟨part, happ, hverdict⟩ := app_eq image layout h
  refine ⟨other s (.validate part.1 part.2 map), ?_, (hj s _ _).trans hverdict.symm⟩
  unfold validate
  rw [happ, pure_bind]
  rfl

theorem validate_panic {slot : UInt8} (h : ¬ slot < 2) :
    (ExceptT.run (validate layout map slot)).run (romDevice b other) s = (.error .panic, s) := by
  unfold validate
  rw [app_panic h]
  rfl

/-- A plan that is made is the one `plan_boot` makes from the verdicts. -/
theorem runPlan_ok (hj : Judges other map image) {α : Type} {p : Prog UInt8 (fun _ => Bool) α}
    {plan : α} (h : ((ExceptT.run (runPlan layout map p)).run (romDevice b other) s).1 = .ok plan) :
    plan = (p.run (fun s slot => (verdict image layout slot, s)) ()).1 := by
  induction p with
  | ret a =>
    cases h
    rfl
  | call slot k ih =>
    unfold runPlan at h
    rw [run_try] at h
    by_cases hslot : slot < 2
    · obtain ⟨answer, hrun, hanswer⟩ := validate_run (b := b) (s := s) layout hj hslot
      rw [hrun] at h
      rw [run_call, ← hanswer]
      exact ih answer.isSome h
    · rw [validate_panic hslot] at h
      cases h

/-- A plan is made when `plan_boot` asks only about the two slots. -/
theorem runPlan_run (hj : Judges other map image) {α : Type} {p : Prog UInt8 (fun _ => Bool) α}
    (hp : p.Only (· < 2)) :
    (ExceptT.run (runPlan layout map p)).run (romDevice b other) s =
      (.ok (p.run (fun s slot => (verdict image layout slot, s)) ()).1, s) := by
  induction p with
  | ret a => rfl
  | call slot k ih =>
    unfold runPlan
    obtain ⟨answer, hrun, hanswer⟩ := validate_run (b := b) (s := s) layout hj hp.1
    rw [run_try, hrun, run_call, ← hanswer]
    exact ih answer.isSome (hp.2 _)

end Espbewi.Bootloader
