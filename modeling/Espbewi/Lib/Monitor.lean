import Espbewi.Lib.Trace

/-! Monitors: a state that follows the calls of a program, whatever they are answered, and refuses the
calls that are out of place. -/

namespace Lib

/-- The state after a call and its answer; `none` for a call that is refused. -/
abbrev Monitor (Op : Type) (Ans : Op → Type) (τ : Type) := τ → Event Op Ans → Option τ

namespace Prog

variable {Op : Type} {Ans : Op → Type} {α β ε τ : Type} {M : Monitor Op Ans τ}

/-- From `c` on no call is refused, and the result and the state at the end satisfy `Q`. -/
def Monitored (M : Monitor Op Ans τ) : Prog Op Ans α → (α → τ → Prop) → τ → Prop
  | .ret a, Q, c => Q a c
  | .call o k, Q, c => ∀ r, ∃ c', M c ⟨o, r⟩ = some c' ∧ (k r).Monitored M Q c'

@[simp] theorem monitored_ret {a : α} {Q : α → τ → Prop} {c : τ} :
    (ret a : Prog Op Ans α).Monitored M Q c ↔ Q a c := Iff.rfl

@[simp] theorem monitored_call {o : Op} {k : Ans o → Prog Op Ans α} {Q : α → τ → Prop} {c : τ} :
    (call o k).Monitored M Q c ↔ ∀ r, ∃ c', M c ⟨o, r⟩ = some c' ∧ (k r).Monitored M Q c' := Iff.rfl

@[simp] theorem monitored_op {o : Op} {Q : Ans o → τ → Prop} {c : τ} :
    (op o : Prog Op Ans (Ans o)).Monitored M Q c ↔ ∀ r, ∃ c', M c ⟨o, r⟩ = some c' ∧ Q r c' := Iff.rfl

theorem Monitored.mono {p : Prog Op Ans α} {Q Q' : α → τ → Prop} (h : ∀ a c, Q a c → Q' a c) {c : τ}
    (hp : p.Monitored M Q c) : p.Monitored M Q' c := by
  induction p generalizing c with
  | ret a => exact h _ _ hp
  | call o k ih =>
    intro r
    obtain ⟨c', hstep, hk⟩ := hp r
    exact ⟨c', hstep, ih r hk⟩

theorem monitored_bind {p : Prog Op Ans α} {f : α → Prog Op Ans β} {Q : β → τ → Prop} {c : τ} :
    (p >>= f).Monitored M Q c ↔ p.Monitored M (fun a c => (f a).Monitored M Q c) c := by
  induction p generalizing c with
  | ret a => rfl
  | call o k ih =>
    simp only [call_bind, monitored_call, ih]

/-- A fallible sequence goes on after a success, and ends with the first error. -/
theorem monitored_try {p : ExceptT ε (Prog Op Ans) α} {f : α → ExceptT ε (Prog Op Ans) β}
    {Q : Except ε β → τ → Prop} {c : τ} :
    Monitored M (ExceptT.run (p >>= f)) Q c ↔ Monitored M (ExceptT.run p) (fun
      | .ok a, c => Monitored M (ExceptT.run (f a)) Q c
      | .error e, c => Q (.error e) c) c := by
  rw [ExceptT.run_bind, monitored_bind]
  constructor
  · refine Monitored.mono fun r c h => ?_
    cases r with
    | ok a => exact h
    | error e => exact h
  · refine Monitored.mono fun r c h => ?_
    cases r with
    | ok a => exact h
    | error e => exact h

theorem monitored_lift {p : Prog Op Ans α} {Q : Except ε α → τ → Prop} {c : τ} :
    Monitored M (ExceptT.run (ExceptT.lift p : ExceptT ε (Prog Op Ans) α)) Q c ↔
      p.Monitored M (fun a c => Q (.ok a) c) c := by
  rw [ExceptT.run_lift, map_eq_pure_bind, monitored_bind]
  rfl

/-- The monitor follows every run. -/
theorem Monitored.runs {p : Prog Op Ans α} {Q : α → τ → Prop} {c : τ} (hp : p.Monitored M Q c)
    {tr : List (Event Op Ans)} {a : α} (h : Runs p tr a) : ∃ c', tr.foldlM M c = some c' ∧ Q a c' := by
  induction h generalizing c with
  | ret => exact ⟨c, rfl, hp⟩
  | call _ ih =>
    obtain ⟨c₁, hstep, hk⟩ := hp _
    obtain ⟨c', hfold, hQ⟩ := ih hk
    refine ⟨c', ?_, hQ⟩
    rw [List.foldlM_cons, hstep]
    exact hfold

end Prog

end Lib
