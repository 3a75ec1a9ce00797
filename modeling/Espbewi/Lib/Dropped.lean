import Espbewi.Lib.Mutex
import Espbewi.Lib.Trace

/-! Runs that are dropped before their end, and the states that a trace walks through. -/

namespace Lib.Prog

variable {Op : Type} {Ans : Op → Type} {α β σ : Type} {A : Answers Op Ans σ} {tr tr' : List (Event Op Ans)}

/-- The calls that a run of the program may have made when it is dropped. The last answer may never be read. -/
inductive Begins : Prog Op Ans α → List (Event Op Ans) → Prop
  | stop {p : Prog Op Ans α} : Begins p []
  | call {o : Op} {k : Ans o → Prog Op Ans α} {r : Ans o} {tr : List (Event Op Ans)} :
    Begins (k r) tr → Begins (.call o k) (⟨o, r⟩ :: tr)

theorem Runs.begins {p : Prog Op Ans α} {a : α} (h : Runs p tr a) : Begins p tr := by
  induction h with
  | ret => exact .stop
  | call _ ih => exact .call ih

@[simp] theorem begins_ret {a : α} : Begins (ret a : Prog Op Ans α) tr ↔ tr = [] := by
  constructor
  · rintro ⟨⟩
    rfl
  · rintro rfl
    exact .stop

theorem begins_call {o : Op} {k : Ans o → Prog Op Ans α} :
    Begins (call o k) tr ↔ tr = [] ∨ ∃ r tr', tr = ⟨o, r⟩ :: tr' ∧ Begins (k r) tr' := by
  constructor
  · rintro ⟨⟩
    · exact .inl rfl
    · exact .inr ⟨_, _, rfl, ‹_›⟩
  · rintro (rfl | ⟨r, tr', rfl, h⟩)
    · exact .stop
    · exact .call h

theorem begins_bind {p : Prog Op Ans α} {f : α → Prog Op Ans β} (h : Begins (p >>= f) tr) :
    Begins p tr ∨ ∃ tr₁ tr₂ a, tr = tr₁ ++ tr₂ ∧ Runs p tr₁ a ∧ Begins (f a) tr₂ := by
  induction p generalizing tr with
  | ret a => exact .inr ⟨[], tr, a, rfl, .ret, h⟩
  | call o k ih =>
    cases h with
    | stop => exact .inl .stop
    | call h =>
      rcases ih _ h with h | ⟨tr₁, tr₂, a, rfl, hp, hf⟩
      · exact .inl (.call h)
      · exact .inr ⟨_, tr₂, a, rfl, .call hp, hf⟩

theorem Only.begins {P : Op → Prop} {p : Prog Op Ans α} (hp : p.Only P) (h : Begins p tr) :
    ∀ ev ∈ tr, P ev.1 := by
  induction h with
  | stop => exact fun _ hev => nomatch hev
  | call _ ih =>
    intro ev hev
    rcases List.mem_cons.mp hev with rfl | hev
    · exact hp.1
    · exact ih (hp.2 _) ev hev

/-- The device may give the answers of the trace, one after the other. -/
inductive Walks (A : Answers Op Ans σ) : σ → List (Event Op Ans) → σ → Prop
  | nil {s : σ} : Walks A s [] s
  | cons {s s₁ s' : σ} {o : Op} {r : Ans o} {tr : List (Event Op Ans)} :
    A s o r s₁ → Walks A s₁ tr s' → Walks A s (⟨o, r⟩ :: tr) s'

@[simp] theorem walks_nil {s s' : σ} : Walks A s [] s' ↔ s' = s := by
  constructor
  · rintro ⟨⟩
    rfl
  · rintro rfl
    exact .nil

theorem walks_cons {s s' : σ} {o : Op} {r : Ans o} :
    Walks A s (⟨o, r⟩ :: tr) s' ↔ ∃ s₁, A s o r s₁ ∧ Walks A s₁ tr s' := by
  constructor
  · rintro ⟨⟩
    exact ⟨_, ‹_›, ‹_›⟩
  · rintro ⟨s₁, ho, h⟩
    exact .cons ho h

theorem walks_append {s s' : σ} : Walks A s (tr ++ tr') s' ↔ ∃ s₁, Walks A s tr s₁ ∧ Walks A s₁ tr' s' := by
  induction tr generalizing s with
  | nil => simp
  | cons ev tr ih =>
    obtain ⟨o, r⟩ := ev
    simp only [List.cons_append, walks_cons, ih]
    constructor
    · rintro ⟨s₁, ho, s₂, h, h'⟩
      exact ⟨s₂, ⟨s₁, ho, h⟩, h'⟩
    · rintro ⟨s₂, ⟨s₁, ho, h⟩, h'⟩
      exact ⟨s₁, ho, s₂, h, h'⟩

theorem Runs.exec {p : Prog Op Ans α} {a : α} {s s' : σ} (h : Runs p tr a) (hwalk : Walks A s tr s') :
    p.Exec A s a s' := by
  induction h generalizing s with
  | ret => exact ⟨rfl, walks_nil.mp hwalk⟩
  | call _ ih =>
    obtain ⟨s₁, ho, hwalk⟩ := walks_cons.mp hwalk
    exact ⟨_, s₁, ho, ih hwalk⟩

/-- What every call of a trace preserves, its walk preserves. -/
theorem Walks.preserves {P : Op → Prop} {J : σ → Prop} (hstep : ∀ s o r s', P o → J s → A s o r s' → J s')
    {s s' : σ} (h : Walks A s tr s') (hP : ∀ ev ∈ tr, P ev.1) (hs : J s) : J s' := by
  induction h with
  | nil => exact hs
  | cons ho _ ih =>
    exact ih (fun ev hev => hP ev (List.mem_cons_of_mem _ hev))
      (hstep _ _ _ _ (hP _ List.mem_cons_self) hs ho)

end Lib.Prog
