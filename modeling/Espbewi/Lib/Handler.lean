import Espbewi.Lib.Trace

/-! Programs over abstract steps, carried out by a handler for each step. -/

namespace Lib.Prog

variable {Op Op' : Type} {Ans : Op → Type} {Ans' : Op' → Type} {α β ε ε' : Type}

/-- Carries out every step of the program by its handler. -/
def interp (h : (o : Op) → Prog Op' Ans' (Ans o)) : Prog Op Ans α → Prog Op' Ans' α
  | .ret a => .ret a
  | .call o k => h o >>= fun r => (k r).interp h

variable {h : (o : Op) → Prog Op' Ans' (Ans o)}

@[simp] theorem interp_ret (a : α) : interp h (.ret a) = .ret a := rfl

theorem interp_op (o : Op) : interp h (op o) = h o := bind_ret (h o)

theorem interp_bind (p : Prog Op Ans α) (f : α → Prog Op Ans β) :
    interp h (p >>= f) = interp h p >>= fun a => interp h (f a) := by
  induction p with
  | ret a => rfl
  | call o k ih =>
    rw [call_bind, interp, interp, LawfulMonad.bind_assoc]
    simp only [ih]

/-- `tr` carries out the steps one after the other. -/
inductive Realises (h : (o : Op) → Prog Op' Ans' (Ans o)) :
    List (Event Op Ans) → List (Event Op' Ans') → Prop
  | nil : Realises h [] []
  | cons {o r tr steps tr'} : Runs (h o) tr r → Realises h steps tr' →
      Realises h (⟨o, r⟩ :: steps) (tr ++ tr')

theorem runs_interp {p : Prog Op Ans α} {tr : List (Event Op' Ans')} {a : α}
    (hrun : Runs (interp h p) tr a) : ∃ steps, Runs p steps a ∧ Realises h steps tr := by
  induction p generalizing tr with
  | ret a' =>
    obtain ⟨rfl, rfl⟩ := runs_ret.mp hrun
    exact ⟨[], .ret, .nil⟩
  | call o k ih =>
    obtain ⟨tr₁, tr₂, r, rfl, ho, hk⟩ := runs_bind.mp hrun
    obtain ⟨steps, hsteps, hreal⟩ := ih r hk
    exact ⟨⟨o, r⟩ :: steps, .call hsteps, .cons ho hreal⟩

/-! ### Programs that end at the first failure -/

/-- Once a call is answered badly, the program makes no other and fails. -/
def Halts (bad : (o : Op) → Ans o → Prop) (failed : α → Prop) : Prog Op Ans α → Prop
  | .ret _ => True
  | .call o k => ∀ r, (bad o r → ∃ a, k r = .ret a ∧ failed a) ∧ (k r).Halts bad failed

variable {bad : (o : Op) → Ans o → Prop} {bad' : (o : Op') → Ans' o → Prop} {failed : α → Prop}

theorem Halts.last {p : Prog Op Ans α} (hp : p.Halts bad failed) {tr pre post : List (Event Op Ans)}
    {ev : Event Op Ans} {a : α} (hrun : Runs p tr a) (htr : tr = pre ++ ev :: post)
    (hbad : bad ev.1 ev.2) : post = [] ∧ failed a := by
  induction hrun generalizing pre with
  | ret => simp at htr
  | @call o k r tr a hk ih =>
    cases pre with
    | nil =>
      cases htr
      obtain ⟨a', hret, hfailed⟩ := (hp r).1 hbad
      rw [hret] at hk
      obtain ⟨rfl, rfl⟩ := runs_ret.mp hk
      exact ⟨rfl, hfailed⟩
    | cons ev' pre =>
      cases htr
      exact ih (hp r).2 rfl

theorem halts_bind {failed' : β → Prop} {p : Prog Op Ans α} {f : α → Prog Op Ans β}
    (hp : p.Halts bad failed) (hfailed : ∀ a, failed a → ∃ b, f a = .ret b ∧ failed' b)
    (hf : ∀ a, (f a).Halts bad failed') : (p >>= f).Halts bad failed' := by
  induction p with
  | ret a => exact hf a
  | call o k ih =>
    intro r
    refine ⟨fun hbad => ?_, ih r (hp r).2⟩
    obtain ⟨a, hret, ha⟩ := (hp r).1 hbad
    obtain ⟨b, hb, hb'⟩ := hfailed a ha
    exact ⟨b, by simp only [hret]; exact hb, hb'⟩

theorem halts_of_bind_ret {failed' : β → Prop} {p : Prog Op Ans α} {g : α → β}
    (hg : ∀ a, failed' (g a) → failed a) (hp : (p >>= fun a => .ret (g a)).Halts bad failed') :
    p.Halts bad failed := by
  induction p with
  | ret a => trivial
  | call o k ih =>
    intro r
    refine ⟨fun hbad => ?_, ih r (hp r).2⟩
    obtain ⟨b, hret, hb⟩ := (hp r).1 hbad
    change k r >>= (fun a => .ret (g a)) = .ret b at hret
    cases hk : k r with
    | ret a =>
      rw [hk] at hret
      cases hret
      exact ⟨a, rfl, hg a hb⟩
    | call o' k' =>
      rw [hk] at hret
      cases hret

/-- A handler that answers badly as soon as one of its calls is keeps the halting. -/
theorem halts_interp {p : Prog Op Ans α} (hp : p.Halts bad failed)
    (hh : ∀ o, (h o).Halts bad' (bad o)) : (interp h p).Halts bad' failed := by
  induction p with
  | ret a => trivial
  | call o k ih =>
    refine halts_bind (hh o) (fun r hr => ?_) fun r => ih r (hp r).2
    obtain ⟨a, hret, ha⟩ := (hp r).1 hr
    exact ⟨a, by rw [hret, interp_ret], ha⟩

def Failed (r : Except ε α) : Prop := r.isOk = false

theorem halts_try {p : ExceptT ε (Prog Op Ans) α} {f : α → ExceptT ε (Prog Op Ans) β}
    (hp : Halts bad Failed (ExceptT.run p)) (hf : ∀ a, Halts bad Failed (ExceptT.run (f a))) :
    Halts bad Failed (ExceptT.run (p >>= f)) := by
  rw [ExceptT.run_bind]
  refine halts_bind hp (fun r hr => ?_) fun r => ?_
  · cases r with
    | ok a => cases hr
    | error e => exact ⟨.error e, rfl, rfl⟩
  · cases r with
    | ok a => exact hf a
    | error e => trivial

theorem halts_check {p : Prog Op Ans Bool} (hp : p.Halts bad (· = false)) (e : ε) :
    Halts bad Failed (ExceptT.run (check p e)) :=
  halts_bind hp (fun r hr => ⟨.error e, by rw [hr]; rfl, rfl⟩) fun r => trivial

theorem halts_expect {p : Prog Op Ans (Option α)} (hp : p.Halts bad (· = none)) (e : ε) :
    Halts bad Failed (ExceptT.run (expect p e)) := by
  refine halts_bind hp (fun r hr => ⟨.error e, by rw [hr], rfl⟩) fun r => ?_
  cases r <;> trivial

theorem halts_throw (e : ε) : Halts bad Failed (ExceptT.run (throw e : ExceptT ε (Prog Op Ans) α)) :=
  trivial

/-! ### Errors that are forgotten -/

theorem adapt_try {p : ExceptT ε (Prog Op Ans) α} {f : α → ExceptT ε (Prog Op Ans) β} {g : ε → ε'} :
    (p >>= f).adapt g = p.adapt g >>= fun a => (f a).adapt g := by
  change Except.mapError g <$> ExceptT.run (p >>= f) =
    ExceptT.run (ExceptT.mk (Except.mapError g <$> ExceptT.run p) >>= fun a => (f a).adapt g)
  rw [ExceptT.run_bind, ExceptT.run_bind, ExceptT.run_mk, map_bind, bind_map_left]
  congr 1
  funext r
  cases r with
  | ok a => rfl
  | error e => rfl

theorem interp_try {p : ExceptT ε (Prog Op Ans) α} {f : α → ExceptT ε (Prog Op Ans) β} :
    interp h (ExceptT.run (p >>= f)) =
      ExceptT.run (ExceptT.mk (interp h (ExceptT.run p)) >>= fun a =>
        ExceptT.mk (interp h (ExceptT.run (f a)))) := by
  rw [ExceptT.run_bind, ExceptT.run_bind, interp_bind, ExceptT.run_mk]
  congr 1
  funext r
  cases r with
  | ok a => rfl
  | error e => rfl

end Lib.Prog
