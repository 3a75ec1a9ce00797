import Mathlib.Logic.Basic
import Mathlib.Data.List.Basic

namespace Lib

/-- A program as the tree of the calls it makes: at each `call` it waits for an
answer of the type its operation promises. -/
inductive Prog (Op : Type) (Ans : Op → Type) (α : Type) : Type
  | ret : α → Prog Op Ans α
  | call : (o : Op) → (Ans o → Prog Op Ans α) → Prog Op Ans α

/-- One call together with the answer it got. -/
abbrev Event (Op : Type) (Ans : Op → Type) := (o : Op) × Ans o

/-- What answers the calls, with a state of its own. -/
abbrev Device (Op : Type) (Ans : Op → Type) (σ : Type) := σ → (o : Op) → Ans o × σ

namespace Prog

variable {Op : Type} {Ans : Op → Type} {α β γ ε σ : Type}

def bind : Prog Op Ans α → (α → Prog Op Ans β) → Prog Op Ans β
  | .ret a, f => f a
  | .call o k, f => .call o (fun r => (k r).bind f)

instance : Monad (Prog Op Ans) where
  pure := .ret
  bind := bind

@[simp] theorem pure_eq (a : α) : (pure a : Prog Op Ans α) = .ret a := rfl

@[simp] theorem ret_bind (a : α) (f : α → Prog Op Ans β) : (.ret a : Prog Op Ans α) >>= f = f a := rfl

@[simp] theorem call_bind (o : Op) (k : Ans o → Prog Op Ans α) (f : α → Prog Op Ans β) :
    (.call o k : Prog Op Ans α) >>= f = .call o (fun r => k r >>= f) := rfl

theorem bind_ret (p : Prog Op Ans α) : p >>= (fun a => .ret a) = p := by
  induction p with
  | ret a => rfl
  | call o k ih => simp [ih]

theorem bind_assoc (p : Prog Op Ans α) (f : α → Prog Op Ans β) (g : β → Prog Op Ans γ) :
    p >>= f >>= g = p >>= (fun a => f a >>= g) := by
  induction p with
  | ret a => rfl
  | call o k ih => simp [ih]

instance : LawfulMonad (Prog Op Ans) :=
  LawfulMonad.mk' _ bind_ret (fun _ _ => rfl) bind_assoc

def op (o : Op) : Prog Op Ans (Ans o) := .call o .ret

/-- A call that only reports success, with the error its failure raises. -/
def check (p : Prog Op Ans Bool) (e : ε) : ExceptT ε (Prog Op Ans) Unit :=
  ExceptT.mk (p >>= fun ok => .ret (if ok then .ok () else .error e))

/-- A call that may answer nothing, with the error this raises. -/
def expect (p : Prog Op Ans (Option α)) (e : ε) : ExceptT ε (Prog Op Ans) α :=
  ExceptT.mk (p >>= fun
    | some a => .ret (.ok a)
    | none => .ret (.error e))

def ofExcept (r : Except ε α) : ExceptT ε (Prog Op Ans) α := ExceptT.mk (.ret r)

@[simp] theorem run_ofExcept (r : Except ε α) :
    ExceptT.run (ofExcept r : ExceptT ε (Prog Op Ans) α) = .ret r := rfl

/-! ### Runs against a device -/

def run (d : Device Op Ans σ) : Prog Op Ans α → σ → α × σ
  | .ret a, s => (a, s)
  | .call o k, s => (k (d s o).1).run d (d s o).2

def events (d : Device Op Ans σ) : Prog Op Ans α → σ → List (Event Op Ans)
  | .ret _, _ => []
  | .call o k, s => ⟨o, (d s o).1⟩ :: (k (d s o).1).events d (d s o).2

/-- The moments of a run: `o` is about to be answered in state `s'`. -/
def Issues (d : Device Op Ans σ) : Prog Op Ans α → σ → σ → Op → Prop
  | .ret _, _, _, _ => False
  | .call o k, s, s', o' => (s' = s ∧ o' = o) ∨ (k (d s o).1).Issues d (d s o).2 s' o'

/-- What a run issues after `n` other operations, and the state in which it does. -/
def issueAt (d : Device Op Ans σ) : Prog Op Ans α → σ → Nat → Option (σ × Op)
  | .ret _, _, _ => none
  | .call o _, s, 0 => some (s, o)
  | .call o k, s, n + 1 => (k (d s o).1).issueAt d (d s o).2 n

theorem issues_of_issueAt {d : Device Op Ans σ} {p : Prog Op Ans α} {s s' : σ} {o : Op} {n : Nat}
    (h : p.issueAt d s n = some (s', o)) : p.Issues d s s' o := by
  induction p generalizing s n with
  | ret a => cases h
  | call o' k ih =>
    cases n with
    | zero =>
      cases h
      exact .inl ⟨rfl, rfl⟩
    | succ n => exact .inr (ih _ h)

@[simp] theorem run_ret (d : Device Op Ans σ) (a : α) (s : σ) : (ret a).run d s = (a, s) := rfl

@[simp] theorem run_call (d : Device Op Ans σ) (o : Op) (k : Ans o → Prog Op Ans α) (s : σ) :
    (call o k).run d s = (k (d s o).1).run d (d s o).2 := rfl

@[simp] theorem run_op (d : Device Op Ans σ) (o : Op) (s : σ) : (op o).run d s = d s o := rfl

/-- A run whose result is a pair, by the first part of it. -/
theorem run_eq {d : Device Op Ans σ} {p : Prog Op Ans (α × β)} {s : σ} {a : α} (h : (p.run d s).1.1 = a) :
    p.run d s = ((a, (p.run d s).1.2), (p.run d s).2) := Prod.ext (Prod.ext h rfl) rfl

@[simp] theorem events_ret (d : Device Op Ans σ) (a : α) (s : σ) : (ret a).events d s = [] := rfl

@[simp] theorem events_call (d : Device Op Ans σ) (o : Op) (k : Ans o → Prog Op Ans α) (s : σ) :
    (call o k).events d s = ⟨o, (d s o).1⟩ :: (k (d s o).1).events d (d s o).2 := rfl

theorem run_bind (d : Device Op Ans σ) (p : Prog Op Ans α) (f : α → Prog Op Ans β) (s : σ) :
    (p >>= f).run d s = (f (p.run d s).1).run d (p.run d s).2 := by
  induction p generalizing s with
  | ret a => rfl
  | call o k ih => simp [ih]

/-! ### Guarded weakest preconditions

`p.wp d I Q s`: run from `s`, every call of `p` is issued at a moment that
satisfies `I`, and the result and final state satisfy `Q`. -/

def wp (d : Device Op Ans σ) (I : σ → Op → Prop) : Prog Op Ans α → (α → σ → Prop) → σ → Prop
  | .ret a, Q, s => Q a s
  | .call o k, Q, s => I s o ∧ (k (d s o).1).wp d I Q (d s o).2

@[simp] theorem wp_ret (d : Device Op Ans σ) (I : σ → Op → Prop) (a : α) (Q : α → σ → Prop) (s : σ) :
    (ret a).wp d I Q s ↔ Q a s := Iff.rfl

@[simp] theorem wp_op (d : Device Op Ans σ) (I : σ → Op → Prop) (o : Op) (Q : Ans o → σ → Prop) (s : σ) :
    (op o).wp d I Q s ↔ I s o ∧ Q (d s o).1 (d s o).2 := Iff.rfl

theorem wp_bind (d : Device Op Ans σ) (I : σ → Op → Prop) (p : Prog Op Ans α)
    (f : α → Prog Op Ans β) (Q : β → σ → Prop) (s : σ) :
    (p >>= f).wp d I Q s ↔ p.wp d I (fun a s' => (f a).wp d I Q s') s := by
  induction p generalizing s with
  | ret a => rfl
  | call o k ih => simp [wp, ih]

theorem wp_mono {d : Device Op Ans σ} {I : σ → Op → Prop} {p : Prog Op Ans α}
    {Q R : α → σ → Prop} {s : σ} (h : ∀ a s', Q a s' → R a s') (hp : p.wp d I Q s) :
    p.wp d I R s := by
  induction p generalizing s with
  | ret a => exact h _ _ hp
  | call o k ih => exact ⟨hp.1, ih _ hp.2⟩

theorem wp_guard_mono {d : Device Op Ans σ} {I J : σ → Op → Prop} {p : Prog Op Ans α}
    {Q : α → σ → Prop} {s : σ} (h : ∀ s' o, I s' o → J s' o) (hp : p.wp d I Q s) : p.wp d J Q s := by
  induction p generalizing s with
  | ret a => exact hp
  | call o k ih => exact ⟨h _ _ hp.1, ih _ hp.2⟩

/-- The guarded precondition is exactly its two readings over the run. -/
theorem wp_iff (d : Device Op Ans σ) (I : σ → Op → Prop) (p : Prog Op Ans α)
    (Q : α → σ → Prop) (s : σ) :
    p.wp d I Q s ↔
      (∀ s' o, p.Issues d s s' o → I s' o) ∧ Q (p.run d s).1 (p.run d s).2 := by
  induction p generalizing s with
  | ret a => simp [wp, Issues]
  | call o k ih =>
    simp only [wp, Issues, run_call, ih]
    constructor
    · rintro ⟨hI, hk, hQ⟩
      refine ⟨?_, hQ⟩
      rintro s' o' (⟨rfl, rfl⟩ | h)
      · exact hI
      · exact hk s' o' h
    · rintro ⟨hk, hQ⟩
      exact ⟨hk _ _ (.inl ⟨rfl, rfl⟩), fun s' o' h => hk s' o' (.inr h), hQ⟩

/-! ### Programs that can fail -/

/-- `p >>= f` in `ExceptT`: `f` runs only after a success. -/
theorem wp_try (d : Device Op Ans σ) (I : σ → Op → Prop) (p : ExceptT ε (Prog Op Ans) α)
    (f : α → ExceptT ε (Prog Op Ans) β) (Q : Except ε β → σ → Prop) (s : σ) :
    wp d I (ExceptT.run (p >>= f)) Q s ↔
      wp d I (ExceptT.run p) (fun r s' => match r with
        | .ok a => wp d I (ExceptT.run (f a)) Q s'
        | .error e => Q (.error e) s') s := by
  rw [ExceptT.run_bind, wp_bind]
  constructor <;> refine wp_mono fun r s' h => ?_
  all_goals cases r <;> exact h

theorem wp_lift (d : Device Op Ans σ) (I : σ → Op → Prop) (p : Prog Op Ans α) (Q : Except ε α → σ → Prop) (s : σ) :
    wp d I (ExceptT.run (ExceptT.lift p)) Q s ↔ p.wp d I (fun a => Q (.ok a)) s :=
  wp_bind ..

@[simp] theorem wp_ofExcept (d : Device Op Ans σ) (I : σ → Op → Prop) (r : Except ε α)
    (Q : Except ε α → σ → Prop) (s : σ) : wp d I (ExceptT.run (ofExcept r)) Q s ↔ Q r s := Iff.rfl

theorem wp_adapt {ε' : Type} (d : Device Op Ans σ) (I : σ → Op → Prop) (g : ε → ε')
    (p : ExceptT ε (Prog Op Ans) α) (Q : Except ε' α → σ → Prop) (s : σ) :
    wp d I (ExceptT.run (p.adapt g)) Q s ↔
      wp d I (ExceptT.run p) (fun r s' => Q (r.mapError g) s') s := by
  change wp d I (Except.mapError g <$> ExceptT.run p) Q s ↔ _
  rw [map_eq_pure_bind, wp_bind]
  rfl

/-- A check that throws, in front of the rest of the program. -/
theorem wp_unless {c : Prop} [Decidable c] {d : Device Op Ans σ} {I : σ → Op → Prop} {e : ε}
    {f : PUnit → ExceptT ε (Prog Op Ans) α} {k : ExceptT ε (Prog Op Ans) α}
    {Q : Except ε α → σ → Prop} {s : σ} (hbad : c → Q (.error e) s)
    (hgood : ¬ c → wp d I (ExceptT.run k) Q s) :
    wp d I (ExceptT.run (if c then throw e >>= f else k)) Q s := by
  split
  · exact hbad ‹_›
  · exact hgood ‹_›

theorem run_of_wp {d : Device Op Ans σ} {p : Prog Op Ans α} {Q : α → σ → Prop} {s : σ}
    (h : p.wp d (fun _ _ => True) Q s) : Q (p.run d s).1 (p.run d s).2 :=
  ((wp_iff ..).mp h).2

theorem run_try (d : Device Op Ans σ) (p : ExceptT ε (Prog Op Ans) α)
    (f : α → ExceptT ε (Prog Op Ans) β) (s : σ) :
    (ExceptT.run (p >>= f)).run d s = match (ExceptT.run p).run d s with
      | (.ok a, s') => (ExceptT.run (f a)).run d s'
      | (.error e, s') => (.error e, s') := by
  rw [ExceptT.run_bind, run_bind]
  rcases (ExceptT.run p).run d s with ⟨r, s'⟩
  cases r <;> rfl

/-! ### Runs against arbitrary answers -/

/-- `p` can make exactly the calls of `tr`, get the answers of `tr`, and return `a`. -/
inductive Runs : Prog Op Ans α → List (Event Op Ans) → α → Prop
  | ret {a} : Runs (.ret a) [] a
  | call {o k r tr a} : Runs (k r) tr a → Runs (.call o k) (⟨o, r⟩ :: tr) a

theorem runs_events (d : Device Op Ans σ) (p : Prog Op Ans α) (s : σ) :
    Runs p (p.events d s) (p.run d s).1 := by
  induction p generalizing s with
  | ret a => exact .ret
  | call o k ih => exact .call (ih _ _)

theorem answer_of_mem_events {d : Device Op Ans σ} {p : Prog Op Ans α} {s : σ} {ev : Event Op Ans}
    (h : ev ∈ p.events d s) : ∃ s', ev.2 = (d s' ev.1).1 := by
  induction p generalizing s with
  | ret a => cases h
  | call o k ih =>
    rcases List.mem_cons.mp h with rfl | h
    · exact ⟨s, rfl⟩
    · exact ih _ h

@[simp] theorem runs_ret {a b : α} {tr : List (Event Op Ans)} :
    Runs (.ret a) tr b ↔ tr = [] ∧ b = a := by
  constructor
  · rintro ⟨⟩
    exact ⟨rfl, rfl⟩
  · rintro ⟨rfl, rfl⟩
    exact .ret

@[simp] theorem runs_call {o : Op} {k : Ans o → Prog Op Ans α} {tr : List (Event Op Ans)} {a : α} :
    Runs (.call o k) tr a ↔ ∃ r tr', tr = ⟨o, r⟩ :: tr' ∧ Runs (k r) tr' a := by
  constructor
  · rintro ⟨⟩
    exact ⟨_, _, rfl, ‹_›⟩
  · rintro ⟨r, tr', rfl, h⟩
    exact .call h

theorem runs_op {o : Op} {tr : List (Event Op Ans)} {r : Ans o} :
    Runs (op o) tr r ↔ tr = [⟨o, r⟩] := by
  simp only [op, runs_call, runs_ret]
  constructor
  · rintro ⟨r', tr', rfl, rfl, rfl⟩
    rfl
  · rintro rfl
    exact ⟨r, [], rfl, rfl, rfl⟩

theorem runs_bind {p : Prog Op Ans α} {f : α → Prog Op Ans β} {tr : List (Event Op Ans)} {b : β} :
    Runs (p >>= f) tr b ↔ ∃ tr₁ tr₂ a, tr = tr₁ ++ tr₂ ∧ Runs p tr₁ a ∧ Runs (f a) tr₂ b := by
  induction p generalizing tr with
  | ret a => simp
  | call o k ih =>
    simp only [call_bind, runs_call, ih]
    constructor
    · rintro ⟨r, tr', rfl, tr₁, tr₂, a, rfl, hp, hf⟩
      exact ⟨⟨o, r⟩ :: tr₁, tr₂, a, rfl, ⟨r, tr₁, rfl, hp⟩, hf⟩
    · rintro ⟨_, tr₂, a, rfl, ⟨r, tr₁, rfl, hp⟩, hf⟩
      exact ⟨r, tr₁ ++ tr₂, rfl, tr₁, tr₂, a, rfl, hp, hf⟩

/-- A fallible sequence stops at the first error, and otherwise splits in two runs. -/
theorem runs_try {p : ExceptT ε (Prog Op Ans) α} {f : α → ExceptT ε (Prog Op Ans) β}
    {tr : List (Event Op Ans)} {r : Except ε β} :
    Runs (ExceptT.run (p >>= f)) tr r ↔
      (∃ e, Runs (ExceptT.run p) tr (.error e) ∧ r = .error e) ∨
      (∃ tr₁ tr₂ a, tr = tr₁ ++ tr₂ ∧ Runs (ExceptT.run p) tr₁ (.ok a) ∧
        Runs (ExceptT.run (f a)) tr₂ r) := by
  rw [ExceptT.run_bind, runs_bind]
  constructor
  · rintro ⟨tr₁, tr₂, a, rfl, hp, hf⟩
    cases a with
    | error e =>
      obtain ⟨rfl, rfl⟩ := runs_ret.mp hf
      exact .inl ⟨e, by simpa using hp, rfl⟩
    | ok a => exact .inr ⟨tr₁, tr₂, a, rfl, hp, hf⟩
  · rintro (⟨e, hp, rfl⟩ | ⟨tr₁, tr₂, a, rfl, hp, hf⟩)
    · exact ⟨tr, [], .error e, by simp, hp, .ret⟩
    · exact ⟨tr₁, tr₂, .ok a, rfl, hp, hf⟩

/-! ### Programs that keep to some operations -/

/-- Whatever it is answered, the program only calls operations that satisfy `P`. -/
def Only (P : Op → Prop) : Prog Op Ans α → Prop
  | .ret _ => True
  | .call o k => P o ∧ ∀ r, (k r).Only P

variable {P : Op → Prop}

@[simp] theorem only_ret (a : α) : (ret a : Prog Op Ans α).Only P := trivial

theorem only_op {o : Op} (h : P o) : (op o : Prog Op Ans (Ans o)).Only P := ⟨h, fun _ => trivial⟩

theorem only_bind {p : Prog Op Ans α} {f : α → Prog Op Ans β} (hp : p.Only P)
    (hf : ∀ a, (f a).Only P) : (p >>= f).Only P := by
  induction p with
  | ret a => exact hf a
  | call o k ih => exact ⟨hp.1, fun r => ih r (hp.2 r)⟩

theorem only_try {p : ExceptT ε (Prog Op Ans) α} {f : α → ExceptT ε (Prog Op Ans) β}
    (hp : Only P (ExceptT.run p)) (hf : ∀ a, Only P (ExceptT.run (f a))) :
    Only P (ExceptT.run (p >>= f)) := by
  rw [ExceptT.run_bind]
  refine only_bind hp fun r => ?_
  cases r with
  | error e => trivial
  | ok a => exact hf a

theorem only_lift {p : Prog Op Ans α} (hp : p.Only P) :
    Only P (ExceptT.run (ExceptT.lift p : ExceptT ε (Prog Op Ans) α)) := by
  rw [ExceptT.run_lift, map_eq_pure_bind]
  exact only_bind hp fun _ => trivial

theorem only_adapt {ε' : Type} {g : ε → ε'} {p : ExceptT ε (Prog Op Ans) α}
    (hp : Only P (ExceptT.run p)) : Only P (ExceptT.run (p.adapt g)) := by
  change Only P (Except.mapError g <$> ExceptT.run p)
  rw [map_eq_pure_bind]
  exact only_bind hp fun _ => trivial

theorem only_ofExcept (r : Except ε α) :
    Only P (ExceptT.run (ofExcept r : ExceptT ε (Prog Op Ans) α)) := trivial

theorem only_check {p : Prog Op Ans Bool} (hp : p.Only P) (e : ε) :
    Only P (ExceptT.run (check p e)) :=
  only_bind hp fun _ => trivial

theorem only_unless {c : Prop} [Decidable c] {e : ε} {f : PUnit → ExceptT ε (Prog Op Ans) α}
    {k : ExceptT ε (Prog Op Ans) α} (h : Only P (ExceptT.run k)) :
    Only P (ExceptT.run (if c then throw e >>= f else k)) := by
  split
  · trivial
  · exact h

theorem Only.runs {p : Prog Op Ans α} {tr : List (Event Op Ans)} {a : α} (hp : p.Only P)
    (h : Runs p tr a) : ∀ ev ∈ tr, P ev.1 := by
  induction h with
  | ret => simp
  | call _ ih =>
    intro ev hev
    rcases List.mem_cons.mp hev with rfl | hev
    · exact hp.1
    · exact ih (hp.2 _) ev hev

end Prog

end Lib
