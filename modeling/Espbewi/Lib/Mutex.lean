import Espbewi.Lib.Prog
import Mathlib.Logic.Function.Basic
import Mathlib.Logic.Relation

/-! Tasks that share a device under one lock: every interleaving of theirs is a serial run. -/

namespace Lib

/-- How a device may answer a call, and the states before and after. -/
abbrev Answers (Op : Type) (Ans : Op → Type) (σ : Type) := σ → (o : Op) → Ans o → σ → Prop

namespace Prog

variable {Op : Type} {Ans : Op → Type} {α β ε σ : Type} {A : Answers Op Ans σ}

/-- The program may end with `a` and leave the device in `s'`. -/
def Exec (A : Answers Op Ans σ) : Prog Op Ans α → σ → α → σ → Prop
  | .ret a, s, a', s' => a' = a ∧ s' = s
  | .call o k, s, a', s' => ∃ r s₁, A s o r s₁ ∧ (k r).Exec A s₁ a' s'

@[simp] theorem exec_ret {a a' : α} {s s' : σ} :
    (ret a : Prog Op Ans α).Exec A s a' s' ↔ a' = a ∧ s' = s := Iff.rfl

theorem exec_call {o : Op} {k : Ans o → Prog Op Ans α} {s s' : σ} {a : α} :
    (call o k).Exec A s a s' ↔ ∃ r s₁, A s o r s₁ ∧ (k r).Exec A s₁ a s' := Iff.rfl

theorem exec_bind {p : Prog Op Ans α} {f : α → Prog Op Ans β} {s s' : σ} {b : β} :
    (p >>= f).Exec A s b s' ↔ ∃ a s₁, p.Exec A s a s₁ ∧ (f a).Exec A s₁ b s' := by
  induction p generalizing s with
  | ret a => simp
  | call o k ih =>
    simp only [call_bind, exec_call, ih]
    constructor
    · rintro ⟨r, s₁, ho, a, s₂, hk, hf⟩
      exact ⟨a, s₂, ⟨r, s₁, ho, hk⟩, hf⟩
    · rintro ⟨a, s₂, ⟨r, s₁, ho, hk⟩, hf⟩
      exact ⟨r, s₁, ho, a, s₂, hk, hf⟩

/-- A fallible sequence stops at the first error. -/
theorem exec_try {p : ExceptT ε (Prog Op Ans) α} {f : α → ExceptT ε (Prog Op Ans) β} {s s' : σ}
    {r : Except ε β} : Exec A (ExceptT.run (p >>= f)) s r s' ↔
      (∃ e, Exec A (ExceptT.run p) s (.error e) s' ∧ r = .error e) ∨
      ∃ a s₁, Exec A (ExceptT.run p) s (.ok a) s₁ ∧ Exec A (ExceptT.run (f a)) s₁ r s' := by
  rw [ExceptT.run_bind, exec_bind]
  constructor
  · rintro ⟨a | a, s₁, hp, hf⟩
    · obtain ⟨rfl, rfl⟩ := exec_ret.mp hf
      exact .inl ⟨a, hp, rfl⟩
    · exact .inr ⟨a, s₁, hp, hf⟩
  · rintro (⟨e, hp, rfl⟩ | ⟨a, s₁, hp, hf⟩)
    · exact ⟨.error e, s', hp, rfl, rfl⟩
    · exact ⟨.ok a, s₁, hp, hf⟩

/-- What every call of a program preserves, a run preserves. -/
theorem Only.exec {P : Op → Prop} {J : σ → Prop} {p : Prog Op Ans α} (hp : p.Only P)
    (hstep : ∀ s o r s', P o → J s → A s o r s' → J s') {s s' : σ} {a : α} (h : p.Exec A s a s')
    (hs : J s) : J s' := by
  induction p generalizing s with
  | ret a' =>
    obtain ⟨-, rfl⟩ := h
    exact hs
  | call o k ih =>
    obtain ⟨r, s₁, ho, hk⟩ := h
    exact ih r (hp.2 r) hk (hstep _ _ _ _ hp.1 hs ho)

theorem exec_run {d : Device Op Ans σ} (h : ∀ s o, A s o (d s o).1 (d s o).2) (p : Prog Op Ans α)
    (s : σ) : p.Exec A s (p.run d s).1 (p.run d s).2 := by
  induction p generalizing s with
  | ret a => exact ⟨rfl, rfl⟩
  | call o k ih => exact ⟨_, _, h s o, ih _ _⟩

end Prog

/-- What a task does for each call: some calls are answered at once, the others by a body that
runs while the task holds the lock, followed by a rest that runs after it gave the lock back. -/
structure Service (Op : Type) (Ans : Op → Type) where
  Call : Type
  Result : Call → Type
  early : (c : Call) → Option (Result c)
  body : (c : Call) → Prog Op Ans (Result c)
  rest : (c : Call) → Result c → Prog Op Ans Unit

namespace Service

variable {Op : Type} {Ans : Op → Type} {ι σ τ : Type} {S : Service Op Ans}

/-- A call, its result, and what the device held before and after it. -/
structure Event (S : Service Op Ans) (τ : Type) where
  call : S.Call
  result : S.Result call
  before : τ
  after : τ

/-- The call, made while no other is. -/
def Serves (S : Service Op Ans) (A : Answers Op Ans τ) (e : S.Event τ) : Prop :=
  match S.early e.call with
  | some r => e.result = r ∧ e.after = e.before
  | none => (S.body e.call).Exec A e.before e.result e.after

/-- One call after the other. -/
inductive Serial (S : Service Op Ans) (A : Answers Op Ans τ) : τ → List (S.Event τ) → τ → Prop
  | nil : Serial S A v [] v
  | snoc : Serial S A v h e.before → S.Serves A e → Serial S A v (h ++ [e]) e.after

inductive Task (S : Service Op Ans)
  | idle
  | waiting (c : S.Call)
  | inside (c : S.Call) (p : Prog Op Ans (S.Result c))
  | leaving (p : Prog Op Ans Unit)

/-- `settled` is the view of the device when the lock was last free. -/
structure State (S : Service Op Ans) (ι σ τ : Type) where
  shared : σ
  holder : Option ι
  task : ι → Task S
  settled : τ
  history : List (S.Event τ)

/-- What is visible of the device: `B` answers the calls, and `A` bounds what this does to the
view. Some calls leave the view alone; restarts do. -/
structure Device (Op : Type) (Ans : Op → Type) (σ τ : Type) where
  answers : Answers Op Ans σ
  restart : σ → σ → Prop
  view : σ → τ
  bound : Answers Op Ans τ
  quiet : Op → Prop
  view_answers : answers s o r s' → bound (view s) o r (view s')
  view_restart : restart s s' → view s' = view s
  view_quiet : quiet o → bound v o r v' → v' = v

/-- A step of one task, or a restart while the lock is free. -/
inductive Step [DecidableEq ι] (S : Service Op Ans) (D : Device Op Ans σ τ) :
    State S ι σ τ → State S ι σ τ → Prop
  | answer {st i c r} : st.task i = .idle → S.early c = some r →
      Step S D st { st with history := st.history ++ [⟨c, r, st.settled, st.settled⟩] }
  | call {st i c} : st.task i = .idle → S.early c = none →
      Step S D st { st with task := Function.update st.task i (.waiting c) }
  | enter {st i c} : st.task i = .waiting c → st.holder = none →
      Step S D st { st with
        holder := some i
        task := Function.update st.task i (.inside c (S.body c)) }
  | inside {st i c o k r s'} : st.task i = .inside c (.call o k) → D.answers st.shared o r s' →
      Step S D st { st with
        shared := s'
        task := Function.update st.task i (.inside c (k r)) }
  | leave {st i c r} : st.task i = .inside c (.ret r) →
      Step S D st { st with
        holder := none
        task := Function.update st.task i (.leaving (S.rest c r))
        settled := D.view st.shared
        history := st.history ++ [⟨c, r, st.settled, D.view st.shared⟩] }
  | leaving {st i o k r s'} : st.task i = .leaving (.call o k) → D.answers st.shared o r s' →
      Step S D st { st with
        shared := s'
        task := Function.update st.task i (.leaving (k r)) }
  | done {st i} : st.task i = .leaving (.ret ()) →
      Step S D st { st with task := Function.update st.task i .idle }
  | restart {st s'} : st.holder = none → D.restart st.shared s' →
      Step S D st { st with shared := s', task := fun _ => .idle }

/-- The lock is free, and no call has been made. -/
def start (S : Service Op Ans) (ι : Type) (D : Device Op Ans σ τ) (s : σ) : State S ι σ τ where
  shared := s
  holder := none
  task _ := .idle
  settled := D.view s
  history := []

/-- The states that the tasks can reach from a device in state `s`. -/
def Reach [DecidableEq ι] (S : Service Op Ans) (D : Device Op Ans σ τ) (s : σ)
    (st : State S ι σ τ) : Prop := Relation.ReflTransGen (Step S D) (start S ι D s) st

theorem Serial.serves {A : Answers Op Ans τ} {v v' : τ} {h : List (S.Event τ)}
    (hserial : Serial S A v h v') : ∀ e ∈ h, S.Serves A e := by
  induction hserial with
  | nil => nofun
  | snoc _ he ih =>
    intro e' hmem
    rcases List.mem_append.mp hmem with hmem | hmem
    · exact ih e' hmem
    · rwa [List.mem_singleton.mp hmem]

/-- What every call preserves holds before every call and at the end. -/
theorem Serial.invariant {A : Answers Op Ans τ} {v v' : τ} {h : List (S.Event τ)} {J : τ → Prop}
    (hserial : Serial S A v h v')
    (hstep : ∀ e ∈ h, J e.before → S.Serves A e → J e.after) (hv : J v) :
    J v' ∧ ∀ e ∈ h, J e.before := by
  induction hserial with
  | nil => exact ⟨hv, nofun⟩
  | @snoc h e _ he ih =>
    obtain ⟨hlast, hbefore⟩ := ih fun e' hmem => hstep e' (List.mem_append_left _ hmem)
    refine ⟨hstep e (List.mem_append_right _ (List.mem_singleton_self e)) hlast he, ?_⟩
    intro e' hmem
    rcases List.mem_append.mp hmem with hmem | hmem
    · exact hbefore e' hmem
    · rwa [List.mem_singleton.mp hmem]

/-! ### Every interleaving is serial -/

/-- What a task knows at its point of the program. -/
def Sound (S : Service Op Ans) (D : Device Op Ans σ τ) (st : State S ι σ τ) (i : ι) : Task S → Prop
  | .idle => st.holder ≠ some i
  | .waiting c => st.holder ≠ some i ∧ S.early c = none
  | .inside c p => st.holder = some i ∧ S.early c = none ∧
      ∀ r v, p.Exec D.bound (D.view st.shared) r v → (S.body c).Exec D.bound st.settled r v
  | .leaving p => st.holder ≠ some i ∧ p.Only D.quiet

structure Inv (S : Service Op Ans) (D : Device Op Ans σ τ) (s : σ) (st : State S ι σ τ) : Prop where
  serial : Serial S D.bound (D.view s) st.history st.settled
  free : st.holder = none → st.settled = D.view st.shared
  sound : ∀ i, Sound S D st i (st.task i)

variable {D : Device Op Ans σ τ} {s : σ} {st st' : State S ι σ τ}

theorem Inv.start (s : σ) : Inv S D s (start S ι D s) where
  serial := .nil
  free _ := rfl
  sound _ := nofun

/-- A task does not see a step that leaves the lock and the view alone. -/
theorem Sound.congr {i : ι} {t : Task S} (h : Sound S D st i t) (hholder : st'.holder = st.holder)
    (hview : D.view st'.shared = D.view st.shared) (hsettled : st'.settled = st.settled) :
    Sound S D st' i t := by
  cases t with
  | idle => rwa [Sound, hholder]
  | waiting c => rwa [Sound, hholder]
  | inside c p => rwa [Sound, hholder, hview, hsettled]
  | leaving p => rwa [Sound, hholder]

/-- A task that does not hold the lock sees no step of the task that does. -/
theorem Sound.other {i : ι} {t : Task S} (h : Sound S D st i t) (hout : st.holder ≠ some i)
    (hout' : st'.holder ≠ some i) : Sound S D st' i t := by
  cases t with
  | idle => exact hout'
  | waiting c => exact ⟨hout', h.2⟩
  | inside c p => exact absurd h.1 hout
  | leaving p => exact ⟨hout', h.2⟩

variable [DecidableEq ι]

theorem sound_update {task : ι → Task S} {i : ι} {t : Task S} (hi : Sound S D st i t)
    (hother : ∀ j ≠ i, Sound S D st j (task j)) (j : ι) :
    Sound S D st j (Function.update task i t j) := by
  by_cases hj : j = i
  · subst hj
    rwa [Function.update_self]
  · rw [Function.update_of_ne hj]
    exact hother j hj

theorem Inv.step (hrest : ∀ c r, (S.rest c r).Only D.quiet) (h : Inv S D s st)
    (hstep : Step S D st st') : Inv S D s st' := by
  cases hstep with
  | @answer i c r hidle hearly =>
    refine ⟨.snoc h.serial ?_, h.free, h.sound⟩
    simp only [Serves, hearly, and_self]
  | @call i c hidle hearly =>
    have hi := h.sound i
    rw [hidle] at hi
    refine ⟨h.serial, h.free, sound_update ⟨hi, hearly⟩ fun j _ => ?_⟩
    exact (h.sound j).congr rfl rfl rfl
  | @enter i c hwaiting hfree =>
    have hi := h.sound i
    rw [hwaiting] at hi
    refine ⟨h.serial, nofun, sound_update ⟨rfl, hi.2, fun r v hexec => ?_⟩ fun j hj => ?_⟩
    · rwa [h.free hfree]
    · refine (h.sound j).other (by rw [hfree]; nofun) fun hsome => hj (Option.some.inj hsome).symm
  | @inside i c o k r s' hinside hanswers =>
    have hi := h.sound i
    rw [hinside] at hi
    obtain ⟨hholder, hearly, hexec⟩ := hi
    refine ⟨h.serial, fun hfree => absurd (hholder.symm.trans hfree) nofun,
      sound_update ⟨hholder, hearly, fun r' v hk => ?_⟩ fun j hj => ?_⟩
    · exact hexec r' v ⟨r, D.view s', D.view_answers hanswers, hk⟩
    · have hout : st.holder ≠ some j := fun hsome => hj (Option.some.inj (hsome.symm.trans hholder))
      exact (h.sound j).other hout hout
  | @leave i c r hinside =>
    have hi := h.sound i
    rw [hinside] at hi
    obtain ⟨hholder, hearly, hexec⟩ := hi
    refine ⟨.snoc h.serial ?_, fun _ => rfl, sound_update ⟨nofun, hrest c r⟩ fun j hj => ?_⟩
    · simp only [Serves, hearly]
      exact hexec r _ ⟨rfl, rfl⟩
    · have hout : st.holder ≠ some j := fun hsome => hj (Option.some.inj (hsome.symm.trans hholder))
      exact (h.sound j).other hout nofun
  | @leaving i o k r s' hleaving hanswers =>
    have hi := h.sound i
    rw [hleaving] at hi
    have hview : D.view s' = D.view st.shared := D.view_quiet hi.2.1 (D.view_answers hanswers)
    refine ⟨h.serial, fun hfree => (h.free hfree).trans hview.symm,
      sound_update ⟨hi.1, hi.2.2 r⟩ fun j _ => ?_⟩
    exact (h.sound j).congr rfl hview rfl
  | @done i hleaving =>
    have hi := h.sound i
    rw [hleaving] at hi
    exact ⟨h.serial, h.free, sound_update hi.1 fun j _ => (h.sound j).congr rfl rfl rfl⟩
  | @restart s' hfree hrestart =>
    refine ⟨h.serial, fun _ => (h.free hfree).trans (D.view_restart hrestart).symm, fun j => ?_⟩
    show st.holder ≠ some j
    rw [hfree]
    nofun

/-- The history of every interleaving is a serial run from the first state, and ends where the
device was when the lock was last free. -/
theorem serializable (hrest : ∀ c r, (S.rest c r).Only D.quiet) (h : Reach S D s st) :
    Serial S D.bound (D.view s) st.history st.settled
      ∧ (st.holder = none → st.settled = D.view st.shared) := by
  have hinv : Inv S D s st := by
    induction h with
    | refl => exact .start s
    | tail _ hstep ih => exact ih.step hrest hstep
  exact ⟨hinv.serial, hinv.free⟩

/-! ### What all calls preserve -/

/-- The task only makes calls that satisfy `P`. -/
def Task.Keeps (P : Op → Prop) : Task S → Prop
  | .inside _ p => p.Only P
  | .leaving p => p.Only P
  | _ => True

theorem keeps_update {P : Op → Prop} {task : ι → Task S} {i : ι} {t : Task S} (hi : t.Keeps P)
    (h : ∀ j, (task j).Keeps P) (j : ι) : (Function.update task i t j).Keeps P := by
  by_cases hj : j = i
  · subst hj
    rwa [Function.update_self]
  · rw [Function.update_of_ne hj]
    exact h j

/-- What every call of the programs preserves holds at every moment. -/
theorem confined {P : Op → Prop} {J : τ → Prop} (hbody : ∀ c, (S.body c).Only P)
    (hrest : ∀ c r, (S.rest c r).Only P)
    (hstep : ∀ v o r v', P o → J v → D.bound v o r v' → J v') (hs : J (D.view s))
    (h : Reach S D s st) : J (D.view st.shared) ∧ ∀ i, (st.task i).Keeps P := by
  induction h with
  | refl => exact ⟨hs, fun _ => trivial⟩
  | tail _ hlast ih =>
    obtain ⟨hview, hkeeps⟩ := ih
    cases hlast with
    | answer => exact ⟨hview, hkeeps⟩
    | call => exact ⟨hview, keeps_update trivial hkeeps⟩
    | enter => exact ⟨hview, keeps_update (hbody _) hkeeps⟩
    | @inside i c o k r s' hinside hanswers =>
      have hi := hkeeps i
      rw [hinside] at hi
      exact ⟨hstep _ _ _ _ hi.1 hview (D.view_answers hanswers), keeps_update (hi.2 r) hkeeps⟩
    | leave => exact ⟨hview, keeps_update (hrest _ _) hkeeps⟩
    | @leaving i o k r s' hleaving hanswers =>
      have hi := hkeeps i
      rw [hleaving] at hi
      exact ⟨hstep _ _ _ _ hi.1 hview (D.view_answers hanswers), keeps_update (hi.2 r) hkeeps⟩
    | done => exact ⟨hview, keeps_update trivial hkeeps⟩
    | restart _ hrestart =>
      simp only [D.view_restart hrestart]
      exact ⟨hview, fun _ => trivial⟩

/-! ### Every serial run is an interleaving -/

theorem update_idle {task : ι → Task S} {i : ι} {t : Task S} (h : task i = t) :
    Function.update task i t = task := by
  rw [← h, Function.update_eq_self]

theorem inside_run {q : State S ι σ τ} {i : ι} {c : S.Call} {p : Prog Op Ans (S.Result c)} {r : S.Result c} {s₁ : σ}
    (hi : q.task i = .inside c p) (h : p.Exec D.answers q.shared r s₁) :
    Relation.ReflTransGen (Step S D) q
      { q with shared := s₁, task := Function.update q.task i (.inside c (.ret r)) } := by
  induction p generalizing q with
  | ret a =>
    obtain ⟨rfl, rfl⟩ := h
    rw [update_idle hi]
  | call o k ih =>
    obtain ⟨x, s₂, hanswers, hk⟩ := h
    have hrun := ih x (q := { q with
      shared := s₂, task := Function.update q.task i (.inside c (k x)) }) (Function.update_self ..) hk
    simp only [Function.update_idem] at hrun
    exact .head (.inside hi hanswers) hrun

theorem leaving_run {q : State S ι σ τ} {i : ι} {p : Prog Op Ans Unit} {s₁ : σ} (hi : q.task i = .leaving p)
    (h : p.Exec D.answers q.shared () s₁) : Relation.ReflTransGen (Step S D) q
      { q with shared := s₁, task := Function.update q.task i (.leaving (.ret ())) } := by
  induction p generalizing q with
  | ret a =>
    obtain ⟨-, rfl⟩ := h
    rw [update_idle hi]
  | call o k ih =>
    obtain ⟨x, s₂, hanswers, hk⟩ := h
    have hrun := ih x (q := { q with
      shared := s₂, task := Function.update q.task i (.leaving (k x)) }) (Function.update_self ..) hk
    simp only [Function.update_idem] at hrun
    exact .head (.leaving hi hanswers) hrun

/-- A task may serve a call while the others rest. -/
theorem Reach.serve {i : ι} {c : S.Call} {r : S.Result c} {s₁ s₂ : σ} (h : Reach S D s st)
    (hfree : st.holder = none) (hidle : st.task i = .idle) (hearly : S.early c = none)
    (hbody : (S.body c).Exec D.answers st.shared r s₁) (hrest : (S.rest c r).Exec D.answers s₁ () s₂) :
    Reach S D s { st with
      shared := s₂
      settled := D.view s₁
      history := st.history ++ [⟨c, r, st.settled, D.view s₁⟩] } := by
  have hcall := h.tail (.call hidle hearly)
  have henter := hcall.tail (.enter (Function.update_self ..) hfree)
  have hinside := henter.trans (inside_run (Function.update_self ..) hbody)
  have hleave := hinside.tail (.leave (Function.update_self ..))
  have hleaving := hleave.trans (leaving_run (Function.update_self ..) hrest)
  have hdone := hleaving.tail (.done (Function.update_self ..))
  simp only [Function.update_idem, update_idle hidle] at hdone
  rwa [← hfree] at hdone

end Service

end Lib
