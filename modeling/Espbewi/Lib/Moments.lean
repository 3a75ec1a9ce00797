import Espbewi.Lib.Mutex

/-! Tasks that share one deterministic device: what each call guards while it is the only one, every
moment of every interleaving guards. -/

namespace Lib

namespace Service

variable {Op : Type} {Ans : Op → Type} {ι σ : Type} {S : Service Op Ans}

/-- The device itself, with nothing hidden, which keeps its content over a restart. -/
def ofDevice (d : Lib.Device Op Ans σ) : Device Op Ans σ σ where
  answers s o r s' := d s o = (r, s')
  restart s s' := s' = s
  view := id
  bound s o r s' := d s o = (r, s')
  quiet _ := False
  view_answers := id
  view_restart := id
  view_quiet h := h.elim

variable {d : Lib.Device Op Ans σ}

theorem exec_ofDevice {α : Type} {p : Prog Op Ans α} {s s' : σ} {a : α} :
    p.Exec (ofDevice d).bound s a s' ↔ p.run d s = (a, s') := by
  induction p generalizing s with
  | ret a' =>
    rw [Prog.exec_ret, Prog.run_ret, Prod.mk.injEq]
    exact and_congr eq_comm eq_comm
  | call o k ih =>
    rw [Prog.exec_call, Prog.run_call]
    constructor
    · rintro ⟨r, s₁, ho, hk⟩
      rw [show d s o = (r, s₁) from ho]
      exact ih r |>.mp hk
    · intro h
      exact ⟨_, _, rfl, (ih _).mpr h⟩

/-- A call of a serial run, by its own run. -/
theorem Serves.run {e : S.Event σ} (h : S.Serves (ofDevice d).bound e) (hearly : S.early e.call = none) :
    (S.body e.call).run d e.before = (e.result, e.after) := by
  rw [Serves, hearly] at h
  exact exec_ofDevice.mp h

theorem Serves.early {e : S.Event σ} (h : S.Serves (ofDevice d).bound e) {r : S.Result e.call}
    (hearly : S.early e.call = some r) : e.result = r ∧ e.after = e.before := by
  rw [Serves, hearly] at h
  exact h

/-- The last call of a serial run, and what led up to it. -/
theorem Serial.last {A : Answers Op Ans σ} {v v' : σ} {h : List (S.Event σ)} {e : S.Event σ}
    (hserial : Serial S A v (h ++ [e]) v') :
    Serial S A v h e.before ∧ S.Serves A e ∧ v' = e.after := by
  generalize hl : h ++ [e] = l at hserial
  cases hserial with
  | nil => exact absurd hl (List.append_ne_nil_of_right_ne_nil h (List.cons_ne_nil e []))
  | snoc hserial he =>
    obtain ⟨rfl, hlast⟩ := List.append_inj' hl rfl
    cases hlast
    exact ⟨hserial, he, rfl⟩

/-- A serial run, cut after the first calls. -/
theorem Serial.split {A : Answers Op Ans σ} {v v' : σ} {h h' : List (S.Event σ)} (hserial : Serial S A v (h ++ h') v') :
    ∃ u, Serial S A v h u ∧ Serial S A u h' v' := by
  generalize hl : h ++ h' = l at hserial
  induction hserial generalizing h' with
  | nil =>
    obtain ⟨rfl, rfl⟩ := List.append_eq_nil_iff.mp hl
    exact ⟨v, .nil, .nil⟩
  | @snoc l e hfirst he ih =>
    rcases List.eq_nil_or_concat h' with rfl | ⟨h'', e', rfl⟩
    · rw [List.append_nil] at hl
      exact ⟨e.after, hl ▸ hfirst.snoc he, .nil⟩
    · rw [List.concat_eq_append] at hl ⊢
      rw [← List.append_assoc] at hl
      obtain ⟨hbefore, hlast⟩ := List.append_inj' hl rfl
      cases hlast
      obtain ⟨u, hh, hh'⟩ := ih hbefore
      exact ⟨u, hh, hh'.snoc he⟩

theorem Serial.eq_of_nil {A : Answers Op Ans σ} {v v' : σ} (hserial : Serial S A v [] v') : v = v' := by
  generalize hl : ([] : List (S.Event σ)) = l at hserial
  induction hserial with
  | nil => rfl
  | snoc => exact absurd hl.symm (List.append_ne_nil_of_right_ne_nil _ (List.cons_ne_nil _ []))

/-- The first call of a serial run, and what follows it. -/
theorem Serial.first {A : Answers Op Ans σ} {v v' : σ} {h : List (S.Event σ)} {e : S.Event σ}
    (hserial : Serial S A v (e :: h) v') : v = e.before ∧ S.Serves A e ∧ Serial S A e.after h v' := by
  obtain ⟨u, hfirst, hrest⟩ := Serial.split (h := [e]) hserial
  obtain ⟨hnil, he, rfl⟩ := Serial.last (h := []) hfirst
  exact ⟨hnil.eq_of_nil, he, hrest⟩

/-- A task serves a call while the others rest. -/
theorem Reach.call [DecidableEq ι] {s s' : σ} {h : List (S.Event σ)} (i : ι)
    (hreach : Reach S (ofDevice d) s ⟨s', none, fun _ : ι => .idle, s', h⟩) (c : S.Call)
    (hearly : S.early c = none) (hrest : ∀ c r, S.rest c r = .ret ()) :
    Reach S (ofDevice d) s ⟨((S.body c).run d s').2, none, fun _ : ι => .idle, ((S.body c).run d s').2,
      h ++ [⟨c, ((S.body c).run d s').1, s', ((S.body c).run d s').2⟩]⟩ := by
  refine hreach.serve (i := i) rfl rfl hearly (exec_ofDevice.mpr rfl) ?_
  rw [hrest]
  exact ⟨rfl, rfl⟩

theorem inside_issues [DecidableEq ι] {q : State S ι σ σ} {i : ι} {c : S.Call} {p : Prog Op Ans (S.Result c)}
    {s' : σ} {o : Op} (hi : q.task i = .inside c p) (h : p.Issues d q.shared s' o) :
    ∃ k, Relation.ReflTransGen (Step S (ofDevice d)) q
      { q with shared := s', task := Function.update q.task i (.inside c (.call o k)) } := by
  induction p generalizing q with
  | ret a => exact h.elim
  | call o' k ih =>
    rcases h with ⟨rfl, rfl⟩ | h
    · refine ⟨k, ?_⟩
      rw [update_idle hi]
    · obtain ⟨k', hrun⟩ := ih _ (q := { q with
        shared := (d q.shared o').2
        task := Function.update q.task i (.inside c (k (d q.shared o').1)) }) (Function.update_self ..) h
      simp only [Function.update_idem] at hrun
      exact ⟨k', .head (.inside hi rfl) hrun⟩

/-- A task is about to make an operation that its call issues. -/
theorem Reach.underway [DecidableEq ι] (i : ι) {s s' : σ} {c : S.Call} {o : Op} (hearly : S.early c = none)
    (h : (S.body c).Issues d s s' o) : ∃ (st : State S ι σ σ) (k : Ans o → Prog Op Ans (S.Result c)),
      Reach S (ofDevice d) s st ∧ st.task i = .inside c (.call o k) ∧ st.shared = s' := by
  let entered : State S ι σ σ :=
    { start S ι (ofDevice d) s with
      holder := some i
      task := Function.update (Function.update (fun _ => .idle) i (.waiting c)) i (.inside c (S.body c)) }
  have hentered : Reach S (ofDevice d) s entered :=
    (Relation.ReflTransGen.single (.call (i := i) rfl hearly)).tail (.enter (Function.update_self ..) rfl)
  obtain ⟨k, hinside⟩ := inside_issues (q := entered) (Function.update_self ..) h
  exact ⟨_, k, hentered.trans hinside, Function.update_self .., rfl⟩

section Run

variable {J : σ → Prop} {I : S.Call → σ → σ → Op → Prop} {K : S.Call → σ → σ → Prop}

/-- Every call, alone on the device from a state that satisfies `J`, makes each of its operations at a
moment that satisfies `I`, and leaves a state that satisfies `J` and `K`. -/
def Guards (S : Service Op Ans) (d : Lib.Device Op Ans σ) (J : σ → Prop)
    (I : S.Call → σ → σ → Op → Prop) (K : S.Call → σ → σ → Prop) : Prop :=
  ∀ c s, S.early c = none → J s → (S.body c).wp d (I c s) (fun _ s' => J s' ∧ K c s s') s

/-- What a task inside the lock still has to do is guarded. -/
def Guarded (d : Lib.Device Op Ans σ) (J : σ → Prop) (I : S.Call → σ → σ → Op → Prop)
    (K : S.Call → σ → σ → Prop) (st : State S ι σ σ) (i : ι) : Task S → Prop
  | .idle => st.holder ≠ some i
  | .waiting c => st.holder ≠ some i ∧ S.early c = none
  | .inside c p => st.holder = some i ∧ p.wp d (I c st.settled) (fun _ s' => J s' ∧ K c st.settled s') st.shared
  | .leaving p => st.holder ≠ some i ∧ p = .ret ()

structure Moment (d : Lib.Device Op Ans σ) (J : σ → Prop) (I : S.Call → σ → σ → Op → Prop)
    (K : S.Call → σ → σ → Prop) (st : State S ι σ σ) : Prop where
  settled : J st.settled
  free : st.holder = none → st.settled = st.shared
  task : ∀ i, Guarded d J I K st i (st.task i)

variable {s : σ} {st st' : State S ι σ σ}

theorem Guarded.other {i : ι} {t : Task S} (h : Guarded d J I K st i t) (hout : st.holder ≠ some i)
    (hout' : st'.holder ≠ some i) : Guarded d J I K st' i t := by
  cases t with
  | idle => exact hout'
  | waiting c => exact ⟨hout', h.2⟩
  | inside c p => exact absurd h.1 hout
  | leaving p => exact ⟨hout', h.2⟩

theorem Guarded.congr {i : ι} {t : Task S} (h : Guarded d J I K st i t) (hholder : st'.holder = st.holder)
    (hshared : st'.shared = st.shared) (hsettled : st'.settled = st.settled) : Guarded d J I K st' i t := by
  cases t with
  | idle => rwa [Guarded, hholder]
  | waiting c => rwa [Guarded, hholder]
  | inside c p => rwa [Guarded, hholder, hshared, hsettled]
  | leaving p => rwa [Guarded, hholder]

variable [DecidableEq ι]

theorem guarded_update {task : ι → Task S} {i : ι} {t : Task S} (hi : Guarded d J I K st i t)
    (hother : ∀ j ≠ i, Guarded d J I K st j (task j)) (j : ι) :
    Guarded d J I K st j (Function.update task i t j) := by
  by_cases hj : j = i
  · subst hj
    rwa [Function.update_self]
  · rw [Function.update_of_ne hj]
    exact hother j hj

theorem Moment.step (hguards : Guards S d J I K) (hrest : ∀ c r, S.rest c r = .ret ())
    (h : Moment d J I K st) (hstep : Step S (ofDevice d) st st') : Moment d J I K st' := by
  cases hstep with
  | answer => exact ⟨h.settled, h.free, h.task⟩
  | @call i c hidle hearly =>
    have hi := h.task i
    rw [hidle] at hi
    exact ⟨h.settled, h.free, guarded_update ⟨hi, hearly⟩ fun j _ => (h.task j).congr rfl rfl rfl⟩
  | @enter i c hwaiting hfree =>
    have hi := h.task i
    rw [hwaiting] at hi
    refine ⟨h.settled, nofun, guarded_update ⟨rfl, ?_⟩ fun j hj => ?_⟩
    · rw [← h.free hfree]
      exact hguards c _ hi.2 h.settled
    · exact (h.task j).other (by rw [hfree]; nofun) fun hsome => hj (Option.some.inj hsome).symm
  | @inside i c o k r s' hinside hanswers =>
    have hi := h.task i
    rw [hinside] at hi
    obtain ⟨hholder, -, hk⟩ := hi
    refine ⟨h.settled, fun hfree => absurd (hholder.symm.trans hfree) nofun,
      guarded_update ⟨hholder, ?_⟩ fun j hj => ?_⟩
    · rwa [show d st.shared o = (r, s') from hanswers] at hk
    · have hout : st.holder ≠ some j := fun hsome => hj (Option.some.inj (hsome.symm.trans hholder))
      exact (h.task j).other hout hout
  | @leave i c r hinside =>
    have hi := h.task i
    rw [hinside] at hi
    obtain ⟨hholder, hJ⟩ := hi
    refine ⟨hJ.1, fun _ => rfl, guarded_update ⟨nofun, hrest c r⟩ fun j hj => ?_⟩
    have hout : st.holder ≠ some j := fun hsome => hj (Option.some.inj (hsome.symm.trans hholder))
    exact (h.task j).other hout nofun
  | @leaving i o k r s' hleaving =>
    have hi := h.task i
    rw [hleaving] at hi
    cases hi.2
  | @done i hleaving =>
    have hi := h.task i
    rw [hleaving] at hi
    exact ⟨h.settled, h.free, guarded_update hi.1 fun j _ => (h.task j).congr rfl rfl rfl⟩
  | @restart s' hfree hrestart =>
    have hsame : s' = st.shared := hrestart
    refine ⟨h.settled, fun _ => (h.free hfree).trans hsame.symm, fun j => ?_⟩
    show st.holder ≠ some j
    rw [hfree]
    nofun

/-- Every moment of every interleaving. -/
theorem Guards.moment (hguards : Guards S d J I K) (hrest : ∀ c r, S.rest c r = .ret ()) (hs : J s)
    (h : Reach S (ofDevice d) s st) : Moment d J I K st := by
  induction h with
  | refl => exact ⟨hs, fun _ => rfl, fun _ => nofun⟩
  | tail _ hstep ih => exact ih.step hguards hrest hstep

end Run

end Service

end Lib
