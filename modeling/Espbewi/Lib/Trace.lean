import Espbewi.Lib.Prog
import Mathlib.Data.List.Infix

/-! What a program does in every run, whatever it is answered. -/

namespace Lib.Prog

variable {Op : Type} {Ans : Op → Type} {α β ε κ : Type}

theorem Only.mono {P P' : Op → Prop} (h : ∀ o, P o → P' o) {p : Prog Op Ans α} (hp : p.Only P) :
    p.Only P' := by
  induction p with
  | ret a => trivial
  | call o k ih => exact ⟨h o hp.1, fun r => ih r (hp.2 r)⟩

theorem Only.wp {σ : Type} {d : Device Op Ans σ} {I : σ → Op → Prop} {P : Op → Prop}
    (h : ∀ s o, P o → I s o) {p : Prog Op Ans α} (hp : p.Only P) (s : σ) :
    p.wp d I (fun _ _ => True) s := by
  induction p generalizing s with
  | ret a => trivial
  | call o k ih => exact ⟨h s o hp.1, ih _ (hp.2 _) _⟩

/-- What every call of a program preserves, a run preserves. -/
theorem Only.run {σ : Type} {d : Device Op Ans σ} {J : σ → Prop} {P : Op → Prop}
    (h : ∀ s o, P o → J s → J (d s o).2) {p : Prog Op Ans α} (hp : p.Only P) {s : σ} (hs : J s) :
    J (p.run d s).2 := by
  induction p generalizing s with
  | ret a => exact hs
  | call o k ih => exact ih _ (hp.2 _) (h s o hp.1 hs)

theorem events_bind {σ : Type} (d : Device Op Ans σ) (p : Prog Op Ans α) (f : α → Prog Op Ans β) (s : σ) :
    (p >>= f).events d s = p.events d s ++ (f (p.run d s).1).events d (p.run d s).2 := by
  induction p generalizing s with
  | ret a => rfl
  | call o k ih => simp [ih]

theorem run_adapt {σ ε' : Type} (d : Device Op Ans σ) (g : ε → ε') (p : ExceptT ε (Prog Op Ans) α) (s : σ) :
    (ExceptT.run (p.adapt g)).run d s =
      (((ExceptT.run p).run d s).1.mapError g, ((ExceptT.run p).run d s).2) := by
  change (Except.mapError g <$> ExceptT.run p).run d s = _
  rw [map_eq_pure_bind, run_bind]
  rfl

theorem events_try {σ : Type} {d : Device Op Ans σ} {p : ExceptT ε (Prog Op Ans) α}
    {f : α → ExceptT ε (Prog Op Ans) β} {s s' : σ} {a : α} (h : (ExceptT.run p).run d s = (.ok a, s')) :
    (ExceptT.run (p >>= f)).events d s = (ExceptT.run p).events d s ++ (ExceptT.run (f a)).events d s' := by
  rw [ExceptT.run_bind, events_bind, h]

theorem events_adapt {σ ε' : Type} (d : Device Op Ans σ) (g : ε → ε') (p : ExceptT ε (Prog Op Ans) α)
    (s : σ) : (ExceptT.run (p.adapt g)).events d s = (ExceptT.run p).events d s := by
  change (Except.mapError g <$> ExceptT.run p).events d s = _
  rw [map_eq_pure_bind, events_bind]
  exact List.append_nil _

/-- Whatever it is answered, the program returns a value that satisfies `Q`. -/
def Returns (Q : α → Prop) : Prog Op Ans α → Prop
  | .ret a => Q a
  | .call _ k => ∀ r, (k r).Returns Q

@[simp] theorem returns_ret {Q : α → Prop} {a : α} : (ret a : Prog Op Ans α).Returns Q ↔ Q a := Iff.rfl

@[simp] theorem returns_call {Q : α → Prop} {o : Op} {k : Ans o → Prog Op Ans α} :
    (call o k).Returns Q ↔ ∀ r, (k r).Returns Q := Iff.rfl

theorem Returns.runs {Q : α → Prop} {p : Prog Op Ans α} {tr : List (Event Op Ans)} {a : α}
    (hp : p.Returns Q) (h : Runs p tr a) : Q a := by
  induction h with
  | ret => exact hp
  | call _ ih => exact ih (hp _)

theorem returns_true (p : Prog Op Ans α) : p.Returns fun _ => True := by
  induction p with
  | ret a => trivial
  | call o k ih => exact ih

theorem returns_bind {R : α → Prop} {Q : β → Prop} {p : Prog Op Ans α} {f : α → Prog Op Ans β}
    (hp : p.Returns R) (hf : ∀ a, R a → (f a).Returns Q) : (p >>= f).Returns Q := by
  induction p with
  | ret a => exact hf a hp
  | call o k ih => exact fun r => ih r (hp r)

/-- What the first program returns bounds what the second is asked about. -/
theorem only_bind_returns {P : Op → Prop} {R : α → Prop} {p : Prog Op Ans α} {f : α → Prog Op Ans β}
    (hp : p.Only P) (hr : p.Returns R) (hf : ∀ a, R a → (f a).Only P) : (p >>= f).Only P := by
  induction p with
  | ret a => exact hf a hr
  | call o k ih => exact ⟨hp.1, fun r => ih r (hp.2 r) (hr r)⟩

theorem runs_try_ok {p : ExceptT ε (Prog Op Ans) α} {f : α → ExceptT ε (Prog Op Ans) β}
    {tr : List (Event Op Ans)} {b : β} (h : Runs (ExceptT.run (p >>= f)) tr (.ok b)) :
    ∃ tr₁ tr₂ a, tr = tr₁ ++ tr₂ ∧ Runs (ExceptT.run p) tr₁ (.ok a) ∧
      Runs (ExceptT.run (f a)) tr₂ (.ok b) := by
  rcases runs_try.mp h with ⟨e, -, he⟩ | h
  · cases he
  · exact h

theorem runs_adapt {ε' : Type} {g : ε → ε'} {p : ExceptT ε (Prog Op Ans) α}
    {tr : List (Event Op Ans)} {r : Except ε' α} (h : Runs (ExceptT.run (p.adapt g)) tr r) :
    ∃ r', Runs (ExceptT.run p) tr r' ∧ r = r'.mapError g := by
  change Runs (Except.mapError g <$> ExceptT.run p) tr r at h
  rw [map_eq_pure_bind] at h
  obtain ⟨tr₁, tr₂, r', rfl, hp, h⟩ := runs_bind.mp h
  obtain ⟨rfl, rfl⟩ := runs_ret.mp h
  exact ⟨r', by simpa using hp, rfl⟩

theorem runs_lift {p : Prog Op Ans α} {tr : List (Event Op Ans)} {r : Except ε α}
    (h : Runs (ExceptT.run (ExceptT.lift p : ExceptT ε (Prog Op Ans) α)) tr r) :
    ∃ a, Runs p tr a ∧ r = .ok a := by
  rw [ExceptT.run_lift, map_eq_pure_bind] at h
  obtain ⟨tr₁, tr₂, a, rfl, hp, h⟩ := runs_bind.mp h
  obtain ⟨rfl, rfl⟩ := runs_ret.mp h
  exact ⟨a, by simpa using hp, rfl⟩

/-! ### Errors -/

/-- Every error the program can end with satisfies `E`. -/
def Raises (E : ε → Prop) (p : ExceptT ε (Prog Op Ans) α) : Prop :=
  ∀ tr e, Runs (ExceptT.run p) tr (.error e) → E e

variable {E : ε → Prop}

theorem raises_try {p : ExceptT ε (Prog Op Ans) α} {f : α → ExceptT ε (Prog Op Ans) β}
    (hp : Raises E p) (hf : ∀ tr a, Runs (ExceptT.run p) tr (.ok a) → Raises E (f a)) :
    Raises E (p >>= f) := by
  intro tr e h
  rcases runs_try.mp h with ⟨e', hp', he⟩ | ⟨tr₁, tr₂, a, -, hp', hf'⟩
  · cases he
    exact hp _ _ hp'
  · exact hf tr₁ a hp' _ _ hf'

theorem raises_adapt {ε' : Type} {E' : ε' → Prop} {g : ε → ε'} {p : ExceptT ε (Prog Op Ans) α}
    (h : ∀ e, E' (g e)) : Raises E' (p.adapt g) := by
  intro tr e hrun
  obtain ⟨r, -, hr⟩ := runs_adapt hrun
  cases r with
  | error e' =>
    cases hr
    exact h e'
  | ok a => cases hr

theorem raises_throw {e : ε} (h : E e) : Raises E (throw e : ExceptT ε (Prog Op Ans) α) := by
  intro tr e' hrun
  obtain ⟨-, he⟩ := runs_ret.mp hrun
  cases he
  exact h

theorem raises_pure (a : α) : Raises E (pure a : ExceptT ε (Prog Op Ans) α) := by
  intro tr e hrun
  obtain ⟨-, he⟩ := runs_ret.mp hrun
  cases he

theorem raises_ofExcept {r : Except ε α} (h : ∀ e, r = .error e → E e) :
    Raises E (ofExcept r : ExceptT ε (Prog Op Ans) α) := by
  intro tr e hrun
  obtain ⟨-, he⟩ := runs_ret.mp hrun
  exact h e he.symm

theorem raises_lift (p : Prog Op Ans α) : Raises E (ExceptT.lift p : ExceptT ε (Prog Op Ans) α) := by
  intro tr e hrun
  obtain ⟨a, -, he⟩ := runs_lift hrun
  cases he

theorem raises_unless {c : Prop} [Decidable c] {e : ε} {f : PUnit → ExceptT ε (Prog Op Ans) α}
    {k : ExceptT ε (Prog Op Ans) α} (he : E e) (h : Raises E k) :
    Raises E (if c then throw e >>= f else k) := by
  split
  · exact raises_throw he
  · exact h

/-! ### The end of a run -/

/-- Every run that succeeds ends with a piece that satisfies `Q`. -/
def Ends (Q : List (Event Op Ans) → Prop) (p : ExceptT ε (Prog Op Ans) α) : Prop :=
  ∀ tr a, Runs (ExceptT.run p) tr (.ok a) → ∃ tr₀ tr₁, tr = tr₀ ++ tr₁ ∧ Q tr₁

variable {Q : List (Event Op Ans) → Prop}

theorem ends_try {p : ExceptT ε (Prog Op Ans) α} {f : α → ExceptT ε (Prog Op Ans) β}
    (hf : ∀ a, Ends Q (f a)) : Ends Q (p >>= f) := by
  intro tr b h
  obtain ⟨tr₁, tr₂, a, rfl, -, h⟩ := runs_try_ok h
  obtain ⟨tr₃, tr₄, rfl, hQ⟩ := hf a _ _ h
  exact ⟨tr₁ ++ tr₃, tr₄, (List.append_assoc ..).symm, hQ⟩

theorem ends_throw (e : ε) : Ends Q (throw e : ExceptT ε (Prog Op Ans) α) := by
  intro tr a h
  obtain ⟨-, he⟩ := runs_ret.mp h
  cases he

theorem ends_unless {c : Prop} [Decidable c] {e : ε} {f : PUnit → ExceptT ε (Prog Op Ans) α}
    {k : ExceptT ε (Prog Op Ans) α} (h : ¬ c → Ends Q k) : Ends Q (if c then throw e >>= f else k) := by
  split
  · exact ends_throw e
  · exact h ‹_›

/-! ### Scripts -/

section Script

variable (label : Op → Option κ) (good : (o : Op) → Ans o → Prop)

/-- The labels of the calls of a run, in order. -/
def labels (tr : List (Event Op Ans)) : List κ := tr.filterMap fun ev => label ev.1

/-- Every run makes the labelled calls of a prefix of `script`. A run that succeeds makes
all of them and gets only good answers. -/
def Follows (script : List κ) (p : ExceptT ε (Prog Op Ans) α) : Prop :=
  ∀ tr r, Runs (ExceptT.run p) tr r → labels label tr <+: script ∧
    (r.isOk = true → labels label tr = script ∧ ∀ ev ∈ tr, good ev.1 ev.2)

variable {label good} {script script' : List κ}

@[simp] theorem labels_nil : labels label ([] : List (Event Op Ans)) = [] := rfl

@[simp] theorem labels_append (tr tr' : List (Event Op Ans)) :
    labels label (tr ++ tr') = labels label tr ++ labels label tr' :=
  List.filterMap_append

theorem labels_eq_nil {p : Prog Op Ans α} (hp : p.Only fun o => label o = none)
    {tr : List (Event Op Ans)} {a : α} (h : Runs p tr a) : labels label tr = [] :=
  List.filterMap_eq_nil_iff.mpr fun ev hev => hp.runs h ev hev

theorem follows_try {p : ExceptT ε (Prog Op Ans) α} {f : α → ExceptT ε (Prog Op Ans) β}
    (hp : Follows label good script p) (hf : ∀ a, Follows label good script' (f a)) :
    Follows label good (script ++ script') (p >>= f) := by
  intro tr r h
  rcases runs_try.mp h with ⟨e, hrun, rfl⟩ | ⟨tr₁, tr₂, a, rfl, hrun, hrest⟩
  · exact ⟨(hp _ _ hrun).1.trans (List.prefix_append ..), fun h => by cases h⟩
  · obtain ⟨heq, hgood⟩ := (hp _ _ hrun).2 rfl
    obtain ⟨hfront, hok⟩ := hf a _ _ hrest
    rw [labels_append, heq]
    refine ⟨(List.prefix_append_right_inj _).mpr hfront, fun hr => ?_⟩
    obtain ⟨heq', hgood'⟩ := hok hr
    refine ⟨by rw [heq'], fun ev hev => ?_⟩
    rcases List.mem_append.mp hev with h | h
    · exact hgood ev h
    · exact hgood' ev h

theorem follows_quiet_try {p : ExceptT ε (Prog Op Ans) α} {f : α → ExceptT ε (Prog Op Ans) β}
    (hp : Follows label good [] p) (hf : ∀ a, Follows label good script (f a)) :
    Follows label good script (p >>= f) :=
  follows_try hp hf

theorem follows_cons_try {c : κ} {p : ExceptT ε (Prog Op Ans) α}
    {f : α → ExceptT ε (Prog Op Ans) β} (hp : Follows label good [c] p)
    (hf : ∀ a, Follows label good script (f a)) : Follows label good (c :: script) (p >>= f) :=
  follows_try hp hf

theorem follows_last {p : ExceptT ε (Prog Op Ans) α} {f : α → ExceptT ε (Prog Op Ans) β}
    (hp : Follows label good script p) (hf : ∀ a, Follows label good [] (f a)) :
    Follows label good script (p >>= f) := by
  rw [← List.append_nil script]
  exact follows_try hp hf

theorem follows_throw (e : ε) :
    Follows label good script (throw e : ExceptT ε (Prog Op Ans) α) := by
  intro tr r h
  obtain ⟨rfl, rfl⟩ := runs_ret.mp h
  exact ⟨List.nil_prefix, fun h => by cases h⟩

theorem follows_pure (a : α) : Follows label good [] (pure a : ExceptT ε (Prog Op Ans) α) := by
  intro tr r h
  obtain ⟨rfl, rfl⟩ := runs_ret.mp h
  exact ⟨List.nil_prefix, fun _ => ⟨rfl, by simp⟩⟩

theorem follows_adapt {ε' : Type} {g : ε → ε'} {p : ExceptT ε (Prog Op Ans) α}
    (hp : Follows label good script p) : Follows label good script (p.adapt g) := by
  intro tr r h
  obtain ⟨r', hrun, rfl⟩ := runs_adapt h
  refine ⟨(hp _ _ hrun).1, fun hr => (hp _ _ hrun).2 ?_⟩
  cases r' with
  | ok a => rfl
  | error e => cases hr

theorem follows_unless {c : Prop} [Decidable c] {e : ε} {f : PUnit → ExceptT ε (Prog Op Ans) α}
    {k : ExceptT ε (Prog Op Ans) α} (h : ¬ c → Follows label good script k) :
    Follows label good script (if c then throw e >>= f else k) := by
  split
  · exact follows_throw e
  · exact h ‹_›

end Script

end Lib.Prog
