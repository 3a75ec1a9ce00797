import Espbewi.Lib.PowerCut

/-! An update of a flash in phases: commands, then a look at what they left. -/

namespace Lib.Nor

structure Phase where
  cmds : List Cmd
  seen : Flash → Bool

/-- The content after commands that all complete. -/
def after (cs : List Cmd) (f : Flash) : Flash := cs.foldl (fun f c => c.apply f) f

@[simp] theorem after_nil (f : Flash) : after [] f = f := rfl

@[simp] theorem after_cons (c : Cmd) (cs : List Cmd) (f : Flash) :
    after (c :: cs) f = after cs (c.apply f) := rfl

/-! ### What an update does -/

/-- The commands up to the first that fails: success, content and history. -/
def issueAll (b : Behaviour) : List Cmd → Flash → List Cmd → Bool × Flash × List Cmd
  | [], f, log => (true, f, log)
  | c :: cs, f, log =>
    if (b.cmd log f c).1 then issueAll b cs (b.cmd log f c).2 (log ++ [c])
    else (false, (b.cmd log f c).2, log ++ [c])

def update (b : Behaviour) : List Phase → Flash → List Cmd → Bool × Flash × List Cmd
  | [], f, log => (true, f, log)
  | p :: rest, f, log => match issueAll b p.cmds f log with
    | (true, f', log') => if p.seen f' then update b rest f' log' else (false, f', log')
    | (false, f', log') => (false, f', log')

theorem issueAll_perfect (cs : List Cmd) (f : Flash) (log : List Cmd) :
    issueAll perfect cs f log = (true, after cs f, log ++ cs) := by
  induction cs generalizing f log with
  | nil => simp [issueAll]
  | cons c cs ih =>
    change issueAll perfect cs (c.apply f) (log ++ [c]) = _
    rw [ih, after_cons, List.append_assoc]
    rfl

theorem update_perfect (p : Phase) (rest : List Phase) (f : Flash) (log : List Cmd) :
    update perfect (p :: rest) f log =
      if p.seen (after p.cmds f) then update perfect rest (after p.cmds f) (log ++ p.cmds)
      else (false, after p.cmds f, log ++ p.cmds) := by
  rw [update, issueAll_perfect]

/-! ### What holds of an update

`C` holds of every content that a cut can leave during the update, and `Q` of its
success, the content and the history at its end. -/

def issuing (b : Behaviour) (C : Flash → Prop) :
    List Cmd → (Bool → Flash → List Cmd → Prop) → Flash → List Cmd → Prop
  | [], Q, f, log => C f ∧ Q true f log
  | c :: cs, Q, f, log => (∀ g, c.Torn f g → C g) ∧
    ((b.cmd log f c).1 = false → Q false (b.cmd log f c).2 (log ++ [c])) ∧
    ((b.cmd log f c).1 = true → issuing b C cs Q (b.cmd log f c).2 (log ++ [c]))

def updating (b : Behaviour) (C : Flash → Prop) :
    List Phase → (Bool → Flash → List Cmd → Prop) → Flash → List Cmd → Prop
  | [], Q, f, log => Q true f log
  | p :: rest, Q, f, log => issuing b C p.cmds (fun ok f' log' =>
      (ok = false ∨ ¬ b.Readable ∨ p.seen f' = false → Q false f' log') ∧
      (ok = true → p.seen f' = true → updating b C rest Q f' log')) f log

variable {b : Behaviour} {C : Flash → Prop}

theorem issuing_of_issueAll {Q : Bool → Flash → List Cmd → Prop} {cs : List Cmd} {f : Flash}
    {log : List Cmd} (h : Q (issueAll b cs f log).1 (issueAll b cs f log).2.1 (issueAll b cs f log).2.2) :
    issuing b (fun _ => True) cs Q f log := by
  induction cs generalizing f log with
  | nil => exact ⟨trivial, h⟩
  | cons c cs ih =>
    refine ⟨fun _ _ => trivial, fun hf => ?_, fun ht => ih ?_⟩
    · simpa [issueAll, hf] using h
    · simpa [issueAll, ht] using h

/-- On a flash that can be read an update has one outcome. -/
theorem updating_of_update (hb : b.Readable) {Q : Bool → Flash → List Cmd → Prop} {ps : List Phase}
    {f : Flash} {log : List Cmd}
    (h : Q (update b ps f log).1 (update b ps f log).2.1 (update b ps f log).2.2) :
    updating b (fun _ => True) ps Q f log := by
  induction ps generalizing f log with
  | nil => exact h
  | cons p rest ih =>
    refine issuing_of_issueAll ?_
    rw [update] at h
    generalize issueAll b p.cmds f log = r at h ⊢
    rcases r with ⟨ok, f', log'⟩
    cases ok with
    | false => exact ⟨fun _ => h, fun hok => by cases hok⟩
    | true =>
      by_cases hs : p.seen f' = true
      · simp only [hs, if_true] at h
        refine ⟨?_, fun _ _ => ih h⟩
        rintro (hok | hr | hf)
        · cases hok
        · exact absurd hb hr
        · exact absurd (hs.symm.trans hf) (by decide)
      · simp only [hs, Bool.false_eq_true, if_false] at h
        exact ⟨fun _ => h, fun _ ht => absurd ht hs⟩

/-! ### On an honest flash -/

theorem issuing_cmd (hb : b.Honest) {c : Cmd} {cs : List Cmd} {Q : Bool → Flash → List Cmd → Prop}
    {f : Flash} {log : List Cmd} (hcut : ∀ g, c.Torn f g → C g)
    (hfail : ∀ g, c.Torn f g → Q false g (log ++ [c]))
    (hok : issuing b C cs Q (c.apply f) (log ++ [c])) : issuing b C (c :: cs) Q f log := by
  refine ⟨hcut, fun hf => hfail _ (hb.torn _ _ _ hf), fun ht => ?_⟩
  rw [hb.done _ _ _ ht]
  exact hok

/-- A program inside `[lo, hi)`. -/
def Cmd.Programs (lo hi : Nat) : Cmd → Prop
  | .erase .. => False
  | .program p data => lo ≤ p ∧ p + data.length ≤ hi

/-- What programs inside `[lo, hi)` leave on their way from `f` to `full`. -/
structure Partly (lo hi : Nat) (f full g : Flash) : Prop where
  outside : ∀ a, ¬ (lo ≤ a ∧ a < hi) → g a = f a
  within : ∀ a, Within (full a) (g a)

variable {lo hi : Nat}

theorem Cmd.Programs.apply_within {c : Cmd} (h : c.Programs lo hi) (f : Flash) (a : Nat) :
    Within (c.apply f a) (f a) := by
  cases c with
  | erase lo' hi' => exact h.elim
  | program p data => exact apply_program_within p data f a

theorem Cmd.Programs.torn_within {c : Cmd} (h : c.Programs lo hi) {f g : Flash} (hg : c.Torn f g)
    (a : Nat) : Within (c.apply f a) (g a) := by
  cases c with
  | erase lo' hi' => exact h.elim
  | program p data => exact hg.program_within a

theorem Cmd.Programs.not_covers {c : Cmd} (h : c.Programs lo hi) {a : Nat} (ha : ¬ (lo ≤ a ∧ a < hi)) :
    ¬ c.Covers a := by
  cases c with
  | erase lo' hi' => exact h.elim
  | program p data =>
    obtain ⟨hlo, hhi⟩ := h
    intro hc
    simp only [Cmd.Covers, Cmd.lo, Cmd.hi] at hc
    omega

theorem after_within {cs : List Cmd} (h : ∀ c ∈ cs, c.Programs lo hi) (f : Flash) (a : Nat) :
    Within (after cs f a) (f a) := by
  induction cs generalizing f with
  | nil => exact Within.refl _
  | cons c cs ih =>
    have hrest := ih (fun c' hc' => h c' (List.mem_cons_of_mem _ hc')) (c.apply f)
    exact hrest.trans ((h c (List.mem_cons_self ..)).apply_within f a)

theorem issuing_programs (hb : b.Honest) {cs : List Cmd} (hcs : ∀ c ∈ cs, c.Programs lo hi)
    {Q : Bool → Flash → List Cmd → Prop} {f : Flash} {log : List Cmd}
    (hcut : ∀ g, Partly lo hi f (after cs f) g → C g)
    (hfail : ∀ g log, Partly lo hi f (after cs f) g → Q false g log)
    (hok : ∀ log, Q true (after cs f) log) : issuing b C cs Q f log := by
  induction cs generalizing f log with
  | nil => exact ⟨hcut f ⟨fun _ _ => rfl, fun a => Within.refl (f a)⟩, hok log⟩
  | cons c cs ih =>
    have hc := hcs c (List.mem_cons_self ..)
    have hrest : ∀ c' ∈ cs, c'.Programs lo hi := fun c' hc' => hcs c' (List.mem_cons_of_mem _ hc')
    have htorn : ∀ g, c.Torn f g → Partly lo hi f (after (c :: cs) f) g := fun g hg =>
      ⟨fun a ha => hg.of_not_covers (hc.not_covers ha),
        fun a => (after_within hrest (c.apply f) a).trans (hc.torn_within hg a)⟩
    have hstep : ∀ g, Partly lo hi (c.apply f) (after cs (c.apply f)) g →
        Partly lo hi f (after (c :: cs) f) g := fun g hg =>
      ⟨fun a ha => (hg.outside a ha).trans (Cmd.apply_of_not_covers (hc.not_covers ha)), hg.within⟩
    exact issuing_cmd hb (fun g hg => hcut g (htorn g hg)) (fun g hg => hfail g _ (htorn g hg))
      (ih hrest (fun g hg => hcut g (hstep g hg)) (fun g log hg => hfail g log (hstep g hg)) hok)

theorem partly_start (a : Nat) (data : List UInt8) (f : Flash) :
    Partly a (a + data.length) f ((Cmd.program a data).apply f) f :=
  ⟨fun _ _ => rfl, fun x => Cmd.apply_program_within a data f x⟩

theorem partly_full (a : Nat) (data : List UInt8) (f : Flash) :
    Partly a (a + data.length) f ((Cmd.program a data).apply f) ((Cmd.program a data).apply f) :=
  ⟨fun _ hx => Cmd.apply_of_not_covers hx, fun _ => Within.refl _⟩

/-- A phase that programs `data` at `a`, or refuses to and is never seen done. -/
def Programs (a : Nat) (data : List UInt8) (phase : (Flash → Bool) → Phase) : Prop :=
  ∀ seen, phase seen = ⟨[], fun _ => false⟩ ∨
    ((phase seen).seen = seen ∧ (∀ c ∈ (phase seen).cmds, c.Programs a (a + data.length)) ∧
      ∀ f, after (phase seen).cmds f = (Cmd.program a data).apply f)

theorem updating_programs (hb : b.Honest) {a : Nat} {data : List UInt8}
    {phase : (Flash → Bool) → Phase} (hp : Programs a data phase) {seen : Flash → Bool}
    {rest : List Phase} {Q : Bool → Flash → List Cmd → Prop} {f : Flash} {log : List Cmd}
    (hcut : ∀ g, Partly a (a + data.length) f ((Cmd.program a data).apply f) g → C g)
    (hfail : ∀ g log, Partly a (a + data.length) f ((Cmd.program a data).apply f) g → Q false g log)
    (hok : ∀ log, seen ((Cmd.program a data).apply f) = true →
      updating b C rest Q ((Cmd.program a data).apply f) log) :
    updating b C (phase seen :: rest) Q f log := by
  rcases hp seen with hp | ⟨hseen, hcs, hafter⟩
  · rw [hp]
    have hstart := partly_start a data f
    exact ⟨hcut f hstart, fun _ => hfail f log hstart, fun _ h => by cases h⟩
  · refine issuing_programs hb hcs ?_ ?_ fun log => ?_
    · rw [hafter]
      exact hcut
    · rw [hafter]
      exact fun g log hg => ⟨fun _ => hfail g log hg, fun h => by cases h⟩
    · rw [hafter, hseen]
      exact ⟨fun _ => hfail _ log (partly_full a data f), fun _ h => hok log h⟩

end Lib.Nor
