import Espbewi.Lib.Handler
import Espbewi.Bootloader.Traces

/-! The update of a boot entry as a protocol of checked steps, which both executors carry out. -/

namespace Espbewi.System

open Lib Nor Boot Hw Prog

/-- What a read-back is to see: the erased sector, the body, or the committed entry. -/
inductive Stage
  | erased
  | body
  | committed
  deriving DecidableEq

inductive StepOp
  | unlock
  | erase
  | program (stage : Stage) (offset : UInt32) (bytes : List UInt8)
  | readBack (stage : Stage)

@[reducible] def StepOp.Ans : StepOp → Type
  | .unlock | .erase | .program .. => Bool
  | .readBack _ => Option Raw

abbrev Step := Event StepOp StepOp.Ans

section Protocol

variable (fb : Fibewi) (write : Write fb.Entry)

def Sees : Stage → Raw → Prop
  | .erased, back => back = fb.BLANK
  | .body, back => back = fb.body write.entry
  | .committed, back => back = fb.encode write.entry ∧ fb.decode back = some write.entry

instance (stage : Stage) (back : Raw) : Decidable (Sees fb write stage back) := by
  cases stage <;> unfold Sees <;> infer_instance

/-- The step succeeded, and a read-back saw what its stage asks for. -/
def Passed : (o : StepOp) → o.Ans → Prop
  | .unlock, ok | .erase, ok | .program .., ok => ok = true
  | .readBack stage, back => ∃ raw, back = some raw ∧ Sees fb write stage raw

abbrev StepM (α : Type) := ExceptT Unit (Prog StepOp StepOp.Ans) α

def readBack (stage : Stage) : StepM Unit := do
  let back ← Prog.expect (op (StepOp.readBack stage)) ()
  if ¬ Sees fb write stage back then throw ()

def checkedUpdate : StepM Unit := do
  let (op₀, body, commit) := fb.ops write
  Prog.check (op StepOp.unlock) ()
  let .erase := op₀ | throw ()
  Prog.check (op StepOp.erase) ()
  readBack fb write .erased
  let .program offset data := body | throw ()
  Prog.check (op (StepOp.program .body offset data.slice)) ()
  readBack fb write .body
  let .program offset data := commit | throw ()
  Prog.check (op (StepOp.program .committed offset data.slice)) ()
  readBack fb write .committed

end Protocol

/-! ### Both executors carry out the protocol -/

section Carry

variable {Op : Type} {Ans : Op → Type} {ε α : Type} {h : (o : StepOp) → Prog Op Ans o.Ans}
  {fb : Fibewi} {write : Write fb.Entry}

/-- The program without the details of its errors. -/
def outcome (p : ExceptT ε (Prog Op Ans) α) : ExceptT Unit (Prog Op Ans) α := p.adapt fun _ => ()

def carry (h : (o : StepOp) → Prog Op Ans o.Ans) (p : StepM α) : ExceptT Unit (Prog Op Ans) α :=
  ExceptT.mk (interp h (ExceptT.run p))

theorem carry_try {β : Type} {p : StepM α} {f : α → StepM β} :
    carry h (p >>= f) = carry h p >>= fun a => carry h (f a) := interp_try

/-- `p` carries out `q`, whatever its errors say. -/
def Carries (h : (o : StepOp) → Prog Op Ans o.Ans) (p : ExceptT ε (Prog Op Ans) α) (q : StepM α) : Prop :=
  outcome p = carry h q

theorem carries_throw (e : ε) : Carries h (throw e : ExceptT ε (Prog Op Ans) α) (throw ()) := rfl

theorem carries_check {p : ExceptT ε (Prog Op Ans) Unit} {f : Unit → ExceptT ε (Prog Op Ans) α}
    {o : Prog StepOp StepOp.Ans Bool} {q : Unit → StepM α}
    (hp : interp h o = Except.isOk <$> ExceptT.run p) (hk : ∀ u, Carries h (f u) (q u)) :
    Carries h (p >>= f) (Prog.check o () >>= q) := by
  have hcheck : outcome p = carry h (Prog.check o ()) := by
    change Except.mapError _ <$> ExceptT.run p =
      interp h (o >>= fun ok => .ret (if ok then .ok () else .error ()))
    rw [interp_bind, hp, map_eq_pure_bind, bind_map_left]
    congr 1
    funext r
    cases r <;> rfl
  rw [Carries, outcome, adapt_try, carry_try, ← hcheck]
  exact congrArg _ (funext hk)

theorem interp_readBack {p : ExceptT ε (Prog Op Ans) Raw} {stage : Stage}
    (hp : h (.readBack stage) = Except.toOption <$> ExceptT.run p) :
    interp h (ExceptT.run (readBack fb write stage)) = ExceptT.run p >>= fun r => match r with
      | .ok back => .ret (if Sees fb write stage back then .ok () else .error ())
      | .error _ => .ret (.error ()) := by
  rw [readBack, interp_try, ExceptT.run_bind, ExceptT.run_mk]
  change interp h (op (StepOp.readBack stage) >>= _) >>= _ = _
  rw [interp_bind, interp_op, hp, map_eq_pure_bind, LawfulMonad.bind_assoc, LawfulMonad.bind_assoc]
  congr 1
  funext r
  cases r with
  | error e => rfl
  | ok back =>
    change interp h (ExceptT.run (if ¬ Sees fb write stage back then throw () else pure ())) =
      ret (if Sees fb write stage back then _ else _)
    by_cases hsees : Sees fb write stage back
    · rw [if_neg (not_not_intro hsees), if_pos hsees]
      rfl
    · rw [if_pos hsees, if_neg hsees]
      rfl

theorem carries_readBack {p : ExceptT ε (Prog Op Ans) Raw} {stage : Stage}
    {f : Raw → ExceptT ε (Prog Op Ans) α} {q : Unit → StepM α}
    (hp : h (.readBack stage) = Except.toOption <$> ExceptT.run p)
    (hbad : ∀ back, ¬ Sees fb write stage back → ∃ e, f back = throw e)
    (hgood : ∀ back, Sees fb write stage back → ∃ p', f back = p' ∧ Carries h p' (q ())) :
    Carries h (p >>= f) (readBack fb write stage >>= q) := by
  change Except.mapError _ <$> ExceptT.run (p >>= f) = ExceptT.run (carry h (readBack fb write stage >>= q))
  rw [carry_try, ExceptT.run_bind, ExceptT.run_bind, carry, ExceptT.run_mk, interp_readBack hp,
    map_bind, LawfulMonad.bind_assoc]
  congr 1
  funext r
  cases r with
  | error e => rfl
  | ok back =>
    by_cases hsees : Sees fb write stage back
    · obtain ⟨p', hp', hcarries⟩ := hgood back hsees
      simp only [hsees, if_true, hp']
      exact hcarries
    · obtain ⟨e, he⟩ := hbad back hsees
      simp only [hsees, if_false, he]
      rfl

theorem carries_readBack_last {p : ExceptT ε (Prog Op Ans) Raw} {stage : Stage}
    {f : Raw → ExceptT ε (Prog Op Ans) Unit}
    (hp : h (.readBack stage) = Except.toOption <$> ExceptT.run p)
    (hbad : ∀ back, ¬ Sees fb write stage back → ∃ e, f back = throw e)
    (hgood : ∀ back, Sees fb write stage back → f back = pure ()) :
    Carries h (p >>= f) (readBack fb write stage) := by
  rw [← bind_pure (readBack fb write stage)]
  exact carries_readBack hp hbad fun back hsees => ⟨_, hgood back hsees, rfl⟩

end Carry

/-- The steps of the bootloader, on the ROM. -/
def romStep (fb : Fibewi) (base : UInt32) : (o : StepOp) → HwProg o.Ans
  | .unlock => Except.isOk <$> ExceptT.run flashUnlock
  | .erase => Except.isOk <$> ExceptT.run (flashEraseSector (base / Bootloader.SECTOR))
  | .program _ offset bytes => Except.isOk <$> ExceptT.run (flashProgram (base + offset) bytes)
  | .readBack _ => Except.toOption <$> ExceptT.run (Hw.flashRead base fb.ENTRY_SIZE)

/-- The steps of the application, on its flash driver, which needs no unlocking. -/
def norStep (fb : Fibewi) (base : UInt32) : (o : StepOp) → NorProg o.Ans
  | .unlock => pure true
  | .erase => Except.isOk <$> ExceptT.run
      (NorFlash.erase base (base + Otadata.SECTOR_SIZE) Otadata.Error.verify)
  | .program _ offset bytes => Except.isOk <$> ExceptT.run
      (NorFlash.write (base + offset) bytes Otadata.Error.verify)
  | .readBack _ => Except.toOption <$> ExceptT.run
      (NorFlash.read base fb.ENTRY_SIZE Otadata.Error.verify)

section Executors

variable {fb : Fibewi} {write : Write fb.Entry} {base : UInt32}

theorem isOk_adapt {Op : Type} {Ans : Op → Type} {ε ε' α : Type} {g : ε → ε'}
    (p : ExceptT ε (Prog Op Ans) α) :
    Except.isOk <$> ExceptT.run (p.adapt g) = Except.isOk <$> ExceptT.run p := by
  change Except.isOk <$> (Except.mapError g <$> ExceptT.run p) = _
  rw [← comp_map]
  congr 1
  funext r
  cases r <;> rfl

theorem toOption_adapt {Op : Type} {Ans : Op → Type} {ε ε' α : Type} {g : ε → ε'}
    (p : ExceptT ε (Prog Op Ans) α) :
    Except.toOption <$> ExceptT.run (p.adapt g) = Except.toOption <$> ExceptT.run p := by
  change Except.toOption <$> (Except.mapError g <$> ExceptT.run p) = _
  rw [← comp_map]
  congr 1
  funext r
  cases r <;> rfl

theorem carries_rom : Carries (romStep fb base) (Bootloader.executeAt fb write base) (checkedUpdate fb write) := by
  have hread : ∀ stage, romStep fb base (.readBack stage) =
      Except.toOption <$> ExceptT.run (Bootloader.flashRead base fb.ENTRY_SIZE) :=
    fun stage => (toOption_adapt _).symm
  unfold Bootloader.executeAt checkedUpdate
  obtain ⟨op₀, body, commit⟩ := fb.ops write
  refine carries_check ((interp_op _).trans (isOk_adapt _).symm) fun _ => ?_
  cases op₀ with
  | program offset data => exact carries_throw _
  | erase =>
  refine carries_check ((interp_op _).trans (isOk_adapt _).symm) fun _ => ?_
  refine carries_readBack (hread _) (fun back hb => ⟨_, if_pos hb⟩)
    fun back hb => ⟨_, if_neg (not_not_intro hb), ?_⟩
  cases body with
  | erase => exact carries_throw _
  | program offset data =>
  refine carries_check ((interp_op _).trans (isOk_adapt _).symm) fun _ => ?_
  refine carries_readBack (hread _) (fun back hb => ⟨_, if_pos hb⟩)
    fun back hb => ⟨_, if_neg (not_not_intro hb), ?_⟩
  cases commit with
  | erase => exact carries_throw _
  | program offset data =>
  refine carries_check ((interp_op _).trans (isOk_adapt _).symm) fun _ => ?_
  exact carries_readBack_last (hread _) (fun back hb => ⟨_, if_pos (not_and_or.mp hb)⟩)
    fun back hb => if_neg (not_or.mpr ⟨not_not_intro hb.1, not_not_intro hb.2⟩)

theorem carries_skip {Op : Type} {Ans : Op → Type} {ε α : Type} {h : (o : StepOp) → Prog Op Ans o.Ans}
    {p : ExceptT ε (Prog Op Ans) α} {o : Prog StepOp StepOp.Ans Bool} {q : Unit → StepM α}
    (ho : interp h o = pure true) (hk : Carries h p (q ())) : Carries h p (Prog.check o () >>= q) := by
  refine hk.trans ?_
  rw [carry_try]
  change carry h (q ()) = ExceptT.run (ExceptT.mk (interp h (o >>= _)) >>= _)
  rw [interp_bind, ho]
  rfl

theorem carries_nor : Carries (norStep fb base) (Otadata.executeAt fb write base) (checkedUpdate fb write) := by
  unfold Otadata.executeAt checkedUpdate
  obtain ⟨op₀, body, commit⟩ := fb.ops write
  refine carries_skip (interp_op _) ?_
  cases op₀ with
  | program offset data => exact carries_throw _
  | erase =>
  refine carries_check (interp_op _) fun _ => ?_
  refine carries_readBack rfl (fun back hb => ⟨_, if_pos hb⟩)
    fun back hb => ⟨_, if_neg (not_not_intro hb), ?_⟩
  cases body with
  | erase => exact carries_throw _
  | program offset data =>
  refine carries_check (interp_op _) fun _ => ?_
  refine carries_readBack rfl (fun back hb => ⟨_, if_pos hb⟩)
    fun back hb => ⟨_, if_neg (not_not_intro hb), ?_⟩
  cases commit with
  | erase => exact carries_throw _
  | program offset data =>
  refine carries_check (interp_op _) fun _ => ?_
  exact carries_readBack_last rfl (fun back hb => ⟨_, if_pos (not_and_or.mp hb)⟩)
    fun back hb => if_neg (not_or.mpr ⟨not_not_intro hb.1, not_not_intro hb.2⟩)

end Executors

/-! ### What every run of the protocol satisfies -/

section Runs

variable {fb : Fibewi} {write : Write fb.Entry}

/-- The steps of an update, in order. -/
def script (fb : Fibewi) (write : Write fb.Entry) : List StepOp :=
  [.unlock, .erase, .readBack .erased] ++ match fb.ops write with
    | (_, .program offset data, commit) =>
      [.program .body offset data.slice, .readBack .body] ++ match commit with
        | .program offset data => [.program .committed offset data.slice, .readBack .committed]
        | .erase => []
    | _ => []

theorem halts_flag {p : Prog StepOp StepOp.Ans Bool} {o : StepOp} {k : o.Ans → Bool}
    (hp : p = .call o fun r => .ret (k r))
    (h : ∀ r, k r = true → Passed fb write o r) :
    p.Halts (fun o r => ¬ Passed fb write o r) (· = false) := by
  subst hp
  exact fun r => ⟨fun hr => ⟨_, rfl, Bool.eq_false_iff.mpr fun hk => hr (h r hk)⟩, trivial⟩

theorem halts_readBack (stage : Stage) :
    Halts (fun o r => ¬ Passed fb write o r) Failed (ExceptT.run (readBack fb write stage)) := by
  intro r
  cases r with
  | none => exact ⟨fun _ => ⟨_, rfl, rfl⟩, trivial⟩
  | some back =>
    change (_ → ∃ a, ExceptT.run (if ¬ Sees fb write stage back then throw () else pure ()) = ret a ∧ _) ∧
      Halts _ _ (ExceptT.run (if ¬ Sees fb write stage back then throw () else pure ()))
    by_cases hsees : Sees fb write stage back
    · rw [if_neg (not_not_intro hsees)]
      exact ⟨fun hbad => absurd ⟨back, rfl, hsees⟩ hbad, trivial⟩
    · rw [if_pos hsees]
      exact ⟨fun _ => ⟨_, rfl, rfl⟩, trivial⟩

theorem halts_checkedUpdate :
    Halts (fun o r => ¬ Passed fb write o r) Failed (ExceptT.run (checkedUpdate fb write)) := by
  unfold checkedUpdate
  obtain ⟨op₀, body, commit⟩ := fb.ops write
  refine halts_try (halts_check (halts_flag rfl fun _ => id) _) fun _ => ?_
  cases op₀ with
  | program offset data => exact halts_throw _
  | erase =>
  refine halts_try (halts_check (halts_flag rfl fun _ => id) _) fun _ => ?_
  refine halts_try (halts_readBack _) fun _ => ?_
  cases body with
  | erase => exact halts_throw _
  | program offset data =>
  refine halts_try (halts_check (halts_flag rfl fun _ => id) _) fun _ => ?_
  refine halts_try (halts_readBack _) fun _ => ?_
  cases commit with
  | erase => exact halts_throw _
  | program offset data =>
  refine halts_try (halts_check (halts_flag rfl fun _ => id) _) fun _ => ?_
  exact halts_readBack _

theorem follows_flag {p : Prog StepOp StepOp.Ans Bool} {o : StepOp} {k : o.Ans → Bool}
    (hp : p = .call o fun r => .ret (k r)) (h : ∀ r, k r = true → Passed fb write o r) :
    Follows some (Passed fb write) [o] (Prog.check p ()) := by
  subst hp
  intro tr r hrun
  obtain ⟨ans, tr', rfl, hend⟩ := runs_call.mp hrun
  obtain ⟨rfl, rfl⟩ := runs_ret.mp hend
  refine ⟨List.prefix_refl _, fun hok => ⟨rfl, fun ev hev => ?_⟩⟩
  rw [List.mem_singleton.mp hev]
  refine h ans ?_
  cases hk : k ans with
  | true => rfl
  | false => rw [hk] at hok; cases hok

theorem runs_readBack {stage : Stage} {steps : List Step} {r : Except Unit Unit}
    (hrun : Runs (ExceptT.run (readBack fb write stage)) steps r) :
    ∃ back, steps = [⟨.readBack stage, back⟩] ∧
      (r.isOk = true → ∃ raw, back = some raw ∧ Sees fb write stage raw) := by
  obtain ⟨back, rest, rfl, hend⟩ := runs_call.mp hrun
  refine ⟨back, ?_⟩
  cases back with
  | none =>
    obtain ⟨rfl, rfl⟩ := runs_ret.mp hend
    exact ⟨rfl, fun hok => by cases hok⟩
  | some back =>
    change Runs (ExceptT.run (if ¬ Sees fb write stage back then throw () else pure ())) rest r at hend
    split at hend
    · obtain ⟨rfl, rfl⟩ := runs_ret.mp hend
      exact ⟨rfl, fun hok => by cases hok⟩
    · next hsees =>
      obtain ⟨rfl, rfl⟩ := runs_ret.mp hend
      exact ⟨rfl, fun _ => ⟨back, rfl, not_not.mp hsees⟩⟩

theorem follows_readBack (stage : Stage) :
    Follows some (Passed fb write) [.readBack stage] (readBack fb write stage) := by
  intro steps r hrun
  obtain ⟨back, rfl, hback⟩ := runs_readBack hrun
  exact ⟨List.prefix_refl _, fun hok => ⟨rfl, fun ev hev => List.mem_singleton.mp hev ▸ hback hok⟩⟩

theorem follows_checkedUpdate : Follows some (Passed fb write) (script fb write) (checkedUpdate fb write) := by
  unfold checkedUpdate script
  obtain ⟨op₀, body, commit⟩ := fb.ops write
  refine follows_cons_try (follows_flag rfl fun _ => id) fun _ => ?_
  cases op₀ with
  | program offset data => exact follows_throw _
  | erase =>
  refine follows_cons_try (follows_flag rfl fun _ => id) fun _ => ?_
  refine follows_cons_try (follows_readBack _) fun _ => ?_
  cases body with
  | erase => exact follows_throw _
  | program offset data =>
  refine follows_cons_try (follows_flag rfl fun _ => id) fun _ => ?_
  refine follows_cons_try (follows_readBack _) fun _ => ?_
  cases commit with
  | erase => exact follows_throw _
  | program offset data =>
  exact follows_cons_try (follows_flag rfl fun _ => id) fun _ => follows_readBack _

/-- The last step of a successful run. -/
def Committed (fb : Fibewi) (write : Write fb.Entry) (steps : List Step) : Prop :=
  steps = [⟨.readBack .committed, some (fb.encode write.entry)⟩] ∧
    fb.decode (fb.encode write.entry) = some write.entry

theorem ends_checkedUpdate : Ends (Committed fb write) (checkedUpdate fb write) := by
  unfold checkedUpdate
  obtain ⟨op₀, body, commit⟩ := fb.ops write
  refine ends_try fun _ => ?_
  cases op₀ with
  | program offset data => exact ends_throw _
  | erase =>
  refine ends_try fun _ => ends_try fun _ => ?_
  cases body with
  | erase => exact ends_throw _
  | program offset data =>
  refine ends_try fun _ => ends_try fun _ => ?_
  cases commit with
  | erase => exact ends_throw _
  | program offset data =>
  refine ends_try fun _ steps u hrun => ⟨[], steps, rfl, ?_⟩
  obtain ⟨back, rfl, hback⟩ := runs_readBack hrun
  obtain ⟨raw, rfl, rfl, hdecode⟩ := hback rfl
  exact ⟨rfl, hdecode⟩

/-- How an update proceeds, whatever the flash does: the steps are those of the script, so that the commit word
is the third operation that fibewi planned. It is programmed only after the sector was seen erased and the body
seen whole, success is the committed entry seen last, and the first step that fails is the last one. -/
structure Checked (fb : Fibewi) (write : Write fb.Entry) (steps : List Step) (ok : Bool) : Prop where
  order : labels some steps <+: script fb write
  all : ok = true → labels some steps = script fb write ∧ ∀ step ∈ steps, Passed fb write step.1 step.2
  commit : ∀ pre offset bytes r post, steps = pre ++ ⟨.program .committed offset bytes, r⟩ :: post →
    ∃ offset' bytes', pre = [⟨.unlock, true⟩, ⟨.erase, true⟩, ⟨.readBack .erased, some fb.BLANK⟩,
      ⟨.program .body offset' bytes', true⟩, ⟨.readBack .body, some (fb.body write.entry)⟩]
  done : ok = true → ∃ pre, steps = pre ++ [⟨.readBack .committed, some (fb.encode write.entry)⟩] ∧
    fb.decode (fb.encode write.entry) = some write.entry
  stops : ∀ pre step post, steps = pre ++ step :: post → ¬ Passed fb write step.1 step.2 → post = []

theorem Passed.flag {step : Step} (h : Passed fb write step.1 step.2) :
    (step.1 = .unlock → step = ⟨.unlock, true⟩) ∧ (step.1 = .erase → step = ⟨.erase, true⟩) ∧
      ∀ stage offset bytes, step.1 = .program stage offset bytes →
        step = ⟨.program stage offset bytes, true⟩ := by
  obtain ⟨o, r⟩ := step
  refine ⟨?_, ?_, ?_⟩
  · rintro rfl
    cases h
    rfl
  · rintro rfl
    cases h
    rfl
  · rintro stage offset bytes rfl
    cases h
    rfl

theorem Passed.readBack {step : Step} (h : Passed fb write step.1 step.2) {stage : Stage}
    (hstep : step.1 = .readBack stage) :
    ∃ raw, step = ⟨.readBack stage, some raw⟩ ∧ Sees fb write stage raw := by
  obtain ⟨o, r⟩ := step
  cases hstep
  obtain ⟨raw, rfl, hsees⟩ := h
  exact ⟨raw, rfl, hsees⟩

/-- The steps before the commit word in a run that reaches it. -/
theorem before_commit {pre : List StepOp} {offset : UInt32} {bytes : List UInt8} {post : List StepOp}
    (h : pre ++ .program .committed offset bytes :: post <+: script fb write) :
    ∃ offset' bytes', pre =
      [.unlock, .erase, .readBack .erased, .program .body offset' bytes', .readBack .body] := by
  unfold script at h
  generalize fb.ops write = ops at h
  obtain ⟨op₀, body, commit⟩ := ops
  obtain ⟨rest, h⟩ := h
  have hmem := congrArg (StepOp.program .committed offset bytes ∈ ·) h
  cases body with
  | erase => simp at hmem
  | program offset' data =>
  cases commit with
  | erase => simp at hmem
  | program offset'' data' =>
  simp only [List.cons_append, List.nil_append, List.append_assoc] at h
  rcases pre with _ | ⟨a₁, _ | ⟨a₂, _ | ⟨a₃, _ | ⟨a₄, _ | ⟨a₅, _ | ⟨a₆, _ | ⟨a₇, pre⟩⟩⟩⟩⟩⟩⟩ <;>
    simp at h
  obtain ⟨rfl, rfl, rfl, rfl, rfl, -⟩ := h
  exact ⟨offset', data.slice, rfl⟩

theorem checked {steps : List Step} {r : Except Unit Unit}
    (hrun : Runs (ExceptT.run (checkedUpdate fb write)) steps r) : Checked fb write steps r.isOk := by
  have hstops : ∀ pre step post, steps = pre ++ step :: post → ¬ Passed fb write step.1 step.2 →
      post = [] := fun pre step post hsplit hbad => (halts_checkedUpdate.last hrun hsplit hbad).1
  obtain ⟨hlabels, hall⟩ := follows_checkedUpdate _ _ hrun
  refine ⟨hlabels, hall, fun pre offset bytes ans post hsplit => ?_, fun hok => ?_, hstops⟩
  · have hpassed : ∀ step ∈ pre, Passed fb write step.1 step.2 := by
      intro step hstep
      obtain ⟨a, c, rfl⟩ := List.append_of_mem hstep
      by_contra hbad
      have := hstops a step _ (by rw [hsplit, List.append_assoc, List.cons_append]) hbad
      simp at this
    rw [hsplit, labels_append] at hlabels
    obtain ⟨offset', bytes', hpre⟩ := before_commit hlabels
    rcases pre with _ | ⟨s₁, _ | ⟨s₂, _ | ⟨s₃, _ | ⟨s₄, _ | ⟨s₅, _ | ⟨s₆, pre⟩⟩⟩⟩⟩⟩ <;>
      simp [labels] at hpre
    simp only [List.forall_mem_cons] at hpassed
    obtain ⟨h₁, h₂, h₃, h₄, h₅, -⟩ := hpassed
    obtain ⟨_, hs₃, rfl⟩ := h₃.readBack hpre.2.2.1
    obtain ⟨_, hs₅, rfl⟩ := h₅.readBack hpre.2.2.2.2
    exact ⟨offset', bytes', by rw [h₁.flag.1 hpre.1, h₂.flag.2.1 hpre.2.1, hs₃,
      h₄.flag.2.2 _ _ _ hpre.2.2.2.1, hs₅]⟩
  · cases r with
    | error e => cases hok
    | ok u =>
      obtain ⟨pre, last, rfl, rfl, hdecode⟩ := ends_checkedUpdate _ _ hrun
      exact ⟨pre, rfl, hdecode⟩

end Runs

/-! ### Down to the calls of the drivers -/

section Calls

variable {fb : Fibewi} {write : Write fb.Entry} {base : UInt32}

theorem runs_outcome {Op : Type} {Ans : Op → Type} {ε α : Type} {p : ExceptT ε (Prog Op Ans) α}
    {tr : List (Event Op Ans)} {r : Except ε α} (hrun : Runs (ExceptT.run p) tr r) :
    Runs (ExceptT.run (outcome p)) tr (r.mapError fun _ => ()) := by
  change Runs (Except.mapError _ <$> ExceptT.run p) tr _
  rw [map_eq_pure_bind]
  exact runs_bind.mpr ⟨tr, [], r, (List.append_nil _).symm, hrun, .ret⟩

theorem isOk_mapError {ε ε' α : Type} (f : ε → ε') (r : Except ε α) : (r.mapError f).isOk = r.isOk := by
  cases r <;> rfl

/-- A run of a program that carries out the protocol, as the steps it takes. -/
theorem Carries.checked {Op : Type} {Ans : Op → Type} {ε : Type} {h : (o : StepOp) → Prog Op Ans o.Ans}
    {p : ExceptT ε (Prog Op Ans) Unit} (hp : Carries h p (checkedUpdate fb write))
    {tr : List (Event Op Ans)} {r : Except ε Unit} (hrun : Runs (ExceptT.run p) tr r) :
    ∃ steps, Realises h steps tr ∧ Checked fb write steps r.isOk := by
  have hrun := runs_outcome hrun
  rw [hp] at hrun
  obtain ⟨steps, hsteps, hreal⟩ := runs_interp hrun
  refine ⟨steps, hreal, ?_⟩
  rw [← isOk_mapError fun _ => ()]
  exact System.checked hsteps

/-- No call follows one that failed. -/
def Quits {Op : Type} {Ans : Op → Type} (good : (o : Op) → Ans o → Prop) (tr : List (Event Op Ans)) : Prop :=
  ∀ pre ev post, tr = pre ++ ev :: post → ¬ good ev.1 ev.2 → post = []

theorem Carries.halts {Op : Type} {Ans : Op → Type} {ε : Type} {h : (o : StepOp) → Prog Op Ans o.Ans}
    {bad : (o : Op) → Ans o → Prop} {p : ExceptT ε (Prog Op Ans) Unit}
    (hp : Carries h p (checkedUpdate fb write)) (hh : ∀ o, (h o).Halts bad fun r => ¬ Passed fb write o r) :
    Halts bad Failed (ExceptT.run p) := by
  have hhalts := halts_interp (h := h) halts_checkedUpdate hh
  change Halts bad Failed (ExceptT.run (carry h (checkedUpdate fb write))) at hhalts
  rw [← hp] at hhalts
  refine halts_of_bind_ret (g := Except.mapError fun _ => ()) (fun r hr => ?_) hhalts
  rwa [Failed, isOk_mapError] at hr

theorem quits_of_halts {Op : Type} {Ans : Op → Type} {ε : Type} {good : (o : Op) → Ans o → Prop}
    {p : ExceptT ε (Prog Op Ans) Unit} (hp : Halts (fun o r => ¬ good o r) Failed (ExceptT.run p))
    {tr : List (Event Op Ans)} {r : Except ε Unit} (hrun : Runs (ExceptT.run p) tr r) : Quits good tr :=
  fun _ _ _ htr hbad => (hp.last hrun htr hbad).1

theorem halts_isOk {Op : Type} {Ans : Op → Type} {ε α : Type} {bad : (o : Op) → Ans o → Prop}
    {failed : Bool → Prop} (hfalse : failed false) {p : ExceptT ε (Prog Op Ans) α}
    (hp : Halts bad Failed (ExceptT.run p)) : Halts bad failed (Except.isOk <$> ExceptT.run p) := by
  rw [map_eq_pure_bind]
  exact halts_bind hp (fun r hr => ⟨_, rfl, hr ▸ hfalse⟩) fun r => trivial

theorem halts_toOption {Op : Type} {Ans : Op → Type} {ε α : Type} {bad : (o : Op) → Ans o → Prop}
    {failed : Option α → Prop} (hnone : failed none) {p : ExceptT ε (Prog Op Ans) α}
    (hp : Halts bad Failed (ExceptT.run p)) : Halts bad failed (Except.toOption <$> ExceptT.run p) := by
  rw [map_eq_pure_bind]
  refine halts_bind hp (fun r hr => ?_) fun r => trivial
  cases r with
  | ok a => cases hr
  | error e => exact ⟨_, rfl, hnone⟩

theorem not_passed_none (stage : Stage) : ¬ Passed fb write (.readBack stage) none := by
  rintro ⟨raw, hraw, -⟩
  cases hraw

abbrev Lost (o : HwOp) (r : o.Ans) : Prop := ¬ Bootloader.Good o r

theorem halts_readLoop (offset : UInt32) (len done : Nat) (out : List UInt8) :
    (readLoop offset len done out).Halts Lost fun r => Failed r.1 := by
  induction hn : len - done using Nat.strongRecOn generalizing done out with
  | ind n ih =>
    unfold readLoop
    split
    · intro window
      cases window with
      | none => exact ⟨fun _ => ⟨_, rfl, rfl⟩, trivial⟩
      | some window => exact ⟨fun hbad => absurd rfl hbad, ih _ (by omega) _ _ rfl⟩
    · trivial

theorem halts_flashRead (offset : UInt32) (len : Nat) :
    Halts Lost Failed (ExceptT.run (Hw.flashRead offset len)) := by
  unfold Hw.flashRead flashReadInto
  refine halts_bind (halts_readLoop ..) (fun r hr => ?_) fun r => ?_
  · obtain ⟨_ | _, out⟩ := r
    · exact ⟨_, rfl, rfl⟩
    · cases hr
  · obtain ⟨_ | _, out⟩ := r <;> trivial

theorem halts_programLoop (addr : UInt32) (data : List UInt8) (done : Nat) :
    Halts Lost Failed (ExceptT.run (programLoop addr data done)) := by
  induction hn : data.length - done using Nat.strongRecOn generalizing done with
  | ind n ih =>
    unfold programLoop
    split
    · refine halts_try (halts_check ?_ _) fun _ => ih _ (by omega) _ rfl
      exact fun r => ⟨fun hr => ⟨r, rfl, Bool.eq_false_iff.mpr hr⟩, trivial⟩
    · trivial

theorem halts_flashProgram (addr : UInt32) (data : List UInt8) :
    Halts Lost Failed (ExceptT.run (flashProgram addr data)) := by
  unfold flashProgram
  split
  · trivial
  · exact halts_programLoop ..

theorem halts_romStep (o : StepOp) :
    (romStep fb base o).Halts Lost fun r => ¬ Passed fb write o r := by
  cases o with
  | unlock =>
    refine halts_isOk Bool.false_ne_true (halts_check ?_ _)
    exact fun r => ⟨fun hr => ⟨r, rfl, Bool.eq_false_iff.mpr hr⟩, trivial⟩
  | erase =>
    refine halts_isOk Bool.false_ne_true (halts_check ?_ _)
    exact fun r => ⟨fun hr => ⟨r, rfl, Bool.eq_false_iff.mpr hr⟩, trivial⟩
  | program stage offset bytes => exact halts_isOk Bool.false_ne_true (halts_flashProgram ..)
  | readBack stage => exact halts_toOption (not_passed_none stage) (halts_flashRead ..)

/-- An answer of the driver that is not a failure. -/
def NorGood : (o : NorOp) → o.Ans → Prop
  | .read .., window => window.isSome = true
  | .erase .., ok | .write .., ok => ok = true

abbrev NorLost (o : NorOp) (r : o.Ans) : Prop := ¬ NorGood o r

theorem halts_norRead {ε : Type} (offset : UInt32) (len : Nat) (e : ε) :
    Halts NorLost Failed (ExceptT.run (NorFlash.read offset len e)) := by
  unfold NorFlash.read
  refine halts_try (halts_expect ?_ _) fun _ => trivial
  exact fun r => ⟨fun hr => ⟨r, rfl, Option.not_isSome_iff_eq_none.mp hr⟩, trivial⟩

theorem halts_norStep (o : StepOp) :
    (norStep fb base o).Halts NorLost fun r => ¬ Passed fb write o r := by
  cases o with
  | unlock => trivial
  | erase =>
    refine halts_isOk Bool.false_ne_true (halts_check ?_ _)
    exact fun r => ⟨fun hr => ⟨r, rfl, Bool.eq_false_iff.mpr hr⟩, trivial⟩
  | program stage offset bytes =>
    refine halts_isOk Bool.false_ne_true (halts_check ?_ _)
    exact fun r => ⟨fun hr => ⟨r, rfl, Bool.eq_false_iff.mpr hr⟩, trivial⟩
  | readBack stage => exact halts_toOption (not_passed_none stage) (halts_norRead _ _ _)

theorem halts_readAt (idf : EspIdf) : Halts NorLost Failed (ExceptT.run (Otadata.readAt idf fb)) := by
  unfold Otadata.readAt Otadata.locate readPartitionTable
  refine halts_try (halts_try (halts_try (halts_norRead _ _ _) fun bytes => ?_) fun table => ?_) fun p => ?_
  · split <;> trivial
  · split <;> trivial
  · exact halts_try (halts_norRead _ _ _) fun _ => halts_try (halts_norRead _ _ _) fun _ => trivial

/-- The commit word means that this exact body was checked: in both executors, and whatever
the flash and its drivers answer, a run is a run of the protocol, and no call follows one
that failed. -/
theorem commit_word_checked (idf : EspIdf) (fb : Fibewi) (write : Write fb.Entry) :
    (∀ layout tr r, Runs (ExceptT.run (Bootloader.execute fb write layout)) tr r →
      Quits Bootloader.Good tr ∧ ∃ steps, Checked fb write steps r.isOk ∧
        Realises (romStep fb (Otadata.sectorAt layout.otadata.1 write.sector)) steps tr) ∧
    (∀ tr r, Runs (ExceptT.run (Otadata.execute idf fb write)) tr r →
      Quits NorGood tr ∧ ∃ look tr' found, tr = look ++ tr' ∧
        Runs (ExceptT.run (Otadata.readAt idf fb)) look found ∧
        ∃ steps, Checked fb write steps r.isOk ∧ match found with
          | .ok (base, _) => Realises (norStep fb (Otadata.sectorAt base write.sector)) steps tr'
          | .error _ => steps = [] ∧ tr' = []) := by
  refine ⟨fun layout tr r hrun => ?_, fun tr r hrun => ?_⟩
  · obtain ⟨steps, hreal, hchecked⟩ := carries_rom.checked hrun
    exact ⟨quits_of_halts (carries_rom.halts halts_romStep) hrun, steps, hchecked, hreal⟩
  · have hhalts : Halts NorLost Failed (ExceptT.run (Otadata.execute idf fb write)) :=
      halts_try (halts_readAt idf) fun found => carries_nor.halts halts_norStep
    refine ⟨quits_of_halts hhalts hrun, ?_⟩
    rcases runs_try.mp hrun with ⟨e, hread, rfl⟩ | ⟨look, tr', ⟨base, entries⟩, rfl, hread, hrun⟩
    · refine ⟨tr, [], .error e, (List.append_nil _).symm, hread, [], ?_, rfl, rfl⟩
      exact ⟨List.nil_prefix, fun h => (by cases h), by simp, fun h => (by cases h), by simp⟩
    · obtain ⟨steps, hreal, hchecked⟩ := carries_nor.checked hrun
      exact ⟨look, tr', .ok (base, entries), rfl, hread, steps, hchecked, hreal⟩

end Calls

end Espbewi.System
