import Espbewi.Bootloader.Traces
import Espbewi.System.Running

/-! What lies behind a jump to the application. -/

namespace Espbewi.System

open Lib Nor Boot Hw Platform Bootloader Prog

variable {fb : Fibewi} {map : MemoryMap} {layout : Layout}

/-! ### `boot` never indexes out of bounds -/

def Reported (stop : Stop) : Prop := ∃ e, stop = .error e

theorem raises_flashRead (offset : UInt32) (len : Nat) : Raises Reported (flashRead offset len) :=
  raises_adapt fun e => by cases e <;> exact ⟨_, rfl⟩

theorem raises_setFlashSize : Raises Reported setFlashSize :=
  raises_try (raises_adapt fun e => by cases e <;> exact ⟨_, rfl⟩) fun _ _ _ => raises_pure _

theorem raises_readTable : Raises Reported readTable := by
  intro tr e h
  unfold readTable at h
  rw [ExceptT.run_mk] at h
  obtain ⟨tr₁, tr₂, r, rfl, -, h⟩ := runs_bind.mp h
  cases r with
  | ok table =>
    obtain ⟨-, he⟩ := runs_ret.mp h
    cases he
  | error e' =>
    obtain ⟨tr₃, tr₄, _, rfl, -, h⟩ := runs_bind.mp h
    exact raises_flashRead _ _ _ _ h

theorem raises_validate {slot : UInt8} (h : slot < 2) : Raises Reported (validate layout map slot) := by
  obtain ⟨part, happ, -⟩ := app_eq (fun _ _ => true) layout h
  unfold validate
  rw [happ, pure_bind]
  exact raises_lift _

theorem raises_runPlan {α : Type} {p : Prog UInt8 (fun _ => Bool) α} (hp : p.Only (· < 2)) :
    Raises Reported (runPlan layout map p) := by
  induction p with
  | ret plan => exact raises_pure _
  | call slot k ih => exact raises_try (raises_validate hp.1) fun _ image _ => ih _ (hp.2 _)

theorem raises_plan (hs : fb.SlotLaw) : Raises Reported (plan fb map) := by
  refine raises_try raises_setFlashSize fun _ _ _ => ?_
  refine raises_try (raises_try raises_readTable fun _ _ _ => raises_adapt fun e => ⟨e, rfl⟩) ?_
  refine fun _ layout _ => raises_try ?_ fun _ entries _ => ?_
  · exact raises_try (raises_flashRead _ _) fun _ _ _ =>
      raises_try (raises_flashRead _ _) fun _ _ _ => raises_pure _
  · exact raises_try (raises_runPlan (hs.asks entries)) fun _ _ _ => raises_pure _

theorem raises_execute (write : Write fb.Entry) : Raises Reported (execute fb write layout) := by
  unfold execute executeAt
  obtain ⟨op, body, commit⟩ := fb.ops write
  refine raises_try (raises_adapt fun _ => ⟨_, rfl⟩) fun _ _ _ => ?_
  cases op with
  | program offset bytes => exact raises_throw ⟨_, rfl⟩
  | erase =>
  refine raises_try (raises_adapt fun _ => ⟨_, rfl⟩) fun _ _ _ => ?_
  refine raises_try (raises_flashRead _ _) fun _ _ _ => raises_unless ⟨_, rfl⟩ ?_
  cases body with
  | erase => exact raises_throw ⟨_, rfl⟩
  | program offset bytes =>
  refine raises_try (raises_adapt fun _ => ⟨_, rfl⟩) fun _ _ _ => ?_
  refine raises_try (raises_flashRead _ _) fun _ _ _ => raises_unless ⟨_, rfl⟩ ?_
  cases commit with
  | erase => exact raises_throw ⟨_, rfl⟩
  | program offset bytes =>
  refine raises_try (raises_adapt fun _ => ⟨_, rfl⟩) fun _ _ _ => ?_
  refine raises_try (raises_flashRead _ _) fun _ _ _ => ?_
  split
  · exact raises_throw ⟨_, rfl⟩
  · exact raises_pure _

theorem raises_executeAll (writes : List (Write fb.Entry)) :
    Raises Reported (executeAll fb layout writes) := by
  induction writes with
  | nil => exact raises_pure _
  | cons write rest ih => exact raises_try (raises_execute write) fun _ _ _ => ih

theorem raises_copyLoop (seg : Segment) (target : UInt32) (copied : Nat) :
    Raises Reported (copyLoop seg target copied) := by
  induction hn : seg.len.toNat - copied using Nat.strongRecOn generalizing copied with
  | ind n ih =>
    unfold copyLoop
    split
    · exact raises_try (raises_flashRead _ _) fun _ _ _ =>
        raises_try (raises_lift _) fun _ _ _ => ih _ (by omega) _ rfl
    · exact raises_pure _

theorem raises_copySegments (segs : List Segment) : Raises Reported (copySegments fb map segs) := by
  induction segs with
  | nil => exact raises_pure _
  | cons seg rest ih =>
    unfold copySegments
    split
    · exact raises_try (raises_copyLoop _ _ _) fun _ _ _ => ih
    · exact ih

theorem raises_mapSegments (segs : List Segment) : Raises Reported (mapSegments map segs) := by
  induction segs with
  | nil => exact raises_pure _
  | cons seg rest ih =>
    refine raises_try ?_ fun _ _ _ => ih
    unfold mapSegment
    split
    · refine raises_try (raises_lift _) fun _ rc _ => ?_
      split
      · exact raises_throw ⟨_, rfl⟩
      · exact raises_pure _
    · exact raises_pure _

theorem raises_load {slot : UInt8} (h : slot < 2) : Raises Reported (load fb map layout slot) := by
  refine raises_try (raises_validate h) fun _ image _ => ?_
  cases image with
  | none => exact raises_throw ⟨_, rfl⟩
  | some image =>
    refine raises_try (raises_copySegments _) fun _ _ _ => raises_try (raises_lift _) fun _ _ _ => ?_
    refine raises_try (raises_mapSegments _) fun _ _ _ => raises_try (raises_lift _) fun _ _ _ => ?_
    exact raises_try (raises_lift _) fun _ _ _ => raises_pure _

/-! ### A run of `boot`, piece by piece -/

theorem runs_plan {tr : Trace} {p : Layout × Plan fb.Entry}
    (h : Runs (ExceptT.run (plan fb map)) tr (.ok p)) :
    ∃ entries tr', Runs (fb.planBoot entries 2) tr' p.2 := by
  obtain ⟨_, _, _, -, -, h⟩ := runs_try_ok h
  obtain ⟨_, _, _, -, -, h⟩ := runs_try_ok h
  obtain ⟨_, _, entries, -, -, h⟩ := runs_try_ok h
  obtain ⟨_, _, plan, -, hplan, h⟩ := runs_try_ok h
  obtain ⟨-, hp⟩ := runs_ret.mp h
  cases hp
  exact ⟨entries, runs_of_runPlan hplan⟩

/-- The slot that is prepared is the slot of the plan, and the plan is carried out. -/
theorem runs_prepare {tr : Trace} {slot : UInt8}
    (h : Runs (ExceptT.run (prepare fb map)) tr (.ok (layout, slot))) :
    ∃ trp trw plan seq, tr = trp ++ trw ∧
      Runs (ExceptT.run (Bootloader.plan fb map)) trp (.ok (layout, plan)) ∧
      plan.boot = .slot slot seq ∧ Runs (ExceptT.run (executeAll fb layout plan.writes)) trw (.ok ()) := by
  obtain ⟨trp, _, ⟨layout', plan⟩, rfl, hplan, h⟩ := runs_try_ok h
  obtain ⟨_, _, slot', rfl, hslot, h⟩ := runs_try_ok h
  obtain ⟨trw, _, _, rfl, hwrites, h⟩ := runs_try_ok h
  obtain ⟨rfl, hr⟩ := runs_ret.mp h
  cases hr
  obtain ⟨r, hslot, hr⟩ := runs_adapt hslot
  obtain ⟨rfl, rfl⟩ := runs_ret.mp hslot
  cases hdecided : plannedSlot plan.boot with
  | error e =>
    rw [hdecided] at hr
    cases hr
  | ok slot' =>
    rw [hdecided] at hr
    cases hr
    obtain ⟨seq, hseq⟩ := plannedSlot_ok hdecided
    exact ⟨trp, trw, plan, seq, by simp, hplan, hseq, hwrites⟩

theorem raises_boot (hs : fb.SlotLaw) : Raises Reported (boot fb map) := by
  refine raises_try (raises_try (raises_plan hs) fun _ p _ => ?_) fun tr p hprepare => ?_
  · exact raises_try (raises_adapt fun e => ⟨e, rfl⟩) fun _ _ _ =>
      raises_try (raises_executeAll _) fun _ _ _ => raises_pure _
  · obtain ⟨_, _, plan, seq, -, hplan, hboot, -⟩ := runs_prepare hprepare
    obtain ⟨entries, tr', hplan⟩ := runs_plan hplan
    exact raises_load (hs.boots hplan hboot)

/-- The flash commands of the run are a prefix of those of the plan's writes: the writes
are carried out in order, the last one perhaps in part. -/
def Prefixed (fb : Fibewi) (map : MemoryMap) (tr : Trace) : Prop :=
  commands tr = [] ∨ ∃ trp trw layout plan, tr = trp ++ trw ∧
    Runs (ExceptT.run (Bootloader.plan fb map)) trp (.ok (layout, plan)) ∧
    commands tr <+: plan.writes.flatMap (writeCommands fb layout)

theorem prefixed_prepare {tr : Trace} {r : Except Stop (Layout × UInt8)}
    (h : Runs (ExceptT.run (prepare fb map)) tr r) : Prefixed fb map tr := by
  have hquiet : ∀ {tr r}, Runs (ExceptT.run (plan fb map)) tr r → commands tr = [] := fun h =>
    commands_of_among (only_plan fb map) (by decide) h
  rcases runs_try.mp h with ⟨e, hplan, -⟩ | ⟨trp, trw, ⟨layout, plan⟩, rfl, hplan, h⟩
  · exact .inl (hquiet hplan)
  · refine .inr ⟨trp, trw, layout, plan, rfl, hplan, ?_⟩
    have hscript : Scripted (plan.writes.flatMap (writeCommands fb layout)) (do
        let slot ← (Prog.ofExcept (plannedSlot plan.boot)).adapt Stop.error
        executeAll fb layout plan.writes
        return (layout, slot)) := by
      have hslot : Scripted [] ((Prog.ofExcept (plannedSlot plan.boot)).adapt Stop.error :
          BootM UInt8) := by
        refine follows_adapt fun tr r h => ?_
        obtain ⟨rfl, -⟩ := runs_ret.mp h
        exact ⟨List.nil_prefix, fun _ => ⟨rfl, by simp⟩⟩
      exact follows_quiet_try hslot fun slot =>
        follows_last (scripted_executeAll plan.writes) fun _ => follows_pure _
    rw [commands, labels_append, show labels HwOp.cmd? trp = [] from hquiet hplan]
    exact (hscript _ _ h).1

theorem Prefixed.append {tr tr' : Trace} (h : Prefixed fb map tr) (hquiet : commands tr' = []) :
    Prefixed fb map (tr ++ tr') := by
  have heq : commands (tr ++ tr') = commands tr := by
    rw [commands, labels_append, show labels HwOp.cmd? tr' = [] from hquiet, List.append_nil]
  rcases h with h | ⟨trp, trw, layout, plan, rfl, hplan, hfront⟩
  · exact .inl (heq.trans h)
  · refine .inr ⟨trp, trw ++ tr', layout, plan, List.append_assoc .., hplan, ?_⟩
    rw [heq]
    exact hfront

theorem prefixed_boot {tr : Trace} {r : Except Stop UInt32}
    (h : Runs (ExceptT.run (boot fb map)) tr r) : Prefixed fb map tr := by
  rcases runs_try.mp h with ⟨e, h, -⟩ | ⟨tr₁, tr₂, ⟨layout, slot⟩, rfl, h, hload⟩
  · exact prefixed_prepare h
  · exact (prefixed_prepare h).append (labels_eq_nil (only_load fb map layout slot) hload)

/-! ### The jump -/

/-- The parts of a run that jumps to `entry`, in order: the plan, its writes, the check of
the planned slot, the copies into RAM, and the mappings. -/
structure Jumped (fb : Fibewi) (map : MemoryMap) (tr : Trace) (entry : UInt32)
    (layout : Layout) (plan : Plan fb.Entry) (image : Image) (part : UInt32 × UInt32)
    (trp trw trc trm : Trace) : Prop where
  order : tr = trp ++ (trw ++ ⟨.validate part.1 part.2 map, some image⟩ :: (trc ++ trm))
  planned : Runs (ExceptT.run (Bootloader.plan fb map)) trp (.ok (layout, plan))
  planning : ∀ ev ∈ trp, kind ev.1 = .look ∨ kind ev.1 = .judge
  slot : ∃ slot seq, plan.boot = .slot slot seq ∧ layout.app slot = pure part
  executed : ExecutedAll fb layout plan.writes trw
  executing : ∀ ev ∈ trw, kind ev.1 = .look ∨ kind ev.1 = .update
  copied : ∀ seg ∈ nonEmpty image, ∀ target, fb.ramTarget seg map = some target →
    ∀ i < seg.len.toNat, Copied seg target i trc
  copying : ∀ ev ∈ trc, kind ev.1 = .look ∨ kind ev.1 = .copy
  mapped : ∀ seg ∈ nonEmpty image, map.isFlashMapped seg.load → Mapped map seg trm
  mapping : ∀ ev ∈ trm, kind ev.1 = .map
  entry : entry = image.entry

theorem runs_validate {slot : UInt8} {tr : Trace} {answer : Option Image}
    (h : Runs (ExceptT.run (validate layout map slot)) tr (.ok answer)) :
    ∃ part, layout.app slot = pure part ∧ tr = [⟨.validate part.1 part.2 map, answer⟩] := by
  by_cases hslot : slot < 2
  · obtain ⟨part, happ, -⟩ := app_eq (fun _ _ => true) layout hslot
    unfold validate at h
    rw [happ, pure_bind] at h
    obtain ⟨_, h, hr⟩ := runs_lift h
    cases hr
    exact ⟨part, happ, runs_op.mp h⟩
  · unfold validate at h
    rw [app_panic hslot] at h
    obtain ⟨-, hr⟩ := runs_ret.mp h
    cases hr

theorem among_pair {k k' : Kind} {o : HwOp} (h : Among [k, k'] o) : kind o = k ∨ kind o = k' := by
  simpa using h

theorem runs_mappings {image : Image} {tr : Trace} {entry : UInt32}
    (h : Runs (ExceptT.run (do
      let autoload ← ExceptT.lift cacheBeginMapping
      mapSegments map (nonEmpty image)
      ExceptT.lift (cacheFinishMapping autoload)
      ExceptT.lift (delayUs 50000)
      return image.entry : BootM UInt32)) tr (.ok entry)) :
    (∀ seg ∈ nonEmpty image, map.isFlashMapped seg.load → Mapped map seg tr) ∧
      (∀ ev ∈ tr, kind ev.1 = .map) ∧ entry = image.entry := by
  have honly : Only (Among [.map]) (ExceptT.run (do
      let autoload ← ExceptT.lift cacheBeginMapping
      mapSegments map (nonEmpty image)
      ExceptT.lift (cacheFinishMapping autoload)
      ExceptT.lift (delayUs 50000)
      return image.entry : BootM UInt32)) := by
    refine only_try (only_lift (only_op (.head _))) fun _ => only_try (only_mapSegments ..) fun _ => ?_
    refine only_try (only_lift (only_op (.head _))) fun _ => ?_
    exact only_try (only_lift (only_op (.head _))) fun _ => trivial
  refine ⟨fun seg hseg hmapped => ?_, fun ev hev => List.mem_singleton.mp (honly.runs h ev hev), ?_⟩
  · obtain ⟨_, _, _, rfl, -, h⟩ := runs_try_ok h
    obtain ⟨_, _, _, rfl, hmaps, -⟩ := runs_try_ok h
    refine (runs_mapSegments hmaps hseg hmapped).mono fun ev hev => ?_
    exact List.mem_append_right _ (List.mem_append_left _ hev)
  · obtain ⟨_, _, _, -, -, h⟩ := runs_try_ok h
    obtain ⟨_, _, _, -, -, h⟩ := runs_try_ok h
    obtain ⟨_, _, _, -, -, h⟩ := runs_try_ok h
    obtain ⟨_, _, _, -, -, h⟩ := runs_try_ok h
    obtain ⟨-, hr⟩ := runs_ret.mp h
    cases hr
    rfl

theorem jumped_of_runs {tr : Trace} {entry : UInt32}
    (h : Runs (ExceptT.run (boot fb map)) tr (.ok entry)) :
    ∃ layout plan image part trp trw trc trm,
      Jumped fb map tr entry layout plan image part trp trw trc trm := by
  obtain ⟨_, _, ⟨layout, slot⟩, rfl, hprepare, hload⟩ := runs_try_ok h
  obtain ⟨trp, trw, plan, seq, rfl, hplan, hboot, hwrites⟩ := runs_prepare hprepare
  obtain ⟨_, _, answer, rfl, hvalidate, hplace⟩ := runs_try_ok hload
  obtain ⟨part, happ, rfl⟩ := runs_validate hvalidate
  cases answer with
  | none =>
    obtain ⟨-, hr⟩ := runs_ret.mp hplace
    cases hr
  | some image =>
    obtain ⟨trc, _, _, rfl, hcopy, hmapped⟩ := runs_try_ok hplace
    obtain ⟨hmaps, hmapping, hentry⟩ := runs_mappings hmapped
    exact ⟨layout, plan, image, part, trp, trw, trc, _, {
      order := by rw [List.append_assoc]; rfl
      planned := hplan
      planning := fun ev hev => among_pair ((only_plan fb map).runs hplan ev hev)
      slot := ⟨slot, seq, hboot, happ⟩
      executed := runs_executeAll hwrites
      executing := fun ev hev => among_pair ((only_executeAll plan.writes).runs hwrites ev hev)
      copied := fun seg hseg target htarget i hi => runs_copySegments hcopy hseg htarget hi
      copying := fun ev hev =>
        among_pair ((only_copySegments fb map (nonEmpty image)).runs hcopy ev hev)
      mapped := hmaps
      mapping := hmapping
      entry := hentry }⟩

/-- A run of `boot` either jumps, and then everything the image rests on was done and
checked before, or it ends in an error with a prefix of the plan's writes carried out. -/
theorem jump_or_error (hs : fb.SlotLaw) {tr : Trace} {r : Except Stop UInt32}
    (h : Runs (ExceptT.run (boot fb map)) tr r) :
    (∃ entry layout plan image part trp trw trc trm, r = .ok entry ∧
      Jumped fb map tr entry layout plan image part trp trw trc trm) ∨
    (∃ e, r = .error (.error e) ∧ Prefixed fb map tr) := by
  cases r with
  | ok entry =>
    obtain ⟨layout, plan, image, part, trp, trw, trc, trm, hjumped⟩ := jumped_of_runs h
    exact .inl ⟨entry, layout, plan, image, part, trp, trw, trc, trm, rfl, hjumped⟩
  | error stop =>
    obtain ⟨e, rfl⟩ := raises_boot hs _ _ h
    exact .inr ⟨e, rfl, prefixed_boot h⟩

/-- An image of one segment, which is copied into RAM. -/
def copiedImage : Image where
  entry := 0x40380000
  segments := [⟨0x3FC90000, 300, 0x50000⟩]

def markedBoot : State := ⟨Sample.otaFlash (Sample.encode ⟨1, Sample.VALID⟩, Sample.encode ⟨2, Sample.NEW⟩), [], 0⟩

def markedDevice : Device HwOp HwOp.Ans State := romDevice perfect (steady fun _ _ => some copiedImage)

theorem markedBoot_run :
    ((ExceptT.run (boot Sample.fibewi esp32c3)).run markedDevice markedBoot).1 = .ok 0x40380000 ∧
    commands ((ExceptT.run (boot Sample.fibewi esp32c3)).events markedDevice markedBoot) =
      [.erase 0xE000 0xF000, .program 0xE000 ((Sample.encode ⟨2, Sample.PENDING_VERIFY⟩).take 16),
        .program 0xE010 ((Sample.encode ⟨2, Sample.PENDING_VERIFY⟩).drop 16)] ∧
    (((ExceptT.run (boot Sample.fibewi esp32c3)).events markedDevice markedBoot).filter
      fun ev => kind ev.1 = .copy).length = 2 := by
  decide +kernel

/-- A new entry is marked pending, and its image copied. -/
theorem jump_or_error_marked :
    let tr := (ExceptT.run (boot Sample.fibewi esp32c3)).events markedDevice markedBoot
    commands tr = [.erase 0xE000 0xF000, .program 0xE000 ((Sample.encode ⟨2, Sample.PENDING_VERIFY⟩).take 16),
      .program 0xE010 ((Sample.encode ⟨2, Sample.PENDING_VERIFY⟩).drop 16)] ∧
    (tr.filter fun ev => kind ev.1 = .copy).length = 2 ∧
    ∃ layout plan image part trp trw trc trm,
      Jumped Sample.fibewi esp32c3 tr 0x40380000 layout plan image part trp trw trc trm := by
  intro tr
  obtain ⟨hok, hcommands, hcopies⟩ := markedBoot_run
  have hruns : Runs (ExceptT.run (boot Sample.fibewi esp32c3)) tr (.ok 0x40380000) := hok ▸ runs_events ..
  refine ⟨hcommands, hcopies, ?_⟩
  obtain ⟨entry, layout, plan, image, part, trp, trw, trc, trm, heq, hjumped⟩ | ⟨e, he, -⟩ :=
    jump_or_error Sample.slotLaw hruns
  · cases heq
    exact ⟨layout, plan, image, part, trp, trw, trc, trm, hjumped⟩
  · cases he

end Espbewi.System
