import Espbewi.System.Promotion

/-! The phases of an update, which every lifetime follows. -/

namespace Espbewi.System

open Lib Nor Boot Hw Platform Otadata Bootloader Prog SharedFlash
open Relation (ReflTransGen)

/-- An image is confirmed; then the other slot is activated, and tried. -/
inductive UpdatePhase
  | confirmed (x : AppSlot) (image : Image)
  | staged (x : AppSlot) (image : Image) (y : AppSlot)
  | trial (x : AppSlot) (image : Image) (y : AppSlot) (next : Image)

/-- The slot and the image that were confirmed last. -/
def UpdatePhase.base : UpdatePhase → AppSlot × Image
  | .confirmed x image => (x, image)
  | .staged x image _ => (x, image)
  | .trial x image _ _ => (x, image)

/-- What moves the update: a call, and whether it returned `Ok`, or a boot, and what the slots held. -/
inductive Act
  | call (call : Call) (ok : Bool)
  | boot (held : AppSlot → Option Image)

/-- Where a call leads that does what it says. -/
def UpdatePhase.after : Call → UpdatePhase → UpdatePhase
  | .activate y, .confirmed x image => .staged x image y
  | .activate y, .staged x image _ => .staged x image y
  | .confirm, .trial _ _ y next => .confirmed y next
  | .reject, .trial x image _ _ => .confirmed x image
  | _, u => u

/-- Where the loss of the entry beside the valid one leads. -/
def UpdatePhase.fallback (u : UpdatePhase) : UpdatePhase := .confirmed u.base.1 u.base.2

/-- A call that returned `Ok` did what it says; another may have done it, or nothing, or lost the entry that it was to
replace. A boot puts on trial what the activated slot holds. -/
inductive UpdatePhase.Step : Act → UpdatePhase → UpdatePhase → Prop
  | done {call : Call} {ok : Bool} {u : UpdatePhase} : Step (.call call ok) u (u.after call)
  | undone {call : Call} {u : UpdatePhase} : Step (.call call false) u u
  | torn {call : Call} {u : UpdatePhase} : Step (.call call false) u u.fallback
  | idle {held : AppSlot → Option Image} {u : UpdatePhase} : Step (.boot held) u u
  | tried {held : AppSlot → Option Image} {x y : AppSlot} {image next : Image} : held y = some next →
      Step (.boot held) (.staged x image y) (.trial x image y next)
  | dropped {held : AppSlot → Option Image} {u : UpdatePhase} : Step (.boot held) u u.fallback

/-- The phases that these acts may lead through. -/
inductive UpdatePhase.Path : List Act → UpdatePhase → UpdatePhase → Prop
  | nil {u : UpdatePhase} : Path [] u u
  | snoc {acts : List Act} {act : Act} {u u' u'' : UpdatePhase} : Path acts u u' → Step act u' u'' →
      Path (acts ++ [act]) u u''

namespace UpdatePhase

variable {u u' u'' : UpdatePhase} {act : Act} {acts acts' : List Act}

theorem Path.single (h : Step act u u') : Path [act] u u' := .snoc .nil h

theorem Path.trans (h : Path acts u u') (h' : Path acts' u' u'') : Path (acts ++ acts') u u'' := by
  induction h' with
  | nil => rwa [List.append_nil]
  | snoc _ hstep ih =>
    rw [← List.append_assoc]
    exact .snoc (ih h) hstep

/-- Another image is confirmed only by `confirm` while it is on trial. -/
theorem Step.base (h : Step act u u') : u'.base = u.base ∨ ∃ ok x image y next, act = .call .confirm ok ∧
    u = .trial x image y next ∧ u'.base = (y, next) := by
  cases h with
  | @done call ok =>
    cases u with
    | confirmed x image | staged x image y => cases call <;> exact .inl rfl
    | trial x image y next =>
      cases call with
      | confirm => exact .inr ⟨ok, x, image, y, next, rfl, rfl, rfl⟩
      | reject | activate target => exact .inl rfl
  | undone | torn | idle | tried | dropped => exact .inl rfl

theorem Path.base (h : Path acts u u') : u'.base = u.base ∨ ∃ before ok after x image y next,
    acts = before ++ .call .confirm ok :: after ∧ Path before u (.trial x image y next) ∧ u'.base = (y, next) := by
  induction h with
  | nil => exact .inl rfl
  | @snoc acts act u u₁ u₂ hpath hstep ih =>
    obtain hsame | ⟨ok, x, image, y, next, rfl, rfl, hconfirmed⟩ := hstep.base
    · rw [hsame]
      refine ih.imp_right ?_
      rintro ⟨before, ok, after, x, image, y, next, rfl, htrial, hconfirmed⟩
      exact ⟨before, ok, after ++ [act], x, image, y, next, by simp, htrial, hconfirmed⟩
    · exact .inr ⟨acts, ok, [], x, image, y, next, rfl, hpath, hconfirmed⟩

end UpdatePhase

/-- The images that a boot may jump to, where `held` tells what the slots hold. -/
inductive UpdatePhase.Boots (held : AppSlot → Option Image) : UpdatePhase → Image → Prop
  | confirmed {x : AppSlot} {image : Image} : Boots held (.confirmed x image) image
  | unstaged {x y : AppSlot} {image : Image} : Boots held (.staged x image y) image
  | staged {x y : AppSlot} {image next : Image} : held y = some next → Boots held (.staged x image y) next
  | untried {x y : AppSlot} {image next : Image} : Boots held (.trial x image y next) image
  | trial {x y : AppSlot} {image next : Image} : Boots held (.trial x image y next) next

variable {idf : EspIdf} {fb : Fibewi} {bootable : fb.Entry → Prop} {entries entries' : Entries} {ok : UInt8 → Bool}
  {write : Write fb.Entry} {sector sector' : UInt8} {e e' : fb.Entry} {K : fb.Entry → Prop}

/-! ### The entry beside the valid one -/

/-- A valid entry, and `K` for the one in the other sector, if it is live. -/
structure Poised (fb : Fibewi) (bootable : fb.Entry → Prop) (K : fb.Entry → Prop) (entries : Entries) (sector : UInt8)
    (e : fb.Entry) : Prop where
  entry : fb.entryOf entries sector = some e
  valid : fb.state e = fb.VALID
  others : ∀ sector' e', ¬ (sector = 0 ↔ sector' = 0) → fb.entryOf entries sector' = some e' →
    fb.Live bootable e' → K e'

theorem Poised.wrote (h : Poised fb bootable K entries sector e) (hw : Wrote fb write entries entries')
    (hne : ¬ (sector = 0 ↔ write.sector = 0)) (hK : fb.Live bootable write.entry → K write.entry) :
    Poised fb bootable K entries' sector e where
  entry := (hw.other hne).trans h.entry
  valid := h.valid
  others sector' e' hne' he' hlive := by
    rcases hw.cases he' with he | ⟨-, rfl⟩
    · exact h.others _ _ hne' he hlive
    · exact hK hlive

/-- The other entry is dead, or activated, or on trial. -/
theorem Poised.cases (h : Poised fb bootable K entries sector e)
    (hK : ∀ e', K e' → fb.seq e < fb.seq e' ∧ fb.state e' ≠ fb.VALID) :
    Newest fb bootable entries sector e ∨ ∃ sector' e', K e' ∧
      (Promoted fb bootable entries sector e sector' e' ∨ OnTrial fb entries sector e sector' e') := by
  by_cases hlive : ∃ sector' e', ¬ (sector = 0 ↔ sector' = 0) ∧ fb.entryOf entries sector' = some e' ∧
      fb.Live bootable e'
  · obtain ⟨sector', e', hne, he', hlive⟩ := hlive
    have hk := h.others _ _ hne he' hlive
    obtain ⟨hlt, hvalid⟩ := hK e' hk
    refine .inr ⟨sector', e', hk, ?_⟩
    by_cases hrun : fb.Running e'
    · exact .inr ⟨h.entry, h.valid, he', hrun.resolve_left hvalid, UInt32.le_of_lt hlt⟩
    · exact .inl ⟨h.entry, h.valid, he', hlive.resolve_right hrun, hrun, hlt⟩
  · refine .inl ⟨h.entry, h.valid, fun sector' e' he' hl => ?_⟩
    by_cases heq : sector = 0 ↔ sector' = 0
    · cases entry_unique heq h.entry he'
      exact UInt32.le_refl _
    · exact absurd ⟨sector', e', heq, he', hl⟩ hlive

/-- As long as the write is not completed. -/
theorem Poised.unwrote (h : Poised fb bootable K entries sector e) (hw : Wrote fb write entries entries')
    (hne : ¬ (sector = 0 ↔ write.sector = 0)) (hnot : fb.entryOf entries' write.sector ≠ some write.entry) :
    Poised fb bootable K entries' sector e where
  entry := (hw.other hne).trans h.entry
  valid := h.valid
  others sector' e' hne' he' hlive := by
    rcases hw.cases he' with he | ⟨heq, rfl⟩
    · exact h.others _ _ hne' he hlive
    · exact absurd ((Fibewi.entryOf_congr heq).symm.trans he') hnot

theorem Newest.poised (h : Newest fb bootable entries sector e) :
    Poised fb bootable (fun e' => fb.seq e' ≤ fb.seq e) entries sector e :=
  ⟨h.entry, h.valid, fun sector' e' _ he' hlive => h.newest sector' e' he' hlive⟩

theorem Poised.newest (h : Poised fb bootable (fun e' => fb.seq e' ≤ fb.seq e) entries sector e) :
    Newest fb bootable entries sector e where
  entry := h.entry
  valid := h.valid
  newest sector' e' he' hlive := by
    by_cases heq : sector = 0 ↔ sector' = 0
    · cases entry_unique heq h.entry he'
      exact UInt32.le_refl _
    · exact h.others _ _ heq he' hlive

theorem Promoted.poised (h : Promoted fb bootable entries sector e sector' e') (hK : K e') :
    Poised fb bootable K entries sector e :=
  ⟨h.old, h.valid, fun _ _ hne he _ => h.other hne he ▸ hK⟩

theorem OnTrial.poised (hstates : fb.VALID ≠ fb.PENDING_VERIFY) (h : OnTrial fb entries sector e sector' e')
    (hK : K e') : Poised fb bootable K entries sector e :=
  ⟨h.old, h.valid, fun _ _ hne he _ => h.other hstates hne he ▸ hK⟩

/-- What a plan writes beside the valid entry has the same number as the entry there, and runs an accepted image. -/
theorem Poised.plan (hpl : fb.SparingLaw) (hrl : fb.RevivalLaw bootable) (htrial : fb.TrialLaw)
    (hstage : fb.StagingLaw bootable) (hok : ok (fb.slotOf (fb.seq e) 2) = true)
    (h : Poised fb bootable K entries sector e)
    (hK : ∀ e₁ e₂, K e₁ → fb.seq e₂ = fb.seq e₁ → fb.Running e₂ → fb.state e₂ ≠ fb.VALID →
      ok (fb.slotOf (fb.seq e₂) 2) = true → K e₂)
    (hw : WroteAll fb (fb.planned entries ok).writes entries entries') : Poised fb bootable K entries' sector e := by
  refine hw.preserves (J := fun entries => Poised fb bootable K entries sector e) ?_ h
  intro write hmem _ _ hwrote h'
  have hne := planned_beside hpl hmem h.entry h.valid hok
  refine h'.wrote hwrote hne fun hlive => ?_
  obtain ⟨e₁, he₁, hlive₁, hseq⟩ := (hrl.revived hmem hlive).resolve_right (not_blank h.entry)
  have hrun := hlive.elim (hstage _ _ write hmem) id
  have hvalid : fb.state write.entry ≠ fb.VALID := fun hvalid => not_blank h.entry (htrial _ _ write hmem hvalid)
  exact hK e₁ _ (h.others _ _ hne he₁ hlive₁) hseq hrun hvalid (hpl.marked hmem hrun)

theorem Promoted.targetSlot_ne (h : Promoted fb bootable entries sector e sector' e') {z : AppSlot}
    (htarget : targetSlot fb entries = some z) : slotIndex z ≠ fb.slotOf (fb.seq e) 2 := by
  have hgoverns : Governs fb entries (fb.slotOf (fb.seq e) 2) := fun seq hseq _ => by
    obtain ⟨sector₁, e₁, he₁, hrun, rfl⟩ := hseq
    rcases h.cases he₁ with rfl | rfl
    · rfl
    · exact absurd hrun h.stopped
  exact hgoverns.targetSlot_ne htarget

/-- While nothing is pending, an activated entry is the only one that is overwritten. -/
theorem Promoted.aside (htl : fb.TransitionLaw) (h : Promoted fb bootable entries sector e sector' e') {slot : UInt8}
    (hw : fb.activate entries 2 slot = some write) (hsector : write.sector < 2) :
    ¬ (sector = 0 ↔ write.sector = 0) := by
  intro heq
  obtain ⟨e₁, he₁, hrun, -⟩ := (htl.activate hw).2 e (Fibewi.entryOf_congr heq ▸ h.old) (.inl h.valid)
  have hne : ¬ (sector = 0 ↔ 1 - write.sector = 0) := fun h => one_sub_sector hsector (h.symm.trans heq)
  exact h.stopped (h.other hne he₁ ▸ hrun)

theorem Promoted.not_pending (hstates : fb.VALID ≠ fb.PENDING_VERIFY)
    (h : Promoted fb bootable entries sector e sector' e') {sector₁ : UInt8} {e₁ : fb.Entry}
    (he : fb.entryOf entries sector₁ = some e₁) : fb.state e₁ ≠ fb.PENDING_VERIFY := by
  rcases h.cases he with rfl | rfl
  · exact fun hpending => hstates (h.valid.symm.trans hpending)
  · exact fun hpending => h.stopped (.inr hpending)

/-- An entry that may take the place of the valid one: of this number, and on trial only with an accepted image. -/
structure Rival (fb : Fibewi) (ok : UInt8 → Bool) (q : UInt32) (e' : fb.Entry) : Prop where
  seq : fb.seq e' = q
  unconfirmed : fb.state e' ≠ fb.VALID
  accepted : fb.Running e' → ok (fb.slotOf q 2) = true

theorem Promoted.rival (h : Promoted fb bootable entries sector e sector' e') : Rival fb ok (fb.seq e') e' :=
  ⟨rfl, fun hvalid => h.stopped (.inl hvalid), fun hrun => absurd hrun h.stopped⟩

theorem OnTrial.rival (hstates : fb.VALID ≠ fb.PENDING_VERIFY) (h : OnTrial fb entries sector e sector' e')
    (hok : ok (fb.slotOf (fb.seq e') 2) = true) : Rival fb ok (fb.seq e') e' :=
  ⟨rfl, fun hvalid => hstates (hvalid.symm.trans h.pending), fun _ => hok⟩

/-! ### The flash -/

variable {H : Sha256} {g : Geometry} {w : Nat} {E : Engine} {M : FlashMap}
  {judge : Flash → UInt32 → UInt32 → Option Image} {layout : Layout} {b : Behaviour} {s s' : State} {f f' : Flash}
  {x y : AppSlot} {image next : Image} {ev : Served idf fb H g w E M}

/-- The image that slot `z` holds. -/
abbrev imageIn (judge : Flash → UInt32 → UInt32 → Option Image) (layout : Layout) (z : AppSlot)
    (f : Flash) : Option Image :=
  judge f (partition layout z).1 (partition layout z).2

/-- A valid entry of the slot that holds this image. -/
structure Based (idf : EspIdf) (fb : Fibewi) (M : FlashMap) (judge : Flash → UInt32 → UInt32 → Option Image)
    (layout : Layout) (x : AppSlot) (image : Image) (e : fb.Entry) (f : Flash) : Prop extends
    Charted idf fb M layout f where
  slot : fb.slotOf (fb.seq e) 2 = slotIndex x
  image : imageIn judge layout x f = some image

theorem Based.accepts (h : Based idf fb M judge layout x image e f) :
    System.accepts judge layout f (fb.slotOf (fb.seq e) 2) = true :=
  h.slot ▸ accepts_of_judge h.image

/-- How the flash is in each phase. -/
inductive InPhase (idf : EspIdf) (fb : Fibewi) (bootable : fb.Entry → Prop) (M : FlashMap)
    (judge : Flash → UInt32 → UInt32 → Option Image) (layout : Layout) (f : Flash) : UpdatePhase → Prop
  | confirmed {x : AppSlot} {image : Image} {sector : UInt8} {e : fb.Entry} : Based idf fb M judge layout x image e f →
      Newest fb bootable (entriesAt fb f M.ota.offset) sector e →
      InPhase idf fb bootable M judge layout f (.confirmed x image)
  | staged {x y : AppSlot} {image : Image} {sector sector' : UInt8} {e e' : fb.Entry} :
      Based idf fb M judge layout x image e f →
      Promoted fb bootable (entriesAt fb f M.ota.offset) sector e sector' e' → fb.slotOf (fb.seq e') 2 = slotIndex y →
      InPhase idf fb bootable M judge layout f (.staged x image y)
  | trial {x y : AppSlot} {image next : Image} {sector sector' : UInt8} {e e' : fb.Entry} :
      Based idf fb M judge layout x image e f →
      OnTrial fb (entriesAt fb f M.ota.offset) sector e sector' e' → fb.seq e < fb.seq e' →
      fb.slotOf (fb.seq e') 2 = slotIndex y → imageIn judge layout y f = some next →
      InPhase idf fb bootable M judge layout f (.trial x image y next)

theorem InPhase.charted {u : UpdatePhase} (h : InPhase idf fb bootable M judge layout f u) :
    Charted idf fb M layout f := by
  cases h with
  | confirmed hbased | staged hbased | trial hbased => exact hbased.toCharted

/-- The phase that the entry beside the valid one tells. -/
theorem Poised.phase {q : UInt32} (hbased : Based idf fb M judge layout x image e f)
    (h : Poised fb bootable K (entriesAt fb f M.ota.offset) sector e)
    (hK : ∀ e', K e' → Rival fb (accepts judge layout f) q e') (hlt : fb.seq e < q)
    (hy : fb.slotOf q 2 = slotIndex y) :
    InPhase idf fb bootable M judge layout f (.confirmed x image) ∨
      (∃ e', K e' ∧ ¬ fb.Running e') ∧ InPhase idf fb bootable M judge layout f (.staged x image y) ∨
      (∃ e', K e' ∧ fb.Running e') ∧ ∃ next, imageIn judge layout y f = some next ∧
        InPhase idf fb bootable M judge layout f (.trial x image y next) := by
  rcases h.cases fun e' hk => ⟨(hK e' hk).seq ▸ hlt, (hK e' hk).unconfirmed⟩ with
    hnewest | ⟨sector', e', hk, hpromoted | hontrial⟩
  · exact .inl (.confirmed hbased hnewest)
  · exact .inr (.inl ⟨⟨e', hk, hpromoted.stopped⟩, .staged hbased hpromoted ((hK e' hk).seq ▸ hy)⟩)
  · have hrun : fb.Running e' := .inr hontrial.pending
    have haccepted := (hK e' hk).accepted hrun
    rw [hy, accepts_slotIndex] at haccepted
    obtain ⟨next, hnext⟩ := Option.isSome_iff_exists.mp haccepted
    exact .inr (.inr ⟨⟨e', hk, hrun⟩, next, hnext,
      .trial hbased hontrial ((hK e' hk).seq ▸ hlt) ((hK e' hk).seq ▸ hy) hnext⟩)

/-! ### Steps -/

theorem Based.frame (hj : Judged judge) (hsame : SameSlots layout M) (h : Based idf fb M judge layout x image e f)
    (hcharted : Charted idf fb M layout f') {r : Region} (hframe : r.Frame f f')
    (hr : r.Apart (.ofSlot (M.slot x))) : Based idf fb M judge layout x image e f' :=
  ⟨hcharted, h.slot, (judge_frame hj hsame hframe hr).trans h.image⟩

section Calls

variable (htl : fb.TransitionLaw) (hal : fb.ActivateLaw) (hbl : fb.BootLaw bootable) (hrl : fb.RevivalLaw bootable)
  (hstates : fb.VALID ≠ fb.PENDING_VERIFY) {call : Call}
  (hw : call.decision fb (entriesAt fb f M.ota.offset) = some write)
  (hprudent : ∀ target, call = .activate target → imageOutcome fb (entriesAt fb f M.ota.offset) = .confirmed)
  (hsector : write.sector < 2) (hwrote : Wrote fb write (entriesAt fb f M.ota.offset) (entriesAt fb f' M.ota.offset))
  {returned : Bool}
  (hreturned : returned = true → fb.entryOf (entriesAt fb f' M.ota.offset) write.sector = some write.entry)
  (hbase : ∀ {x image e}, Based idf fb M judge layout x image e f → Based idf fb M judge layout x image e f')
  (hbased : Based idf fb M judge layout x image e f)

include htl hal hbl hrl hstates hw hprudent hsector hwrote hreturned hbase hbased

theorem Newest.phase_call (h : Newest fb bootable (entriesAt fb f M.ota.offset) sector e) :
    ∃ u', UpdatePhase.Step (.call call returned) (.confirmed x image) u' ∧
      InPhase idf fb bootable M judge layout f' u' := by
  cases call with
  | confirm | reject => exact ⟨_, .done, .confirmed (hbase hbased) (h.call htl hrl hstates hw nofun hwrote)⟩
  | activate target =>
    obtain ⟨sector₀, e₀, hnewest, hseq, hne⟩ := h.aside htl (hprudent _ rfl) hw hsector
    have hbased₀ : Based idf fb M judge layout x image e₀ f :=
      ⟨hbased.toCharted, hseq ▸ hbased.slot, hbased.image⟩
    by_cases hnew : fb.entryOf (entriesAt fb f' M.ota.offset) write.sector = some write.entry
    · have hold := (hwrote.other hne).trans hnewest.entry
      exact ⟨_, .done, .staged (hbase hbased₀)
        (promoted_of_activate htl hal hbl hw hnewest.entry hnewest.valid hold hnew) (hal.slot hw)⟩
    · obtain rfl : returned = false := Bool.eq_false_iff.mpr (mt hreturned hnew)
      exact ⟨_, .undone, .confirmed (hbase hbased₀) (hnewest.poised.unwrote hwrote hne hnew).newest⟩

omit hrl hprudent in
theorem Promoted.phase_call (h : Promoted fb bootable (entriesAt fb f M.ota.offset) sector e sector' e')
    (hy : fb.slotOf (fb.seq e') 2 = slotIndex y) :
    ∃ u', UpdatePhase.Step (.call call returned) (.staged x image y) u' ∧
      InPhase idf fb bootable M judge layout f' u' := by
  cases call with
  | confirm =>
    obtain ⟨e₁, he₁, hpending, -⟩ := htl.confirm hw
    exact absurd hpending (h.not_pending hstates he₁)
  | reject =>
    obtain ⟨e₁, he₁, hpending, -⟩ := htl.reject hw
    exact absurd hpending (h.not_pending hstates he₁)
  | activate target =>
    have hne := h.aside htl hw hsector
    by_cases hnew : fb.entryOf (entriesAt fb f' M.ota.offset) write.sector = some write.entry
    · have hold := (hwrote.other hne).trans h.old
      exact ⟨_, .done, .staged (hbase hbased)
        (promoted_of_activate htl hal hbl hw h.old h.valid hold hnew) (hal.slot hw)⟩
    · obtain rfl : returned = false := Bool.eq_false_iff.mpr (mt hreturned hnew)
      rcases ((h.poised (K := fun e₁ => e₁ = e') rfl).unwrote hwrote hne hnew).phase (hbase hbased)
        (fun e₁ he₁ => by rw [he₁]; exact h.rival) h.newer hy with hlost | ⟨-, hkept⟩ | ⟨⟨e₁, rfl, hrun⟩, -⟩
      · exact ⟨_, .torn, hlost⟩
      · exact ⟨_, .undone, hkept⟩
      · exact absurd hrun h.stopped

omit hal hbl hsector in
theorem OnTrial.phase_call (h : OnTrial fb (entriesAt fb f M.ota.offset) sector e sector' e')
    (hlt : fb.seq e < fb.seq e') (hy : fb.slotOf (fb.seq e') 2 = slotIndex y)
    (hnext : imageIn judge layout y f = some next) (hnext' : imageIn judge layout y f' = some next) :
    ∃ u', UpdatePhase.Step (.call call returned) (.trial x image y next) u' ∧
      InPhase idf fb bootable M judge layout f' u' := by
  have haccepted : accepts judge layout f' (fb.slotOf (fb.seq e') 2) = true := hy ▸ accepts_of_judge hnext'
  -- unless the verdict is written, the trial goes on or ends without one
  have hunwritten : ¬ (sector = 0 ↔ write.sector = 0) →
      fb.entryOf (entriesAt fb f' M.ota.offset) write.sector ≠ some write.entry →
      ∃ u', UpdatePhase.Step (.call call returned) (.trial x image y next) u' ∧
        InPhase idf fb bootable M judge layout f' u' := by
    intro hne hnew
    obtain rfl : returned = false := Bool.eq_false_iff.mpr (mt hreturned hnew)
    rcases ((h.poised (K := fun e₁ => e₁ = e') hstates rfl).unwrote hwrote hne hnew).phase (hbase hbased)
      (fun e₁ he₁ => by rw [he₁]; exact h.rival hstates haccepted) hlt hy with
      hlost | ⟨⟨e₁, rfl, hstopped⟩, -⟩ | ⟨-, next', himage, hkept⟩
    · exact ⟨_, .torn, hlost⟩
    · exact absurd (.inr h.pending) hstopped
    · cases hnext'.symm.trans himage
      exact ⟨_, .undone, hkept⟩
  cases call with
  | confirm =>
    obtain ⟨e₁, he₁, hpending, hseq, hvalid⟩ := htl.confirm hw
    have hne := pending_elsewhere hstates h.old h.valid he₁ hpending
    have hsame := h.other hstates hne he₁
    by_cases hnew : fb.entryOf (entriesAt fb f' M.ota.offset) write.sector = some write.entry
    · have hseq' : fb.seq write.entry = fb.seq e' := hsame ▸ hseq
      have hold := (hwrote.other hne).trans h.old
      have hbased' : Based idf fb M judge layout y next write.entry f :=
        ⟨hbased.toCharted, hseq' ▸ hy, hnext⟩
      exact ⟨_, .done, .confirmed (hbase hbased') (h.confirmed hne hold hnew hvalid hseq')⟩
    · exact hunwritten hne hnew
  | reject =>
    obtain ⟨e₁, he₁, hpending, hstopped⟩ := htl.reject hw
    have hne := pending_elsewhere hstates h.old h.valid he₁ hpending
    by_cases hnew : fb.entryOf (entriesAt fb f' M.ota.offset) write.sector = some write.entry
    · have hold := (hwrote.other hne).trans h.old
      exact ⟨_, .done, .confirmed (hbase hbased)
        (h.rejected hne hold hnew (not_or.mpr ⟨hrl.rejected hw, hstopped⟩))⟩
    · exact hunwritten hne hnew
  | activate target => exact absurd (hprudent _ rfl) (h.unconfirmed hstates)

end Calls

section Steps

variable (hl : fb.OpsLaw) (hsl : fb.SectorLaw) (hj : Judged judge) (hsame : SameSlots layout M)

include hl hsl hj hsame

/-- A call that updates no boot entry keeps the phase. -/
theorem InPhase.frame (hstates : fb.VALID ≠ fb.PENDING_VERIFY) {u : UpdatePhase}
    (h : InPhase idf fb bootable M judge layout f u) {c : Request E M} (hc : c.call? = none) (hprudent : Prudent fb f c)
    (hcut : RequestCut fb c f f') : InPhase idf fb bootable M judge layout f' u := by
  have hcharted : Charted idf fb M layout f → Charted idf fb M layout f' := fun h => h.request hl hsl hcut
  have hframe := hcut.frame hc
  have hentries : entriesAt fb f' M.ota.offset = entriesAt fb f M.ota.offset :=
    entriesAt_frame hl (region_ota hc) hframe
  cases h with
  | @confirmed x image sector e hbased hnewest =>
    have hother : ¬ Request.Writes x c := fun hx =>
      hnewest.targetSlot_ne (hprudent.of_writes hx).2 hbased.slot.symm
    exact .confirmed (hbased.frame hj hsame (hcharted hbased.toCharted) hframe (region_other hother))
      (hentries ▸ hnewest)
  | @staged x y image sector sector' e e' hbased hpromoted hy =>
    have hother : ¬ Request.Writes x c := fun hx =>
      hpromoted.targetSlot_ne (hprudent.of_writes hx).2 hbased.slot.symm
    exact .staged (hbased.frame hj hsame (hcharted hbased.toCharted) hframe (region_other hother))
      (hentries ▸ hpromoted) hy
  | trial hbased hontrial hlt hy hnext =>
    -- nothing is uploaded during a trial
    have hother : ∀ z, ¬ Request.Writes z c := fun z hz => hontrial.unconfirmed hstates (hprudent.of_writes hz).1
    exact .trial (hbased.frame hj hsame (hcharted hbased.toCharted) hframe (region_other (hother _)))
      (hentries ▸ hontrial) hlt hy ((judge_frame hj hsame hframe (region_other (hother _))).trans hnext)

/-- What a call leaves that updates a boot entry, whether it returned or was cut. -/
theorem InPhase.call (htl : fb.TransitionLaw) (hal : fb.ActivateLaw) (hbl : fb.BootLaw bootable)
    (hrl : fb.RevivalLaw bootable) (hstates : fb.VALID ≠ fb.PENDING_VERIFY) {u : UpdatePhase}
    (h : InPhase idf fb bootable M judge layout f u) {c : Request E M} (hprudent : Prudent fb f c) {call : Call}
    (hc : c.call? = some call) (hcut : RequestCut fb c f f') (returned : Bool)
    (hreturned : returned = true → ∃ write, call.decision fb (entriesAt fb f M.ota.offset) = some write ∧
      fb.entryOf (entriesAt fb f' M.ota.offset) write.sector = some write.entry) :
    ∃ u', UpdatePhase.Step (.call call returned) u u' ∧ InPhase idf fb bootable M judge layout f' u' := by
  have hcharted : Charted idf fb M layout f → Charted idf fb M layout f' := fun h => h.request hl hsl hcut
  have hactivate := hprudent.of_call hc
  have hupdate : ∀ {write}, call.decision fb (entriesAt fb f M.ota.offset) = some write →
      Wrote fb write (entriesAt fb f M.ota.offset) (entriesAt fb f' M.ota.offset) → (Region.ofEntry M.ota).Frame f f' →
      ∃ u', UpdatePhase.Step (.call call returned) u u' ∧ InPhase idf fb bootable M judge layout f' u' := by
    intro write hw hwrote hframe
    have hsector := Call.sector_lt hsl hw
    have hbase : ∀ {x image e}, Based idf fb M judge layout x image e f → Based idf fb M judge layout x image e f' :=
      fun h => h.frame hj hsame (hcharted h.toCharted) hframe (ota_slot _)
    have hnew : returned = true → fb.entryOf (entriesAt fb f' M.ota.offset) write.sector = some write.entry := by
      intro hok
      obtain ⟨write', hw', hentry⟩ := hreturned hok
      cases hw.symm.trans hw'
      exact hentry
    cases h with
    | confirmed hbased hnewest =>
      exact hnewest.phase_call htl hal hbl hrl hstates hw hactivate hsector hwrote hnew hbase hbased
    | staged hbased hpromoted hy =>
      exact hpromoted.phase_call htl hal hbl hstates hw hsector hwrote hnew hbase hbased hy
    | @trial x y image next sector sector' e e' hbased hontrial hlt hy hnext =>
      exact hontrial.phase_call htl hrl hstates hw hactivate hwrote hnew hbase hbased hlt hy hnext
        ((judge_frame hj hsame hframe (ota_slot y)).trans hnext)
  rcases hcut.cases with ⟨hnone, -⟩ | rfl | ⟨call', write, hc', hw, hu⟩
  · cases hnone.symm.trans hc
  · cases hw : call.decision fb (entriesAt fb f' M.ota.offset) with
    | some write => exact hupdate hw (fun _ => .inl rfl) (.refl _ _)
    | none =>
      -- a call that has nothing to write does not return `Ok`
      obtain rfl : returned = false := Bool.eq_false_iff.mpr fun hok => by
        obtain ⟨write, hw', -⟩ := hreturned hok
        cases hw.symm.trans hw'
      exact ⟨u, .undone, h⟩
  · cases hc.symm.trans hc'
    exact hupdate hw (hu.wrote hl) (Elsewhere.frame (Call.sector_lt hsl hw) hu.safe.outside)

/-- What a boot leaves, cut anywhere. -/
theorem InPhase.boot (hpl : fb.SparingLaw) (hrl : fb.RevivalLaw bootable) (htrial : fb.TrialLaw)
    (hstage : fb.StagingLaw bootable) (hstates : fb.VALID ≠ fb.PENDING_VERIFY) {u : UpdatePhase}
    (h : InPhase idf fb bootable M judge layout f u)
    (hcut : WritesCut fb M.ota.offset (bootPlan fb judge layout M.ota.offset f).writes f f') :
    ∃ u', UpdatePhase.Step (.boot fun z => imageIn judge layout z f) u u' ∧
      InPhase idf fb bootable M judge layout f' u' := by
  have hsectors : ∀ write ∈ (bootPlan fb judge layout M.ota.offset f).writes, write.sector < 2 := bootPlan_sectors hsl
  have hframe := hcut.frame hsectors
  have hwrote := hcut.wrote hl
  have hok : accepts judge layout f' = accepts judge layout f := accepts_frame hj hsame hframe ota_slot
  have hbase : ∀ {x image e}, Based idf fb M judge layout x image e f → Based idf fb M judge layout x image e f' :=
    fun h => h.frame hj hsame (h.toCharted.writes hl hsectors hcut) hframe (ota_slot _)
  have hrival : ∀ {q : UInt32} {e₁ e₂ : fb.Entry}, Rival fb (accepts judge layout f) q e₁ → fb.seq e₂ = fb.seq e₁ →
      fb.state e₂ ≠ fb.VALID → accepts judge layout f (fb.slotOf (fb.seq e₂) 2) = true →
      Rival fb (accepts judge layout f) q e₂ :=
    fun hr hseq hvalid haccepted => ⟨hseq.trans hr.seq, hvalid, fun _ => (hseq.trans hr.seq) ▸ haccepted⟩
  cases h with
  | confirmed hbased hnewest =>
    exact ⟨_, .idle, .confirmed (hbase hbased) (hnewest.plan hpl hrl hbased.accepts hwrote)⟩
  | @staged x y image sector sector' e e' hbased hpromoted hy =>
    have hpoised := (hpromoted.poised (K := Rival fb (accepts judge layout f) (fb.seq e')) hpromoted.rival).plan hpl hrl
      htrial hstage hbased.accepts (fun _ _ hr hseq _ hvalid haccepted => hrival hr hseq hvalid haccepted) hwrote
    rcases hpoised.phase (hbase hbased) (fun _ hr => hok ▸ hr) hpromoted.newer hy with
      hlost | ⟨-, hkept⟩ | ⟨-, next, hnext, hbooted⟩
    · exact ⟨_, .dropped, hlost⟩
    · exact ⟨_, .idle, hkept⟩
    · exact ⟨_, .tried ((judge_frame hj hsame hframe (ota_slot y)).symm.trans hnext), hbooted⟩
  | @trial x y image next sector sector' e e' hbased hontrial hlt hy hnext =>
    have haccepted : accepts judge layout f (fb.slotOf (fb.seq e') 2) = true := hy ▸ accepts_of_judge hnext
    have hpoised := (hontrial.poised hstates
      (K := fun e₁ => Rival fb (accepts judge layout f) (fb.seq e') e₁ ∧ fb.Running e₁)
      ⟨hontrial.rival hstates haccepted, .inr hontrial.pending⟩).plan hpl hrl htrial hstage hbased.accepts
      (fun _ _ hr hseq hrun hvalid haccepted => ⟨hrival hr.1 hseq hvalid haccepted, hrun⟩) hwrote
    rcases hpoised.phase (hbase hbased) (fun _ hr => hok ▸ hr.1) hlt hy with
      hlost | ⟨⟨e₁, hr, hstopped⟩, -⟩ | ⟨-, next', hnext', hkept⟩
    · exact ⟨_, .dropped, hlost⟩
    · exact absurd hr.2 hstopped
    · cases ((judge_frame hj hsame hframe (ota_slot y)).trans hnext).symm.trans hnext'
      exact ⟨_, .idle, hkept⟩

end Steps

/-- Without faults the confirmed image runs, or the one that was activated after it. -/
theorem InPhase.boots (hl : fb.OpsLaw) (hde : fb.DecodeEncode) (hdw : fb.DecodeWorn) (hsl : fb.SectorLaw)
    (hslot : fb.SlotLaw) (hwl : fb.WordLaw) (hpl : fb.SparingLaw) (hplan : fb.PlanLaw bootable)
    (hrl : fb.RevivalLaw bootable) (hstates : fb.VALID ≠ fb.PENDING_VERIFY) (hj : Judged judge)
    (hsame : SameSlots layout M) (hend : M.ota.offset.toNat + 0x2000 < 2 ^ 32) {u : UpdatePhase}
    (h : InPhase idf fb bootable M judge layout s.flash u) {map : MemoryMap} {other : State → (o : HwOp) → o.Ans}
    (hhealthy : Healthy judge map other) :
    ∃ i s', (ExceptT.run (Bootloader.boot fb map)).run (romDevice perfect other) s = (.ok i.entry, s') ∧
      u.Boots (fun z => imageIn judge layout z s.flash) i := by
  have hruns : ∀ {z : AppSlot} {i : Image} {e : fb.Entry}, fb.slotOf (fb.seq e) 2 = slotIndex z →
      imageIn judge layout z s.flash = some i → (bootPlan fb judge layout M.ota.offset s.flash).boot =
        .slot (fb.slotOf (fb.seq e) 2) (fb.seq e) →
      ∃ s', (ExceptT.run (Bootloader.boot fb map)).run (romDevice perfect other) s = (.ok i.entry, s') := by
    intro z i e hz hi hboot
    obtain ⟨s', hrun, -⟩ := h.charted.boots hl hde hdw hsl hslot hwl hj hsame hend hhealthy (hz ▸ hboot) hi
    exact ⟨s', hrun⟩
  cases h with
  | confirmed hbased hnewest =>
    obtain ⟨s', hrun⟩ := hruns hbased.slot hbased.image (hnewest.boots hpl hplan hrl hbased.accepts)
    exact ⟨_, s', hrun, .confirmed⟩
  | staged hbased hpromoted hy =>
    obtain ⟨sector₁, e₁, he₁, -, hok, hboot⟩ :=
      boots_entry hpl hplan hrl hpromoted.old hpromoted.valid hbased.accepts
    rcases hpromoted.cases he₁ with rfl | rfl
    · obtain ⟨s', hrun⟩ := hruns hbased.slot hbased.image hboot
      exact ⟨_, s', hrun, .unstaged⟩
    · rw [hy, accepts_slotIndex] at hok
      obtain ⟨next, hnext⟩ := Option.isSome_iff_exists.mp hok
      obtain ⟨s', hrun⟩ := hruns hy hnext hboot
      exact ⟨next, s', hrun, .staged hnext⟩
  | @trial x y image next sector sector' e e' hbased hontrial hlt hy hnext =>
    obtain ⟨sector₁, e₁, he₁, -, -, hboot⟩ :=
      boots_entry hpl hplan hrl hontrial.old hontrial.valid hbased.accepts
    by_cases heq : sector = 0 ↔ sector₁ = 0
    · cases entry_unique heq hontrial.old he₁
      obtain ⟨s', hrun⟩ := hruns hbased.slot hbased.image hboot
      exact ⟨image, s', hrun, .untried⟩
    · cases hontrial.other hstates heq he₁
      obtain ⟨s', hrun⟩ := hruns hy hnext hboot
      exact ⟨next, s', hrun, .trial⟩

/-! ### Lifetimes -/

/-- A call that updates a boot entry, with its result. -/
def act? : (c : Request E M) → c.Result → Option Act
  | .confirm, r => some (.call .confirm r.isOk)
  | .reject, r => some (.call .reject r.isOk)
  | .activate target, r => some (.call (.activate target) r.isOk)
  | _, _ => none

def acts (history : List (Served idf fb H g w E M)) : List Act := history.filterMap fun ev => act? ev.call ev.result

/-- The call of the task that holds the lock, which a cut ends. -/
def interrupted {ι : Type} (st : (service idf fb H g w E M).State ι State State) : List Act :=
  match st.holder.map st.task with
  | some (.inside c _) => (c.call?.map fun call => .call call false).toList
  | _ => []

section Defs

variable (idf fb H g w E M judge layout) (P : Flash → Request E M → Prop)

/-- Sessions and boots one after the other, each cut anywhere, and the acts in them. -/
inductive Lifetime (f₀ : Flash) : List Act → Flash → Prop
  | start : Lifetime f₀ [] f₀
  | tasks {told : List Act} {b : Behaviour} {s : State} {f : Flash}
      {st : (service idf fb H g w E M).State Nat State State} : Lifetime f₀ told s.flash → b.Honest →
      Service.Reach _ (Service.ofDevice (norDevice b)) s st →
      (∀ ev ∈ st.history, early E M ev.call = none → P ev.before.flash ev.call) →
      (∀ i c p, st.task i = .inside c p → P st.settled.flash c) → CutAt st f →
      Lifetime f₀ (told ++ (acts st.history ++ interrupted st)) f
  | boot {told : List Act} {b : Behaviour} {other : State → (o : HwOp) → o.Ans} {s : State} {f : Flash}
      (map : MemoryMap) : Lifetime f₀ told s.flash → b.Honest → Truthful judge other map →
      CutPoint HwOp.cmd? (romDevice b other) (ExceptT.run (boot fb map)) s f →
      Lifetime f₀ (told ++ [.boot fun z => imageIn judge layout z s.flash]) f

end Defs

/-- The acts of a lifetime are what happened in it: they restrict nothing. -/
theorem lived_iff {P : Flash → Request E M → Prop} {f₀ : Flash} :
    ReflTransGen (Lived idf fb H g w E M judge P) f₀ f ↔
      ∃ told, Lifetime idf fb H g w E M judge layout P f₀ told f := by
  constructor
  · intro hrun
    induction hrun with
    | refl => exact ⟨[], .start⟩
    | tail _ hstep ih =>
      obtain ⟨told, hlifetime⟩ := ih
      cases hstep with
      | tasks hb hreach hhistory hinside hcut => exact ⟨_, hlifetime.tasks hb hreach hhistory hinside hcut⟩
      | boot map hb ht hcut => exact ⟨_, hlifetime.boot map hb ht hcut⟩
  · rintro ⟨told, hlifetime⟩
    induction hlifetime with
    | start => exact .refl
    | tasks _ hb hreach hhistory hinside hcut ih => exact ih.tail (.tasks hb hreach hhistory hinside hcut)
    | boot map _ hb ht hcut ih => exact ih.tail (.boot map hb ht hcut)

theorem call_of_served (hserves : (service idf fb H g w E M).Serves (Service.ofDevice (norDevice b)).bound ev)
    {call : Call} (hc : ev.call.call? = some call) : ∃ r : Except Otadata.Error Unit,
      act? ev.call ev.result = some (.call call r.isOk) ∧ early E M ev.call = none ∧
      (ExceptT.run (call.exec idf fb)).run (norDevice b) ev.before = (r, ev.after) := by
  obtain ⟨c, r, before, after⟩ := ev
  cases c with
  | confirm | reject | activate target =>
    cases hc
    exact ⟨r, rfl, rfl, hserves.run rfl⟩
  | _ => cases hc

theorem act?_none {c : Request E M} (h : c.call? = none) (r : c.Result) : act? c r = none := by
  cases c with
  | confirm | reject | activate target => cases h
  | _ => rfl

section Runs

variable (hl : fb.OpsLaw) (hde : fb.DecodeEncode) (hdw : fb.DecodeWorn) (hsl : fb.SectorLaw) (htl : fb.TransitionLaw)
  (hal : fb.ActivateLaw) (hbl : fb.BootLaw bootable) (hrl : fb.RevivalLaw bootable)
  (hstates : fb.VALID ≠ fb.PENDING_VERIFY) (hj : Judged judge) (hsame : SameSlots layout M) (hb : b.Honest)

include hl hde hdw hsl htl hal hbl hrl hstates hj hsame hb

theorem InPhase.serves {u : UpdatePhase} {ev : Served idf fb H g w E M}
    (h : InPhase idf fb bootable M judge layout ev.before.flash u)
    (hprudent : early E M ev.call = none → Prudent fb ev.before.flash ev.call)
    (hserves : (service idf fb H g w E M).Serves (Service.ofDevice (norDevice b)).bound ev) :
    ∃ u', UpdatePhase.Path (acts [ev]) u u' ∧ InPhase idf fb bootable M judge layout ev.after.flash u' := by
  cases hc : ev.call.call? with
  | none =>
    have hact : act? ev.call ev.result = none := act?_none hc _
    have hacts : acts [ev] = [] := by simp [acts, hact]
    refine ⟨u, hacts ▸ .nil, serves_invariant (J := fun f => InPhase idf fb bootable M judge layout f u)
      (P := fun f c => c.call? = none ∧ Prudent fb f c) hl hdw hsl (fun _ h => h.charted)
      (fun f f' c h hc hcut => ?_) hb h (fun hearly => ⟨hc, hprudent hearly⟩) hserves⟩
    exact h.frame hl hsl hj hsame hstates hc.1 hc.2 hcut
  | some call =>
    obtain ⟨r, hact, hearly, hrun⟩ := call_of_served hserves hc
    have hend := run_of_wp (wp_guard_mono (fun _ _ _ => trivial)
      (wp_call_safe hb hl hdw hsl M.placed h.charted.sound call))
    rw [hrun] at hend
    have hcut : RequestCut fb ev.call ev.before.flash ev.after.flash := by
      simpa only [RequestCut, hc] using hend.1
    obtain ⟨u', hstep, h'⟩ := h.call hl hsl hj hsame htl hal hbl hrl hstates (hprudent hearly) hc hcut
      r.isOk fun hok => by
        obtain ⟨write, hw, hraw⟩ := hend.2 hok
        refine ⟨write, hw, ?_⟩
        rw [entryOf_entriesAt (Call.sector_lt hsl hw), hraw, hde]
    have hacts : acts [ev] = [.call call r.isOk] := by simp [acts, hact]
    exact ⟨u', hacts ▸ .single hstep, h'⟩

theorem InPhase.serial {u : UpdatePhase} (h : InPhase idf fb bootable M judge layout s.flash u)
    {history : List (Served idf fb H g w E M)}
    (hserial : Service.Serial _ (Service.ofDevice (norDevice b)).bound s history s')
    (hprudent : ∀ ev ∈ history, early E M ev.call = none → Prudent fb ev.before.flash ev.call) :
    ∃ u', UpdatePhase.Path (acts history) u u' ∧ InPhase idf fb bootable M judge layout s'.flash u' := by
  induction hserial with
  | nil => exact ⟨u, .nil, h⟩
  | @snoc history ev _ hserves ih =>
    obtain ⟨u', hpath, h'⟩ := ih fun ev hmem => hprudent ev (List.mem_append_left _ hmem)
    obtain ⟨u'', hpath', h''⟩ := h'.serves hl hde hdw hsl htl hal hbl hrl hstates hj hsame hb
      (hprudent ev (List.mem_append_right _ (List.mem_singleton_self ev))) hserves
    exact ⟨u'', by rw [acts, List.filterMap_append]; exact hpath.trans hpath', h''⟩

omit hde in
/-- What a cut leaves of a session. -/
theorem InPhase.cut (hs : Sound idf fb M.ota s.flash) {ι : Type} [DecidableEq ι]
    {st : (service idf fb H g w E M).State ι State State}
    (hreach : Service.Reach _ (Service.ofDevice (norDevice b)) s st) {u : UpdatePhase}
    (h : InPhase idf fb bootable M judge layout st.settled.flash u)
    (hinside : ∀ i c p, st.task i = .inside c p → Prudent fb st.settled.flash c) (hcut : CutAt st f) :
    ∃ u', UpdatePhase.Path (interrupted st) u u' ∧ InPhase idf fb bootable M judge layout f u' := by
  have hmoment := moment_sound hl hdw hsl hb hs hreach
  rcases hcut.cases hmoment with rfl | ⟨i, c, p, htask, hc⟩
  · refine ⟨u, ?_, h⟩
    unfold interrupted
    split
    · next c p hholder =>
      cases c.call? with
      | none => exact .nil
      | some call => exact .single .undone
    · exact .nil
  · have hholder : st.holder = some i := by
      have hi := hmoment.task i
      rw [htask] at hi
      exact hi.1
    have hinterrupted : interrupted st = (c.call?.map fun call => .call call false).toList := by
      simp [interrupted, hholder, htask]
    have hprudent := hinside i c p htask
    rw [hinterrupted]
    cases hcall : c.call? with
    | none => exact ⟨u, .nil, h.frame hl hsl hj hsame hstates hcall hprudent hc⟩
    | some call =>
      obtain ⟨u', hstep, h'⟩ := h.call hl hsl hj hsame htl hal hbl hrl hstates hprudent hcall hc false nofun
      exact ⟨u', .single hstep, h'⟩

omit hb in
theorem InPhase.lifetime (hslot : fb.SlotLaw) (hpl : fb.SparingLaw) (htrial : fb.TrialLaw)
    (hstage : fb.StagingLaw bootable) {f₀ : Flash} {u : UpdatePhase}
    (h₀ : InPhase idf fb bootable M judge layout f₀ u) {told : List Act}
    (hlifetime : Lifetime idf fb H g w E M judge layout (Prudent fb) f₀ told f) :
    ∃ u', UpdatePhase.Path told u u' ∧ InPhase idf fb bootable M judge layout f u' := by
  induction hlifetime with
  | start => exact ⟨u, .nil, h₀⟩
  | tasks _ hb hreach hhistory hinside hcut ih =>
    obtain ⟨u₁, hpath₁, h₁⟩ := ih
    have hserial := (Service.serializable (fun c r => by trivial) hreach).1
    obtain ⟨u₂, hpath₂, h₂⟩ := h₁.serial hl hde hdw hsl htl hal hbl hrl hstates hj hsame hb hserial hhistory
    obtain ⟨u₃, hpath₃, h₃⟩ :=
      h₂.cut hl hdw hsl htl hal hbl hrl hstates hj hsame hb h₁.charted.sound hreach hinside hcut
    exact ⟨u₃, hpath₁.trans (hpath₂.trans hpath₃), h₃⟩
  | boot map _ hb ht hcut ih =>
    obtain ⟨u₁, hpath₁, h₁⟩ := ih
    have hwrites := cutPoint_of_wp
      (wp_boot_truthful hb hl hdw hsl hslot ht h₁.charted.sound h₁.charted.table) hcut
    obtain ⟨u₂, hstep, h₂⟩ := h₁.boot hl hsl hj hsame hpl hrl htrial hstage hstates hwrites
    exact ⟨u₂, hpath₁.snoc hstep, h₂⟩

end Runs

/-- Every lifetime follows the phases of an update: whatever is uploaded and called, in any interleaving and cut
anywhere, on flash whose commands may fail, the calls and boots of the lifetime lead from phase to phase, and another
image is confirmed only by `confirm` while it is on trial. The next boot without faults jumps to the confirmed image,
or to the one that was activated after it. -/
theorem lifetime_refines (hl : fb.OpsLaw) (hde : fb.DecodeEncode) (hdw : fb.DecodeWorn) (hsl : fb.SectorLaw)
    (hslot : fb.SlotLaw) (hwl : fb.WordLaw) (htl : fb.TransitionLaw) (hal : fb.ActivateLaw) (hbl : fb.BootLaw bootable)
    (hpl : fb.SparingLaw) (hplan : fb.PlanLaw bootable) (hrl : fb.RevivalLaw bootable) (htrial : fb.TrialLaw)
    (hstage : fb.StagingLaw bootable) (hstates : fb.VALID ≠ fb.PENDING_VERIFY) (hj : Judged judge)
    (hsame : SameSlots layout M) (hend : M.ota.offset.toNat + 0x2000 < 2 ^ 32) {f₀ : Flash} {u : UpdatePhase}
    (h₀ : InPhase idf fb bootable M judge layout f₀ u) {told : List Act}
    (hlifetime : Lifetime idf fb H g w E M judge layout (Prudent fb) f₀ told s.flash) {map : MemoryMap}
    {other : State → (o : HwOp) → o.Ans} (hhealthy : Healthy judge map other) :
    ∃ u' i s', UpdatePhase.Path told u u' ∧ InPhase idf fb bootable M judge layout s.flash u' ∧
      (u'.base = u.base ∨ ∃ before ok after x image y next, told = before ++ .call .confirm ok :: after ∧
        UpdatePhase.Path before u (.trial x image y next) ∧ u'.base = (y, next)) ∧
      (ExceptT.run (boot fb map)).run (romDevice perfect other) s = (.ok i.entry, s') ∧
      u'.Boots (fun z => imageIn judge layout z s.flash) i := by
  obtain ⟨u', hpath, h⟩ :=
    h₀.lifetime hl hde hdw hsl htl hal hbl hrl hstates hj hsame hslot hpl htrial hstage hlifetime
  obtain ⟨i, s', hboots, hnamed⟩ := h.boots hl hde hdw hsl hslot hwl hpl hplan hrl hstates hj hsame hend hhealthy
  exact ⟨u', i, s', hpath, h, hpath.base, hboots, hnamed⟩

/-! ### A switch, and a boot -/

/-- Slot 1 was activated while slot 0 ran. -/
theorem lifetime_refines_switch : ∃ u' i s',
    UpdatePhase.Path [.call (.activate .ota1) true] (.confirmed .ota0 ⟨0x40380000, []⟩) u' ∧
    InPhase firstMatch Sample.fibewi (fun e => Sample.bootable e = true) sampleMap (fun _ => eachSlot) sampleLayout
      sampleSwitch.2.flash u' ∧
    u'.base = (.ota0, ⟨0x40380000, []⟩) ∧
    (ExceptT.run (boot Sample.fibewi esp32c3)).run (romDevice perfect (steady eachSlot)) sampleSwitch.2 =
      (.ok i.entry, s') ∧
    u'.Boots (fun z => imageIn (fun _ => eachSlot) sampleLayout z sampleSwitch.2.flash) i := by
  have hstart : InPhase firstMatch Sample.fibewi (fun e => Sample.bootable e = true) sampleMap (fun _ => eachSlot)
      sampleLayout (Sample.otaFlash oneEntry) (.confirmed .ota0 ⟨0x40380000, []⟩) := by
    have hsettled : Settled firstMatch Sample.fibewi _ sampleMap (fun _ => eachSlot) sampleLayout .ota0 ⟨0x40380000, []⟩
      (Sample.otaFlash oneEntry) := settled_oneEntry rfl
    obtain ⟨sector, e, hnewest, hslot⟩ := hsettled.newest
    exact .confirmed ⟨hsettled.toCharted, hslot, hsettled.image⟩ hnewest
  obtain ⟨s₀, hflash, hreach⟩ := reach_sampleSwitch
  generalize sampleSwitch.2 = s at hreach ⊢
  have hlifetime : Lifetime firstMatch Sample.fibewi Preloaded.messageHasher smallSectors 32 listEngine sampleMap
      (fun _ => eachSlot) sampleLayout (Prudent Sample.fibewi) s₀.flash [.call (.activate .ota1) true] s.flash := by
    refine .tasks .start perfect_honest hreach (fun ev hmem _ => ?_) (fun _ _ _ h => by cases h) (cutAt_idle s _)
    cases List.mem_singleton.mp hmem
    exact hflash ▸ confirmed_oneEntry
  obtain ⟨u', i, s', hpath, hphase, hbase, hrun⟩ := lifetime_refines Sample.opsLaw Sample.decodeEncode
    (fun _ _ _ _ => Sample.decodeWorn) Sample.sectorLaw Sample.slotLaw Sample.wordLaw Sample.transitionLaw
    Sample.activateLaw Sample.bootLaw Sample.sparingLaw Sample.planLaw Sample.revivalLaw Sample.trialLaw
    Sample.stagingLaw (by decide) judged_eachSlot sameSlots_sample (by decide) (hflash ▸ hstart) hlifetime
    (healthy_steady eachSlot)
  refine ⟨u', i, s', hpath, hphase, hbase.resolve_right ?_, hrun⟩
  rintro ⟨before, ok, after, x, image, y, next, hacts, -⟩
  have hconfirm : Act.call .confirm ok ∈ [Act.call (.activate .ota1) true] := hacts ▸ by simp
  cases List.mem_singleton.mp hconfirm

end Espbewi.System
