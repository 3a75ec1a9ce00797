import Espbewi.ConfigSpace.Calls
import Espbewi.ConfigSpace.Reference

/-! The backend as a versioned map, under every interleaving of its callers. -/

namespace Espbewi.ConfigSpace

open Lib Prog

variable (N : EspNvs)

abbrev Event := (backend N).Event (Content N.Key)

/-- Where the record of a space is stored. -/
def slot (space : Space) : N.Key × N.Key := (NAMESPACE N, N.fromSlice space)

variable {N}

/-! ### Names -/

theorem key_of_valid {space : Space} (h : validSpaceName space = true) :
    key N space = .ok (N.fromSlice space) := if_pos h

theorem key_of_invalid {space : Space} (h : validSpaceName space = false) :
    key N space = .error .invalidSpace := if_neg (by simp [h])

theorem validSpaceName_spec {space : Space} (h : validSpaceName space = true) :
    space.length ≤ 15 ∧ 0 ∉ space := by
  simp only [validSpaceName, MAX_NVS_KEY_LEN, Bool.and_eq_true, decide_eq_true_eq, List.all_eq_true,
    bne_iff_ne] at h
  exact ⟨of_decide_eq_true h.1.2, fun hzero => (h.2 0 hzero).2 rfl⟩

/-- No two spaces share a record. -/
theorem slot_inj {a b : Space} (ha : validSpaceName a = true) (hb : validSpaceName b = true)
    (h : slot N a = slot N b) : a = b :=
  N.fromSlice_inj (validSpaceName_spec ha).1 (validSpaceName_spec hb).1 (validSpaceName_spec ha).2
    (validSpaceName_spec hb).2 (Prod.ext_iff.mp h).2

theorem canarySlot_ne (key : N.Key) : (NAMESPACE N, key) ≠ canarySlot N := by
  intro h
  have hname := N.fromSlice_inj (by decide) (by decide) (by decide) (by decide) (Prod.ext_iff.mp h).1
  exact absurd hname (by decide)

/-! ### The map -/

/-- The space that a call is about. -/
def Call.space? : Call → Option Space
  | .load space => some space
  | .commit space _ => some space
  | .clear space => some space
  | _ => none

def Call.writes : Call → Bool
  | .commit .. => true
  | .clear _ => true
  | _ => false

/-- The error that a call returns. -/
def Call.error? : (c : Call) → c.Result → Option NvsConfigError
  | .new, .error e => some e
  | .load _, .error e => some e
  | .commit .., .error e => some e
  | .clear _, .error e => some e
  | _, _ => none

/-- What a commit or a clear stores, with its generation; a clear has no data. -/
structure Write where
  space : Space
  generation : UInt64
  data : Option (List UInt8)
  deriving DecidableEq

/-- The record that it leaves. -/
def Write.item (w : Write) : Item :=
  .blob (encodeRecord w.generation w.data.isSome (w.data.getD []))

def Write.snapshot (w : Write) : Option Snapshot :=
  w.data.map fun data => { generation := w.generation, data }

/-- The write of a call that returned its generation. -/
def returned? : Event N → Option Write
  | ⟨.commit space data, .ok generation, _, _⟩ => some ⟨space, generation, some data⟩
  | ⟨.clear space, .ok generation, _, _⟩ => some ⟨space, generation, none⟩
  | _ => none

/-- The write that a commit or a clear attempts, of the generation after the stored one. -/
def attempt? (e : Event N) : Option Write :=
  match e.call with
  | .commit space data => next space (some data)
  | .clear space => next space none
  | _ => none
where
  next (space : Space) (data : Option (List UInt8)) : Option Write :=
    (generationAfter (e.before (slot N space))).toOption.map fun generation => ⟨space, generation, data⟩

/-- The write of a call that took effect: it was returned, or the call returned `Err(Write)` and left the record. -/
def took? (e : Event N) : Option Write :=
  match returned? e with
  | some w => some w
  | none =>
    if e.call.error? e.result = some .write then
      (attempt? e).filter fun w => e.after (slot N w.space) = some w.item
    else none

variable {effect : Event N → Option Write}

/-- The writes of a space, in order. -/
def writes (effect : Event N → Option Write) (space : Space) (h : List (Event N)) : List Write :=
  (h.filterMap effect).filter fun w => w.space == space

/-- What a load returns after the history. -/
def latest (effect : Event N → Option Write) (space : Space) (h : List (Event N)) : Option Snapshot :=
  (writes effect space h).getLast?.bind Write.snapshot

/-- Loads return what was last written, and generations count the writes. -/
structure Versioned (effect : Event N → Option Write) (space : Space) (h : List (Event N)) : Prop where
  load : ∀ pre r before after post, h = pre ++ ⟨.load space, .ok r, before, after⟩ :: post →
    r = latest effect space pre
  generations : (writes effect space h).map (fun w => w.generation.toNat) =
    List.range' 1 (writes effect space h).length

/-- No commit and no clear of the space returned `Err(Write)`. -/
def Unfailing (space : Space) (h : List (Event N)) : Prop :=
  ∀ e ∈ h, e.call.space? = some space → e.call.writes = true → e.call.error? e.result ≠ some .write

/-- NVS failed while it served the call, which cannot have ended so without. -/
def Faulty (A : Answers (Op N.Key) Op.Ans (Content N.Key)) (e : Event N) : Prop :=
  ¬ (backend N).Serves (Steady A) e

/-- What a call leaves alone, whatever is stored; `faulty` says that NVS failed during the call. -/
structure Isolated (faulty : Prop) (e : Event N) : Prop where
  error : (e.call.error? e.result).isSome → e.after = e.before ∨
    faulty ∧ e.call.error? e.result = some .write ∧
      ∃ w, took? e = some w ∧ e.after = Function.update e.before (slot N w.space) (some w.item)
  other : ∀ space, validSpaceName space = true → e.call.space? ≠ some space →
    e.after (slot N space) = e.before (slot N space)
  load : ∀ space, e.call = .load space → e.after = e.before
  invalid : ∀ space, e.call.space? = some space → validSpaceName space = false →
    e.call.error? e.result = some .invalidSpace ∧ e.after = e.before
  corrupt : ∀ space raw, e.call.space? = some space → validSpaceName space = true →
    e.before (slot N space) = some (.blob raw) → decodeRecord raw = .error .corruptRecord →
    e.after = e.before ∧ (e.call.error? e.result = some .corruptRecord ∨
      faulty ∧ (e.call.error? e.result = some .unavailable ∨ e.call.error? e.result = some .write))
  overflow : ∀ space raw present payload, e.call.space? = some space → e.call.writes = true →
    validSpaceName space = true → e.before (slot N space) = some (.blob raw) →
    decodeRecord raw = .ok (UInt64.ofNat (2 ^ 64 - 1), present, payload) →
    e.after = e.before ∧ (e.call.error? e.result = some .generationOverflow ∨
      faulty ∧ (e.call.error? e.result = some .unavailable ∨ e.call.error? e.result = some .write))

/-! ### One call -/

variable {A : Answers (Op N.Key) Op.Ans (Content N.Key)}

theorem exec_replace (hA : Keeps A) {space : Space} {present : Bool} {payload : List UInt8}
    {v v' : Content N.Key} {r : Except NvsConfigError UInt64} (hvalid : validSpaceName space = true)
    (h : Exec A (ExceptT.run (replace space present payload)) v r v') :
    (∃ e, r = .error e ∧ v' = v ∧ (generationAfter (v (slot N space)) = .error e ∨
        Failing A ∧ (e = .unavailable ∨ e = .write))) ∨
    ∃ generation, (r = .ok generation ∨ Failing A ∧ r = .error .write) ∧
      generationAfter (v (slot N space)) = .ok generation ∧
      v' = Function.update v (slot N space) (some (.blob (encodeRecord generation present payload))) := by
  rw [replace, key_of_valid hvalid, ofExcept_ok] at h
  obtain ⟨hfails, rfl, rfl⟩ | hreplace := exec_withNvs hA h
  · exact .inl ⟨_, rfl, rfl, .inr ⟨hfails, .inl rfl⟩⟩
  · obtain ⟨⟨hfails, rfl⟩ | ⟨e, rfl, hcorrupt⟩, rfl⟩ | hwritten := exec_replaceAt hA hreplace
    · exact .inl ⟨_, rfl, rfl, .inr ⟨hfails, .inr rfl⟩⟩
    · exact .inl ⟨_, rfl, rfl, .inl hcorrupt⟩
    · exact .inr hwritten

theorem exec_load (hA : Keeps A) {space : Space} {v v' : Content N.Key}
    {r : Except NvsConfigError (Option Snapshot)} (hvalid : validSpaceName space = true)
    (h : Exec A (ExceptT.run (load space)) v r v') :
    v' = v ∧ (r = snapshotOf (v (slot N space)) ∨
      Failing A ∧ (r = .error .unavailable ∨ r = .error .write)) := by
  rw [load, key_of_valid hvalid, ofExcept_ok] at h
  obtain ⟨hfails, rfl, rfl⟩ | hload := exec_withNvs hA h
  · exact ⟨rfl, .inr ⟨hfails, .inl rfl⟩⟩
  · obtain ⟨rfl, ⟨hfails, rfl⟩ | rfl⟩ := exec_loadAt hA hload
    · exact ⟨rfl, .inr ⟨hfails, .inr rfl⟩⟩
    · exact ⟨rfl, .inl rfl⟩

theorem refuse_of_valid {space : Space} (h : validSpaceName space = true) :
    early.refuse N (α := α) space = none := by
  rw [early.refuse, key_of_valid h]

theorem refuse_of_invalid {space : Space} (h : validSpaceName space = false) :
    early.refuse N (α := α) space = some (.error .invalidSpace) := by
  rw [early.refuse, key_of_invalid h]

/-- What a call does: it is refused, or it writes a record, whether it learns of it or not, or it reads, or it
fails. -/
inductive Outcome (fails : Prop) : Event N → Prop
  | refused {c r v space} : Call.space? c = some space → validSpaceName space = false →
      c.error? r = some .invalidSpace → Outcome fails ⟨c, r, v, v⟩
  | failed {c r v space e} : Call.space? c = some space → validSpaceName space = true → c.error? r = some e →
      (generationAfter (v (slot N space)) = .error e ∨ fails ∧ (e = .unavailable ∨ e = .write)) →
      Outcome fails ⟨c, r, v, v⟩
  | loaded {v space snapshot} : validSpaceName space = true → snapshotOf (v (slot N space)) = .ok snapshot →
      Outcome fails ⟨.load space, .ok snapshot, v, v⟩
  | written {c r v v' w} : Call.space? c = some (Write.space w) → validSpaceName w.space = true →
      returned? ⟨c, r, v, v'⟩ = some w ∨ fails ∧ returned? ⟨c, r, v, v'⟩ = none ∧ c.error? r = some .write →
      attempt? ⟨c, r, v, v'⟩ = some w → v' = Function.update v (slot N w.space) (some w.item) →
      Outcome fails ⟨c, r, v, v'⟩
  | checked {ok v v'} : (∀ k, k ≠ canarySlot N → v' k = v k) → Outcome fails ⟨.selfCheck, ok, v, v'⟩
  | booted {r v} : Outcome fails ⟨.new, r, v, v⟩

theorem Outcome.mono {fails fails' : Prop} (hfails : fails → fails') {e : Event N} (h : Outcome fails e) :
    Outcome fails' e := by
  cases h with
  | refused hspace hinvalid herror => exact .refused hspace hinvalid herror
  | failed hspace hvalid herror hcause => exact .failed hspace hvalid herror (hcause.imp_right (And.imp_left hfails))
  | loaded hvalid hsnapshot => exact .loaded hvalid hsnapshot
  | written hspace hvalid hreturned hattempt hafter =>
    exact .written hspace hvalid (hreturned.imp_right (And.imp_left hfails)) hattempt hafter
  | checked hother => exact .checked hother
  | booted => exact .booted

theorem generationAfter_of_snapshot {item : Option Item} {e : NvsConfigError}
    (h : snapshotOf item = .error e) : generationAfter item = .error e := by
  unfold snapshotOf at h
  unfold generationAfter
  split at h
  · split at h
    · cases h
    · next hdecode =>
      cases h
      rfl
  · cases h

theorem attempt_commit {space : Space} {data : List UInt8} {r : Call.Result (.commit space data)}
    {v v' : Content N.Key} {generation : UInt64} (h : generationAfter (v (slot N space)) = .ok generation) :
    attempt? (N := N) ⟨.commit space data, r, v, v'⟩ = some ⟨space, generation, some data⟩ := by
  simp only [attempt?, attempt?.next, h, Except.toOption, Option.map_some]

theorem attempt_clear {space : Space} {r : Call.Result (.clear space)} {v v' : Content N.Key} {generation : UInt64}
    (h : generationAfter (v (slot N space)) = .ok generation) :
    attempt? (N := N) ⟨.clear space, r, v, v'⟩ = some ⟨space, generation, none⟩ := by
  simp only [attempt?, attempt?.next, h, Except.toOption, Option.map_some]

/-- `commit` and `clear`. -/
theorem outcome_replace (hA : Keeps A) {c : Call} {space : Space} {present : Bool}
    {payload : List UInt8} {v v' : Content N.Key} {r : c.Result}
    {result : Except NvsConfigError UInt64} (hspace : c.space? = some space)
    (herror : ∀ e, result = .error e → c.error? r = some e ∧ returned? (N := N) ⟨c, r, v, v'⟩ = none)
    (hreturned : ∀ generation, result = .ok generation → returned? (N := N) ⟨c, r, v, v'⟩ =
      some ⟨space, generation, if present then some payload else none⟩)
    (hattempt : ∀ generation, generationAfter (v (slot N space)) = .ok generation →
      attempt? (N := N) ⟨c, r, v, v'⟩ = some ⟨space, generation, if present then some payload else none⟩)
    (hpayload : present = false → payload = []) (hvalid : validSpaceName space = true)
    (h : Exec A (ExceptT.run (replace space present payload)) v result v') :
    Outcome (Failing A) ⟨c, r, v, v'⟩ := by
  obtain ⟨e, rfl, rfl, hcause⟩ | ⟨generation, hresult, hgeneration, rfl⟩ := exec_replace hA hvalid h
  · exact .failed hspace hvalid (herror e rfl).1 hcause
  · refine .written hspace hvalid ?_ (hattempt generation hgeneration) ?_
    · rcases hresult with hok | ⟨hfails, herr⟩
      · exact .inl (hreturned generation hok)
      · exact .inr ⟨hfails, (herror _ herr).symm⟩
    · cases present with
      | true => rfl
      | false =>
        rw [hpayload rfl]
        rfl

theorem outcome_refused {c : Call} {space : Space} {r refusal : c.Result} {v v' : Content N.Key}
    (hspace : c.space? = some space) (hvalid : validSpaceName space = false)
    (hearly : early N c = some refusal) (herror : c.error? refusal = some .invalidSpace)
    (h : (backend N).Serves A ⟨c, r, v, v'⟩) : Outcome (Failing A) ⟨c, r, v, v'⟩ := by
  simp only [Service.Serves, backend, hearly] at h
  obtain ⟨rfl, rfl⟩ := h
  exact .refused hspace hvalid herror

theorem outcome (hA : Keeps A) {e : Event N} (h : (backend N).Serves A e) :
    Outcome (Failing A) e := by
  obtain ⟨c, r, v, v'⟩ := e
  cases c with
  | new =>
    have hsame : v' = v := exec_new hA h
    subst hsame
    exact .booted
  | selfCheck => exact .checked (exec_selfCheck hA h).1
  | load space =>
    cases hvalid : validSpaceName space with
    | false => exact outcome_refused rfl hvalid (refuse_of_invalid hvalid) rfl h
    | true =>
      simp only [Service.Serves, backend, early, refuse_of_valid hvalid] at h
      obtain ⟨rfl, hr⟩ := exec_load hA hvalid h
      cases r with
      | ok snapshot => exact .loaded hvalid (hr.resolve_right (by simp)).symm
      | error e =>
        refine .failed rfl hvalid rfl (hr.imp (fun hsame => generationAfter_of_snapshot hsame.symm) ?_)
        rintro ⟨hfails, he | he⟩
        · exact ⟨hfails, .inl (Except.error.inj he)⟩
        · exact ⟨hfails, .inr (Except.error.inj he)⟩
  | commit space data =>
    cases hvalid : validSpaceName space with
    | false => exact outcome_refused rfl hvalid (refuse_of_invalid hvalid) rfl h
    | true =>
      simp only [Service.Serves, backend, early, refuse_of_valid hvalid] at h
      refine outcome_replace hA rfl ?_ ?_ (fun generation => attempt_commit) (fun hclear => absurd hclear (by decide))
        hvalid h
      · rintro e rfl
        exact ⟨rfl, rfl⟩
      · rintro generation rfl
        rfl
  | clear space =>
    cases hvalid : validSpaceName space with
    | false => exact outcome_refused rfl hvalid (refuse_of_invalid hvalid) rfl h
    | true =>
      simp only [Service.Serves, backend, early, refuse_of_valid hvalid] at h
      refine outcome_replace hA rfl ?_ ?_ (fun generation => attempt_clear) (fun _ => rfl) hvalid h
      · rintro e rfl
        exact ⟨rfl, rfl⟩
      · rintro generation rfl
        rfl

/-! ### What a call leaves alone -/

theorem attempt_spec {e : Event N} {w : Write} (h : attempt? e = some w) : e.call.space? = some w.space ∧
    e.call.writes = true ∧ generationAfter (e.before (slot N w.space)) = .ok w.generation := by
  have hnext : ∀ {space data}, attempt?.next e space data = some w → space = w.space ∧
      generationAfter (e.before (slot N w.space)) = .ok w.generation := by
    intro space data hw
    obtain ⟨generation, hgeneration, rfl⟩ := Option.map_eq_some_iff.mp hw
    refine ⟨rfl, ?_⟩
    cases hafter : generationAfter (e.before (slot N space)) with
    | ok g =>
      rw [hafter] at hgeneration
      cases hgeneration
      rfl
    | error err =>
      rw [hafter] at hgeneration
      cases hgeneration
  obtain ⟨c, r, before, after⟩ := e
  cases c with
  | new | selfCheck | load space => cases h
  | commit space data | clear space =>
    obtain ⟨rfl, hgeneration⟩ := hnext h
    exact ⟨rfl, rfl, hgeneration⟩

theorem error_of_returned {e : Event N} {w : Write} (h : returned? e = some w) : e.call.error? e.result = none := by
  unfold returned? at h
  split at h
  · rfl
  · rfl
  · cases h

theorem took_of_returned {e : Event N} {w : Write} (h : returned? e = some w) : took? e = some w := by
  rw [took?, h]

theorem took_of_stored {e : Event N} {w : Write} (hreturned : returned? e = none)
    (herror : e.call.error? e.result = some .write) (hattempt : attempt? e = some w)
    (hafter : e.after = Function.update e.before (slot N w.space) (some w.item)) : took? e = some w := by
  have hstored : e.after (slot N w.space) = some w.item := by rw [hafter, Function.update_self]
  simp only [took?, hreturned, if_pos herror, hattempt, Option.filter_some, hstored, decide_true, if_true]

theorem snapshotOf_corrupt {item : Option Item} {raw : List UInt8} (hitem : item = some (.blob raw))
    (h : decodeRecord raw = .error .corruptRecord) : snapshotOf item = .error .corruptRecord := by
  rw [hitem]
  simp only [snapshotOf, h]

theorem generationAfter_overflow {item : Option Item} {raw : List UInt8}
    (hitem : item = some (.blob raw))
    (h : decodeRecord raw = .ok (UInt64.ofNat (2 ^ 64 - 1), present, payload)) :
    generationAfter item = .error .generationOverflow := by
  rw [hitem]
  simp only [generationAfter, h]
  rfl

section Isolated

variable {fails : Prop} {e : Event N}

/-- A call that leaves NVS as it was fails as the record of its space says, or as NVS does. -/
theorem isolated_of_same (hsame : e.after = e.before)
    (hinvalid : ∀ space, e.call.space? = some space → validSpaceName space = false →
      e.call.error? e.result = some .invalidSpace)
    (hcause : ∀ space err, e.call.space? = some space → validSpaceName space = true →
      (snapshotOf (e.before (slot N space)) = .error err ∨
        e.call.writes = true ∧ generationAfter (e.before (slot N space)) = .error err) →
      e.call.error? e.result = some err ∨
        fails ∧ (e.call.error? e.result = some .unavailable ∨ e.call.error? e.result = some .write)) :
    Isolated fails e where
  error _ := .inl hsame
  other _ _ _ := by rw [hsame]
  load _ _ := hsame
  invalid space hspace hname := ⟨hinvalid space hspace hname, hsame⟩
  corrupt space _ hspace hvalid hraw hdecode :=
    ⟨hsame, hcause space _ hspace hvalid (.inl (snapshotOf_corrupt hraw hdecode))⟩
  overflow space _ _ _ hspace hwrites hvalid hraw hdecode :=
    ⟨hsame, hcause space _ hspace hvalid (.inr ⟨hwrites, generationAfter_overflow hraw hdecode⟩)⟩

/-- A call that leaves a record changes no other one, and there was one that has a next generation. -/
theorem isolated_of_written {w : Write} (hspace : e.call.space? = some w.space)
    (hvalid : validSpaceName w.space = true)
    (hreturned : returned? e = some w ∨ fails ∧ returned? e = none ∧ e.call.error? e.result = some .write)
    (hattempt : attempt? e = some w)
    (hafter : e.after = Function.update e.before (slot N w.space) (some w.item)) : Isolated fails e := by
  obtain ⟨-, hwrites, hgeneration⟩ := attempt_spec hattempt
  have hname : ∀ {space}, e.call.space? = some space → w.space = space := fun h => Option.some.inj (hspace.symm.trans h)
  exact {
    error := by
      intro hsome
      rcases hreturned with hreturned | ⟨hfails, hnone, herror⟩
      · rw [error_of_returned hreturned] at hsome
        cases hsome
      · exact .inr ⟨hfails, herror, w, took_of_stored hnone herror hattempt hafter, hafter⟩
    other := by
      intro space hspace' hne
      rw [hafter]
      exact Function.update_of_ne (fun hsame => hne (slot_inj hspace' hvalid hsame ▸ hspace)) ..
    load := by
      intro space hload
      rw [hload] at hwrites
      cases hwrites
    invalid := by
      intro space hspace' hinvalid
      rw [hname hspace', hinvalid] at hvalid
      cases hvalid
    corrupt := by
      intro space raw hspace' _ hraw hdecode
      rw [hname hspace'] at hgeneration
      cases hgeneration.symm.trans (generationAfter_of_snapshot (snapshotOf_corrupt hraw hdecode))
    overflow := by
      intro space raw present payload hspace' _ _ hraw hdecode
      rw [hname hspace'] at hgeneration
      cases hgeneration.symm.trans (generationAfter_overflow hraw hdecode) }

theorem isolated_of_outcome (h : Outcome fails e) : Isolated fails e := by
  cases h with
  | @refused c r v space hspace hinvalid herror =>
    refine isolated_of_same rfl (fun _ _ _ => herror) fun space' _ hspace' hvalid _ => ?_
    cases hspace.symm.trans hspace'
    cases hinvalid.symm.trans hvalid
  | @failed c r v space err hspace hvalid herror hcause =>
    refine isolated_of_same rfl (fun space' hspace' hinvalid => ?_) fun space' err' hspace' _ hrecord => ?_
    · cases hspace.symm.trans hspace'
      cases hvalid.symm.trans hinvalid
    · cases hspace.symm.trans hspace'
      have hgeneration : generationAfter (v (slot N space)) = .error err' :=
        hrecord.elim generationAfter_of_snapshot And.right
      obtain hcause | ⟨hfails, rfl | rfl⟩ := hcause
      · cases hgeneration.symm.trans hcause
        exact .inl herror
      · exact .inr ⟨hfails, .inl herror⟩
      · exact .inr ⟨hfails, .inr herror⟩
  | @loaded v space snapshot hvalid hsnapshot =>
    refine isolated_of_same rfl (fun space' hspace' hinvalid => ?_) fun space' err' hspace' _ hrecord => ?_
    · cases hspace'
      cases hvalid.symm.trans hinvalid
    · cases hspace'
      rcases hrecord with hread | ⟨hwrites, -⟩
      · cases hsnapshot.symm.trans hread
      · cases hwrites
  | written hspace hvalid hreturned hattempt hafter =>
    exact isolated_of_written hspace hvalid hreturned hattempt hafter
  | checked hother =>
    exact ⟨nofun, fun _ _ _ => hother _ (canarySlot_ne _), nofun, nofun, nofun, nofun⟩
  | booted => exact isolated_of_same rfl nofun nofun

end Isolated

/-- Where NVS did not fail, the call fails only for what is stored. -/
theorem isolated (hA : Keeps A) {e : Event N} (h : (backend N).Serves A e) : Isolated (Faulty A e) e := by
  by_cases hsteady : (backend N).Serves (Steady A) e
  · have hfails : Failing (Steady A) → Faulty A e := fun hfails => absurd hfails (Steady.not_failing A)
    exact isolated_of_outcome ((outcome (Steady.keeps hA) hsteady).mono hfails)
  · exact isolated_of_outcome ((outcome hA h).mono fun _ => hsteady)

/-! ### Histories -/

/-- The record of a space is the last write that took effect. -/
structure Stored (v : Content N.Key) (h : List (Event N)) : Prop where
  record : ∀ space, validSpaceName space = true → v (slot N space) =
    (writes took? space h).getLast?.map Write.item
  versioned : ∀ space, Versioned took? space h

theorem writes_snoc (effect : Event N → Option Write) (space : Space) (h : List (Event N)) (e : Event N) :
    writes effect space (h ++ [e]) =
      writes effect space h ++ (effect e).toList.filter fun w => w.space == space := by
  cases hwrite : effect e <;> simp [writes, hwrite]

theorem writes_cons (effect : Event N → Option Write) (space : Space) (h : List (Event N)) (e : Event N) :
    writes effect space (e :: h) =
      ((effect e).toList.filter fun w => w.space == space) ++ writes effect space h := by
  rw [writes, List.filterMap_cons]
  cases effect e with
  | none => rfl
  | some w => exact List.filter_append (p := fun w : Write => w.space == space) [w] _

theorem snapshotOf_item (w : Option Write) :
    snapshotOf (w.map Write.item) = .ok (w.bind Write.snapshot) := by
  cases w with
  | none => rfl
  | some w =>
    simp only [Option.map_some, snapshotOf, Write.item, decodeRecord_encodeRecord]
    cases hdata : w.data <;> simp [Write.snapshot, hdata]

theorem generationAfter_item {w : Write} {generation : UInt64}
    (h : generationAfter (some w.item) = .ok generation) :
    generation.toNat = w.generation.toNat + 1 := by
  simp only [generationAfter, Write.item, decodeRecord_encodeRecord, succ?] at h
  split at h
  · cases h
    rw [UInt64.toNat_add]
    exact Nat.mod_eq_of_lt ‹_›
  · cases h

theorem getLast_of_count {ws : List Write} {w : Write}
    (h : ws.map (fun w => w.generation.toNat) = List.range' 1 ws.length)
    (hlast : ws.getLast? = some w) : w.generation.toNat = ws.length := by
  have hmap := congrArg List.getLast? h
  rw [List.getLast?_map, hlast, List.getLast?_range', Option.map_some] at hmap
  split at hmap
  · cases hmap
  · have hcount := Option.some.inj hmap
    omega

theorem split_snoc {α : Type} {h pre post : List α} {e x : α} (heq : h ++ [e] = pre ++ x :: post) :
    (pre = h ∧ x = e) ∨ ∃ post', h = pre ++ x :: post' := by
  rcases List.eq_nil_or_concat post with rfl | ⟨post', last, rfl⟩
  · obtain ⟨rfl, hlast⟩ := List.append_inj' heq rfl
    exact .inl ⟨rfl, (List.cons.inj hlast).1.symm⟩
  · rw [List.concat_eq_append, ← List.cons_append, ← List.append_assoc] at heq
    exact .inr ⟨post', (List.append_inj' heq rfl).1⟩

/-- An attempt that leaves nothing has not taken effect: its record would be newer than what is there. -/
theorem took_of_same {e : Event N} (hreturned : returned? e = none) (hsame : e.after = e.before) : took? e = none := by
  simp only [took?, hreturned]
  split
  · cases hattempt : attempt? e with
    | none => rfl
    | some w =>
      obtain ⟨-, -, hgeneration⟩ := attempt_spec hattempt
      refine Option.filter_eq_none_iff.mpr fun w' hw' hstored => ?_
      cases hw'
      rw [hsame] at hstored
      rw [of_decide_eq_true hstored] at hgeneration
      have hnext := generationAfter_item hgeneration
      omega
  · rfl

/-- A history that ends with a call that writes nothing. -/
theorem Versioned.read {space : Space} {e : Event N} {h : List (Event N)} (hv : Versioned effect space h)
    (hnone : effect e = none)
    (hload : ∀ r before after, e = ⟨.load space, .ok r, before, after⟩ → r = latest effect space h) :
    Versioned effect space (h ++ [e]) where
  load pre r before after post heq := by
    obtain ⟨rfl, rfl⟩ | ⟨post', heq'⟩ := split_snoc heq
    · exact hload r before after rfl
    · exact hv.load pre r before after post' heq'
  generations := by
    rw [writes_snoc, hnone]
    simpa using hv.generations

theorem Stored.read {e : Event N} {h : List (Event N)} (hs : Stored e.before h)
    (hnone : took? e = none)
    (hsame : ∀ space, validSpaceName space = true → e.after (slot N space) = e.before (slot N space))
    (hload : ∀ space r before after, e = ⟨.load space, .ok r, before, after⟩ → r = latest took? space h) :
    Stored e.after (h ++ [e]) where
  record space hvalid := by
    rw [hsame space hvalid, hs.record space hvalid, writes_snoc, hnone]
    simp
  versioned space := (hs.versioned space).read hnone (hload space)

theorem returned_of_error {e : Event N} {error : NvsConfigError} (h : e.call.error? e.result = some error) :
    returned? e = none := by
  cases hreturned : returned? e with
  | none => rfl
  | some w =>
    rw [error_of_returned hreturned] at h
    cases h

theorem Stored.failed {e : Event N} {h : List (Event N)} {error : NvsConfigError}
    (hs : Stored e.before h) (herror : e.call.error? e.result = some error) (hsame : e.after = e.before) :
    Stored e.after (h ++ [e]) := by
  refine hs.read (took_of_same (returned_of_error herror) hsame) (fun _ _ => by rw [hsame]) ?_
  rintro space r before after rfl
  cases herror

/-- A history that ends with a write of the next generation. -/
theorem Stored.write {e : Event N} {h : List (Event N)} {w : Write} (hs : Stored e.before h)
    (hvalid : validSpaceName w.space = true) (htook : took? e = some w) (hattempt : attempt? e = some w)
    (hafter : e.after = Function.update e.before (slot N w.space) (some w.item)) :
    Stored e.after (h ++ [e]) where
  record space hspace := by
    rw [hafter, writes_snoc, htook]
    by_cases heq : w.space = space
    · subst heq
      simp
    · rw [Function.update_of_ne fun hsame => heq (slot_inj hspace hvalid hsame).symm, hs.record space hspace]
      simp [heq]
  versioned space := {
    load := by
      intro pre r before after post heq
      obtain ⟨rfl, rfl⟩ | ⟨post', heq'⟩ := split_snoc heq
      · cases hattempt
      · exact (hs.versioned space).load pre r before after post' heq'
    generations := by
      have hcount := (hs.versioned space).generations
      obtain ⟨-, -, hgeneration⟩ := attempt_spec hattempt
      rw [writes_snoc, htook]
      by_cases heq : w.space = space
      · subst heq
        have hnext : w.generation.toNat = (writes took? w.space h).length + 1 := by
          rw [hs.record w.space hvalid] at hgeneration
          cases hlast : (writes took? w.space h).getLast? with
          | none =>
            rw [hlast] at hgeneration
            rw [← Except.ok.inj hgeneration, List.getLast?_eq_none_iff.mp hlast]
            rfl
          | some last =>
            rw [hlast] at hgeneration
            rw [generationAfter_item hgeneration, getLast_of_count hcount hlast]
        simp only [Option.toList_some, List.filter_cons, BEq.rfl, if_true, List.filter_nil, List.map_append,
          hcount, List.map_cons, List.map_nil, hnext, List.length_append, List.length_singleton]
        rw [List.range'_1_concat, Nat.add_comm 1]
      · simpa [heq] using hcount }

theorem Stored.snoc (hA : Keeps A) {e : Event N} {h : List (Event N)} (hs : Stored e.before h)
    (he : (backend N).Serves A e) : Stored e.after (h ++ [e]) := by
  cases outcome hA he with
  | refused hspace hinvalid herror => exact hs.failed herror rfl
  | failed hspace hvalid herror hcause => exact hs.failed herror rfl
  | @loaded v space snapshot hvalid hsnapshot =>
    refine hs.read (took_of_same rfl rfl) (fun _ _ => rfl) ?_
    intro space' r before after heq
    cases heq
    rw [show v (slot N space) = _ from hs.record space hvalid, snapshotOf_item] at hsnapshot
    exact (Except.ok.inj hsnapshot).symm
  | written hspace hvalid hreturned hattempt hafter =>
    rcases hreturned with hreturned | ⟨-, hnone, herror⟩
    · exact hs.write hvalid (took_of_returned hreturned) hattempt hafter
    · exact hs.write hvalid (took_of_stored hnone herror hattempt hafter) hattempt hafter
  | checked hother => exact hs.read rfl (fun _ _ => hother _ (canarySlot_ne _)) nofun
  | booted => exact hs.read (took_of_same rfl rfl) (fun _ _ => rfl) nofun

theorem Stored.serial (hA : Keeps A) {v v' : Content N.Key} {h : List (Event N)} (hs : Stored v [])
    (hserial : Service.Serial (backend N) A v h v') : Stored v' h := by
  induction hserial with
  | nil => exact hs
  | snoc _ he ih => exact ih.snoc hA he

theorem stored_nil {v : Content N.Key} (h : ∀ key, v (NAMESPACE N, key) = none) : Stored v [] where
  record _ _ := h _
  versioned _ := {
    load := by
      intro pre r before after post heq
      cases pre <;> cases heq
    generations := rfl }

/-! ### What the callers learn -/

theorem took_toList_sublist (e : Event N) : (returned? e).toList.Sublist (took? e).toList := by
  cases hreturned : returned? e with
  | none => exact List.nil_sublist _
  | some w => rw [took_of_returned hreturned]

/-- Every write that was returned took effect. -/
theorem writes_sublist (space : Space) (h : List (Event N)) :
    (writes returned? space h).Sublist (writes took? space h) := by
  induction h with
  | nil => exact .slnil
  | cons e h ih =>
    rw [writes_cons, writes_cons]
    exact ((took_toList_sublist e).filter _).append ih

/-- An attempt of another space, or one that did not return `Err(Write)`, took effect only if it was returned. -/
theorem took_of_unfailing {space : Space} {e : Event N} (h : e.call.space? = some space → e.call.writes = true →
    e.call.error? e.result ≠ some .write) : ((took? e).toList.filter fun w => w.space == space) =
      (returned? e).toList.filter fun w => w.space == space := by
  cases hreturned : returned? e with
  | some w => rw [took_of_returned hreturned]
  | none =>
    simp only [took?, hreturned]
    split
    · next herror =>
      cases hattempt : attempt? e with
      | none => rfl
      | some w =>
        obtain ⟨hspace, hwrites, -⟩ := attempt_spec hattempt
        have hne : w.space ≠ space := fun heq => h (heq ▸ hspace) hwrites herror
        rw [Option.filter_some]
        split
        · simp [hne]
        · rfl
    · rfl

theorem writes_unfailing {space : Space} {h : List (Event N)} (hok : Unfailing space h) :
    writes took? space h = writes returned? space h := by
  induction h with
  | nil => rfl
  | cons e h ih =>
    rw [writes_cons, writes_cons, took_of_unfailing (hok e List.mem_cons_self),
      ih fun e' hmem => hok e' (List.mem_cons_of_mem _ hmem)]

/-- As long as no write of the space fails in NVS, the writes that took effect are those that were returned. -/
theorem Versioned.returned {space : Space} {h : List (Event N)} (hv : Versioned took? space h)
    (hok : Unfailing space h) : Versioned returned? space h where
  load pre r before after post heq := by
    have hpre : Unfailing space pre := fun e hmem => hok e (heq ▸ List.mem_append_left _ hmem)
    rw [hv.load pre r before after post heq, latest, latest, writes_unfailing hpre]
  generations := writes_unfailing hok ▸ hv.generations

/-- The generations that are returned grow, and none is returned twice. -/
theorem Versioned.increasing {space : Space} {h : List (Event N)} (hv : Versioned took? space h) :
    ((writes returned? space h).map fun w => w.generation.toNat).Pairwise (· < ·) := by
  refine List.Pairwise.sublist ((writes_sublist space h).map _) ?_
  rw [hv.generations]
  exact List.pairwise_lt_range'

theorem keeps_bound (F : Flash N.Key) : Keeps F.device.bound := by
  rintro v o r v' ⟨s, s', h, rfl, rfl⟩
  exact F.bound h

theorem rest_quiet (F : Flash N.Key) (c : Call) (r : c.Result) :
    ((backend N).rest c r).Only F.device.quiet := by
  cases c with
  | new =>
    cases r with
    | ok capacity => exact only_op ⟨true, rfl⟩
    | error e => trivial
  | selfCheck => exact only_op ⟨r, rfl⟩
  | load space => trivial
  | commit space data => trivial
  | clear space => trivial

/-- However the tasks interleave, fail and restart: their calls are served one after the other, each leaves alone
what is not its own, and the store is a versioned map of the writes that took effect if it began empty. These are
the ones that were returned, and those of calls that returned `Err(Write)` although NVS stored the record. -/
theorem versioned_map {ι : Type} [DecidableEq ι] {F : Flash N.Key} {s : F.State × Bool}
    {st : Service.State (backend N) ι (F.State × Bool) (Content N.Key)}
    (h : Service.Reach (backend N) F.device s st) :
    (Service.Serial (backend N) F.device.bound (F.content s.1) st.history st.settled ∧
      (st.holder = none → st.settled = F.content st.shared.1)) ∧
    (∀ e ∈ st.history, Isolated (Faulty F.device.bound e) e) ∧
    ((∀ key, F.content s.1 (NAMESPACE N, key) = none) → ∀ space, Versioned took? space st.history ∧
      (writes returned? space st.history).Sublist (writes took? space st.history) ∧
      ((writes returned? space st.history).map fun w => w.generation.toNat).Pairwise (· < ·) ∧
      (Unfailing space st.history → Versioned returned? space st.history)) := by
  obtain ⟨hserial, hsettled⟩ := Service.serializable (rest_quiet F) h
  refine ⟨⟨hserial, hsettled⟩, ?_, fun hempty space => ?_⟩
  · exact fun e he => isolated (keeps_bound F) (hserial.serves e he)
  · have hversioned := ((stored_nil hempty).serial (keeps_bound F) hserial).versioned space
    exact ⟨hversioned, writes_sublist space _, hversioned.increasing, hversioned.returned⟩

/-- Two spaces, a clear that NVS fails although it stores the record, and a restart. -/
theorem Reference.exists_cleared_run : ∃ st : RunState flaky,
    Service.Reach (backend espNvs) flaky.device ((empty, [false, false, true]), true) st ∧
    results st = [⟨.commit [97] [7], .ok 1⟩, ⟨.commit [98] [5], .ok 1⟩, ⟨.clear [97], .error .write⟩,
      ⟨.load [97], .ok none⟩, ⟨.commit [97] [9], .ok 3⟩, ⟨.load [98], .ok (some ⟨1, [5]⟩)⟩] :=
  exists_flaky [.commit [97] [7], .commit [98] [5], .clear [97]] [.load [97], .commit [97] [9], .load [98]]
    [false, false, true]

theorem versioned_map_two : ∃ st : Reference.RunState Reference.flaky,
    Reference.results st = [⟨.commit [97] [7], .ok 1⟩, ⟨.commit [98] [5], .ok 1⟩, ⟨.clear [97], .error .write⟩,
      ⟨.load [97], .ok none⟩, ⟨.commit [97] [9], .ok 3⟩, ⟨.load [98], .ok (some ⟨1, [5]⟩)⟩] ∧
    (∀ e ∈ st.history, Isolated (Faulty Reference.flaky.device.bound e) e) ∧
    Versioned took? [97] st.history ∧ Versioned returned? [98] st.history := by
  obtain ⟨st, hreach, hresults⟩ := Reference.exists_cleared_run
  obtain ⟨-, hisolated, hversioned⟩ := versioned_map hreach
  obtain ⟨hfailing, -, -, -⟩ := hversioned (fun _ => rfl) [97]
  obtain ⟨-, -, -, hunfailing⟩ := hversioned (fun _ => rfl) [98]
  have hresult : ∀ x ∈ Reference.results st, x.1.space? = some [98] → x.1.writes = true →
      x.1.error? x.2 ≠ some .write := by
    rw [hresults]
    decide
  exact ⟨st, hresults, hisolated, hfailing, hunfailing fun e hmem => hresult _ (Reference.mem_results hmem)⟩

/-- NVS stores the second record and reports a failure. -/
theorem Reference.exists_flaky_run : ∃ st : RunState flaky,
    Service.Reach (backend espNvs) flaky.device ((empty, [false, true]), true) st ∧
    results st = [⟨.commit [97] [7], .ok 1⟩, ⟨.commit [97] [8], .error .write⟩,
      ⟨.load [97], .ok (some ⟨2, [8]⟩)⟩, ⟨.commit [97] [9], .ok 3⟩] :=
  exists_flaky [.commit [97] [7], .commit [97] [8]] [.load [97], .commit [97] [9]] [false, true]

/-- The failing call has changed the record, the load returns what no call returned, and the third call
returns 3. -/
theorem versioned_map_fails : ∃ st : Reference.RunState Reference.flaky,
    Service.Reach (backend Reference.espNvs) Reference.flaky.device ((Reference.empty, [false, true]), true) st ∧
    Reference.results st = [⟨.commit [97] [7], .ok 1⟩, ⟨.commit [97] [8], .error .write⟩,
      ⟨.load [97], .ok (some ⟨2, [8]⟩)⟩, ⟨.commit [97] [9], .ok 3⟩] ∧
    ¬ Versioned returned? [97] st.history ∧
    ∃ e ∈ st.history, e.call.error? e.result = some .write ∧ e.after ≠ e.before := by
  obtain ⟨st, hreach, hresults⟩ := Reference.exists_flaky_run
  obtain ⟨⟨_, _, before, after⟩, _, hhistory, hfirst, hrest⟩ := List.map_eq_cons_iff.mp hresults
  obtain ⟨⟨_, _, before₂, after₂⟩, _, rfl, hsecond, hrest⟩ := List.map_eq_cons_iff.mp hrest
  obtain ⟨⟨_, _, before₃, after₃⟩, _, rfl, hthird, hrest⟩ := List.map_eq_cons_iff.mp hrest
  obtain ⟨⟨_, _, before₄, after₄⟩, _, rfl, hfourth, hrest⟩ := List.map_eq_cons_iff.mp hrest
  obtain rfl := List.map_eq_nil_iff.mp hrest
  cases hfirst
  cases hsecond
  cases hthird
  cases hfourth
  refine ⟨st, hreach, hresults, fun hversioned => ?_, ⟨.commit [97] [8], .error .write, before₂, after₂⟩, ?_, rfl,
    fun hsame => ?_⟩
  · have hgenerations := hversioned.generations
    rw [hhistory] at hgenerations
    have hcount : [1, 3] = [1, 2] := hgenerations
    exact absurd hcount (by decide)
  · rw [hhistory]
    exact .tail _ (.head _)
  · obtain ⟨hserial, -⟩ := Service.serializable (rest_quiet _) hreach
    have hversioned := ((stored_nil fun _ => rfl).serial (keeps_bound _) hserial).versioned [97]
    have hload := hversioned.load [_, _] _ _ _ [_] hhistory
    rw [latest, writes, List.filterMap_cons, took_of_returned rfl, List.filterMap_cons, took_of_same rfl hsame] at hload
    have hsnapshot : some (Snapshot.mk 2 [8]) = some ⟨1, [7]⟩ := hload
    exact absurd hsnapshot (by decide)

end Espbewi.ConfigSpace
