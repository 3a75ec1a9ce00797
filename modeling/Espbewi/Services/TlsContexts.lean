import Espbewi.Services.TlsIdentity

/-! Each context is freed once and not used afterwards, each PSA key is destroyed once: on every way out of
`validate_cert_key_pair` and `generate_self_signed_identity`. -/

namespace Espbewi.Tls

open Lib Prog

/-- `zeroed` is a boxed default that no call has initialized, `dropped` one that was freed as it was. -/
inductive Context
  | absent
  | zeroed
  | ready
  | freed
  | dropped
  deriving DecidableEq

def Context.free : Context → Option Context
  | .zeroed => some .dropped
  | .ready => some .freed
  | .absent | .freed | .dropped => none

/-- The PSA key of a function. `left` is one that `psa_destroy_key` failed to destroy. -/
inductive Key
  | none
  | alive (id : UInt32)
  | destroyed (id : UInt32)
  | left (id : UInt32)
  deriving DecidableEq

structure Contexts where
  pk : Context
  crt : Context
  writeCrt : Context
  key : Key
  deriving DecidableEq

namespace Contexts

/-- A call is refused on a context that is not initialized, on a key that is not alive, and on a context that
was freed. Only the functions that free a context take one that is not initialized. -/
def step : Monitor FfiOp FfiOp.Ans Contexts := fun c ev => match ev with
  | ⟨.psaCryptoInit, _⟩ | ⟨.rngRead _, _⟩ => some c
  | ⟨.psaGenerateKey _, (_, id)⟩ =>
    if c.key = .none then some { c with key := if id = 0 then .none else .alive id } else none
  | ⟨.psaDestroyKey id, rc⟩ =>
    if c.key = .alive id then some { c with key := if rc = 0 then .destroyed id else .left id } else none
  | ⟨.pkInit, _⟩ => if c.pk = .zeroed then some { c with pk := .ready } else none
  | ⟨.pkCopyFromPsa id, _⟩ => if c.pk = .ready ∧ c.key = .alive id then some c else none
  | ⟨.pkParseKey _, _⟩ | ⟨.pkWriteKeyPem _, _⟩ => if c.pk = .ready then some c else none
  | ⟨.pkCheckPair, _⟩ => if c.pk = .ready ∧ c.crt = .ready then some c else none
  | ⟨.pkFree, _⟩ => c.pk.free.map fun pk => { c with pk := pk }
  | ⟨.crtInit, _⟩ => if c.crt = .zeroed then some { c with crt := .ready } else none
  | ⟨.crtParse _, _⟩ => if c.crt = .ready then some c else none
  | ⟨.crtFree, _⟩ => c.crt.free.map fun crt => { c with crt := crt }
  | ⟨.writeCrtInit, _⟩ => if c.writeCrt = .zeroed then some { c with writeCrt := .ready } else none
  | ⟨.writeCrtSetSubjectKey, _⟩ | ⟨.writeCrtSetIssuerKey, _⟩ | ⟨.writeCrtPem _, _⟩ =>
    if c.writeCrt = .ready ∧ c.pk = .ready then some c else none
  | ⟨.writeCrtSetSubjectName _, _⟩ | ⟨.writeCrtSetIssuerName _, _⟩ | ⟨.writeCrtSetSerialRaw _, _⟩
  | ⟨.writeCrtSetValidity .., _⟩ | ⟨.writeCrtSetMdAlgSha256, _⟩ | ⟨.writeCrtSetBasicConstraints .., _⟩ =>
    if c.writeCrt = .ready then some c else none
  | ⟨.writeCrtFree, _⟩ => c.writeCrt.free.map fun writeCrt => { c with writeCrt := writeCrt }

/-- The contexts of `validate_cert_key_pair`. -/
def pair : Contexts := ⟨.zeroed, .zeroed, .absent, .none⟩

/-- The contexts of `generate_self_signed_identity`. -/
def identity : Contexts := ⟨.zeroed, .absent, .zeroed, .none⟩

end Contexts

open Contexts

variable {ε α β : Type} {Q : Except ε α → Contexts → Prop} {c c' : Contexts}

/-- Whatever the calls are answered, they lead from `c` to `c'`. -/
def Leads (p : FfiProg β) (c c' : Contexts) : Prop := p.Monitored step (fun _ c₁ => c₁ = c') c

theorem lift_then {p : FfiProg β} {k : β → FfiM ε α} (hp : Leads p c c')
    (hk : ∀ b, Monitored step (ExceptT.run (k b)) Q c') :
    Monitored step (ExceptT.run (ExceptT.lift p >>= k)) Q c := by
  rw [monitored_try, monitored_lift]
  refine hp.mono fun b c₁ h => ?_
  cases h
  exact hk b

theorem check_then {p : FfiProg Int32} {e : Int32 → ε} {k : Unit → FfiM ε α} (hp : Leads p c c')
    (herr : ∀ rc, Q (.error (e rc)) c') (hk : Monitored step (ExceptT.run (k ())) Q c') :
    Monitored step (ExceptT.run (checkRc p e >>= k)) Q c := by
  rw [monitored_try, checkRc, ExceptT.run_mk, monitored_bind]
  refine hp.mono fun rc c₁ h => ?_
  cases h
  split
  · exact hk
  · exact herr rc

theorem ofExcept_then {r : Except ε β} {k : β → FfiM ε α} (herr : ∀ e, r = .error e → Q (.error e) c)
    (hk : ∀ b, Monitored step (ExceptT.run (k b)) Q c) :
    Monitored step (ExceptT.run (Prog.ofExcept r >>= k)) Q c := by
  cases r with
  | ok b => exact hk b
  | error e => exact herr e rfl

theorem throw_unless {b : Prop} [Decidable b] {e : ε} {k : PUnit → FfiM ε α} (herr : Q (.error e) c)
    (hk : Monitored step (ExceptT.run (k ⟨⟩)) Q c) :
    Monitored step (ExceptT.run (if b then throw e >>= k else k ⟨⟩)) Q c := by
  split
  · exact herr
  · exact hk

/-- Once both contexts are initialized they stay so until `Drop`. -/
theorem parsePair_ready (certC keyC : List UInt8) : Monitored step (ExceptT.run (parsePair certC keyC))
    (fun _ c => c = ⟨.ready, .ready, .absent, .none⟩) pair := by
  refine lift_then (fun _ => ⟨_, rfl, rfl⟩) fun _ => lift_then (fun _ => ⟨_, rfl, rfl⟩) fun _ => ?_
  refine check_then (fun _ => ⟨_, rfl, rfl⟩) (fun _ => rfl) ?_
  refine check_then (fun _ => ⟨_, rfl, rfl⟩) (fun _ => rfl) ?_
  rw [checkRc, ExceptT.run_mk, monitored_bind]
  intro rc
  refine ⟨_, rfl, ?_⟩
  show Monitored _ (if _ then _ else _) _ _
  split
  · rfl
  · rfl

/-- The ways out before `mbedtls_pk_init`. -/
def beforePk : Except IdentityGenerationError GeneratedIdentity → Bool
  | .error (.psaInit _) | .error (.keyGeneration _) => true
  | _ => false

/-- The ways out before `mbedtls_x509write_crt_init`. -/
def beforeWriteCrt : Except IdentityGenerationError GeneratedIdentity → Bool
  | .error (.psaInit _) | .error (.keyGeneration _) | .error (.keySetup _) => true
  | _ => false

/-- What `Drop` finds. -/
structure Held (r : Except IdentityGenerationError GeneratedIdentity) (keyId : UInt32) (c : Contexts) : Prop where
  pk : c.pk = if beforePk r then .zeroed else .ready
  crt : c.crt = .absent
  writeCrt : c.writeCrt = if beforeWriteCrt r then .zeroed else .ready
  key : c.key = if keyId = 0 then .none else .alive keyId

theorem pemString_error {buf : List UInt8} {e : IdentityGenerationError} (h : pemString buf = .error e) :
    e = .invalidUtf8 := by
  simp only [pemString] at h
  split at h
  · cases h
  · exact (Except.error.inj h).symm

theorem certify_held {keyId : UInt32} (hid : keyId ≠ 0) (subject : List UInt8) :
    Monitored step (ExceptT.run (certify keyId subject)) (fun r => Held r keyId)
      ⟨.zeroed, .absent, .zeroed, .alive keyId⟩ := by
  have hkey : Key.alive keyId = if keyId = 0 then .none else .alive keyId := (if_neg hid).symm
  refine lift_then (fun _ => ⟨_, rfl, rfl⟩) fun _ => ?_
  have hcopy : Leads (op (.pkCopyFromPsa keyId)) ⟨.ready, .absent, .zeroed, .alive keyId⟩
      ⟨.ready, .absent, .zeroed, .alive keyId⟩ := fun _ => ⟨_, if_pos ⟨rfl, rfl⟩, rfl⟩
  refine check_then hcopy (fun _ => ⟨rfl, rfl, rfl, hkey⟩) ?_
  -- from here on both contexts are initialized, and no call changes that
  have hheld : ∀ r, beforePk r = false → beforeWriteCrt r = false →
      Held r keyId ⟨.ready, .absent, .ready, .alive keyId⟩ := fun r hpk hcrt =>
    ⟨by rw [hpk]; rfl, rfl, by rw [hcrt]; rfl, hkey⟩
  refine lift_then (fun _ => ⟨_, rfl, rfl⟩) fun _ => ?_
  refine check_then (fun _ => ⟨_, rfl, rfl⟩) (fun _ => hheld _ rfl rfl) ?_
  refine check_then (fun _ => ⟨_, rfl, rfl⟩) (fun _ => hheld _ rfl rfl) ?_
  refine lift_then (fun _ => ⟨_, rfl, rfl⟩) fun _ => lift_then (fun _ => ⟨_, rfl, rfl⟩) fun _ => ?_
  refine lift_then (fun _ => ⟨_, rfl, rfl⟩) fun random => ?_
  refine check_then (fun _ => ⟨_, rfl, rfl⟩) (fun _ => hheld _ rfl rfl) ?_
  refine check_then (fun _ => ⟨_, rfl, rfl⟩) (fun _ => hheld _ rfl rfl) ?_
  refine lift_then (fun _ => ⟨_, rfl, rfl⟩) fun _ => ?_
  refine check_then (fun _ => ⟨_, rfl, rfl⟩) (fun _ => hheld _ rfl rfl) ?_
  refine lift_then (fun _ => ⟨_, rfl, rfl⟩) fun key => throw_unless (hheld _ rfl rfl) ?_
  refine lift_then (fun _ => ⟨_, rfl, rfl⟩) fun cert => throw_unless (hheld _ rfl rfl) ?_
  have htext : ∀ {buf : List UInt8} e, pemString buf = .error e →
      Held (.error e) keyId ⟨.ready, .absent, .ready, .alive keyId⟩ := fun e he => by
    rw [pemString_error he]
    exact hheld _ rfl rfl
  exact ofExcept_then htext fun _ => ofExcept_then htext fun _ => hheld _ rfl rfl

theorem buildIdentity_held (subject : List UInt8) :
    (buildIdentity subject).Monitored step (fun r => Held r.1 r.2) identity := by
  intro rc
  refine ⟨_, rfl, ?_⟩
  show Monitored _ (if rc ≠ 0 then _ else _) _ _
  split
  · exact ⟨rfl, rfl, rfl, rfl⟩
  · rintro ⟨rc, keyId⟩
    refine ⟨{ identity with key := if keyId = 0 then .none else .alive keyId }, rfl, ?_⟩
    show Monitored _ (if rc ≠ 0 ∨ keyId = 0 then _ else _) _ _
    split
    · exact ⟨rfl, rfl, rfl, rfl⟩
    · next hok =>
      have hid : keyId ≠ 0 := fun h => hok (.inr h)
      rw [if_neg hid]
      exact monitored_bind.mpr ((certify_held hid subject).mono fun _ _ h => h)

theorem dropPair_freed : dropPair.Monitored step (fun _ c => c = ⟨.freed, .freed, .absent, .none⟩)
    ⟨.ready, .ready, .absent, .none⟩ := fun _ => ⟨_, rfl, fun _ => ⟨_, rfl, rfl⟩⟩

/-! ### Keys -/

def deliveredBy : Event FfiOp FfiOp.Ans → Option UInt32
  | ⟨.psaGenerateKey _, (_, id)⟩ => if id = 0 then none else some id
  | _ => none

def destroyedBy : Event FfiOp FfiOp.Ans → Option UInt32
  | ⟨.psaDestroyKey id, _⟩ => some id
  | _ => none

/-- The key ids that `psa_generate_key` hands out. -/
def delivered (tr : List (Event FfiOp FfiOp.Ans)) : List UInt32 := tr.filterMap deliveredBy

/-- The key ids that `psa_destroy_key` is asked to destroy. -/
def destroyed (tr : List (Event FfiOp FfiOp.Ans)) : List UInt32 := tr.filterMap destroyedBy

theorem delivered_cons (ev : Event FfiOp FfiOp.Ans) (tr : List (Event FfiOp FfiOp.Ans)) :
    delivered (ev :: tr) = (deliveredBy ev).toList ++ delivered tr := by
  rw [delivered, List.filterMap_cons]
  cases deliveredBy ev <;> rfl

theorem destroyed_cons (ev : Event FfiOp FfiOp.Ans) (tr : List (Event FfiOp FfiOp.Ans)) :
    destroyed (ev :: tr) = (destroyedBy ev).toList ++ destroyed tr := by
  rw [destroyed, List.filterMap_cons]
  cases destroyedBy ev <;> rfl

def Key.pending : Key → List UInt32
  | .alive id => [id]
  | .none | .destroyed _ | .left _ => []

section Ledger

variable {ev : Event FfiOp FfiOp.Ans} {tr : List (Event FfiOp FfiOp.Ans)} {id : UInt32}

/-- A call that is about no key. -/
theorem step_key_same (h : step c ev = some c') (hgenerate : ∀ a, ev.1 ≠ .psaGenerateKey a)
    (hdestroy : ∀ id, ev.1 ≠ .psaDestroyKey id) : c'.key = c.key := by
  obtain ⟨o, r⟩ := ev
  cases o with
  | psaGenerateKey a => exact absurd rfl (hgenerate a)
  | psaDestroyKey id => exact absurd rfl (hdestroy id)
  | psaCryptoInit | rngRead =>
    cases h
    rfl
  | pkFree | crtFree | writeCrtFree =>
    obtain ⟨_, -, rfl⟩ := Option.map_eq_some_iff.mp h
    rfl
  | _ =>
    obtain ⟨-, h⟩ := Option.ite_none_right_eq_some.mp h
    cases h
    rfl

/-- What was pending or is handed out is destroyed or still pending. -/
theorem step_keys (h : step c ev = some c') :
    c.key.pending ++ (deliveredBy ev).toList = (destroyedBy ev).toList ++ c'.key.pending := by
  obtain ⟨o, r⟩ := ev
  cases o with
  | psaGenerateKey a =>
    obtain ⟨hnone, h⟩ := Option.ite_none_right_eq_some.mp h
    cases h
    rw [hnone, deliveredBy]
    split
    · rfl
    · rfl
  | psaDestroyKey id =>
    obtain ⟨halive, h⟩ := Option.ite_none_right_eq_some.mp h
    cases h
    rw [halive]
    show _ = [id] ++ Key.pending (if r = 0 then _ else _)
    split
    · rfl
    · rfl
  | _ =>
    rw [step_key_same h nofun nofun]
    exact List.append_nil _

theorem keys_ledger (h : tr.foldlM step c = some c') :
    c.key.pending ++ delivered tr = destroyed tr ++ c'.key.pending := by
  induction tr generalizing c with
  | nil =>
    cases h
    exact List.append_nil _
  | cons ev tr ih =>
    rw [List.foldlM_cons] at h
    obtain ⟨c₁, hstep, h⟩ := Option.bind_eq_some_iff.mp h
    rw [delivered_cons, destroyed_cons, ← List.append_assoc, step_keys hstep, List.append_assoc,
      List.append_assoc, ih h]

/-- A key is left only by a `psa_destroy_key` that failed. -/
theorem key_left (h : tr.foldlM step c = some c') (hleft : c'.key = .left id) :
    c.key = .left id ∨ ∃ rc, rc ≠ 0 ∧ ⟨.psaDestroyKey id, rc⟩ ∈ tr := by
  induction tr generalizing c with
  | nil =>
    cases h
    exact .inl hleft
  | cons ev tr ih =>
    rw [List.foldlM_cons] at h
    obtain ⟨c₁, hstep, h⟩ := Option.bind_eq_some_iff.mp h
    rcases ih h with h₁ | ⟨rc, hrc, hmem⟩
    · obtain ⟨o, r⟩ := ev
      cases o with
      | psaGenerateKey a =>
        obtain ⟨-, hstep⟩ := Option.ite_none_right_eq_some.mp hstep
        cases hstep
        replace h₁ : (if r.2 = 0 then Key.none else .alive r.2) = .left id := h₁
        split at h₁
        · cases h₁
        · cases h₁
      | psaDestroyKey id' =>
        obtain ⟨-, hstep⟩ := Option.ite_none_right_eq_some.mp hstep
        cases hstep
        replace h₁ : (if r = 0 then Key.destroyed id' else .left id') = .left id := h₁
        split at h₁
        · cases h₁
        · next hrc =>
          cases h₁
          exact .inr ⟨r, hrc, List.mem_cons_self⟩
      | _ => exact .inl ((step_key_same hstep nofun nofun).symm.trans h₁)
    · exact .inr ⟨rc, hrc, List.mem_cons_of_mem _ hmem⟩

end Ledger

/-! ### Every way out -/

/-- What is left when `generate_self_signed_identity` returns `r`. A context is dropped as the default it was
made as exactly on the ways out before its initialization. -/
structure Released (r : Except IdentityGenerationError GeneratedIdentity) (tr : List (Event FfiOp FfiOp.Ans))
    (c : Contexts) : Prop where
  pk : c.pk = if beforePk r then .dropped else .freed
  crt : c.crt = .absent
  writeCrt : c.writeCrt = if beforeWriteCrt r then .dropped else .freed
  keys : delivered tr = destroyed tr
  left : ∀ id, c.key = .left id → ∃ rc, rc ≠ 0 ∧ ⟨.psaDestroyKey id, rc⟩ ∈ tr

theorem free_ite (b : Bool) : Context.free (if b then .zeroed else .ready) = some (if b then .dropped else .freed) := by
  cases b <;> rfl

/-- What `Drop` leaves of what it finds. -/
theorem dropIdentity_freed {r : Except IdentityGenerationError GeneratedIdentity} {keyId : UInt32}
    (h : Held r keyId c) : (dropIdentity keyId).Monitored step (fun _ c =>
      (c.pk = if beforePk r then .dropped else .freed) ∧ c.crt = .absent ∧
        (c.writeCrt = if beforeWriteCrt r then .dropped else .freed) ∧ c.key.pending = []) c := by
  obtain ⟨pk, crt, writeCrt, key⟩ := c
  obtain ⟨rfl, rfl, rfl, rfl⟩ := h
  refine fun _ => ⟨_, congrArg (Option.map _) (free_ite _), fun _ => ⟨_, congrArg (Option.map _) (free_ite _), ?_⟩⟩
  show Monitored _ (if keyId ≠ 0 then _ else _) _ _
  split
  · next hid =>
    refine fun rc => ⟨_, if_pos rfl, rfl, rfl, rfl, ?_⟩
    show Key.pending (if rc = 0 then _ else _) = []
    split
    · rfl
    · rfl
  · next hid => exact ⟨rfl, rfl, rfl, congrArg Key.pending (if_pos (not_not.mp hid))⟩

theorem cString_none {bytes : List UInt8} : cString bytes = none ↔ 0 ∈ bytes := by
  unfold cString
  split
  · simpa
  · simpa

theorem validate_freed {certPem keyPem : List UInt8} {tr : List (Event FfiOp FfiOp.Ans)}
    {r : Except PairError Unit} (h : Runs (validateCertKeyPair certPem keyPem) tr r) :
    (tr = [] ∧ (0 ∈ certPem ∨ 0 ∈ keyPem)) ∨ tr.foldlM step pair = some ⟨.freed, .freed, .absent, .none⟩ := by
  unfold validateCertKeyPair at h
  split at h
  · next hcert => exact .inl ⟨(runs_ret.mp h).1, .inl (cString_none.mp hcert)⟩
  · next hkey => exact .inl ⟨(runs_ret.mp h).1, .inr (cString_none.mp hkey)⟩
  · next certC keyC _ _ =>
    right
    obtain ⟨c, hfold, rfl⟩ := Monitored.runs (Q := fun _ (c : Contexts) => c = ⟨.freed, .freed, .absent, .none⟩) (by
      rw [monitored_bind]
      refine (parsePair_ready certC keyC).mono fun r c hc => ?_
      rw [hc, monitored_bind]
      exact dropPair_freed.mono fun _ _ h => h) h
    exact hfold

theorem generate_released {commonName : List UInt8} {tr : List (Event FfiOp FfiOp.Ans)}
    {r : Except IdentityGenerationError GeneratedIdentity} (h : Runs (generateSelfSignedIdentity commonName) tr r) :
    (tr = [] ∧ 0 ∈ commonName) ∨ ∃ c, tr.foldlM step identity = some c ∧ Released r tr c := by
  unfold generateSelfSignedIdentity at h
  split at h
  · next hname =>
    refine .inl ⟨(runs_ret.mp h).1, ?_⟩
    rcases List.mem_append.mp (cString_none.mp hname) with hmem | hmem
    · exact absurd hmem (by decide)
    · exact hmem
  · next subject _ =>
    right
    obtain ⟨c, hfold, hpk, hcrt, hwrite, hpending⟩ := Monitored.runs (Q := fun r (c : Contexts) =>
      (c.pk = if beforePk r then .dropped else .freed) ∧ c.crt = .absent ∧
        (c.writeCrt = if beforeWriteCrt r then .dropped else .freed) ∧ c.key.pending = []) (by
      rw [monitored_bind]
      refine (buildIdentity_held subject).mono fun r c hheld => ?_
      exact monitored_bind.mpr ((dropIdentity_freed hheld).mono fun _ _ h => h)) h
    refine ⟨c, hfold, hpk, hcrt, hwrite, ?_, fun id hleft => ?_⟩
    · have hledger := keys_ledger hfold
      rwa [hpending, List.append_nil] at hledger
    · exact (key_left hfold hleft).resolve_left nofun

/-- Whatever the calls are answered, wherever the functions return: no call is refused, so none is made on a
context that is not initialized or already freed, but for the freeing of a default, and every context and key
is released as `Released` says. `validate_cert_key_pair` frees no default. -/
theorem contexts_released :
    (∀ certPem keyPem tr r, Runs (validateCertKeyPair certPem keyPem) tr r →
      (tr = [] ∧ (0 ∈ certPem ∨ 0 ∈ keyPem)) ∨ tr.foldlM step pair = some ⟨.freed, .freed, .absent, .none⟩) ∧
    ∀ commonName tr r, Runs (generateSelfSignedIdentity commonName) tr r →
      (tr = [] ∧ 0 ∈ commonName) ∨ ∃ c, tr.foldlM step identity = some c ∧ Released r tr c :=
  ⟨fun _ _ _ _ => validate_freed, fun _ _ _ => generate_released⟩

/-- A key comes with a failing call, and is destroyed. Both contexts are freed as they were made. -/
def strayKey : List (Event FfiOp FfiOp.Ans) :=
  [⟨.psaCryptoInit, 0⟩, ⟨.psaGenerateKey attributes, (-134, 7)⟩, ⟨.writeCrtFree, ()⟩, ⟨.pkFree, ()⟩,
    ⟨.psaDestroyKey 7, 0⟩]

theorem run_strayKey : Runs (generateSelfSignedIdentity [0x61]) strayKey (.error (.keyGeneration (-134))) :=
  .call (.call (.call (.call (.call .ret))))

theorem contexts_released_stray : strayKey.foldlM step identity =
      some ⟨.dropped, .absent, .dropped, .destroyed 7⟩ ∧
    Released (.error (.keyGeneration (-134))) strayKey ⟨.dropped, .absent, .dropped, .destroyed 7⟩ := by
  have hfold : strayKey.foldlM step identity = some ⟨.dropped, .absent, .dropped, .destroyed 7⟩ := by decide
  obtain ⟨hnil, -⟩ | ⟨c, hc, hreleased⟩ := contexts_released.2 _ _ _ run_strayKey
  · cases hnil
  · cases hfold.symm.trans hc
    exact ⟨hfold, hreleased⟩

end Espbewi.Tls
