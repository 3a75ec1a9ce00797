import Espbewi.Services.TlsIdentity

/-! What `generate_self_signed_identity` returns: the first failure there was, or the texts of a certificate
that was built completely. -/

namespace Espbewi.Tls

open Lib Prog

/-- What an answer says about the result. -/
def blame : Event FfiOp FfiOp.Ans → Option IdentityGenerationError
  | ⟨.psaCryptoInit, rc⟩ => if rc = 0 then none else some (.psaInit rc)
  | ⟨.psaGenerateKey _, (rc, id)⟩ => if rc ≠ 0 ∨ id = 0 then some (.keyGeneration rc) else none
  | ⟨.pkCopyFromPsa _, rc⟩ => if rc = 0 then none else some (.keySetup rc)
  | ⟨.writeCrtSetSubjectName _, rc⟩ | ⟨.writeCrtSetIssuerName _, rc⟩ | ⟨.writeCrtSetSerialRaw _, rc⟩
  | ⟨.writeCrtSetValidity .., rc⟩ | ⟨.writeCrtSetBasicConstraints .., rc⟩ =>
    if rc = 0 then none else some (.certificateSetup rc)
  | ⟨.pkWriteKeyPem _, (rc, _)⟩ => if rc = 0 then none else some (.keyEncoding rc)
  | ⟨.writeCrtPem _, (rc, _)⟩ => if rc = 0 then none else some (.certificateEncoding rc)
  | _ => none

/-- The calls that fill in and sign the certificate. -/
def FfiOp.fills : FfiOp → Bool
  | .writeCrtSetSubjectName _ | .writeCrtSetIssuerName _ | .writeCrtSetSubjectKey | .writeCrtSetIssuerKey
  | .writeCrtSetSerialRaw _ | .writeCrtSetValidity .. | .writeCrtSetMdAlgSha256
  | .writeCrtSetBasicConstraints .. | .writeCrtPem _ => true
  | _ => false

def keyText : Event FfiOp FfiOp.Ans → Option (List UInt8)
  | ⟨.pkWriteKeyPem _, (_, buf)⟩ => some buf.toList
  | _ => none

def certText : Event FfiOp FfiOp.Ans → Option (List UInt8)
  | ⟨.writeCrtPem _, (_, buf)⟩ => some buf.toList
  | _ => none

/-- The random bytes of a serial. -/
def drawn : Event FfiOp FfiOp.Ans → Option (Vector UInt8 16)
  | ⟨.rngRead 16, random⟩ => some random
  | _ => none

/-- What is to be seen of the calls so far. -/
structure Seen where
  failed : Option IdentityGenerationError
  filled : List FfiOp
  random : Option (Vector UInt8 16)
  key : Option (List UInt8)
  cert : Option (List UInt8)

namespace Seen

def nothing : Seen := ⟨none, [], none, none, none⟩

def see (s : Seen) (ev : Event FfiOp FfiOp.Ans) : Seen where
  failed := s.failed <|> blame ev
  filled := if ev.1.fills then s.filled ++ [ev.1] else s.filled
  random := drawn ev <|> s.random
  key := keyText ev <|> s.key
  cert := certText ev <|> s.cert

def monitor : Monitor FfiOp FfiOp.Ans Seen := fun s ev => some (s.see ev)

end Seen

/-- A certificate for `subject` by `subject`, of the key it certifies, for no authority. -/
def certificate (subject : List UInt8) (random : Vector UInt8 16) : List FfiOp :=
  [.writeCrtSetSubjectName subject, .writeCrtSetIssuerName subject, .writeCrtSetSubjectKey, .writeCrtSetIssuerKey,
    .writeCrtSetSerialRaw (serialOf random), .writeCrtSetValidity (NOT_BEFORE ++ [0]) (NOT_AFTER ++ [0]),
    .writeCrtSetMdAlgSha256, .writeCrtSetBasicConstraints 0 (-1), .writeCrtPem 2048]

def identityOf (certBuf keyBuf : List UInt8) : Except IdentityGenerationError GeneratedIdentity := do
  let certPem ← pemString certBuf
  let keyPem ← pemString keyBuf
  return ⟨certPem, keyPem⟩

/-- What was seen accounts for the result. -/
inductive Accounts (subject : List UInt8) : Except IdentityGenerationError GeneratedIdentity → Seen → Prop
  | failed : s.failed = some e → Accounts subject (.error e) s
  | done (random : Vector UInt8 16) : s.failed = none → s.filled = certificate subject random →
    s.random = some random → s.key = some keyBuf → s.cert = some certBuf →
    Accounts subject (identityOf certBuf keyBuf) s

namespace Seen

variable {s : Seen} {ev : Event FfiOp FfiOp.Ans}

theorem see_failed (h : s.failed = none) : (s.see ev).failed = blame ev := by
  rw [see, h]
  rfl

end Seen

section Rules

variable {α β : Type} {Q : Except IdentityGenerationError α → Seen → Prop} {s : Seen}

theorem seen_lift {p : FfiProg β} {k : β → FfiM IdentityGenerationError α} {f : β → Seen}
    (hp : p.Monitored Seen.monitor (fun b s' => s' = f b) s)
    (hk : ∀ b, Monitored Seen.monitor (ExceptT.run (k b)) Q (f b)) :
    Monitored Seen.monitor (ExceptT.run (ExceptT.lift p >>= k)) Q s := by
  rw [monitored_try, monitored_lift]
  refine hp.mono fun b s' h => ?_
  cases h
  exact hk b

/-- A checked call either fails, and is the first to do so, or leaves the way open. -/
theorem seen_check {p : FfiProg Int32} {e : Int32 → IdentityGenerationError}
    {k : Unit → FfiM IdentityGenerationError α} {f : Int32 → Seen}
    (hQ : ∀ e s', s'.failed = some e → Q (.error e) s')
    (hp : p.Monitored Seen.monitor (fun rc s' => s' = f rc) s)
    (hf : ∀ rc, (f rc).failed = if rc = 0 then none else some (e rc))
    (hk : (f 0).failed = none → Monitored Seen.monitor (ExceptT.run (k ())) Q (f 0)) :
    Monitored Seen.monitor (ExceptT.run (checkRc p e >>= k)) Q s := by
  rw [monitored_try, checkRc, ExceptT.run_mk, monitored_bind]
  refine hp.mono fun rc s' h => ?_
  cases h
  split
  · next hrc =>
    cases hrc
    exact hk (by rw [hf, if_pos rfl])
  · next hrc => exact hQ _ _ (by rw [hf, if_neg hrc])

theorem seen_throw {rc : Int32} {e : IdentityGenerationError} {k : PUnit → FfiM IdentityGenerationError α}
    (hQ : ∀ e s', s'.failed = some e → Q (.error e) s') (hs : s.failed = if rc = 0 then none else some e)
    (hk : rc = 0 → Monitored Seen.monitor (ExceptT.run (k ⟨⟩)) Q s) :
    Monitored Seen.monitor (ExceptT.run (if rc ≠ 0 then throw e >>= k else k ⟨⟩)) Q s := by
  split
  · next hrc => exact hQ _ _ (by rw [hs, if_neg hrc])
  · next hrc => exact hk (not_not.mp hrc)

/-- The two texts are read out of the buffers without a call. -/
theorem run_texts (certBuf keyBuf : List UInt8) : ExceptT.run (do
      let certPem ← Prog.ofExcept (pemString certBuf)
      let keyPem ← Prog.ofExcept (pemString keyBuf)
      return ⟨certPem, keyPem⟩ : FfiM IdentityGenerationError GeneratedIdentity) =
    .ret (identityOf certBuf keyBuf) := by
  unfold identityOf
  cases pemString certBuf with
  | error e => rfl
  | ok certPem => cases pemString keyBuf <;> rfl

theorem seen_texts {certBuf keyBuf : List UInt8} {Q : Except IdentityGenerationError GeneratedIdentity → Seen → Prop}
    (h : Q (identityOf certBuf keyBuf) s) : Monitored Seen.monitor (ExceptT.run (do
      let certPem ← Prog.ofExcept (pemString certBuf)
      let keyPem ← Prog.ofExcept (pemString keyBuf)
      return ⟨certPem, keyPem⟩ : FfiM IdentityGenerationError GeneratedIdentity)) Q s := by
  rw [run_texts]
  exact h

end Rules

theorem certify_accounts (keyId : UInt32) (subject : List UInt8) {s : Seen} (hs : s = Seen.nothing) :
    Monitored Seen.monitor (ExceptT.run (certify keyId subject)) (Accounts subject) s := by
  have hQ : ∀ e (s' : Seen), s'.failed = some e → Accounts subject (.error e) s' := fun _ _ => .failed
  subst hs
  refine seen_lift (fun _ => ⟨_, rfl, rfl⟩) fun _ => ?_
  refine seen_check hQ (fun _ => ⟨_, rfl, rfl⟩) (fun _ => Seen.see_failed rfl) fun hcopied => ?_
  refine seen_lift (fun _ => ⟨_, rfl, rfl⟩) fun _ => ?_
  refine seen_check hQ (fun _ => ⟨_, rfl, rfl⟩) (fun _ => Seen.see_failed rfl) fun hsubject => ?_
  refine seen_check hQ (fun _ => ⟨_, rfl, rfl⟩) (fun _ => Seen.see_failed rfl) fun hissuer => ?_
  refine seen_lift (fun _ => ⟨_, rfl, rfl⟩) fun _ => seen_lift (fun _ => ⟨_, rfl, rfl⟩) fun _ => ?_
  refine seen_lift (fun _ => ⟨_, rfl, rfl⟩) fun random => ?_
  refine seen_check hQ (fun _ => ⟨_, rfl, rfl⟩) (fun _ => Seen.see_failed rfl) fun hserial => ?_
  refine seen_check hQ (fun _ => ⟨_, rfl, rfl⟩) (fun _ => Seen.see_failed rfl) fun hvalidity => ?_
  refine seen_lift (fun _ => ⟨_, rfl, rfl⟩) fun _ => ?_
  refine seen_check hQ (fun _ => ⟨_, rfl, rfl⟩) (fun _ => Seen.see_failed rfl) fun hconstraints => ?_
  refine seen_lift (fun _ => ⟨_, rfl, rfl⟩) fun ⟨rc, keyBuf⟩ => ?_
  refine seen_throw hQ (Seen.see_failed rfl) fun hkey => ?_
  cases hkey
  refine seen_lift (fun _ => ⟨_, rfl, rfl⟩) fun ⟨rc, certBuf⟩ => ?_
  refine seen_throw hQ (Seen.see_failed rfl) fun hcert => ?_
  cases hcert
  refine seen_texts ?_
  exact .done random rfl rfl rfl rfl rfl

/-- What the drops add is no failure and no part of the certificate. -/
theorem Accounts.see {subject : List UInt8} {r : Except IdentityGenerationError GeneratedIdentity} {s : Seen}
    (h : Accounts subject r s) {ev : Event FfiOp FfiOp.Ans} (hblame : blame ev = none) (hfills : ev.1.fills = false)
    (hdrawn : drawn ev = none) (hkey : keyText ev = none) (hcert : certText ev = none) :
    Accounts subject r (s.see ev) := by
  cases h with
  | failed hfailed =>
    refine .failed ?_
    rw [Seen.see, hfailed]
    rfl
  | done random hfailed hfilled hr hk hc =>
    refine .done random ?_ ?_ ?_ ?_ ?_
    · rw [Seen.see_failed hfailed, hblame]
    · rw [Seen.see, hfills]
      exact hfilled
    · rw [Seen.see, hdrawn]
      exact hr
    · rw [Seen.see, hkey]
      exact hk
    · rw [Seen.see, hcert]
      exact hc

theorem buildIdentity_accounts (subject : List UInt8) : (buildIdentity subject).Monitored Seen.monitor
    (fun r => Accounts subject r.1) Seen.nothing := by
  intro rc
  refine ⟨_, rfl, ?_⟩
  show Monitored _ (if rc ≠ 0 then _ else _) _ _
  split
  · next hrc => exact .failed ((Seen.see_failed rfl).trans (if_neg hrc))
  · next hrc =>
    cases not_not.mp hrc
    rintro ⟨rc, keyId⟩
    refine ⟨_, rfl, ?_⟩
    show Monitored _ (if rc ≠ 0 ∨ keyId = 0 then _ else _) _ _
    split
    · next hbad => exact .failed ((Seen.see_failed rfl).trans (if_pos hbad))
    · next hgood =>
      refine monitored_bind.mpr ((certify_accounts keyId subject ?_).mono fun r s' h => h)
      rw [Seen.see, Seen.see_failed rfl]
      show Seen.mk (if _ then _ else _) _ _ _ _ = _
      rw [if_neg hgood]
      rfl

theorem dropIdentity_accounts {subject : List UInt8} {r : Except IdentityGenerationError GeneratedIdentity}
    (keyId : UInt32) {s : Seen} (h : Accounts subject r s) :
    (dropIdentity keyId).Monitored Seen.monitor (fun _ => Accounts subject r) s := by
  refine fun _ => ⟨_, rfl, fun _ => ⟨_, rfl, ?_⟩⟩
  have hdropped : Accounts subject r ((s.see ⟨.writeCrtFree, ()⟩).see ⟨.pkFree, ()⟩) :=
    (h.see rfl rfl rfl rfl rfl).see rfl rfl rfl rfl rfl
  show Monitored _ (if keyId ≠ 0 then _ else _) _ _
  split
  · exact fun _ => ⟨_, rfl, hdropped.see rfl rfl rfl rfl rfl⟩
  · exact hdropped

/-- The serial of a certificate is positive. -/
theorem serialOf_positive (random : Vector UInt8 16) :
    0 < ((serialOf random).get ⟨0, Nat.succ_pos 15⟩).toNat ∧
      ((serialOf random).get ⟨0, Nat.succ_pos 15⟩).toNat < 0x80 := by
  have hfirst : (serialOf random).get ⟨0, Nat.succ_pos 15⟩ =
      (random.get ⟨0, Nat.succ_pos 15⟩ &&& 0x7f) ||| 0x01 := Vector.getElem_set_self (Nat.succ_pos 15)
  rw [hfirst, UInt8.toNat_or, UInt8.toNat_and]
  constructor
  · exact Nat.lt_of_lt_of_le Nat.one_pos Nat.right_le_or
  · exact Nat.or_lt_two_pow (n := 7) (Nat.and_lt_two_pow _ (by decide)) (by decide)

theorem foldlM_monitor (tr : List (Event FfiOp FfiOp.Ans)) (s : Seen) :
    tr.foldlM Seen.monitor s = some (tr.foldl Seen.see s) := by
  induction tr generalizing s with
  | nil => rfl
  | cons ev tr ih => exact ih _

theorem seen_failed (tr : List (Event FfiOp FfiOp.Ans)) (s : Seen) :
    (tr.foldl Seen.see s).failed = (s.failed <|> tr.findSome? blame) := by
  induction tr generalizing s with
  | nil => cases hs : s.failed <;> simp [hs]
  | cons ev tr ih =>
    rw [List.foldl_cons, ih, List.findSome?_cons, Seen.see]
    cases s.failed with
    | some e => rfl
    | none => cases blame ev <;> rfl

theorem seen_filled (tr : List (Event FfiOp FfiOp.Ans)) (s : Seen) :
    (tr.foldl Seen.see s).filled = s.filled ++ (tr.map Sigma.fst).filter FfiOp.fills := by
  induction tr generalizing s with
  | nil => simp
  | cons ev tr ih =>
    rw [List.foldl_cons, ih, List.map_cons, List.filter_cons, Seen.see]
    split
    · rw [List.append_assoc, List.singleton_append]
    · rfl

/-- What was seen is one of the answers. -/
theorem seen_text {β : Type} {f : Seen → Option β} {text : Event FfiOp FfiOp.Ans → Option β}
    (hf : ∀ s ev, f (s.see ev) = (text ev <|> f s)) {tr : List (Event FfiOp FfiOp.Ans)} {s : Seen} {buf : β}
    (h : f (tr.foldl Seen.see s) = some buf) : f s = some buf ∨ ∃ ev ∈ tr, text ev = some buf := by
  induction tr generalizing s with
  | nil => exact .inl h
  | cons ev tr ih =>
    rcases ih h with hs | ⟨ev', hmem, htext⟩
    · rw [hf] at hs
      cases htext : text ev with
      | none =>
        rw [htext] at hs
        exact .inl hs
      | some buf' =>
        rw [htext] at hs
        exact .inr ⟨ev, List.mem_cons_self, htext.trans hs⟩
    · exact .inr ⟨ev', List.mem_cons_of_mem _ hmem, htext⟩

theorem drawn_some {ev : Event FfiOp FfiOp.Ans} {random : Vector UInt8 16} (h : drawn ev = some random) :
    ev = ⟨.rngRead 16, random⟩ := by
  unfold drawn at h
  split at h
  · cases h
    rfl
  · cases h

/-- A name with a NUL is refused without a call. Otherwise the first failing call names the error, and
without one the certificate was made for the name by the name, with a positive serial out of 16 random bytes,
and the texts returned are the ones answered. -/
theorem identity_outcome {commonName : List UInt8} {tr : List (Event FfiOp FfiOp.Ans)}
    {r : Except IdentityGenerationError GeneratedIdentity} (h : Runs (generateSelfSignedIdentity commonName) tr r) :
    (0 ∈ commonName ∧ tr = [] ∧ r = .error .invalidName) ∨ (0 ∉ commonName ∧
      ((∃ e, tr.findSome? blame = some e ∧ r = .error e) ∨
        (tr.findSome? blame = none ∧ ∃ random keyBuf certBuf, ⟨.rngRead 16, random⟩ ∈ tr ∧
          (tr.map Sigma.fst).filter FfiOp.fills = certificate (ascii "CN=" ++ commonName ++ [0]) random ∧
          0 < ((serialOf random).get ⟨0, Nat.succ_pos 15⟩).toNat ∧
          ((serialOf random).get ⟨0, Nat.succ_pos 15⟩).toNat < 0x80 ∧
          (∃ ev ∈ tr, keyText ev = some keyBuf) ∧ (∃ ev ∈ tr, certText ev = some certBuf) ∧
          r = identityOf certBuf keyBuf))) := by
  have hnul : 0 ∈ ascii "CN=" ++ commonName ↔ 0 ∈ commonName := by
    rw [List.mem_append]
    exact or_iff_right (by decide)
  by_cases hname : 0 ∈ commonName
  · rw [generateSelfSignedIdentity, cString, if_pos (hnul.mpr hname)] at h
    obtain ⟨htr, hr⟩ := runs_ret.mp h
    exact .inl ⟨hname, htr, hr⟩
  · refine .inr ⟨hname, ?_⟩
    rw [generateSelfSignedIdentity, cString, if_neg (mt hnul.mp hname)] at h
    obtain ⟨s, hfold, haccounts⟩ := Monitored.runs
      (Q := fun r => Accounts (ascii "CN=" ++ commonName ++ [0]) r) (monitored_bind.mpr
        ((buildIdentity_accounts _).mono fun r s h => monitored_bind.mpr
          ((dropIdentity_accounts r.2 h).mono fun _ _ h => h))) h
    rw [foldlM_monitor] at hfold
    cases hfold
    cases haccounts with
    | failed hfailed =>
      rw [seen_failed] at hfailed
      exact .inl ⟨_, hfailed, rfl⟩
    | done random hfailed hfilled hdrawn hkey hcert =>
      rw [seen_failed] at hfailed
      rw [seen_filled] at hfilled
      obtain ⟨hpos, hlt⟩ := serialOf_positive random
      obtain ⟨ev, hmem, hev⟩ := (seen_text (f := Seen.random) (fun _ _ => rfl) hdrawn).resolve_left nofun
      refine .inr ⟨hfailed, random, _, _, drawn_some hev ▸ hmem, hfilled, hpos, hlt, ?_, ?_, rfl⟩
      · exact (seen_text (f := Seen.key) (fun _ _ => rfl) hkey).resolve_left nofun
      · exact (seen_text (f := Seen.cert) (fun _ _ => rfl) hcert).resolve_left nofun

def sampleSubject : List UInt8 := [0x43, 0x4E, 0x3D, 0x61, 0]

def sampleRandom : Vector UInt8 16 := .replicate 16 0x80

def sampleKey : Vector UInt8 1024 :=
  ⟨(0x4B :: List.replicate 1023 0).toArray, by rw [List.size_toArray, List.length_cons, List.length_replicate]⟩

def sampleCert : Vector UInt8 2048 :=
  ⟨(0x43 :: List.replicate 2047 0).toArray, by rw [List.size_toArray, List.length_cons, List.length_replicate]⟩

def sampleTrace : List (Event FfiOp FfiOp.Ans) :=
  [⟨.psaCryptoInit, 0⟩, ⟨.psaGenerateKey attributes, (0, 7)⟩, ⟨.pkInit, ()⟩, ⟨.pkCopyFromPsa 7, 0⟩,
    ⟨.writeCrtInit, ()⟩, ⟨.writeCrtSetSubjectName sampleSubject, 0⟩, ⟨.writeCrtSetIssuerName sampleSubject, 0⟩,
    ⟨.writeCrtSetSubjectKey, ()⟩, ⟨.writeCrtSetIssuerKey, ()⟩, ⟨.rngRead 16, sampleRandom⟩,
    ⟨.writeCrtSetSerialRaw (serialOf sampleRandom), 0⟩,
    ⟨.writeCrtSetValidity (NOT_BEFORE ++ [0]) (NOT_AFTER ++ [0]), 0⟩, ⟨.writeCrtSetMdAlgSha256, ()⟩,
    ⟨.writeCrtSetBasicConstraints 0 (-1), 0⟩, ⟨.pkWriteKeyPem 1024, (0, sampleKey)⟩,
    ⟨.writeCrtPem 2048, (0, sampleCert)⟩, ⟨.writeCrtFree, ()⟩, ⟨.pkFree, ()⟩, ⟨.psaDestroyKey 7, 0⟩]

theorem run_sampleTrace : Runs (generateSelfSignedIdentity [0x61]) sampleTrace (.ok ⟨[0x43], [0x4B]⟩) :=
  .call <| .call <| .call <| .call <| .call <| .call <| .call <| .call <| .call <| .call <| .call <| .call <|
    .call <| .call <| .call <| .call <| .call <| .call <| .call .ret

theorem identity_outcome_issued : Runs (generateSelfSignedIdentity [0x61]) sampleTrace (.ok ⟨[0x43], [0x4B]⟩) ∧
    ∃ random keyBuf certBuf, ⟨.rngRead 16, random⟩ ∈ sampleTrace ∧
      (sampleTrace.map Sigma.fst).filter FfiOp.fills = certificate sampleSubject random ∧
      (∃ ev ∈ sampleTrace, keyText ev = some keyBuf) ∧ (∃ ev ∈ sampleTrace, certText ev = some certBuf) ∧
      identityOf certBuf keyBuf = .ok ⟨[0x43], [0x4B]⟩ := by
  refine ⟨run_sampleTrace, ?_⟩
  have hblame : sampleTrace.findSome? blame = none := rfl
  obtain ⟨hname, -, -⟩ | ⟨-, ⟨e, he, -⟩ | ⟨-, random, keyBuf, certBuf, hdrawn, hfilled, -, -, hkey, hcert, hr⟩⟩ :=
    identity_outcome run_sampleTrace
  · exact absurd hname (by decide)
  · exact absurd (hblame.symm.trans he) nofun
  · exact ⟨random, keyBuf, certBuf, hdrawn, hfilled, hkey, hcert, hr.symm⟩

end Espbewi.Tls
