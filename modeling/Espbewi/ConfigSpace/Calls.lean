import Espbewi.ConfigSpace.Backend

/-! What each call of the backend answers, and what it leaves in NVS. -/

namespace Espbewi.ConfigSpace

open Lib Prog

/-! ### Records -/

theorem encodeRecord_length (generation : UInt64) (present : Bool) (payload : List UInt8) :
    (encodeRecord generation present payload).length = HEADER_LEN + payload.length := by
  simp [encodeRecord, MAGIC, HEADER_LEN]
  omega

theorem decodeRecord_encodeRecord (generation : UInt64) (present : Bool) (payload : List UInt8) :
    decodeRecord (encodeRecord generation present payload) = .ok (generation, present, payload) := by
  have hlong : ¬ (encodeRecord generation present payload).length < HEADER_LEN := by
    rw [encodeRecord_length]
    omega
  have hmagic : (encodeRecord generation present payload).take 4 = MAGIC := by
    simp [encodeRecord, MAGIC]
  have hgeneration : ((encodeRecord generation present payload).drop 4).take 8
      = toLe 8 generation.toNat := by
    simp [encodeRecord, MAGIC]
  have hflags : (encodeRecord generation present payload).getD 12 0
      = if present then FLAG_PRESENT else 0 := by
    simp [encodeRecord, MAGIC]
  have hpayload : (encodeRecord generation present payload).drop HEADER_LEN = payload := by
    exact List.drop_left' (by simp [MAGIC, HEADER_LEN])
  unfold decodeRecord
  rw [if_neg (by simp only [hlong, hmagic, ne_eq, not_true_eq_false, or_self, not_false_eq_true]),
    hgeneration, hflags, hpayload, ofLe_toLe (show generation.toNat < 256 ^ 8 from generation.toNat_lt),
    UInt64.ofNat_toNat]
  cases present
  · rfl
  · rfl

/-! ### Steps -/

section Steps

variable {A : Answers Op' Ans' σ} {α β : Type}

theorem exec_pure {a : α} {s s' : σ} {r : Except ε α} :
    Exec A (ExceptT.run (pure a : ExceptT ε (Prog Op' Ans') α)) s r s' ↔ r = .ok a ∧ s' = s := Iff.rfl

theorem exec_throw {e : ε} {s s' : σ} {r : Except ε α} :
    Exec A (ExceptT.run (throw e : ExceptT ε (Prog Op' Ans') α)) s r s' ↔ r = .error e ∧ s' = s := Iff.rfl

end Steps

variable {N : EspNvs} {v v' : Content N.Key} {A : Answers (Op N.Key) Op.Ans (Content N.Key)}
  {α β : Type}

theorem exec_nvs {o : NvsOp N.Key} {f : o.Ans → NvsM N α} {r : Except NvsConfigError α} :
    Exec A (ExceptT.run (nvs o >>= f)) v r v' ↔
      ∃ a v₁, A v (.nvs o) a v₁ ∧ Exec A (ExceptT.run (f a)) v₁ r v' := Iff.rfl

theorem exec_storeHealthy (hA : Keeps A) {ok : Bool} {f : Unit → NvsM N α}
    {r : Except NvsConfigError α} (h : Exec A (ExceptT.run (storeHealthy ok >>= f)) v r v') :
    Exec A (ExceptT.run (f ())) v r v' := by
  obtain ⟨a, v₁, hstore, hk⟩ := h
  obtain rfl := hA hstore
  exact hk

theorem exec_lift {p : Prog (Op N.Key) Op.Ans β} {f : β → NvsM N α} {r : Except NvsConfigError α} :
    Exec A (ExceptT.run (ExceptT.lift p >>= f)) v r v' ↔
      ∃ a v₁, p.Exec A v a v₁ ∧ Exec A (ExceptT.run (f a)) v₁ r v' := by
  rw [ExceptT.run_bind_lift, exec_bind]

theorem ofExcept_ok (a : α) (f : α → NvsM N β) : (Prog.ofExcept (.ok a) >>= f : NvsM N β) = f a := rfl

theorem exec_withNvs (hA : Keeps A) {f : NvsM N α} {r : Except NvsConfigError α}
    (h : Exec A (ExceptT.run (withNvs f)) v r v') :
    (Failing A ∧ r = .error .unavailable ∧ v' = v) ∨ Exec A (ExceptT.run f) v r v' := by
  obtain ⟨opened, v₁, hopen, hk⟩ := exec_nvs.mp h
  obtain rfl := hA hopen
  cases opened with
  | error e => exact .inl ⟨⟨_, _, _, _, hopen, rfl⟩, exec_throw.mp (exec_storeHealthy hA hk)⟩
  | ok u =>
    obtain ⟨result, v₂, hf, hk⟩ := exec_lift.mp hk
    cases result with
    | ok a =>
      obtain ⟨rfl, rfl⟩ := exec_pure.mp hk
      exact .inr hf
    | error e =>
      obtain ⟨rfl, rfl⟩ := exec_throw.mp (exec_storeHealthy hA hk)
      exact .inr hf

/-- The blob under a key, and whether there is none. -/
theorem exec_getBlob (hA : Keeps A) {key : N.Key} {f : Except NvsError (List UInt8) → NvsM N α}
    {r : Except NvsConfigError α}
    (h : Exec A (ExceptT.run (nvs (.getBlob (NAMESPACE N) key) >>= f)) v r v') :
    ∃ got, Exec A (ExceptT.run (f got)) v r v' ∧ match got with
      | .ok raw => v (NAMESPACE N, key) = some (.blob raw)
      | .error (.other _) => Failing A
      | .error _ => ∀ raw, v (NAMESPACE N, key) ≠ some (.blob raw) := by
  obtain ⟨got, v₁, hget, hk⟩ := exec_nvs.mp h
  have hcontract := hA hget
  cases got with
  | ok raw =>
    obtain ⟨rfl, hraw⟩ := hcontract
    exact ⟨_, hk, hraw⟩
  | error e =>
    cases e with
    | namespaceNotFound =>
      obtain ⟨rfl, hnone⟩ := hcontract
      exact ⟨_, hk, hnone⟩
    | keyNotFound =>
      obtain ⟨rfl, hnone⟩ := hcontract
      exact ⟨_, hk, hnone⟩
    | other code =>
      obtain rfl := hcontract
      exact ⟨_, hk, _, _, _, _, hget, trivial⟩

/-! ### Writing a record -/

/-- The generation of the record that replaces `item`. -/
def generationAfter (item : Option Item) : Except NvsConfigError UInt64 :=
  match item with
  | some (.blob raw) =>
    match decodeRecord raw with
    | .ok (generation, _, _) => (succ? generation).elim (.error .generationOverflow) .ok
    | .error e => .error e
  | _ => .ok 1

theorem generationAfter_of_not_blob {item : Option Item} (h : ∀ raw, item ≠ some (.blob raw)) :
    generationAfter item = .ok 1 := by
  unfold generationAfter
  split
  · next raw => exact absurd rfl (h raw)
  · rfl

theorem exec_nextGeneration (hA : Keeps A) {key : N.Key} {r : Except NvsConfigError UInt64}
    (h : Exec A (ExceptT.run (nextGeneration key)) v r v') :
    v' = v ∧ (Failing A ∧ r = .error .write ∨ r = generationAfter (v (NAMESPACE N, key))) := by
  obtain ⟨got, hk, hgot⟩ := exec_getBlob hA h
  cases got with
  | ok raw =>
    rw [hgot, generationAfter]
    cases hdecode : decodeRecord raw with
    | error e =>
      simp only [hdecode] at hk
      obtain ⟨rfl, rfl⟩ := exec_throw.mp hk
      exact ⟨rfl, .inr rfl⟩
    | ok record =>
      obtain ⟨generation, present, payload⟩ := record
      simp only [hdecode, ofExcept_ok] at hk ⊢
      cases hsucc : succ? generation with
      | none =>
        simp only [hsucc] at hk
        obtain ⟨rfl, rfl⟩ := exec_throw.mp hk
        exact ⟨rfl, .inr rfl⟩
      | some next =>
        simp only [hsucc] at hk
        obtain ⟨rfl, rfl⟩ := exec_pure.mp hk
        exact ⟨rfl, .inr rfl⟩
  | error e =>
    cases e with
    | namespaceNotFound =>
      obtain ⟨rfl, rfl⟩ := exec_pure.mp hk
      exact ⟨rfl, .inr (generationAfter_of_not_blob hgot).symm⟩
    | keyNotFound =>
      obtain ⟨rfl, rfl⟩ := exec_pure.mp hk
      exact ⟨rfl, .inr (generationAfter_of_not_blob hgot).symm⟩
    | other code =>
      obtain ⟨rfl, rfl⟩ := exec_throw.mp hk
      exact ⟨rfl, .inl ⟨hgot, rfl⟩⟩

/-- NVS stays as it was, or the record is replaced by one with the next generation, also by a write that fails. -/
theorem exec_replaceAt (hA : Keeps A) {key : N.Key} {present : Bool} {payload : List UInt8}
    {r : Except NvsConfigError UInt64}
    (h : Exec A (ExceptT.run (replaceAt key present payload)) v r v') :
    ((Failing A ∧ r = .error .write ∨
        ∃ e, r = .error e ∧ generationAfter (v (NAMESPACE N, key)) = .error e) ∧ v' = v) ∨
    ∃ generation, (r = .ok generation ∨ Failing A ∧ r = .error .write) ∧
      generationAfter (v (NAMESPACE N, key)) = .ok generation ∧
      v' = Function.update v (NAMESPACE N, key) (some (.blob (encodeRecord generation present payload))) := by
  obtain ⟨e, he, rfl⟩ | ⟨generation, v₁, hnext, hset⟩ := exec_try.mp h
  · obtain ⟨rfl, herror⟩ := exec_nextGeneration hA he
    exact .inl ⟨herror.imp id fun heq => ⟨e, rfl, heq.symm⟩, rfl⟩
  · obtain ⟨rfl, hgeneration⟩ := exec_nextGeneration hA hnext
    replace hgeneration := (hgeneration.resolve_left nofun).symm
    obtain ⟨written, v₂, hwritten, hk⟩ := exec_nvs.mp hset
    have hstores := hA hwritten
    cases written with
    | ok u =>
      obtain ⟨rfl, rfl⟩ := exec_pure.mp hk
      exact .inr ⟨generation, .inl rfl, hgeneration, Stores.ok hstores⟩
    | error e =>
      obtain ⟨rfl, rfl⟩ := exec_throw.mp hk
      have hfails : Failing A := ⟨_, _, _, _, hwritten, rfl⟩
      obtain hstored | ⟨-, hsame⟩ := hstores
      · exact .inr ⟨generation, .inr ⟨hfails, rfl⟩, hgeneration, hstored⟩
      · exact .inl ⟨.inl ⟨hfails, rfl⟩, hsame⟩

/-! ### Reading a record -/

def snapshotOf (item : Option Item) : Except NvsConfigError (Option Snapshot) :=
  match item with
  | some (.blob raw) =>
    match decodeRecord raw with
    | .ok (generation, present, payload) =>
      .ok (if present then some { generation, data := payload } else none)
    | .error e => .error e
  | _ => .ok none

theorem snapshotOf_of_not_blob {item : Option Item} (h : ∀ raw, item ≠ some (.blob raw)) :
    snapshotOf item = .ok none := by
  unfold snapshotOf
  split
  · next raw => exact absurd rfl (h raw)
  · rfl

theorem exec_loadAt (hA : Keeps A) {key : N.Key} {r : Except NvsConfigError (Option Snapshot)}
    (h : Exec A (ExceptT.run (loadAt key)) v r v') :
    v' = v ∧ (Failing A ∧ r = .error .write ∨ r = snapshotOf (v (NAMESPACE N, key))) := by
  obtain ⟨got, hk, hgot⟩ := exec_getBlob hA h
  cases got with
  | ok raw =>
    rw [hgot, snapshotOf]
    cases hdecode : decodeRecord raw with
    | error e =>
      simp only [hdecode] at hk
      obtain ⟨rfl, rfl⟩ := exec_throw.mp hk
      exact ⟨rfl, .inr rfl⟩
    | ok record =>
      simp only [hdecode, ofExcept_ok] at hk
      obtain ⟨rfl, rfl⟩ := exec_pure.mp hk
      exact ⟨rfl, .inr rfl⟩
  | error e =>
    cases e with
    | namespaceNotFound =>
      obtain ⟨rfl, rfl⟩ := exec_pure.mp hk
      exact ⟨rfl, .inr (snapshotOf_of_not_blob hgot).symm⟩
    | keyNotFound =>
      obtain ⟨rfl, rfl⟩ := exec_pure.mp hk
      exact ⟨rfl, .inr (snapshotOf_of_not_blob hgot).symm⟩
    | other code =>
      obtain ⟨rfl, rfl⟩ := exec_throw.mp hk
      exact ⟨rfl, .inl ⟨hgot, rfl⟩⟩

/-! ### The self-check -/

/-- Where the self-check puts its canary. -/
def canarySlot (N : EspNvs) : N.Key × N.Key := (HEALTH_NAMESPACE N, HEALTH_KEY N)

theorem exec_canary (hA : Keeps A) {r : Except NvsConfigError Bool}
    (h : Exec A (ExceptT.run canary) v r v') :
    (∀ k, k ≠ canarySlot N → v' k = v k) ∧
      (r.isOk = true → v' = Function.update v (canarySlot N) none) := by
  obtain ⟨written, v₁, hset, hread⟩ := exec_nvs.mp h
  replace hset : Stores v (canarySlot N) _ written v₁ := hA hset
  cases written with
  | error e =>
    obtain ⟨rfl, rfl⟩ := exec_throw.mp hread
    exact ⟨fun k => hset.other, nofun⟩
  | ok u =>
    obtain ⟨got, v₂, hget, hdrop⟩ := exec_nvs.mp hread
    replace hget := hA hget
    cases got with
    | error e =>
      obtain rfl := hget
      obtain ⟨rfl, rfl⟩ := exec_throw.mp hdrop
      exact ⟨fun k => hset.other, nofun⟩
    | ok value =>
      obtain ⟨rfl, -⟩ := hget
      obtain ⟨deleted, v₃, hdelete, hend⟩ := exec_nvs.mp hdrop
      replace hdelete : Stores v₂ (canarySlot N) none deleted v₃ := hA hdelete
      have hother : ∀ k, k ≠ canarySlot N → v₃ k = v k := fun k hne => (hdelete.other hne).trans (hset.other hne)
      cases deleted with
      | error e =>
        obtain ⟨rfl, rfl⟩ := exec_throw.mp hend
        exact ⟨hother, nofun⟩
      | ok u =>
        obtain ⟨rfl, rfl⟩ := exec_pure.mp hend
        refine ⟨hother, fun _ => hdelete.ok.trans ?_⟩
        rw [hset.ok]
        exact Function.update_idem ..

theorem exec_selfCheck (hA : Keeps A) {ok : Bool} (h : Exec A selfCheck v ok v') :
    (∀ k, k ≠ canarySlot N → v' k = v k) ∧
      (ok = true → v' = Function.update v (canarySlot N) none) := by
  obtain ⟨r, v₁, hcheck, hk⟩ := exec_bind.mp h
  obtain ⟨-, rfl, rfl⟩ | hcanary := exec_withNvs hA hcheck
  · obtain ⟨rfl, rfl⟩ := hk
    exact ⟨fun _ _ => rfl, nofun⟩
  · obtain ⟨hother, hok⟩ := exec_canary hA hcanary
    cases r with
    | ok readBack =>
      obtain ⟨rfl, rfl⟩ := hk
      exact ⟨hother, fun _ => hok rfl⟩
    | error e =>
      obtain ⟨rfl, rfl⟩ := hk
      exact ⟨hother, nofun⟩

/-! ### Boot -/

/-- The calls that leave NVS as it is. -/
def Reads : Op K → Prop
  | .nvs (.setBlob ..) => False
  | .nvs (.setU8 ..) => False
  | .nvs (.delete ..) => False
  | _ => True

theorem Reads.same [DecidableEq K] {v v' : Content K} {o : Op K} {r : o.Ans} (ho : Reads o)
    (h : Bound v o r v') : v' = v := by
  cases o with
  | storeHealthy ok => exact h
  | nvs o =>
    cases o with
    | setBlob ns key data => exact ho.elim
    | setU8 ns key value => exact ho.elim
    | delete ns key => exact ho.elim
    | getBlob ns key =>
      match r, h with
      | .ok raw, h => exact h.1
      | .error .namespaceNotFound, h => exact h.1
      | .error .keyNotFound, h => exact h.1
      | .error (.other code), h => exact h
    | getU8 ns key =>
      match r, h with
      | .ok value, h => exact h.1
      | .error e, h => exact h
    | new => exact h
    | statistics => exact h
    | typedEntries => exact h

theorem nvs_reads {o : NvsOp N.Key} (h : Reads (.nvs o)) :
    Only Reads (ExceptT.run (nvs o : NvsM N o.Ans)) := only_lift (only_op h)

theorem sumOwned_reads (keys : List N.Key) (owned : Nat) :
    Only Reads (ExceptT.run (sumOwned keys owned)) := by
  induction keys generalizing owned with
  | nil => trivial
  | cons key keys ih =>
    refine only_try (nvs_reads trivial) fun got => ?_
    cases got with
    | error e => trivial
    | ok raw =>
      simp only
      split
      · trivial
      · exact ih _

theorem new_reads : Only Reads (ExceptT.run (new : NvsM N Nat)) := by
  refine only_try (nvs_reads trivial) fun opened => ?_
  cases opened with
  | error e => exact only_try (only_lift (only_op trivial)) fun _ => trivial
  | ok u =>
    refine only_try (nvs_reads trivial) fun stats => ?_
    cases stats with
    | error e => exact only_try (only_lift (only_op trivial)) fun _ => trivial
    | ok stats =>
      refine only_try (only_try (nvs_reads trivial) fun entries => ?_) fun _ => trivial
      exact only_try (only_ofExcept _) fun keys => sumOwned_reads keys 0

theorem exec_new (hA : Keeps A) {r : Except NvsConfigError Nat}
    (h : Exec A (ExceptT.run new) v r v') : v' = v :=
  new_reads.exec (J := fun w => w = v) (fun _ _ _ _ ho hv hstep => (ho.same (hA hstep)).trans hv) h rfl

end Espbewi.ConfigSpace
