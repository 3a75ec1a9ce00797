import Espbewi.ConfigSpace.Calls
import Espbewi.ConfigSpace.Records
import Espbewi.ConfigSpace.Reference
import Espbewi.Lib.Latch
import Espbewi.Lib.Trace

/-! `HEALTHY` over the calls of the backend, whatever NVS answers. -/

namespace Espbewi.ConfigSpace

open Lib Prog

variable {N : EspNvs}

/-- A handle, as far as `is_healthy` and `capacity_units` read it. -/
structure NvsConfigBackend where
  capacityUnits : Nat

/-- `HEALTHY` is one static: every handle reads the same flag. -/
def NvsConfigBackend.isHealthy (_ : NvsConfigBackend) (healthy : Bool) : Bool := healthy

/-- A call that is made while no other is. -/
def Call.prog (N : EspNvs) (c : Call) : Prog (Op N.Key) Op.Ans c.Result :=
  match early N c with
  | some r => .ret r
  | none => do
    let r ← body c
    rest c r
    return r

/-- What the flag holds after some calls of NVS and some stores. -/
def healthyAfter (healthy : Bool) : List (Lib.Event (Op N.Key) Op.Ans) → Bool
  | [] => healthy
  | ⟨.nvs _, _⟩ :: tr => healthyAfter healthy tr
  | ⟨.storeHealthy ok, _⟩ :: tr => healthyAfter ok tr

/-- The call failed in NVS work. -/
def Call.Failed : (c : Call) → c.Result → Prop
  | .new, r => failed r
  | .load _, r => failed r
  | .commit .., r => failed r
  | .clear _, r => failed r
  | .selfCheck, ok => ok = false
where
  failed {α : Type} (r : Except NvsConfigError α) : Prop := ∃ e, r = .error e ∧ e ≠ .invalidSpace

/-- The call found NVS to be well. -/
def Call.Recovers : (c : Call) → c.Result → Prop
  | .new, r => r.isOk = true
  | .selfCheck, ok => ok = true
  | _, _ => False

/-- An answer at which `owned_entries` stops: an entry or a blob that cannot be read, or a blob
whose entries cannot be counted. -/
def Stops : Lib.Event (Op N.Key) Op.Ans → Prop
  | ⟨.nvs .typedEntries, entries⟩ => NvsOp.Fails.broken entries
  | ⟨.nvs (.getBlob ..), .error _⟩ => True
  | ⟨.nvs (.getBlob ..), .ok raw⟩ => entriesForBlob N raw.length = none
  | _ => False

/-- NVS opens and gives its statistics, and then `owned_entries` stops. -/
def OwnedFails : List (Lib.Event (Op N.Key) Op.Ans) → Prop
  | ⟨.nvs .new, .ok _⟩ :: ⟨.nvs .statistics, .ok _⟩ :: tr => ∃ ev ∈ tr, Stops ev
  | _ => False

/-- A call, what NVS answered during it, and its result. -/
structure Made (N : EspNvs) where
  call : Call
  trace : List (Lib.Event (Op N.Key) Op.Ans)
  result : call.Result
  runs : Runs (call.prog N) trace result

namespace Made

def Failed (m : Made N) : Prop := m.call.Failed m.result

def Recovers (m : Made N) : Prop := m.call.Recovers m.result

/-- A `new` that fails in `owned_entries`. -/
def Unseen (m : Made N) : Prop := m.call = .new ∧ OwnedFails m.trace

def next (healthy : Bool) (m : Made N) : Bool := healthyAfter healthy m.trace

end Made

/-- `HEALTHY` after calls that are made one after the other. -/
def healthyAt (healthy : Bool) (h : List (Made N)) : Bool := Latch.after Made.next healthy h

/-- A failing NVS is reported as unhealthy, on every handle. -/
structure Reported (healthy : Bool) (h : List (Made N)) : Prop where
  unhealthy : ∀ pre m mid post, h = pre ++ m :: (mid ++ post) → m.Failed → (∀ r ∈ mid, ¬ r.Recovers) →
    ∀ self : NvsConfigBackend, self.isHealthy (healthyAt healthy (pre ++ m :: mid)) = false
  recovered : ∀ pre m post, h = pre ++ m :: post → m.Recovers →
    ∀ self : NvsConfigBackend, self.isHealthy (healthyAt healthy (pre ++ [m])) = true
  onlyFailed : ∀ pre m post, h = pre ++ m :: post → ∀ self : NvsConfigBackend,
    self.isHealthy (healthyAt healthy pre) = true →
    self.isHealthy (healthyAt healthy (pre ++ [m])) = false → m.Failed

theorem reported_iff_tracks {healthy : Bool} {h : List (Made N)} :
    Reported healthy h ↔ Latch.Tracks Made.next Made.Failed Made.Recovers healthy h := by
  constructor
  · intro hreported
    exact ⟨fun pre m mid post hsplit hm hmid => hreported.unhealthy pre m mid post hsplit hm hmid ⟨0⟩,
      fun pre m post hsplit hm => hreported.recovered pre m post hsplit hm ⟨0⟩,
      fun pre m post hsplit => hreported.onlyFailed pre m post hsplit ⟨0⟩⟩
  · intro htracks
    exact ⟨fun pre m mid post hsplit hm hmid _ => htracks.low pre m mid post hsplit hm hmid,
      fun pre m post hsplit hm _ => htracks.high pre m post hsplit hm,
      fun pre m post hsplit _ => htracks.only pre m post hsplit⟩

/-! ### Runs and the flag -/

section Runs

variable {α : Type} {healthy : Bool} {tr tr' : List (Lib.Event (Op N.Key) Op.Ans)}

@[simp] theorem healthyAfter_append :
    healthyAfter healthy (tr ++ tr') = healthyAfter (healthyAfter healthy tr) tr' := by
  induction tr generalizing healthy with
  | nil => rfl
  | cons ev tr ih =>
    obtain ⟨o, r⟩ := ev
    cases o with
    | nvs o => exact ih
    | storeHealthy ok => exact ih

/-- The calls of NVS itself. -/
def OnNvs : Op K → Prop
  | .nvs _ => True
  | .storeHealthy _ => False

theorem only_nvs (o : NvsOp N.Key) : Only OnNvs (ExceptT.run (nvs o : NvsM N o.Ans)) :=
  only_lift (only_op trivial)

theorem healthyAfter_of_nvs (h : ∀ ev ∈ tr, OnNvs ev.1) : healthyAfter healthy tr = healthy := by
  induction tr with
  | nil => rfl
  | cons ev tr ih =>
    obtain ⟨o, r⟩ := ev
    cases o with
    | nvs o => exact ih fun ev hev => h ev (List.mem_cons_of_mem _ hev)
    | storeHealthy ok => exact (h ⟨.storeHealthy ok, r⟩ List.mem_cons_self).elim

theorem runs_nvs {o : NvsOp N.Key} {f : o.Ans → NvsM N α} {r : Except NvsConfigError α} :
    Runs (ExceptT.run (nvs o >>= f)) tr r ↔
      ∃ a tr', tr = ⟨.nvs o, a⟩ :: tr' ∧ Runs (ExceptT.run (f a)) tr' r :=
  runs_call

theorem runs_storeHealthy {ok : Bool} {f : Unit → NvsM N α} {r : Except NvsConfigError α} :
    Runs (ExceptT.run (storeHealthy ok >>= f)) tr r ↔
      ∃ tr', tr = ⟨.storeHealthy ok, ()⟩ :: tr' ∧ Runs (ExceptT.run (f ())) tr' r := by
  refine runs_call.trans ⟨?_, ?_⟩
  · rintro ⟨u, tr', rfl, h⟩
    exact ⟨tr', rfl, h⟩
  · rintro ⟨tr', rfl, h⟩
    exact ⟨(), tr', rfl, h⟩

/-- `with_nvs` lowers the flag exactly when it fails. -/
theorem runs_withNvs {f : NvsM N α} {r : Except NvsConfigError α} (hf : Only OnNvs (ExceptT.run f))
    (h : Runs (ExceptT.run (withNvs f)) tr r) :
    (r.isOk = true ∧ ∀ healthy, healthyAfter healthy tr = healthy) ∨
      ∃ e, r = .error e ∧ (∀ healthy, healthyAfter healthy tr = false) ∧
        (e = .unavailable ∨ ∃ tr', Runs (ExceptT.run f) tr' (.error e)) := by
  obtain ⟨opened, tr₁, rfl, hk⟩ := runs_nvs.mp h
  cases opened with
  | error e =>
    obtain ⟨tr₂, rfl, hthrow⟩ := runs_storeHealthy.mp hk
    obtain ⟨rfl, rfl⟩ := runs_ret.mp hthrow
    exact .inr ⟨.unavailable, rfl, fun _ => rfl, .inl rfl⟩
  | ok u =>
    rcases runs_try.mp hk with ⟨e, hlift, rfl⟩ | ⟨tr₁, tr₂, result, rfl, hlift, hk⟩
    · obtain ⟨_, -, he⟩ := runs_lift hlift
      cases he
    · obtain ⟨result, hrun, heq⟩ := runs_lift hlift
      cases heq
      have hflag : ∀ healthy, healthyAfter healthy tr₁ = healthy := fun healthy =>
        healthyAfter_of_nvs (hf.runs hrun)
      cases result with
      | ok a =>
        obtain ⟨rfl, rfl⟩ := runs_ret.mp hk
        exact .inl ⟨rfl, fun healthy => by simpa [healthyAfter] using hflag healthy⟩
      | error e =>
        obtain ⟨tr₂, rfl, hthrow⟩ := runs_storeHealthy.mp hk
        obtain ⟨rfl, rfl⟩ := runs_ret.mp hthrow
        exact .inr ⟨e, rfl, fun healthy => by simp [healthyAfter], .inr ⟨tr₁, hrun⟩⟩

theorem only_loadAt (key : N.Key) : Only OnNvs (ExceptT.run (loadAt key)) := by
  refine only_try (only_nvs _) fun got => ?_
  cases got with
  | ok raw => exact only_try (only_ofExcept _) fun _ => trivial
  | error e =>
    cases e with
    | namespaceNotFound => trivial
    | keyNotFound => trivial
    | other code => trivial

theorem only_nextGeneration (key : N.Key) : Only OnNvs (ExceptT.run (nextGeneration key)) := by
  refine only_try (only_nvs _) fun got => ?_
  cases got with
  | ok raw =>
    refine only_try (only_ofExcept _) fun record => ?_
    simp only
    split
    · trivial
    · trivial
  | error e =>
    cases e with
    | namespaceNotFound => trivial
    | keyNotFound => trivial
    | other code => trivial

theorem only_replaceAt (key : N.Key) (present : Bool) (payload : List UInt8) :
    Only OnNvs (ExceptT.run (replaceAt key present payload)) := by
  refine only_try (only_nextGeneration key) fun generation => ?_
  refine only_try (only_nvs _) fun written => ?_
  cases written with
  | ok u => trivial
  | error e => trivial

/-- The flag of a device with an NVS partition is the one that the stores leave. -/
theorem exec_healthy {F : Flash N.Key} {p : Prog (Op N.Key) Op.Ans α} {a : α} {s s' : F.State × Bool}
    (h : p.Exec F.answer s a s') : ∃ tr, Runs p tr a ∧ s'.2 = healthyAfter s.2 tr := by
  induction p generalizing s with
  | ret a' =>
    obtain ⟨rfl, rfl⟩ := h
    exact ⟨[], .ret, rfl⟩
  | call o k ih =>
    obtain ⟨r, s₁, ho, hk⟩ := h
    obtain ⟨tr, hruns, hflag⟩ := ih r hk
    refine ⟨⟨o, r⟩ :: tr, .call hruns, ?_⟩
    cases o with
    | nvs o =>
      obtain ⟨-, hsame⟩ := ho
      rw [hflag, hsame]
      rfl
    | storeHealthy ok =>
      obtain rfl := ho
      exact hflag

/-! ### The errors -/

theorem raises_decodeRecord (raw : List UInt8) :
    Raises (· ≠ .invalidSpace)
      (Prog.ofExcept (decodeRecord raw) : NvsM N (UInt64 × Bool × List UInt8)) :=
  raises_ofExcept fun e he => by simp [decodeRecord_error raw e he]

theorem raises_nvs {o : NvsOp N.Key} {f : o.Ans → NvsM N α} (hf : ∀ a, Raises (· ≠ .invalidSpace) (f a)) :
    Raises (· ≠ .invalidSpace) (nvs o >>= f) :=
  raises_try (raises_lift _) fun _ a _ => hf a

theorem raises_loadAt (key : N.Key) : Raises (· ≠ .invalidSpace) (loadAt key) := by
  refine raises_nvs fun got => ?_
  cases got with
  | ok raw => exact raises_try (raises_decodeRecord raw) fun _ _ _ => raises_pure _
  | error e =>
    cases e with
    | namespaceNotFound => exact raises_pure _
    | keyNotFound => exact raises_pure _
    | other code => exact raises_throw (by simp)

theorem raises_nextGeneration (key : N.Key) : Raises (· ≠ .invalidSpace) (nextGeneration key) := by
  refine raises_nvs fun got => ?_
  cases got with
  | ok raw =>
    refine raises_try (raises_decodeRecord raw) fun _ record _ => ?_
    simp only
    split
    · exact raises_pure _
    · exact raises_throw (by simp)
  | error e =>
    cases e with
    | namespaceNotFound => exact raises_pure _
    | keyNotFound => exact raises_pure _
    | other code => exact raises_throw (by simp)

theorem raises_replaceAt (key : N.Key) (present : Bool) (payload : List UInt8) :
    Raises (· ≠ .invalidSpace) (replaceAt key present payload) := by
  refine raises_try (raises_nextGeneration key) fun _ generation _ => ?_
  refine raises_nvs fun written => ?_
  cases written with
  | ok u => exact raises_pure _
  | error e => exact raises_throw (by simp)

/-! ### Boot -/

/-- The run fails exactly when it is stopped. -/
def Stopped (tr : List (Lib.Event (Op N.Key) Op.Ans)) : Except NvsConfigError α → Prop
  | .ok _ => ∀ ev ∈ tr, ¬ Stops ev
  | .error e => e ≠ .invalidSpace ∧ ∃ ev ∈ tr, Stops ev

theorem Stopped.cons {ev : Lib.Event (Op N.Key) Op.Ans} {r : Except NvsConfigError α} (hev : ¬ Stops ev)
    (h : Stopped tr r) : Stopped (ev :: tr) r := by
  cases r with
  | ok a => exact List.forall_mem_cons.mpr ⟨hev, h⟩
  | error e =>
    obtain ⟨he, ev', hmem, hstops⟩ := h
    exact ⟨he, ev', List.mem_cons_of_mem _ hmem, hstops⟩

theorem stopped_sumOwned {keys : List N.Key} {owned : Nat} {r : Except NvsConfigError Nat}
    (h : Runs (ExceptT.run (sumOwned keys owned)) tr r) : Stopped tr r := by
  induction keys generalizing owned tr with
  | nil =>
    obtain ⟨rfl, rfl⟩ := runs_ret.mp h
    simp [Stopped]
  | cons key keys ih =>
    obtain ⟨got, tr₁, rfl, hk⟩ := runs_nvs.mp h
    cases got with
    | error e =>
      obtain ⟨rfl, rfl⟩ := runs_ret.mp hk
      exact ⟨by simp, _, List.mem_cons_self, trivial⟩
    | ok raw =>
      cases hentries : entriesForBlob N raw.length with
      | none =>
        simp only [hentries] at hk
        obtain ⟨rfl, rfl⟩ := runs_ret.mp hk
        exact ⟨by simp, _, List.mem_cons_self, hentries⟩
      | some entries =>
        simp only [hentries] at hk
        refine (ih hk).cons ?_
        simp [Stops, hentries]

theorem ownKeys_error {entries : List (Except NvsError (N.Key × N.Key))} {e : NvsConfigError}
    (h : ownKeys entries = .error e) : e = .write ∧ NvsOp.Fails.broken entries := by
  induction entries with
  | nil => cases h
  | cons entry entries ih =>
    cases entry with
    | error code => exact ⟨(Except.error.inj h).symm, code, List.mem_cons_self⟩
    | ok item =>
      cases hkeys : ownKeys entries with
      | ok keys =>
        simp only [ownKeys, hkeys] at h
        cases h
      | error e' =>
        simp only [ownKeys, hkeys] at h
        cases h
        obtain ⟨he, code, hmem⟩ := ih hkeys
        exact ⟨he, code, List.mem_cons_of_mem _ hmem⟩

theorem ownKeys_ok {entries : List (Except NvsError (N.Key × N.Key))} {keys : List N.Key}
    (h : ownKeys entries = .ok keys) : ¬ NvsOp.Fails.broken entries := by
  induction entries generalizing keys with
  | nil => simp [NvsOp.Fails.broken]
  | cons entry entries ih =>
    cases entry with
    | error code => cases h
    | ok item =>
      cases hkeys : ownKeys entries with
      | error e' =>
        simp only [ownKeys, hkeys] at h
        cases h
      | ok keys' =>
        rintro ⟨code, hmem⟩
        rcases List.mem_cons.mp hmem with heq | hmem
        · cases heq
        · exact ih hkeys ⟨code, hmem⟩

theorem only_sumOwned (keys : List N.Key) (owned : Nat) :
    Only OnNvs (ExceptT.run (sumOwned keys owned)) := by
  induction keys generalizing owned with
  | nil => trivial
  | cons key keys ih =>
    refine only_try (only_nvs _) fun got => ?_
    cases got with
    | error e => trivial
    | ok raw =>
      simp only
      split
      · trivial
      · exact ih _

theorem only_ownedEntries : Only OnNvs (ExceptT.run (ownedEntries : NvsM N Nat)) :=
  only_try (only_nvs _) fun _ => only_try (only_ofExcept _) fun keys => only_sumOwned keys 0

theorem stopped_ownedEntries {r : Except NvsConfigError Nat}
    (h : Runs (ExceptT.run ownedEntries) tr r) : Stopped tr r := by
  obtain ⟨entries, tr₁, rfl, hk⟩ := runs_nvs.mp h
  cases hkeys : ownKeys entries with
  | error e =>
    obtain ⟨hwrite, hbroken⟩ := ownKeys_error hkeys
    simp only [hkeys] at hk
    obtain ⟨rfl, rfl⟩ := runs_ret.mp hk
    exact ⟨by simp [hwrite], _, List.mem_cons_self, hbroken⟩
  | ok keys =>
    simp only [hkeys] at hk
    exact (stopped_sumOwned hk).cons (ownKeys_ok hkeys)

/-! ### One call -/

theorem runs_prog {c : Call} {r : c.Result} : Runs (c.prog N) tr r ↔
    early N c = some r ∧ tr = [] ∨
      early N c = none ∧ ∃ tr₁ tr₂, tr = tr₁ ++ tr₂ ∧ Runs (body c) tr₁ r ∧ Runs (rest c r) tr₂ () := by
  unfold Call.prog
  cases hearly : early N c with
  | some r' =>
    simp only [runs_ret, Option.some.injEq, reduceCtorEq, false_and, or_false]
    exact ⟨fun h => ⟨h.2.symm, h.1⟩, fun h => ⟨h.2, h.1.symm⟩⟩
  | none =>
    simp only [reduceCtorEq, false_and, false_or, true_and, runs_bind, pure_eq, runs_ret]
    constructor
    · rintro ⟨tr₁, _, r', rfl, hbody, tr₂, _, _, rfl, hrest, rfl, rfl⟩
      exact ⟨tr₁, tr₂, by simp, hbody, hrest⟩
    · rintro ⟨tr₁, tr₂, rfl, hbody, hrest⟩
      exact ⟨tr₁, tr₂, r, rfl, hbody, tr₂, [], (), by simp, hrest, rfl, rfl⟩

/-- The ways in which `new` can end. -/
theorem runs_new {r : Except NvsConfigError Nat} (h : Runs (Call.new.prog N) tr r) :
    Call.Failed.failed r ∧ ¬ OwnedFails tr ∧ (∀ healthy, healthyAfter healthy tr = false) ∨
      Call.Failed.failed r ∧ OwnedFails tr ∧ (∀ healthy, healthyAfter healthy tr = healthy) ∨
      r.isOk = true ∧ ¬ OwnedFails tr ∧ ∀ healthy, healthyAfter healthy tr = true := by
  obtain ⟨hnone, -⟩ | ⟨-, tr', tr₀, rfl, hbody, hrest⟩ := runs_prog.mp h
  · cases hnone
  obtain ⟨opened, tr₁, rfl, hk⟩ := runs_nvs.mp hbody
  cases opened with
  | error e =>
    obtain ⟨tr₂, rfl, hthrow⟩ := runs_storeHealthy.mp hk
    obtain ⟨rfl, rfl⟩ := runs_ret.mp hthrow
    obtain ⟨rfl, -⟩ := runs_ret.mp hrest
    exact .inl ⟨⟨_, rfl, by simp⟩, id, fun _ => rfl⟩
  | ok u =>
    obtain ⟨stats, tr₂, rfl, hstats⟩ := runs_nvs.mp hk
    cases stats with
    | error e =>
      obtain ⟨tr₃, rfl, hthrow⟩ := runs_storeHealthy.mp hstats
      obtain ⟨rfl, rfl⟩ := runs_ret.mp hthrow
      obtain ⟨rfl, -⟩ := runs_ret.mp hrest
      exact .inl ⟨⟨_, rfl, by simp⟩, id, fun _ => rfl⟩
    | ok stats =>
      rcases runs_try.mp hstats with ⟨e, howned, rfl⟩ | ⟨tr₃, tr₄, owned, rfl, howned, hpure⟩
      · obtain ⟨he, hstops⟩ := stopped_ownedEntries howned
        obtain ⟨rfl, -⟩ := runs_ret.mp hrest
        rw [List.append_nil]
        have hflag : ∀ healthy, healthyAfter healthy tr₂ = healthy := fun _ =>
          healthyAfter_of_nvs (only_ownedEntries.runs howned)
        exact .inr (.inl ⟨⟨e, rfl, he⟩, hstops, hflag⟩)
      · obtain ⟨rfl, rfl⟩ := runs_ret.mp hpure
        obtain rfl := runs_op.mp hrest
        refine .inr (.inr ⟨rfl, ?_, fun _ => healthyAfter_append⟩)
        rintro ⟨ev, hmem, hstops⟩
        rw [List.append_nil] at hmem
        rcases List.mem_append.mp hmem with hmem | hmem
        · exact stopped_ownedEntries howned ev hmem hstops
        · rw [List.mem_singleton.mp hmem] at hstops
          exact hstops

theorem runs_selfCheck {ok : Bool} (h : Runs (Call.selfCheck.prog N) tr ok) :
    ∀ healthy, healthyAfter healthy tr = ok := by
  obtain ⟨hnone, -⟩ | ⟨-, tr₁, tr₂, rfl, hbody, hrest⟩ := runs_prog.mp h
  · cases hnone
  obtain rfl := runs_op.mp hrest
  exact fun _ => healthyAfter_append

/-- A call on a space lowers the flag exactly when it fails in NVS work. -/
theorem runs_space {space : Space} {f : N.Key → NvsM N α} {r : Except NvsConfigError α}
    (hnvs : ∀ key, Only OnNvs (ExceptT.run (f key))) (hraises : ∀ key, Raises (· ≠ .invalidSpace) (f key))
    (h : early.refuse N space = some r ∧ tr = [] ∨
      (early.refuse N space : Option (Except NvsConfigError α)) = none ∧ ∃ tr₁ tr₂, tr = tr₁ ++ tr₂ ∧
        Runs (ExceptT.run (do let key ← Prog.ofExcept (key N space); withNvs (f key))) tr₁ r ∧
        Runs (.ret ()) tr₂ ()) :
    Call.Failed.failed r ∧ (∀ healthy, healthyAfter healthy tr = false) ∨
      ¬ Call.Failed.failed r ∧ ∀ healthy, healthyAfter healthy tr = healthy := by
  unfold early.refuse at h
  cases hkey : key N space with
  | error e =>
    obtain rfl : e = .invalidSpace := by
      unfold key at hkey
      split at hkey
      · cases hkey
      · exact (Except.error.inj hkey).symm
    rw [hkey] at h
    obtain ⟨hr, rfl⟩ | ⟨hnone, -⟩ := h
    · cases hr
      refine .inr ⟨?_, fun _ => rfl⟩
      rintro ⟨e, he, hne⟩
      cases he
      exact hne rfl
    · cases hnone
  | ok key =>
    rw [hkey] at h
    obtain ⟨hr, -⟩ | ⟨-, tr₁, tr₂, rfl, hrun, hrest⟩ := h
    · cases hr
    obtain ⟨rfl, -⟩ := runs_ret.mp hrest
    rw [List.append_nil]
    rcases runs_withNvs (hnvs key) hrun with ⟨hok, hflag⟩ | ⟨e, rfl, hflag, he⟩
    · refine .inr ⟨?_, hflag⟩
      rintro ⟨e, rfl, -⟩
      cases hok
    · refine .inl ⟨⟨e, rfl, ?_⟩, hflag⟩
      rcases he with rfl | ⟨tr', herror⟩
      · simp
      · exact hraises key _ _ herror

end Runs

theorem Call.Failed.not_recovers {c : Call} {r : c.Result} (h : c.Failed r) : ¬ c.Recovers r := by
  cases c with
  | new =>
    obtain ⟨e, rfl, -⟩ := h
    exact Bool.false_ne_true
  | selfCheck =>
    obtain rfl : r = false := h
    simp [Call.Recovers]
  | load space => exact id
  | commit space data => exact id
  | clear space => exact id

/-- What a call does to the flag. -/
inductive Effect (m : Made N) : Prop
  | lowers : m.Failed → ¬ m.Unseen → (∀ healthy, m.next healthy = false) → Effect m
  | misses : m.Failed → m.Unseen → (∀ healthy, m.next healthy = healthy) → Effect m
  | raises : m.Recovers → ¬ m.Unseen → (∀ healthy, m.next healthy = true) → Effect m
  | keeps : ¬ m.Failed → ¬ m.Recovers → ¬ m.Unseen → (∀ healthy, m.next healthy = healthy) → Effect m

theorem Made.effect (m : Made N) : Effect m := by
  obtain ⟨c, tr, r, hruns⟩ := m
  cases c with
  | new =>
    rcases runs_new hruns with ⟨hfailed, howned, hflag⟩ | ⟨hfailed, howned, hflag⟩ | ⟨hok, howned, hflag⟩
    · exact .lowers hfailed (fun hunseen => howned hunseen.2) hflag
    · exact .misses hfailed ⟨rfl, howned⟩ hflag
    · exact .raises hok (fun hunseen => howned hunseen.2) hflag
  | selfCheck =>
    have hflag := runs_selfCheck hruns
    cases r with
    | true => exact .raises rfl (fun hunseen => by cases hunseen.1) hflag
    | false => exact .lowers rfl (fun hunseen => by cases hunseen.1) hflag
  | load space =>
    rcases runs_space only_loadAt raises_loadAt (runs_prog.mp hruns) with ⟨hfailed, hflag⟩ | ⟨hfine, hflag⟩
    · exact .lowers hfailed (fun hunseen => by cases hunseen.1) hflag
    · exact .keeps hfine id (fun hunseen => by cases hunseen.1) hflag
  | commit space data =>
    rcases runs_space (only_replaceAt · true data) (raises_replaceAt · true data) (runs_prog.mp hruns)
      with ⟨hfailed, hflag⟩ | ⟨hfine, hflag⟩
    · exact .lowers hfailed (fun hunseen => by cases hunseen.1) hflag
    · exact .keeps hfine id (fun hunseen => by cases hunseen.1) hflag
  | clear space =>
    rcases runs_space (only_replaceAt · false []) (raises_replaceAt · false []) (runs_prog.mp hruns)
      with ⟨hfailed, hflag⟩ | ⟨hfine, hflag⟩
    · exact .lowers hfailed (fun hunseen => by cases hunseen.1) hflag
    · exact .keeps hfine id (fun hunseen => by cases hunseen.1) hflag

theorem Made.lawful : Latch.Lawful Made.next (Made.Failed (N := N)) Made.Recovers := by
  refine ⟨fun healthy m hrecovers => ?_, fun m hrise => ?_, fun m hfall => ?_⟩
  · cases m.effect with
    | lowers hfailed _ _ => exact (hfailed.not_recovers hrecovers).elim
    | misses hfailed _ _ => exact (hfailed.not_recovers hrecovers).elim
    | raises _ _ hflag => exact hflag healthy
    | keeps _ hno _ _ => exact (hno hrecovers).elim
  · cases m.effect with
    | lowers _ _ hflag => cases (hflag false).symm.trans hrise
    | misses _ _ hflag => cases (hflag false).symm.trans hrise
    | raises hrecovers _ _ => exact hrecovers
    | keeps _ _ _ hflag => cases (hflag false).symm.trans hrise
  · cases m.effect with
    | lowers hfailed _ _ => exact hfailed
    | misses hfailed _ _ => exact hfailed
    | raises _ _ hflag => cases (hflag true).symm.trans hfall
    | keeps _ _ _ hflag => cases (hflag true).symm.trans hfall

/-- A failure is seen unless it is one of `new` in `owned_entries` while the flag is up. -/
theorem Made.next_of_failed {m : Made N} {healthy : Bool} (h : m.Failed) :
    m.next healthy = false ↔ (healthy = true → ¬ m.Unseen) := by
  cases m.effect with
  | lowers _ hseen hflag => simp [hflag, hseen]
  | misses _ hunseen hflag => simp [hflag, hunseen]
  | raises hrecovers _ _ => exact (h.not_recovers hrecovers).elim
  | keeps hfine _ _ _ => exact (hfine h).elim

theorem Made.Unseen.failed {m : Made N} (h : m.Unseen) : m.Failed := by
  cases m.effect with
  | lowers hfailed _ _ => exact hfailed
  | misses hfailed _ _ => exact hfailed
  | raises _ hseen _ => exact (hseen h).elim
  | keeps _ _ hseen _ => exact (hseen h).elim

/-- The failures of NVS are reported exactly when no `new` fails in `owned_entries` while the flag
is up. -/
theorem reported_iff (healthy : Bool) (h : List (Made N)) :
    Reported healthy h ↔
      ∀ pre m post, h = pre ++ m :: post → healthyAt healthy pre = true → ¬ m.Unseen := by
  rw [reported_iff_tracks, Made.lawful.tracks_iff]
  constructor
  · intro hall pre m post hsplit htrue hunseen
    exact (Made.next_of_failed hunseen.failed).mp (hall pre m post hsplit hunseen.failed) htrue hunseen
  · intro hall pre m post hsplit hfailed
    exact (Made.next_of_failed hfailed).mpr (hall pre m post hsplit)

/-- `new` on an empty NVS. -/
def boot : Made Reference.espNvs where
  call := .new
  trace := [⟨.nvs .new, .ok ()⟩, ⟨.nvs .statistics, .ok ⟨1000, 0⟩⟩, ⟨.nvs .typedEntries, []⟩,
    ⟨.storeHealthy true, ()⟩]
  result := .ok 874
  runs := .call (.call (.call (.call .ret)))

/-- `new` on an NVS that opens, but cannot enumerate its entries. -/
def bootUnseen : Made Reference.espNvs where
  call := .new
  trace := [⟨.nvs .new, .ok ()⟩, ⟨.nvs .statistics, .ok ⟨1000, 0⟩⟩,
    ⟨.nvs .typedEntries, [.error (.other 0)]⟩]
  result := .error .write
  runs := .call (.call (.call .ret))

theorem bootUnseen_healthy : ¬ Reported true [boot, bootUnseen] := by
  intro hreported
  have hfalse := hreported.unhealthy [boot] bootUnseen [] [] rfl ⟨.write, rfl, by decide⟩ (by simp) ⟨874⟩
  cases hfalse

end Espbewi.ConfigSpace
