import Espbewi.ConfigSpace.Versions
import Espbewi.Lib.Trace
import Mathlib.Algebra.Order.BigOperators.Group.Finset

/-! Reservations that were granted can be honoured at every moment. -/

namespace Espbewi.ConfigSpace

open Lib Prog

variable {N : EspNvs}

/-- Spaces whose reservations were granted within a capacity. -/
structure Grants (N : EspNvs) (capacity : Nat) where
  spaces : Finset Space
  maxBytes : Space → Nat
  units : Space → Nat
  valid : ∀ space ∈ spaces, validSpaceName space = true
  granted : ∀ space ∈ spaces, reservationUnits N space (maxBytes space) = some (units space)
  within : ∑ space ∈ spaces, units space ≤ capacity

namespace Grants

variable {capacity : Nat} (G : Grants N capacity)

/-- Commits keep to the budget of their space. -/
def Allows : Call → Prop
  | .commit space data => space ∈ G.spaces ∧ data.length ≤ G.maxBytes space
  | .clear space => space ∈ G.spaces
  | _ => True

/-- The backend, for callers that keep to their budgets. -/
def service : Service (Op N.Key) Op.Ans where
  Call := { c : Call // G.Allows c }
  Result c := c.1.Result
  early c := early N c.1
  body c := body c.1
  rest c := rest c.1

/-- A version of a record of the space. -/
def Version (space : Space) (data : List UInt8) : Prop := data.length ≤ HEADER_LEN + G.maxBytes space

/-- The namespace holds records of the granted spaces only. -/
def Fits (v : Content N.Key) : Prop := ∀ key item, v (NAMESPACE N, key) = some item →
  ∃ space ∈ G.spaces, (NAMESPACE N, key) = slot N space ∧ ∃ data, item = .blob data ∧ G.Version space data

/-- The entries of the records in the namespace, where `new` versions of some of them are being
stored and the old ones are still there. -/
def occupied (v : Content N.Key) (new : Space → Option (List UInt8)) : Nat :=
  ∑ space ∈ G.spaces, (itemEntries N (v (slot N space)) + itemEntries N ((new space).map .blob))

variable {G}

theorem occupied_le {v : Content N.Key} {new : Space → Option (List UInt8)} (hv : G.Fits v)
    (hnew : ∀ space ∈ G.spaces, ∀ data, new space = some data → G.Version space data) :
    G.occupied v new ≤ capacity := by
  refine Nat.le_trans (Finset.sum_le_sum fun space hspace => ?_) G.within
  have hunits := reservationUnits_eq (G.granted space hspace)
  have hold : itemEntries N (v (slot N space)) ≤ blobEntries N (HEADER_LEN + G.maxBytes space) := by
    cases hitem : v (slot N space) with
    | none => exact Nat.zero_le _
    | some item =>
      obtain ⟨space', hspace', hslot, data, rfl, hversion⟩ := hv _ _ hitem
      obtain rfl := slot_inj (G.valid space hspace) (G.valid space' hspace') hslot
      exact blobEntries_mono hversion
  have hnext : itemEntries N ((new space).map .blob) ≤
      blobEntries N (HEADER_LEN + G.maxBytes space) := by
    cases hdata : new space with
    | none => exact Nat.zero_le _
    | some data => exact blobEntries_mono (hnew space hspace data hdata)
  omega

/-- The calls of NVS that callers within their budgets lead to. -/
def Permits (G : Grants N capacity) : Op N.Key → Prop
  | .nvs (.setBlob ns key data) => ∃ space ∈ G.spaces, (ns, key) = slot N space ∧ G.Version space data
  | .nvs (.setU8 ns key _) => (ns, key) = canarySlot N
  | .nvs (.delete ns key) => (ns, key) = canarySlot N
  | _ => True

theorem permits_of_reads {o : Op N.Key} (h : Reads o) : G.Permits o := by
  cases o with
  | storeHealthy ok => trivial
  | nvs o => cases o <;> trivial

theorem withNvs_permits {f : NvsM N α} (hf : Only G.Permits (ExceptT.run f)) :
    Only G.Permits (ExceptT.run (withNvs f)) := by
  refine only_try (only_lift (only_op trivial)) fun opened => ?_
  cases opened with
  | error e => exact only_try (only_lift (only_op trivial)) fun _ => trivial
  | ok u =>
    refine only_try (only_lift hf) fun result => ?_
    cases result with
    | ok a => trivial
    | error e => exact only_try (only_lift (only_op trivial)) fun _ => trivial

theorem nextGeneration_permits (key : N.Key) : Only G.Permits (ExceptT.run (nextGeneration key)) := by
  refine only_try (only_lift (only_op trivial)) fun got => ?_
  match got with
  | .ok raw =>
    refine only_try (only_ofExcept _) fun record => ?_
    simp only
    split <;> trivial
  | .error .namespaceNotFound => trivial
  | .error .keyNotFound => trivial
  | .error (.other _) => trivial

theorem loadAt_permits (key : N.Key) : Only G.Permits (ExceptT.run (loadAt key)) := by
  refine only_try (only_lift (only_op trivial)) fun got => ?_
  match got with
  | .ok raw => exact only_try (only_ofExcept _) fun record => trivial
  | .error .namespaceNotFound => trivial
  | .error .keyNotFound => trivial
  | .error (.other _) => trivial

theorem replace_permits {space : Space} {present : Bool} {payload : List UInt8}
    (hspace : space ∈ G.spaces) (hfits : payload.length ≤ G.maxBytes space) :
    Only G.Permits (ExceptT.run (replace (N := N) space present payload)) := by
  rw [replace, key_of_valid (G.valid space hspace), ofExcept_ok]
  refine withNvs_permits (only_try (nextGeneration_permits _) fun generation => ?_)
  have hversion : G.Version space (encodeRecord generation present payload) := by
    rw [Version, encodeRecord_length]
    omega
  refine only_try (only_lift (only_op ⟨space, hspace, rfl, hversion⟩)) fun written => ?_
  cases written <;> trivial

theorem canary_permits : Only G.Permits (ExceptT.run (canary (N := N))) := by
  refine only_try (only_lift (only_op rfl)) fun written => ?_
  cases written with
  | error e => trivial
  | ok u =>
    refine only_try (only_lift (only_op trivial)) fun got => ?_
    cases got with
    | error e => trivial
    | ok value =>
      refine only_try (only_lift (only_op rfl)) fun deleted => ?_
      cases deleted <;> trivial

theorem body_permits (c : { c : Call // G.Allows c }) : (G.service.body c).Only G.Permits := by
  obtain ⟨c, hc⟩ := c
  cases c with
  | new => exact new_reads.mono fun _ => permits_of_reads
  | load space =>
    refine only_try (only_ofExcept _) fun key => ?_
    exact withNvs_permits (loadAt_permits key)
  | commit space data => exact replace_permits hc.1 hc.2
  | clear space => exact replace_permits hc (Nat.zero_le _)
  | selfCheck =>
    refine only_bind (withNvs_permits canary_permits) fun r => ?_
    cases r <;> trivial

theorem rest_permits (c : { c : Call // G.Allows c }) (r : c.1.Result) :
    (G.service.rest c r).Only G.Permits := by
  obtain ⟨c, hc⟩ := c
  cases c with
  | new =>
    cases r with
    | ok capacity => exact only_op trivial
    | error e => trivial
  | selfCheck => exact only_op trivial
  | load space => trivial
  | commit space data => trivial
  | clear space => trivial

theorem Fits.canary {v : Content N.Key} {k : N.Key × N.Key} {item : Option Item} (hv : G.Fits v)
    (hk : k = canarySlot N) : G.Fits (Function.update v k item) := by
  intro key' item' hitem
  rw [Function.update_of_ne fun hsame => canarySlot_ne key' (hsame.trans hk)] at hitem
  exact hv key' item' hitem

theorem Fits.record {v : Content N.Key} {space : Space} {data : List UInt8} (hv : G.Fits v)
    (hspace : space ∈ G.spaces) (hversion : G.Version space data) :
    G.Fits (Function.update v (slot N space) (some (.blob data))) := by
  intro key' item' hitem
  by_cases hsame : (NAMESPACE N, key') = slot N space
  · rw [hsame, Function.update_self] at hitem
    exact ⟨space, hspace, hsame, data, (Option.some.inj hitem).symm, hversion⟩
  · rw [Function.update_of_ne hsame] at hitem
    exact hv key' item' hitem

theorem Fits.step {v v' : Content N.Key} {o : Op N.Key} {r : o.Ans} (ho : G.Permits o) (hv : G.Fits v)
    (h : Bound v o r v') : G.Fits v' := by
  cases o with
  | storeHealthy ok => exact h ▸ hv
  | nvs o =>
    cases o with
    | setBlob ns key data =>
      obtain ⟨space, hspace, hslot, hversion⟩ := ho
      obtain rfl | ⟨-, rfl⟩ := h
      · rw [hslot]
        exact hv.record hspace hversion
      · exact hv
    | setU8 ns key value | delete ns key =>
      obtain rfl | ⟨-, rfl⟩ := h
      · exact hv.canary ho
      · exact hv
    | new => exact h ▸ hv
    | statistics => exact h ▸ hv
    | typedEntries => exact h ▸ hv
    | getBlob ns key => exact Reads.same (o := .nvs (.getBlob ns key)) trivial h ▸ hv
    | getU8 ns key => exact Reads.same (o := .nvs (.getU8 ns key)) trivial h ▸ hv

/-- At every moment of every run the records fit the capacity, also with a new version of every
one of them next to the old one, and any version that a task is about to store is one of these.
What `reservation_units` returns is twice what one version takes. -/
theorem reservations_hold {ι : Type} [DecidableEq ι] {F : Flash N.Key} {s : F.State × Bool}
    {st : Service.State G.service ι (F.State × Bool) (Content N.Key)}
    (h : Service.Reach G.service F.device s st) (hs : G.Fits (F.content s.1)) :
    (∀ space maxBytes, reservationUnits N space maxBytes = none ∨
      reservationUnits N space maxBytes = some (2 * blobEntries N (HEADER_LEN + maxBytes))) ∧
    (∀ key item, F.content st.shared.1 (NAMESPACE N, key) = some item →
      ∃ space ∈ G.spaces, (NAMESPACE N, key) = slot N space) ∧
    (∀ new : Space → Option (List UInt8),
      (∀ space ∈ G.spaces, ∀ data, new space = some data → G.Version space data) →
      G.occupied (F.content st.shared.1) new ≤ capacity) ∧
    ∀ i c ns key data k, st.task i = .inside c (.call (.nvs (.setBlob ns key data)) k) →
      ∃ space ∈ G.spaces, (ns, key) = slot N space ∧ G.Version space data := by
  obtain ⟨hfits, hkeeps⟩ := Service.confined body_permits rest_permits
    (fun v o r v' ho hv hstep => hv.step ho (keeps_bound F hstep)) hs h
  refine ⟨reservationUnits_cases, ?_, fun new hnew => occupied_le hfits hnew, ?_⟩
  · intro key item hitem
    obtain ⟨space, hspace, hslot, -⟩ := hfits key item hitem
    exact ⟨space, hspace, hslot⟩
  · intro i c ns key data k hinside
    have hi := hkeeps i
    rw [hinside] at hi
    exact hi.1

/-- Two spaces of at most 7 bytes each. -/
def pair : Grants Reference.espNvs 12 where
  spaces := {[97], [98]}
  maxBytes _ := 7
  units _ := 6
  valid space h := by
    obtain rfl | h := Finset.mem_insert.mp h
    · rfl
    · obtain rfl := Finset.mem_singleton.mp h
      rfl
  granted space h := by
    obtain rfl | h := Finset.mem_insert.mp h
    · rfl
    · obtain rfl := Finset.mem_singleton.mp h
      rfl
  within := Nat.le_refl _

/-- A commit of all 7 bytes of a space. -/
def pair.full (space : Space) (hspace : space ∈ pair.spaces) (byte : UInt8) : pair.service.Call :=
  ⟨.commit space (List.replicate 7 byte), hspace, Nat.le_refl _⟩

/-- Both spaces are full, and one task is about to store a second version of one of them. -/
theorem reservations_hold_replacing : ∃ (st : Service.State pair.service Bool
      (Reference.Store × Bool) (Content Reference.espNvs.Key)) (c : pair.service.Call) (k : _),
    st.history.map (fun e => e.call.1) = [.commit [97] (List.replicate 7 0), .commit [98] (List.replicate 7 1)] ∧
    st.task true = .inside c (.call (.nvs (.setBlob (NAMESPACE Reference.espNvs) (Reference.espNvs.fromSlice [97])
      (encodeRecord 2 true (List.replicate 7 2)))) k) ∧
    Reference.content st.shared.1.items (slot _ [97]) = some (.blob (encodeRecord 1 true (List.replicate 7 0))) ∧
    pair.occupied (Reference.content st.shared.1.items)
      (fun _ => some (encodeRecord 2 true (List.replicate 7 2))) ≤ 12 ∧
    ∃ space ∈ pair.spaces, (NAMESPACE Reference.espNvs, Reference.espNvs.fromSlice [97]) = slot _ space ∧
      pair.Version space (encodeRecord 2 true (List.replicate 7 2)) := by
  have hdevice := Reference.device_answers (F := Reference.flash) Reference.respond fun _ _ => rfl
  have hfirst := Service.Reach.serve (i := true) (S := pair.service) (D := Reference.flash.device)
    (s := (Reference.empty, true)) (c := pair.full [97] (by decide) 0)
    .refl rfl rfl rfl (exec_run hdevice ..) (exec_run hdevice ..)
  have hsecond := hfirst.serve (i := false) (c := pair.full [98] (by decide) 1) rfl rfl rfl
    (exec_run hdevice ..) (exec_run hdevice ..)
  have hcall := hsecond.tail (.call (i := true) (c := pair.full [97] (by decide) 2) rfl rfl)
  have henter := hcall.tail (.enter (Function.update_self ..) rfl)
  have hopened := henter.tail (.inside (i := true) rfl ⟨rfl, rfl⟩)
  have hread := hopened.tail (.inside (i := true) rfl ⟨rfl, rfl⟩)
  obtain ⟨-, -, hroom, hversions⟩ := reservations_hold hread nofun
  refine ⟨_, _, _, rfl, rfl, rfl, hroom _ ?_, hversions true _ _ _ _ _ rfl⟩
  rintro space - data ⟨⟩
  exact Nat.le_refl 20

end Grants

end Espbewi.ConfigSpace
