import Espbewi.ConfigSpace.Versions
import Mathlib.Algebra.BigOperators.Finprod

/-! The capacity that a boot finds, over the history of the store. -/

namespace Espbewi.ConfigSpace

open Lib Prog

variable {N : EspNvs}

/-- Every item in the namespace is a blob. -/
def Valid (v : Content N.Key) : Prop :=
  ∀ key item, v (NAMESPACE N, key) = some item → ∃ data, item = .blob data

/-- The entries of the blobs in the namespace. -/
noncomputable def owned (v : Content N.Key) : Nat := ∑ᶠ key, itemEntries N (v (NAMESPACE N, key))

/-- The keys of the namespace among the entries. -/
def spaceKeys (entries : List (Except NvsError (N.Key × N.Key))) : List N.Key :=
  entries.filterMap fun
    | .ok (ns, key) => if ns = NAMESPACE N then some key else none
    | .error _ => none

/-- How NVS accounts for its entries: those that are empty, erased, held by blobs of the namespace
and held by data `outside` it are all there are. -/
structure Accounting (F : Flash N.Key) where
  total : Nat
  outside : Content N.Key → Nat
  total_le : total ≤ N.usizeMax
  outside_congr {v v'} : (∀ k, k.1 ≠ NAMESPACE N → v k = v' k) → outside v = outside v'
  statistics {s stats s'} : F.answers s .statistics (.ok stats) s' → Valid (F.content s) →
    stats.empty + stats.erased + owned (F.content s) + outside (F.content s) = total
  entries {s stats s' key data} : F.answers s .statistics (.ok stats) s' →
    F.content s (NAMESPACE N, key) = some (.blob data) → (entriesForBlob N data.length).isSome
  typedEntries {s s'} {entries : List (Except NvsError (N.Key × N.Key))} :
    F.answers s .typedEntries entries s' → (∀ e, .error e ∉ entries) →
    (spaceKeys entries).Nodup ∧
      ∀ key, key ∈ spaceKeys entries ↔ (F.content s (NAMESPACE N, key)).isSome

/-! ### The capacity of a boot -/

theorem ownKeys_eq {entries : List (Except NvsError (N.Key × N.Key))} {keys : List N.Key}
    (h : ownKeys entries = .ok keys) : keys = spaceKeys entries ∧ ∀ e, .error e ∉ entries := by
  induction entries generalizing keys with
  | nil =>
    cases h
    exact ⟨rfl, nofun⟩
  | cons entry entries ih =>
    cases entry with
    | error e => cases h
    | ok names =>
      obtain ⟨ns, key⟩ := names
      rw [ownKeys] at h
      cases hkeys : ownKeys entries with
      | error e =>
        rw [hkeys] at h
        cases h
      | ok keys' =>
        rw [hkeys] at h
        obtain ⟨rfl, hnone⟩ := ih hkeys
        cases h
        refine ⟨?_, by simpa using hnone⟩
        simp only [spaceKeys, List.filterMap_cons]
        split <;> rfl

variable {F : Flash N.Key} {v v' : Content N.Key} {A : Answers (Op N.Key) Op.Ans (Content N.Key)}

/-- What the entries of the keys add up to. -/
theorem exec_sumOwned (hA : Keeps A) {keys : List N.Key} {start n : Nat}
    (hentries : ∀ key data, v (NAMESPACE N, key) = some (.blob data) →
      (entriesForBlob N data.length).isSome)
    (hroom : start + (keys.map fun key => itemEntries N (v (NAMESPACE N, key))).sum ≤ N.usizeMax)
    (h : Exec A (ExceptT.run (sumOwned keys start)) v (.ok n) v') :
    n = start + (keys.map fun key => itemEntries N (v (NAMESPACE N, key))).sum := by
  induction keys generalizing start with
  | nil =>
    obtain ⟨hn, -⟩ := exec_pure.mp h
    exact Except.ok.inj hn
  | cons key keys ih =>
    obtain ⟨got, hk, hgot⟩ := exec_getBlob hA h
    cases got with
    | error e => cases (exec_throw.mp hk).1
    | ok raw =>
      have hblob := hentries key raw hgot
      rw [List.map_cons, List.sum_cons, hgot, itemEntries] at hroom ⊢
      cases hsize : entriesForBlob N raw.length with
      | none =>
        rw [hsize] at hblob
        cases hblob
      | some size =>
        simp only [hsize] at hk
        rw [← entriesForBlob_eq hsize] at hroom ⊢
        have hsum : saturatingAdd N start size = start + size := Nat.min_eq_left (by omega)
        rw [hsum] at hk
        rw [ih (by omega) hk]
        omega

theorem owned_eq {keys : List N.Key} (hnodup : keys.Nodup)
    (hkeys : ∀ key, key ∈ keys ↔ (v (NAMESPACE N, key)).isSome) :
    owned v = (keys.map fun key => itemEntries N (v (NAMESPACE N, key))).sum := by
  have hsupport : Function.support (fun key => itemEntries N (v (NAMESPACE N, key))) ⊆ keys.toFinset := by
    intro key hne
    rw [List.coe_toFinset, Set.mem_ofPred_eq, hkeys]
    cases hitem : v (NAMESPACE N, key) with
    | none =>
      rw [Function.mem_support, hitem] at hne
      exact absurd rfl hne
    | some item => rfl
  rw [owned, finsum_eq_sum_of_support_subset _ hsupport, List.sum_toFinset _ hnodup]

theorem exec_ownedEntries (M : Accounting F) {n : Nat}
    (hentries : ∀ key data, v (NAMESPACE N, key) = some (.blob data) →
      (entriesForBlob N data.length).isSome)
    (hroom : owned v ≤ N.usizeMax) (h : Exec F.device.bound (ExceptT.run ownedEntries) v (.ok n) v') :
    n = owned v := by
  have hA : Keeps F.device.bound := keeps_bound F
  obtain ⟨listed, v₁, hlisted, hk⟩ := exec_nvs.mp h
  obtain rfl := hA hlisted
  obtain ⟨s, s', ⟨hanswers, -⟩, rfl, -⟩ := hlisted
  cases hkeys : ownKeys listed with
  | error e =>
    rw [hkeys] at hk
    cases (exec_throw.mp hk).1
  | ok keys =>
    obtain ⟨rfl, hsound⟩ := ownKeys_eq hkeys
    obtain ⟨hnodup, hmem⟩ := M.typedEntries hanswers hsound
    rw [owned_eq hnodup hmem] at hroom ⊢
    rw [hkeys, ofExcept_ok] at hk
    rw [exec_sumOwned hA hentries (by rwa [Nat.zero_add]) hk, Nat.zero_add]

/-- `NvsConfigBackend::new` finds what is not held outside the namespace, less one page. -/
theorem exec_new_capacity (M : Accounting F) {capacity : Nat} (hv : Valid v)
    (h : Exec F.device.bound (ExceptT.run new) v (.ok capacity) v') :
    capacity = M.total - M.outside v - N.ENTRIES_PER_PAGE := by
  have hA : Keeps F.device.bound := keeps_bound F
  have htotal := M.total_le
  obtain ⟨opened, v₁, hopen, hk⟩ := exec_nvs.mp h
  obtain rfl := hA hopen
  cases opened with
  | error e => cases (exec_throw.mp (exec_storeHealthy hA hk)).1
  | ok u =>
    obtain ⟨answer, v₂, hstats, hk⟩ := exec_nvs.mp hk
    obtain rfl := hA hstats
    obtain ⟨s, s', ⟨hanswers, -⟩, rfl, -⟩ := hstats
    cases answer with
    | error e => cases (exec_throw.mp (exec_storeHealthy hA hk)).1
    | ok stats =>
      have hsum := M.statistics hanswers hv
      obtain ⟨e, -, he⟩ | ⟨entries, v₃, howned, hk⟩ := exec_try.mp hk
      · cases he
      · have hentries := exec_ownedEntries M (fun _ _ => M.entries hanswers) (by omega) howned
        have hcapacity := Except.ok.inj (exec_pure.mp hk).1
        rw [hcapacity, hentries]
        unfold saturatingAdd
        omega

/-! ### Over a history -/

variable {e : Event N} {v₀ : Content N.Key}

/-- A valid store that holds outside the namespace what `v₀` does. -/
structure Settled (v₀ v : Content N.Key) : Prop where
  valid : Valid v
  outside : ∀ k, k.1 ≠ NAMESPACE N → v k = v₀ k

theorem Valid.update {space : Space} {data : List UInt8} (h : Valid v) :
    Valid (Function.update v (slot N space) (some (.blob data))) := by
  intro key item hitem
  by_cases hsame : (NAMESPACE N, key) = slot N space
  · rw [hsame, Function.update_self] at hitem
    exact ⟨data, (Option.some.inj hitem).symm⟩
  · rw [Function.update_of_ne hsame] at hitem
    exact h key item hitem

theorem Valid.outcome {fails : Prop} (h : Valid e.before) (he : Outcome fails e) : Valid e.after := by
  cases he with
  | written hspace hvalid hreturned hattempt hafter =>
    obtain rfl := hafter
    exact h.update
  | checked hother =>
    intro key item hitem
    exact h key item ((hother _ (canarySlot_ne key)).symm.trans hitem)
  | _ => exact h

/-- Every call but a self-check leaves alone what is outside the namespace, and so does a self-check
that succeeds, if it found no canary. -/
theorem Settled.serves (h : Settled v₀ e.before) (hcanary : v₀ (canarySlot N) = none)
    (hcheck : ∀ before after, e ≠ ⟨.selfCheck, false, before, after⟩) (hA : Keeps A)
    (he : (backend N).Serves A e) : Settled v₀ e.after where
  valid := h.valid.outcome (outcome hA he)
  outside k hk := by
    cases outcome hA he with
    | written hspace hvalid hreturned hattempt hafter =>
      obtain rfl := hafter
      have hne : ∀ space, k ≠ slot N space := fun space hsame => hk (congrArg Prod.fst hsame)
      exact (Function.update_of_ne (hne _) ..).trans (h.outside k hk)
    | @checked ok before after hother =>
      by_cases hslot : k = canarySlot N
      · cases ok with
        | false => exact absurd rfl (hcheck before after)
        | true =>
          have hdeleted := (exec_selfCheck hA he).2 rfl
          rw [hdeleted, hslot, Function.update_self, hcanary]
      · exact (hother k hslot).trans (h.outside k hk)
    | _ => exact h.outside k hk

/-! ### The reference store -/

namespace Reference

/-- The keys of the namespace. -/
def names (items : Items) : List espNvs.Key :=
  items.filterMap fun entry => if entry.1.1 = NAMESPACE espNvs then some entry.1.2 else none

theorem spaceKeys_items (items : Items) :
    spaceKeys (N := espNvs) (items.map fun entry => .ok entry.1) = names items := by
  rw [spaceKeys, List.filterMap_map]
  rfl

theorem mem_names (items : Items) (key : espNvs.Key) :
    key ∈ names items ↔ (content items (NAMESPACE espNvs, key)).isSome := by
  rw [content_isSome, names, List.mem_filterMap, List.mem_map]
  refine exists_congr fun entry => and_congr_right fun _ => ?_
  rw [Prod.ext_iff]
  split <;> simp_all

theorem names_nodup {items : Items} (h : (items.map Prod.fst).Nodup) : (names items).Nodup := by
  induction items with
  | nil => exact .nil
  | cons entry items ih =>
    obtain ⟨hfirst, hnodup⟩ := List.nodup_cons.mp h
    by_cases hns : entry.1.1 = NAMESPACE espNvs
    · have hcons : names (entry :: items) = entry.1.2 :: names items := by simp [names, hns]
      rw [hcons]
      refine List.nodup_cons.mpr ⟨fun hmem => hfirst ?_, ih hnodup⟩
      rwa [mem_names, content_isSome, ← hns] at hmem
    · have hcons : names (entry :: items) = names items := by simp [names, hns]
      rw [hcons]
      exact ih hnodup

theorem names_sum (items : Items) (f : espNvs.Key → Nat) : ((names items).map f).sum =
    (items.map fun entry => if entry.1.1 = NAMESPACE espNvs then f entry.1.2 else 0).sum := by
  induction items with
  | nil => rfl
  | cons entry items ih =>
    by_cases hns : entry.1.1 = NAMESPACE espNvs
    · have hcons : names (entry :: items) = entry.1.2 :: names items := by simp [names, hns]
      rw [hcons, List.map_cons, List.sum_cons, ih, List.map_cons, List.sum_cons, if_pos hns]
    · have hcons : names (entry :: items) = names items := by simp [names, hns]
      rw [hcons, ih, List.map_cons, List.sum_cons, if_neg hns, Nat.zero_add]

/-- The entries of what is stored in other namespaces. -/
noncomputable def outside (v : Content espNvs.Key) : Nat :=
  ∑ᶠ k : Slot, if k.1 = NAMESPACE espNvs then 0 else (v k).elim 0 entries

theorem outside_items {items : Items} (h : (items.map Prod.fst).Nodup) : outside (content items) =
    (items.map fun entry => if entry.1.1 = NAMESPACE espNvs then 0 else entries entry.2).sum := by
  have hsupport : Function.support (fun k : Slot =>
      if k.1 = NAMESPACE espNvs then 0 else (content items k).elim 0 entries) ⊆
        (items.map Prod.fst).toFinset := by
    intro k hne
    rw [List.coe_toFinset, Set.mem_ofPred_eq, ← content_isSome]
    cases hitem : content items k with
    | none =>
      rw [Function.mem_support, hitem] at hne
      exact absurd (ite_self 0) hne
    | some item => rfl
  rw [outside, finsum_eq_sum_of_support_subset _ hsupport, List.sum_toFinset _ h, List.map_map]
  refine congrArg List.sum (List.map_congr_left fun entry hmem => ?_)
  simp only [Function.comp_apply, content_of_mem h hmem, Option.elim_some]

theorem owned_items {items : Items} (h : (items.map Prod.fst).Nodup) :
    owned (N := espNvs) (content items) = (items.map fun entry =>
      if entry.1.1 = NAMESPACE espNvs then itemEntries espNvs (some entry.2) else 0).sum := by
  rw [owned_eq (names_nodup h) (mem_names items), names_sum]
  refine congrArg List.sum (List.map_congr_left fun entry hmem => ?_)
  by_cases hns : entry.1.1 = NAMESPACE espNvs
  · have hslot : (NAMESPACE espNvs, entry.1.2) = entry.1 := Prod.ext hns.symm rfl
    rw [if_pos hns, if_pos hns, hslot, content_of_mem h hmem]
  · rw [if_neg hns, if_neg hns]

theorem entries_blob (data : List UInt8) : entries (.blob data) = blobEntries espNvs data.length :=
  (blobEntries_eq (N := espNvs) data.length).symm

theorem live_eq {items : Items} (h : (items.map Prod.fst).Nodup) (hvalid : Valid (content items)) :
    live items = owned (N := espNvs) (content items) + outside (content items) := by
  rw [owned_items h, outside_items h, ← List.sum_map_add]
  refine congrArg List.sum (List.map_congr_left fun entry hmem => ?_)
  by_cases hns : entry.1.1 = NAMESPACE espNvs
  · have hslot : (NAMESPACE espNvs, entry.1.2) = entry.1 := Prod.ext hns.symm rfl
    have hitem := content_of_mem h hmem
    rw [← hslot] at hitem
    obtain ⟨data, hdata⟩ := hvalid _ _ hitem
    rw [if_pos hns, if_pos hns, hdata, entries_blob, Nat.add_zero]
    rfl
  · rw [if_neg hns, if_neg hns, Nat.zero_add]

theorem entries_le (s : Store) {k : Slot} {item : Item} (h : content s.items k = some item) :
    entries item ≤ total := by
  have hsome : (content s.items k).isSome := by rw [h]; rfl
  obtain ⟨entry, hmem, rfl⟩ := List.mem_map.mp ((content_isSome ..).mp hsome)
  obtain rfl := Option.some.inj ((content_of_mem s.nodup hmem).symm.trans h)
  refine Nat.le_trans ?_ s.room
  exact List.single_le_sum (fun _ _ => Nat.zero_le _) _ (List.mem_map_of_mem hmem)

noncomputable def accounting : Accounting flash where
  total := total
  outside := outside
  total_le := by decide
  outside_congr h := finsum_congr fun k => by
    split
    · rfl
    · rw [h k ‹_›]
  statistics {s stats s'} h hvalid := by
    cases h
    have hlive := live_eq s.nodup hvalid
    have hroom := s.room
    show total - live s.items + 0 + owned (content s.items) + outside (content s.items) = total
    omega
  entries {s stats s' key data} _ hblob := by
    have hentries := entries_le s hblob
    refine entriesForBlob_isSome ?_ ?_
    · show data.length + 32 + 4000 ≤ 2 ^ 32 - 1
      rw [entries, total] at hentries
      omega
    · rw [← entries_blob]
      exact Nat.le_trans hentries (by decide)
  typedEntries {s s' entries} h hnone := by
    cases h
    rw [spaceKeys_items]
    exact ⟨names_nodup s.nodup, mem_names s.items⟩

/-- A canary that a self-check could not delete. -/
def stale : Store where
  items := [(canarySlot espNvs, .u8 0xA5)]
  nodup := List.nodup_singleton _
  room := by decide

/-- A boot, a self-check, a reboot. -/
theorem exists_stale_run : ∃ st : State, Service.Reach (backend espNvs) flash.device (stale, true) st ∧
    results st = [⟨.new, .ok 873⟩, ⟨.selfCheck, true⟩, ⟨.new, .ok 874⟩] :=
  exists_run [.new, .selfCheck] [.new] (stale, true)

theorem exists_clean_run : ∃ st : State, Service.Reach (backend espNvs) flash.device (empty, true) st ∧
    results st = [⟨.commit [97] [7], .ok 1⟩, ⟨.selfCheck, true⟩, ⟨.new, .ok 874⟩] :=
  exists_run [.commit [97] [7], .selfCheck] [.new] (empty, true)

end Reference

/-! ### The capacity over a history -/

/-- Every boot finds what is not held outside the namespace at that moment, less one page. This
does not drift, as long as self-checks succeed and found no canary that an earlier one had left. -/
theorem capacity_stable {ι : Type} [DecidableEq ι] (M : Accounting F) {s : F.State × Bool}
    {st : Service.State (backend N) ι (F.State × Bool) (Content N.Key)}
    (h : Service.Reach (backend N) F.device s st) (hvalid : Valid (F.content s.1)) :
    (∀ capacity before after, ⟨.new, .ok capacity, before, after⟩ ∈ st.history →
      capacity = M.total - M.outside before - N.ENTRIES_PER_PAGE) ∧
    (F.content s.1 (canarySlot N) = none →
      (∀ before after, ⟨.selfCheck, false, before, after⟩ ∉ st.history) →
      ∀ capacity before after, ⟨.new, .ok capacity, before, after⟩ ∈ st.history →
        capacity = M.total - M.outside (F.content s.1) - N.ENTRIES_PER_PAGE) := by
  have hA : Keeps F.device.bound := keeps_bound F
  obtain ⟨hserial, -⟩ := Service.serializable (rest_quiet F) h
  have hvalids := (hserial.invariant (J := Valid) (fun e _ hv he => hv.outcome (outcome hA he)) hvalid).2
  have hcapacity : ∀ capacity before after, ⟨.new, .ok capacity, before, after⟩ ∈ st.history →
      capacity = M.total - M.outside before - N.ENTRIES_PER_PAGE :=
    fun capacity before after hmem =>
      exec_new_capacity M (hvalids _ hmem) (hserial.serves _ hmem)
  refine ⟨hcapacity, fun hcanary hchecks capacity before after hmem => ?_⟩
  have hsettled := (hserial.invariant (J := Settled (F.content s.1))
    (fun e hmem hv he => hv.serves hcanary (fun before after heq => hchecks before after (heq ▸ hmem)) hA he)
    ⟨hvalid, fun _ _ => rfl⟩).2 _ hmem
  rw [hcapacity capacity before after hmem, M.outside_congr hsettled.outside]

/-- A commit and a self-check in an empty store, and a reboot. -/
theorem capacity_stable_clean : ∃ (st : Reference.State) (before after : Content Reference.espNvs.Key),
    ⟨.new, .ok 874, before, after⟩ ∈ st.history ∧
      874 = Reference.total - Reference.outside (Reference.content []) - 126 := by
  obtain ⟨st, hreach, hresults⟩ := Reference.exists_clean_run
  obtain ⟨before, after, hmem⟩ := Reference.exists_event (c := .new) (r := .ok 874)
    (by rw [hresults]; exact .tail _ (.tail _ (.head _)))
  have hstable := (capacity_stable Reference.accounting hreach nofun).2 rfl
  refine ⟨st, before, after, hmem, hstable ?_ 874 before after hmem⟩
  intro before' after' hfailed
  have hresult : ⟨.selfCheck, false⟩ ∈ Reference.results st := Reference.mem_results hfailed
  rw [hresults] at hresult
  rcases hresult with _ | ⟨_, _ | ⟨_, _ | ⟨_, ⟨⟩⟩⟩⟩

/-- A self-check that deletes a canary left by an earlier one gives its entry back. -/
theorem capacity_drifts : ¬ ∀ (N : EspNvs) (F : Flash N.Key) (_ : Accounting F) (s : F.State × Bool)
    (st : Service.State (backend N) Unit (F.State × Bool) (Content N.Key)),
    Service.Reach (backend N) F.device s st → Valid (F.content s.1) →
    (∀ e ∈ st.history, e.call.error? e.result = none) →
    (∀ before after, ⟨.selfCheck, false, before, after⟩ ∉ st.history) →
    ∀ first before₁ after₁ next before₂ after₂, ⟨.new, .ok first, before₁, after₁⟩ ∈ st.history →
      ⟨.new, .ok next, before₂, after₂⟩ ∈ st.history → next = first := by
  intro h
  obtain ⟨st, hreach, hresults⟩ := Reference.exists_stale_run
  obtain ⟨before₁, after₁, hfirst⟩ := Reference.exists_event (c := .new) (r := .ok 873)
    (by rw [hresults]; exact .head _)
  obtain ⟨before₂, after₂, hnext⟩ := Reference.exists_event (c := .new) (r := .ok 874)
    (by rw [hresults]; exact .tail _ (.tail _ (.head _)))
  have hvalid : Valid (Reference.flash.content Reference.stale) := by
    intro key item hitem
    have hnone : Reference.content Reference.stale.items (NAMESPACE _, key) = none :=
      (Reference.content_cons ..).trans (if_neg (canarySlot_ne key))
    cases hnone.symm.trans hitem
  have hsame := h _ _ Reference.accounting _ st hreach hvalid ?_ ?_ _ _ _ _ _ _ hfirst hnext
  · exact absurd hsame (by decide)
  · rintro ⟨c, r, before, after⟩ hmem
    have hresult : ⟨c, r⟩ ∈ Reference.results st := Reference.mem_results hmem
    rw [hresults] at hresult
    rcases hresult with _ | ⟨_, _ | ⟨_, _ | ⟨_, ⟨⟩⟩⟩⟩
    · rfl
    · rfl
    · rfl
  · intro before after hmem
    have hresult : ⟨.selfCheck, false⟩ ∈ Reference.results st := Reference.mem_results hmem
    rw [hresults] at hresult
    rcases hresult with _ | ⟨_, _ | ⟨_, _ | ⟨_, ⟨⟩⟩⟩⟩

end Espbewi.ConfigSpace
