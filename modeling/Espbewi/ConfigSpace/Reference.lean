import Espbewi.ConfigSpace.Entries
import Mathlib.Algebra.Order.BigOperators.Group.List

/-! An NVS over the list of its live items, which fails only when it has no room left. -/

namespace Espbewi.ConfigSpace.Reference

open Lib Prog

/-- A name in 16 bytes, ended by NUL. -/
def pad (name : List UInt8) : List UInt8 := name ++ List.replicate (16 - name.length) 0

theorem pad_inj {a b : List UInt8} (ha : 0 ∉ a) (hb : 0 ∉ b) (h : pad a = pad b) : a = b := by
  have hname : ∀ l : List UInt8, 0 ∉ l → (pad l).takeWhile (· != 0) = l := by
    intro l hl
    have hall : ∀ x ∈ l, (x != 0) = true := fun x hx => bne_iff_ne.mpr fun hzero => hl (hzero ▸ hx)
    rw [pad, List.takeWhile_append_of_pos hall]
    simp
  rw [← hname a ha, ← hname b hb, h]

def espNvs : EspNvs where
  Key := List UInt8
  keyDecEq := inferInstance
  fromSlice := pad
  ITEM_SIZE := 32
  MAX_BLOB_DATA_PER_PAGE := 4000
  ENTRIES_PER_PAGE := 126
  usizeMax := 2 ^ 32 - 1
  fromSlice_inj _ _ ha hb h := pad_inj ha hb h
  item_pos := by decide
  item_dvd := by decide
  page_pos := by decide

abbrev Slot := espNvs.Key × espNvs.Key

abbrev Items := List (Slot × Item)

/-- The entries of the partition. -/
def total : Nat := 1000

def entries : Item → Nat
  | .blob data => (data.length + 31) / 32 + (data.length + 3999) / 4000 + 1
  | _ => 1

def live (items : Items) : Nat := (items.map fun entry => entries entry.2).sum

structure Store where
  items : Items
  nodup : (items.map Prod.fst).Nodup
  room : live items ≤ total

def content (items : Items) : Content espNvs.Key := fun k => items.lookup k

def remove (items : Items) (k : Slot) : Items := items.filter fun entry => entry.1 != k

def put (items : Items) (k : Slot) (item : Item) : Items := (k, item) :: remove items k

theorem remove_nodup {items : Items} (h : (items.map Prod.fst).Nodup) (k : Slot) :
    ((remove items k).map Prod.fst).Nodup := h.sublist (List.filter_sublist.map _)

theorem put_nodup {items : Items} (h : (items.map Prod.fst).Nodup) (k : Slot) (item : Item) :
    ((put items k item).map Prod.fst).Nodup := by
  refine List.nodup_cons.mpr ⟨?_, remove_nodup h k⟩
  simp [remove]

theorem live_remove_le (items : Items) (k : Slot) : live (remove items k) ≤ live items :=
  (List.filter_sublist.map _).sum_le_sum fun _ _ => Nat.zero_le _

def Store.put (s : Store) (k : Slot) (item : Item) : Except NvsError Unit × Store :=
  if h : live (Reference.put s.items k item) ≤ total
  then (.ok (), ⟨Reference.put s.items k item, put_nodup s.nodup k item, h⟩)
  else (.error (.other 0), s)

def Store.remove (s : Store) (k : Slot) : Store where
  items := Reference.remove s.items k
  nodup := remove_nodup s.nodup k
  room := Nat.le_trans (live_remove_le s.items k) s.room

def respond (s : Store) : (o : NvsOp espNvs.Key) → o.Ans × Store
  | .new => (.ok (), s)
  | .statistics => (.ok { empty := total - live s.items, erased := 0 }, s)
  | .typedEntries => (s.items.map fun entry => .ok entry.1, s)
  | .getBlob ns key => (match s.items.lookup (ns, key) with
    | some (.blob data) => .ok data
    | _ => .error .keyNotFound, s)
  | .getU8 ns key => (match s.items.lookup (ns, key) with
    | some (.u8 value) => .ok value
    | _ => .error .keyNotFound, s)
  | .setBlob ns key data => s.put (ns, key) (.blob data)
  | .setU8 ns key value => s.put (ns, key) (.u8 value)
  | .delete ns key => (.ok (), s.remove (ns, key))

theorem content_cons (k k' : Slot) (item : Item) (items : Items) :
    content ((k, item) :: items) k' = if k' = k then some item else content items k' := by
  unfold content
  rw [List.lookup_cons]
  by_cases heq : k' = k
  · simp [heq]
  · rw [if_neg heq, beq_false_of_ne heq]

theorem content_remove (items : Items) (k : Slot) :
    content (remove items k) = Function.update (content items) k none := by
  funext k'
  induction items with
  | nil => simp [content, remove, Function.update_apply]
  | cons entry items ih =>
    obtain ⟨k₀, item⟩ := entry
    by_cases hk : k₀ = k
    · have hdrop : remove ((k₀, item) :: items) k = remove items k := by simp [remove, hk]
      rw [hdrop, ih, Function.update_apply, Function.update_apply, content_cons, hk]
      split <;> rfl
    · have hkeep : remove ((k₀, item) :: items) k = (k₀, item) :: remove items k := by simp [remove, hk]
      rw [hkeep, content_cons, ih, Function.update_apply, Function.update_apply, content_cons]
      by_cases hk' : k' = k₀
      · rw [if_pos hk', if_pos hk', if_neg (hk' ▸ hk)]
      · rw [if_neg hk', if_neg hk']

theorem content_put (items : Items) (k : Slot) (item : Item) :
    content (put items k item) = Function.update (content items) k (some item) := by
  funext k'
  have hput : put items k item = (k, item) :: remove items k := rfl
  rw [hput, content_cons, content_remove, Function.update_apply, Function.update_apply]
  split <;> rfl

theorem content_isSome (items : Items) (k : Slot) :
    (content items k).isSome ↔ k ∈ items.map Prod.fst := by
  induction items with
  | nil => simp [content]
  | cons entry items ih =>
    rw [content_cons, List.map_cons, List.mem_cons]
    split
    · next heq => simp [heq]
    · next hne => rw [ih, or_iff_right hne]

theorem content_of_mem {items : Items} (h : (items.map Prod.fst).Nodup) {entry : Slot × Item}
    (hmem : entry ∈ items) : content items entry.1 = some entry.2 := by
  induction items with
  | nil => cases hmem
  | cons first items ih =>
    obtain ⟨hfirst, hnodup⟩ := List.nodup_cons.mp h
    rw [content_cons]
    rcases List.mem_cons.mp hmem with rfl | hmem
    · rw [if_pos rfl]
    · rw [if_neg, ih hnodup hmem]
      rintro heq
      exact hfirst (heq ▸ List.mem_map_of_mem hmem)

theorem put_cases (s : Store) (k : Slot) (item : Item) :
    (∃ s', s.put k item = (.ok (), s') ∧ content s'.items = Function.update (content s.items) k (some item)) ∨
      s.put k item = (.error (.other 0), s) := by
  unfold Store.put
  by_cases hroom : live (Reference.put s.items k item) ≤ total
  · rw [dif_pos hroom]
    exact .inl ⟨_, rfl, content_put ..⟩
  · rw [dif_neg hroom]
    exact .inr rfl

theorem respond_contract (s : Store) (o : NvsOp espNvs.Key) :
    Contract (content s.items) o (respond s o).1 (content (respond s o).2.items) := by
  cases o with
  | new => rfl
  | statistics => rfl
  | typedEntries => rfl
  | getBlob ns key =>
    have hlookup : s.items.lookup (ns, key) = content s.items (ns, key) := rfl
    simp only [respond, hlookup]
    cases hitem : content s.items (ns, key) with
    | none => exact ⟨rfl, by simp [hitem]⟩
    | some item =>
      cases item with
      | u8 value => exact ⟨rfl, by simp [hitem]⟩
      | blob data => exact ⟨rfl, hitem⟩
      | other code => exact ⟨rfl, by simp [hitem]⟩
  | getU8 ns key =>
    have hlookup : s.items.lookup (ns, key) = content s.items (ns, key) := rfl
    simp only [respond, hlookup]
    cases hitem : content s.items (ns, key) with
    | none => rfl
    | some item =>
      cases item with
      | u8 value => exact ⟨rfl, hitem⟩
      | blob data => rfl
      | other code => rfl
  | setBlob ns key data =>
    simp only [respond]
    obtain ⟨s', hput, hcontent⟩ | hput := put_cases s (ns, key) (.blob data)
    · rw [hput]
      exact .inl hcontent
    · rw [hput]
      exact .inr ⟨rfl, rfl⟩
  | setU8 ns key value =>
    simp only [respond]
    obtain ⟨s', hput, hcontent⟩ | hput := put_cases s (ns, key) (.u8 value)
    · rw [hput]
      exact .inl hcontent
    · rw [hput]
      exact .inr ⟨rfl, rfl⟩
  | delete ns key => exact .inl (content_remove ..)

def flash : Flash espNvs.Key where
  State := Store
  answers s o r s' := respond s o = (r, s')
  restart s s' := s' = s
  content s := content s.items
  contract {s o r s'} h := by
    have hcontract := respond_contract s o
    rwa [h] at hcontract
  restart_content h := congrArg (fun s => content s.items) h

def empty : Store where
  items := []
  nodup := .nil
  room := Nat.zero_le _

def report (fault : Bool) (r : Except NvsError Unit) : Except NvsError Unit := if fault then .error (.other 1) else r

theorem report_failed (fault : Bool) {r : Except NvsError Unit} (h : r.isOk = false) :
    (report fault r).isOk = false := by
  cases fault
  · exact h
  · rfl

/-- The store, and which of the coming records it stores but reports as failed. -/
def respondFlaky (s : Store × List Bool) : (o : NvsOp espNvs.Key) → o.Ans × (Store × List Bool)
  | .setBlob ns key data =>
    let served := respond s.1 (.setBlob ns key data)
    (report (s.2.headD false) served.1, (served.2, s.2.tail))
  | o => ((respond s.1 o).1, ((respond s.1 o).2, s.2))

theorem respondFlaky_contract (s : Store × List Bool) (o : NvsOp espNvs.Key) :
    Contract (content s.1.items) o (respondFlaky s o).1 (content (respondFlaky s o).2.1.items) := by
  cases o with
  | setBlob ns key data =>
    have hstores : Stores (content s.1.items) (ns, key) _ (respond s.1 (.setBlob ns key data)).1 _ :=
      respond_contract s.1 (.setBlob ns key data)
    exact hstores.imp id fun ⟨hfailed, hsame⟩ => ⟨report_failed _ hfailed, hsame⟩
  | _ => exact respond_contract s.1 _

def flaky : Flash espNvs.Key where
  State := Store × List Bool
  answers s o r s' := respondFlaky s o = (r, s')
  restart s s' := s' = s
  content s := content s.1.items
  contract {s o r s'} h := by
    have hcontract := respondFlaky_contract s o
    rwa [h] at hcontract
  restart_content h := congrArg (fun s => content s.1.items) h

/-! ### One task -/

abbrev State := Service.State (backend espNvs) Unit (Store × Bool) (Content espNvs.Key)

section Runs

variable {F : Flash espNvs.Key} (answer : F.State → (o : NvsOp espNvs.Key) → o.Ans × F.State)

def device : Device (Op espNvs.Key) Op.Ans (F.State × Bool)
  | s, .nvs o => ((answer s.1 o).1, ((answer s.1 o).2, s.2))
  | s, .storeHealthy ok => ((), (s.1, ok))

def serve (c : Call) (s : F.State × Bool) : c.Result × (F.State × Bool) :=
  match early espNvs c with
  | some r => (r, s)
  | none =>
    let served := (body c).run (device answer) s
    (served.1, ((rest c served.1).run (device answer) served.2).2)

/-- The results of calls that are made one after the other. -/
def serveAll : List Call → F.State × Bool → List ((c : Call) × c.Result)
  | [], _ => []
  | c :: calls, s => ⟨c, (serve answer c s).1⟩ :: serveAll calls (serve answer c s).2

abbrev RunState (F : Flash espNvs.Key) := Service.State (backend espNvs) Unit (F.State × Bool) (Content espNvs.Key)

def results {σ : Type} (st : Service.State (backend espNvs) Unit σ (Content espNvs.Key)) :
    List ((c : Call) × c.Result) := st.history.map fun e => ⟨e.call, e.result⟩

theorem mem_results {σ : Type} {st : Service.State (backend espNvs) Unit σ (Content espNvs.Key)} {c : Call}
    {r : c.Result} {before after : Content espNvs.Key} (h : ⟨c, r, before, after⟩ ∈ st.history) :
    ⟨c, r⟩ ∈ results st :=
  List.mem_map_of_mem (f := fun e => (⟨e.call, e.result⟩ : (c : Call) × c.Result)) h

theorem exists_event {σ : Type} {st : Service.State (backend espNvs) Unit σ (Content espNvs.Key)} {c : Call}
    {r : c.Result} (h : ⟨c, r⟩ ∈ results st) :
    ∃ before after, (⟨c, r, before, after⟩ : (backend espNvs).Event (Content espNvs.Key)) ∈ st.history := by
  obtain ⟨⟨c', r', before, after⟩, hmem, heq⟩ := List.mem_map.mp h
  cases heq
  exact ⟨before, after, hmem⟩

variable (hanswer : ∀ s o, F.answers s o (answer s o).1 (answer s o).2) {s : F.State × Bool} {st : RunState F}

include hanswer

theorem device_answers (s : F.State × Bool) (o : Op espNvs.Key) :
    F.device.answers s o (device answer s o).1 (device answer s o).2 := by
  cases o with
  | nvs o => exact ⟨hanswer s.1 o, rfl⟩
  | storeHealthy ok => rfl

theorem reach_serve (h : Service.Reach (backend espNvs) F.device s st)
    (hfree : st.holder = none) (hidle : st.task () = .idle) (c : Call) :
    ∃ st' : RunState F, Service.Reach (backend espNvs) F.device s st' ∧ st'.holder = none ∧
      st'.task () = .idle ∧ st'.shared = (serve answer c st.shared).2 ∧
      results st' = results st ++ [⟨c, (serve answer c st.shared).1⟩] := by
  unfold serve
  cases hearly : early espNvs c with
  | some r => exact ⟨_, h.tail (.answer hidle hearly), hfree, hidle, rfl, List.map_append ..⟩
  | none =>
    exact ⟨_, h.serve hfree hidle hearly (exec_run (device_answers answer hanswer) ..)
      (exec_run (device_answers answer hanswer) ..), hfree, hidle, rfl, List.map_append ..⟩

theorem reach_serveAll (h : Service.Reach (backend espNvs) F.device s st) (hfree : st.holder = none)
    (hidle : st.task () = .idle) (calls : List Call) :
    ∃ st' : RunState F, Service.Reach (backend espNvs) F.device s st' ∧ st'.holder = none ∧
      st'.task () = .idle ∧ st'.shared = calls.foldl (fun s c => (serve answer c s).2) st.shared ∧
      results st' = results st ++ serveAll answer calls st.shared := by
  induction calls generalizing st with
  | nil => exact ⟨st, h, hfree, hidle, rfl, (List.append_nil _).symm⟩
  | cons c calls ih =>
    obtain ⟨st₁, h₁, hfree₁, hidle₁, hshared, hresults⟩ := reach_serve answer hanswer h hfree hidle c
    obtain ⟨st₂, h₂, hfree₂, hidle₂, hlast, hall⟩ := ih h₁ hfree₁ hidle₁
    refine ⟨st₂, h₂, hfree₂, hidle₂, by rw [hlast, hshared]; rfl, ?_⟩
    rw [hall, hresults, hshared, List.append_assoc]
    rfl

/-- One task makes some calls, the device restarts, and the task makes some more. -/
theorem exists_restart (hrestart : ∀ s, F.restart s s) (calls more : List Call) (s : F.State × Bool) :
    ∃ st : RunState F, Service.Reach (backend espNvs) F.device s st ∧
      results st = serveAll answer calls s ++
        serveAll answer more ((calls.foldl (fun s c => (serve answer c s).2) s).1, true) := by
  obtain ⟨st, h, hfree, -, hshared, hresults⟩ := reach_serveAll answer hanswer .refl rfl rfl calls
  have hboot : F.device.restart st.shared (st.shared.1, true) := ⟨hrestart _, rfl⟩
  obtain ⟨st', h', -, -, -, hresults'⟩ :=
    reach_serveAll answer hanswer (h.tail (.restart hfree hboot)) hfree rfl more
  refine ⟨st', h', hresults'.trans ?_⟩
  simp only [hshared]
  exact congrArg (· ++ _) hresults

end Runs

theorem exists_run (calls more : List Call) (s : Store × Bool) :
    ∃ st : State, Service.Reach (backend espNvs) flash.device s st ∧
      results st = serveAll (F := flash) respond calls s ++ serveAll (F := flash) respond more
        ((calls.foldl (fun s c => (serve (F := flash) respond c s).2) s).1, true) :=
  exists_restart (F := flash) respond (fun _ _ => rfl) (fun _ => rfl) calls more s

/-- NVS fails the records that the list says, although it stores them. -/
theorem exists_flaky (calls more : List Call) (faults : List Bool) :
    ∃ st : RunState flaky, Service.Reach (backend espNvs) flaky.device ((empty, faults), true) st ∧
      results st = serveAll (F := flaky) respondFlaky calls ((empty, faults), true) ++
        serveAll (F := flaky) respondFlaky more
          ((calls.foldl (fun s c => (serve (F := flaky) respondFlaky c s).2) ((empty, faults), true)).1, true) :=
  exists_restart (F := flaky) respondFlaky (fun _ _ => rfl) (fun _ => rfl) calls more _

end Espbewi.ConfigSpace.Reference
