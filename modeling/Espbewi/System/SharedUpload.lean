import Espbewi.System.Shared
import Espbewi.System.UploadSectors

/-! An upload by one task, while others use the flash. -/

namespace Espbewi.System

open Lib Nor Boot Otadata Prog SharedFlash
open EspArtifactStorage (sectors)

variable {idf : EspIdf} {fb : Fibewi} {H : Sha256} {g : Geometry} {w : Nat} {E : Engine} {M : FlashMap}
  {pending : E.WriteSession → List UInt8} {b : Behaviour} {s₀ s s' : State} {f f' : Flash} {x : AppSlot}
  {S : List UInt8}

/-- The call writes to slot `x`. -/
def Request.Writes (x : AppSlot) : Request E M → Prop
  | .append y .. | .finish y .. => y = x
  | _ => False

/-- A call of the history, with its result. -/
abbrev Served (idf : EspIdf) (fb : Fibewi) (H : Sha256) (g : Geometry) (w : Nat) (E : Engine) (M : FlashMap) :=
  (service idf fb H g w E M).Event State

/-- A history in which slot `x` is sent `S` from its start: at each call the next bytes, at any length,
and again after a refusal. Between these calls there may be any others that do not write to `x`. -/
inductive Sent (x : AppSlot) (S : List UInt8) :
    List (Served idf fb H g w E M) → ArtifactWriter → E.WriteSession → Nat → Prop
  | start (h) : Sent x S h (.new g (M.slot x)) E.new 0
  | other {h a e n} {ev : Served idf fb H g w E M} : Sent x S h a e n → ¬ Request.Writes x ev.call →
      Sent x S (h ++ [ev]) a e n
  | append {h n data ok a' e' before after} (u : Upload E M x) : Sent x S h u.writer u.session n →
      data <+: S.drop n → Sent x S (h ++ [⟨.append x u data, (ok, a', e'), before, after⟩]) a' e'
        (if ok then n + data.length else n)

/-- All of `S` was sent and `finish` returned `Ok`, and nothing has written to slot `x` since. -/
inductive Finished (x : AppSlot) (S : List UInt8) : List (Served idf fb H g w E M) → Prop
  | finish {h size a' before after} (u : Upload E M x) : Sent x S h u.writer u.session S.length →
      Finished x S (h ++ [⟨.finish x u, (.ok size, a'), before, after⟩])
  | other {h} {ev : Served idf fb H g w E M} : Finished x S h → ¬ Request.Writes x ev.call →
      Finished x S (h ++ [ev])

theorem region_other {c : Request E M} (hc : ¬ Request.Writes x c) : c.region.Apart (.ofSlot (M.slot x)) := by
  have hslots : ∀ {y}, y ≠ x → (Region.ofSlot (M.slot y)).Apart (.ofSlot (M.slot x)) := by
    intro y hy
    cases y <;> cases x
    · exact absurd rfl hy
    · exact M.slot_slot
    · exact fun z hz hz' => M.slot_slot z hz' hz
    · exact absurd rfl hy
  cases c with
  | confirm | reject | activate target => exact fun z hz hz' => M.slot_ota x z hz' hz
  | append y u data => exact hslots hc
  | finish y u => exact hslots hc
  | nvs p h => exact M.nvs_slot x
  | _ =>
    intro z hz
    simp only [Request.region, Region.Has] at hz
    omega

theorem Session.other {a : ArtifactWriter} {e : E.WriteSession} {n : Nat} {r : Region}
    (h : Session g pending (M.slot x) S s₀ a e n s)
    (hr : r.Apart (.ofSlot (M.slot x))) (hframe : r.Frame s.flash s'.flash) :
    Session g pending (M.slot x) S s' a e n s' :=
  { h with stream := h.stream.rebase fun z hlo hhi => hframe z fun hz => hr z hz ⟨hlo, hhi⟩ }

theorem slot_frame {r : Region} (hslot : r.Apart (.ofSlot (M.slot x))) (hframe : r.Frame f f') {i : Nat}
    (hi : i < (M.slot x).size) : f' ((M.slot x).offset.toNat + i) = f ((M.slot x).offset.toNat + i) :=
  hframe _ fun hin => hslot _ hin ⟨Nat.le_add_right .., Nat.add_lt_add_left hi _⟩

theorem Holds.frame (h : Holds g (M.slot x) S f) {r : Region} (hslot : r.Apart (.ofSlot (M.slot x)))
    (hframe : r.Frame f f') : Holds g (M.slot x) S f' :=
  ⟨h.1, fun i hi => (slot_frame hslot hframe (Nat.lt_of_lt_of_le hi h.1)).trans (h.2 i hi)⟩

theorem serves_frame (hb : b.Honest) (hl : fb.OpsLaw) (hsl : fb.SectorLaw) {ev : Served idf fb H g w E M}
    (hlocated : Located idf M ev.before)
    (h : (service idf fb H g w E M).Serves (Service.ofDevice (norDevice b)).bound ev) :
    ev.call.region.Frame ev.before.flash ev.after.flash := by
  cases hearly : (service idf fb H g w E M).early ev.call with
  | some r =>
    rw [(h.early hearly).2]
    exact .refl _ _
  | none =>
    have hrun := ((wp_iff ..).mp (wp_body_frame (H := H) (g := g) (w := w) hb hl hsl hlocated ev.call)).2
    have hev : (body idf fb H g w E M ev.call).run (norDevice b) ev.before = (ev.result, ev.after) := h.run hearly
    rwa [hev] at hrun

theorem serial_located (hb : b.Honest) (hl : fb.OpsLaw) (hsl : fb.SectorLaw) {h : List (Served idf fb H g w E M)}
    (hserial : (service idf fb H g w E M).Serial (Service.ofDevice (norDevice b)).bound s h s')
    (hs : Located idf M s) : Located idf M s' := by
  refine (hserial.invariant (fun ev _ hbefore hserves => ?_) hs).1
  exact (lookupIn_frame (serves_frame hb hl hsl hbefore hserves) (region_table _) _).trans hbefore

section Serial

variable {h : List (Served idf fb H g w E M)}

/-- Whatever the other calls were, the session is where its own calls have brought it. -/
theorem Sent.session (hb : b.Honest) (hl : fb.OpsLaw) (hsl : fb.SectorLaw) (hE : E.Law pending)
    (hS : (sectors g S).length < 2 ^ 64) (hs : Located idf M s) {a : ArtifactWriter} {e : E.WriteSession} {n : Nat}
    (hsent : Sent x S h a e n)
    (hserial : (service idf fb H g w E M).Serial (Service.ofDevice (norDevice b)).bound s h s') :
    ∃ s₀, Session g pending (M.slot x) (sectors g S) s₀ a e n s' ∧ n ≤ S.length := by
  induction hsent generalizing s' with
  | start h => exact ⟨s', .start hE, Nat.zero_le _⟩
  | @other h a e n ev _ hother ih =>
    obtain ⟨hfirst, hserves, rfl⟩ := hserial.last
    obtain ⟨s₀, hsession, hle⟩ := ih hfirst
    exact ⟨_, hsession.other (region_other hother)
      (serves_frame hb hl hsl (serial_located hb hl hsl hfirst hs) hserves), hle⟩
  | @append h n data ok a' e' before after u _ hdata ih =>
    obtain ⟨hfirst, hserves, rfl⟩ := hserial.last
    obtain ⟨s₀, hsession, hle⟩ := ih hfirst
    refine ⟨s₀, ?_⟩
    by_cases hcan : E.canAppend u.session data.length = true
    · exact hsession.append_sectors hb hE hS (M.sized x) hle hdata (hserves.run (if_pos hcan))
    · obtain ⟨hresult, hafter⟩ := hserves.early (r := (false, u.writer, u.session)) (if_neg hcan)
      cases hresult
      cases hafter
      exact ⟨hsession, hle⟩

/-- After `finish` the slot holds what was sent. -/
theorem Finished.holds (hb : b.Honest) (hl : fb.OpsLaw) (hsl : fb.SectorLaw) (hE : E.Law pending)
    (hS : (sectors g S).length < 2 ^ 64) (hs : Located idf M s) (hfinished : Finished x S h)
    (hserial : (service idf fb H g w E M).Serial (Service.ofDevice (norDevice b)).bound s h s') :
    Holds g (M.slot x) S s'.flash := by
  induction hfinished generalizing s' with
  | @finish h size a' before after u hsent =>
    obtain ⟨hfirst, hserves, rfl⟩ := hserial.last
    obtain ⟨s₀, hsession, -⟩ := hsent.session hb hl hsl hE hS hs hfirst
    by_cases hcovered : E.received u.session > u.writer.erasedThrough
    · obtain ⟨hresult, -⟩ := hserves.early (if_pos hcovered)
      cases hresult
    · exact hsession.finish_sectors hb hE (hserves.run (if_neg hcovered))
  | @other h ev _ hother ih =>
    obtain ⟨hfirst, hserves, rfl⟩ := hserial.last
    exact (ih hfirst).frame (region_other hother)
      (serves_frame hb hl hsl (serial_located hb hl hsl hfirst hs) hserves)

end Serial

theorem holds_of_cut {ι : Type} [DecidableEq ι] (hb : b.Honest) (hl : fb.OpsLaw) (hsl : fb.SectorLaw)
    (hE : E.Law pending) (hS : (sectors g S).length < 2 ^ 64) (hs : Located idf M s)
    {st : (service idf fb H g w E M).State ι State State}
    (hreach : Service.Reach _ (Service.ofDevice (norDevice b)) s st) (hfinished : Finished x S st.history)
    (hquiet : ∀ i c p, st.task i = .inside c p → ¬ Request.Writes x c) (hcut : CutAt st f) :
    Holds g (M.slot x) S f := by
  have hserial := (Service.serializable (fun c r => by trivial) hreach).1
  have hholds := hfinished.holds hb hl hsl hE hS hs hserial
  rcases CutAt.cases ((guards_table hb hl hsl hs).moment (fun _ _ => rfl) (fun _ _ _ => rfl) hreach) hcut with
    rfl | ⟨i, c, p, hinside, hframe⟩
  · exact hholds
  · exact hholds.frame (region_other (hquiet i c p hinside)) hframe

/-- In every interleaving of the tasks an upload that was finished is in its slot, byte for byte and padded to
whole sectors, and stays there, also in a power cut, for as long as no call writes to the slot. -/
theorem shared_upload {ι : Type} [DecidableEq ι] (hb : b.Honest) (hl : fb.OpsLaw) (hsl : fb.SectorLaw)
    (hE : E.Law pending) (hS : (sectors g S).length < 2 ^ 64) (hs : Located idf M s)
    {st : (service idf fb H g w E M).State ι State State}
    (hreach : Service.Reach _ (Service.ofDevice (norDevice b)) s st) (hfinished : Finished x S st.history)
    (hquiet : ∀ i c p, st.task i = .inside c p → ¬ Request.Writes x c) (hcut : CutAt st f) :
    Nor.read f (M.slot x).offset.toNat (sectors g S).length = sectors g S := by
  obtain ⟨-, hholds⟩ := holds_of_cut hb hl hsl hE hS hs hreach hfinished hquiet hcut
  refine List.ext_getElem (by simp) fun i hi hi' => ?_
  rw [read_getElem]
  exact hholds i hi'

/-! ### Five bytes -/

/-- A task sends all of `S` in one call, and finishes. -/
theorem reach_finished {u : Upload E M x} (hwriter : u.writer = .new g (M.slot x)) (hsession : u.session = E.new)
    (hcan : E.canAppend u.session S.length = true) {r : (Bool × ArtifactWriter × E.WriteSession) × State}
    (hr : (u.writer.append g w E u.session S).run (norDevice b) s = r) (hok : r.1.1 = true)
    (hpartition : r.1.2.1.partition = M.slot x) (hcovered : ¬ E.received r.1.2.2 > r.1.2.1.erasedThrough)
    {size : UInt64} {last : (Except FinishError UInt64 × ArtifactWriter) × State}
    (hlast : (r.1.2.1.finish g w E r.1.2.2).run (norDevice b) r.2 = last) (hfinish : last.1.1 = .ok size) :
    ∃ h, Service.Reach (service idf fb H g w E M) (Service.ofDevice (norDevice b)) s
        ⟨last.2, none, fun _ : Nat => .idle, last.2, h⟩ ∧ Finished x S h := by
  obtain ⟨⟨ok, a', e'⟩, s'⟩ := r
  cases hok
  obtain ⟨⟨res, a''⟩, s''⟩ := last
  cases hfinish
  have hreach : Service.Reach (ι := Nat) (service idf fb H g w E M) (Service.ofDevice (norDevice b)) s
    ⟨s, none, fun _ => .idle, s, []⟩ := .refl
  have hreach := hreach.call 0 (.append x u S) (if_pos hcan) fun _ _ => rfl
  rw [show ((service idf fb H g w E M).body (.append x u S)).run (norDevice b) s = _ from hr] at hreach
  have hreach := hreach.call 0 (.finish x ⟨a', e', hpartition⟩) (if_neg hcovered) fun _ _ => rfl
  rw [show ((service idf fb H g w E M).body (.finish x ⟨a', e', hpartition⟩)).run (norDevice b) s' = _ from hlast]
    at hreach
  refine ⟨_, hreach, .finish ⟨a', e', hpartition⟩ ?_⟩
  have hstart : Sent x S ([] : List (Served idf fb H g w E M)) u.writer u.session 0 := by
    rw [hwriter, hsession]
    exact .start []
  have hsent : Sent x S ([] ++ [(⟨.append x u S, (true, a', e'), s, s'⟩ : Served idf fb H g w E M)]) a' e'
      (0 + S.length) := .append u hstart (List.prefix_refl S)
  rwa [Nat.zero_add] at hsent

abbrev sampleService : Service NorOp NorOp.Ans :=
  service firstMatch Sample.fibewi Preloaded.messageHasher smallSectors 32 listEngine sampleMap

/-- Slot 0 runs. -/
def oneEntry : Entries := (Sample.encode ⟨1, Sample.VALID⟩, List.replicate 20 0xFF)

abbrev sampleUpload : Upload listEngine sampleMap .ota1 :=
  ⟨.new smallSectors (sampleMap.slot .ota1), listEngine.new, rfl⟩

def sampleChunk : (Bool × ArtifactWriter × listEngine.WriteSession) × State :=
  (sampleUpload.writer.append smallSectors 32 listEngine sampleUpload.session [1, 2, 3, 4, 5]).run
    (norDevice perfect) ⟨Sample.otaFlash oneEntry, [], 0⟩

def sampleFinish : (Except FinishError UInt64 × ArtifactWriter) × State :=
  (sampleChunk.1.2.1.finish smallSectors 32 listEngine sampleChunk.1.2.2).run (norDevice perfect) sampleChunk.2

theorem reach_five_bytes : ∃ h, Service.Reach sampleService (Service.ofDevice (norDevice perfect))
      ⟨Sample.otaFlash oneEntry, [], 0⟩ ⟨sampleFinish.2, none, fun _ : Nat => .idle, sampleFinish.2, h⟩ ∧
    Finished .ota1 [1, 2, 3, 4, 5] h :=
  reach_finished rfl rfl rfl (r := sampleChunk) rfl (by decide +kernel) (by decide +kernel)
    (by decide +kernel) rfl (show sampleFinish.1.1 = .ok 5 by decide +kernel)

theorem shared_upload_five_bytes : ∃ st : sampleService.State Nat State State,
    Service.Reach _ (Service.ofDevice (norDevice perfect)) ⟨Sample.otaFlash oneEntry, [], 0⟩ st ∧
    ∀ f, CutAt st f → Nor.read f 0x120000 8 = [1, 2, 3, 4, 5, 0, 0xFF, 0xFF] := by
  obtain ⟨h, hreach, hfinished⟩ := reach_five_bytes
  have hlocated : Located firstMatch sampleMap ⟨Sample.otaFlash oneEntry, [], 0⟩ :=
    (congrFun (Sample.lookupIn_otaFlash _) _).trans (Sample.lookupIn_table .dataOta)
  exact ⟨_, hreach, fun f hcut => shared_upload perfect_honest Sample.opsLaw Sample.sectorLaw listEngine_law
    (by decide) hlocated hreach hfinished (fun _ _ _ hinside => by cases hinside) hcut⟩

end Espbewi.System
