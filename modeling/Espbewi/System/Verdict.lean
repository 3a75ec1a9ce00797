import Espbewi.System.Stability

/-! The trial of a new image, and the verdict that ends it. -/

namespace Espbewi.System

open Lib Nor Boot Hw Platform Otadata Bootloader Prog SharedFlash

variable {idf : EspIdf} {fb : Fibewi} {bootable : fb.Entry → Prop} {entries entries' : Entries} {write : Write fb.Entry}
  {sector sector' : UInt8} {e e' : fb.Entry}

/-! ### The entries -/

/-- A valid entry, and a pending one that is no older. -/
structure OnTrial (fb : Fibewi) (entries : Entries) (sector : UInt8) (e : fb.Entry) (sector' : UInt8) (e' : fb.Entry) :
    Prop where
  old : fb.entryOf entries sector = some e
  valid : fb.state e = fb.VALID
  new : fb.entryOf entries sector' = some e'
  pending : fb.state e' = fb.PENDING_VERIFY
  newer : fb.seq e ≤ fb.seq e'

theorem OnTrial.unconfirmed (hstates : fb.VALID ≠ fb.PENDING_VERIFY) (h : OnTrial fb entries sector e sector' e') :
    imageOutcome fb entries ≠ .confirmed := by
  intro hconfirmed
  have hvalid := valid_of_confirmed hconfirmed h.new (.inr h.pending)
  exact hstates (hvalid.symm.trans h.pending)

/-- There are two sectors only. -/
theorem OnTrial.other (hstates : fb.VALID ≠ fb.PENDING_VERIFY) (h : OnTrial fb entries sector e sector' e')
    {sector₁ : UInt8} {e₁ : fb.Entry} (hne : ¬ (sector = 0 ↔ sector₁ = 0))
    (he : fb.entryOf entries sector₁ = some e₁) : e₁ = e' :=
  entry_unique (same_sector (pending_elsewhere hstates h.old h.valid h.new h.pending) hne) h.new he

/-- Once it is confirmed, the pending entry is the newest one. -/
theorem OnTrial.confirmed (h : OnTrial fb entries sector e sector' e') (hne : ¬ (sector = 0 ↔ write.sector = 0))
    (hold : fb.entryOf entries' sector = some e) (hnew : fb.entryOf entries' write.sector = some write.entry)
    (hvalid : fb.state write.entry = fb.VALID) (hseq : fb.seq write.entry = fb.seq e') :
    Newest fb bootable entries' write.sector write.entry where
  entry := hnew
  valid := hvalid
  newest sector₁ e₁ he₁ _ := by
    by_cases heq : sector = 0 ↔ sector₁ = 0
    · cases entry_unique heq hold he₁
      exact hseq ▸ h.newer
    · cases entry_unique (same_sector hne heq) hnew he₁
      exact UInt32.le_refl _

theorem OnTrial.confirm (bootable : fb.Entry → Prop) (hde : fb.DecodeEncode) (htl : fb.TransitionLaw)
    (hstates : fb.VALID ≠ fb.PENDING_VERIFY) (h : OnTrial fb entries sector e sector' e')
    (hw : fb.confirm entries = some write) :
    Newest fb bootable (fb.written entries write) write.sector write.entry ∧ fb.seq write.entry = fb.seq e' := by
  obtain ⟨e'', he'', hpending, hseq, hvalid⟩ := htl.confirm hw
  have hne := pending_elsewhere hstates h.old h.valid he'' hpending
  rw [h.other hstates hne he''] at hseq
  exact ⟨h.confirmed hne ((Fibewi.written_other hde hne).trans h.old) (Fibewi.written_same hde) hvalid hseq, hseq⟩

/-- Once it is rejected, the valid entry is the newest one. -/
theorem OnTrial.rejected (h : OnTrial fb entries sector e sector' e') (hne : ¬ (sector = 0 ↔ write.sector = 0))
    (hold : fb.entryOf entries' sector = some e) (hnew : fb.entryOf entries' write.sector = some write.entry)
    (hdead : ¬ fb.Live bootable write.entry) : Newest fb bootable entries' sector e where
  entry := hold
  valid := h.valid
  newest sector₁ e₁ he₁ hlive := by
    by_cases heq : sector = 0 ↔ sector₁ = 0
    · cases entry_unique heq hold he₁
      exact UInt32.le_refl _
    · cases entry_unique (same_sector hne heq) hnew he₁
      exact absurd hlive hdead

theorem OnTrial.reject (hde : fb.DecodeEncode) (htl : fb.TransitionLaw) (hrl : fb.RevivalLaw bootable)
    (hstates : fb.VALID ≠ fb.PENDING_VERIFY) (h : OnTrial fb entries sector e sector' e')
    (hw : fb.reject entries = some write) : Newest fb bootable (fb.written entries write) sector e := by
  obtain ⟨e'', he'', hpending, hstopped⟩ := htl.reject hw
  have hne := pending_elsewhere hstates h.old h.valid he'' hpending
  exact h.rejected hne ((Fibewi.written_other hde hne).trans h.old) (Fibewi.written_same hde)
    (not_or.mpr ⟨hrl.rejected hw, hstopped⟩)

/-! ### The flash -/

variable {H : Sha256} {g : Geometry} {w : Nat} {E : Engine} {M : FlashMap}
  {judge : Flash → UInt32 → UInt32 → Option Image} {layout : Layout} {b : Behaviour} {s s' : State} {f f' : Flash}
  {x y : AppSlot} {old new : Image}

/-- The new image in slot `y` is on trial, and slot `x` holds the image that was confirmed before. -/
structure Trial (idf : EspIdf) (fb : Fibewi) (M : FlashMap) (judge : Flash → UInt32 → UInt32 → Option Image)
    (layout : Layout) (x y : AppSlot) (old new : Image) (f : Flash) : Prop extends Charted idf fb M layout f where
  entries : ∃ sector e sector' e', OnTrial fb (entriesAt fb f M.ota.offset) sector e sector' e' ∧
    fb.slotOf (fb.seq e) 2 = slotIndex x ∧ fb.slotOf (fb.seq e') 2 = slotIndex y
  old : judge f (partition layout x).1 (partition layout x).2 = some old
  new : judge f (partition layout y).1 (partition layout y).2 = some new

/-- A call that ends the trial. -/
inductive Verdict : Bool → Served idf fb H g w E M → Prop
  | confirm {before after : State} : Verdict true ⟨.confirm, .ok (), before, after⟩
  | reject {before after : State} : Verdict false ⟨.reject, .ok (), before, after⟩

/-- Nothing is uploaded during the trial. -/
theorem Trial.not_writes (hstates : fb.VALID ≠ fb.PENDING_VERIFY) (h : Trial idf fb M judge layout x y old new f)
    {c : Request E M} (hprudent : Prudent fb f c) {z : AppSlot} : ¬ Request.Writes z c := by
  obtain ⟨sector, e, sector', e', htrial, -⟩ := h.entries
  exact fun hwrites => htrial.unconfirmed hstates (hprudent.of_writes hwrites).1

section Steps

variable (hl : fb.OpsLaw) (hsl : fb.SectorLaw) (hj : Judged judge) (hsame : SameSlots layout M)
  (hstates : fb.VALID ≠ fb.PENDING_VERIFY)

include hl hsl hj hsame hstates

theorem Trial.request (h : Trial idf fb M judge layout x y old new f) {c : Request E M}
    (hc : c.call? = none ∧ Prudent fb f c) (hcut : RequestCut fb c f f') :
    Trial idf fb M judge layout x y old new f' := by
  have hframe := hcut.frame hc.1
  have hslots : ∀ z, judge f' (partition layout z).1 (partition layout z).2 =
      judge f (partition layout z).1 (partition layout z).2 := fun z =>
    judge_frame hj hsame hframe (region_other (h.not_writes hstates hc.2))
  refine ⟨h.toCharted.request hl hsl hcut, ?_, (hslots x).trans h.old, (hslots y).trans h.new⟩
  rw [entriesAt_frame hl (region_ota hc.1) hframe]
  exact h.entries

/-- The verdict settles which image it is. -/
theorem Trial.verdict (hdw : fb.DecodeWorn) (hde : fb.DecodeEncode) (htl : fb.TransitionLaw)
    (hrl : fb.RevivalLaw bootable) (hb : b.Honest) {ev : Served idf fb H g w E M} {kept : Bool}
    (hverdict : Verdict kept ev) (h : Trial idf fb M judge layout x y old new ev.before.flash)
    (hserves : (service idf fb H g w E M).Serves (Service.ofDevice (norDevice b)).bound ev) :
    Settled idf fb bootable M judge layout (if kept then y else x) (if kept then new else old) ev.after.flash := by
  have hcharted : Charted idf fb M layout ev.after.flash :=
    serves_invariant (P := fun _ _ => True) hl hdw hsl (fun _ h => h) (fun _ _ _ h _ hcut => h.request hl hsl hcut) hb
      h.toCharted (fun _ => trivial) hserves
  obtain ⟨sector, e, sector', e', htrial, hx, hy⟩ := h.entries
  cases hverdict with
  | @confirm before after =>
    have hrun : (ExceptT.run (Call.exec idf fb .confirm)).run (norDevice b) before = (.ok (), after) := hserves.run rfl
    obtain ⟨write, hw, hsector, helse, hentries⟩ := call_ok hb hl hsl M.placed h.sound.app hrun
    obtain ⟨hnewest, hseq⟩ := htrial.confirm bootable hde htl hstates hw
    refine ⟨hcharted, ⟨write.sector, write.entry, hentries ▸ hnewest, hseq ▸ hy⟩, ?_⟩
    exact (judge_frame hj hsame (Elsewhere.frame hsector helse) (ota_slot y)).trans h.new
  | @reject before after =>
    have hrun : (ExceptT.run (Call.exec idf fb .reject)).run (norDevice b) before = (.ok (), after) := hserves.run rfl
    obtain ⟨write, hw, hsector, helse, hentries⟩ := call_ok hb hl hsl M.placed h.sound.app hrun
    refine ⟨hcharted, ⟨sector, e, hentries ▸ htrial.reject hde htl hrl hstates hw, hx⟩, ?_⟩
    exact (judge_frame hj hsame (Elsewhere.frame hsector helse) (ota_slot x)).trans h.old

end Steps

/-- The verdict on a new image is final. Once `confirm` or `reject` has returned `Ok`, the new image or the one
before it is what every boot without faults jumps to, until something is activated: after any interleaving of
tasks, any further sessions and boots, each cut anywhere, and commands that may fail. -/
theorem verdict_stays (hl : fb.OpsLaw) (hde : fb.DecodeEncode) (hdw : fb.DecodeWorn) (hsl : fb.SectorLaw)
    (hslot : fb.SlotLaw) (hwl : fb.WordLaw) (htl : fb.TransitionLaw) (hpl : fb.SparingLaw) (hplan : fb.PlanLaw bootable)
    (hrl : fb.RevivalLaw bootable) (hstates : fb.VALID ≠ fb.PENDING_VERIFY) (hj : Judged judge)
    (hsame : SameSlots layout M) (hend : M.ota.offset.toNat + 0x2000 < 2 ^ 32) (hb : b.Honest) {s₀ : State}
    (h₀ : Trial idf fb M judge layout x y old new s₀.flash) {ι : Type} [DecidableEq ι]
    {st : (service idf fb H g w E M).State ι State State}
    (hreach : Service.Reach _ (Service.ofDevice (norDevice b)) s₀ st) {before after : List (Served idf fb H g w E M)}
    {ev : Served idf fb H g w E M} {kept : Bool} (hhistory : st.history = before ++ ev :: after)
    (hverdict : Verdict kept ev)
    (hbefore : ∀ ev ∈ before, early E M ev.call = none → ev.call.call? = none ∧ Prudent fb ev.before.flash ev.call)
    (hafter : ∀ ev ∈ after, early E M ev.call = none → Routine fb ev.before.flash ev.call)
    (hinside : ∀ i c p, st.task i = .inside c p → Routine fb st.settled.flash c) (hcut : CutAt st f)
    (hrun : Relation.ReflTransGen (Lived idf fb H g w E M judge (Routine fb)) f s.flash) {map : MemoryMap}
    {other : State → (o : HwOp) → o.Ans} (hhealthy : Healthy judge map other) :
    ∃ s', (ExceptT.run (boot fb map)).run (romDevice perfect other) s =
      (.ok (if kept then new else old).entry, s') := by
  have hroutine : ∀ {z image} f f' (c : Request E M), Settled idf fb bootable M judge layout z image f →
      Routine fb f c → RequestCut fb c f f' → Settled idf fb bootable M judge layout z image f' :=
    fun _ _ _ h hc hcut => h.request hl hsl hj hsame htl hrl hstates hc hcut
  have hserial := (Service.serializable (fun c r => by trivial) hreach).1
  rw [hhistory] at hserial
  obtain ⟨u, hfirst, hrest⟩ := hserial.split
  obtain ⟨rfl, hserves, hlater⟩ := hrest.first
  have htrial : Trial idf fb M judge layout x y old new ev.before.flash :=
    serial_invariant hl hdw hsl (fun _ h => h.toCharted)
      (fun _ _ _ h hc hcut => h.request hl hsl hj hsame hstates hc hcut) hb h₀ hfirst hbefore
  have hverdict : Settled idf fb bootable M judge layout _ _ ev.after.flash :=
    htrial.verdict hl hsl hj hsame hstates hdw hde htl hrl hb hverdict hserves
  have hsettled := serial_invariant hl hdw hsl (fun _ h => h.toCharted) hroutine hb hverdict hlater hafter
  have hcutoff := cut_invariant hl hdw hsl hroutine hb h₀.sound hreach hsettled hinside hcut
  refine (lived_invariant hl hdw hsl hslot (fun _ h => h.toCharted) hroutine ?_ hcutoff hrun).boots
    hl hde hdw hsl hslot hwl hpl hplan hrl hj hsame hend hhealthy
  exact fun _ _ h hcut => h.boot hl hsl hj hsame hpl hrl hcut

/-! ### A rejected image -/

/-- Slot 0 was confirmed, and slot 1 is on trial. -/
def trialEntries : Entries := (Sample.encode ⟨1, Sample.VALID⟩, Sample.encode ⟨2, Sample.PENDING_VERIFY⟩)

def eachSlot (offset _size : UInt32) : Option Image :=
  if offset = 0x20000 then some ⟨0x40380000, []⟩ else some ⟨0x40390000, []⟩

theorem judged_eachSlot : Judged fun _ => eachSlot where
  here _ := rfl
  fits {f offset size image} h := by
    unfold eachSlot at h
    split at h
    · cases h
      exact fun _ hmem => absurd hmem List.not_mem_nil
    · cases h
      exact fun _ hmem => absurd hmem List.not_mem_nil

theorem trial_trialEntries : Trial firstMatch Sample.fibewi sampleMap (fun _ => eachSlot) sampleLayout .ota0 .ota1
    ⟨0x40380000, []⟩ ⟨0x40390000, []⟩ (Sample.otaFlash trialEntries) where
  sound := sound_otaFlash (by decide) (by decide) (.inr ⟨⟨1, Sample.VALID⟩, forall₂_within_refl _⟩)
    (.inr ⟨⟨2, Sample.PENDING_VERIFY⟩, forall₂_within_refl _⟩)
  table := table_otaFlash trialEntries
  entries := by
    rw [show entriesAt Sample.fibewi (Sample.otaFlash trialEntries) sampleMap.ota.offset = trialEntries from
      entriesAt_otaFlash (by decide) (by decide)]
    exact ⟨0, ⟨1, Sample.VALID⟩, 1, ⟨2, Sample.PENDING_VERIFY⟩, ⟨by decide, rfl, by decide, rfl, by decide⟩, by decide,
      by decide⟩
  old := rfl
  new := rfl

def sampleReject : Except Otadata.Error Unit × State :=
  (ExceptT.run (Otadata.reject firstMatch Sample.fibewi)).run (norDevice perfect) ⟨Sample.otaFlash trialEntries, [], 0⟩

/-- The image in slot 1 was rejected. -/
theorem verdict_stays_rejected : ∃ s', (ExceptT.run (boot Sample.fibewi esp32c3)).run
    (romDevice perfect (steady eachSlot)) sampleReject.2 = (.ok 0x40380000, s') := by
  obtain ⟨s₀, hflash, hreach⟩ : ∃ s₀ : State, s₀.flash = Sample.otaFlash trialEntries ∧
      Service.Reach sampleService (Service.ofDevice (norDevice perfect)) s₀
        ⟨sampleReject.2, none, fun _ : Nat => .idle, sampleReject.2,
          [] ++ [⟨.reject, .ok (), s₀, sampleReject.2⟩]⟩ := by
    have hok : sampleReject.1 = .ok () := by decide +kernel
    exact ⟨_, rfl, hok ▸ reach_call .reject rfl (r := sampleReject) rfl⟩
  generalize sampleReject.2 = s at hreach ⊢
  exact verdict_stays Sample.opsLaw Sample.decodeEncode (fun _ _ _ _ => Sample.decodeWorn) Sample.sectorLaw
    Sample.slotLaw Sample.wordLaw Sample.transitionLaw Sample.sparingLaw Sample.planLaw Sample.revivalLaw
    (by decide) judged_eachSlot sameSlots_sample (by decide) perfect_honest (hflash ▸ trial_trialEntries) hreach rfl
    .reject (fun _ hmem => absurd hmem List.not_mem_nil) (fun _ hmem => absurd hmem List.not_mem_nil)
    (fun _ _ _ h => by cases h) (cutAt_idle s _) .refl (healthy_steady eachSlot)

end Espbewi.System
