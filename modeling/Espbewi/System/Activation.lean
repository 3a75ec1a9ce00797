import Espbewi.System.Calls
import Espbewi.System.LayoutAgreement

/-! From the slot that was written to the slot that gets booted. -/

namespace Espbewi.System

open Lib Nor Boot Hw Otadata Bootloader PartitionTable

variable {idf : EspIdf} {fb : Fibewi}

/-! ### The entry that `boot_entry` reports -/

theorem maxBySeq_mem {l : List fb.Entry} {e : fb.Entry} (h : maxBySeq fb l = some e) : e ∈ l := by
  induction l generalizing e with
  | nil => cases h
  | cons a l ih =>
    unfold maxBySeq at h
    cases hm : maxBySeq fb l with
    | none =>
      rw [hm] at h
      cases h
      exact List.mem_cons_self ..
    | some m =>
      rw [hm] at h
      simp only at h
      split at h
      · cases h
        exact List.mem_cons_of_mem _ (ih hm)
      · cases h
        exact List.mem_cons_self ..

theorem maxBySeq_le {l : List fb.Entry} {e : fb.Entry} (he : e ∈ l) :
    ∃ m, maxBySeq fb l = some m ∧ fb.seq e ≤ fb.seq m := by
  induction l with
  | nil => cases he
  | cons a l ih =>
    unfold maxBySeq
    cases hm : maxBySeq fb l with
    | none =>
      rcases List.mem_cons.mp he with rfl | he
      · exact ⟨e, rfl, UInt32.le_refl _⟩
      · obtain ⟨m, hm', -⟩ := ih he
        rw [hm] at hm'
        cases hm'
    | some m =>
      simp only
      split
      · next hle =>
        refine ⟨m, rfl, ?_⟩
        rcases List.mem_cons.mp he with rfl | he
        · exact hle
        · obtain ⟨m', hm', hle'⟩ := ih he
          rw [hm] at hm'
          cases hm'
          exact hle'
      · next hlt =>
        refine ⟨a, rfl, ?_⟩
        rcases List.mem_cons.mp he with rfl | he
        · exact UInt32.le_refl _
        · obtain ⟨m', hm', hle'⟩ := ih he
          rw [hm] at hm'
          cases hm'
          exact UInt32.le_trans hle' (UInt32.le_of_lt (UInt32.not_le.mp hlt))

theorem mem_decoded {entries : Entries} {e : fb.Entry} :
    e ∈ entries.toList.filterMap fb.decode ↔ ∃ sector, fb.entryOf entries sector = some e := by
  simp only [Entries.toList, List.mem_filterMap, List.mem_cons, List.not_mem_nil, or_false]
  constructor
  · rintro ⟨raw, rfl | rfl, h⟩
    · exact ⟨0, h⟩
    · exact ⟨1, h⟩
  · rintro ⟨sector, h⟩
    rw [Fibewi.entryOf] at h
    split at h
    · exact ⟨_, .inl rfl, h⟩
    · exact ⟨_, .inr rfl, h⟩

/-- A written entry newer than every other is the newest. -/
theorem maxBySeq_written (hde : fb.DecodeEncode) {entries : Entries} {write : Write fb.Entry}
    (hnewest : ∀ sector e, fb.entryOf entries sector = some e → fb.seq e < fb.seq write.entry) :
    maxBySeq fb ((Entries.toList (fb.written entries write)).filterMap fb.decode) =
      some write.entry := by
  have hmem : write.entry ∈ (Entries.toList (fb.written entries write)).filterMap fb.decode :=
    mem_decoded.mpr ⟨write.sector, Fibewi.written_same hde⟩
  obtain ⟨m, hm, hle⟩ := maxBySeq_le hmem
  obtain ⟨sector, hsector⟩ := mem_decoded.mp (maxBySeq_mem hm)
  obtain ⟨-, rfl⟩ | ⟨-, hsector⟩ := Fibewi.written_cases hde hsector
  · exact hm
  · exact absurd (hnewest sector m hsector) (UInt32.not_lt.mpr hle)

theorem bootEntry_written (hde : fb.DecodeEncode) {entries : Entries} {write : Write fb.Entry}
    (hnewest : ∀ sector e, fb.entryOf entries sector = some e → fb.seq e < fb.seq write.entry)
    {slot : AppSlot} (hslot : fb.slotOf (fb.seq write.entry) 2 = slotIndex slot) :
    bootEntry fb (fb.written entries write) =
      some ⟨slot.asStr, fb.seq write.entry, stateName fb (fb.state write.entry)⟩ := by
  rw [bootEntry, maxBySeq_written hde hnewest]
  rw [Option.bind_eq_bind, Option.bind_some,
    show fb.slotOf (fb.seq write.entry) Otadata.SLOT_COUNT = slotIndex slot from hslot]
  cases slot <;> rfl

/-! ### The layout -/

theorem app_slotIndex (layout : Layout) (slot : AppSlot) :
    layout.app (slotIndex slot) = pure (partition layout slot) := by
  cases slot <;> rfl

theorem Unambiguous.of_once {table : List UInt8} (h : ∀ kind, Once kind table) :
    Unambiguous table where
  otadata := by rw [(h .dataOta).first_eq_last]
  app slot := (h slot.subtype).first_eq_last

/-- The partition entries the library finds are those of the layout. -/
theorem lookupIn_once (hidf : idf.FirstMatch) {f : Flash}
    (honce : ∀ kind, Once kind (Nor.read f 0x8000 0xC00)) {kind : PartitionType}
    {r : UInt32 × UInt32} (h : last kind (Nor.read f 0x8000 0xC00) = some r) :
    ∃ entry, idf.lookupIn f kind = some entry ∧ entry.offset = r.1 ∧ entry.len = r.2 := by
  have hext := hidf.lookupIn_extent f kind
  rw [(honce kind).first_eq_last, h, Option.map_eq_some_iff] at hext
  obtain ⟨entry, hentry, rfl⟩ := hext
  exact ⟨entry, hentry, rfl, rfl⟩

/-- What follows an upload to `p` and its activation, in the flash `f` it leaves. -/
structure Booted (idf : EspIdf) (fb : Fibewi) (p : AppPartition) (write : Write fb.Entry)
    (layout : Layout) (f : Flash) : Prop where
  reported : ∀ {b : Behaviour} {s : State}, b.Readable → s.flash = f → ∃ entries,
    ((ExceptT.run (readEntries idf fb)).run (norDevice b) s).1 = .ok entries ∧
      bootEntry fb entries = some ⟨p.slot.asStr, fb.seq write.entry, stateName fb (fb.state write.entry)⟩
  accepted : ∀ {b : Behaviour} {other} {s : State}, b.Readable → s.flash = f →
    ((ExceptT.run readLayout).run (romDevice b other) s).1 = .ok layout
  placed : ∃ part, layout.app (fb.slotOf (fb.seq write.entry) 2) = pure part ∧
    part.1 = p.offset ∧ part.2.toNat = p.size

/-- The slot `write_target` hands out is the slot that the bootloader boots once it is
activated, at the place it was written to. -/
theorem written_slot_booted (hidf : idf.FirstMatch) (hl : fb.OpsLaw) (hde : fb.DecodeEncode)
    (hsl : fb.SectorLaw) (hal : fb.ActivateLaw) {b bRom : Behaviour} (hb : b.Honest)
    {other : State → (o : HwOp) → o.Ans} {s s₁ s₂ : State} {layout : Layout}
    (honce : ∀ kind, Once kind (Nor.read s.flash 0x8000 0xC00))
    (hlayout : ((ExceptT.run readLayout).run (romDevice bRom other) s).1 = .ok layout)
    (haligned : layout.otadata.1.toNat % 0x1000 = 0)
    (hapart : layout.otadata.1.toNat + layout.otadata.2.toNat ≤ 0x8000 ∨
      0x8C00 ≤ layout.otadata.1.toNat)
    {p : AppPartition} (htarget : (ExceptT.run (writeTarget idf fb)).run (norDevice b) s = (.ok p, s₁))
    (hactivate : (ExceptT.run (activate idf fb p.slot)).run (norDevice b) s₁ = (.ok (), s₂)) :
    ∃ write, fb.activate (entriesAt fb s.flash layout.otadata.1) 2 (slotIndex p.slot) = some write ∧
      Booted idf fb p write layout s₂.flash := by
  have hlayout := layoutOf_of_readLayout hlayout
  obtain ⟨hota, hlong, -⟩ := layoutOf_ok hlayout
  obtain ⟨ota, hlookup, hoffset, hlen⟩ := lookupIn_once hidf honce hota
  have hp : Placed ota := by
    refine ⟨hoffset ▸ haligned, ?_, ?_⟩
    · rw [hlen]
      exact hlong
    · rw [hoffset, hlen]
      exact hapart
  obtain ⟨hsame, ota', entry, hota', -, hentry, hpoff, hpsize⟩ := writeTarget_ok htarget
  have hlookup₁ : idf.lookupIn s₁.flash .dataOta = some ota := hsame ▸ hlookup
  have hcall : (ExceptT.run ((Call.activate p.slot).exec idf fb)).run (norDevice b) s₁ =
    (.ok (), s₂) := hactivate
  obtain ⟨write, hwrite, hsector, helse, hentries⟩ := call_ok hb hl hsl hp hlookup₁ hcall
  rw [hsame] at hwrite helse hentries
  rw [← hoffset]
  have hclear := hp.clear hsector
  have htable : ∀ a, 0x8000 ≤ a → a < 0x8C00 → s.flash a = s₂.flash a := fun a hlo hhi =>
    (helse a (by omega)).symm
  have hread : Nor.read s₂.flash 0x8000 0xC00 = Nor.read s.flash 0x8000 0xC00 :=
    read_eq_iff.mpr fun i hi => (htable _ (by omega) (by omega)).symm
  have hslot : fb.slotOf (fb.seq write.entry) 2 = slotIndex p.slot := hal.slot hwrite
  refine ⟨write, hwrite, ?_, ?_, ?_⟩
  · rintro b' s' hb' hs'
    refine ⟨_, readEntries_run hb' (p := ota) ?_, ?_⟩
    · rw [hs', ← idf.lookupIn_congr htable]
      exact hlookup
    · rw [hs', hentries]
      exact bootEntry_written hde (fun sector e he => hal.newest hwrite he) hslot
  · rintro b' other' s' hb' hs'
    rw [readLayout_run hb', hs', hread, hlayout]
    rfl
  · refine ⟨partition layout p.slot, ?_, ?_⟩
    · rw [hslot, app_slotIndex]
    · obtain ⟨entry', hentry', hoff', hlen'⟩ :=
        lookupIn_once hidf honce (last_partition hlayout p.slot)
      rw [hentry] at hentry'
      cases hentry'
      rw [hpoff, hpsize, hoff', hlen']
      exact ⟨rfl, rfl⟩

theorem entriesAt_otaFlash {entries : Entries} (h₀ : entries.1.length = 20)
    (h₁ : entries.2.length = 20) :
    entriesAt Sample.fibewi (Sample.otaFlash entries) 0xD000 = entries := by
  have hfirst : Nor.read (Sample.otaFlash entries) 0xD000 20 = entries.1 := by
    rw [← h₀]
    refine read_eq_list fun i hi => ?_
    rw [Sample.otaFlash, if_pos (by omega), Nat.add_sub_cancel_left, List.getD_eq_getElem]
  have hsecond : Nor.read (Sample.otaFlash entries) 0xE000 20 = entries.2 := by
    rw [← h₁]
    refine read_eq_list fun i hi => ?_
    rw [Sample.otaFlash, if_neg (by omega), if_pos (by omega), Nat.add_sub_cancel_left,
      List.getD_eq_getElem]
  exact Prod.ext hfirst hsecond

theorem written_slot_booted_table :
    ∃ (s₁ s₂ : State) (p : AppPartition) (write : Write Sample.fibewi.Entry),
      (ExceptT.run (writeTarget firstMatch Sample.fibewi)).run (norDevice perfect)
        ⟨Sample.otaFlash (Sample.encode ⟨1, Sample.VALID⟩, List.replicate 20 0xFF), [], 0⟩ =
          (.ok p, s₁) ∧
      Booted firstMatch Sample.fibewi p write
        ⟨(0xD000, 0x2000), (0x20000, 0x100000), (0x120000, 0x100000)⟩ s₂.flash := by
  generalize hs : (⟨Sample.otaFlash (Sample.encode ⟨1, Sample.VALID⟩, List.replicate 20 0xFF), [], 0⟩ :
    State) = s
  have hflash : s.flash = Sample.otaFlash (Sample.encode ⟨1, Sample.VALID⟩, List.replicate 20 0xFF) := by
    rw [← hs]
  have hread : Nor.read s.flash 0x8000 0xC00 = Nor.read (Sample.tableFlash Sample.table) 0x8000 0xC00 := by
    rw [hflash, Sample.read_otaFlash]
  have hlookup : firstMatch.lookupIn s.flash = firstMatch.lookupIn (Sample.tableFlash Sample.table) := by
    rw [hflash, Sample.lookupIn_otaFlash]
  have hentries : entriesAt Sample.fibewi s.flash 0xD000 =
      (Sample.encode ⟨1, Sample.VALID⟩, List.replicate 20 0xFF) := by
    rw [hflash, entriesAt_otaFlash (by decide) (by decide)]
  have hota : firstMatch.lookupIn s.flash .dataOta = some ⟨0xD000, 0x2000, ""⟩ := by
    rw [hlookup, Sample.lookupIn_table]
  have hslot : targetSlot Sample.fibewi (entriesAt Sample.fibewi s.flash 0xD000) = some .ota1 := by
    rw [hentries]
    decide
  have hp : Placed ⟨0xD000, 0x2000, ""⟩ := ⟨by decide, by decide, by decide⟩
  have hlayout : ((ExceptT.run readLayout).run (romDevice perfect (steady fun _ _ => none)) s).1 =
      .ok ⟨(0xD000, 0x2000), (0x20000, 0x100000), (0x120000, 0x100000)⟩ := by
    rw [readLayout_run perfect_readable, hread]
    exact congrArg _ layoutOf_table
  have honce : ∀ kind, Once kind (Nor.read s.flash 0x8000 0xC00) := by
    intro kind
    rw [Once, hread, Sample.records_table]
    cases kind <;> decide
  obtain ⟨s₁, hw, hsame⟩ := writeTarget_run perfect_readable hota hslot
    ((congrFun hlookup _).trans (Sample.lookupIn_table _))
  have hcall := Prog.run_of_wp (wp_call_perfect (s := s₁) Sample.opsLaw
    Sample.decodeEncode Sample.sectorLaw hp (hsame ▸ hota) (.activate .ota1))
  have hok : ((ExceptT.run (activate firstMatch Sample.fibewi .ota1)).run (norDevice perfect) s₁).1 =
      .ok () := by
    rcases hcall with hok | ⟨-, hwrap⟩
    · exact hok
    · have := hwrap ⟨1, 2, Sample.NEW⟩ (by rw [hsame, hentries]; decide)
      exact absurd this (by decide)
  obtain ⟨write, -, hbooted⟩ := written_slot_booted firstMatch_firstMatch Sample.opsLaw
    Sample.decodeEncode Sample.sectorLaw Sample.activateLaw perfect_honest honce hlayout
    (by decide) (by decide) hw (Prod.ext hok rfl)
  exact ⟨s₁, _, _, write, hw, hbooted⟩

end Espbewi.System
