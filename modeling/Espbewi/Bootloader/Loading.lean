import Espbewi.Bootloader.Traces

/-! What `load` leaves in RAM and in the flash MMU. -/

namespace Espbewi.Bootloader

open Lib Nor Boot Hw Platform Prog

/-! ### RAM after a trace -/

/-- RAM by address. -/
abbrev Ram := Nat → UInt8

namespace Ram

def copy (ram : Ram) (dst : Nat) (bytes : List UInt8) : Ram :=
  fun a => if dst ≤ a ∧ a < dst + bytes.length then bytes.getD (a - dst) 0 else ram a

/-- The copies are the only calls that write to RAM. -/
def step (ram : Ram) : Event HwOp HwOp.Ans → Ram
  | ⟨.copyNonoverlapping dst bytes, _⟩ => copy ram dst.toNat bytes
  | _ => ram

def after (ram : Ram) (tr : Trace) : Ram := tr.foldl step ram

@[simp] theorem after_nil (ram : Ram) : after ram [] = ram := rfl

@[simp] theorem after_append (ram : Ram) (tr tr' : Trace) :
    after ram (tr ++ tr') = after (after ram tr) tr' := List.foldl_append

theorem after_of_among (kinds : List Kind) (hcopy : .copy ∉ kinds) {ram : Ram} {tr : Trace}
    (h : ∀ ev ∈ tr, Among kinds ev.1) : after ram tr = ram := by
  induction tr with
  | nil => rfl
  | cons ev tr ih =>
    have hstep : step ram ev = ram := by
      have hev := h ev (.head _)
      obtain ⟨o, r⟩ := ev
      cases o with
      | copyNonoverlapping dst bytes => exact absurd hev hcopy
      | _ => rfl
    rw [after, List.foldl_cons, hstep]
    exact ih fun ev' hev' => h ev' (.tail _ hev')

end Ram

/-! ### Reading what the flash holds -/

/-- Every ROM read that succeeds answers with the content `f`. -/
def Faithful (f : Flash) (tr : Trace) : Prop :=
  ∀ src n window, (⟨.spiflashRead src n, some window⟩ : Event HwOp HwOp.Ans) ∈ tr →
    ∀ i, window i = f (src.toNat + i)

theorem Faithful.mono {f : Flash} {tr tr' : Trace} (h : Faithful f tr') (hsub : tr ⊆ tr') : Faithful f tr :=
  fun src n window hmem => h src n window (hsub hmem)

variable {fb : Fibewi} {map : MemoryMap} {f : Flash}

theorem runs_readLoop_faithful {offset : UInt32} {len done : Nat} {out out' : List UInt8} {tr : Trace}
    (hlen : offset.toNat + len ≤ 2 ^ 32) (hout : out.length = len) (hdone : done ≤ len)
    (hread : out.take done = Nor.read f offset.toNat done) (hf : Faithful f tr)
    (h : Runs (readLoop offset len done out) tr (.ok (), out')) : out' = Nor.read f offset.toNat len := by
  induction hn : len - done using Nat.strongRecOn generalizing done out tr with
  | ind n ih =>
    unfold readLoop at h
    split at h
    · next hlt =>
      have hpos := toNat_add_ofNat (x := offset) (n := done) (by omega)
      obtain ⟨tr₁, tr₂, window, rfl, hop, hrest⟩ := runs_bind.mp h
      cases runs_op.mp hop
      cases window with
      | none =>
        obtain ⟨-, he⟩ := runs_ret.mp hrest
        cases he
      | some window =>
        have hwindow : window = fun i => f ((offset + UInt32.ofNat done &&& ~~~3).toNat + i.1) :=
          funext (hf _ _ window (.head _))
        simp only at hrest
        rw [hwindow, window_slice (Nat.min_le_right ..), hpos] at hrest
        have hlen' := read_length f (offset.toNat + done) (min (len - done) 252)
        refine ih (len - (done + min (len - done) 252)) (by omega) ?_ (by omega) ?_
          (hf.mono (List.subset_append_right ..)) hrest rfl
        · rw [copyInto_length (by rw [hlen']; omega), hout]
        · nth_rewrite 1 [← hlen']
          rw [copyInto_take (by omega), hread, read_append]
    · obtain ⟨-, he⟩ := runs_ret.mp h
      cases he
      have : done = len := by omega
      subst this
      rwa [List.take_of_length_le (by omega)] at hread

theorem runs_flashRead_faithful {offset : UInt32} {len : Nat} {tr : Trace} {bytes : List UInt8}
    (hlen : offset.toNat + len ≤ 2 ^ 32) (hf : Faithful f tr)
    (h : Runs (ExceptT.run (flashRead offset len)) tr (.ok bytes)) :
    bytes = Nor.read f offset.toNat len := by
  obtain ⟨r, h, hr⟩ := runs_adapt h
  cases r with
  | error e => cases hr
  | ok bytes' =>
    cases hr
    unfold Hw.flashRead flashReadInto at h
    rw [ExceptT.run_mk] at h
    obtain ⟨tr₁, tr₂, ⟨r, out⟩, rfl, hloop, h⟩ := runs_bind.mp h
    rw [List.length_replicate] at hloop
    cases r with
    | error e =>
      obtain ⟨-, he⟩ := runs_ret.mp h
      cases he
    | ok u =>
      obtain ⟨rfl, he⟩ := runs_ret.mp h
      cases he
      exact runs_readLoop_faithful hlen (by simp) (Nat.zero_le _) (by simp)
        (hf.mono (List.subset_append_left ..)) hloop

/-! ### The copy loop -/

/-- RAM with the segment in its place, from byte `copied` on. -/
def placed (f : Flash) (seg : Segment) (target : UInt32) (copied : Nat) (ram : Ram) : Ram :=
  fun a => if target.toNat + copied ≤ a ∧ a < target.toNat + seg.len.toNat
    then f (seg.dataOffset.toNat + (a - target.toNat)) else ram a

/-- A RAM segment runs past the end neither of the flash nor of the address space. -/
structure Fits (seg : Segment) (target : UInt32) : Prop where
  flash : seg.dataOffset.toNat + seg.len.toNat ≤ 2 ^ 32
  ram : target.toNat + seg.len.toNat ≤ 2 ^ 32

theorem copy_chunk {ram : Ram} {seg : Segment} {target : UInt32} {copied n : Nat} :
    Ram.copy ram (target.toNat + copied) (Nor.read f (seg.dataOffset.toNat + copied) n) =
      fun a => if target.toNat + copied ≤ a ∧ a < target.toNat + (copied + n)
        then f (seg.dataOffset.toNat + (a - target.toNat)) else ram a := by
  funext a
  simp only [Ram.copy, read_length]
  by_cases ha : target.toNat + copied ≤ a ∧ a < target.toNat + copied + n
  · rw [if_pos ha, if_pos (by omega), List.getD_eq_getElem _ _ (by rw [read_length]; omega), read_getElem]
    congr 1
    omega
  · rw [if_neg ha, if_neg (by omega)]

theorem runs_copyLoop_after {seg : Segment} {target : UInt32} (hfits : Fits seg target) {ram : Ram}
    {copied : Nat} {tr : Trace} {u : Unit} (hf : Faithful f tr) (hcopied : copied ≤ seg.len.toNat)
    (h : Runs (ExceptT.run (copyLoop seg target copied)) tr (.ok u)) :
    Ram.after ram tr = placed f seg target copied ram := by
  induction hn : seg.len.toNat - copied using Nat.strongRecOn generalizing copied tr ram with
  | ind _ ih =>
    have hflash := hfits.flash
    have hram := hfits.ram
    unfold copyLoop at h
    split at h
    · next hlt =>
      obtain ⟨tr₁, tr₂, bytes, rfl, hread, h⟩ := runs_try_ok h
      obtain ⟨tr₃, tr₄, _, rfl, hcopy, h⟩ := runs_try_ok h
      obtain ⟨_, hcopy, -⟩ := runs_lift hcopy
      rw [runs_op.mp hcopy]
      have hbytes := runs_flashRead_faithful (by rw [toNat_add_ofNat (by omega)]; omega)
        (hf.mono (List.subset_append_left ..)) hread
      rw [toNat_add_ofNat (by omega)] at hbytes
      have hlook : Ram.after ram tr₁ = ram :=
        Ram.after_of_among [.look] (by decide) ((only_flashRead ..).runs hread)
      have hrest : Ram.after (Ram.copy ram (target.toNat + copied) bytes) tr₄ = _ :=
        ih (seg.len.toNat - (copied + min (seg.len.toNat - copied) 256)) (by omega)
          (hf.mono fun ev hev => by simp [hev]) (by omega) h rfl
      rw [Ram.after_append, hlook, Ram.after_append]
      change Ram.after (Ram.copy ram (target + UInt32.ofNat copied).toNat bytes) tr₄ = _
      rw [toNat_add_ofNat (by omega), hrest, hbytes, copy_chunk]
      funext a
      simp only [placed]
      by_cases ha : target.toNat + (copied + min (seg.len.toNat - copied) 256) ≤ a ∧
          a < target.toNat + seg.len.toNat
      · rw [if_pos ha, if_pos (by omega)]
      · rw [if_neg ha]
        split
        · rw [if_pos (by omega)]
        · rw [if_neg (by omega)]
    · next hge =>
      obtain ⟨rfl, -⟩ := runs_ret.mp h
      funext a
      rw [Ram.after_nil, placed, if_neg (by omega)]

/-- The address ranges of two segments have no byte in common. -/
def Apart (start : UInt32) (len : UInt32) (start' : UInt32) (len' : UInt32) : Prop :=
  start.toNat + len.toNat ≤ start'.toNat ∨ start'.toNat + len'.toNat ≤ start.toNat

/-- The address is in the target range of one of the segments. -/
def Targeted (fb : Fibewi) (map : MemoryMap) (segs : List Segment) (a : Nat) : Prop :=
  ∃ seg ∈ segs, ∃ target, fb.ramTarget seg map = some target ∧
    target.toNat ≤ a ∧ a < target.toNat + seg.len.toNat

/-- The RAM targets of the segments, each in the address space and no two overlapping. -/
structure Targets (fb : Fibewi) (map : MemoryMap) (segs : List Segment) : Prop where
  fits : ∀ seg ∈ segs, ∀ target, fb.ramTarget seg map = some target → Fits seg target
  apart : segs.Pairwise fun seg seg' => ∀ target target', fb.ramTarget seg map = some target →
    fb.ramTarget seg' map = some target' → Apart target seg.len target' seg'.len

theorem Targets.tail {seg : Segment} {segs : List Segment} (h : Targets fb map (seg :: segs)) :
    Targets fb map segs :=
  ⟨fun s hs => h.fits s (.tail _ hs), h.apart.tail⟩

theorem runs_copySegments_cons (ram : Ram) {seg : Segment} {segs : List Segment} {tr : Trace} {u : Unit}
    (htargets : Targets fb map (seg :: segs)) (hf : Faithful f tr)
    (h : Runs (ExceptT.run (copySegments fb map (seg :: segs))) tr (.ok u)) :
    ∃ tr₁ tr₂, tr = tr₁ ++ tr₂ ∧ Runs (ExceptT.run (copySegments fb map segs)) tr₂ (.ok u) ∧
      Ram.after ram tr₁ = match fb.ramTarget seg map with
        | some target => placed f seg target 0 ram
        | none => ram := by
  unfold copySegments at h
  cases htarget : fb.ramTarget seg map with
  | some target =>
    rw [htarget] at h
    obtain ⟨tr₁, tr₂, _, rfl, hcopy, h⟩ := runs_try_ok h
    exact ⟨tr₁, tr₂, rfl, h, runs_copyLoop_after (htargets.fits seg (.head _) target htarget)
      (hf.mono (List.subset_append_left ..)) (Nat.zero_le _) hcopy⟩
  | none =>
    rw [htarget] at h
    exact ⟨[], tr, rfl, h, rfl⟩

/-- Nothing outside the targets changes. -/
theorem runs_copySegments_frame {ram : Ram} {segs : List Segment} {tr : Trace} {u : Unit}
    (htargets : Targets fb map segs) (hf : Faithful f tr)
    (h : Runs (ExceptT.run (copySegments fb map segs)) tr (.ok u)) {a : Nat}
    (ha : ¬ Targeted fb map segs a) : Ram.after ram tr a = ram a := by
  induction segs generalizing tr ram with
  | nil =>
    obtain ⟨rfl, -⟩ := runs_ret.mp h
    rfl
  | cons seg rest ih =>
    obtain ⟨tr₁, tr₂, rfl, hrest, hseg⟩ := runs_copySegments_cons ram htargets hf h
    rw [Ram.after_append, ih htargets.tail (hf.mono (List.subset_append_right ..)) hrest fun ht =>
      ha <| ht.imp fun s hs => hs.imp_left (.tail _), hseg]
    split
    · next target htarget =>
      rw [placed, if_neg]
      exact fun hin => ha ⟨seg, .head _, target, htarget, by omega⟩
    · rfl

/-- Every byte of a RAM segment is where its target says. -/
theorem runs_copySegments_placed {ram : Ram} {segs : List Segment} {tr : Trace} {u : Unit}
    (htargets : Targets fb map segs) (hf : Faithful f tr)
    (h : Runs (ExceptT.run (copySegments fb map segs)) tr (.ok u)) {seg : Segment} (hseg : seg ∈ segs)
    {target : UInt32} (htarget : fb.ramTarget seg map = some target) {i : Nat} (hi : i < seg.len.toNat) :
    Ram.after ram tr (target.toNat + i) = f (seg.dataOffset.toNat + i) := by
  induction segs generalizing tr ram with
  | nil => cases hseg
  | cons s rest ih =>
    obtain ⟨tr₁, tr₂, rfl, hrest, hs⟩ := runs_copySegments_cons ram htargets hf h
    have hf₂ : Faithful f tr₂ := hf.mono (List.subset_append_right ..)
    rw [Ram.after_append]
    rcases List.mem_cons.mp hseg with rfl | hseg
    · rw [runs_copySegments_frame htargets.tail hf₂ hrest, hs, htarget]
      · simp only [placed]
        rw [if_pos (by omega), Nat.add_sub_cancel_left]
      · rintro ⟨s', hs', target', htarget', hlo, hhi⟩
        have := (List.pairwise_cons.mp htargets.apart).1 s' hs' target target' htarget htarget'
        unfold Apart at this
        omega
    · exact ih htargets.tail hf₂ hrest hseg

/-! ### The flash MMU -/

/-- The MMU as the ROM calls drive it. A virtual page is translated by entry `entry page` of the
table; the two buses may share entries. -/
structure Mmu where
  State : Type
  step : State → Event HwOp HwOp.Ans → State
  entry : Nat → Nat
  table : State → Nat → Option Nat

/-- Pages of 64 KiB, the `psize` of the ROM calls. -/
def PAGE : Nat := 0x10000

namespace Mmu

variable {mmu : Mmu}

def after (mmu : Mmu) (s : mmu.State) (tr : Trace) : mmu.State := tr.foldl mmu.step s

@[simp] theorem after_nil (s : mmu.State) : mmu.after s [] = s := rfl

@[simp] theorem after_append (s : mmu.State) (tr tr' : Trace) :
    mmu.after s (tr ++ tr') = mmu.after (mmu.after s tr) tr' := List.foldl_append

/-- The flash address behind a virtual address. -/
def translate (mmu : Mmu) (s : mmu.State) (vaddr : Nat) : Option Nat :=
  (mmu.table s (mmu.entry (vaddr / PAGE))).map fun page => page * PAGE + vaddr % PAGE

/-- The `num` pages from `vaddr` on are mapped to the pages from `paddr` on, and no other entry
has changed. -/
structure Sets (mmu : Mmu) (s s' : mmu.State) (vaddr paddr num : Nat) : Prop where
  hit : ∀ i < num, mmu.table s' (mmu.entry (vaddr / PAGE + i)) = some (paddr / PAGE + i)
  miss : ∀ e, (∀ i < num, mmu.entry (vaddr / PAGE + i) ≠ e) → mmu.table s' e = mmu.table s e

/-- Pages of one bus have entries of their own. -/
def Injective (mmu : Mmu) (r : Range) : Prop :=
  ∀ page page', r.start.toNat / PAGE ≤ page → page < r.stop.toNat / PAGE → r.start.toNat / PAGE ≤ page' →
    page' < r.stop.toNat / PAGE → mmu.entry page = mmu.entry page' → page = page'

/-- What the ROM documents: `Cache_MMU_Init` invalidates the table; a set that answers 0 has
mapped its pages, if they lie on the bus; the calls after the sets leave the table alone. -/
structure Law (mmu : Mmu) (map : MemoryMap) : Prop where
  drom : mmu.Injective map.drom
  irom : mmu.Injective map.irom
  init : ∀ s r e, mmu.table (mmu.step s ⟨.cacheBegin, r⟩) e = none
  dbus : ∀ s vaddr paddr num, map.drom.start.toNat ≤ vaddr.toNat →
    vaddr.toNat / PAGE + num.toNat ≤ map.drom.stop.toNat / PAGE →
    mmu.Sets s (mmu.step s ⟨.dbusMmuSet vaddr paddr num, (0 : Int32)⟩) vaddr.toNat paddr.toNat num.toNat
  ibus : ∀ s vaddr paddr num, map.irom.start.toNat ≤ vaddr.toNat →
    vaddr.toNat / PAGE + num.toNat ≤ map.irom.stop.toNat / PAGE →
    mmu.Sets s (mmu.step s ⟨.ibusMmuSet vaddr paddr num, (0 : Int32)⟩) vaddr.toNat paddr.toNat num.toNat
  finish : ∀ s autoload r, mmu.table (mmu.step s ⟨.cacheFinish autoload, r⟩) = mmu.table s
  delay : ∀ s us r, mmu.table (mmu.step s ⟨.delayUs us, r⟩) = mmu.table s

end Mmu

/-- The pages and buses of a chip. -/
structure Buses (map : MemoryMap) : Prop where
  page : map.mmuPage = 0x10000
  dromStart : map.drom.start.toNat % PAGE = 0
  dromStop : map.drom.stop.toNat % PAGE = 0
  iromStart : map.irom.start.toNat % PAGE = 0
  iromStop : map.irom.stop.toNat % PAGE = 0
  buses : map.drom.stop ≤ map.irom.start

theorem buses_of_chip (h : map = esp32c3 ∨ map = esp32s3) : Buses map := by
  rcases h with rfl | rfl <;> constructor <;> decide

/-- A flash-mapped segment lies on its bus, at the same place in its first page as in flash. -/
structure OnBus (map : MemoryMap) (seg : Segment) : Prop where
  bus : (map.drom.start.toNat ≤ seg.load.toNat ∧ seg.load.toNat + seg.len.toNat ≤ map.drom.stop.toNat) ∨
    (map.irom.start.toNat ≤ seg.load.toNat ∧ seg.load.toNat + seg.len.toNat ≤ map.irom.stop.toNat)
  congruent : seg.load.toNat % map.mmuPage.toNat = seg.dataOffset.toNat % map.mmuPage.toNat

def Touches (seg : Segment) (page : Nat) : Prop :=
  ∃ i < seg.len.toNat, (seg.load.toNat + i) / PAGE = page

theorem land_not_page (x : UInt32) : (x &&& ~~~(0x10000 - 1)).toNat = x.toNat / PAGE * PAGE := by
  rw [UInt32.toNat_and, show (~~~(0x10000 - 1) : UInt32).toNat = (2 ^ 16 - 1) <<< 16 by decide]
  exact land_high_bits x.toNat_lt

theorem divCeil_page (x : UInt32) : (divCeil x 0x10000).toNat = (x.toNat + 0xFFFF) / PAGE := by
  have hx := x.toNat_lt
  have hmod : (0 < x % 0x10000) ↔ 0 < x.toNat % 0x10000 := by
    rw [UInt32.lt_iff_toNat_lt, UInt32.toNat_mod]
    rfl
  rw [divCeil, UInt32.toNat_add, UInt32.toNat_div, show (0x10000 : UInt32).toNat = PAGE from rfl]
  unfold PAGE
  simp only [gt_iff_lt, hmod]
  split
  · rw [show (1 : UInt32).toNat = 1 from rfl]
    omega
  · rw [show (0 : UInt32).toNat = 0 from rfl]
    omega

/-- The pages that are mapped are the pages that the segment touches. -/
theorem mmuPages_spec (hpage : map.mmuPage = 0x10000) {seg : Segment} (hlen : 0 < seg.len.toNat)
    (hfits : seg.load.toNat + seg.len.toNat < 2 ^ 32) {vaddr paddr pages : UInt32}
    (h : mmuPages map seg = (vaddr, paddr, pages)) :
    vaddr.toNat = seg.load.toNat / PAGE * PAGE ∧ paddr.toNat / PAGE = seg.dataOffset.toNat / PAGE ∧
      ∀ page, Touches seg page ↔ seg.load.toNat / PAGE ≤ page ∧ page < seg.load.toNat / PAGE + pages.toNat := by
  have hload := land_not_page seg.load
  have hoffset := land_not_page seg.dataOffset
  unfold mmuPages at h
  rw [hpage] at h
  simp only [Prod.mk.injEq] at h
  obtain ⟨rfl, rfl, rfl⟩ := h
  unfold Touches PAGE at *
  have hlead : (seg.load - (seg.load &&& ~~~(0x10000 - 1))).toNat = seg.load.toNat % 0x10000 := by
    rw [UInt32.toNat_sub_of_le _ _ (UInt32.le_iff_toNat_le.mpr (by omega))]
    omega
  have hpages : (divCeil (seg.len + (seg.load - (seg.load &&& ~~~(0x10000 - 1)))) 0x10000).toNat =
      (seg.len.toNat + seg.load.toNat % 0x10000 + 0xFFFF) / 0x10000 := by
    rw [divCeil_page, UInt32.toNat_add, hlead, Nat.mod_eq_of_lt (by omega), PAGE]
  rw [hpages]
  refine ⟨hload, by omega, fun page => ⟨?_, fun ⟨hlo, hhi⟩ => ?_⟩⟩
  · rintro ⟨i, hi, rfl⟩
    omega
  · by_cases hfirst : page = seg.load.toNat / 0x10000
    · exact ⟨0, hlen, by omega⟩
    · exact ⟨page * 0x10000 - seg.load.toNat, by omega, by omega⟩

/-- A flash-mapped segment that is mapped: the table is set for its pages, all on one bus. -/
structure SegmentSet (mmu : Mmu) (seg : Segment) (s s' : mmu.State) : Prop where
  hit : ∀ page, Touches seg page →
    mmu.table s' (mmu.entry page) = some (seg.dataOffset.toNat / PAGE + (page - seg.load.toNat / PAGE))
  miss : ∀ e, (∀ page, Touches seg page → mmu.entry page ≠ e) → mmu.table s' e = mmu.table s e

theorem segmentSet_of_sets {mmu : Mmu} {s s' : mmu.State} (hpage : map.mmuPage = 0x10000) {seg : Segment}
    (hlen : 0 < seg.len.toNat) (hfits : seg.load.toNat + seg.len.toNat < 2 ^ 32)
    {vaddr paddr pages : UInt32} (h : mmuPages map seg = (vaddr, paddr, pages))
    (hsets : mmu.Sets s s' vaddr.toNat paddr.toNat pages.toNat) : SegmentSet mmu seg s s' := by
  obtain ⟨hv, hp, htouches⟩ := mmuPages_spec hpage hlen hfits h
  have hv' : vaddr.toNat / PAGE = seg.load.toNat / PAGE := by
    rw [hv, Nat.mul_div_cancel _ (by decide)]
  constructor
  · intro page ht
    obtain ⟨hlo, hhi⟩ := (htouches page).mp ht
    have := hsets.hit (page - seg.load.toNat / PAGE) (by omega)
    rwa [hv', hp, Nat.add_sub_cancel' hlo] at this
  · intro e he
    refine hsets.miss e fun i hi => he _ ((htouches _).mpr ?_)
    omega

/-- The pages of a segment that ends before the bus does lie on the bus. -/
theorem pages_on_bus {seg : Segment} {pages : UInt32} (hlen : 0 < seg.len.toNat)
    (htouches : ∀ page, Touches seg page ↔ seg.load.toNat / PAGE ≤ page ∧
      page < seg.load.toNat / PAGE + pages.toNat)
    {stop : Nat} (haligned : stop % PAGE = 0) (hstop : seg.load.toNat + seg.len.toNat ≤ stop) :
    seg.load.toNat / PAGE + pages.toNat ≤ stop / PAGE := by
  unfold Touches PAGE at *
  obtain ⟨-, hpos⟩ := (htouches (seg.load.toNat / 0x10000)).mp ⟨0, hlen, rfl⟩
  obtain ⟨i, hi, hlast⟩ := (htouches (seg.load.toNat / 0x10000 + pages.toNat - 1)).mpr (by omega)
  omega

theorem segmentSet_of_setCall {mmu : Mmu} (hlaw : mmu.Law map) (hgeo : Buses map) {s : mmu.State}
    {seg : Segment} (hlen : 0 < seg.len.toNat) (hbus : OnBus map seg) :
    SegmentSet mmu seg s (mmu.step s (setCall map seg)) := by
  have hbound : seg.load.toNat + seg.len.toNat < 2 ^ 32 := by
    have := map.drom.stop.toNat_lt
    have := map.irom.stop.toNat_lt
    have := hbus.bus
    omega
  generalize hpages : mmuPages map seg = pages
  obtain ⟨vaddr, paddr, pages⟩ := pages
  obtain ⟨hv, -, htouches⟩ := mmuPages_spec hgeo.page hlen hbound hpages
  have hv' : vaddr.toNat / PAGE = seg.load.toNat / PAGE := by
    rw [hv, Nat.mul_div_cancel _ (by decide)]
  have hstart : ∀ start, start % PAGE = 0 → start ≤ seg.load.toNat → start ≤ vaddr.toNat := by
    intro start haligned hle
    unfold PAGE at *
    omega
  refine segmentSet_of_sets hgeo.page hlen hbound hpages ?_
  have hbuses := UInt32.le_iff_toNat_le.mp hgeo.buses
  have hdrom : map.drom.contains seg.load ↔
      map.drom.start.toNat ≤ seg.load.toNat ∧ seg.load.toNat < map.drom.stop.toNat := by
    simp [Range.contains, UInt32.le_iff_toNat_le, UInt32.lt_iff_toNat_lt]
  unfold setCall
  rw [hpages]
  simp only
  split
  · next hin =>
    have hin := hdrom.mp hin
    have hfits : seg.load.toNat + seg.len.toNat ≤ map.drom.stop.toNat := by
      have := hbus.bus
      omega
    refine hlaw.dbus s vaddr paddr pages (hstart _ hgeo.dromStart hin.1) ?_
    exact hv' ▸ pages_on_bus hlen htouches hgeo.dromStop hfits
  · next hout =>
    have hfits : map.irom.start.toNat ≤ seg.load.toNat ∧
        seg.load.toNat + seg.len.toNat ≤ map.irom.stop.toNat := by
      have := hbus.bus
      rw [hdrom] at hout
      omega
    refine hlaw.ibus s vaddr paddr pages (hstart _ hgeo.iromStart hfits.1) ?_
    exact hv' ▸ pages_on_bus hlen htouches hgeo.iromStop hfits.2

/-- The flash-mapped segments, none empty, each on its bus, and no two with a table entry in common. -/
structure Mappable (mmu : Mmu) (map : MemoryMap) (segs : List Segment) : Prop where
  nonempty : ∀ seg ∈ segs, 0 < seg.len.toNat
  bus : ∀ seg ∈ segs, map.isFlashMapped seg.load → OnBus map seg
  apart : segs.Pairwise fun seg seg' => map.isFlashMapped seg.load → map.isFlashMapped seg'.load →
    ∀ page page', Touches seg page → Touches seg' page' → mmu.entry page ≠ mmu.entry page'

theorem Mappable.tail {mmu : Mmu} {seg : Segment} {segs : List Segment} (h : Mappable mmu map (seg :: segs)) :
    Mappable mmu map segs :=
  ⟨fun s hs => h.nonempty s (.tail _ hs), fun s hs => h.bus s (.tail _ hs), h.apart.tail⟩

/-- The entry translates a page that a flash-mapped segment touches. -/
def Used (mmu : Mmu) (map : MemoryMap) (segs : List Segment) (e : Nat) : Prop :=
  ∃ seg ∈ segs, map.isFlashMapped seg.load ∧ ∃ page, Touches seg page ∧ mmu.entry page = e

theorem runs_mapSegments_frame {mmu : Mmu} (hlaw : mmu.Law map) (hgeo : Buses map) {s : mmu.State}
    {segs : List Segment} (hsegs : Mappable mmu map segs) {tr : Trace} {u : Unit}
    (h : Runs (ExceptT.run (mapSegments map segs)) tr (.ok u)) {e : Nat} (he : ¬ Used mmu map segs e) :
    mmu.table (mmu.after s tr) e = mmu.table s e := by
  induction segs generalizing tr s with
  | nil =>
    obtain ⟨rfl, -⟩ := runs_ret.mp h
    rfl
  | cons seg rest ih =>
    obtain ⟨tr₁, tr₂, _, rfl, hmap, hrest⟩ := runs_try_ok h
    rw [Mmu.after_append, ih hsegs.tail hrest fun hu => he <| hu.imp fun s hs => hs.imp_left (.tail _),
      runs_mapSegment_eq hmap]
    split
    · next hmapped =>
      refine (segmentSet_of_setCall hlaw hgeo (hsegs.nonempty seg (.head _))
        (hsegs.bus seg (.head _) hmapped)).miss e fun page ht hpage => ?_
      exact he ⟨seg, .head _, hmapped, page, ht, hpage⟩
    · rfl

theorem runs_mapSegments_hit {mmu : Mmu} (hlaw : mmu.Law map) (hgeo : Buses map) {s : mmu.State}
    {segs : List Segment} (hsegs : Mappable mmu map segs) {tr : Trace} {u : Unit}
    (h : Runs (ExceptT.run (mapSegments map segs)) tr (.ok u)) {seg : Segment} (hseg : seg ∈ segs)
    (hmapped : map.isFlashMapped seg.load) {page : Nat} (ht : Touches seg page) :
    mmu.table (mmu.after s tr) (mmu.entry page) =
      some (seg.dataOffset.toNat / PAGE + (page - seg.load.toNat / PAGE)) := by
  induction segs generalizing tr s with
  | nil => cases hseg
  | cons first rest ih =>
    obtain ⟨tr₁, tr₂, _, rfl, hmap, hrest⟩ := runs_try_ok h
    rw [Mmu.after_append]
    rcases List.mem_cons.mp hseg with rfl | hseg
    · rw [runs_mapSegments_frame hlaw hgeo hsegs.tail hrest, runs_mapSegment_eq hmap, if_pos hmapped]
      · exact (segmentSet_of_setCall hlaw hgeo (hsegs.nonempty seg (.head _))
          (hsegs.bus seg (.head _) hmapped)).hit page ht
      · rintro ⟨seg', hseg', hmapped', page', ht', hentry⟩
        exact (List.pairwise_cons.mp hsegs.apart).1 seg' hseg' hmapped hmapped' page page' ht ht' hentry.symm
    · exact ih hsegs.tail hrest hseg

end Espbewi.Bootloader
