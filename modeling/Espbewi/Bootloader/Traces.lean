import Espbewi.EntryLaws
import Espbewi.Bootloader.Quiet

/-! What the parts of `boot` do in every run, whatever the flash, the ROM and the
validator answer. -/

namespace Espbewi.Bootloader

open Lib Nor Boot Hw Platform Prog

abbrev Trace := List (Event HwOp HwOp.Ans)

/-- An answer that is not a failure. -/
def Good : (o : HwOp) → o.Ans → Prop
  | .spiflashRead .., window => window.isSome = true
  | .spiflashWrite .., ok | .spiflashEraseSector _, ok | .spiflashUnlock, ok => ok = true
  | .ibusMmuSet .., rc | .dbusMmuSet .., rc => rc = 0
  | .validate .., image => image.isSome = true
  | _, _ => True

/-- The flash commands of a run, in order. -/
abbrev commands (tr : Trace) : List Cmd := labels HwOp.cmd? tr

abbrev Scripted {ε α : Type} (script : List Cmd) (p : ExceptT ε (Prog HwOp HwOp.Ans) α) : Prop :=
  Follows HwOp.cmd? Good script p

/-! ### Reading -/

theorem runs_readLoop {offset : UInt32} {len done : Nat} {out out' : List UInt8}
    {r : Except FlashError Unit} {tr : Trace} (hout : out.length = len)
    (h : Runs (readLoop offset len done out) tr (r, out')) :
    out'.length = len ∧ (r.isOk = true → ∀ ev ∈ tr, Good ev.1 ev.2) := by
  induction hn : len - done using Nat.strongRecOn generalizing done out tr with
  | ind n ih =>
    unfold readLoop at h
    split at h
    · next hlt =>
      obtain ⟨tr₁, tr₂, window, rfl, hop, h⟩ := runs_bind.mp h
      rw [runs_op.mp hop]
      cases window with
      | none =>
        obtain ⟨rfl, he⟩ := runs_ret.mp h
        cases he
        exact ⟨hout, fun h => by cases h⟩
      | some window =>
        refine (ih _ ?_ ?_ h rfl).imp_right fun hgood hr ev hev => ?_
        · omega
        · have hpos : (offset + UInt32.ofNat done - (offset + UInt32.ofNat done &&& ~~~3)).toNat < 4 := by
            have hand := land_not_three (offset + UInt32.ofNat done)
            rw [UInt32.toNat_sub_of_le _ _ (UInt32.le_iff_toNat_le.mpr (by omega))]
            omega
          rw [copyInto_length, hout]
          rw [List.length_take, hout]
          omega
        · rcases List.mem_append.mp hev with hev | hev
          · rw [List.mem_singleton.mp hev]
            rfl
          · exact hgood hr ev hev
    · obtain ⟨rfl, he⟩ := runs_ret.mp h
      cases he
      exact ⟨hout, fun _ => by simp⟩

theorem runs_hwFlashRead {offset : UInt32} {len : Nat} {tr : Trace} {bytes : List UInt8}
    (h : Runs (ExceptT.run (Hw.flashRead offset len)) tr (.ok bytes)) :
    bytes.length = len ∧ ∀ ev ∈ tr, Good ev.1 ev.2 := by
  unfold Hw.flashRead flashReadInto at h
  rw [ExceptT.run_mk] at h
  obtain ⟨tr₁, tr₂, ⟨r, out⟩, rfl, hloop, h⟩ := runs_bind.mp h
  rw [List.length_replicate] at hloop
  obtain ⟨hlen, hgood⟩ := runs_readLoop (by simp) hloop
  cases r with
  | error e =>
    obtain ⟨-, he⟩ := runs_ret.mp h
    cases he
  | ok _ =>
    obtain ⟨rfl, he⟩ := runs_ret.mp h
    cases he
    exact ⟨hlen, fun ev hev => hgood rfl ev (by simpa using hev)⟩

theorem runs_flashRead {offset : UInt32} {len : Nat} {tr : Trace} {bytes : List UInt8}
    (h : Runs (ExceptT.run (flashRead offset len)) tr (.ok bytes)) :
    bytes.length = len ∧ ∀ ev ∈ tr, Good ev.1 ev.2 := by
  obtain ⟨r, h, hr⟩ := runs_adapt h
  cases r with
  | error e => cases hr
  | ok bytes' =>
    cases hr
    exact runs_hwFlashRead h

theorem commands_of_among {α : Type} {p : HwProg α} {kinds : List Kind} (hp : p.Only (Among kinds))
    (hkinds : .update ∉ kinds) {tr : Trace} {a : α} (h : Runs p tr a) : commands tr = [] :=
  labels_eq_nil (hp.mono (quiet_of_among hkinds)) h

theorem scripted_flashRead (offset : UInt32) (len : Nat) : Scripted [] (flashRead offset len) := by
  intro tr r h
  have hnone := commands_of_among (only_flashRead offset len) (by decide) h
  refine ⟨by rw [commands] at hnone; rw [hnone], fun hr => ⟨hnone, ?_⟩⟩
  cases r with
  | error e => cases hr
  | ok bytes => exact (runs_flashRead h).2

/-! ### Updating -/

theorem scripted_check {ε : Type} {p : HwProg Bool} {script : List Cmd} {e : ε}
    (hp : ∀ tr ok, Runs p tr ok → commands tr = script ∧ (ok = true → ∀ ev ∈ tr, Good ev.1 ev.2)) :
    Scripted script (Prog.check p e) := by
  intro tr r h
  unfold Prog.check at h
  rw [ExceptT.run_mk] at h
  obtain ⟨tr₁, tr₂, ok, rfl, hrun, h⟩ := runs_bind.mp h
  obtain ⟨rfl, rfl⟩ := runs_ret.mp h
  obtain ⟨hcmds, hgood⟩ := hp _ _ hrun
  rw [List.append_nil]
  refine ⟨by rw [← hcmds], fun hr => ⟨hcmds, hgood ?_⟩⟩
  cases ok with
  | true => rfl
  | false => cases hr

theorem scripted_flashUnlock : Scripted [] flashUnlock := by
  refine scripted_check fun tr ok h => ?_
  rw [runs_op.mp h]
  exact ⟨rfl, fun hok ev hev => List.mem_singleton.mp hev ▸ hok⟩

theorem scripted_flashEraseSector (sector : UInt32) :
    Scripted [.erase (sector.toNat * 0x1000) ((sector.toNat + 1) * 0x1000)]
      (flashEraseSector sector) := by
  refine scripted_check fun tr ok h => ?_
  rw [runs_op.mp h]
  exact ⟨rfl, fun hok ev hev => List.mem_singleton.mp hev ▸ hok⟩

theorem scripted_programLoop {addr : UInt32} {data : List UInt8} {done : Nat}
    (hlen : 4 ∣ data.length) (hdone : 4 ∣ done) :
    Scripted (chunkCmds addr data done) (programLoop addr data done) := by
  induction hn : data.length - done using Nat.strongRecOn generalizing done with
  | ind n ih =>
    unfold programLoop chunkCmds
    split
    · next hlt =>
      refine follows_cons_try (scripted_check fun tr ok h => ?_)
        fun _ => ih _ (by omega) (by omega) rfl
      rw [runs_op.mp h]
      refine ⟨?_, fun hok ev hev => List.mem_singleton.mp hev ▸ hok⟩
      have hchunk : ((data.drop done).take (min (data.length - done) 256)).length =
          min (data.length - done) 256 := by
        rw [List.length_take, List.length_drop]
        omega
      have hbytes := fillWords_bytes ((data.drop done).take (min (data.length - done) 256))
        (by rw [hchunk]; omega)
      rw [hchunk] at hbytes
      have hn' : (UInt32.ofNat (min (data.length - done) 256)).toNat = min (data.length - done) 256 := by
        rw [UInt32.toNat_ofNat']
        omega
      simp only [commands, labels, HwOp.cmd?, List.filterMap_cons, List.filterMap_nil, hn', hbytes]
    · exact follows_pure _

theorem scripted_flashProgram (addr : UInt32) (data : List UInt8) :
    Scripted (chunkCmds addr data 0) (flashProgram addr data) := by
  unfold flashProgram
  split
  · exact follows_throw _
  · next hgood =>
    rw [not_or, not_not, not_not] at hgood
    exact scripted_programLoop (land_three hgood.2) (by decide)

/-- The commands for one operation on the sector at `base`. -/
def opCommands (base : UInt32) : Op → List Cmd
  | .erase => [.erase ((base / SECTOR).toNat * 0x1000) (((base / SECTOR).toNat + 1) * 0x1000)]
  | .program offset bytes => chunkCmds (base + offset) bytes.slice 0

variable {fb : Fibewi} {layout : Layout} {map : MemoryMap}

/-- The commands of one update of a boot entry. -/
def writeCommands (fb : Fibewi) (layout : Layout) (write : Write fb.Entry) : List Cmd :=
  let base := Otadata.sectorAt layout.otadata.1 write.sector
  opCommands base (fb.ops write).1 ++
    (opCommands base (fb.ops write).2.1 ++ opCommands base (fb.ops write).2.2)

theorem scripted_execute (write : Write fb.Entry) :
    Scripted (writeCommands fb layout write) (execute fb write layout) := by
  unfold execute writeCommands
  change Scripted _ (executeAt fb write (Otadata.sectorAt layout.otadata.1 write.sector))
  generalize Otadata.sectorAt layout.otadata.1 write.sector = base
  unfold executeAt
  obtain ⟨op, body, commit⟩ := fb.ops write
  refine follows_quiet_try (follows_adapt scripted_flashUnlock) fun _ => ?_
  cases op with
  | program offset bytes => exact follows_throw _
  | erase =>
  refine follows_try (follows_adapt (scripted_flashEraseSector _)) fun _ => ?_
  refine follows_quiet_try (scripted_flashRead _ _) fun back => follows_unless fun _ => ?_
  cases body with
  | erase => exact follows_throw _
  | program offset bytes =>
  refine follows_try (follows_adapt (scripted_flashProgram _ _)) fun _ => ?_
  refine follows_quiet_try (scripted_flashRead _ _) fun back => follows_unless fun _ => ?_
  cases commit with
  | erase => exact follows_throw _
  | program offset bytes =>
  refine follows_last (follows_adapt (scripted_flashProgram _ _)) fun _ => ?_
  refine follows_quiet_try (scripted_flashRead _ _) fun back => ?_
  split
  · exact follows_throw _
  · exact follows_pure _

theorem scripted_executeAll (writes : List (Write fb.Entry)) :
    Scripted (writes.flatMap (writeCommands fb layout)) (executeAll fb layout writes) := by
  induction writes with
  | nil => exact follows_pure _
  | cons write rest ih =>
    rw [List.flatMap_cons]
    exact follows_try (scripted_execute write) fun _ => ih

theorem only_programLoop (addr : UInt32) (data : List UInt8) (done : Nat) :
    Only (Among [.update]) (ExceptT.run (programLoop addr data done)) := by
  induction hn : data.length - done using Nat.strongRecOn generalizing done with
  | ind n ih =>
    unfold programLoop
    split
    · exact only_try (only_check (only_op (.head _)) _) fun _ => ih _ (by omega) _ rfl
    · trivial

theorem only_flashProgram (addr : UInt32) (data : List UInt8) :
    Only (Among [.look, .update]) (ExceptT.run (flashProgram addr data)) := by
  unfold flashProgram
  split
  · trivial
  · exact (only_programLoop ..).mono (Among.mono (by decide))

theorem only_execute (write : Write fb.Entry) :
    Only (Among [.look, .update]) (ExceptT.run (execute fb write layout)) := by
  have hread : ∀ offset len, Only (Among [.look, .update]) (ExceptT.run (flashRead offset len)) :=
    fun offset len => (only_flashRead offset len).mono (Among.mono (by decide))
  unfold execute executeAt
  obtain ⟨op, body, commit⟩ := fb.ops write
  refine only_try (only_adapt (only_check (only_op (.tail _ (.head _))) _)) fun _ => ?_
  cases op with
  | program offset bytes => trivial
  | erase =>
  refine only_try (only_adapt (only_check (only_op (.tail _ (.head _))) _)) fun _ => ?_
  refine only_try (hread ..) fun _ => only_unless ?_
  cases body with
  | erase => trivial
  | program offset bytes =>
  refine only_try (only_adapt (only_flashProgram ..)) fun _ => only_try (hread ..) fun _ => ?_
  refine only_unless ?_
  cases commit with
  | erase => trivial
  | program offset bytes =>
  refine only_try (only_adapt (only_flashProgram ..)) fun _ => only_try (hread ..) fun _ => ?_
  split <;> trivial

theorem only_executeAll (writes : List (Write fb.Entry)) :
    Only (Among [.look, .update]) (ExceptT.run (executeAll fb layout writes)) := by
  induction writes with
  | nil => trivial
  | cons write rest ih => exact only_try (only_execute write) fun _ => ih

/-- The read-back that ends an update: the committed entry. -/
def ReadBack (fb : Fibewi) (base : UInt32) (write : Write fb.Entry) (tr : Trace) : Prop :=
  Runs (ExceptT.run (flashRead base fb.ENTRY_SIZE)) tr (.ok (fb.encode write.entry)) ∧
    fb.decode (fb.encode write.entry) = some write.entry

theorem ends_execute (write : Write fb.Entry) :
    Ends (ReadBack fb (Otadata.sectorAt layout.otadata.1 write.sector) write)
      (execute fb write layout) := by
  unfold execute
  change Ends _ (executeAt fb write (Otadata.sectorAt layout.otadata.1 write.sector))
  generalize Otadata.sectorAt layout.otadata.1 write.sector = base
  unfold executeAt
  obtain ⟨op, body, commit⟩ := fb.ops write
  refine ends_try fun _ => ?_
  cases op with
  | program offset bytes => exact ends_throw _
  | erase =>
  refine ends_try fun _ => ends_try fun back => ends_unless fun _ => ?_
  cases body with
  | erase => exact ends_throw _
  | program offset bytes =>
  refine ends_try fun _ => ends_try fun back => ends_unless fun _ => ?_
  cases commit with
  | erase => exact ends_throw _
  | program offset bytes =>
  refine ends_try fun _ => ?_
  intro tr u h
  obtain ⟨tr₁, tr₂, back, rfl, hread, h⟩ := runs_try_ok h
  refine ⟨[], tr₁ ++ tr₂, rfl, ?_⟩
  simp only at h
  split at h
  · obtain ⟨-, he⟩ := runs_ret.mp h
    cases he
  · next hgood =>
    rw [not_or, not_not, not_not] at hgood
    obtain ⟨rfl, -⟩ := runs_ret.mp h
    rw [List.append_nil, ReadBack, ← hgood.1]
    exact ⟨hread, hgood.2⟩

/-- An update carried out whole: all its commands were issued and succeeded, and after them
the entry was read back. -/
structure Executed (fb : Fibewi) (layout : Layout) (write : Write fb.Entry) (tr : Trace) : Prop where
  script : commands tr = writeCommands fb layout write
  good : ∀ ev ∈ tr, Good ev.1 ev.2
  back : ∃ tr₀ tr₁, tr = tr₀ ++ tr₁ ∧ commands tr₁ = [] ∧
    ReadBack fb (Otadata.sectorAt layout.otadata.1 write.sector) write tr₁

inductive ExecutedAll (fb : Fibewi) (layout : Layout) : List (Write fb.Entry) → Trace → Prop
  | nil : ExecutedAll fb layout [] []
  | cons {write rest tr tr'} : Executed fb layout write tr → ExecutedAll fb layout rest tr' →
      ExecutedAll fb layout (write :: rest) (tr ++ tr')

theorem runs_execute {write : Write fb.Entry} {tr : Trace} {u : Unit}
    (h : Runs (ExceptT.run (execute fb write layout)) tr (.ok u)) : Executed fb layout write tr := by
  obtain ⟨hcmds, hgood⟩ := (scripted_execute write _ _ h).2 rfl
  obtain ⟨tr₀, tr₁, rfl, hback⟩ := ends_execute write _ _ h
  exact ⟨hcmds, hgood, tr₀, tr₁, rfl,
    commands_of_among (only_flashRead ..) (by decide) hback.1, hback⟩

theorem runs_executeAll {writes : List (Write fb.Entry)} {tr : Trace} {u : Unit}
    (h : Runs (ExceptT.run (executeAll fb layout writes)) tr (.ok u)) :
    ExecutedAll fb layout writes tr := by
  induction writes generalizing tr with
  | nil =>
    obtain ⟨rfl, -⟩ := runs_ret.mp h
    exact .nil
  | cons write rest ih =>
    obtain ⟨tr₁, tr₂, _, rfl, hwrite, hrest⟩ := runs_try_ok h
    exact .cons (runs_execute hwrite) (ih hrest)

/-! ### Loading -/

/-- Byte `i` of the segment was read from flash and copied to its place. -/
def Copied (seg : Segment) (target : UInt32) (i : Nat) (tr : Trace) : Prop :=
  ∃ k bytes tr₀ tr₁ tr₂, tr = tr₀ ++ (tr₁ ++
      ⟨.copyNonoverlapping (target + UInt32.ofNat k) bytes, ()⟩ :: tr₂) ∧
    Runs (ExceptT.run (flashRead (seg.dataOffset + UInt32.ofNat k) bytes.length)) tr₁ (.ok bytes) ∧
    k ≤ i ∧ i < k + bytes.length

theorem Copied.prepend {seg : Segment} {target : UInt32} {i : Nat} {tr : Trace}
    (h : Copied seg target i tr) (pre : Trace) : Copied seg target i (pre ++ tr) := by
  obtain ⟨k, bytes, tr₀, tr₁, tr₂, rfl, h⟩ := h
  exact ⟨k, bytes, pre ++ tr₀, tr₁, tr₂, (List.append_assoc ..).symm, h⟩

theorem Copied.append {seg : Segment} {target : UInt32} {i : Nat} {tr : Trace}
    (h : Copied seg target i tr) (post : Trace) : Copied seg target i (tr ++ post) := by
  obtain ⟨k, bytes, tr₀, tr₁, tr₂, rfl, h⟩ := h
  exact ⟨k, bytes, tr₀, tr₁, tr₂ ++ post, by simp, h⟩

theorem runs_copyLoop {seg : Segment} {target : UInt32} {copied : Nat} {tr : Trace} {u : Unit}
    (h : Runs (ExceptT.run (copyLoop seg target copied)) tr (.ok u)) {i : Nat} (hlo : copied ≤ i)
    (hhi : i < seg.len.toNat) : Copied seg target i tr := by
  induction hn : seg.len.toNat - copied using Nat.strongRecOn generalizing copied tr with
  | ind n ih =>
    unfold copyLoop at h
    rw [if_pos (by omega)] at h
    obtain ⟨tr₁, tr₂, bytes, rfl, hread, h⟩ := runs_try_ok h
    obtain ⟨tr₃, tr₄, _, rfl, hcopy, h⟩ := runs_try_ok h
    obtain ⟨_, hcopy, -⟩ := runs_lift hcopy
    rw [runs_op.mp hcopy]
    have hlen := (runs_flashRead hread).1
    by_cases hchunk : i < copied + bytes.length
    · exact ⟨copied, bytes, [], tr₁, tr₄, rfl, hlen.symm ▸ hread, hlo, hchunk⟩
    · exact ((ih _ (by omega) h (by omega) rfl).prepend _).prepend _

theorem runs_copySegments {segs : List Segment} {tr : Trace} {u : Unit}
    (h : Runs (ExceptT.run (copySegments fb map segs)) tr (.ok u)) {seg : Segment} (hseg : seg ∈ segs)
    {target : UInt32} (htarget : fb.ramTarget seg map = some target) {i : Nat}
    (hi : i < seg.len.toNat) : Copied seg target i tr := by
  induction segs generalizing tr with
  | nil => cases hseg
  | cons s rest ih =>
    unfold copySegments at h
    rcases List.mem_cons.mp hseg with rfl | hseg
    · rw [htarget] at h
      obtain ⟨tr₁, tr₂, _, rfl, hcopy, -⟩ := runs_try_ok h
      exact (runs_copyLoop hcopy (Nat.zero_le i) hi).append _
    · split at h
      · obtain ⟨tr₁, tr₂, _, rfl, -, h⟩ := runs_try_ok h
        exact (ih h hseg).prepend _
      · exact ih h hseg

/-- The pages of the segment were mapped, and the MMU answered 0. -/
def Mapped (map : MemoryMap) (seg : Segment) (tr : Trace) : Prop :=
  let (vaddr, paddr, pages) := mmuPages map seg
  if map.drom.contains seg.load then ⟨.dbusMmuSet vaddr paddr pages, (0 : Int32)⟩ ∈ tr
  else ⟨.ibusMmuSet vaddr paddr pages, (0 : Int32)⟩ ∈ tr

/-- The call that maps a segment, answered with 0. -/
def setCall (map : MemoryMap) (seg : Segment) : Event HwOp HwOp.Ans :=
  let (vaddr, paddr, pages) := mmuPages map seg
  if map.drom.contains seg.load then ⟨.dbusMmuSet vaddr paddr pages, (0 : Int32)⟩
  else ⟨.ibusMmuSet vaddr paddr pages, (0 : Int32)⟩

theorem runs_mapSegment_eq {seg : Segment} {tr : Trace} {u : Unit}
    (h : Runs (ExceptT.run (mapSegment map seg)) tr (.ok u)) :
    tr = if map.isFlashMapped seg.load then [setCall map seg] else [] := by
  unfold mapSegment at h
  split at h
  · next hmapped =>
    rw [if_pos hmapped]
    unfold setCall
    generalize mmuPages map seg = pages at h
    obtain ⟨vaddr, paddr, pages⟩ := pages
    obtain ⟨tr₁, tr₂, rc, rfl, hmap, h⟩ := runs_try_ok h
    obtain ⟨rc', hmap, hrc⟩ := runs_lift hmap
    cases hrc
    have hzero : rc = 0 := by
      by_contra hne
      rw [if_pos hne] at h
      obtain ⟨-, he⟩ := runs_ret.mp h
      cases he
    subst hzero
    rw [if_neg (by decide)] at h
    obtain ⟨rfl, -⟩ := runs_ret.mp h
    rw [List.append_nil]
    split at hmap
    · next hdrom => simp only [if_pos hdrom, runs_op.mp hmap]
    · next hdrom => simp only [if_neg hdrom, runs_op.mp hmap]
  · next hram =>
    rw [if_neg hram]
    exact (runs_ret.mp h).1

theorem runs_mapSegment {seg : Segment} {tr : Trace} {u : Unit}
    (h : Runs (ExceptT.run (mapSegment map seg)) tr (.ok u)) (hmapped : map.isFlashMapped seg.load) :
    Mapped map seg tr := by
  rw [runs_mapSegment_eq h, if_pos hmapped]
  unfold Mapped setCall
  simp only
  split <;> exact .head _

theorem Mapped.mono {seg : Segment} {tr tr' : Trace} (h : Mapped map seg tr) (hsub : tr ⊆ tr') :
    Mapped map seg tr' := by
  unfold Mapped at h ⊢
  simp only at h ⊢
  split at h
  · next hdrom => exact (if_pos hdrom).symm ▸ hsub h
  · next hdrom => exact (if_neg hdrom).symm ▸ hsub h

theorem runs_mapSegments {segs : List Segment} {tr : Trace} {u : Unit}
    (h : Runs (ExceptT.run (mapSegments map segs)) tr (.ok u)) {seg : Segment} (hseg : seg ∈ segs)
    (hmapped : map.isFlashMapped seg.load) : Mapped map seg tr := by
  induction segs generalizing tr with
  | nil => cases hseg
  | cons s rest ih =>
    obtain ⟨tr₁, tr₂, _, rfl, hmap, hrest⟩ := runs_try_ok h
    rcases List.mem_cons.mp hseg with rfl | hseg
    · exact (runs_mapSegment hmap hmapped).mono (List.subset_append_left ..)
    · exact (ih hrest hseg).mono (List.subset_append_right ..)

end Espbewi.Bootloader
