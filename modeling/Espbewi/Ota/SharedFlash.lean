import Espbewi.Lib.Moments
import Espbewi.Ota.ArtifactWriter
import Espbewi.Ota.Preloaded
import Espbewi.Ota.StorageCalls
import Espbewi.System.Confined
import Espbewi.System.Calls

/-! `espbewi-ota::shared_flash` over the one flash mutex of the process: what a task may ask of it, each
call under one holding of the lock. -/

namespace Espbewi

open Lib Nor Prog Otadata

namespace SharedFlash

section Calls

variable (idf : EspIdf) (fb : Fibewi)

/-- The partition actually booted, including after an image-header fallback. -/
def activeSlot : NorProg String :=
  ExceptT.run (bootedSlot idf) >>= fun
    | .ok slot => pure slot
    | .error _ => pure ""

def imageOutcome : NorProg BackendOutcome :=
  ExceptT.run (readEntries idf fb) >>= fun
    | .ok entries => pure (Otadata.imageOutcome fb entries)
    | .error _ => pure .other

def UNKNOWN : BootEntry where
  slot := ""
  seq := 0
  state := "unknown"

/-- Raw bootloader state for the agent's status endpoint. -/
def bootInfo : NorProg BootEntry :=
  ExceptT.run (readEntries idf fb) >>= fun
    | .ok entries => pure ((bootEntry fb entries).getD UNKNOWN)
    | .error _ => pure UNKNOWN

end Calls

/-! ### The regions of the flash -/

/-- The command, if there is one, stays in `[base, base + size)`. -/
def Stays (base size : Nat) (o : NorOp) : Prop := ∀ c, o.cmd? = some c → System.Inside base size c

/-- The bytes `[base, base + size)`. -/
structure Region where
  base : Nat
  size : Nat

namespace Region

def Has (r : Region) (x : Nat) : Prop := r.base ≤ x ∧ x < r.base + r.size

def Apart (r r' : Region) : Prop := ∀ x, r.Has x → ¬ r'.Has x

theorem Apart.of_ends {r r' : Region} (h : r.base + r.size ≤ r'.base ∨ r'.base + r'.size ≤ r.base) :
    r.Apart r' := by
  rintro x ⟨hlo, hhi⟩ ⟨hlo', hhi'⟩
  omega

/-- Nothing outside the region has changed. -/
def Frame (r : Region) (f g : Flash) : Prop := ∀ x, ¬ r.Has x → g x = f x

theorem Frame.refl (r : Region) (f : Flash) : r.Frame f f := fun _ _ => rfl

theorem Frame.trans {r : Region} {f g h : Flash} (hfg : r.Frame f g) (hgh : r.Frame g h) : r.Frame f h :=
  fun x hx => (hgh x hx).trans (hfg x hx)

end Region

def tableRegion : Region := ⟨0x8000, 0xC00⟩

def Region.ofSlot (p : AppPartition) : Region := ⟨p.offset.toNat, p.size⟩

def Region.ofEntry (p : PartitionEntry) : Region := ⟨p.offset.toNat, p.len.toNat⟩

/-- Where the partitions lie: no two of them overlap, and none overlaps the table. -/
structure FlashMap where
  ota : PartitionEntry
  slot : AppSlot → AppPartition
  nvs : Region
  placed : Otadata.Placed ota
  fits : ota.offset.toNat + ota.len.toNat ≤ 2 ^ 32
  named : ∀ x, (slot x).slot = x
  sized : ∀ x, (slot x).size < 2 ^ 64
  slot_table : ∀ x, (Region.ofSlot (slot x)).Apart tableRegion
  slot_ota : ∀ x, (Region.ofSlot (slot x)).Apart (.ofEntry ota)
  slot_slot : (Region.ofSlot (slot .ota0)).Apart (.ofSlot (slot .ota1))
  nvs_table : nvs.Apart tableRegion
  nvs_ota : nvs.Apart (.ofEntry ota)
  nvs_slot : ∀ x, nvs.Apart (.ofSlot (slot x))

/-! ### The calls of the tasks -/

section Requests

/-- A writer of one of the two slots, and the session of `fibewi` that goes with it. -/
structure Upload (E : Engine) (M : FlashMap) (x : AppSlot) where
  writer : ArtifactWriter
  session : E.WriteSession
  partition : writer.partition = M.slot x

/-- The calls of `shared_flash`, and whatever the owner of the NVS partition does there while it holds
the lock. -/
inductive Request (E : Engine) (M : FlashMap)
  | writeTarget
  | confirm
  | reject
  | activate (target : AppSlot)
  | activeSlot
  | imageOutcome
  | bootInfo
  | hashPreloaded (size : UInt32)
  | append (x : AppSlot) (u : Upload E M x) (data : List UInt8)
  | finish (x : AppSlot) (u : Upload E M x)
  | nvs (p : NorProg Unit) (h : p.Only (Stays M.nvs.base M.nvs.size))

@[reducible] def Request.Result {E : Engine} {M : FlashMap} : Request E M → Type
  | .writeTarget => Except Otadata.Error AppPartition
  | .confirm | .reject | .activate _ => Except Otadata.Error Unit
  | .activeSlot => String
  | .imageOutcome => BackendOutcome
  | .bootInfo => BootEntry
  | .hashPreloaded _ => Except PreloadedError (AppSlot × Digest)
  | .append .. => Bool × ArtifactWriter × E.WriteSession
  | .finish .. => Except FinishError UInt64 × ArtifactWriter
  | .nvs .. => Unit

variable (idf : EspIdf) (fb : Fibewi) (H : Sha256) (g : Geometry) (w : Nat) (E : Engine) (M : FlashMap)

/-- What is answered before the lock is taken. -/
def early : (c : Request E M) → Option c.Result
  | .append _ u data =>
    if E.canAppend u.session data.length then none else some (false, u.writer, u.session)
  | .finish _ u =>
    if E.received u.session > u.writer.erasedThrough then
      some (.error (.incomplete (E.durable u.session)), u.writer)
    else none
  | _ => none

def body : (c : Request E M) → NorProg c.Result
  | .writeTarget => ExceptT.run (writeTarget idf fb)
  | .confirm => ExceptT.run (Otadata.confirm idf fb)
  | .reject => ExceptT.run (Otadata.reject idf fb)
  | .activate target => ExceptT.run (Otadata.activate idf fb target)
  | .activeSlot => activeSlot idf
  | .imageOutcome => imageOutcome idf fb
  | .bootInfo => bootInfo idf fb
  | .hashPreloaded size => ExceptT.run (Espbewi.hashPreloaded H idf fb size)
  | .append _ u data => u.writer.append g w E u.session data
  | .finish _ u => u.writer.finish g w E u.session
  | .nvs p _ => p

/-- The tasks of the process over its flash mutex. -/
def service : Service NorOp NorOp.Ans where
  Call := Request E M
  Result := Request.Result
  early := early E M
  body := body idf fb H g w E M
  rest _ _ := .ret ()

end Requests

namespace Request

variable {E : Engine} {M : FlashMap}

/-- The calls that update a boot entry. -/
def call? : Request E M → Option System.Call
  | .confirm => some .confirm
  | .reject => some .reject
  | .activate target => some (.activate target)
  | _ => none

/-- What a call may change. -/
def region : Request E M → Region
  | .confirm | .reject | .activate _ => .ofEntry M.ota
  | .append x .. | .finish x .. => .ofSlot (M.slot x)
  | .nvs .. => M.nvs
  | _ => ⟨0, 0⟩

end Request

/-! ### Where a call erases and programs -/

theorem Stays.of_isRead {base size : Nat} {o : NorOp} (h : Preloaded.IsRead o) : Stays base size o := by
  cases o with
  | read offset len =>
    intro c hc
    cases hc
  | erase lo hi => exact h.elim
  | write offset bytes => exact h.elim

theorem Stays.of_inBounds {base size : Nat} {o : NorOp} (h : InBounds base (base + size) o) :
    Stays base size o := by
  cases o with
  | read offset len => exact h.elim
  | erase lo hi =>
    intro c hc x hx
    cases hc
    simp only [Cmd.Covers, Cmd.lo, Cmd.hi] at hx
    simp only [InBounds] at h
    omega
  | write offset bytes =>
    intro c hc x hx
    simp only [NorOp.cmd?] at hc
    split at hc
    · cases hc
    · cases hc
      simp only [Cmd.Covers, Cmd.lo, Cmd.hi] at hx
      simp only [InBounds] at h
      omega

section Readers

variable (idf : EspIdf) (fb : Fibewi)

theorem only_bootedSlot : Only Preloaded.IsRead (ExceptT.run (bootedSlot idf)) := by
  refine only_try (Preloaded.only_readPartitionTable _ _) fun table => ?_
  split
  · split <;> trivial
  · trivial

theorem only_activeSlot : (activeSlot idf).Only Preloaded.IsRead := by
  refine only_bind (only_bootedSlot idf) fun r => ?_
  cases r <;> trivial

theorem only_imageOutcome : (imageOutcome idf fb).Only Preloaded.IsRead := by
  refine only_bind (Preloaded.only_readEntries idf fb) fun r => ?_
  cases r <;> trivial

theorem only_bootInfo : (bootInfo idf fb).Only Preloaded.IsRead := by
  refine only_bind (Preloaded.only_readEntries idf fb) fun r => ?_
  cases r <;> trivial

theorem only_hashFrom (H : Sha256) (base size offset : UInt32) (hasher : H.Hasher) :
    Only Preloaded.IsRead (ExceptT.run (Preloaded.hashFrom H base size offset hasher)) := by
  induction hn : size.toNat - offset.toNat using Nat.strongRecOn generalizing offset hasher with
  | ind n ih =>
    unfold Preloaded.hashFrom
    split
    · next hlt =>
      refine only_try (Preloaded.only_read _ _ _) fun chunk => ih _ ?_ _ _ rfl
      have hlt' := UInt32.lt_iff_toNat_lt.mp hlt
      rw [Preloaded.toNat_offset_take hlt, Preloaded.BUF_LEN]
      omega
    · trivial

theorem only_hashPreloaded (H : Sha256) (size : UInt32) :
    Only Preloaded.IsRead (ExceptT.run (Espbewi.hashPreloaded H idf fb size)) := by
  refine only_try (only_adapt (Preloaded.only_writeTarget idf fb)) fun target => only_unless ?_
  exact only_try (only_hashFrom ..) fun _ => trivial

end Readers

section Writer

open EspArtifactStorage

variable {g : Geometry} {w : Nat} {E : Engine} {p : AppPartition} {st : EspArtifactStorage}

theorem only_erasePartitionRange (lo hi : UInt64) :
    Only (Stays p.offset.toNat p.size) (ExceptT.run (erasePartitionRange g w p lo hi)) := by
  unfold erasePartitionRange eraseRange
  generalize hbounds : eraseBounds g w { offset := p.offset, size := p.size } lo hi = bounds
  rcases bounds with e | _ | ⟨a, b⟩
  · trivial
  · trivial
  · obtain ⟨ha, hb, -, -, hlt, hfits⟩ := eraseBounds_some hbounds
    refine only_adapt (only_check (only_op (.of_inBounds ?_)) _)
    simp only [InBounds]
    simp only at ha hb hfits
    omega

theorem only_flushBlock (offset : UInt64) (bytes scratch : List UInt8) :
    (flushBlock g w st offset bytes scratch).Only (Stays st.partitionOffset.toNat st.partitionSize) := by
  rcases flushBlock_cases g w st offset bytes scratch with
    ⟨e, scratch', -, heq⟩ | ⟨absolute, eraseEnd, scratch', hplaced, -, heq⟩
  · rw [heq]
    trivial
  · rw [heq]
    have hinside := hplaced.inside
    refine only_bind ((only_flushAt hplaced rfl).mono fun o ho => .of_inBounds ?_) fun _ => trivial
    exact ho.mono (by omega) (by omega)

theorem only_writeLoop (offset : UInt64) (pending scratch : List UInt8) (consumed : Nat) :
    (writeLoop g w st offset pending consumed scratch).Only
      (Stays st.partitionOffset.toNat st.partitionSize) := by
  induction hn : pending.length - consumed using Nat.strongRecOn generalizing consumed scratch with
  | ind n ih =>
    have hpos := g.erase_pos
    unfold writeLoop
    split
    · refine only_bind (only_flushBlock ..) fun r => ?_
      rcases r with ⟨_ | _, scratch'⟩
      · trivial
      · exact ih _ (by omega) _ _ rfl
    · trivial

theorem only_finish (offset : UInt64) (pending scratch : List UInt8) :
    (EspArtifactStorage.finish g w st offset pending scratch).Only
      (Stays st.partitionOffset.toNat st.partitionSize) := by
  unfold EspArtifactStorage.finish
  split
  · trivial
  · split
    · trivial
    · refine only_bind (only_flushBlock ..) fun r => ?_
      rcases r with ⟨_ | _, scratch'⟩ <;> trivial

theorem newPreErased_ok {scratch : List UInt8} (h : newPreErased g p scratch = .ok st) :
    st.partitionOffset = p.offset ∧ st.partitionSize = p.size := by
  unfold newPreErased newWithEraseMode at h
  split at h
  · cases h
  · cases h
    exact ⟨rfl, rfl⟩

theorem only_engineAppend (a : ArtifactWriter) (e : E.WriteSession) (data : List UInt8) :
    (a.engineAppend g w E e data).Only (Stays a.partition.offset.toNat a.partition.size) := by
  unfold ArtifactWriter.engineAppend
  split
  · trivial
  · next st hst =>
    obtain ⟨hoffset, hsize⟩ := newPreErased_ok hst
    rw [← hoffset, ← hsize]
    split
    · trivial
    · exact only_bind (only_writeLoop ..) fun _ => trivial

theorem only_eraseAhead (a : ArtifactWriter) (desired : UInt64) :
    (a.eraseAhead g w desired).Only (Stays a.partition.offset.toNat a.partition.size) ∧
      (a.eraseAhead g w desired).Returns fun r => r.2.partition = a.partition := by
  unfold ArtifactWriter.eraseAhead
  split
  · refine ⟨only_bind (only_erasePartitionRange ..) fun r => ?_, returns_bind (returns_true _) fun r _ => ?_⟩
    · cases r <;> trivial
    · cases r <;> rfl
  · exact ⟨trivial, rfl⟩

theorem only_append (a : ArtifactWriter) (e : E.WriteSession) (data : List UInt8) :
    (a.append g w E e data).Only (Stays a.partition.offset.toNat a.partition.size) := by
  unfold ArtifactWriter.append
  split
  · generalize a.desiredErased (E.received e + UInt64.ofNat data.length) = desired
    obtain ⟨honly, hreturns⟩ := only_eraseAhead (g := g) (w := w) a desired
    refine only_bind_returns honly hreturns fun r hr => ?_
    rcases r with ⟨_ | _, a'⟩
    · trivial
    · rw [← show a'.partition = a.partition from hr]
      exact only_bind (only_engineAppend ..) fun _ => trivial
  · trivial

theorem only_close (a : ArtifactWriter) (e : E.WriteSession) :
    (a.finish g w E e).Only (Stays a.partition.offset.toNat a.partition.size) := by
  unfold ArtifactWriter.finish
  split
  · trivial
  · split
    · trivial
    · next st hst =>
      obtain ⟨hoffset, hsize⟩ := newPreErased_ok hst
      rw [← hoffset, ← hsize]
      refine only_bind (only_finish ..) fun r => ?_
      rcases r with ⟨r, scratch'⟩
      cases hcommit : E.commit e r <;> simp only [hcommit] <;> trivial

end Writer

section Body

variable {idf : EspIdf} {fb : Fibewi} {H : Sha256} {g : Geometry} {w : Nat} {E : Engine} {M : FlashMap}

theorem only_body {c : Request E M} (h : c.call? = none) :
    (body idf fb H g w E M c).Only (Stays c.region.base c.region.size) := by
  have hread : ∀ {α : Type} {p : NorProg α}, p.Only Preloaded.IsRead → p.Only (Stays 0 0) :=
    fun hp => hp.mono fun _ => .of_isRead
  cases c with
  | writeTarget => exact hread (Preloaded.only_writeTarget idf fb)
  | confirm => cases h
  | reject => cases h
  | activate target => cases h
  | activeSlot => exact hread (only_activeSlot idf)
  | imageOutcome => exact hread (only_imageOutcome idf fb)
  | bootInfo => exact hread (only_bootInfo idf fb)
  | hashPreloaded size => exact hread (only_hashPreloaded idf fb H size)
  | append x u data =>
    have := only_append (g := g) (w := w) u.writer u.session data
    rwa [u.partition] at this
  | finish x u =>
    have := only_close (g := g) (w := w) u.writer u.session
    rwa [u.partition] at this
  | nvs p hp => exact hp

end Body

end SharedFlash

end Espbewi
