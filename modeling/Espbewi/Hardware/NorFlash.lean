import Espbewi.Lib.Update

/-! The `embedded-storage` traits a flash driver is used through. -/

namespace Espbewi

open Lib Nor

inductive NorOp
  | read (offset : UInt32) (len : Nat)
  | erase (lo hi : UInt32)
  | write (offset : UInt32) (bytes : List UInt8)
  deriving DecidableEq

@[reducible] def NorOp.Ans : NorOp → Type
  | .read _ len => Option (Fin len → UInt8)
  | .erase .. | .write .. => Bool

abbrev NorProg (α : Type) := Prog NorOp NorOp.Ans α

def norOp (o : NorOp) : NorProg o.Ans := Prog.op o

namespace NorFlash

variable {ε : Type}

/-- `read(offset, &mut buf).map_err(|_| e)?` with a buffer of `len` bytes. -/
def read (offset : UInt32) (len : Nat) (e : ε) : ExceptT ε (Prog NorOp NorOp.Ans) (List UInt8) := do
  let window ← Prog.expect (norOp (.read offset len)) e
  return List.ofFn window

def erase (lo hi : UInt32) (e : ε) : ExceptT ε (Prog NorOp NorOp.Ans) Unit :=
  Prog.check (norOp (.erase lo hi)) e

def write (offset : UInt32) (bytes : List UInt8) (e : ε) : ExceptT ε (Prog NorOp NorOp.Ans) Unit :=
  Prog.check (norOp (.write offset bytes)) e

end NorFlash

/-- The flash command behind a driver call. An empty slice reaches no command. -/
def NorOp.cmd? : NorOp → Option Cmd
  | .read .. => none
  | .erase lo hi => some (.erase lo.toNat hi.toNat)
  | .write offset bytes => if bytes = [] then none else some (.program offset.toNat bytes)

/-- A plain driver over a flash with faults. -/
def norDevice (b : Behaviour) : Device NorOp NorOp.Ans State :=
  fun s o => match o with
    | .read offset len => b.fetch s offset.toNat len
    | .erase lo hi => b.issue s (.erase lo.toNat hi.toNat)
    | .write offset bytes =>
      if bytes = [] then (true, s) else b.issue s (.program offset.toNat bytes)

namespace NorFlash

variable {ε : Type} {b : Behaviour} {I : State → NorOp → Prop} {s : State} {e : ε}

theorem wp_read {offset : UInt32} {len : Nat} {Q : Except ε (List UInt8) → State → Prop}
    (hI : I s (.read offset len))
    (hok : Q (.ok (Nor.read s.flash offset.toNat len)) { s with reads := s.reads + 1 })
    (herr : ¬ b.Readable → Q (.error e) { s with reads := s.reads + 1 }) :
    (ExceptT.run (NorFlash.read offset len e)).wp (norDevice b) I Q s := by
  unfold NorFlash.read Prog.expect
  rw [Prog.wp_try, ExceptT.run_mk, Prog.wp_bind]
  refine ⟨hI, ?_⟩
  simp only [norDevice, Behaviour.fetch]
  by_cases hr : b.read s.log s.reads = true
  · simp only [hr, if_true, Prog.wp_ret]
    exact hok
  · simp only [Bool.not_eq_true] at hr
    simp only [hr, Bool.false_eq_true, if_false, Prog.wp_ret]
    exact herr fun h => by simp [h s.log s.reads] at hr

theorem wp_cmd {c : Cmd} {p : Prog NorOp NorOp.Ans Bool} {Q : Except ε Unit → State → Prop}
    (hb : b.Honest)
    (hp : p.wp (norDevice b) I (fun r s' => r = (b.issue s c).1 ∧ s' = (b.issue s c).2) s)
    (hok : ∀ s', s'.flash = c.apply s.flash → s'.log = s.log ++ [c] → Q (.ok ()) s')
    (herr : ∀ s', c.Torn s.flash s'.flash → s'.log = s.log ++ [c] → Q (.error e) s') :
    (ExceptT.run (Prog.check p e)).wp (norDevice b) I Q s := by
  unfold Prog.check
  rw [ExceptT.run_mk, Prog.wp_bind]
  refine Prog.wp_mono ?_ hp
  rintro r s' ⟨rfl, rfl⟩
  cases hr : (b.cmd s.log s.flash c).1 with
  | true => simpa [Behaviour.issue, hr] using hok _ (hb.done _ _ _ hr) rfl
  | false => simpa [Behaviour.issue, hr] using herr _ (hb.torn _ _ _ hr) rfl

theorem wp_erase {lo hi : UInt32} {Q : Except ε Unit → State → Prop} (hb : b.Honest)
    (hI : I s (.erase lo hi))
    (hok : ∀ s', s'.flash = (Cmd.erase lo.toNat hi.toNat).apply s.flash →
      s'.log = s.log ++ [.erase lo.toNat hi.toNat] → Q (.ok ()) s')
    (herr : ∀ s', (Cmd.erase lo.toNat hi.toNat).Torn s.flash s'.flash →
      s'.log = s.log ++ [.erase lo.toNat hi.toNat] → Q (.error e) s') :
    (ExceptT.run (NorFlash.erase lo hi e)).wp (norDevice b) I Q s :=
  wp_cmd hb ⟨hI, rfl, rfl⟩ hok herr

/-- A program of at least one byte. -/
theorem wp_write {offset : UInt32} {bytes : List UInt8} {Q : Except ε Unit → State → Prop}
    (hb : b.Honest) (hne : bytes ≠ []) (hI : I s (.write offset bytes))
    (hok : ∀ s', s'.flash = (Cmd.program offset.toNat bytes).apply s.flash →
      s'.log = s.log ++ [.program offset.toNat bytes] → Q (.ok ()) s')
    (herr : ∀ s', (Cmd.program offset.toNat bytes).Torn s.flash s'.flash →
      s'.log = s.log ++ [.program offset.toNat bytes] → Q (.error e) s') :
    (ExceptT.run (NorFlash.write offset bytes e)).wp (norDevice b) I Q s :=
  wp_cmd hb ⟨hI, by simp [norDevice, hne]⟩ hok herr

/-! ### Commands of an update -/

variable {C : Flash → Prop}

def programCmds (offset : UInt32) (bytes : List UInt8) : List Cmd :=
  if bytes = [] then [] else [.program offset.toNat bytes]

theorem wp_issuing_erase {lo hi : UInt32} {R : Bool → Flash → List Cmd → Prop}
    {Q : Except ε Unit → State → Prop} (h : issuing b C [.erase lo.toNat hi.toNat] R s.flash s.log)
    (hok : ∀ s', C s'.flash → R true s'.flash s'.log → Q (.ok ()) s')
    (herr : ∀ s', R false s'.flash s'.log → Q (.error e) s') :
    (ExceptT.run (NorFlash.erase lo hi e)).wp (norDevice b) (cutGuard NorOp.cmd? C) Q s := by
  unfold NorFlash.erase Prog.check
  rw [ExceptT.run_mk, Prog.wp_bind]
  refine ⟨cutGuard_of_some rfl h.1, ?_⟩
  simp only [norDevice, Behaviour.issue]
  cases hr : (b.cmd s.log s.flash (.erase lo.toNat hi.toNat)).1 with
  | true => exact hok _ (h.2.2 hr).1 (h.2.2 hr).2
  | false => exact herr _ (h.2.1 hr)

theorem wp_issuing_write {offset : UInt32} {bytes : List UInt8} {R : Bool → Flash → List Cmd → Prop}
    {Q : Except ε Unit → State → Prop} (h : issuing b C (programCmds offset bytes) R s.flash s.log)
    (hok : ∀ s', C s'.flash → R true s'.flash s'.log → Q (.ok ()) s')
    (herr : ∀ s', R false s'.flash s'.log → Q (.error e) s') :
    (ExceptT.run (NorFlash.write offset bytes e)).wp (norDevice b) (cutGuard NorOp.cmd? C) Q s := by
  unfold NorFlash.write Prog.check
  rw [ExceptT.run_mk, Prog.wp_bind]
  by_cases hb : bytes = []
  · subst hb
    exact ⟨cutGuard_of_none rfl h.1, hok s h.1 h.2⟩
  · rw [programCmds, if_neg hb] at h
    refine ⟨cutGuard_of_some (if_neg hb) h.1, ?_⟩
    simp only [norDevice, hb, if_false, Behaviour.issue]
    cases hr : (b.cmd s.log s.flash (.program offset.toNat bytes)).1 with
    | true => exact hok _ (h.2.2 hr).1 (h.2.2 hr).2
    | false => exact herr _ (h.2.1 hr)

theorem programCmds_programs {offset : UInt32} {a : Nat} {bytes : List UInt8}
    (h : bytes = [] ∨ offset.toNat = a) : Programs a bytes (.mk (programCmds offset bytes)) := by
  refine fun seen => .inr ⟨rfl, ?_⟩
  by_cases hb : bytes = []
  · subst hb
    exact ⟨by simp [programCmds], fun f => (Cmd.apply_program_nil a f).symm⟩
  · have ha := h.resolve_left hb
    subst ha
    rw [programCmds, if_neg hb]
    exact ⟨by simp [Cmd.Programs], fun f => rfl⟩

end NorFlash

end Espbewi
