import Espbewi.Lib.Prog
import Espbewi.Lib.Nor

/-! What flash content a power cut can leave, at any point of a run. -/

namespace Lib.Nor

variable {Op : Type} {Ans : Op → Type} {α β : Type}

/-- The content a cut leaves when it falls on the operation `o` with the flash at `f`. -/
def Cut (cmd? : Op → Option Cmd) (o : Op) (f g : Flash) : Prop :=
  match cmd? o with
  | some c => c.Torn f g
  | none => g = f

/-- `g` can be found in the flash when power is lost before, during or after some
operation of the run, or after the run. -/
def CutPoint (cmd? : Op → Option Cmd) (d : Device Op Ans State) (p : Prog Op Ans α) (s : State)
    (g : Flash) : Prop :=
  (∃ s' o, p.Issues d s s' o ∧ Cut cmd? o s'.flash g) ∨ g = (p.run d s).2.flash

def cutGuard (cmd? : Op → Option Cmd) (C : Flash → Prop) : State → Op → Prop :=
  fun s o => ∀ g, Cut cmd? o s.flash g → C g

theorem cutPoint_of_wp {cmd? : Op → Option Cmd} {C : Flash → Prop} {d : Device Op Ans State}
    {p : Prog Op Ans α} {s : State} {g : Flash}
    (h : p.wp d (cutGuard cmd? C) (fun _ s' => C s'.flash) s) (hg : CutPoint cmd? d p s g) : C g := by
  obtain ⟨hissues, hend⟩ := (Prog.wp_iff ..).mp h
  rcases hg with ⟨s', o, ho, hcut⟩ | rfl
  · exact hissues s' o ho g hcut
  · exact hend

theorem wp_cutGuard_mono {cmd? : Op → Option Cmd} {C D : Flash → Prop} {d : Device Op Ans State}
    {p : Prog Op Ans α} {Q : α → State → Prop} {s : State} (h : ∀ g, C g → D g)
    (hp : p.wp d (cutGuard cmd? C) Q s) : p.wp d (cutGuard cmd? D) Q s :=
  Prog.wp_guard_mono (fun _ _ hC g hg => h g (hC g hg)) hp

theorem cutGuard_of_none {cmd? : Op → Option Cmd} {C : Flash → Prop} {s : State} {o : Op}
    (h : cmd? o = none) (hC : C s.flash) : cutGuard cmd? C s o := by
  intro g hg
  rw [Cut, h] at hg
  subst hg
  exact hC

theorem cutGuard_of_some {cmd? : Op → Option Cmd} {C : Flash → Prop} {s : State} {o : Op} {c : Cmd}
    (h : cmd? o = some c) (hC : ∀ g, c.Torn s.flash g → C g) : cutGuard cmd? C s o := by
  intro g hg
  rw [Cut, h] at hg
  exact hC g hg

end Lib.Nor
