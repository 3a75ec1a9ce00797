import Mathlib.Data.List.Basic

/-! A flag that some steps of a history lower and others raise. -/

namespace Lib.Latch

variable {ε : Type} (next : Bool → ε → Bool) (lowers raises : ε → Prop)

def after (b : Bool) (h : List ε) : Bool := h.foldl next b

/-- A step that lowers is seen until one raises, a step that raises is seen, and no other step
lowers the flag. -/
structure Tracks (b : Bool) (h : List ε) : Prop where
  low : ∀ pre m mid post, h = pre ++ m :: (mid ++ post) → lowers m → (∀ r ∈ mid, ¬ raises r) →
    after next b (pre ++ m :: mid) = false
  high : ∀ pre m post, h = pre ++ m :: post → raises m → after next b (pre ++ [m]) = true
  only : ∀ pre m post, h = pre ++ m :: post → after next b pre = true →
    after next b (pre ++ [m]) = false → lowers m

/-- What a step may do to the flag. That one which lowers does so is left open. -/
structure Lawful : Prop where
  high : ∀ b m, raises m → next b m = true
  rise : ∀ m, next false m = true → raises m
  fall : ∀ m, next true m = false → lowers m

variable {next lowers raises} {b : Bool} {h : List ε}

@[simp] theorem after_nil : after next b [] = b := rfl

@[simp] theorem after_cons (m : ε) : after next b (m :: h) = after next (next b m) h := rfl

@[simp] theorem after_append (h' : List ε) : after next b (h ++ h') = after next (after next b h) h' :=
  List.foldl_append

theorem Lawful.after_low (law : Lawful next lowers raises) (hnone : ∀ r ∈ h, ¬ raises r) :
    after next false h = false := by
  induction h with
  | nil => rfl
  | cons m h ih =>
    have hm : next false m = false := by
      rw [← Bool.not_eq_true]
      exact fun hrise => hnone m List.mem_cons_self (law.rise m hrise)
    rw [after_cons, hm]
    exact ih fun r hr => hnone r (List.mem_cons_of_mem _ hr)

theorem Lawful.tracks_iff (law : Lawful next lowers raises) : Tracks next lowers raises b h ↔
    ∀ pre m post, h = pre ++ m :: post → lowers m → next (after next b pre) m = false := by
  constructor
  · intro htracks pre m post hsplit hm
    have hlow := htracks.low pre m [] post hsplit hm (by simp)
    simpa using hlow
  · intro hall
    refine ⟨?_, ?_, ?_⟩
    · intro pre m mid post hsplit hm hmid
      rw [after_append, after_cons, hall pre m _ hsplit hm]
      exact law.after_low hmid
    · intro pre m post _ hm
      rw [after_append]
      exact law.high _ _ hm
    · intro pre m post _ htrue hfalse
      rw [after_append, htrue] at hfalse
      exact law.fall m hfalse

end Lib.Latch
