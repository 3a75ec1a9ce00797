import Espbewi.System.Update

/-! Power cuts during updates of the boot entries. -/

namespace Espbewi.System

open Lib Nor Boot Hw Otadata

variable {fb : Fibewi} {f g : Flash} {a : Nat} {e : fb.Entry}

/-- What a cut may leave of the sector at `a` while `entry` is written there. -/
structure SafeCut (fb : Fibewi) (a : Nat) (entry : fb.Entry) (f g : Flash) : Prop where
  outside : Elsewhere a f g
  decodes : fb.decode (Nor.read g a fb.ENTRY_SIZE) = none ∨
    fb.decode (Nor.read g a fb.ENTRY_SIZE) = fb.decode (Nor.read f a fb.ENTRY_SIZE) ∨
    fb.decode (Nor.read g a fb.ENTRY_SIZE) = some entry
  worn : fb.Worn (Nor.read g a fb.ENTRY_SIZE)

/-- An erase can only set bits of the old entry. -/
theorem SafeCut.of_erase (hdw : fb.DecodeWorn) (hworn : fb.Worn (Nor.read f a fb.ENTRY_SIZE))
    {hi : Nat} (hhi : hi ≤ a + 0x1000) (h : (Cmd.erase a hi).Torn f g) : SafeCut fb a e f g := by
  obtain ⟨e₀, he₀⟩ := hworn
  have hset : List.Forall₂ Within (Nor.read f a fb.ENTRY_SIZE) (Nor.read g a fb.ENTRY_SIZE) :=
    forall₂_read.mpr fun i _ => h.erase_within (a + i)
  refine ⟨fun x hx => h.of_not_covers fun hc => hx ⟨hc.1, Nat.lt_of_lt_of_le hc.2 hhi⟩, ?_,
    e₀, forall₂_within_trans he₀ hset⟩
  cases hd : fb.decode (Nor.read g a fb.ENTRY_SIZE) with
  | none => exact .inl rfl
  | some e' =>
    obtain ⟨rfl, hold⟩ := hdw _ _ _ _ he₀ hset hd
    exact .inr (.inl hold.symm)

/-- Programming the new entry never clears a bit the new entry has. -/
theorem SafeCut.of_within (hdw : fb.DecodeWorn)
    (hout : Elsewhere a f g)
    (h : List.Forall₂ Within (fb.encode e) (Nor.read g a fb.ENTRY_SIZE)) : SafeCut fb a e f g := by
  refine ⟨hout, ?_, e, h⟩
  cases hd : fb.decode (Nor.read g a fb.ENTRY_SIZE) with
  | none => exact .inl rfl
  | some e' =>
    obtain ⟨rfl, -⟩ := hdw _ _ _ _ (forall₂_within_refl _) h hd
    exact .inr (.inr rfl)

theorem SafeCut.throughout (hdw : fb.DecodeWorn) (hworn : fb.Worn (Nor.read f a fb.ENTRY_SIZE)) :
    Throughout fb a e f (SafeCut fb a e f) where
  erase hhi h := .of_erase hdw hworn hhi h
  program hin hf' h hg := .of_within hdw (elsewhere_throughout.program hin hf'.outside h hg)
    (forall₂_within_trans h (forall₂_read.mpr fun i _ => hg.within (a + i)))

end Espbewi.System
