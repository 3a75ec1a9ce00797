import Espbewi.Lib.Nor

/-! Filling a region of NOR flash sector by sector, with interruptions. -/

namespace Lib.Nor

/-- `f` with `l` in place of the bytes from `a` on. -/
def overwrite (f : Flash) (a : Nat) (l : List UInt8) : Flash :=
  fun x => if a ≤ x ∧ x < a + l.length then l.getD (x - a) 0 else f x

/-- The flash while `T` is filled in from `base` on: below `durable` it is there, outside of it
nothing has changed, and if `keep` no bit of it has been cleared anywhere. -/
structure Filling (base : Nat) (T : List UInt8) (keep : Prop) (f₀ : Flash) (durable : Nat) (f : Flash) :
    Prop where
  behind : durable ≤ T.length
  holds : ∀ i < durable, f (base + i) = T.getD i 0
  outside : ∀ x, ¬ (base ≤ x ∧ x < base + T.length) → f x = f₀ x
  clear : keep → ∀ i < T.length, Within (T.getD i 0) (f (base + i))

namespace Filling

variable {base : Nat} {T : List UInt8} {keep : Prop} {f₀ f f' : Flash} {durable q n : Nat}

theorem start (h : keep → ∀ x, base ≤ x → x < base + T.length → f x = 0xFF) :
    Filling base T keep f 0 f where
  behind := Nat.zero_le _
  holds _ hi := absurd hi (Nat.not_lt_zero _)
  outside _ _ := rfl
  clear hkeep i hi := by
    rw [h hkeep _ (by omega) (by omega)]
    exact within_ff _

theorem weaken (h : Filling base T keep f₀ durable f) (hle : q ≤ durable) : Filling base T keep f₀ q f :=
  { h with
    behind := Nat.le_trans hle h.behind
    holds := fun i hi => h.holds i (Nat.lt_of_lt_of_le hi hle) }

theorem eq_overwrite (h : Filling base T keep f₀ T.length f) : f = overwrite f₀ base T := by
  funext x
  by_cases hx : base ≤ x ∧ x < base + T.length
  · rw [overwrite, if_pos hx, ← h.holds (x - base) (by omega), Nat.add_sub_cancel' hx.1]
  · rw [overwrite, if_neg hx]
    exact h.outside x hx

/-- An erase cut short behind the durable part. -/
theorem erase_torn (h : Filling base T keep f₀ durable f) (hkeep : ¬ keep) (hq : durable ≤ q)
    (hfits : q + n ≤ T.length) (hf : (Cmd.erase (base + q) (base + q + n)).Torn f f') :
    Filling base T keep f₀ durable f' := by
  have hsame : ∀ x, ¬ (base + q ≤ x ∧ x < base + q + n) → f' x = f x := fun x hx => hf.of_not_covers hx
  refine ⟨h.behind, fun i hi => ?_, fun x hx => ?_, fun hk => absurd hk hkeep⟩
  · rw [hsame _ (by omega)]
    exact h.holds i hi
  · rw [hsame _ (by omega)]
    exact h.outside x hx

/-- The `n` bytes of `T` from `q` on are `data`, and then erased bytes. -/
structure Sector (T data : List UInt8) (q n : Nat) : Prop where
  room : data.length ≤ n
  fits : q + n ≤ T.length
  bytes : ∀ j < n, T.getD (q + j) 0 = data.getD j 0xFF

variable {data : List UInt8}

theorem program_apply {i : Nat} (hsector : Sector T data q n) (hlo : q ≤ i) (hhi : i < q + n)
    (hclear : Within (T.getD i 0) (f (base + i))) :
    (Cmd.program (base + q) data).apply f (base + i) = T.getD i 0 := by
  have hi := hsector.bytes (i - q) (by omega)
  rw [Nat.add_sub_cancel' hlo] at hi
  rw [Within, hi] at hclear
  simp only [Cmd.apply]
  rw [if_pos (by omega), show base + i - (base + q) = i - q by omega, hi, UInt8.and_comm]
  exact hclear

/-- A program cut short behind the durable part. -/
theorem program_torn (h : Filling base T keep f₀ durable f) (hq : durable ≤ q) (hsector : Sector T data q n)
    (hf : (Cmd.program (base + q) data).Torn f f') : Filling base T keep f₀ durable f' := by
  have hroom := hsector.room
  have hfits := hsector.fits
  have hsame : ∀ x, ¬ (base + q ≤ x ∧ x < base + q + data.length) → f' x = f x :=
    fun x hx => hf.of_not_covers hx
  refine ⟨h.behind, fun i hi => ?_, fun x hx => ?_, fun hkeep i hi => ?_⟩
  · rw [hsame _ (by omega)]
    exact h.holds i hi
  · rw [hsame _ (by omega)]
    exact h.outside x hx
  · have hclear := h.clear hkeep i hi
    by_cases hcovered : q ≤ i ∧ i < q + n
    · have hto := program_apply hsector hcovered.1 hcovered.2 hclear
      exact Mix.within hclear (hto ▸ Within.refl _) (hf (base + i))
    · rw [hsame _ (by omega)]
      exact hclear

/-- A program of the next sector, where no bit of it was cleared. -/
theorem program (h : Filling base T keep f₀ q f) (hsector : Sector T data q n)
    (hclear : ∀ i, q ≤ i → i < q + n → Within (T.getD i 0) (f (base + i)))
    (hf : f' = (Cmd.program (base + q) data).apply f) : Filling base T keep f₀ (q + n) f' := by
  have htorn := h.program_torn (Nat.le_refl q) hsector (hf ▸ Cmd.torn_apply _ _)
  refine { htorn with
    behind := hsector.fits
    holds := fun i hi => ?_ }
  by_cases hlt : i < q
  · exact htorn.holds i hlt
  · rw [hf]
    exact program_apply hsector (by omega) hi (hclear i (by omega) hi)

end Filling

end Lib.Nor
