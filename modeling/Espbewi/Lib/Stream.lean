import Espbewi.Lib.Nor
import Mathlib.Data.List.Pairwise

/-! Writing a stream into a region of NOR flash, behind an erase watermark. -/

namespace Lib.Nor

/-- `d` erases nothing that `c` programmed. -/
def Cmd.Spares (c d : Cmd) : Prop :=
  ∀ p data lo hi, c = .program p data → d = .erase lo hi → ∀ x, c.Covers x → ¬ d.Covers x

/-- The region `[base, base + size)` while the stream `S` is written to it: up to `erased` no
bit that `S` needs is cleared, and up to `durable` the region holds `S`. -/
structure Streaming (base size : Nat) (S : List UInt8) (s₀ : State) (erased durable : Nat) (s : State) :
    Prop where
  fits : erased ≤ size
  behind : durable ≤ erased
  outside : ∀ x, ¬ (base ≤ x ∧ x < base + size) → s.flash x = s₀.flash x
  clear : ∀ i < erased, ∀ h : i < S.length, Within S[i] (s.flash (base + i))
  holds : ∀ i < durable, ∀ h : i < S.length, s.flash (base + i) = S[i]
  log : ∃ log, s.log = s₀.log ++ log ∧ log.Pairwise Cmd.Spares ∧
    ∀ p data, .program p data ∈ log → p + data.length ≤ base + erased

/-- `data` is what `S` has from `q` on. Past the end of `S` it may be anything. -/
def Agrees (S : List UInt8) (q : Nat) (data : List UInt8) : Prop :=
  ∀ i (hd : i < data.length) (hS : q + i < S.length), data[i] = S[q + i]

theorem Agrees.drop {S data : List UInt8} {q : Nat} (h : Agrees S q data) (k : Nat) :
    Agrees S (q + k) (data.drop k) := by
  intro i hd hS
  rw [List.length_drop] at hd
  rw [List.getElem_drop, h (k + i) (by omega) (by omega)]
  congr 1
  omega

theorem Agrees.slice {S data : List UInt8} {q : Nat} (h : Agrees S q data) (k n : Nat) :
    Agrees S (q + k) ((data.drop k).take n) := by
  intro i hd hS
  rw [List.length_take] at hd
  rw [List.getElem_take, h.drop k i (by omega) hS]

theorem Agrees.append {S l m : List UInt8} {q : Nat} (hl : Agrees S q l)
    (hm : Agrees S (q + l.length) m) : Agrees S q (l ++ m) := by
  intro i hd hS
  rw [List.length_append] at hd
  by_cases hi : i < l.length
  · rw [List.getElem_append_left hi]
    exact hl i hi hS
  · rw [List.getElem_append_right (by omega), hm (i - l.length) (by omega) (by omega)]
    congr 1
    omega

theorem Agrees.append_of_le {S data : List UInt8} {q : Nat} (h : Agrees S q data)
    (hlast : S.length ≤ q + data.length) (tail : List UInt8) : Agrees S q (data ++ tail) := by
  intro i hd hS
  rw [List.getElem_append_left (by omega)]
  exact h i _ hS

namespace Streaming

variable {base size : Nat} {S : List UInt8} {s₀ s s' : State} {erased durable : Nat}

theorem start (base size : Nat) (S : List UInt8) (s : State) : Streaming base size S s 0 0 s where
  fits := Nat.zero_le _
  behind := Nat.le_refl _
  outside _ _ := rfl
  clear _ h := by cases h
  holds _ h := by cases h
  log := ⟨[], by simp, .nil, by simp⟩

theorem weaken (h : Streaming base size S s₀ erased durable s) {durable' : Nat}
    (hle : durable' ≤ durable) : Streaming base size S s₀ erased durable' s :=
  { h with
    behind := Nat.le_trans hle h.behind
    holds := fun i hi => h.holds i (Nat.lt_of_lt_of_le hi hle) }

/-- Outside the region the stream does not care. -/
theorem rebase (h : Streaming base size S s₀ erased durable s)
    (hsame : ∀ x, base ≤ x → x < base + size → s'.flash x = s.flash x) :
    Streaming base size S s' erased durable s' := by
  have hfits := h.fits
  have hbehind := h.behind
  refine ⟨hfits, hbehind, fun _ _ => rfl, fun i hi hS => ?_, fun i hi hS => ?_, [], by simp, .nil, by simp⟩
  · rw [hsame _ (by omega) (by omega)]
    exact h.clear i hi hS
  · rw [hsame _ (by omega) (by omega)]
    exact h.holds i hi hS

/-! ### Erasing ahead -/

section Erase

variable {lo hi : Nat}

theorem erase_log (h : Streaming base size S s₀ erased durable s) (hlo : base + erased ≤ lo)
    (hlog : s'.log = s.log ++ [.erase lo hi]) {erased' : Nat} (hle : erased ≤ erased') :
    ∃ log, s'.log = s₀.log ++ log ∧ log.Pairwise Cmd.Spares ∧
      ∀ p data, .program p data ∈ log → p + data.length ≤ base + erased' := by
  obtain ⟨log, heq, hspares, hbehind⟩ := h.log
  refine ⟨log ++ [.erase lo hi], by rw [hlog, heq, List.append_assoc], ?_, ?_⟩
  · refine List.pairwise_append.mpr ⟨hspares, List.pairwise_singleton .., fun c hc d hd => ?_⟩
    rw [List.mem_singleton.mp hd]
    rintro p data lo' hi' rfl hd x hx hx'
    have := hbehind p data hc
    simp only [Cmd.Covers, Cmd.lo, Cmd.hi] at hx hx'
    omega
  · intro p data hp
    rcases List.mem_append.mp hp with hp | hp
    · have := hbehind p data hp
      omega
    · cases List.mem_singleton.mp hp

theorem erase_torn (h : Streaming base size S s₀ erased durable s) (hlo : base + erased ≤ lo)
    (hhi : hi ≤ base + size) (hf : (Cmd.erase lo hi).Torn s.flash s'.flash)
    (hlog : s'.log = s.log ++ [.erase lo hi]) : Streaming base size S s₀ erased durable s' := by
  have hbehind := h.behind
  have hsame : ∀ x, ¬ (lo ≤ x ∧ x < hi) → s'.flash x = s.flash x := fun x hx => hf.of_not_covers hx
  refine ⟨h.fits, hbehind, fun x hx => ?_, fun i hi hS => ?_, fun i hi hS => ?_,
    h.erase_log hlo hlog (Nat.le_refl _)⟩
  · rw [hsame x (by omega)]
    exact h.outside x hx
  · rw [hsame _ (by omega)]
    exact h.clear i hi hS
  · rw [hsame _ (by omega)]
    exact h.holds i hi hS

/-- Erasing on from the watermark moves it. -/
theorem erase (h : Streaming base size S s₀ erased durable s) {erased' : Nat} (hle : erased ≤ erased')
    (hfits : erased' ≤ size) (hf : s'.flash = (Cmd.erase (base + erased) (base + erased')).apply s.flash)
    (hlog : s'.log = s.log ++ [.erase (base + erased) (base + erased')]) :
    Streaming base size S s₀ erased' durable s' := by
  have htorn := h.erase_torn (Nat.le_refl _) (by omega) (hf ▸ Cmd.torn_apply _ _) hlog
  refine { htorn with
    fits := hfits
    behind := Nat.le_trans htorn.behind hle
    clear := fun i hi hS => ?_
    log := h.erase_log (Nat.le_refl _) hlog hle }
  by_cases hi' : i < erased
  · exact htorn.clear i hi' hS
  · rw [hf]
    simp only [Cmd.apply]
    rw [if_pos (by omega)]
    exact within_ff _

end Erase

/-! ### Programming -/

section Program

variable {q : Nat} {data : List UInt8}

theorem program_apply (h : Streaming base size S s₀ erased durable s) (hagrees : Agrees S q data)
    (hin : q + data.length ≤ erased) {i : Nat} (hlo : q ≤ i) (hhi : i < q + data.length)
    (hS : i < S.length) : (Cmd.program (base + q) data).apply s.flash (base + i) = S[i] := by
  have hdata := hagrees (i - q) (by omega) (by omega)
  simp only [Cmd.apply]
  rw [if_pos (by omega), show base + i - (base + q) = i - q by omega,
    List.getD_eq_getElem _ _ (by omega), hdata, UInt8.and_comm]
  have hclear := h.clear i (by omega) hS
  rw [Within] at hclear
  simpa [show q + (i - q) = i by omega] using hclear

theorem program_log (h : Streaming base size S s₀ erased durable s)
    (hin : q + data.length ≤ erased) (hlog : s'.log = s.log ++ [.program (base + q) data]) :
    ∃ log, s'.log = s₀.log ++ log ∧ log.Pairwise Cmd.Spares ∧
      ∀ p data, .program p data ∈ log → p + data.length ≤ base + erased := by
  obtain ⟨log, heq, hspares, hbehind⟩ := h.log
  refine ⟨log ++ [.program (base + q) data], by rw [hlog, heq, List.append_assoc], ?_, ?_⟩
  · refine List.pairwise_append.mpr ⟨hspares, List.pairwise_singleton .., fun c _ d hd => ?_⟩
    rw [List.mem_singleton.mp hd]
    rintro p data lo hi - hd
    cases hd
  · intro p data' hp
    rcases List.mem_append.mp hp with hp | hp
    · exact hbehind p data' hp
    · cases List.mem_singleton.mp hp
      omega

/-- A program cut short clears only bits that `S` does not need. -/
theorem program_torn (h : Streaming base size S s₀ erased durable s) (hagrees : Agrees S q data)
    (hin : q + data.length ≤ erased) (hf : (Cmd.program (base + q) data).Torn s.flash s'.flash)
    (hlog : s'.log = s.log ++ [.program (base + q) data]) :
    Streaming base size S s₀ erased durable s' := by
  have hfits := h.fits
  have hbehind := h.behind
  have hsame : ∀ x, ¬ (base + q ≤ x ∧ x < base + q + data.length) → s'.flash x = s.flash x :=
    fun x hx => hf.of_not_covers hx
  refine ⟨hfits, hbehind, fun x hx => ?_, fun i hi hS => ?_, fun i hi hS => ?_, h.program_log hin hlog⟩
  · rw [hsame x (by omega)]
    exact h.outside x hx
  · by_cases hcovered : q ≤ i ∧ i < q + data.length
    · have := hf.program_within (base + i)
      rwa [h.program_apply hagrees hin hcovered.1 hcovered.2 hS] at this
    · rw [hsame _ (by omega)]
      exact h.clear i hi hS
  · by_cases hcovered : q ≤ i ∧ i < q + data.length
    · have := hf (base + i)
      rw [h.program_apply hagrees hin hcovered.1 hcovered.2 hS, h.holds i hi hS] at this
      exact this.eq
    · rw [hsame _ (by omega)]
      exact h.holds i hi hS

/-- A program from the durable watermark on moves it. -/
theorem program (h : Streaming base size S s₀ erased durable s) (hagrees : Agrees S durable data)
    (hin : durable + data.length ≤ erased)
    (hf : s'.flash = (Cmd.program (base + durable) data).apply s.flash)
    (hlog : s'.log = s.log ++ [.program (base + durable) data]) :
    Streaming base size S s₀ erased (durable + data.length) s' := by
  have htorn := h.program_torn hagrees hin (hf ▸ Cmd.torn_apply _ _) hlog
  refine { htorn with
    behind := hin
    holds := fun i hi hS => ?_ }
  by_cases hlt : i < durable
  · exact htorn.holds i hlt hS
  · rw [hf]
    exact h.program_apply hagrees hin (by omega) hi hS

end Program

end Streaming

end Lib.Nor
