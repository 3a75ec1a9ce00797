import Mathlib.Data.List.OfFn
import Mathlib.Data.List.GetD
import Mathlib.Data.List.Forall2
import Mathlib.Data.UInt

/-! NOR flash: erasing sets every bit of a range, programming clears bits, and a
command that stops part way leaves each bit as it was or as it was to become. -/

namespace Lib.Nor

/-! ### Bits of a byte -/

/-- Every bit set in `x` is set in `y`. -/
def Within (x y : UInt8) : Prop := x &&& y = x

/-- Every bit of `z` is the bit of `x` or the bit of `y`. -/
def Mix (x y z : UInt8) : Prop :=
  ∀ i, z.toBitVec.getLsbD i = x.toBitVec.getLsbD i ∨ z.toBitVec.getLsbD i = y.toBitVec.getLsbD i

theorem byte_ext {x y : UInt8} (h : ∀ i, x.toBitVec.getLsbD i = y.toBitVec.getLsbD i) : x = y :=
  UInt8.eq_of_toBitVec_eq (BitVec.eq_of_getLsbD_eq fun i _ => h i)

@[simp] theorem and_getLsbD (x y : UInt8) (i : Nat) :
    (x &&& y).toBitVec.getLsbD i = (x.toBitVec.getLsbD i && y.toBitVec.getLsbD i) := by
  simp

theorem ff_getLsbD (i : Nat) : (0xFF : UInt8).toBitVec.getLsbD i = decide (i < 8) := by
  rw [show (0xFF : UInt8).toBitVec = BitVec.allOnes 8 from rfl, BitVec.getLsbD_allOnes]

@[simp] theorem and_ff (x : UInt8) : x &&& 0xFF = x := by
  apply byte_ext
  intro i
  rw [and_getLsbD, ff_getLsbD]
  by_cases h : i < 8
  · simp [h]
  · rw [BitVec.getLsbD_of_ge x.toBitVec i (by omega)]
    rfl

@[simp] theorem ff_and (x : UInt8) : 0xFF &&& x = x := by
  rw [UInt8.and_comm, and_ff]

theorem Mix.left (x y : UInt8) : Mix x y x := fun _ => .inl rfl

theorem Mix.right (x y : UInt8) : Mix x y y := fun _ => .inr rfl

theorem Mix.eq {x z : UInt8} (h : Mix x x z) : z = x :=
  byte_ext fun i => (h i).elim id id

theorem within_iff {x y : UInt8} :
    Within x y ↔ ∀ i, x.toBitVec.getLsbD i = true → y.toBitVec.getLsbD i = true := by
  constructor
  · intro h i hx
    have hi := congrArg (fun b : UInt8 => b.toBitVec.getLsbD i) h
    simpa [hx] using hi
  · intro h
    apply byte_ext
    intro i
    rw [and_getLsbD]
    cases hx : x.toBitVec.getLsbD i with
    | false => rfl
    | true => rw [h i hx]; rfl

theorem Within.refl (x : UInt8) : Within x x := UInt8.and_self

theorem Within.trans {x y z : UInt8} (hxy : Within x y) (hyz : Within y z) : Within x z := by
  rw [within_iff] at *
  exact fun i hx => hyz i (hxy i hx)

theorem Within.antisymm {x y : UInt8} (hxy : Within x y) (hyx : Within y x) : x = y := by
  rw [Within] at *
  rw [← hxy, UInt8.and_comm, hyx]

theorem within_ff (x : UInt8) : Within x 0xFF := and_ff x

theorem and_within (x d : UInt8) : Within (x &&& d) x := by
  rw [within_iff]
  intro i h
  simp only [and_getLsbD, Bool.and_eq_true] at h
  exact h.1

/-- Bits both ends of a transition have are kept on the way. -/
theorem Mix.within {w x y z : UInt8} (hx : Within w x) (hy : Within w y) (h : Mix x y z) :
    Within w z := by
  rw [within_iff] at *
  intro i hw
  rcases h i with h | h
  · rw [h, hx i hw]
  · rw [h, hy i hw]

theorem forall₂_of_append {α β : Type} {R : α → β → Prop} {l l' : List α} {m m' : List β}
    (hlen : l.length = m.length) (h : List.Forall₂ R (l ++ l') (m ++ m')) :
    List.Forall₂ R l m ∧ List.Forall₂ R l' m' := by
  have htake := List.forall₂_take m.length h
  have hdrop := List.forall₂_drop m.length h
  rw [List.take_left' hlen, List.take_left] at htake
  rw [List.drop_left' hlen, List.drop_left] at hdrop
  exact ⟨htake, hdrop⟩

theorem forall₂_within_refl (l : List UInt8) : List.Forall₂ Within l l :=
  List.forall₂_same.mpr fun x _ => Within.refl x

theorem forall₂_within_trans {l m n : List UInt8} (h : List.Forall₂ Within l m)
    (h' : List.Forall₂ Within m n) : List.Forall₂ Within l n := by
  induction h generalizing n with
  | nil => exact h'
  | cons hab _ ih =>
    cases h' with
    | cons hbc hrest => exact .cons (hab.trans hbc) (ih hrest)

theorem forall₂_within_antisymm {l m : List UInt8} (h : List.Forall₂ Within l m)
    (h' : List.Forall₂ Within m l) : l = m := by
  induction h with
  | nil => rfl
  | cons hab _ ih =>
    cases h' with
    | cons hba hrest => rw [hab.antisymm hba, ih hrest]

/-! ### Flash content -/

abbrev Flash := Nat → UInt8

def read (f : Flash) (a n : Nat) : List UInt8 := List.ofFn fun i : Fin n => f (a + i)

@[simp] theorem read_length (f : Flash) (a n : Nat) : (read f a n).length = n := by
  simp [read]

@[simp] theorem read_getElem (f : Flash) (a n i : Nat) (h : i < (read f a n).length) :
    (read f a n)[i] = f (a + i) := by
  simp [read]

@[simp] theorem read_zero (f : Flash) (a : Nat) : read f a 0 = [] := rfl

theorem read_eq_iff {f g : Flash} {a n : Nat} :
    read f a n = read g a n ↔ ∀ i < n, f (a + i) = g (a + i) := by
  rw [read, read, List.ofFn_inj]
  constructor
  · intro h i hi
    exact congrFun h ⟨i, hi⟩
  · intro h
    funext i
    exact h i i.isLt

theorem read_eq_list {f : Flash} {a : Nat} {l : List UInt8} (h : ∀ i, (hi : i < l.length) → f (a + i) = l[i]) :
    read f a l.length = l := by
  apply List.ext_getElem (by simp)
  intro i h₁ h₂
  rw [read_getElem, h i h₂]

theorem read_append (f : Flash) (a m n : Nat) :
    read f a m ++ read f (a + m) n = read f a (m + n) := by
  apply List.ext_getElem (by simp)
  intro i h₁ h₂
  rw [List.getElem_append]
  split
  · simp
  · rename_i h
    rw [read_length, not_lt] at h
    rw [read_getElem, read_getElem, read_length]
    congr 1
    omega

theorem read_drop_take {f : Flash} {a n k m : Nat} (h : k + m ≤ n) :
    ((read f a n).drop k).take m = read f (a + k) m := by
  apply List.ext_getElem
  · simp
    omega
  · intro i h₁ h₂
    simp [Nat.add_assoc]

/-! ### Commands -/

inductive Cmd
  | erase (lo hi : Nat)
  | program (start : Nat) (data : List UInt8)
  deriving DecidableEq

def Cmd.lo : Cmd → Nat
  | .erase lo _ => lo
  | .program p _ => p

def Cmd.hi : Cmd → Nat
  | .erase _ hi => hi
  | .program p data => p + data.length

/-- The command touches address `a`. -/
def Cmd.Covers (c : Cmd) (a : Nat) : Prop := c.lo ≤ a ∧ a < c.hi

instance (c : Cmd) (a : Nat) : Decidable (c.Covers a) := inferInstanceAs (Decidable (_ ∧ _))

/-- What the command does when it completes. -/
def Cmd.apply : Cmd → Flash → Flash
  | .erase lo hi, f => fun a => if lo ≤ a ∧ a < hi then 0xFF else f a
  | .program p data, f => fun a => if p ≤ a then f a &&& data.getD (a - p) 0xFF else f a

/-- What the command may leave behind when it stops part way. -/
def Cmd.Torn (c : Cmd) (f g : Flash) : Prop := ∀ a, Mix (f a) (c.apply f a) (g a)

theorem Cmd.apply_of_not_covers {c : Cmd} {f : Flash} {a : Nat} (h : ¬ c.Covers a) :
    c.apply f a = f a := by
  cases c with
  | erase lo hi => exact if_neg h
  | program p data =>
    simp only [Cmd.Covers, Cmd.lo, Cmd.hi, not_and, not_lt] at h
    simp only [Cmd.apply]
    split
    · rw [List.getD_eq_default _ _ (by have := h ‹_›; omega), and_ff]
    · rfl

theorem Cmd.torn_apply (c : Cmd) (f : Flash) : c.Torn f (c.apply f) := fun _ => Mix.right _ _

theorem Cmd.torn_self (c : Cmd) (f : Flash) : c.Torn f f := fun _ => Mix.left _ _

/-- The command got as far as `n`. -/
theorem Cmd.torn_until (c : Cmd) (f : Flash) (n : Nat) : c.Torn f fun a => if a < n then c.apply f a else f a := by
  intro a
  simp only
  split
  · exact Mix.right _ _
  · exact Mix.left _ _

theorem Cmd.Torn.of_not_covers {c : Cmd} {f g : Flash} {a : Nat} (h : c.Torn f g)
    (ha : ¬ c.Covers a) : g a = f a := by
  have := h a
  rw [Cmd.apply_of_not_covers ha] at this
  exact this.eq

/-- Erasing sets bits. -/
theorem Cmd.Torn.erase_within {lo hi : Nat} {f g : Flash} (h : (Cmd.erase lo hi).Torn f g) (a : Nat) :
    Within (f a) (g a) := by
  refine (h a).within (Within.refl _) ?_
  simp only [Cmd.apply]
  split
  · exact within_ff _
  · exact Within.refl _

theorem Cmd.apply_program_within (p : Nat) (data : List UInt8) (f : Flash) (a : Nat) :
    Within ((Cmd.program p data).apply f a) (f a) := by
  simp only [Cmd.apply]
  split
  · exact and_within _ _
  · exact Within.refl _

/-- Programming clears no bit that the complete program keeps. -/
theorem Cmd.Torn.program_within {p : Nat} {data : List UInt8} {f g : Flash}
    (h : (Cmd.program p data).Torn f g) (a : Nat) :
    Within ((Cmd.program p data).apply f a) (g a) :=
  (h a).within (Cmd.apply_program_within p data f a) (Within.refl _)

@[simp] theorem Cmd.apply_program_nil (p : Nat) (f : Flash) : (Cmd.program p []).apply f = f := by
  funext a
  simp [Cmd.apply]

/-- Programming in two pieces is programming at once. -/
theorem Cmd.apply_program_append (p : Nat) (l m : List UInt8) (f : Flash) :
    (Cmd.program (p + l.length) m).apply ((Cmd.program p l).apply f) =
      (Cmd.program p (l ++ m)).apply f := by
  funext a
  simp only [Cmd.apply]
  by_cases hp : p ≤ a
  · rw [if_pos hp, if_pos hp]
    by_cases hl : a - p < l.length
    · rw [if_neg (by omega), List.getD_append _ _ _ _ hl]
    · rw [if_pos (by omega), List.getD_eq_default l _ (by omega), and_ff,
        List.getD_append_right _ _ _ _ (by omega)]
      congr 2
      omega
  · rw [if_neg hp, if_neg hp, if_neg (by omega)]

/-- The bytes `data` programmed over `raw` from index `offset` on. -/
def overlay (raw : List UInt8) (offset : Nat) (data : List UInt8) : List UInt8 :=
  List.ofFn fun i : Fin raw.length =>
    raw[i] &&& if offset ≤ i then data.getD (i - offset) 0xFF else 0xFF

@[simp] theorem overlay_length (raw : List UInt8) (offset : Nat) (data : List UInt8) :
    (overlay raw offset data).length = raw.length := by
  simp [overlay]

theorem overlay_blank (pre data post : List UInt8) :
    overlay (pre ++ List.replicate data.length 0xFF ++ post) pre.length data = pre ++ data ++ post := by
  apply List.ext_getElem (by simp)
  intro i h₁ h₂
  simp only [overlay_length, List.length_append, List.length_replicate] at h₁
  simp only [overlay, List.getElem_ofFn, Fin.getElem_fin]
  by_cases hpre : i < pre.length
  · rw [if_neg (by omega), and_ff, List.getElem_append_left (by simp; omega),
      List.getElem_append_left hpre, List.getElem_append_left (by simp; omega),
      List.getElem_append_left hpre]
  · rw [if_pos (by omega)]
    by_cases hdata : i < pre.length + data.length
    · rw [List.getElem_append_left (by simp; omega), List.getElem_append_right (by omega),
        List.getElem_replicate, ff_and, List.getElem_append_left (by simp; omega),
        List.getElem_append_right (by omega), List.getD_eq_getElem]
    · rw [List.getD_eq_default _ _ (by omega), and_ff, List.getElem_append_right (by simp; omega),
        List.getElem_append_right (by simp; omega)]
      congr 1
      simp

theorem overlay_within (raw : List UInt8) (offset : Nat) (data : List UInt8) :
    List.Forall₂ Within (overlay raw offset data) raw := by
  rw [List.forall₂_iff_get]
  refine ⟨overlay_length raw offset data, fun i h₁ h₂ => ?_⟩
  simp only [overlay, List.get_eq_getElem, List.getElem_ofFn, Fin.getElem_fin]
  exact and_within _ _

theorem read_program (f : Flash) (a offset n : Nat) (data : List UInt8) :
    read ((Cmd.program (a + offset) data).apply f) a n = overlay (read f a n) offset data := by
  apply List.ext_getElem (by simp)
  intro i h₁ h₂
  simp only [overlay, read_getElem, Cmd.apply, List.getElem_ofFn, Fin.getElem_fin]
  by_cases h : offset ≤ i
  · rw [if_pos (by omega), if_pos h, show a + i - (a + offset) = i - offset by omega]
  · rw [if_neg (by omega), if_neg h, and_ff]

theorem forall₂_read {R : UInt8 → UInt8 → Prop} {f g : Flash} {a n : Nat} :
    List.Forall₂ R (read f a n) (read g a n) ↔ ∀ i < n, R (f (a + i)) (g (a + i)) := by
  rw [List.forall₂_iff_get]
  simp only [read_length, List.get_eq_getElem, read_getElem]
  constructor
  · intro h i hi
    exact h.2 i hi hi
  · intro h
    exact ⟨trivial, fun i hi _ => h i hi⟩

theorem read_erase {f : Flash} {lo hi a n : Nat} (hlo : lo ≤ a) (hhi : a + n ≤ hi) :
    read ((Cmd.erase lo hi).apply f) a n = List.replicate n 0xFF := by
  apply List.ext_getElem (by simp)
  intro i h₁ h₂
  have hi' : i < n := by simpa using h₁
  rw [read_getElem]
  simp only [Cmd.apply, List.getElem_replicate]
  rw [if_pos (by omega)]

/-! ### The flash with its faults

A `Behaviour` decides, from the commands issued before, how the next command ends
and what it leaves, and whether the next read succeeds. -/

structure State where
  flash : Flash
  log : List Cmd
  reads : Nat

structure Behaviour where
  cmd : List Cmd → Flash → Cmd → Bool × Flash
  read : List Cmd → Nat → Bool

def Behaviour.issue (b : Behaviour) (s : State) (c : Cmd) : Bool × State :=
  ((b.cmd s.log s.flash c).1,
    { s with flash := (b.cmd s.log s.flash c).2, log := s.log ++ [c] })

def Behaviour.fetch (b : Behaviour) (s : State) (a n : Nat) : Option (Fin n → UInt8) × State :=
  (if b.read s.log s.reads then some (fun i => s.flash (a + i)) else none,
    { s with reads := s.reads + 1 })

/-- A command that reports success was carried out; one that reports failure was
carried out in any part. -/
structure Behaviour.Honest (b : Behaviour) : Prop where
  done : ∀ log f c, (b.cmd log f c).1 = true → (b.cmd log f c).2 = c.apply f
  torn : ∀ log f c, (b.cmd log f c).1 = false → c.Torn f (b.cmd log f c).2

/-- Every command succeeds. -/
def Behaviour.Reliable (b : Behaviour) : Prop := ∀ log f c, (b.cmd log f c).1 = true

/-- Every read succeeds. -/
def Behaviour.Readable (b : Behaviour) : Prop := ∀ log n, b.read log n = true

/-- Flash without faults. -/
def perfect : Behaviour where
  cmd _ f c := (true, c.apply f)
  read _ _ := true

theorem perfect_honest : perfect.Honest where
  done _ _ _ _ := rfl
  torn _ _ _ h := by cases h

theorem perfect_reliable : perfect.Reliable := fun _ _ _ => rfl

theorem perfect_readable : perfect.Readable := fun _ _ => rfl

end Lib.Nor
