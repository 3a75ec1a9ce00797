import Mathlib.Data.List.TakeDrop
import Mathlib.Tactic.Ring

/-! Masks, rounding, little-endian numbers, words, and whole chunks of a byte string. -/

namespace Lib

variable {α : Type}

/-! ### Masking -/

/-- Masking off the low `k` of `k + n` bits rounds down to a multiple of `2 ^ k`. -/
theorem land_high_bits {x k n : Nat} (hx : x < 2 ^ (k + n)) :
    x &&& (2 ^ n - 1) <<< k = x / 2 ^ k * 2 ^ k := by
  rw [← Nat.shiftRight_eq_div_pow, ← Nat.shiftLeft_eq]
  apply Nat.eq_of_testBit_eq
  intro i
  rw [Nat.testBit_and, Nat.testBit_shiftLeft, Nat.testBit_shiftLeft, Nat.testBit_shiftRight,
    Nat.testBit_two_pow_sub_one]
  by_cases hk : k ≤ i
  · rw [Nat.add_sub_cancel' hk]
    by_cases hn : i < k + n
    · simp [hk, show i - k < n by omega]
    · rw [Nat.testBit_lt_two_pow (Nat.lt_of_lt_of_le hx (Nat.pow_le_pow_right (by omega) (by omega)))]
      simp
  · simp [hk]

/-! ### Rounding up -/

/-- `n` rounded up to a multiple of `k`. -/
def roundUp (k n : Nat) : Nat := (n + k - 1) / k * k

section RoundUp

variable {k : Nat}

theorem dvd_roundUp (k n : Nat) : k ∣ roundUp k n := Nat.dvd_mul_left ..

theorem le_roundUp (hk : 0 < k) (n : Nat) : n ≤ roundUp k n := by
  have hdiv := Nat.div_add_mod (n + k - 1) k
  have hmod := Nat.mod_lt (n + k - 1) hk
  rw [Nat.mul_comm] at hdiv
  rw [roundUp]
  omega

theorem roundUp_lt (hk : 0 < k) (n : Nat) : roundUp k n < n + k := by
  have hdiv := Nat.div_add_mod (n + k - 1) k
  rw [Nat.mul_comm] at hdiv
  rw [roundUp]
  omega

theorem roundUp_mono (k : Nat) {m n : Nat} (h : m ≤ n) : roundUp k m ≤ roundUp k n :=
  Nat.mul_le_mul_right _ (Nat.div_le_div_right (by omega))

theorem roundUp_add (hk : 0 < k) {q : Nat} (hq : k ∣ q) (n : Nat) :
    roundUp k (q + n) = q + roundUp k n := by
  obtain ⟨m, rfl⟩ := hq
  rw [roundUp, roundUp, show k * m + n + k - 1 = k * m + (n + k - 1) by omega, Nat.mul_add_div hk,
    Nat.add_mul, Nat.mul_comm k]

theorem roundUp_of_dvd (hk : 0 < k) {n : Nat} (h : k ∣ n) : roundUp k n = n := by
  have := roundUp_add hk h 0
  rw [Nat.add_zero] at this
  rw [this, roundUp, Nat.zero_add, Nat.div_eq_of_lt (by omega), Nat.zero_mul, Nat.add_zero]

theorem roundUp_of_le {n : Nat} (hn : 0 < n) (h : n ≤ k) : roundUp k n = k := by
  rw [roundUp, show n + k - 1 = (n - 1) + k by omega, Nat.add_div_right _ (by omega),
    Nat.div_eq_of_lt (by omega), Nat.one_mul]

end RoundUp

/-! ### Little-endian numbers -/

def ofLe : List UInt8 → Nat
  | [] => 0
  | b :: bs => b.toNat + 256 * ofLe bs

def toLe : Nat → Nat → List UInt8
  | 0, _ => []
  | n + 1, x => UInt8.ofNat x :: toLe n (x / 256)

@[simp] theorem toLe_length (n x : Nat) : (toLe n x).length = n := by
  induction n generalizing x with
  | zero => rfl
  | succ n ih => simp [toLe, ih]

theorem ofLe_lt (bs : List UInt8) : ofLe bs < 256 ^ bs.length := by
  induction bs with
  | nil => simp [ofLe]
  | cons b bs ih =>
    have hb := b.toNat_lt
    simp only [ofLe, List.length_cons, pow_succ]
    omega

theorem ofLe_toLe {n x : Nat} (h : x < 256 ^ n) : ofLe (toLe n x) = x := by
  induction n generalizing x with
  | zero =>
    simp only [pow_zero, Nat.lt_one_iff] at h
    simp [toLe, ofLe, h]
  | succ n ih =>
    have hx : x / 256 < 256 ^ n := by
      rw [pow_succ] at h
      omega
    simp only [toLe, ofLe, ih hx, UInt8.toNat_ofNat']
    omega

theorem toLe_ofLe (bs : List UInt8) : toLe bs.length (ofLe bs) = bs := by
  induction bs with
  | nil => rfl
  | cons b bs ih =>
    have hb := b.toNat_lt
    simp only [List.length_cons, ofLe, toLe]
    rw [show (b.toNat + 256 * ofLe bs) / 256 = ofLe bs by omega, ih]
    congr 1
    apply UInt8.toNat_inj.mp
    rw [UInt8.toNat_ofNat']
    omega

/-! ### Words -/

instance lawfulOrderMaxUInt32 : Std.LawfulOrderMax UInt32 where
  max_le_iff a b c := by
    change (if a ≤ b then b else a) ≤ c ↔ _
    split
    · exact ⟨fun h => ⟨UInt32.le_trans ‹_› h, h⟩, And.right⟩
    · exact ⟨fun h => ⟨h, UInt32.le_trans (UInt32.le_of_lt (UInt32.not_le.mp ‹_›)) h⟩, And.left⟩
  max_eq_or a b := by
    change (if a ≤ b then b else a) = a ∨ (if a ≤ b then b else a) = b
    split
    · exact .inr rfl
    · exact .inl rfl

/-! ### Whole chunks -/

def chunks (n : Nat) : Nat → List α → List (List α)
  | 0, _ => []
  | k + 1, l => l.take n :: chunks n k (l.drop n)

/-- The chunks of length `n` from the front; a shorter rest is dropped. -/
def chunksExact (n : Nat) (l : List α) : List (List α) := chunks n (l.length / n) l

theorem chunks_flatten {n k : Nat} {l : List α} (h : l.length = k * n) :
    (chunks n k l).flatten = l := by
  induction k generalizing l with
  | zero =>
    rw [Nat.zero_mul, List.length_eq_zero_iff] at h
    simp [chunks, h]
  | succ k ih =>
    rw [chunks, List.flatten_cons, ih (by rw [List.length_drop, h, Nat.succ_mul]; omega),
      List.take_append_drop]

theorem length_of_mem_chunks {n k : Nat} {l c : List α} (h : l.length = k * n)
    (hc : c ∈ chunks n k l) : c.length = n := by
  induction k generalizing l with
  | zero => simp [chunks] at hc
  | succ k ih =>
    rw [Nat.succ_mul] at h
    rcases List.mem_cons.mp hc with rfl | hc
    · rw [List.length_take]
      omega
    · exact ih (by rw [List.length_drop]; omega) hc

theorem chunks_length (n k : Nat) (l : List α) : (chunks n k l).length = k := by
  induction k generalizing l with
  | zero => rfl
  | succ k ih => simp [chunks, ih]

/-- Reading chunks as numbers and writing the numbers back loses nothing. -/
theorem chunksExact_toLe {n : Nat} {l : List UInt8} (h : n ∣ l.length) :
    (chunksExact n l).flatMap (fun c => toLe n (ofLe c)) = l := by
  have hl : l.length = l.length / n * n := (Nat.div_mul_cancel h).symm
  calc (chunksExact n l).flatMap (fun c => toLe n (ofLe c))
      = (chunksExact n l).flatMap id := by
        rw [List.flatMap_def, List.flatMap_def]
        congr 1
        apply List.map_congr_left
        intro c hc
        have := length_of_mem_chunks hl hc
        rw [← this, toLe_ofLe, id]
    _ = l := by rw [List.flatMap_id, chunksExact, chunks_flatten hl]

end Lib
