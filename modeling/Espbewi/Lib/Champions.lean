import Mathlib.Data.List.Induction
import Mathlib.Data.List.Nodup
import Mathlib.Order.Lattice

/-! The first element of highest rank for each key of a list. -/

namespace Lib

variable {α κ ρ : Type} [LinearOrder ρ] (key : α → κ) (rank : α → ρ)

/-- Of the elements of `xs` with its key, `x` is the first of the highest rank. -/
def Champion (xs : List α) (x : α) : Prop :=
  ∃ pre post, xs = pre ++ x :: post ∧ (∀ y ∈ pre, key y = key x → rank y < rank x) ∧
    ∀ y ∈ post, key y = key x → rank y ≤ rank x

variable {key rank} {x z : α} {xs xs' ys : List α}

theorem Champion.mem (h : Champion key rank xs x) : x ∈ xs := by
  obtain ⟨pre, post, rfl, -, -⟩ := h
  simp

theorem Champion.rank_le (h : Champion key rank xs x) (hz : z ∈ xs) (hkey : key z = key x) :
    rank z ≤ rank x := by
  obtain ⟨pre, post, rfl, hpre, hpost⟩ := h
  rcases List.mem_append.mp hz with hz | hz
  · exact le_of_lt (hpre z hz hkey)
  · rcases List.mem_cons.mp hz with rfl | hz
    · exact le_refl _
    · exact hpost z hz hkey

/-- The champion of a list that was filtered and mapped, in the list it came from. -/
theorem Champion.of_filterMap {β : Type} {f : β → Option α} {l : List β}
    (h : Champion key rank (l.filterMap f) x) : ∃ pre b post, l = pre ++ b :: post ∧ f b = some x ∧
      (∀ b' ∈ pre, ∀ y, f b' = some y → key y = key x → rank y < rank x) ∧
      ∀ b' ∈ post, ∀ y, f b' = some y → key y = key x → rank y ≤ rank x := by
  obtain ⟨pre, post, heq, hpre, hpost⟩ := h
  obtain ⟨l₁, l₂, rfl, rfl, h₂⟩ := List.filterMap_eq_append_iff.mp heq
  obtain ⟨l₃, b, l₄, rfl, hnone, hb, rfl⟩ := List.filterMap_eq_cons_iff.mp h₂
  refine ⟨l₁ ++ l₃, b, l₄, (List.append_assoc ..).symm, hb, fun b' hb' y hy => ?_, fun b' hb' y hy => ?_⟩
  · rcases List.mem_append.mp hb' with hb' | hb'
    · exact hpre y (List.mem_filterMap.mpr ⟨b', hb', hy⟩)
    · rw [hnone b' hb'] at hy
      cases hy
  · exact hpost y (List.mem_filterMap.mpr ⟨b', hb', hy⟩)

variable [DecidableEq κ] (key rank)

/-- The entry of the key of `x` gives way if its rank is lower; a new key goes to the end. -/
def challenge (x : α) : List α → List α
  | [] => [x]
  | y :: ys => if key y = key x then (if rank x ≤ rank y then y else x) :: ys else y :: challenge x ys

def champions (xs : List α) : List α := xs.foldl (fun ys x => challenge key rank x ys) []

variable {key rank}

theorem keys_challenge : (challenge key rank x ys).map key =
    if key x ∈ ys.map key then ys.map key else ys.map key ++ [key x] := by
  induction ys with
  | nil => rfl
  | cons y ys ih =>
    unfold challenge
    by_cases hkey : key y = key x
    · have hmem : key x ∈ (y :: ys).map key := List.mem_map.mpr ⟨y, List.mem_cons_self, hkey⟩
      rw [if_pos hkey, if_pos hmem, List.map_cons, List.map_cons]
      congr 1
      split
      · rfl
      · exact hkey.symm
    · rw [if_neg hkey, List.map_cons, ih, List.map_cons]
      by_cases hmem : key x ∈ ys.map key
      · rw [if_pos hmem, if_pos (List.mem_cons_of_mem _ hmem)]
      · rw [if_neg hmem, if_neg (by simp [hmem, Ne.symm hkey])]
        rfl

/-- What stays has a key of its own or a rank that is not exceeded; what comes exceeds the rank that
its key had. -/
theorem mem_challenge (hys : (ys.map key).Nodup) (h : z ∈ challenge key rank x ys) :
    (z ∈ ys ∧ (key z = key x → rank x ≤ rank z)) ∨ (z = x ∧ ∀ y ∈ ys, key y = key x → rank y < rank x) := by
  induction ys with
  | nil => exact .inr ⟨List.mem_singleton.mp h, by simp⟩
  | cons y ys ih =>
    rw [List.map_cons, List.nodup_cons] at hys
    unfold challenge at h
    split at h
    · next hkey =>
      have hothers : ∀ y' ∈ ys, key y' ≠ key x := by
        intro y' hy' heq
        exact hys.1 (List.mem_map.mpr ⟨y', hy', heq.trans hkey.symm⟩)
      rcases List.mem_cons.mp h with rfl | hz
      · split
        · next hle => exact .inl ⟨List.mem_cons_self, fun _ => hle⟩
        · next hlt =>
          refine .inr ⟨rfl, fun y' hy' hkey' => ?_⟩
          rcases List.mem_cons.mp hy' with rfl | hy'
          · exact lt_of_not_ge hlt
          · exact absurd hkey' (hothers y' hy')
      · exact .inl ⟨List.mem_cons_of_mem _ hz, fun heq => absurd heq (hothers z hz)⟩
    · next hkey =>
      rcases List.mem_cons.mp h with rfl | hz
      · exact .inl ⟨List.mem_cons_self, fun heq => absurd heq hkey⟩
      · rcases ih hys.2 hz with ⟨hz, hle⟩ | ⟨rfl, hlt⟩
        · exact .inl ⟨List.mem_cons_of_mem _ hz, hle⟩
        · refine .inr ⟨rfl, fun y' hy' hkey' => ?_⟩
          rcases List.mem_cons.mp hy' with rfl | hy'
          · exact absurd hkey' hkey
          · exact hlt y' hy' hkey'

/-- The keys in order of first appearance, each with its champion. -/
structure Ranked (key : α → κ) (rank : α → ρ) (xs ys : List α) : Prop where
  keys : ys.map key = (xs.map key).eraseDups
  nodup : (ys.map key).Nodup
  champion : ∀ y ∈ ys, Champion key rank xs y

theorem Ranked.mem_keys (h : Ranked key rank xs ys) {k : κ} : k ∈ ys.map key ↔ k ∈ xs.map key := by
  rw [h.keys, List.mem_eraseDups]

theorem Ranked.snoc (h : Ranked key rank xs ys) (x : α) :
    Ranked key rank (xs ++ [x]) (challenge key rank x ys) where
  keys := by
    rw [keys_challenge, List.map_append, List.eraseDups_append, ← h.keys]
    by_cases hmem : key x ∈ xs.map key
    · rw [if_pos (h.mem_keys.mpr hmem)]
      rw [List.mem_map] at hmem
      simp [List.removeAll, hmem]
    · rw [if_neg (h.mem_keys.not.mpr hmem)]
      rw [List.mem_map] at hmem
      simp [List.removeAll, List.eraseDups_cons, hmem]
  nodup := by
    rw [keys_challenge]
    split
    · exact h.nodup
    · next hmem => exact List.nodup_append.mpr ⟨h.nodup, List.nodup_singleton _, by simpa using hmem⟩
  champion z hz := by
    rcases mem_challenge h.nodup hz with ⟨hz, hle⟩ | ⟨rfl, hlt⟩
    · obtain ⟨pre, post, rfl, hpre, hpost⟩ := h.champion z hz
      refine ⟨pre, post ++ [x], by simp, hpre, fun y hy hkey => ?_⟩
      rcases List.mem_append.mp hy with hy | hy
      · exact hpost y hy hkey
      · rw [List.mem_singleton.mp hy] at hkey ⊢
        exact hle hkey.symm
    · refine ⟨xs, [], rfl, fun w hw hkey => ?_, by simp⟩
      obtain ⟨y, hy, hkeyy⟩ := List.mem_map.mp (h.mem_keys.mpr (List.mem_map_of_mem hw))
      exact lt_of_le_of_lt ((h.champion y hy).rank_le hw hkeyy.symm) (hlt y hy (hkeyy.trans hkey))

theorem champions_ranked (xs : List α) : Ranked key rank xs (champions key rank xs) := by
  induction xs using List.reverseRecOn with
  | nil => exact ⟨rfl, List.nodup_nil, by simp [champions]⟩
  | append_singleton xs x ih =>
    rw [champions, List.foldl_append]
    exact ih.snoc x

/-- The order of the elements does not matter for the rank that a key gets. -/
theorem mem_champions_perm (h : xs.Perm xs') (p : κ × ρ) :
    p ∈ (champions key rank xs).map (fun x => (key x, rank x)) ↔
      p ∈ (champions key rank xs').map fun x => (key x, rank x) := by
  have hone : ∀ {xs xs' : List α}, xs.Perm xs' → p ∈ (champions key rank xs).map (fun x => (key x, rank x)) →
      p ∈ (champions key rank xs').map fun x => (key x, rank x) := by
    intro xs xs' h hp
    obtain ⟨y, hy, rfl⟩ := List.mem_map.mp hp
    have hranked : Ranked key rank xs (champions key rank xs) := champions_ranked xs
    have hranked' : Ranked key rank xs' (champions key rank xs') := champions_ranked xs'
    have hchampion := hranked.champion y hy
    obtain ⟨y', hy', hkey⟩ := List.mem_map.mp (hranked'.mem_keys.mpr
      (List.mem_map_of_mem (h.mem_iff.mp hchampion.mem)))
    have hchampion' := hranked'.champion y' hy'
    have hrank : rank y' = rank y := le_antisymm
      (hchampion.rank_le (h.mem_iff.mpr hchampion'.mem) hkey)
      (hchampion'.rank_le (h.mem_iff.mp hchampion.mem) hkey.symm)
    exact List.mem_map.mpr ⟨y', hy', by rw [hkey, hrank]⟩
  exact ⟨hone h, hone h.symm⟩

end Lib
