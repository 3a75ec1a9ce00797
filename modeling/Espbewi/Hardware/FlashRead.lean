import Espbewi.Hardware.Rom

/-! What `flash_read` asks of the ROM and leaves in its buffer, read by read. -/

namespace Espbewi.Hw

open Lib Nor Prog

/-- The ROM read succeeded. -/
def Answered : Event HwOp HwOp.Ans → Prop
  | ⟨.spiflashRead .., window⟩ => window.isSome = true
  | _ => True

/-- A read of whole aligned words that fits the window of 64 words and stays in the words
that the bytes `[offset, offset + len)` lie in. -/
def InWindow (offset : UInt32) (len : Nat) (ev : Event HwOp HwOp.Ans) : Prop :=
  ∃ src n, ev.1 = .spiflashRead src n ∧ src.toNat % 4 = 0 ∧ n.toNat % 4 = 0 ∧ 0 < n.toNat ∧
    n.toNat ≤ 64 * 4 ∧ offset.toNat / 4 * 4 ≤ src.toNat ∧
    src.toNat + n.toNat ≤ (offset.toNat + len + 3) / 4 * 4

variable {b : Behaviour} {other : State → (o : HwOp) → o.Ans} {s : State} {offset : UInt32}
  {len done : Nat} {out out₀ : List UInt8}

/-- The buffer after `done` bytes. -/
def filled (f : Flash) (offset : UInt32) (done : Nat) (out₀ : List UInt8) : List UInt8 :=
  Nor.read f offset.toNat done ++ out₀.drop done

theorem copyInto_filled {f : Flash} {want : Nat} :
    copyInto (filled f offset done out₀) done (Nor.read f (offset.toNat + done) want) =
      filled f offset (done + want) out₀ := by
  rw [copyInto, filled, List.take_left' (read_length ..), read_length, read_append, filled,
    List.drop_append, read_length, List.drop_of_length_le (by rw [read_length]; omega), List.nil_append,
    List.drop_drop]
  congr 2
  omega

/-- One ROM read of the loop. -/
theorem inWindow_read (hlen : offset.toNat + len ≤ 2 ^ 32) (hdone : done < len) (window) :
    let pos := offset + UInt32.ofNat done
    let start := pos &&& ~~~3
    InWindow offset len ⟨.spiflashRead start
      (UInt32.ofNat (((pos - start).toNat + min (len - done) 252 + 3) / 4 * 4)), window⟩ := by
  intro pos start
  have hpos : pos.toNat = offset.toNat + done := toNat_add_ofNat (by omega)
  have hstart : start.toNat = pos.toNat / 4 * 4 := land_not_three pos
  have hskip : (pos - start).toNat = pos.toNat % 4 := by
    rw [UInt32.toNat_sub_of_le _ _ (UInt32.le_iff_toNat_le.mpr (by omega))]
    omega
  refine ⟨start, _, rfl, by omega, ?_⟩
  rw [hskip, UInt32.toNat_ofNat']
  omega

/-- The rest of the loop, from a buffer that is filled up to `done`. -/
structure LoopSpec (f : Flash) (offset : UInt32) (out₀ : List UInt8) (done : Nat)
    (reads : List (Event HwOp HwOp.Ans)) (r : Except FlashError Unit × List UInt8) : Prop where
  window : ∀ ev ∈ reads, InWindow offset out₀.length ev
  bound : reads.length ≤ (out₀.length - done + 251) / 252
  ok : (∀ ev ∈ reads, Answered ev) → r = (.ok (), Nor.read f offset.toNat out₀.length)
  error : ∀ pre ev post, reads = pre ++ ev :: post → ¬ Answered ev → post = [] ∧
    (∀ ev ∈ pre, Answered ev) ∧ ∃ src n, ev.1 = .spiflashRead src n ∧
    r = (.error (.read src), filled f offset (done + 252 * pre.length) out₀)

theorem LoopSpec.fail {f : Flash} {ev : Event HwOp HwOp.Ans} {src n : UInt32}
    (hdone : done < out₀.length) (hwindow : InWindow offset out₀.length ev) (hfailed : ¬ Answered ev)
    (hev : ev.1 = .spiflashRead src n) :
    LoopSpec f offset out₀ done [ev] (.error (.read src), filled f offset done out₀) where
  window ev' hev' := List.mem_singleton.mp hev' ▸ hwindow
  bound := by
    simp only [List.length_singleton]
    omega
  ok h := absurd (h ev (.head _)) hfailed
  error pre ev' post h _ := by
    obtain ⟨rfl, rfl, rfl⟩ : pre = [] ∧ ev' = ev ∧ post = [] := by
      cases pre with
      | nil =>
        cases h
        exact ⟨rfl, rfl, rfl⟩
      | cons _ pre => simp at h
    exact ⟨rfl, by simp, src, n, hev, rfl⟩

theorem LoopSpec.step {f : Flash} {ev : Event HwOp HwOp.Ans} {reads : List (Event HwOp HwOp.Ans)}
    {r : Except FlashError Unit × List UInt8} (hdone : done < out₀.length)
    (hwindow : InWindow offset out₀.length ev) (hok : Answered ev)
    (h : LoopSpec f offset out₀ (done + min (out₀.length - done) 252) reads r) :
    LoopSpec f offset out₀ done (ev :: reads) r where
  window ev' hev' := by
    rcases List.mem_cons.mp hev' with rfl | hev'
    · exact hwindow
    · exact h.window ev' hev'
  bound := by
    have := h.bound
    simp only [List.length_cons]
    omega
  ok hall := h.ok fun ev' hev' => hall ev' (.tail _ hev')
  error pre ev' post hsplit hfailed := by
    cases pre with
    | nil =>
      cases hsplit
      exact absurd hok hfailed
    | cons ev₀ pre =>
      cases hsplit
      obtain ⟨hpost, hpre, src, n, hev', hr⟩ := h.error pre ev' post rfl hfailed
      refine ⟨hpost, fun ev hev => ?_, src, n, hev', ?_⟩
      · rcases List.mem_cons.mp hev with rfl | hev
        · exact hok
        · exact hpre ev hev
      · -- the loop goes on only after a full window
        have hbound := h.bound
        change (pre ++ ev' :: post).length ≤ _ at hbound
        rw [List.length_append, List.length_cons] at hbound
        rw [hr, List.length_cons, show done + min (out₀.length - done) 252 + 252 * pre.length =
          done + 252 * (pre.length + 1) by omega]

theorem readLoop_spec (hlen : offset.toNat + out₀.length ≤ 2 ^ 32) (hdone : done ≤ out₀.length) :
    LoopSpec s.flash offset out₀ done
      ((readLoop offset out₀.length done (filled s.flash offset done out₀)).events (romDevice b other) s)
      ((readLoop offset out₀.length done (filled s.flash offset done out₀)).run (romDevice b other) s).1 := by
  induction hn : out₀.length - done using Nat.strongRecOn generalizing done s with
  | ind n ih =>
    unfold readLoop
    split
    · next hlt =>
      have hwindow := inWindow_read hlen hlt
      simp only [hwOp, op, call_bind, ret_bind, events_call, run_call, romDevice, Behaviour.fetch]
      by_cases hr : b.read s.log s.reads = true
      · simp only [hr, if_true]
        have hpos := toNat_add_ofNat (x := offset) (n := done) (by omega)
        rw [window_slice (Nat.min_le_right ..), hpos, copyInto_filled]
        have hnext : done + min (out₀.length - done) 252 ≤ out₀.length := by omega
        exact LoopSpec.step hlt (hwindow _) rfl
          (ih _ (by omega) (s := { s with reads := s.reads + 1 }) hnext rfl)
      · simp only [hr]
        exact LoopSpec.fail hlt (hwindow _) (fun h => by cases h) rfl
    · next hge =>
      have : done = out₀.length := by omega
      subst this
      refine ⟨by simp, by simp, fun _ => ?_, by simp⟩
      simp [filled]

/-- `flash_read` issues only aligned reads of the words it needs. With all of them answered the
buffer holds the flash content; the first one that fails is the last, and behind the windows
read before it the buffer is as it was. -/
theorem flash_read_exact (offset : UInt32) (out : List UInt8) (hlen : offset.toNat + out.length ≤ 2 ^ 32)
    (b : Behaviour) (other : State → (o : HwOp) → o.Ans) (s : State) :
    let reads := (flashReadInto offset out).events (romDevice b other) s
    let r := ((flashReadInto offset out).run (romDevice b other) s).1
    reads.length ≤ (out.length + 251) / 252 ∧ (∀ ev ∈ reads, InWindow offset out.length ev) ∧
      ((∀ ev ∈ reads, Answered ev) → r = (.ok (), Nor.read s.flash offset.toNat out.length)) ∧
      ∀ pre ev post, reads = pre ++ ev :: post → ¬ Answered ev →
        post = [] ∧ (∀ ev ∈ pre, Answered ev) ∧ ∃ src n, ev.1 = .spiflashRead src n ∧
          r = (.error (.read src),
            Nor.read s.flash offset.toNat (252 * pre.length) ++ out.drop (252 * pre.length)) := by
  have hstart : filled s.flash offset 0 out = out := by simp [filled]
  have h : LoopSpec s.flash offset out 0 ((flashReadInto offset out).events (romDevice b other) s)
      ((flashReadInto offset out).run (romDevice b other) s).1 := by
    have := @readLoop_spec b other s _ _ _ hlen (Nat.zero_le _)
    rwa [hstart] at this
  refine ⟨h.bound, h.window, h.ok, fun pre ev post hsplit hfailed => ?_⟩
  have herror := h.error pre ev post hsplit hfailed
  rwa [filled, Nat.zero_add] at herror

/-- Five bytes from an odd address: one read of two words. -/
theorem flash_read_five :
    let s : State := ⟨fun a => UInt8.ofNat a, [], 0⟩
    let r := (flashReadInto 3 [0, 0, 0, 0, 0]).run (romDevice perfect (steady fun _ _ => none)) s
    r.1 = (.ok (), [3, 4, 5, 6, 7]) := by
  intro s
  refine (flash_read_exact 3 [0, 0, 0, 0, 0] (by decide) perfect (steady fun _ _ => none) s).2.2.1 ?_
  intro ev hev
  simp [flashReadInto, readLoop, hwOp, op, romDevice, Behaviour.fetch, perfect] at hev
  subst hev
  rfl

end Espbewi.Hw
