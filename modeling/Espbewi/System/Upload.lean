import Espbewi.Ota.ArtifactWriter

/-! An upload session over dirty flash. -/

namespace Espbewi.System

open Lib Nor EspArtifactStorage ArtifactWriter

/-- The states of a session that is given `S` from its start: at each call the next bytes, at
any length, and again after a refusal. -/
inductive Uploading (g : Geometry) (w : Nat) (E : Engine) (b : Behaviour) (p : AppPartition) (S : List UInt8)
    (s₀ : State) : ArtifactWriter → E.WriteSession → Nat → State → Prop
  | start : Uploading g w E b p S s₀ (.new g p) E.new 0 s₀
  | append {a e n s data ok a' e' s'} : Uploading g w E b p S s₀ a e n s → data <+: S.drop n →
      (append g w E a e data).run (norDevice b) s = ((ok, a', e'), s') →
      Uploading g w E b p S s₀ a' e' (if ok then n + data.length else n) s'

variable {g : Geometry} {w : Nat} {E : Engine} {pending : E.WriteSession → List UInt8} {b : Behaviour}
  {p : AppPartition} {S : List UInt8} {s₀ s : State} {a : ArtifactWriter} {e : E.WriteSession} {n : Nat}

/-- The session after `n` bytes of `S`: the engine holds back less than a block, and the
flash is behind its two watermarks. -/
structure Session (g : Geometry) (pending : E.WriteSession → List UInt8) (p : AppPartition)
    (S : List UInt8) (s₀ : State) (a : ArtifactWriter) (e : E.WriteSession) (n : Nat) (s : State) :
    Prop where
  partition : a.partition = p
  scratch : a.scratch.length = g.eraseSize
  erased : a.erasedThrough.toNat % g.eraseSize = 0
  durable : (E.durable e).toNat % g.eraseSize = 0
  received : (E.received e).toNat = n
  held : (E.durable e).toNat + (pending e).length = n
  short : (pending e).length < g.eraseSize
  agrees : Nor.Agrees S (E.durable e).toNat (pending e)
  within : n ≤ S.length
  stream : Streaming p.offset.toNat p.size S s₀ a.erasedThrough.toNat (E.durable e).toNat s

theorem le_batches (x : UInt64) :
    x.toNat ≤ (saturatingMul (divCeil x eraseBatchSize) eraseBatchSize).toNat := by
  have hx := x.toNat_lt
  have hdiv : (x / eraseBatchSize).toNat = x.toNat / 65536 := UInt64.toNat_div ..
  have hmod : (x % eraseBatchSize).toNat = x.toNat % 65536 := UInt64.toNat_mod ..
  have hceil : x.toNat ≤ (divCeil x eraseBatchSize).toNat * 65536 := by
    rw [divCeil, UInt64.toNat_add, hdiv]
    split
    · change _ ≤ (x.toNat / 65536 + 1) % 2 ^ 64 * 65536
      omega
    · next hzero =>
      rw [gt_iff_lt, UInt64.lt_iff_toNat_lt, hmod] at hzero
      change ¬ 0 < _ at hzero
      change _ ≤ (x.toNat / 65536 + 0) % 2 ^ 64 * 65536
      omega
  rw [saturatingMul, UInt64.toNat_ofNat', show eraseBatchSize.toNat = 65536 from rfl]
  omega

theorem toNat_min (x y : UInt64) : (min x y).toNat = min x.toNat y.toNat := by
  change (if x ≤ y then x else y).toNat = _
  split
  · next h => exact (Nat.min_eq_left (UInt64.le_iff_toNat_le.mp h)).symm
  · next h => exact (Nat.min_eq_right (Nat.le_of_lt (UInt64.lt_iff_toNat_lt.mp (UInt64.not_le.mp h)))).symm

theorem min_le_desiredErased (x : UInt64) (hsize : a.partition.size < 2 ^ 64) :
    min x.toNat a.partition.size ≤ (a.desiredErased x).toNat := by
  rw [desiredErased, toNat_min, UInt64.toNat_ofNat', Nat.mod_eq_of_lt hsize]
  have := le_batches x
  omega

/-! ### One call -/

theorem Session.of_stream (h : Session g pending p S s₀ a e n s) {s' : State} {a' : ArtifactWriter}
    (hpartition : a'.partition = p) (hscratch : a'.scratch.length = a.scratch.length)
    (herased : a'.erasedThrough.toNat % g.eraseSize = 0)
    (hstream : Streaming p.offset.toNat p.size S s₀ a'.erasedThrough.toNat (E.durable e).toNat s') :
    Session g pending p S s₀ a' e n s' :=
  { h with
    partition := hpartition
    scratch := hscratch.trans h.scratch
    erased := herased
    stream := hstream }

/-- Erasing ahead leaves a session, and after a success the erased part reaches `desired`. -/
theorem wp_eraseAhead (hb : b.Honest) (h : Session g pending p S s₀ a e n s) {desired : UInt64}
    {Q : Except FlashWriteError Unit × ArtifactWriter → State → Prop}
    (hok : ∀ s' a', Session g pending p S s₀ a' e n s' → desired ≤ a'.erasedThrough → Q (.ok (), a') s')
    (herr : ∀ s' a' err, Session g pending p S s₀ a' e n s' → Q (.error err, a') s') :
    (eraseAhead g w a desired).wp (norDevice b) (fun _ _ => True) Q s := by
  unfold eraseAhead
  split
  · next hahead =>
    rw [Prog.wp_bind, h.partition]
    refine wp_erasePartitionRange hb (UInt64.le_of_lt hahead) h.stream (fun s' haligned hs => ?_)
      fun s' err hs => ?_
    · exact hok s' _ (h.of_stream rfl rfl haligned hs) (UInt64.le_refl _)
    · exact herr s' a err (h.of_stream h.partition rfl h.erased hs)
  · next hahead => exact hok s a h (UInt64.not_lt.mp hahead)

/-- A refusal leaves the session where it was. -/
theorem Session.refused (h : Session g pending p S s₀ a e n s) {s' : State} {e' : E.WriteSession}
    {scratch : List UInt8} (hscratch : scratch.length = g.eraseSize)
    (he : E.received e' = E.received e ∧ E.durable e' = E.durable e ∧ pending e' = pending e)
    (hs : Streaming p.offset.toNat p.size S s₀ a.erasedThrough.toNat (E.durable e).toNat s') :
    Session g pending p S s₀ { a with scratch } e' n s' := by
  obtain ⟨hreceived, hdurable, hpending⟩ := he
  exact { h with
    scratch := hscratch
    durable := by rw [hdurable]; exact h.durable
    received := by rw [hreceived]; exact h.received
    held := by rw [hdurable, hpending]; exact h.held
    short := by rw [hpending]; exact h.short
    agrees := by rw [hdurable, hpending]; exact h.agrees
    stream := by rw [hdurable]; exact hs }

/-- Accepted bytes extend the session by as many. -/
theorem Session.accepted (h : Session g pending p S s₀ a e n s) (hS : S.length < 2 ^ 64) {s' : State}
    {e' : E.WriteSession} {scratch data : List UInt8} {d : UInt64} (hdata : Nor.Agrees S n data)
    (hin : n + data.length ≤ S.length)
    (hscratch : scratch.length = g.eraseSize)
    (hd : d.toNat =
      (E.durable e).toNat + (pending e ++ data).length / g.eraseSize * g.eraseSize)
    (he : E.received e' = E.received e + UInt64.ofNat data.length ∧ E.durable e' = d ∧
      pending e' = (pending e ++ data).drop (d.toNat - (E.durable e).toNat))
    (hs : Streaming p.offset.toNat p.size S s₀ a.erasedThrough.toNat d.toNat s') :
    Session g pending p S s₀ { a with scratch } e' (n + data.length) s' := by
  obtain ⟨hreceived, hdurable, hpending⟩ := he
  have hheld := h.held
  have hpos := g.erase_pos
  have hagrees := h.agrees.append (m := data) (by rwa [hheld])
  have hdiv := Nat.div_add_mod (pending e ++ data).length g.eraseSize
  have hmod := Nat.mod_lt (pending e ++ data).length hpos
  rw [Nat.mul_comm] at hdiv
  rw [hd, Nat.add_sub_cancel_left] at hpending
  have hleft : (pending e').length = (pending e ++ data).length % g.eraseSize := by
    rw [hpending, List.length_drop]
    omega
  rw [← hdurable] at hs hd
  exact {
    partition := h.partition
    scratch := hscratch
    erased := h.erased
    durable := by rw [hd, Nat.add_mul_mod_self_right]; exact h.durable
    received := by
      rw [hreceived, UInt64.toNat_add, UInt64.toNat_ofNat', h.received]
      omega
    held := by
      rw [hd, hleft, Nat.add_assoc, hdiv, List.length_append, ← Nat.add_assoc, hheld]
    short := by rw [hleft]; exact hmod
    agrees := by rw [hd, hpending]; exact hagrees.drop _
    within := hin
    stream := hs }

/-- `engine.append` over the erased part. -/
theorem wp_engineAppend (hb : b.Honest) (hE : E.Law pending) (hS : S.length < 2 ^ 64)
    (h : Session g pending p S s₀ a e n s) {data : List UInt8} (hdata : Nor.Agrees S n data)
    (hin : n + data.length ≤ S.length)
    (hahead : min (n + data.length) p.size ≤ a.erasedThrough.toNat)
    {Q : Bool × List UInt8 × E.WriteSession → State → Prop}
    (hQ : ∀ s' scratch e' ok, Session g pending p S s₀ { a with scratch } e'
      (if ok then n + data.length else n) s' → Q (ok, scratch, e') s') :
    (engineAppend g w E a e data).wp (norDevice b) (fun _ _ => True) Q s := by
  have hheld := h.held
  unfold engineAppend EspArtifactStorage.newPreErased EspArtifactStorage.newWithEraseMode
  rw [if_neg (by rw [h.scratch]; omega), h.partition]
  simp only
  split
  · exact hQ s _ e false (h.refused h.scratch ⟨rfl, rfl, rfl⟩ h.stream)
  · next offset bytes hoffer =>
    obtain ⟨rfl, rfl⟩ := hE.offer hoffer
    rw [Prog.wp_bind, EspArtifactStorage.write]
    refine EspArtifactStorage.wp_writeLoop hb rfl h.scratch (h.agrees.append (by rwa [hheld]))
      ?_ ?_ (Nat.zero_le _) (Nat.zero_mod _) h.stream ?_ ?_
    · rw [List.length_append]
      omega
    · rw [List.length_append, ← Nat.add_assoc, hheld]
      exact hahead
    · intro s' scratch d hscratch hd hs
      rcases hsettle : E.settle e data (.ok d) with ⟨ok, e'⟩
      refine hQ s' scratch e' ok ?_
      cases ok with
      | false => exact h.refused hscratch (hE.refused hsettle) (hs.weaken (by omega))
      | true =>
        obtain ⟨d', hd', he⟩ := hE.accepted hsettle
        cases hd'
        exact h.accepted hS hdata hin hscratch hd he hs
    · intro s' scratch err hscratch hs
      rcases hsettle : E.settle e data (.error err) with ⟨ok, e'⟩
      refine hQ s' scratch e' ok ?_
      cases ok with
      | false => exact h.refused hscratch (hE.refused hsettle) hs
      | true =>
        obtain ⟨d, hd, -⟩ := hE.accepted hsettle
        cases hd

/-- A call of `append` with the next bytes of `S`: it takes all of them or none. -/
theorem wp_append (hb : b.Honest) (hE : E.Law pending) (hS : S.length < 2 ^ 64)
    (hsize : p.size < 2 ^ 64) (h : Session g pending p S s₀ a e n s) {data : List UInt8}
    (hdata : Nor.Agrees S n data) (hin : n + data.length ≤ S.length) :
    (append g w E a e data).wp (norDevice b) (fun _ _ => True) (fun r s' =>
      Session g pending p S s₀ r.2.1 r.2.2 (if r.1 then n + data.length else n) s') s := by
  unfold append
  split
  · rw [Prog.wp_bind]
    have hend : (E.received e + UInt64.ofNat data.length).toNat = n + data.length := by
      rw [UInt64.toNat_add, UInt64.toNat_ofNat', h.received]
      omega
    refine wp_eraseAhead hb h (fun s' a' h' hdesired => ?_) fun s' a' err h' => ?_
    · have hahead := min_le_desiredErased (a := a) (E.received e + UInt64.ofNat data.length)
        (by rwa [h.partition])
      rw [hend, h.partition] at hahead
      rw [Prog.wp_bind]
      refine wp_engineAppend hb hE hS h' hdata hin
        (Nat.le_trans hahead (UInt64.le_iff_toNat_le.mp hdesired)) fun s'' scratch e' ok h'' => ?_
      exact h''.of_stream h''.partition rfl h''.erased h''.stream
    · exact h'.of_stream h'.partition rfl h'.erased h'.stream
  · exact h

/-- A call of `finish` once all of `S` is received. -/
theorem wp_finish (hb : b.Honest) (hE : E.Law pending) (hS : n = S.length)
    (h : Session g pending p S s₀ a e n s) :
    (finish g w E a e).wp (norDevice b) (fun _ _ => True) (fun r s' => ∀ size, r.1 = .ok size →
      ∃ erased, Streaming p.offset.toNat p.size S s₀ erased S.length s') s := by
  unfold ArtifactWriter.finish
  split
  · rintro size ⟨⟩
  · next hcovered =>
    have hcovered := UInt64.le_iff_toNat_le.mp (UInt64.not_lt.mp hcovered)
    have hheld := h.held
    rw [h.received] at hcovered
    rw [EspArtifactStorage.newPreErased, EspArtifactStorage.newWithEraseMode,
      if_neg (by rw [h.scratch]; omega), h.partition]
    simp only
    rw [Prog.wp_bind, hE.close]
    refine EspArtifactStorage.wp_finish hb rfl h.scratch h.agrees (by omega) (by omega) h.erased
      h.stream (fun s' scratch d hs => ?_) fun s' scratch err => ?_
    · simp only
      split
      · rintro size ⟨⟩
      · exact fun size _ => ⟨_, hs⟩
    · simp only
      split
      · rintro size ⟨⟩
      · next size hcommit =>
        obtain ⟨d, hd⟩ := hE.commit hcommit
        cases hd

/-! ### Runs of a session -/

theorem agrees_of_isPrefix {data : List UInt8} (hdata : data <+: S.drop n) : Nor.Agrees S n data := by
  intro i hi hS
  rw [hdata.getElem hi, List.getElem_drop]

theorem Uploading.session (hb : b.Honest) (hE : E.Law pending) (hS : S.length < 2 ^ 64)
    (hsize : p.size < 2 ^ 64) (h : Uploading g w E b p S s₀ a e n s) :
    Session g pending p S s₀ a e n s := by
  induction h with
  | start =>
    obtain ⟨hreceived, hdurable, hpending⟩ := hE.new
    exact {
      partition := rfl
      scratch := List.length_replicate
      erased := Nat.zero_mod _
      durable := by rw [hdurable]; exact Nat.zero_mod _
      received := by rw [hreceived]; rfl
      held := by rw [hdurable, hpending]; rfl
      short := by rw [hpending]; exact g.erase_pos
      agrees := by rw [hpending]; exact fun i hi => absurd hi (Nat.not_lt_zero i)
      within := Nat.zero_le _
      stream := by rw [hdurable]; exact .start ..  }
  | @append a e n s data ok a' e' s' _ hdata hcall ih =>
    have hlen := hdata.length_le
    rw [List.length_drop] at hlen
    have hwithin := ih.within
    have := Prog.run_of_wp (wp_append (w := w) hb hE hS hsize ih (agrees_of_isPrefix hdata) (by omega))
    rwa [hcall] at this

/-- An upload session over dirty flash: once all of `S` was accepted, a `finish` that returns
`Ok` has left exactly `S` in the partition and touched nothing outside, and no erase of the session
followed a program of the same byte. -/
theorem upload_correct (hb : b.Honest) (hE : E.Law pending) (hS : S.length < 2 ^ 64)
    (hsize : p.size < 2 ^ 64) (h : Uploading g w E b p S s₀ a e S.length s) {size : UInt64}
    {a' : ArtifactWriter} {s' : State}
    (hfinish : (finish g w E a e).run (norDevice b) s = ((.ok size, a'), s')) :
    Nor.read s'.flash p.offset.toNat S.length = S ∧
      (∀ x, ¬ (p.offset.toNat ≤ x ∧ x < p.offset.toNat + p.size) → s'.flash x = s₀.flash x) ∧
      ∃ log, s'.log = s₀.log ++ log ∧ log.Pairwise Cmd.Spares := by
  have hrun := Prog.run_of_wp (wp_finish (w := w) hb hE rfl (h.session hb hE hS hsize))
  rw [hfinish] at hrun
  obtain ⟨erased, hs⟩ := hrun size rfl
  obtain ⟨log, hlog, hspares, -⟩ := hs.log
  refine ⟨List.ext_getElem (by simp) fun i hi hi' => ?_, hs.outside, log, hlog, hspares⟩
  rw [read_getElem]
  exact hs.holds i hi' hi'

/-- An engine that keeps what is not yet durable in a list. -/
def listEngine : Engine where
  WriteSession := UInt64 × UInt64 × List UInt8
  new := (0, 0, [])
  received e := e.1
  durable e := e.2.1
  canAppend _ _ := true
  offer e data := some (e.2.1, e.2.2 ++ data)
  settle e data
    | .ok d => (true, e.1 + UInt64.ofNat data.length, d, (e.2.2 ++ data).drop (d.toNat - e.2.1.toNat))
    | .error _ => (false, e)
  close e := e.2
  commit _
    | .ok d => .ok d
    | .error err => .error (.backend err)

theorem listEngine_law : listEngine.Law fun e => e.2.2 where
  new := ⟨rfl, rfl, rfl⟩
  offer := by
    rintro e data offset bytes ⟨⟩
    exact ⟨rfl, rfl⟩
  accepted := by
    rintro e e' data (err | d) ⟨⟩
    exact ⟨d, rfl, rfl, rfl, rfl⟩
  refused := by
    rintro e e' data (err | d) ⟨⟩
    exact ⟨rfl, rfl, rfl⟩
  close _ := rfl
  commit := by
    rintro e (err | d) size ⟨⟩
    exact ⟨d, rfl⟩

def smallSectors : Geometry where
  eraseSize := 4
  writeSize := 2
  erase_pos := by decide
  write_dvd := by decide

theorem Uploading.accept (h : Uploading g w E b p S s₀ a e n s) (data : List UInt8)
    (hdata : data <+: S.drop n) (hok : ((ArtifactWriter.append g w E a e data).run (norDevice b) s).1.1 = true) :
    Uploading g w E b p S s₀ ((ArtifactWriter.append g w E a e data).run (norDevice b) s).1.2.1
      ((ArtifactWriter.append g w E a e data).run (norDevice b) s).1.2.2 (n + data.length)
      ((ArtifactWriter.append g w E a e data).run (norDevice b) s).2 :=
  @append g w E b p S s₀ a e n s data true _ _ _ h hdata (Prog.run_eq hok)

abbrev dirtySlot : AppPartition := ⟨.ota0, 16, 8⟩

theorem uploading_two_chunks : ∃ a e s a' s',
    Uploading smallSectors 32 listEngine perfect dirtySlot [1, 2, 3, 4, 5] ⟨fun _ => 0, [], 0⟩ a e 5 s ∧
    (finish smallSectors 32 listEngine a e).run (norDevice perfect) s = ((.ok 5, a'), s') := by
  have hstart : Uploading smallSectors 32 listEngine perfect dirtySlot [1, 2, 3, 4, 5]
    ⟨fun _ => 0, [], 0⟩ _ _ 0 ⟨fun _ => 0, [], 0⟩ := .start
  have hrun := (hstart.accept [1, 2, 3] (by decide) (by decide +kernel)).accept [4, 5] (by decide)
    (by decide +kernel)
  exact ⟨_, _, _, _, _, hrun, Prog.run_eq (by decide +kernel)⟩

/-- Five bytes in two chunks, over a dirty partition of two sectors. -/
theorem upload_two_chunks : ∃ a e s a' s',
    Uploading smallSectors 32 listEngine perfect dirtySlot [1, 2, 3, 4, 5] ⟨fun _ => 0, [], 0⟩ a e 5 s ∧
    (finish smallSectors 32 listEngine a e).run (norDevice perfect) s = ((.ok 5, a'), s') ∧
    Nor.read s'.flash 16 5 = [1, 2, 3, 4, 5] ∧
    (∀ x, ¬ (16 ≤ x ∧ x < 16 + 8) → s'.flash x = 0) ∧
    ∃ log, s'.log = [] ++ log ∧ log.Pairwise Cmd.Spares := by
  obtain ⟨a, e, s, a', s', hrun, hfinish⟩ := uploading_two_chunks
  exact ⟨a, e, s, a', s', hrun, hfinish,
    upload_correct perfect_honest listEngine_law (by decide) (by decide) hrun hfinish⟩

end Espbewi.System
