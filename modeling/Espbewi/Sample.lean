import Espbewi.EntryLaws
import Espbewi.Hardware.PartitionTable

/-! A boot-entry format with the properties of `EntryLaws` (both words, their
complement, then a commit word), and a flash with a given partition table. -/

namespace Espbewi.Sample

open Lib Nor Boot

structure Entry where
  seq : UInt32
  state : UInt32
  deriving DecidableEq

def word (x : UInt32) : List UInt8 := toLe 4 x.toNat

def COMMIT : List UInt8 := [0x45, 0x57, 0x42, 0x54]

def words (e : Entry) : List UInt8 := word e.seq ++ word e.state

def fields (e : Entry) : List UInt8 := words e ++ (words e).map fun b => ~~~b

def encode (e : Entry) : Raw := fields e ++ COMMIT

def body (e : Entry) : Raw := fields e ++ List.replicate 4 0xFF

def unchecked (raw : Raw) : Entry where
  seq := UInt32.ofNat (ofLe (raw.take 4))
  state := UInt32.ofNat (ofLe ((raw.drop 4).take 4))

def decode (raw : Raw) : Option Entry :=
  if encode (unchecked raw) = raw then some (unchecked raw) else none

@[simp] theorem word_length (x : UInt32) : (word x).length = 4 := toLe_length ..

@[simp] theorem words_length (e : Entry) : (words e).length = 8 := by simp [words]

@[simp] theorem fields_length (e : Entry) : (fields e).length = 16 := by simp [fields]

theorem ofLe_word (x : UInt32) : UInt32.ofNat (ofLe (word x)) = x := by
  rw [word, ofLe_toLe (by have := x.toNat_lt; omega), UInt32.ofNat_toNat]

theorem unchecked_encode (e : Entry) : unchecked (encode e) = e := by
  have hseq : (encode e).take 4 = word e.seq := by
    rw [encode, fields, words, List.append_assoc, List.append_assoc, List.take_left' (by simp)]
  have hstate : ((encode e).drop 4).take 4 = word e.state := by
    rw [encode, fields, words, List.append_assoc, List.append_assoc, List.drop_left' (by simp),
      List.take_left' (by simp)]
  rw [unchecked, hseq, hstate, ofLe_word, ofLe_word]

theorem decode_encode (e : Entry) : decode (encode e) = some e := by
  rw [decode, unchecked_encode, if_pos rfl]

theorem encode_of_decode {raw : Raw} {e : Entry} (h : decode raw = some e) : encode e = raw := by
  rw [decode] at h
  split at h
  · cases h
    assumption
  · cases h

/-! ### Setting bits -/

theorem eq_of_within_compl {x y : UInt8} (h : Within x y) (hc : Within (~~~x) (~~~y)) : x = y := by
  rw [within_iff] at h hc
  apply byte_ext
  intro i
  by_cases hi : i < 8
  · have hi₁ := h i
    have hi₂ := hc i
    simp only [UInt8.toBitVec_not, BitVec.getLsbD_not, hi, decide_true, Bool.true_and] at hi₂
    revert hi₁ hi₂
    cases x.toBitVec.getLsbD i <;> cases y.toBitVec.getLsbD i <;> simp
  · rw [BitVec.getLsbD_of_ge _ i (by omega), BitVec.getLsbD_of_ge _ i (by omega)]

/-- No bit of a string with its complement can be set unnoticed. -/
theorem eq_of_forall₂_compl {l m : List UInt8} (h : List.Forall₂ Within l m)
    (hc : List.Forall₂ Within (l.map fun b => ~~~b) (m.map fun b => ~~~b)) : l = m := by
  induction h with
  | nil => rfl
  | cons hab _ ih =>
    rw [List.map_cons, List.map_cons, List.forall₂_cons] at hc
    rw [eq_of_within_compl hab hc.1, ih hc.2]

theorem encode_injective {e e' : Entry} (h : List.Forall₂ Within (encode e) (encode e')) : e = e' := by
  have hfields := forall₂_of_append (by simp) h
  have hwords := forall₂_of_append (by simp) hfields.1
  have heq := eq_of_forall₂_compl hwords.1 hwords.2
  have : encode e = encode e' := by rw [encode, encode, fields, fields, heq]
  rw [← unchecked_encode e, this, unchecked_encode]

theorem decodeWorn {e e' : Entry} {raw raw' : Raw} (h : List.Forall₂ Within (encode e) raw)
    (h' : List.Forall₂ Within raw raw') (hd : decode raw' = some e') :
    e' = e ∧ decode raw = some e := by
  have he' := encode_of_decode hd
  subst he'
  obtain rfl := encode_injective (forall₂_within_trans h h')
  rw [forall₂_within_antisymm h' h]
  exact ⟨rfl, decode_encode e⟩

/-! ### Decisions -/

def NEW : UInt32 := 0
def PENDING_VERIFY : UInt32 := 1
def VALID : UInt32 := 2
def INVALID : UInt32 := 3
def ABORTED : UInt32 := 4

def bootable (e : Entry) : Bool := e.state == NEW || e.state == PENDING_VERIFY || e.state == VALID

def running (e : Entry) : Bool := e.state == VALID || e.state == PENDING_VERIFY

def slotOf (seq : UInt32) (n : UInt8) : UInt8 := ((seq - 1) % n.toUInt32).toUInt8

def pending (raw : Raw) : Option Entry := (decode raw).filter fun e => e.state == PENDING_VERIFY

/-- The pending entry with another state, where it lies. -/
def settle (state : UInt32) (entries : Raw × Raw) : Option (Write Entry) :=
  match pending entries.1, pending entries.2 with
  | some e, _ => some ⟨0, { e with state }⟩
  | none, some e => some ⟨1, { e with state }⟩
  | none, none => none

/-- The sector that does not hold the newest running entry. -/
def spare (entries : Raw × Raw) : UInt8 :=
  match (decode entries.1).filter running, (decode entries.2).filter running with
  | none, _ => 0
  | some _, none => 1
  | some e, some e' => if e.seq ≤ e'.seq then 0 else 1

def top (entries : Raw × Raw) : UInt32 :=
  max (((decode entries.1).map Entry.seq).getD 0) (((decode entries.2).map Entry.seq).getD 0)

def activate (entries : Raw × Raw) (n i : UInt8) : Option (Write Entry) :=
  let seq := top entries
  if 0xFFFFFFF0 ≤ seq then none
  else if slotOf (seq + 1) n = i then some ⟨spare entries, seq + 1, NEW⟩
  else if slotOf (seq + 2) n = i then some ⟨spare entries, seq + 2, NEW⟩
  else none

/-- The bootable entries with their sectors, newest first. -/
def candidates (entries : Raw × Raw) : List (UInt8 × Entry) :=
  match (decode entries.1).filter bootable, (decode entries.2).filter bootable with
  | some e, some e' => if e.seq < e'.seq then [(1, e'), (0, e)] else [(0, e), (1, e')]
  | some e, none => [(0, e)]
  | none, some e' => [(1, e')]
  | none, none => []

/-- The plan that boots this entry. -/
def chosen (n : UInt8) (c : UInt8 × Entry) : Plan Entry where
  boot := .slot (slotOf c.2.seq n) c.2.seq
  writes := if c.2.state = NEW then [⟨c.1, { c.2 with state := PENDING_VERIFY }⟩] else []

def trial (n : UInt8) : List (UInt8 × Entry) → Prog UInt8 (fun _ => Bool) (Plan Entry)
  | [] => .ret ⟨.halt .noUsableEntry, []⟩
  | c :: rest => .call (slotOf c.2.seq n) fun ok =>
    if ok then .ret (chosen n c) else trial n rest

def planBoot (entries : Raw × Raw) (n : UInt8) : Prog UInt8 (fun _ => Bool) (Plan Entry) :=
  if decode entries.1 = none ∧ decode entries.2 = none then
    .call 0 fun ok =>
      if ok then .ret ⟨.slot 0 1, [⟨0, 1, VALID⟩]⟩ else .ret ⟨.halt .noImage, []⟩
  else trial n (candidates entries)

def payload (data : List UInt8) : Payload := ⟨data, data.length, le_rfl⟩

abbrev fibewi : Fibewi where
  Entry := Entry
  entryDecEq := inferInstance
  seq := Entry.seq
  state := Entry.state
  NEW := NEW
  PENDING_VERIFY := PENDING_VERIFY
  VALID := VALID
  INVALID := INVALID
  ABORTED := ABORTED
  ENTRY_SIZE := 20
  BLANK := List.replicate 20 0xFF
  decode := decode
  encode := encode
  body := body
  ops write := (.erase, .program 0 (payload (fields write.entry)), .program 16 (payload COMMIT))
  slotOf := slotOf
  confirm := settle VALID
  reject := settle ABORTED
  activate := activate
  planBoot := planBoot
  ramTarget seg map := if map.dram.contains seg.load then some seg.load else none

@[simp] theorem payload_slice (data : List UInt8) : (payload data).slice = data := by
  simp [payload, Payload.slice]

/-! ### The laws hold -/

theorem fibewi_decode : fibewi.decode = decode := rfl

theorem decodeEncode : fibewi.DecodeEncode := by
  intro e
  rw [fibewi_decode]
  exact decode_encode e

theorem overlay_body (e : Entry) :
    overlay (List.replicate 20 0xFF) 0 (payload (fields e)).slice = body e := by
  have := overlay_blank [] (fields e) (List.replicate 4 0xFF)
  simpa [body] using this

theorem overlay_commit (e : Entry) : overlay (body e) 16 (payload COMMIT).slice = encode e := by
  have := overlay_blank (fields e) COMMIT []
  rw [List.append_nil, List.append_nil, fields_length] at this
  rw [payload_slice]
  exact this

theorem opsLaw : fibewi.OpsLaw where
  blank := rfl
  small := by decide
  shape write := by
    refine ⟨0, payload (fields write.entry), 16, payload COMMIT, rfl, ?_, by decide,
      overlay_body write.entry, overlay_commit write.entry⟩
    exact (Nat.zero_add _).trans_le ((fields_length write.entry).trans_le (by decide))

theorem le_top {entries : Raw × Raw} {sector : UInt8} {e : Entry}
    (h : fibewi.entryOf entries sector = some e) : e.seq ≤ top entries := by
  change decode (if sector = 0 then entries.1 else entries.2) = some e at h
  rw [top]
  split at h
  · rw [h]
    exact Std.left_le_max
  · rw [h]
    exact Std.right_le_max

theorem activate_some {entries : Raw × Raw} {n i : UInt8} {write : Write Entry}
    (h : activate entries n i = some write) :
    write.sector = spare entries ∧ write.entry.state = NEW ∧ top entries < write.entry.seq ∧
      slotOf write.entry.seq n = i := by
  simp only [activate] at h
  split at h
  · cases h
  · next hsmall =>
    rw [UInt32.not_le, UInt32.lt_iff_toNat_lt] at hsmall
    have hlt : ∀ k : UInt32, 0 < k.toNat → k.toNat < 16 → top entries < top entries + k := by
      intro k hpos hk
      rw [UInt32.lt_iff_toNat_lt, UInt32.toNat_add]
      change _ < 4294967280 at hsmall
      omega
    split at h
    · cases h
      exact ⟨rfl, rfl, hlt 1 (by decide) (by decide), ‹_›⟩
    · split at h
      · cases h
        exact ⟨rfl, rfl, hlt 2 (by decide) (by decide), ‹_›⟩
      · cases h

theorem spare_lt (entries : Raw × Raw) : spare entries < 2 := by
  unfold spare
  split
  · decide
  · decide
  · split <;> decide

theorem activateLaw : fibewi.ActivateLaw where
  newest h he := UInt32.lt_of_le_of_lt (le_top he) (activate_some h).2.2.1
  slot h := (activate_some h).2.2.2

theorem running_iff (e : Entry) : running e = true ↔ fibewi.Running e := by
  simp [running, Fibewi.Running]

theorem not_running {e : Entry} {state : UInt32} (h : e.state = state) (hv : state ≠ VALID)
    (hp : state ≠ PENDING_VERIFY) : ¬ fibewi.Running e := by
  rintro (hrun | hrun)
  · exact hv (h.symm.trans hrun)
  · exact hp (h.symm.trans hrun)

theorem pending_eq_some {raw : Raw} {e : Entry} (h : pending raw = some e) :
    decode raw = some e ∧ e.state = PENDING_VERIFY := by
  simpa [pending] using h

theorem settle_some {state : UInt32} {entries : Raw × Raw} {write : Write Entry}
    (h : settle state entries = some write) : write.sector < 2 ∧
      ∃ e, fibewi.entryOf entries write.sector = some e ∧ e.state = PENDING_VERIFY ∧
        write.entry.seq = e.seq ∧ write.entry.state = state := by
  unfold settle at h
  split at h
  · next e hp =>
    cases h
    exact ⟨(by decide : (0 : UInt8) < 2), e, (pending_eq_some hp).1, (pending_eq_some hp).2, rfl, rfl⟩
  · next e hnone hp =>
    cases h
    exact ⟨(by decide : (1 : UInt8) < 2), e, (pending_eq_some hp).1, (pending_eq_some hp).2, rfl, rfl⟩
  · cases h

theorem spare_running {entries : Raw × Raw} {e : Entry}
    (h : fibewi.entryOf entries (spare entries) = some e) (hrun : fibewi.Running e) :
    ∃ e', fibewi.entryOf entries (1 - spare entries) = some e' ∧ fibewi.Running e' ∧
      fibewi.seq e ≤ fibewi.seq e' := by
  rw [← running_iff] at hrun
  unfold spare at h ⊢
  split at h
  · next hnone =>
    change decode entries.1 = some e at h
    simp [h, hrun] at hnone
  · next e₀ h₀ hnone =>
    change decode entries.2 = some e at h
    simp [h, hrun] at hnone
  · next e₀ e₁ h₀ h₁ =>
    rw [Option.filter_eq_some_iff] at h₀ h₁
    split at h
    · next hle =>
      change decode entries.1 = some e at h
      rw [if_pos hle]
      rw [h] at h₀
      cases h₀.1
      exact ⟨e₁, h₁.1, (running_iff e₁).mp h₁.2, hle⟩
    · next hle =>
      change decode entries.2 = some e at h
      rw [if_neg hle]
      rw [h] at h₁
      cases h₁.1
      exact ⟨e₀, h₀.1, (running_iff e₀).mp h₀.2, UInt32.le_of_lt (UInt32.not_le.mp hle)⟩

theorem transitionLaw : fibewi.TransitionLaw where
  confirm h := (settle_some h).2
  reject h := by
    obtain ⟨-, e, he, hpending, -, hstate⟩ := settle_some h
    exact ⟨e, he, hpending, not_running hstate (by decide) (by decide)⟩
  activate h := by
    obtain ⟨hsector, hstate, -⟩ := activate_some h
    refine ⟨not_running hstate (by decide) (by decide), ?_⟩
    rw [hsector]
    intro e he hrun
    exact spare_running he hrun

theorem trial_sector {n : UInt8} {l : List (UInt8 × Entry)} (hl : ∀ c ∈ l, c.1 < 2)
    {tr : List (Event UInt8 fun _ => Bool)} {plan : Plan Entry} (h : Prog.Runs (trial n l) tr plan) :
    ∀ write ∈ plan.writes, write.sector < 2 := by
  induction l generalizing tr with
  | nil =>
    obtain ⟨-, rfl⟩ := Prog.runs_ret.mp h
    simp
  | cons c rest ih =>
    obtain ⟨ok, tr', -, h⟩ := Prog.runs_call.mp h
    cases ok with
    | true =>
      obtain ⟨-, rfl⟩ := Prog.runs_ret.mp h
      intro write hw
      simp only [chosen] at hw
      split at hw
      · rw [List.mem_singleton.mp hw]
        exact hl c (List.mem_cons_self ..)
      · cases hw
    | false => exact ih (fun c' hc' => hl c' (List.mem_cons_of_mem _ hc')) h

theorem trial_run (n : UInt8) (ok : UInt8 → Bool) (l : List (UInt8 × Entry)) :
    ((trial n l).run (fun s slot => (ok slot, s)) ()).1 =
      ((l.find? fun c => ok (slotOf c.2.seq n)).map (chosen n)).getD ⟨.halt .noUsableEntry, []⟩ := by
  induction l with
  | nil => rfl
  | cons c rest ih =>
    rw [trial, Prog.run_call, List.find?_cons]
    cases hok : ok (slotOf c.2.seq n) with
    | true => simp
    | false => simpa using ih

theorem mem_candidates {entries : Raw × Raw} {c : UInt8 × Entry} (h : c ∈ candidates entries) :
    c.1 < 2 ∧ fibewi.entryOf entries c.1 = some c.2 ∧ bootable c.2 = true := by
  have hfilter : ∀ {raw : Raw} {e : Entry}, (decode raw).filter bootable = some e →
      decode raw = some e ∧ bootable e = true := fun he => by simpa using he
  have hfirst : ∀ {e : Entry}, (decode entries.1).filter bootable = some e → (0 : UInt8) < 2 ∧
      fibewi.entryOf entries 0 = some e ∧ bootable e = true := fun he => ⟨by decide, hfilter he⟩
  have hsecond : ∀ {e : Entry}, (decode entries.2).filter bootable = some e → (1 : UInt8) < 2 ∧
      fibewi.entryOf entries 1 = some e ∧ bootable e = true := fun he => ⟨by decide, hfilter he⟩
  unfold candidates at h
  split at h
  · next e e' he he' =>
    split at h
    · rcases List.mem_pair.mp h with rfl | rfl
      · exact hsecond he'
      · exact hfirst he
    · rcases List.mem_pair.mp h with rfl | rfl
      · exact hfirst he
      · exact hsecond he'
  · next e he _ =>
    rw [List.mem_singleton.mp h]
    exact hfirst he
  · next e' _ he' =>
    rw [List.mem_singleton.mp h]
    exact hsecond he'
  · cases h

theorem sectorLaw : fibewi.SectorLaw where
  confirm h := (settle_some h).1
  reject h := (settle_some h).1
  activate h := (activate_some h).1 ▸ spare_lt _
  planBoot {entries tr plan} h := by
    change Prog.Runs (planBoot entries 2) tr plan at h
    unfold planBoot at h
    split at h
    · obtain ⟨ok, tr', -, h⟩ := Prog.runs_call.mp h
      cases ok with
      | true =>
        obtain ⟨-, rfl⟩ := Prog.runs_ret.mp h
        intro write hw
        rw [List.mem_singleton.mp hw]
        exact (by decide : (0 : UInt8) < 2)
      | false =>
        obtain ⟨-, rfl⟩ := Prog.runs_ret.mp h
        simp
    · exact trial_sector (fun c hc => (mem_candidates hc).1) h

theorem slotOf_lt (seq : UInt32) : slotOf seq 2 < 2 := by
  have hmod : ((seq - 1) % 2).toNat = (seq - 1).toNat % 2 := UInt32.toNat_mod ..
  change (((seq - 1) % 2).toNat % 256 : Nat) < 2
  omega

theorem only_trial (l : List (UInt8 × Entry)) : (trial 2 l).Only (· < 2) := by
  induction l with
  | nil => trivial
  | cons c rest ih =>
    refine ⟨slotOf_lt c.2.seq, fun ok => ?_⟩
    cases ok with
    | true => trivial
    | false => exact ih

theorem only_planBoot (entries : Raw × Raw) : (planBoot entries 2).Only (· < 2) := by
  unfold planBoot
  split
  · refine ⟨by decide, fun ok => ?_⟩
    cases ok <;> trivial
  · exact only_trial _

theorem trial_slot {l : List (UInt8 × Entry)} {tr : List (Event UInt8 fun _ => Bool)}
    {plan : Plan Entry} (h : Prog.Runs (trial 2 l) tr plan) {slot : UInt8} {seq : UInt32}
    (hboot : plan.boot = .slot slot seq) : slot < 2 := by
  induction l generalizing tr with
  | nil =>
    obtain ⟨-, rfl⟩ := Prog.runs_ret.mp h
    cases hboot
  | cons c rest ih =>
    obtain ⟨ok, tr', -, h⟩ := Prog.runs_call.mp h
    cases ok with
    | true =>
      obtain ⟨-, rfl⟩ := Prog.runs_ret.mp h
      cases hboot
      exact slotOf_lt c.2.seq
    | false => exact ih h

theorem slotLaw : fibewi.SlotLaw where
  asks entries := only_planBoot entries
  boots {entries tr plan slot seq} h hboot := by
    change Prog.Runs (planBoot entries 2) tr plan at h
    unfold planBoot at h
    split at h
    · obtain ⟨ok, tr', -, h⟩ := Prog.runs_call.mp h
      cases ok with
      | true =>
        obtain ⟨-, rfl⟩ := Prog.runs_ret.mp h
        cases hboot
        decide
      | false =>
        obtain ⟨-, rfl⟩ := Prog.runs_ret.mp h
        cases hboot
    · exact trial_slot h hboot

theorem mem_candidates_of {entries : Raw × Raw} {sector : UInt8} {e : Entry}
    (h : fibewi.entryOf entries sector = some e) (hb : bootable e = true) :
    ∃ c ∈ candidates entries, c.2 = e := by
  change decode (if sector = 0 then entries.1 else entries.2) = some e at h
  unfold candidates
  split at h
  · have : (decode entries.1).filter bootable = some e := by simp [h, hb]
    rw [this]
    cases (decode entries.2).filter bootable with
    | none => exact ⟨(0, e), by simp, rfl⟩
    | some e' =>
      refine ⟨(0, e), ?_, rfl⟩
      simp only
      split <;> simp
  · have : (decode entries.2).filter bootable = some e := by simp [h, hb]
    rw [this]
    cases (decode entries.1).filter bootable with
    | none => exact ⟨(1, e), by simp, rfl⟩
    | some e' =>
      refine ⟨(1, e), ?_, rfl⟩
      simp only
      split <;> simp

theorem candidates_pairwise (entries : Raw × Raw) :
    (candidates entries).Pairwise fun c c' => c'.2.seq ≤ c.2.seq := by
  unfold candidates
  split
  · split
    · next h => simpa using UInt32.le_of_lt h
    · next h => simpa using UInt32.not_lt.mp h
  · simp
  · simp
  · simp

theorem le_of_find?_eq_some {p : UInt8 × Entry → Bool} {l : List (UInt8 × Entry)}
    {c c' : UInt8 × Entry} (hl : l.Pairwise fun c c' => c'.2.seq ≤ c.2.seq)
    (h : l.find? p = some c) (hc' : c' ∈ l) (hp : p c' = true) : c'.2.seq ≤ c.2.seq := by
  induction hl with
  | nil => cases hc'
  | @cons a l ha hl ih =>
    rw [List.find?_cons] at h
    cases hpa : p a with
    | true =>
      rw [hpa] at h
      cases h
      rcases List.mem_cons.mp hc' with rfl | hc'
      · exact UInt32.le_refl _
      · exact ha c' hc'
    | false =>
      rw [hpa] at h
      rcases List.mem_cons.mp hc' with rfl | hc'
      · rw [hp] at hpa
        cases hpa
      · exact ih h hc'

inductive Planned (entries : Raw × Raw) (ok : UInt8 → Bool) : Plan Entry → Prop
  | halt (why) : Planned entries ok ⟨.halt why, []⟩
  | first : (∀ sector, fibewi.entryOf entries sector = none) →
      Planned entries ok ⟨.slot 0 1, [⟨0, 1, VALID⟩]⟩
  | chosen (c) : c ∈ candidates entries →
      (∀ c' ∈ candidates entries, ok (slotOf c'.2.seq 2) = true → c'.2.seq ≤ c.2.seq) →
      Planned entries ok (chosen 2 c)

theorem planned (entries : Raw × Raw) (ok : UInt8 → Bool) :
    Planned entries ok (fibewi.planned entries ok) := by
  change Planned entries ok ((planBoot entries 2).run (fun s slot => (ok slot, s)) ()).1
  unfold planBoot
  split
  · next hnone =>
    rw [Prog.run_call]
    cases ok 0 with
    | true =>
      refine .first fun sector => ?_
      change decode (if sector = 0 then entries.1 else entries.2) = none
      split
      · exact hnone.1
      · exact hnone.2
    | false => exact .halt _
  · rw [trial_run]
    cases hfind : (candidates entries).find? fun c => ok (slotOf c.2.seq 2) with
    | none => exact .halt _
    | some c =>
      refine .chosen c (List.mem_of_find?_eq_some hfind) fun c' hc' hok => ?_
      exact le_of_find?_eq_some (candidates_pairwise entries) hfind hc' hok

theorem entryOf_write (entries : Raw × Raw) (write : Write Entry) (sector : UInt8) :
    fibewi.entryOf (fibewi.writtenAll entries [write]) sector =
      if sector = 0 ↔ write.sector = 0 then some write.entry else fibewi.entryOf entries sector :=
  Fibewi.entryOf_written decodeEncode entries write sector

/-- Booting a new entry marks it pending. -/
theorem entryOf_chosen (entries : Raw × Raw) (c : UInt8 × Entry) (sector : UInt8) :
    fibewi.entryOf (fibewi.writtenAll entries (chosen 2 c).writes) sector =
      if c.2.state = NEW ∧ (sector = 0 ↔ c.1 = 0) then some { c.2 with state := PENDING_VERIFY }
      else fibewi.entryOf entries sector := by
  by_cases hnew : c.2.state = NEW
  · have hwrites : (chosen 2 c).writes = [⟨c.1, { c.2 with state := PENDING_VERIFY }⟩] := if_pos hnew
    rw [hwrites, entryOf_write]
    simp [hnew]
  · have hwrites : (chosen 2 c).writes = [] := if_neg hnew
    rw [hwrites, if_neg fun h => hnew h.1]
    rfl

theorem running_of_bootable {e : Entry} (h : bootable e = true) (hnew : e.state ≠ NEW) :
    fibewi.Running e := by
  simp only [bootable, Bool.or_eq_true, beq_iff_eq] at h
  rcases h with (h | h) | h
  · exact absurd h hnew
  · exact .inr h
  · exact .inl h

theorem bootable_of_running {e : Entry} (h : fibewi.Running e) : bootable e = true := by
  rw [← running_iff, running, Bool.or_eq_true] at h
  rw [bootable, Bool.or_assoc, Bool.or_comm (e.state == PENDING_VERIFY)]
  rcases h with h | h <;> simp [h]

theorem planLaw : fibewi.PlanLaw fun e => bootable e = true where
  booted {entries ok slot seq} h := by
    have hp := planned entries ok
    generalize fibewi.planned entries ok = plan at h hp ⊢
    cases hp with
    | halt why => cases h
    | first _ =>
      cases h
      exact ⟨by decide, 0, ⟨1, VALID⟩, by decide, entryOf_write _ _ _, .inl rfl, rfl⟩
    | chosen c hc _ =>
      cases h
      obtain ⟨hsector, he, hb⟩ := mem_candidates hc
      refine ⟨rfl, c.1, ?_⟩
      rw [entryOf_chosen]
      by_cases hnew : c.2.state = NEW
      · exact ⟨_, hsector, if_pos ⟨hnew, Iff.rfl⟩, .inr rfl, rfl⟩
      · exact ⟨_, hsector, (if_neg fun h => hnew h.1).trans he, running_of_bootable hb hnew, rfl⟩
  kept {entries ok slot seq sector e} h he hrun hlt := by
    have hp := planned entries ok
    generalize fibewi.planned entries ok = plan at h hp he
    cases hp with
    | halt why => cases h
    | first hnone =>
      cases h
      have he := (entryOf_write entries ⟨0, 1, VALID⟩ sector).symm.trans he
      rw [hnone] at he
      split at he
      · cases he
        exact absurd hlt (UInt32.lt_irrefl _)
      · cases he
    | chosen c hc _ =>
      cases h
      rw [entryOf_chosen] at he
      split at he
      · cases he
        exact absurd hlt (UInt32.lt_irrefl _)
      · exact he
  highest {entries ok slot seq sector e} h he hb hok := by
    have hp := planned entries ok
    generalize fibewi.planned entries ok = plan at h hp
    cases hp with
    | halt why => cases h
    | first hnone =>
      rw [hnone] at he
      cases he
    | chosen c _ hmax =>
      cases h
      obtain ⟨c', hc', rfl⟩ := mem_candidates_of he hb
      exact hmax c' hc' hok

theorem bootLaw : fibewi.BootLaw fun e => bootable e = true where
  activated {entries i write} h := by
    have hnew : write.entry.state = NEW := (activate_some h).2.1
    simp [bootable, hnew]
  there {entries ok slot seq} h := by
    have hp := planned entries ok
    generalize fibewi.planned entries ok = plan at h hp
    cases hp with
    | halt why => cases h
    | first hnone => exact .inr hnone
    | chosen c hc _ =>
      cases h
      exact .inl ⟨c.1, c.2, (mem_candidates hc).2.1, rfl⟩

/-! ### What a plan spares -/

inductive Trialled (entries : Raw × Raw) (ok : UInt8 → Bool) : Plan Entry → Prop
  | refused : (∀ sector, fibewi.entryOf entries sector = none) → ok 0 = false →
      Trialled entries ok ⟨.halt .noImage, []⟩
  | first : (∀ sector, fibewi.entryOf entries sector = none) → ok 0 = true →
      Trialled entries ok ⟨.slot 0 1, [⟨0, 1, VALID⟩]⟩
  | unusable : (∃ sector, fibewi.entryOf entries sector ≠ none) →
      (∀ c ∈ candidates entries, ok (slotOf c.2.seq 2) = false) → Trialled entries ok ⟨.halt .noUsableEntry, []⟩
  | chosen (c) : (∃ sector, fibewi.entryOf entries sector ≠ none) → c ∈ candidates entries →
      ok (slotOf c.2.seq 2) = true → Trialled entries ok (chosen 2 c)

theorem blank_iff {entries : Raw × Raw} : (decode entries.1 = none ∧ decode entries.2 = none) ↔
    ∀ sector, fibewi.entryOf entries sector = none := by
  constructor
  · rintro ⟨h₀, h₁⟩ sector
    change decode (if sector = 0 then entries.1 else entries.2) = none
    split
    · exact h₀
    · exact h₁
  · exact fun h => ⟨h 0, h 1⟩

theorem trialled (entries : Raw × Raw) (ok : UInt8 → Bool) : Trialled entries ok (fibewi.planned entries ok) := by
  change Trialled entries ok ((planBoot entries 2).run (fun s slot => (ok slot, s)) ()).1
  unfold planBoot
  split
  · next hnone =>
    rw [Prog.run_call]
    cases hok : ok 0 with
    | true => exact .first (blank_iff.mp hnone) hok
    | false => exact .refused (blank_iff.mp hnone) hok
  · next hsome =>
    have hsome := not_forall.mp (mt blank_iff.mpr hsome)
    rw [trial_run]
    cases hfind : (candidates entries).find? fun c => ok (slotOf c.2.seq 2) with
    | none => exact .unusable hsome fun c hc => by simpa using List.find?_eq_none.mp hfind c hc
    | some c =>
      have hok := (List.find?_eq_some_iff_append.mp hfind).1
      exact .chosen c hsome (List.mem_of_find?_eq_some hfind) hok

theorem bootable_of_valid {e : Entry} (h : e.state = VALID) : bootable e = true :=
  bootable_of_running (.inl h)

/-- Only a new entry is rewritten, to mark it pending. -/
theorem mem_chosen {c : UInt8 × Entry} {write : Write Entry} (h : write ∈ (chosen 2 c).writes) :
    c.2.state = NEW ∧ write = ⟨c.1, { c.2 with state := PENDING_VERIFY }⟩ := by
  simp only [chosen] at h
  split at h
  · next hnew => exact ⟨hnew, List.mem_singleton.mp h⟩
  · cases h

theorem sparingLaw : fibewi.SparingLaw where
  booted {entries ok slot seq} h := by
    have ht := trialled entries ok
    generalize fibewi.planned entries ok = plan at h ht
    cases ht with
    | refused | unusable => cases h
    | first _ hok =>
      cases h
      exact hok
    | chosen c _ _ hok =>
      cases h
      exact hok
  marked {entries ok write} h hrun := by
    have ht := trialled entries ok
    generalize fibewi.planned entries ok = plan at h ht
    cases ht with
    | refused | unusable => cases h
    | first _ hok =>
      cases List.mem_singleton.mp h
      exact hok
    | chosen c _ _ hok =>
      obtain ⟨-, rfl⟩ := mem_chosen h
      exact hok
  spared {entries ok write e} h he hvalid := by
    have ht := trialled entries ok
    generalize fibewi.planned entries ok = plan at h ht
    cases ht with
    | refused | unusable => cases h
    | first hblank _ =>
      rw [hblank] at he
      cases he
    | chosen c _ hc _ =>
      obtain ⟨hnew, rfl⟩ := mem_chosen h
      obtain ⟨-, hold, -⟩ := mem_candidates hc
      rw [hold] at he
      cases he
      exact absurd (hnew.symm.trans hvalid) (by decide)
  halted {entries ok why sector e} h he hvalid := by
    have ht := trialled entries ok
    generalize fibewi.planned entries ok = plan at h ht
    cases ht with
    | refused hblank _ =>
      rw [hblank] at he
      cases he
    | first _ _ => cases h
    | unusable _ hnone =>
      obtain ⟨c, hc, rfl⟩ := mem_candidates_of he (bootable_of_valid hvalid)
      exact hnone c hc
    | chosen c _ _ _ => cases h
  first {entries ok} hblank hok := by
    have ht := trialled entries ok
    generalize fibewi.planned entries ok = plan at ht
    cases ht with
    | refused _ hno => exact absurd (hok.symm.trans hno) (by decide)
    | first _ _ =>
      refine ⟨nofun, fun write h => ?_⟩
      cases List.mem_singleton.mp h
      rfl
    | unusable hsome _ => exact absurd hblank (not_forall.mpr hsome)
    | chosen c hsome _ _ => exact absurd hblank (not_forall.mpr hsome)

theorem revivalLaw : fibewi.RevivalLaw fun e => bootable e = true where
  valid := bootable_of_valid
  rejected {entries write} h := by
    obtain ⟨-, e, -, -, -, hstate⟩ := settle_some h
    simp [bootable, hstate, NEW, PENDING_VERIFY, VALID, ABORTED]
  booted {entries ok slot seq} h := by
    have ht := trialled entries ok
    generalize fibewi.planned entries ok = plan at h ht
    cases ht with
    | refused | unusable => cases h
    | first hblank _ => exact .inr hblank
    | chosen c _ hc _ =>
      cases h
      obtain ⟨-, he, hb⟩ := mem_candidates hc
      exact .inl ⟨c.1, c.2, he, hb, rfl⟩
  revived {entries ok write} h _ := by
    have ht := trialled entries ok
    generalize fibewi.planned entries ok = plan at h ht
    cases ht with
    | refused | unusable => cases h
    | first hblank _ => exact .inr hblank
    | chosen c _ hc _ =>
      obtain ⟨-, rfl⟩ := mem_chosen h
      obtain ⟨-, he, hb⟩ := mem_candidates hc
      exact .inl ⟨c.2, he, .inl hb, rfl⟩

theorem trialLaw : fibewi.TrialLaw := by
  intro entries ok write hmem hvalid
  have ht := trialled entries ok
  generalize fibewi.planned entries ok = plan at hmem ht
  cases ht with
  | refused | unusable => cases hmem
  | first hblank _ => exact hblank
  | chosen c _ _ _ =>
    obtain ⟨-, rfl⟩ := mem_chosen hmem
    exact absurd hvalid (by decide : PENDING_VERIFY ≠ VALID)

theorem stagingLaw : fibewi.StagingLaw fun e => bootable e = true := by
  intro entries ok write hmem hbootable
  have ht := trialled entries ok
  generalize fibewi.planned entries ok = plan at hmem ht
  cases ht with
  | refused | unusable => cases hmem
  | first hblank _ =>
    cases List.mem_singleton.mp hmem
    exact .inl rfl
  | chosen c _ _ _ =>
    obtain ⟨-, rfl⟩ := mem_chosen hmem
    exact .inr rfl

theorem wordLaw : fibewi.WordLaw where
  size := by decide
  words {write o₁ p₁ o₂ p₂} h := by
    cases h
    have hlen : (payload (fields write.entry)).len = 16 := fields_length write.entry
    exact ⟨rfl, by rw [hlen], rfl, rfl⟩

/-! ### Partition tables -/

def tableRecord (kind : PartitionType) (offset size : UInt32) : List UInt8 :=
  [0xAA, 0x50, kind.raw.1, kind.raw.2] ++ toLe 4 offset.toNat ++ toLe 4 size.toNat ++
    List.replicate 20 0

/-- An erased flash with this table. -/
def tableFlash (records : List (List UInt8)) : Flash :=
  fun a => if 0x8000 ≤ a then records.flatten.getD (a - 0x8000) 0xFF else 0xFF

def table : List (List UInt8) :=
  [tableRecord .dataOta 0xD000 0x2000, tableRecord .appOta0 0x20000 0x100000,
    tableRecord .appOta1 0x120000 0x100000]

theorem records_table : PartitionTable.records (Nor.read (tableFlash table) 0x8000 0xC00) = table := by
  rw [PartitionTable.records_read _ _ 96]
  decide +kernel

theorem lookupIn_table (kind : PartitionType) :
    firstMatch.lookupIn (tableFlash table) kind = some (match kind with
      | .dataOta => ⟨0xD000, 0x2000, ""⟩
      | .appOta0 => ⟨0x20000, 0x100000, ""⟩
      | .appOta1 => ⟨0x120000, 0x100000, ""⟩) := by
  rw [EspIdf.lookupIn_of_parse kind (t := table) (congrArg some records_table)]
  cases kind <;> decide

/-- The table with these two boot entries. -/
def otaFlash (entries : Raw × Raw) : Flash := fun a =>
  if 0xD000 ≤ a ∧ a < 0xE000 then entries.1.getD (a - 0xD000) 0xFF
  else if 0xE000 ≤ a ∧ a < 0xF000 then entries.2.getD (a - 0xE000) 0xFF
  else tableFlash table a

theorem read_otaFlash (entries : Raw × Raw) :
    Nor.read (otaFlash entries) 0x8000 0xC00 = Nor.read (tableFlash table) 0x8000 0xC00 :=
  read_eq_iff.mpr fun i hi => by rw [otaFlash, if_neg (by omega), if_neg (by omega)]

theorem lookupIn_otaFlash (entries : Raw × Raw) :
    firstMatch.lookupIn (otaFlash entries) = firstMatch.lookupIn (tableFlash table) :=
  firstMatch.lookupIn_congr fun a hlo hhi => by rw [otaFlash, if_neg (by omega), if_neg (by omega)]

end Espbewi.Sample
