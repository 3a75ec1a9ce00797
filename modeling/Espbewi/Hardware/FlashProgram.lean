import Espbewi.Hardware.FlashRead

/-! What `flash_program` asks of the ROM, write by write, and what `flash_read` finds afterwards. -/

namespace Espbewi.Hw

open Lib Nor Prog

/-- A command that succeeds was carried out, and one that fails changes nothing outside of it. -/
structure Contained (b : Behaviour) : Prop where
  done : ∀ log f c, (b.cmd log f c).1 = true → (b.cmd log f c).2 = c.apply f
  failed : ∀ log f c a, (b.cmd log f c).1 = false → ¬ c.Covers a → (b.cmd log f c).2 a = f a

theorem contained_of_honest {b : Behaviour} (h : b.Honest) : Contained b where
  done := h.done
  failed log f c _ hr ha := (h.torn log f c hr).of_not_covers ha

/-- The flash `f` with `data` programmed over it from `start` on. -/
def programmed (f : Flash) (start : Nat) (data : List UInt8) : Flash := fun a =>
  if start ≤ a ∧ a < start + data.length then f a &&& data.getD (a - start) 0 else f a

theorem programmed_eq (f : Flash) (start : Nat) (data : List UInt8) :
    programmed f start data = (Cmd.program start data).apply f := by
  funext a
  simp only [programmed, Cmd.apply]
  by_cases hlo : start ≤ a
  · by_cases hhi : a < start + data.length
    · rw [if_pos ⟨hlo, hhi⟩, if_pos hlo, List.getD_eq_getElem _ _ (by omega),
        List.getD_eq_getElem _ _ (by omega)]
    · rw [if_neg (fun h => hhi h.2), if_pos hlo, List.getD_eq_default _ _ (by omega), and_ff]
  · rw [if_neg (fun h => hlo h.1), if_neg hlo]

@[simp] theorem programmed_nil (f : Flash) (start : Nat) : programmed f start [] = f := by
  rw [programmed_eq, Cmd.apply_program_nil]

theorem programmed_append (f : Flash) (start : Nat) (l m : List UInt8) :
    programmed (programmed f start l) (start + l.length) m = programmed f start (l ++ m) := by
  rw [programmed_eq, programmed_eq, programmed_eq, Cmd.apply_program_append]

theorem programmed_erased {f : Flash} {start : Nat} {data : List UInt8} {a : Nat} (h : f a = 0xFF)
    (hlo : start ≤ a) (hhi : a < start + data.length) :
    programmed f start data a = data.getD (a - start) 0 := by
  rw [programmed, if_pos ⟨hlo, hhi⟩, h, ff_and]

/-- The ROM write succeeded. -/
def Written : Event HwOp HwOp.Ans → Prop
  | ⟨.spiflashWrite .., ok⟩ => ok = true
  | _ => True

/-- A ROM write of `bytes` at `start`: whole aligned words, at most 256 bytes of them, each
word with its first byte lowest. -/
def Carries (start : Nat) (bytes : List UInt8) (ev : Event HwOp HwOp.Ans) : Prop :=
  ∃ dest words n, ev.1 = .spiflashWrite dest words n ∧ dest.toNat = start ∧ n.toNat = bytes.length ∧
    start % 4 = 0 ∧ bytes.length % 4 = 0 ∧ 0 < bytes.length ∧ bytes.length ≤ 256 ∧
    words.length = 64 ∧ (words.flatMap fun w => toLe 4 w.toNat).take bytes.length = bytes

/-- The `i`-th 256 bytes; the last ones may be fewer. -/
def chunk (data : List UInt8) (i : Nat) : List UInt8 := (data.drop (256 * i)).take 256

theorem chunk_drop (data : List UInt8) (i : Nat) : chunk (data.drop 256) i = chunk data (i + 1) := by
  rw [chunk, chunk, List.drop_drop, Nat.mul_add_one, Nat.add_comm (256 * i)]

/-- The writes of a program of `data` at `start`, its result, and the flash before and after. -/
structure ProgramSpec (f : Flash) (start : Nat) (data : List UInt8)
    (writes : List (Event HwOp HwOp.Ans)) (r : Except FlashError Unit) (g : Flash) : Prop where
  chunks : ∀ i (hi : i < writes.length), Carries (start + 256 * i) (chunk data i) writes[i]
  bound : writes.length ≤ (data.length + 255) / 256
  ok : r = .ok () → (∀ ev ∈ writes, Written ev) ∧ writes.length = (data.length + 255) / 256 ∧
    g = programmed f start data
  error : ∀ e, r = .error e → ∃ pre ev dest, writes = pre ++ [ev] ∧ (∀ ev ∈ pre, Written ev) ∧
    ¬ Written ev ∧ e = .program dest ∧ dest.toNat = start + 256 * pre.length ∧
    ∀ a, ¬ (dest.toNat ≤ a ∧ a < dest.toNat + (chunk data pre.length).length) →
      g a = programmed f start (data.take (256 * pre.length)) a

variable {b : Behaviour} {other : State → (o : HwOp) → o.Ans} {s : State} {f g : Flash} {start : Nat}
  {data : List UInt8} {writes : List (Event HwOp HwOp.Ans)} {r : Except FlashError Unit}

theorem ProgramSpec.done : ProgramSpec f start [] [] (.ok ()) f where
  chunks _ hi := absurd hi (Nat.not_lt_zero _)
  bound := Nat.zero_le _
  ok _ := ⟨by simp, rfl, (programmed_nil f start).symm⟩
  error _ h := by cases h

theorem ProgramSpec.fail {ev : Event HwOp HwOp.Ans} {dest : UInt32} (hne : data ≠ [])
    (hcarries : Carries start (chunk data 0) ev) (hdest : dest.toNat = start) (hfailed : ¬ Written ev)
    (hg : ∀ a, ¬ (start ≤ a ∧ a < start + (chunk data 0).length) → g a = f a) :
    ProgramSpec f start data [ev] (.error (.program dest)) g where
  chunks i hi := by
    obtain rfl : i = 0 := by simpa using hi
    exact hcarries
  bound := by
    have := List.length_pos_of_ne_nil hne
    simp only [List.length_singleton]
    omega
  ok h := by cases h
  error e h := by
    cases h
    refine ⟨[], ev, dest, rfl, by simp, hfailed, rfl, hdest, fun a ha => ?_⟩
    rw [hdest] at ha
    simpa using hg a ha

/-- The loop goes on behind a chunk of `n` bytes; only the last chunk has less than 256. -/
theorem ProgramSpec.step {ev : Event HwOp HwOp.Ans} {n : Nat} (hn : n = min data.length 256)
    (hne : data ≠ []) (hcarries : Carries start (chunk data 0) ev) (hwritten : Written ev)
    {f' : Flash} (hf' : f' = programmed f start (data.take n))
    (h : ProgramSpec f' (start + n) (data.drop n) writes r g) :
    ProgramSpec f start data (ev :: writes) r g := by
  subst hf'
  have hpos := List.length_pos_of_ne_nil hne
  have hbound := h.bound
  rw [List.length_drop] at hbound
  have hfull : ∀ i, i < writes.length → n = 256 := by
    intro i hi
    omega
  exact {
    chunks := by
      rintro (_ | i) hi
      · exact hcarries
      · simp only [List.length_cons, Nat.add_lt_add_iff_right] at hi
        have hchunk := h.chunks i hi
        rw [hfull i hi, chunk_drop, Nat.add_assoc] at hchunk
        rw [Nat.mul_add_one, Nat.add_comm (256 * i)]
        exact hchunk
    bound := by
      simp only [List.length_cons]
      omega
    ok := by
      intro hok
      obtain ⟨hwrites, hlen, hg⟩ := h.ok hok
      rw [List.length_drop] at hlen
      refine ⟨List.forall_mem_cons.mpr ⟨hwritten, hwrites⟩, by simp only [List.length_cons]; omega, ?_⟩
      have happend := programmed_append f start (data.take n) (data.drop n)
      rw [List.length_take_of_le (by omega), List.take_append_drop] at happend
      rw [hg, happend]
    error := by
      intro e he
      obtain ⟨pre, ev', dest, rfl, hpre, hfailed, rfl, hdest, hg⟩ := h.error e he
      obtain rfl : n = 256 := hfull 0 (by simp)
      refine ⟨ev :: pre, ev', dest, rfl, List.forall_mem_cons.mpr ⟨hwritten, hpre⟩, hfailed, rfl, ?_,
        fun a ha => ?_⟩
      · rw [hdest, List.length_cons]
        omega
      · rw [List.length_cons, ← chunk_drop] at ha
        rw [List.length_cons, Nat.mul_add_one, Nat.add_comm (256 * pre.length)]
        have happend := programmed_append f start (data.take 256) ((data.drop 256).take (256 * pre.length))
        rw [List.length_take_of_le (by omega), ← List.take_add] at happend
        rw [hg a ha, happend] }

/-- What the loop issues for a chunk, and the flash command behind it. -/
theorem carries_write {addr : UInt32} {done : Nat} (haddr : addr.toNat % 4 = 0) (hlen : 4 ∣ data.length)
    (hfit : addr.toNat + data.length ≤ 2 ^ 32) (hdone : 4 ∣ done) (hlt : done < data.length) (ok : Bool) :
    Carries (addr.toNat + done) (chunk (data.drop done) 0)
      ⟨.spiflashWrite (addr + UInt32.ofNat done)
        (fillWords ((data.drop done).take (min (data.length - done) 256)))
        (UInt32.ofNat (min (data.length - done) 256)), ok⟩ := by
  have hchunk : (data.drop done).take (min (data.length - done) 256) = chunk (data.drop done) 0 := by
    rw [chunk, Nat.mul_zero, List.drop_zero, List.take_eq_take_iff, List.length_drop]
    omega
  have hlength : (chunk (data.drop done) 0).length = min (data.length - done) 256 := by
    rw [← hchunk, List.length_take, List.length_drop]
    omega
  rw [hchunk]
  refine ⟨_, _, _, rfl, toNat_add_ofNat (by omega), ?_, by omega, by omega, by omega, by omega, ?_,
    fillWords_bytes _ (by omega)⟩
  · rw [UInt32.toNat_ofNat', hlength]
    omega
  · rw [fillWords, List.length_append, List.length_map, List.length_replicate, chunksExact, chunks_length]
    omega

theorem Carries.cmd {bytes : List UInt8} {dest n : UInt32} {words : List UInt32} {ok : Bool}
    (h : Carries start bytes ⟨.spiflashWrite dest words n, ok⟩) :
    dest.toNat = start ∧ (words.flatMap fun w => toLe 4 w.toNat).take n.toNat = bytes := by
  obtain ⟨dest', words', n', hev, hdest, hn, -, -, -, -, -, hbytes⟩ := h
  cases hev
  exact ⟨hdest, by rw [hn, hbytes]⟩

theorem programLoop_spec (hb : Contained b) {addr : UInt32} (haddr : addr.toNat % 4 = 0)
    (hlen : 4 ∣ data.length) (hfit : addr.toNat + data.length ≤ 2 ^ 32) {done : Nat} (hdone : 4 ∣ done) :
    ProgramSpec s.flash (addr.toNat + done) (data.drop done)
      ((ExceptT.run (programLoop addr data done)).events (romDevice b other) s)
      ((ExceptT.run (programLoop addr data done)).run (romDevice b other) s).1
      ((ExceptT.run (programLoop addr data done)).run (romDevice b other) s).2.flash := by
  induction hn : data.length - done using Nat.strongRecOn generalizing done s with
  | ind n ih =>
    unfold programLoop
    split
    · next hlt =>
      have hcarries := carries_write haddr hlen hfit hdone hlt
      have hne : data.drop done ≠ [] := List.drop_eq_nil_iff.not.mpr (by omega)
      have hchunk : chunk (data.drop done) 0 = (data.drop done).take (min (data.length - done) 256) := by
        rw [chunk, Nat.mul_zero, List.drop_zero, List.take_eq_take_iff, List.length_drop]
        omega
      obtain ⟨hdest, hbytes⟩ := (hcarries true).cmd
      simp only [check, ExceptT.run_bind, ExceptT.run_mk, hwOp, op, call_bind, ret_bind, events_call,
        run_call, romDevice, Behaviour.issue, hdest, hbytes]
      cases hr : (b.cmd s.log s.flash (.program (addr.toNat + done) (chunk (data.drop done) 0))).1 with
      | true =>
        have hdone' : 4 ∣ done + min (data.length - done) 256 := by omega
        have hrest := ih _ (by omega) hdone' rfl
          (s := ⟨(b.cmd s.log s.flash (.program (addr.toNat + done) (chunk (data.drop done) 0))).2,
            s.log ++ [.program (addr.toNat + done) (chunk (data.drop done) 0)], s.reads⟩)
        rw [← Nat.add_assoc, ← List.drop_drop] at hrest
        refine ProgramSpec.step (by rw [List.length_drop]) hne (hcarries true) rfl ?_ hrest
        rw [← hchunk, programmed_eq]
        exact hb.done _ _ _ hr
      | false =>
        refine ProgramSpec.fail hne (hcarries false) hdest (by simp [Written]) fun a ha => ?_
        exact hb.failed _ _ _ a hr ha
    · next hge =>
      rw [List.drop_eq_nil_of_le (by omega)]
      exact .done

/-! ### The writes, and a read after them -/

/-- The addresses of a ROM write, from the first to behind the last. -/
def span : Event HwOp HwOp.Ans → Nat × Nat
  | ⟨.spiflashWrite dest _ n, _⟩ => (dest.toNat, dest.toNat + n.toNat)
  | _ => (0, 0)

theorem Carries.span {bytes : List UInt8} {ev : Event HwOp HwOp.Ans} (h : Carries start bytes ev) :
    span ev = (start, start + bytes.length) := by
  obtain ⟨dest, words, n, hev, hdest, hn, -⟩ := h
  obtain ⟨o, ans⟩ := ev
  cases hev
  rw [Hw.span, hdest, hn]

/-- Every write but the last is of 256 bytes. -/
theorem ProgramSpec.span (h : ProgramSpec f start data writes r g) {i : Nat} (hi : i < writes.length) :
    (span writes[i]).1 = start + 256 * i ∧ (span writes[i]).2 ≤ start + 256 * (i + 1) ∧
      (i + 1 < writes.length → (span writes[i]).2 = start + 256 * (i + 1)) := by
  have hbound := h.bound
  rw [(h.chunks i hi).span, chunk, List.length_take, List.length_drop]
  refine ⟨rfl, ?_, fun hnext => ?_⟩
  · simp only
    omega
  · simp only
    omega

theorem ProgramSpec.consecutive (h : ProgramSpec f start data writes r g) :
    writes.IsChain fun x y => (Hw.span x).2 = (Hw.span y).1 := by
  rw [List.isChain_iff_getElem]
  intro i hi
  rw [(h.span (by omega)).2.2 hi, (h.span hi).1]

theorem ProgramSpec.disjoint (h : ProgramSpec f start data writes r g) :
    writes.Pairwise fun x y => (Hw.span x).2 ≤ (Hw.span y).1 := by
  rw [List.pairwise_iff_getElem]
  intro i j hi hj hij
  have hi' := (h.span hi).2.1
  have hj' := (h.span hj).1
  omega

theorem flashReadInto_ok {offset : UInt32} {out : List UInt8} (hlen : offset.toNat + out.length ≤ 2 ^ 32)
    (h : ((flashReadInto offset out).run (romDevice b other) s).1.1 = .ok ()) :
    ((flashReadInto offset out).run (romDevice b other) s).1.2 = Nor.read s.flash offset.toNat out.length := by
  obtain ⟨-, -, hok, herror⟩ := flash_read_exact offset out hlen b other s
  by_cases hall : ∀ ev ∈ (flashReadInto offset out).events (romDevice b other) s, Answered ev
  · rw [hok hall]
  · push Not at hall
    obtain ⟨ev, hev, hfailed⟩ := hall
    obtain ⟨pre, post, hsplit⟩ := List.append_of_mem hev
    obtain ⟨-, -, src, n, -, hr⟩ := herror pre ev post hsplit hfailed
    rw [hr] at h
    cases h

theorem flashReadInto_readable (hb : b.Readable) {offset : UInt32} {out : List UInt8}
    (hlen : offset.toNat + out.length ≤ 2 ^ 32) :
    ((flashReadInto offset out).run (romDevice b other) s).1.1 = .ok () := by
  obtain ⟨-, -, hok, -⟩ := flash_read_exact offset out hlen b other s
  rw [hok fun ev hev => ?_]
  obtain ⟨o, ans⟩ := ev
  obtain ⟨s', hans⟩ := answer_of_mem_events hev
  change ans = (romDevice b other s' o).1 at hans
  subst hans
  cases o with
  | spiflashRead src n => simp [Answered, romDevice, Behaviour.fetch, hb s'.log s'.reads]
  | _ => trivial

/-- A program is one run of consecutive word writes; what is read afterwards, at any alignment, is
the old content with the data over it. A program that fails stops at the write that fails. -/
theorem flash_program_read (hb : Contained b) (other : State → (o : HwOp) → o.Ans) (s : State)
    (addr : UInt32) (data : List UInt8) :
    let p := ExceptT.run (flashProgram addr data)
    let writes := p.events (romDevice b other) s
    let r := (p.run (romDevice b other) s).1
    let s' := (p.run (romDevice b other) s).2
    (¬ (addr.toNat % 4 = 0 ∧ data.length % 4 = 0) → r = .error (.program addr) ∧ writes = [] ∧ s' = s) ∧
    (addr.toNat % 4 = 0 → data.length % 4 = 0 → addr.toNat + data.length ≤ 2 ^ 32 →
      ProgramSpec s.flash addr.toNat data writes r s'.flash ∧
      (writes.IsChain fun x y => (span x).2 = (span y).1) ∧
      (writes.Pairwise fun x y => (span x).2 ≤ (span y).1) ∧
      (r = .ok () → ∀ (offset : UInt32) (out : List UInt8), offset.toNat + out.length ≤ 2 ^ 32 →
        let read := ((flashReadInto offset out).run (romDevice b other) s').1
        (b.Readable → read.1 = .ok ()) ∧
        (read.1 = .ok () → read.2 =
          Nor.read (programmed s.flash addr.toNat data) offset.toNat out.length)) ∧
      ∀ a, addr.toNat ≤ a → a < addr.toNat + data.length → s.flash a = 0xFF →
        programmed s.flash addr.toNat data a = data.getD (a - addr.toNat) 0) := by
  intro p writes r s'
  have hland : ∀ n : Nat, n &&& 3 = n % 4 := fun n => Nat.and_two_pow_sub_one_eq_mod n 2
  refine ⟨fun hbad => ?_, fun haddr hlen hfit => ?_⟩
  · have hrefused : p = .ret (.error (.program addr)) := by
      refine if_pos ?_
      rw [hland]
      by_contra hgood
      push Not at hgood
      have := congrArg UInt32.toNat hgood.1
      rw [UInt32.toNat_and, show (3 : UInt32).toNat = 3 from rfl, hland] at this
      exact hbad ⟨this, hgood.2⟩
    simp only [r, writes, s', hrefused]
    exact ⟨rfl, rfl, rfl⟩
  · have hgood : p = ExceptT.run (programLoop addr data 0) := by
      refine congrArg ExceptT.run (if_neg ?_)
      simp [land_three_eq_zero haddr, hland, hlen]
    have hspec : ProgramSpec s.flash addr.toNat data writes r s'.flash := by
      simp only [r, writes, s', hgood]
      exact programLoop_spec hb haddr (Nat.dvd_of_mod_eq_zero hlen) hfit (Nat.dvd_zero 4)
    refine ⟨hspec, hspec.consecutive, hspec.disjoint, fun hok offset out hout => ?_,
      fun a hlo hhi herased => programmed_erased herased hlo hhi⟩
    refine ⟨fun hreadable => flashReadInto_readable hreadable hout, fun hread => ?_⟩
    rw [flashReadInto_ok hout hread, (hspec.ok hok).2.2]

/-- Eight bytes over erased flash, read back from an odd address. -/
theorem flash_program_read_eight :
    let s : State := ⟨fun _ => 0xFF, [], 0⟩
    let rom := romDevice perfect (steady fun _ _ => none)
    let s' := ((ExceptT.run (flashProgram 4 [1, 2, 3, 4, 5, 6, 7, 8])).run rom s).2
    ((flashReadInto 3 [0, 0, 0, 0]).run rom s').1.2 = [0xFF, 1, 2, 3] := by
  intro s rom s'
  obtain ⟨-, haligned⟩ := flash_program_read (contained_of_honest perfect_honest)
    (steady fun _ _ => none) s 4 [1, 2, 3, 4, 5, 6, 7, 8]
  obtain ⟨-, -, -, hread, -⟩ := haligned (by decide) (by decide) (by decide)
  have hok : ((ExceptT.run (flashProgram 4 [1, 2, 3, 4, 5, 6, 7, 8])).run rom s).1 = .ok () := by
    decide +kernel
  obtain ⟨hreadable, hbytes⟩ := hread hok 3 [0, 0, 0, 0] (by decide)
  exact (hbytes (hreadable perfect_readable)).trans (by decide +kernel)

end Espbewi.Hw
