import Mathlib.Data.List.Basic

/-! `espbewi-tls`: a `picoserve` connection over a TLS session. -/

namespace Espbewi.Tls

/-- `mbedtls_rs::Session`, as an `embedded_io` writer: `write` answers how many bytes of the
buffer it took, and `accepted` is all it has taken. -/
structure Session (σ ε : Type) where
  write : List UInt8 → σ → Except ε Nat × σ
  accepted : σ → List UInt8
  write_le {buf s n} : (write buf s).1 = .ok n → n ≤ buf.length
  write_pos {buf s n} : (write buf s).1 = .ok n → buf ≠ [] → 1 ≤ n
  write_accepted {buf s n} : (write buf s).1 = .ok n →
    accepted (write buf s).2 = accepted s ++ buf.take n

structure BorrowedBuffer (size : Nat) where
  filled : List UInt8
  fits : filled.length ≤ size

/-- What a closure puts into a cursor, by the room the cursor has, and what it returns. -/
abbrev Closure (R : Type) := (room : Nat) → BorrowedBuffer room × R

def TlsHalf.writeWith (S : Session σ ε) (f : Closure R) (s : σ) : Except ε R × σ :=
  let (buffer, output) := f 1024
  match S.write buffer.filled s with
  | (.ok _, s') => (.ok output, s')
  | (.error e, s') => (.error e, s')

/-- A call of `write_with`. -/
structure Call where
  R : Type
  f : Closure R

/-- The bytes that the closure of a call puts into its cursor. -/
def Call.put (c : Call) : List UInt8 := (c.f 1024).1.filled

def Call.puts (calls : List (σ × Call)) : List UInt8 := (calls.map fun c => c.2.put).flatten

/-- Calls of `write_with` that return `Ok`, each with the state it found; what else is done with
the session in between hands it no bytes. -/
inductive Run (S : Session σ ε) : σ → List (σ × Call) → σ → Prop
  | nil : Run S s [] s
  | between : Run S s calls s' → S.accepted s'' = S.accepted s' → Run S s calls s''
  | call (c : Call) {output : c.R} : Run S s calls s' →
      TlsHalf.writeWith S c.f s' = (.ok output, s'') → Run S s (calls ++ [(s', c)]) s''

/-- The session takes the whole buffer. -/
def Session.TakesAll (S : Session σ ε) (s : σ) (buf : List UInt8) : Prop :=
  (S.write buf s).1 = .ok buf.length

namespace TlsHalf

variable {S : Session σ ε} {s s' : σ}

theorem writeWith_ok {f : Closure R} {output : R} (h : writeWith S f s = (.ok output, s')) :
    ∃ n, (S.write (f 1024).1.filled s).1 = .ok n ∧ (S.write (f 1024).1.filled s).2 = s' := by
  simp only [writeWith] at h
  cases hwrite : S.write (f 1024).1.filled s with
  | mk result s'' =>
    rw [hwrite] at h
    cases result with
    | ok n =>
      cases h
      exact ⟨n, rfl, rfl⟩
    | error e => cases h

/-- What a call that returns `Ok` hands to the session. -/
theorem writeWith_accepted {c : Call} {output : c.R} (h : writeWith S c.f s = (.ok output, s')) :
    ∃ n, (S.write c.put s).1 = .ok n ∧ n ≤ c.put.length
      ∧ S.accepted s' = S.accepted s ++ c.put.take n := by
  obtain ⟨n, hn, rfl⟩ := writeWith_ok h
  exact ⟨n, hn, S.write_le hn, S.write_accepted hn⟩

end TlsHalf

namespace Run

variable {S : Session σ ε} {s s' : σ} {calls : List (σ × Call)}

@[simp] theorem puts_snoc (calls : List (σ × Call)) (s : σ) (c : Call) :
    Call.puts (calls ++ [(s, c)]) = Call.puts calls ++ c.put := by
  simp [Call.puts]

theorem accepted_length_le (h : Run S s calls s') :
    (S.accepted s').length ≤ (S.accepted s).length + (Call.puts calls).length := by
  induction h with
  | nil => exact Nat.le_add_right _ _
  | between _ hsame ih => rwa [hsame]
  | call c _ hcall ih =>
    obtain ⟨n, -, -, haccepted⟩ := TlsHalf.writeWith_accepted hcall
    have htaken : (c.put.take n).length ≤ c.put.length := List.length_take_le' ..
    rw [haccepted, puts_snoc, List.length_append, List.length_append]
    omega

/-- No byte is lost exactly when the session took every buffer whole. -/
theorem accepted_iff_takesAll (h : Run S s calls s') :
    S.accepted s' = S.accepted s ++ Call.puts calls ↔ ∀ c ∈ calls, S.TakesAll c.1 c.2.put := by
  induction h with
  | nil => simp [Call.puts]
  | between _ hsame ih => rw [hsame, ih]
  | @call _ s' s'' c _ hrun hcall ih =>
    obtain ⟨n, hn, hle, haccepted⟩ := TlsHalf.writeWith_accepted hcall
    have hlength := hrun.accepted_length_le
    simp only [List.forall_mem_append, List.forall_mem_singleton, ← ih, haccepted, puts_snoc]
    constructor
    · intro heq
      -- by length the last buffer is whole, and what came before it was not cut short either
      have hcount := congrArg List.length heq
      simp only [List.length_append, List.length_take] at hcount
      obtain rfl : n = c.put.length := by omega
      rw [List.take_length, ← List.append_assoc] at heq
      exact ⟨List.append_cancel_right heq, hn⟩
    · rintro ⟨hbefore, hwhole⟩
      obtain rfl : n = c.put.length := by
        rw [Session.TakesAll, hn] at hwhole
        exact Except.ok.inj hwhole
      rw [List.take_length, hbefore, List.append_assoc]

end Run

/-! ### A session with a fragment limit -/

/-- A session that sends records of at most `limit` bytes, one record a write. -/
def fragments (limit : Nat) (h : 0 < limit) : Session (List UInt8) Unit where
  write buf sent := (.ok (min limit buf.length), sent ++ buf.take limit)
  accepted sent := sent
  write_le hn := by
    cases hn
    exact Nat.min_le_right ..
  write_pos hn hne := by
    cases hn
    exact Nat.le_min_of_le_of_le h (List.length_pos_iff.mpr hne)
  write_accepted hn := by
    cases hn
    rw [List.take_eq_take_min]

/-- Puts `n` zero bytes into the cursor, or as many as it has room for. -/
def zeros (n : Nat) : Closure Unit := fun room =>
  (⟨List.replicate (min n room) 0, by
    rw [List.length_replicate]
    exact Nat.min_le_right n room⟩, ())

theorem run_zeros (limit n : Nat) (h : 0 < limit) : Run (fragments limit h) []
    [([], ⟨Unit, zeros n⟩)] ((List.replicate (min n 1024) 0).take limit) :=
  .call ⟨Unit, zeros n⟩ .nil rfl

/-- Three calls over 16-byte records, of which the second has more than one record to send. -/
def response : List (List UInt8 × Call) :=
  [([], ⟨Unit, zeros 4⟩), (List.replicate 4 0, ⟨Unit, zeros 24⟩), (List.replicate 20 0, ⟨Unit, zeros 2⟩)]

theorem run_response : Run (fragments 16 (by decide)) [] response (List.replicate 22 0) :=
  .call ⟨Unit, zeros 2⟩ (.call ⟨Unit, zeros 24⟩ (.call ⟨Unit, zeros 4⟩ .nil rfl) rfl) rfl

theorem accepted_iff_takesAll_zeros :
    (fragments 16 (by decide)).accepted (List.replicate 22 0) = [] ++ Call.puts response
      ↔ ∀ c ∈ response, (fragments 16 (by decide)).TakesAll c.1 c.2.put :=
  Run.accepted_iff_takesAll run_response

/-- A full buffer over a session that negotiated 512-byte records loses its second half. -/
theorem fragments_lose : ¬ ∀ (σ ε : Type) (S : Session σ ε) (s s' : σ) (calls : List (σ × Call)),
    Run S s calls s' → S.accepted s' = S.accepted s ++ Call.puts calls := by
  intro h
  have hlength := congrArg List.length (h _ _ _ _ _ _ (run_zeros 512 1024 (by decide)))
  simp only [fragments, Call.puts, Call.put, zeros, List.map_cons, List.map_nil, List.flatten_cons,
    List.flatten_nil, List.append_nil, List.nil_append, List.length_take, List.length_replicate] at hlength
  omega

end Espbewi.Tls
