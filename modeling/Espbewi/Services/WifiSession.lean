import Espbewi.Lib.Dropped
import Espbewi.Services.Wifi

/-! The manager over its radio: how long the radio lives, and which association a lease belongs to that
`connect` has waited for. -/

namespace Espbewi.Wifi

open Lib Prog Relation

abbrev Ipv4Address := UInt32

/-- An IPv4 configuration, and the association it was leased over. -/
structure Lease where
  association : Nat
  address : Ipv4Address
  deriving DecidableEq

/-- What is visible of the controller and of the network stack. `made` numbers the associations. -/
structure Link where
  config : StationConfig
  made : List StationConfig
  association : Option Nat
  lease : Option Lease
  deriving DecidableEq

def Link.down : Link := ⟨.default, [], none, none⟩

/-- What happens without a call: the access point goes away, DHCP configures the stack, the stack drops
its configuration. No association comes late: a `connect` that is dropped has associated by then or never does. -/
inductive Drift : Link → Link → Prop
  | lost : Drift l { l with association := none }
  | bound : l.association = some n → Drift l { l with lease := some ⟨n, address⟩ }
  | unbound : Drift l { l with lease := none }

/-- A call that fails may have had its effect, and an associated station may be left as it is by a
`connect` that succeeds. -/
def Answered (l : Link) : (o : WifiOp) → o.Ans → Link → Prop
  | .new, _, l' | .spawn, _, l' | .scan, _, l' => l' = l
  | .setConfig config, done, l' => l' = { l with config := config } ∨ done = false ∧ l' = l
  | .isConnected, r, l' => r = l.association.isSome ∧ l' = l
  | .disconnect, done, l' => l' = { l with association := none } ∨ done = false ∧ l' = l
  | .isConfigUp, r, l' => r = l.lease.isSome ∧ l' = l
  | .waitConfigDown, _, l' => l.lease = none ∧ l' = l
  | .connect, done, l' =>
    l' = { l with made := l.made ++ [l.config], association := some l.made.length } ∨
      l' = l ∧ (done = true → l.association ≠ none)
  | .waitConfigUp, _, l' => l.lease ≠ none ∧ l' = l

variable {σ : Type} {A : Answers WifiOp WifiOp.Ans σ} {idle : σ → σ → Prop} {link : σ → Link}

/-- The radio and the stack answer so, and time passes so. -/
structure RadioLaw (A : Answers WifiOp WifiOp.Ans σ) (idle : σ → σ → Prop) (link : σ → Link) : Prop where
  answers : ∀ s o r s', A s o r s' → ∃ l, ReflTransGen Drift (link s) l ∧ Answered l o r (link s')
  idles : ∀ s s', idle s s' → ReflTransGen Drift (link s) (link s')

namespace WifiManager

def ip (m : WifiManager) (l : Link) : Option Ipv4Address :=
  if m.hasRadio then l.lease.map Lease.address else none

/-- `ip_stack`, of which only the presence is read. -/
def ipStack (m : WifiManager) (l : Link) : Bool := m.hasRadio && l.lease.isSome

def isOnline (m : WifiManager) (l : Link) : Bool := m.ipStack l

/-- The configuration that `connect` asks for. -/
def asks (m : WifiManager) (ssid : Ssid) (password : List UInt8) : StationConfig :=
  ⟨ssid, password, m.bssidOf ssid⟩

/-- What `connect` does of the radio once it has one. -/
def rejoin (config : StationConfig) : WifiProg Bool := do
  if !(← leave) then return false
  associate config

end WifiManager

/-- From the boot on: calls that end, calls whose future is dropped on the way, and time that passes.
`tr` are the calls of the radio, `asked` the configurations that `connect` was called for. -/
inductive Session (A : Answers WifiOp WifiOp.Ans σ) (idle : σ → σ → Prop) (s₀ : σ) :
    WifiManager → σ → List (Event WifiOp WifiOp.Ans) → List StationConfig → Prop
  | boot : Session A idle s₀ .new s₀ [] []
  | idle : Session A idle s₀ m s tr asked → idle s s' → Session A idle s₀ m s' tr asked
  | scan : Session A idle s₀ m s tr asked → Runs m.scan tr' (networks, m') → Walks A s tr' s' →
    Session A idle s₀ m' s' (tr ++ tr') asked
  | connect : Session A idle s₀ m s tr asked → Runs (m.connect ssid password) tr' (joined, m') →
    Walks A s tr' s' → Session A idle s₀ m' s' (tr ++ tr') (asked ++ [m.asks ssid password])
  | dropScan : Session A idle s₀ m s tr asked → Runs m.radio tr₁ (true, m') → Begins (wifiOp .scan) tr₂ →
    Walks A s (tr₁ ++ tr₂) s' → Session A idle s₀ m' s' (tr ++ (tr₁ ++ tr₂)) asked
  | dropConnect : Session A idle s₀ m s tr asked → Runs m.radio tr₁ (true, m') →
    Begins (WifiManager.rejoin (m.asks ssid password)) tr₂ → Walks A s (tr₁ ++ tr₂) s' →
    Session A idle s₀ m' s' (tr ++ (tr₁ ++ tr₂)) (asked ++ [m.asks ssid password])

/-! ### The life of the radio -/

def WifiOp.starts : WifiOp → Bool
  | .new | .spawn => true
  | _ => false

/-- Not yet initialized, initialized once, or never to be. -/
inductive Life : WifiManager → List (Event WifiOp WifiOp.Ans) → Prop
  | fresh : Life ⟨true, true, false, table⟩ []
  | live : (∀ ev ∈ tr, ev.1.starts = false) →
    Life ⟨false, false, true, table⟩ (⟨.new, true⟩ :: ⟨.setConfig .default, true⟩ :: ⟨.spawn, ()⟩ :: tr)
  | dead : tr = [⟨.new, false⟩] ∨ tr = [⟨.new, true⟩, ⟨.setConfig .default, false⟩] →
    Life ⟨false, true, false, table⟩ tr

variable {m m' : WifiManager} {tr tr' : List (Event WifiOp WifiOp.Ans)} {s s₀ s' : σ} {ssid : Ssid}
  {password : List UInt8} {asked : List StationConfig}

/-- What `radio` adds to the life so far. -/
theorem Life.radio (h : Life m tr) {r : Bool × WifiManager} (hrun : Runs m.radio tr' r) :
    Life r.2 (tr ++ tr') ∧ r.1 = r.2.hasRadio ∧ r.2.strongestBssid = m.strongestBssid := by
  cases h with
  | fresh =>
    obtain ⟨made, tr₁, rfl, hnew⟩ := runs_call.mp hrun
    cases made with
    | false =>
      obtain ⟨rfl, rfl⟩ := runs_ret.mp hnew
      exact ⟨.dead (.inl rfl), rfl, rfl⟩
    | true =>
      obtain ⟨set, tr₂, rfl, hset⟩ := runs_call.mp hnew
      cases set with
      | false =>
        obtain ⟨rfl, rfl⟩ := runs_ret.mp hset
        exact ⟨.dead (.inr rfl), rfl, rfl⟩
      | true =>
        obtain ⟨_, tr₃, rfl, hspawn⟩ := runs_call.mp hset
        obtain ⟨rfl, rfl⟩ := runs_ret.mp hspawn
        exact ⟨.live nofun, rfl, rfl⟩
  | live hquiet =>
    obtain ⟨rfl, rfl⟩ := runs_ret.mp hrun
    rw [List.append_nil]
    exact ⟨.live hquiet, rfl, rfl⟩
  | dead hdead =>
    obtain ⟨rfl, rfl⟩ := runs_ret.mp hrun
    rw [List.append_nil]
    exact ⟨.dead hdead, rfl, rfl⟩

/-- Calls of a live radio that do not start it. -/
theorem Life.quiet (h : Life m tr) (hradio : m.hasRadio = true) (hquiet : ∀ ev ∈ tr', ev.1.starts = false)
    {table : List (Ssid × Bssid)} : Life { m with strongestBssid := table } (tr ++ tr') := by
  cases h with
  | fresh => cases hradio
  | live hlive =>
    refine .live fun ev hev => ?_
    rcases List.mem_append.mp hev with hev | hev
    · exact hlive ev hev
    · exact hquiet ev hev
  | dead => cases hradio

def WifiOp.tearsDown : WifiOp → Bool
  | .isConnected | .disconnect | .isConfigUp | .waitConfigDown => true
  | _ => false

theorem leave_tearsDown : WifiManager.leave.Only fun o => o.tearsDown = true := by
  have hdown : (do
      if ← wifiOp .isConfigUp then wifiOp .waitConfigDown
      return true : WifiProg Bool).Only fun o => o.tearsDown = true := by
    refine only_bind (only_op rfl) ?_
    rintro (_ | _)
    · trivial
    · exact only_bind (only_op rfl) fun _ => trivial
  refine only_bind (only_op rfl) ?_
  rintro (_ | _)
  · exact hdown
  · refine only_bind (only_op rfl) ?_
    rintro (_ | _)
    · trivial
    · exact hdown

theorem leave_makes : WifiManager.leave.Only (· ≠ .connect) :=
  leave_tearsDown.mono fun o ho heq => by
    cases heq
    cases ho

theorem rejoin_starts (config : StationConfig) : (WifiManager.rejoin config).Only fun o => o.starts = false := by
  refine only_bind (leave_tearsDown.mono fun o ho => ?_) ?_
  · cases o with
    | new | spawn => cases ho
    | _ => rfl
  · rintro (_ | _)
    · trivial
    · refine only_bind (only_op rfl) ?_
      rintro (_ | _)
      · trivial
      · refine only_bind (only_op rfl) ?_
        rintro (_ | _)
        · trivial
        · exact only_bind (only_op rfl) fun _ => trivial

theorem radio_setup (m : WifiManager) : m.radio.Only (· ≠ .connect) := by
  unfold WifiManager.radio
  split
  · trivial
  · split
    · trivial
    · refine only_bind (only_op nofun) ?_
      rintro (_ | _)
      · trivial
      · refine only_bind (only_op nofun) ?_
        rintro (_ | _)
        · trivial
        · cases m.hasResources
          · trivial
          · exact only_bind (only_op nofun) fun _ => trivial

/-- A call of `connect` that ends: without a radio, or through it. -/
theorem runs_connect {joined : Bool} (h : Runs (m.connect ssid password) tr (joined, m')) :
    ∃ tr₁ tr₂, tr = tr₁ ++ tr₂ ∧ ((joined = false ∧ tr₂ = [] ∧ Runs m.radio tr₁ (false, m')) ∨
      (Runs m.radio tr₁ (true, m') ∧ Runs (WifiManager.rejoin (m.asks ssid password)) tr₂ joined)) := by
  obtain ⟨tr₁, tr₂, ⟨ready, m₁⟩, rfl, hradio, hrest⟩ := runs_bind.mp h
  cases ready with
  | false =>
    obtain ⟨rfl, heq⟩ := runs_ret.mp hrest
    cases heq
    exact ⟨tr₁, [], rfl, .inl ⟨rfl, rfl, hradio⟩⟩
  | true =>
    obtain ⟨tr₃, tr₄, left, rfl, hleave, hrest⟩ := runs_bind.mp hrest
    cases left with
    | false =>
      obtain ⟨rfl, heq⟩ := runs_ret.mp hrest
      cases heq
      exact ⟨tr₁, _, rfl, .inr ⟨hradio, runs_bind.mpr ⟨tr₃, [], false, rfl, hleave, .ret⟩⟩⟩
    | true =>
      obtain ⟨tr₅, tr₆, joined', rfl, hjoin, hret⟩ := runs_bind.mp hrest
      obtain ⟨rfl, heq⟩ := runs_ret.mp hret
      cases heq
      refine ⟨tr₁, _, rfl, .inr ⟨hradio, runs_bind.mpr ⟨tr₃, tr₅, true, ?_, hleave, hjoin⟩⟩⟩
      rw [List.append_nil]

/-- A scan that ends: without a radio, or through it. -/
theorem runs_scan {networks : List Network} (h : Runs m.scan tr (networks, m')) :
    (networks = [] ∧ Runs m.radio tr (false, m')) ∨
      ∃ tr₁ found table m₁, tr = tr₁ ++ [⟨.scan, found⟩] ∧ Runs m.radio tr₁ (true, m₁) ∧
        m' = { m₁ with strongestBssid := table } := by
  obtain ⟨before, ready, m₁, hradio, hends⟩ := scan_cases h
  cases ready with
  | false =>
    obtain ⟨rfl, rfl, rfl⟩ := hends
    exact .inl ⟨rfl, hradio⟩
  | true =>
    obtain ⟨answer, rfl, hanswer⟩ := hends
    cases answer with
    | none => exact .inr ⟨before, none, m₁.strongestBssid, m₁, rfl, hradio, hanswer.2⟩
    | some aps => exact .inr ⟨before, some aps, _, m₁, rfl, hradio, hanswer.2⟩

theorem Session.life (h : Session A idle s₀ m s tr asked) : Life m tr := by
  have hquiet : ∀ {m₁ m₂ : WifiManager} {tr tr₁ tr₂ : List (Event WifiOp WifiOp.Ans)}, Life m₁ tr →
      Runs m₁.radio tr₁ (true, m₂) → (∀ ev ∈ tr₂, ev.1.starts = false) → ∀ table : List (Ssid × Bssid),
      Life { m₂ with strongestBssid := table } (tr ++ (tr₁ ++ tr₂)) := by
    intro m₁ m₂ tr tr₁ tr₂ hlife hradio hquiet table
    obtain ⟨hlife', hready, -⟩ := hlife.radio hradio
    rw [← List.append_assoc]
    exact hlife'.quiet hready.symm hquiet
  induction h with
  | boot => exact .fresh
  | idle _ _ ih => exact ih
  | scan _ hrun _ ih =>
    rcases runs_scan hrun with ⟨-, hradio⟩ | ⟨tr₁, found, table, m₁, rfl, hradio, rfl⟩
    · exact (ih.radio hradio).1
    · refine hquiet ih hradio (fun ev hev => ?_) table
      cases List.mem_singleton.mp hev
      rfl
  | connect _ hrun _ ih =>
    obtain ⟨tr₁, tr₂, rfl, ⟨-, rfl, hradio⟩ | ⟨hradio, hjoin⟩⟩ := runs_connect hrun
    · rw [List.append_nil]
      exact (ih.radio hradio).1
    · exact hquiet ih hradio ((rejoin_starts _).runs hjoin) _
  | dropScan _ hradio hscan _ ih =>
    have honly : (wifiOp .scan).Only fun o => o.starts = false := only_op rfl
    exact hquiet ih hradio (honly.begins hscan) _
  | dropConnect _ hradio hjoin _ ih => exact hquiet ih hradio ((rejoin_starts _).begins hjoin) _

/-! ### The association of a lease -/

variable {l l' : Link}

def Offline (l : Link) : Prop := l.association = none ∧ l.lease = none

/-- Every association was asked for, and everything visible refers to one that was made. -/
structure Rightful (asked : List StationConfig) (l : Link) : Prop where
  made : ∀ config ∈ l.made, config ∈ asked
  association : ∀ n, l.association = some n → n < l.made.length
  lease : ∀ lease, l.lease = some lease → lease.association < l.made.length

theorem Drift.same (h : Drift l l') : l'.made = l.made ∧ l'.config = l.config ∧
    (l.association = none → l'.association = none) ∧ (Offline l → Offline l') := by
  cases h with
  | lost => exact ⟨rfl, rfl, fun _ => rfl, fun h => ⟨rfl, h.2⟩⟩
  | bound hbound =>
    refine ⟨rfl, rfl, id, fun h => ?_⟩
    rw [h.1] at hbound
    cases hbound
  | unbound => exact ⟨rfl, rfl, id, fun h => ⟨h.1, rfl⟩⟩

theorem drifts_same (h : ReflTransGen Drift l l') : l'.made = l.made ∧ l'.config = l.config ∧
    (l.association = none → l'.association = none) ∧ (Offline l → Offline l') := by
  induction h with
  | refl => exact ⟨rfl, rfl, id, id⟩
  | tail _ hstep ih =>
    obtain ⟨hmade, hconfig, hassociation, hoffline⟩ := hstep.same
    exact ⟨hmade.trans ih.1, hconfig.trans ih.2.1, hassociation ∘ ih.2.2.1, hoffline ∘ ih.2.2.2⟩

/-- While no association but `n` is there, leases over `n` are all that comes. -/
theorem drifts_own {n : Nat} (h : ReflTransGen Drift l l')
    (hassociation : l.association = none ∨ l.association = some n)
    (hlease : ∀ lease, l.lease = some lease → lease.association = n) :
    ∀ lease, l'.lease = some lease → lease.association = n := by
  suffices (l'.association = none ∨ l'.association = some n) ∧ ∀ lease, l'.lease = some lease → lease.association = n
    from this.2
  induction h with
  | refl => exact ⟨hassociation, hlease⟩
  | tail _ hstep ih =>
    cases hstep with
    | lost => exact ⟨.inl rfl, ih.2⟩
    | bound hbound =>
      refine ⟨ih.1, fun lease heq => ?_⟩
      cases heq
      rcases ih.1 with hnone | hsome
      · rw [hnone] at hbound
        cases hbound
      · exact Option.some.inj (hbound.symm.trans hsome)
    | unbound => exact ⟨ih.1, nofun⟩

theorem Rightful.drift (h : Rightful asked l) (hdrift : Drift l l') : Rightful asked l' := by
  cases hdrift with
  | lost => exact ⟨h.made, nofun, h.lease⟩
  | bound hbound =>
    refine ⟨h.made, h.association, fun lease hlease => ?_⟩
    cases hlease
    exact h.association _ hbound
  | unbound => exact ⟨h.made, h.association, nofun⟩

theorem Rightful.drifts (h : Rightful asked l) (hdrift : ReflTransGen Drift l l') : Rightful asked l' := by
  induction hdrift with
  | refl => exact h
  | tail _ hstep ih => exact ih.drift hstep

theorem Rightful.made_one (h : Rightful asked l) (hconfig : l.config ∈ asked) : Rightful asked
    { l with made := l.made ++ [l.config], association := some l.made.length } := by
  constructor
  · intro config hmem
    rcases List.mem_append.mp hmem with hmem | hmem
    · exact h.made config hmem
    · cases List.mem_singleton.mp hmem
      exact hconfig
  · intro n hn
    cases hn
    rw [List.length_append]
    exact Nat.lt_succ_self _
  · exact fun lease hlease => Nat.lt_of_lt_of_le (h.lease lease hlease) (List.prefix_append ..).length_le

theorem Rightful.answered (h : Rightful asked l) {o : WifiOp} {r : o.Ans} (hanswer : Answered l o r l')
    (hconnect : o = .connect → l.config ∈ asked) : Rightful asked l' := by
  cases o with
  | new | spawn | scan =>
    cases hanswer
    exact h
  | isConnected | isConfigUp | waitConfigDown | waitConfigUp =>
    cases hanswer.2
    exact h
  | setConfig config =>
    rcases hanswer with rfl | ⟨-, rfl⟩
    · exact ⟨h.made, h.association, h.lease⟩
    · exact h
  | disconnect =>
    rcases hanswer with rfl | ⟨-, rfl⟩
    · exact ⟨h.made, nofun, h.lease⟩
    · exact h
  | connect =>
    rcases hanswer with rfl | ⟨rfl, -⟩
    · exact h.made_one (hconnect rfl)
    · exact h

/-- Only `connect` makes an association. -/
theorem Answered.made {o : WifiOp} {r : o.Ans} (h : Answered l o r l') (ho : o ≠ .connect) : l'.made = l.made := by
  cases o with
  | new | spawn | scan =>
    cases h
    rfl
  | isConnected | isConfigUp | waitConfigDown | waitConfigUp => rw [h.2]
  | setConfig | disconnect =>
    rcases h with rfl | ⟨-, rfl⟩
    · rfl
    · rfl
  | connect => exact absurd rfl ho

section Law

variable (law : RadioLaw A idle link)

include law

theorem rightful_quiet (hwalk : Walks A s tr s') (hquiet : ∀ ev ∈ tr, ev.1 ≠ .connect)
    (h : Rightful asked (link s)) : Rightful asked (link s') := by
  refine hwalk.preserves (P := (· ≠ .connect)) (J := fun s => Rightful asked (link s))
    (fun s o r s' ho h ha => ?_) hquiet h
  obtain ⟨l, hdrift, hanswer⟩ := law.answers s o r s' ha
  exact (h.drifts hdrift).answered hanswer fun heq => absurd heq ho

theorem made_quiet (hwalk : Walks A s tr s') (hquiet : ∀ ev ∈ tr, ev.1 ≠ .connect) :
    (link s').made = (link s).made := by
  refine hwalk.preserves (P := (· ≠ .connect)) (J := fun s₁ => (link s₁).made = (link s).made)
    (fun s₁ o r s' ho h ha => ?_) hquiet rfl
  obtain ⟨l, hdrift, hanswer⟩ := law.answers s₁ o r s' ha
  exact (hanswer.made ho).trans ((drifts_same hdrift).1.trans h)

/-- A teardown that succeeds leaves neither the old association nor its lease. -/
theorem leave_offline (h : WifiManager.leave.Exec A s true s') : Offline (link s') := by
  have hdown : ∀ {s : σ}, (link s).association = none → (do
      if ← wifiOp .isConfigUp then wifiOp .waitConfigDown
      return true : WifiProg Bool).Exec A s true s' → Offline (link s') := by
    intro s hassociation h
    obtain ⟨up, s₁, ha, hrest⟩ := exec_call.mp h
    obtain ⟨l, hdrift, hup, hl⟩ := law.answers _ _ _ _ ha
    have hassociation' : (link s₁).association = none := by rw [hl, (drifts_same hdrift).2.2.1 hassociation]
    cases up with
    | false =>
      obtain ⟨-, rfl⟩ := exec_ret.mp hrest
      refine ⟨hassociation', ?_⟩
      rw [hl]
      exact Option.isSome_eq_false_iff.mp hup.symm |> Option.isNone_iff_eq_none.mp
    | true =>
      obtain ⟨_, s₂, ha₂, hret⟩ := exec_call.mp hrest
      obtain ⟨-, rfl⟩ := exec_ret.mp hret
      obtain ⟨l₂, hdrift₂, hlease, hl₂⟩ := law.answers _ _ _ _ ha₂
      rw [hl₂]
      exact ⟨(drifts_same hdrift₂).2.2.1 hassociation', hlease⟩
  obtain ⟨connected, s₁, ha, hrest⟩ := exec_call.mp h
  obtain ⟨l, hdrift, hconnected, hl⟩ := law.answers _ _ _ _ ha
  cases connected with
  | false =>
    refine hdown ?_ hrest
    rw [hl]
    exact Option.isNone_iff_eq_none.mp (Option.isSome_eq_false_iff.mp hconnected.symm)
  | true =>
    obtain ⟨left, s₂, ha₂, hrest⟩ := exec_call.mp hrest
    obtain ⟨l₂, -, hleft⟩ := law.answers _ _ _ _ ha₂
    cases left with
    | false => cases (exec_ret.mp hrest).1
    | true =>
      rcases hleft with hleft | ⟨hfalse, -⟩
      · refine hdown ?_ hrest
        rw [hleft]
      · cases hfalse

/-- From a station that is offline, the lease waited for belongs to the association just made. -/
theorem associate_fresh {config : StationConfig} (hoffline : Offline (link s))
    (h : (WifiManager.associate config).Exec A s true s') :
    (link s').made = (link s).made ++ [config] ∧
      ∃ address, (link s').lease = some ⟨(link s).made.length, address⟩ := by
  obtain ⟨set, s₁, ha, hrest⟩ := exec_call.mp h
  obtain ⟨l, hdrift, hset⟩ := law.answers _ _ _ _ ha
  obtain ⟨hmade, -, -, hstill⟩ := drifts_same hdrift
  cases set with
  | false => cases (exec_ret.mp hrest).1
  | true =>
    obtain hset | ⟨hfalse, -⟩ := hset
    swap
    · cases hfalse
    have hoffline₁ : Offline (link s₁) := by
      rw [hset]
      exact hstill hoffline
    obtain ⟨connected, s₂, ha₂, hrest⟩ := exec_call.mp hrest
    obtain ⟨l₁, hdrift₁, hconnect⟩ := law.answers _ _ _ _ ha₂
    obtain ⟨hmade₁, hconfig₁, -, hstill₁⟩ := drifts_same hdrift₁
    cases connected with
    | false => cases (exec_ret.mp hrest).1
    | true =>
      obtain hconnect | ⟨-, hassociated⟩ := hconnect
      swap
      · exact absurd (hstill₁ hoffline₁).1 (hassociated rfl)
      obtain ⟨_, s₃, ha₃, hret⟩ := exec_call.mp hrest
      obtain ⟨-, rfl⟩ := exec_ret.mp hret
      obtain ⟨l₂, hdrift₂, hup, hl₂⟩ := law.answers _ _ _ _ ha₃
      have hnumber : l₁.made = (link s).made := by rw [hmade₁, hset, hmade]
      have hassociation : (link s₂).association = some (link s).made.length := by rw [hconnect, hnumber]
      have hlease : (link s₂).lease = none := by rw [hconnect, (hstill₁ hoffline₁).2]
      have hown := drifts_own hdrift₂ (.inr hassociation) fun lease h => by
        rw [hlease] at h
        cases h
      rw [hl₂]
      constructor
      · rw [(drifts_same hdrift₂).1, hconnect, hnumber, hconfig₁, hset]
      · obtain ⟨⟨n, address⟩, hlease⟩ := Option.ne_none_iff_exists'.mp hup
        cases hown _ hlease
        exact ⟨address, hlease⟩

theorem associate_rightful {config : StationConfig} (hasked : config ∈ asked)
    (hbegins : Begins (WifiManager.associate config) tr) (hwalk : Walks A s tr s')
    (h : Rightful asked (link s)) : Rightful asked (link s') := by
  rcases begins_call.mp hbegins with rfl | ⟨set, tr₁, rfl, hrest⟩
  · cases walks_nil.mp hwalk
    exact h
  obtain ⟨s₁, ha, hwalk₁⟩ := walks_cons.mp hwalk
  obtain ⟨l, hdrift, hset⟩ := law.answers _ _ _ _ ha
  have h₁ : Rightful asked (link s₁) := (h.drifts hdrift).answered hset nofun
  cases set with
  | false =>
    cases begins_ret.mp hrest
    cases walks_nil.mp hwalk₁
    exact h₁
  | true =>
    obtain hset | ⟨hfalse, -⟩ := hset
    swap
    · cases hfalse
    rcases begins_call.mp hrest with rfl | ⟨connected, tr₂, rfl, hend⟩
    · cases walks_nil.mp hwalk₁
      exact h₁
    obtain ⟨s₂, ha₂, hwalk₂⟩ := walks_cons.mp hwalk₁
    obtain ⟨l₁, hdrift₁, hconnect⟩ := law.answers _ _ _ _ ha₂
    -- what `connect` makes an association with is what was just set
    have hconfig : l₁.config ∈ asked := by
      rw [(drifts_same hdrift₁).2.1, hset]
      exact hasked
    refine rightful_quiet law hwalk₂ ?_ ((h₁.drifts hdrift₁).answered hconnect fun _ => hconfig)
    cases connected with
    | false =>
      cases begins_ret.mp hend
      exact nofun
    | true =>
      have honly : (do
          wifiOp .waitConfigUp
          return true : WifiProg Bool).Only (· ≠ .connect) := only_bind (only_op nofun) fun _ => trivial
      exact honly.begins hend

theorem rejoin_rightful {config : StationConfig} (hasked : config ∈ asked)
    (hbegins : Begins (WifiManager.rejoin config) tr) (hwalk : Walks A s tr s')
    (h : Rightful asked (link s)) : Rightful asked (link s') := by
  rcases begins_bind hbegins with hleave | ⟨tr₁, tr₂, left, rfl, hleave, hrest⟩
  · exact rightful_quiet law hwalk (leave_makes.begins hleave) h
  · obtain ⟨s₁, hwalk₁, hwalk₂⟩ := walks_append.mp hwalk
    have h₁ := rightful_quiet law hwalk₁ (leave_makes.runs hleave) h
    cases left with
    | false =>
      cases begins_ret.mp hrest
      cases walks_nil.mp hwalk₂
      exact h₁
    | true => exact associate_rightful law hasked hrest hwalk₂ h₁

theorem Session.rightful (hboot : link s₀ = .down) (h : Session A idle s₀ m s tr asked) :
    Rightful asked (link s) := by
  have hmore : ∀ {asked : List StationConfig} {l : Link} (config : StationConfig), Rightful asked l →
      Rightful (asked ++ [config]) l := fun config h =>
    ⟨fun c hc => List.mem_append_left _ (h.made c hc), h.association, h.lease⟩
  have hradio : ∀ {m₁ : WifiManager} {r} {tr₁ tr₂ : List (Event WifiOp WifiOp.Ans)} {asked} {s s' : σ},
      Rightful asked (link s) → Runs m₁.radio tr₁ r → Walks A s (tr₁ ++ tr₂) s' →
      ∃ s₁, Rightful asked (link s₁) ∧ Walks A s₁ tr₂ s' := by
    intro m₁ r tr₁ tr₂ asked s s' h hrun hwalk
    obtain ⟨s₁, hwalk₁, hwalk₂⟩ := walks_append.mp hwalk
    exact ⟨s₁, rightful_quiet law hwalk₁ ((radio_setup m₁).runs hrun) h, hwalk₂⟩
  induction h with
  | boot =>
    rw [hboot]
    exact ⟨nofun, nofun, nofun⟩
  | idle _ hidle ih => exact ih.drifts (law.idles _ _ hidle)
  | scan _ hrun hwalk ih =>
    rcases runs_scan hrun with ⟨-, hr⟩ | ⟨tr₁, found, table, m₁, rfl, hr, rfl⟩
    · exact rightful_quiet law hwalk ((radio_setup _).runs hr) ih
    · obtain ⟨s₁, h₁, hwalk₁⟩ := hradio ih hr hwalk
      refine rightful_quiet law hwalk₁ (fun ev hev => ?_) h₁
      cases List.mem_singleton.mp hev
      exact nofun
  | connect _ hrun hwalk ih =>
    obtain ⟨tr₁, tr₂, rfl, ⟨-, rfl, hr⟩ | ⟨hr, hjoin⟩⟩ := runs_connect hrun
    · obtain ⟨s₁, h₁, hwalk₁⟩ := hradio ih hr hwalk
      cases walks_nil.mp hwalk₁
      exact hmore _ h₁
    · obtain ⟨s₁, h₁, hwalk₁⟩ := hradio ih hr hwalk
      exact rejoin_rightful law (List.mem_append_right _ (List.mem_singleton_self _)) hjoin.begins hwalk₁ (hmore _ h₁)
  | dropScan _ hr hscan hwalk ih =>
    obtain ⟨s₁, h₁, hwalk₁⟩ := hradio ih hr hwalk
    have honly : (wifiOp .scan).Only (· ≠ .connect) := only_op nofun
    exact rightful_quiet law hwalk₁ (honly.begins hscan) h₁
  | dropConnect _ hr hjoin hwalk ih =>
    obtain ⟨s₁, h₁, hwalk₁⟩ := hradio ih hr hwalk
    exact rejoin_rightful law (List.mem_append_right _ (List.mem_singleton_self _)) hjoin hwalk₁ (hmore _ h₁)

/-- Whatever was called, dropped and lost before: a lease is one over an association that was asked for,
and `connect` returns `true` only with a lease over an association that it made itself. -/
theorem lease_as_asked (hboot : link s₀ = .down) (h : Session A idle s₀ m s tr asked) :
    (∀ lease, (link s).lease = some lease → ∃ config ∈ asked, (link s).made[lease.association]? = some config) ∧
    ∀ ssid password tr' m' s', Runs (m.connect ssid password) tr' (true, m') → Walks A s tr' s' →
      (link s').made = (link s).made ++ [m.asks ssid password] ∧
        ∃ address, (link s').lease = some ⟨(link s).made.length, address⟩ ∧ m'.ip (link s') = some address ∧
          m'.isOnline (link s') = true := by
  constructor
  · intro lease hlease
    have hlt := (h.rightful law hboot).lease lease hlease
    exact ⟨_, (h.rightful law hboot).made _ (List.getElem_mem hlt), List.getElem?_eq_getElem hlt⟩
  · intro ssid password tr' m' s' hrun hwalk
    obtain ⟨tr₁, tr₂, rfl, ⟨hfalse, -, -⟩ | ⟨hradio, hjoin⟩⟩ := runs_connect hrun
    · cases hfalse
    obtain ⟨s₁, hwalk₁, hwalk₂⟩ := walks_append.mp hwalk
    obtain ⟨left, s₂, hleave, hrest⟩ := exec_bind.mp (hjoin.exec hwalk₂)
    cases left with
    | false => cases (exec_ret.mp hrest).1
    | true =>
      have hsame : (link s₂).made = (link s).made := by
        have hradio' := made_quiet law hwalk₁ ((radio_setup m).runs hradio)
        refine (leave_makes.exec (J := fun s₃ => (link s₃).made = (link s₁).made) ?_ hleave rfl).trans hradio'
        intro s₃ o r s₄ ho hs ha
        obtain ⟨l, hdrift, hanswer⟩ := law.answers _ _ _ _ ha
        exact (hanswer.made ho).trans ((drifts_same hdrift).1.trans hs)
      obtain ⟨hmade, address, hlease⟩ := associate_fresh law (leave_offline law hleave) hrest
      have hready : m'.hasRadio = true := (h.life.radio hradio).2.1.symm
      rw [hsame] at hmade hlease
      refine ⟨hmade, address, hlease, ?_, ?_⟩
      · rw [WifiManager.ip, if_pos hready, hlease]
        rfl
      · rw [WifiManager.isOnline, WifiManager.ipStack, hready, hlease]
        rfl

end Law

/-- A radio that may do all that the law allows. -/
def sampleRadio : Answers WifiOp WifiOp.Ans Link := fun l o r l' => ∃ l₁, ReflTransGen Drift l l₁ ∧ Answered l₁ o r l'

theorem sampleRadio_law : RadioLaw sampleRadio (ReflTransGen Drift) id := ⟨fun _ _ _ _ h => h, fun _ _ h => h⟩

def sampleFirst : StationConfig := ⟨[0x61], [], none⟩

def sampleSecond : StationConfig := ⟨[0x62], [], none⟩

/-- Associated with the first network, and a lease over it. -/
def sampleLink : Link := ⟨sampleFirst, [sampleFirst], some 0, some ⟨0, 7⟩⟩

def sampleManager : WifiManager := ⟨false, false, true, []⟩

theorem session_first :
    ∃ tr, Session sampleRadio (ReflTransGen Drift) .down sampleManager sampleLink tr [sampleFirst] := by
  have hrun : Runs (WifiManager.new.connect [0x61] []) [⟨.new, true⟩, ⟨.setConfig .default, true⟩, ⟨.spawn, ()⟩,
      ⟨.isConnected, false⟩, ⟨.isConfigUp, false⟩, ⟨.setConfig sampleFirst, true⟩, ⟨.connect, true⟩,
      ⟨.waitConfigUp, ()⟩] (true, sampleManager) :=
    .call (.call (.call (.call (.call (.call (.call (.call .ret)))))))
  refine ⟨_, .connect .boot hrun ?_⟩
  exact .cons ⟨_, .refl, rfl⟩ <| .cons ⟨_, .refl, .inl rfl⟩ <| .cons ⟨_, .refl, rfl⟩ <| .cons ⟨_, .refl, rfl, rfl⟩ <|
    .cons ⟨_, .refl, rfl, rfl⟩ <| .cons ⟨_, .refl, .inl rfl⟩ <| .cons ⟨_, .refl, .inl rfl⟩ <|
    .cons ⟨sampleLink, .single (.bound rfl), nofun, rfl⟩ .nil

theorem lease_as_asked_second :
    ∃ l : Link, l.made = [sampleFirst, sampleSecond] ∧ l.lease.map Lease.association = some 1 := by
  obtain ⟨tr, h⟩ := session_first
  have hrun : Runs (sampleManager.connect [0x62] []) [⟨.isConnected, true⟩, ⟨.disconnect, true⟩, ⟨.isConfigUp, true⟩,
      ⟨.waitConfigDown, ()⟩, ⟨.setConfig sampleSecond, true⟩, ⟨.connect, true⟩, ⟨.waitConfigUp, ()⟩]
      (true, sampleManager) :=
    .call (.call (.call (.call (.call (.call (.call .ret))))))
  have hwalk : Walks sampleRadio sampleLink [⟨.isConnected, true⟩, ⟨.disconnect, true⟩, ⟨.isConfigUp, true⟩,
      ⟨.waitConfigDown, ()⟩, ⟨.setConfig sampleSecond, true⟩, ⟨.connect, true⟩, ⟨.waitConfigUp, ()⟩]
      ⟨sampleSecond, [sampleFirst, sampleSecond], some 1, some ⟨1, 9⟩⟩ :=
    .cons ⟨_, .refl, rfl, rfl⟩ <| .cons ⟨_, .refl, .inl rfl⟩ <| .cons ⟨_, .refl, rfl, rfl⟩ <|
    .cons ⟨_, .single .unbound, rfl, rfl⟩ <| .cons ⟨_, .refl, .inl rfl⟩ <| .cons ⟨_, .refl, .inl rfl⟩ <|
    .cons ⟨_, .single (.bound rfl), nofun, rfl⟩ .nil
  obtain ⟨hmade, address, hlease, -, -⟩ := (lease_as_asked sampleRadio_law rfl h).2 _ _ _ _ _ hrun hwalk
  exact ⟨_, hmade, congrArg (Option.map Lease.association) hlease⟩

/-- The radio is initialized once, at the first call. When that fails, no later call reaches it. -/
theorem radio_once (h : Session A idle s₀ m s tr asked) :
    Life m tr ∧ (tr ≠ [] → m.hasRadio = false →
      (∀ tr' r, Runs m.scan tr' r → tr' = [] ∧ r = ([], m)) ∧
      ∀ ssid password tr' r, Runs (m.connect ssid password) tr' r → tr' = [] ∧ r = (false, m)) := by
  refine ⟨h.life, fun hstarted hradio => ?_⟩
  cases h.life with
  | fresh => exact absurd rfl hstarted
  | live => cases hradio
  | dead => exact ⟨fun tr' r hrun => runs_ret.mp hrun, fun ssid password tr' r hrun => runs_ret.mp hrun⟩

theorem radio_once_failed : ∃ m, Life m [⟨.new, false⟩] ∧ ∀ ssid password tr r,
    Runs (WifiManager.connect m ssid password) tr r → tr = [] ∧ r = (false, m) := by
  have hrun : Runs WifiManager.new.scan [⟨.new, false⟩] ([], ⟨false, true, false, []⟩) := .call .ret
  have h : Session sampleRadio (ReflTransGen Drift) .down ⟨false, true, false, []⟩ .down [⟨.new, false⟩] [] :=
    .scan .boot hrun (.cons ⟨_, .refl, rfl⟩ .nil)
  obtain ⟨hlife, hdead⟩ := radio_once h
  exact ⟨_, hlife, (hdead (List.cons_ne_nil _ _) rfl).2⟩

end Espbewi.Wifi
