import Espbewi.Lib.Champions
import Espbewi.Lib.Trace
import Mathlib.Algebra.Order.Ring.Int

/-! `espbewi-wifi`: scans, and the access point that `connect` asks for. -/

namespace Espbewi.Wifi

open Lib Prog

/-- The bytes of an SSID. -/
abbrev Ssid := List UInt8

abbrev Bssid := Vector UInt8 6

inductive AuthenticationMethod
  | none
  | other (code : Nat)
  deriving DecidableEq

/-- A scan result, as far as it is read. -/
structure AccessPoint where
  ssid : Ssid
  bssid : Bssid
  signalStrength : Int8
  authMethod : Option AuthenticationMethod
  deriving DecidableEq

structure Network where
  ssid : Ssid
  signalStrength : Int8
  secured : Bool
  deriving DecidableEq

structure StationConfig where
  ssid : Ssid
  password : List UInt8
  bssid : Option Bssid
  deriving DecidableEq

def StationConfig.default : StationConfig := ⟨[], [], none⟩

/-- What the manager calls of `esp_radio` and `embassy_net`. -/
inductive WifiOp
  | new
  | setConfig (config : StationConfig)
  | spawn
  | scan
  | isConnected
  | disconnect
  | isConfigUp
  | waitConfigDown
  | connect
  | waitConfigUp

@[reducible] def WifiOp.Ans : WifiOp → Type
  | .new | .setConfig _ | .isConnected | .disconnect | .isConfigUp | .connect => Bool
  | .scan => Option (List AccessPoint)
  | .spawn | .waitConfigDown | .waitConfigUp => Unit

abbrev WifiProg (α : Type) := Prog WifiOp WifiOp.Ans α

def wifiOp (o : WifiOp) : WifiProg o.Ans := op o

/-- Whether the peripheral, the socket resources and the radio are there. -/
structure WifiManager where
  hasPeripheral : Bool
  hasResources : Bool
  hasRadio : Bool
  strongestBssid : List (Ssid × Bssid)
  deriving DecidableEq

def WifiManager.new : WifiManager := ⟨true, true, false, []⟩

namespace WifiManager

/-- The radio, initialized at its first use: whether there is one. -/
def radio (m : WifiManager) : WifiProg (Bool × WifiManager) :=
  if m.hasRadio then pure (true, m)
  else if !m.hasPeripheral then pure (false, m)
  else do
    let m := { m with hasPeripheral := false }
    if !(← wifiOp .new) then return (false, m)
    if !(← wifiOp (.setConfig .default)) then return (false, m)
    if !m.hasResources then return (false, m)
    wifiOp .spawn
    return (true, { m with hasResources := false, hasRadio := true })

end WifiManager

/-- `(ssid, bssid, signal_strength, secured)`. -/
structure Entry where
  ssid : Ssid
  bssid : Bssid
  signalStrength : Int8
  secured : Bool
  deriving DecidableEq

def secured : Option AuthenticationMethod → Bool
  | none => false
  | some .none => false
  | some (.other _) => true

def AccessPoint.entry (ap : AccessPoint) : Entry :=
  ⟨ap.ssid, ap.bssid, ap.signalStrength, secured ap.authMethod⟩

/-- The first entry of the SSID is kept unless the new one is stronger. -/
def keepStrongest (entry : Entry) : List Entry → List Entry
  | [] => [entry]
  | known :: rest =>
    if known.ssid = entry.ssid then
      if known.signalStrength ≥ entry.signalStrength then known :: rest else entry :: rest
    else known :: keepStrongest entry rest

def strongestOf (accessPoints : List AccessPoint) : List Entry :=
  accessPoints.foldl (fun strongest ap =>
    if ap.ssid.isEmpty then strongest else keepStrongest ap.entry strongest) []

def Entry.network (e : Entry) : Network := ⟨e.ssid, e.signalStrength, e.secured⟩

namespace WifiManager

def scan (m : WifiManager) : WifiProg (List Network × WifiManager) := do
  let (ready, m) ← m.radio
  if !ready then return ([], m)
  match ← wifiOp .scan with
  | none => return ([], m)
  | some accessPoints =>
    let strongest := strongestOf accessPoints
    return (strongest.map Entry.network, { m with strongestBssid := strongest.map fun e => (e.ssid, e.bssid) })

/-- The BSSID that `connect` pins. -/
def bssidOf (m : WifiManager) (ssid : Ssid) : Option Bssid :=
  (m.strongestBssid.find? fun known => known.1 == ssid).map Prod.snd

/-- The part of `connect` that tears down an association and its DHCP configuration. -/
def leave : WifiProg Bool := do
  if ← wifiOp .isConnected then
    if !(← wifiOp .disconnect) then return false
  if ← wifiOp .isConfigUp then
    wifiOp .waitConfigDown
  return true

/-- The part of `connect` that sets up the new one. -/
def associate (config : StationConfig) : WifiProg Bool := do
  if !(← wifiOp (.setConfig config)) then return false
  if !(← wifiOp .connect) then return false
  wifiOp .waitConfigUp
  return true

def connect (m : WifiManager) (ssid : Ssid) (password : List UInt8) : WifiProg (Bool × WifiManager) := do
  let bssid := m.bssidOf ssid
  let (ready, m) ← m.radio
  if !ready then return (false, m)
  if !(← leave) then return (false, m)
  return (← associate ⟨ssid, password, bssid⟩, m)

end WifiManager

/-! ### One entry for each SSID -/

variable {aps aps' : List AccessPoint} {m m' : WifiManager} {tr : List (Event WifiOp WifiOp.Ans)}

def Entry.strength (e : Entry) : Int := e.signalStrength.toInt

theorem keepStrongest_eq (e : Entry) (es : List Entry) :
    keepStrongest e es = challenge Entry.ssid Entry.strength e es := by
  induction es with
  | nil => rfl
  | cons known rest ih =>
    rw [keepStrongest, challenge, ih]
    simp only [ge_iff_le, Int8.le_iff_toInt_le]
    split
    · exact apply_ite (· :: rest) .. |>.symm
    · rfl

def AccessPoint.entry? (ap : AccessPoint) : Option Entry :=
  if ap.ssid.isEmpty then none else some ap.entry

theorem strongestOf_eq (aps : List AccessPoint) :
    strongestOf aps = champions Entry.ssid Entry.strength (aps.filterMap AccessPoint.entry?) := by
  rw [champions, List.foldl_filterMap]
  unfold strongestOf
  congr 1
  funext es ap
  simp only [keepStrongest_eq, AccessPoint.entry?]
  split
  · rfl
  · rfl

theorem entry?_some {ap : AccessPoint} {e : Entry} : ap.entry? = some e ↔ ap.ssid ≠ [] ∧ ap.entry = e := by
  simp [AccessPoint.entry?]

/-- The networks and the table that a scan leaves. -/
structure Scanned (aps : List AccessPoint) (networks : List Network) (m : WifiManager) : Prop where
  ssids : networks.map Network.ssid = ((aps.map AccessPoint.ssid).filter fun ssid => !ssid.isEmpty).eraseDups
  distinct : (networks.map Network.ssid).Nodup
  complete : ∀ ssid, ssid ∈ networks.map Network.ssid ↔ ssid ≠ [] ∧ ∃ ap ∈ aps, ap.ssid = ssid
  table : m.strongestBssid.map Prod.fst = networks.map Network.ssid
  strongest : ∀ n ∈ networks, ∃ pre ap post, aps = pre ++ ap :: post ∧
    n = ⟨ap.ssid, ap.signalStrength, secured ap.authMethod⟩ ∧ m.bssidOf n.ssid = some ap.bssid ∧
    (∀ ap' ∈ pre, ap'.ssid = ap.ssid → ap'.signalStrength < ap.signalStrength) ∧
    ∀ ap' ∈ post, ap'.ssid = ap.ssid → ap'.signalStrength ≤ ap.signalStrength
  unpinned : ∀ ssid, ssid ∉ networks.map Network.ssid → m.bssidOf ssid = none

theorem strongestOf_ranked (aps : List AccessPoint) :
    Ranked Entry.ssid Entry.strength (aps.filterMap AccessPoint.entry?) (strongestOf aps) := by
  rw [strongestOf_eq]
  exact champions_ranked _

theorem ssid_entries (aps : List AccessPoint) : (aps.filterMap AccessPoint.entry?).map Entry.ssid =
    (aps.map AccessPoint.ssid).filter fun ssid => !ssid.isEmpty := by
  induction aps with
  | nil => rfl
  | cons ap aps ih =>
    cases hempty : ap.ssid.isEmpty with
    | true => simp [AccessPoint.entry?, hempty, ← ih]
    | false => simp [AccessPoint.entry?, hempty, ← ih, AccessPoint.entry]

theorem find_mem {e : Entry} {es : List Entry} (hnodup : (es.map Entry.ssid).Nodup) (he : e ∈ es) :
    (es.map fun e => (e.ssid, e.bssid)).find? (fun known => known.1 == e.ssid) =
      some (e.ssid, e.bssid) := by
  induction es with
  | nil => cases he
  | cons e' es ih =>
    rw [List.map_cons, List.nodup_cons] at hnodup
    rw [List.map_cons]
    rcases List.mem_cons.mp he with rfl | he
    · rw [List.find?_cons_of_pos (by simp)]
    · have hne : e'.ssid ≠ e.ssid := fun heq => hnodup.1 (heq ▸ List.mem_map_of_mem he)
      rw [List.find?_cons_of_neg (by simpa using hne)]
      exact ih hnodup.2 he

theorem scanned (htable : m.strongestBssid = (strongestOf aps).map fun e => (e.ssid, e.bssid)) :
    Scanned aps ((strongestOf aps).map Entry.network) m := by
  have hranked := strongestOf_ranked aps
  have hssids : ((strongestOf aps).map Entry.network).map Network.ssid = (strongestOf aps).map Entry.ssid :=
    List.map_map ..
  exact {
    ssids := by
      rw [hssids, hranked.keys, ssid_entries]
      congr 1
      exact lawful_beq_subsingleton _ _
    distinct := by
      rw [hssids]
      exact hranked.nodup
    complete := by
      intro ssid
      rw [hssids, hranked.mem_keys, ssid_entries]
      simp [and_comm]
    table := by
      rw [htable, hssids]
      exact List.map_map ..
    strongest := by
      intro n hn
      obtain ⟨e, he, rfl⟩ := List.mem_map.mp hn
      obtain ⟨pre, ap, post, rfl, hap, hpre, hpost⟩ := (hranked.champion e he).of_filterMap
      obtain ⟨hssid, rfl⟩ := entry?_some.mp hap
      refine ⟨pre, ap, post, rfl, rfl, ?_, fun ap' hap' heq => ?_, fun ap' hap' heq => ?_⟩
      · rw [WifiManager.bssidOf, htable]
        exact congrArg (Option.map Prod.snd) (find_mem hranked.nodup he)
      · exact Int8.lt_iff_toInt_lt.mpr
          (hpre ap' hap' ap'.entry (entry?_some.mpr ⟨heq ▸ hssid, rfl⟩) heq)
      · exact Int8.le_iff_toInt_le.mpr
          (hpost ap' hap' ap'.entry (entry?_some.mpr ⟨heq ▸ hssid, rfl⟩) heq)
    unpinned := by
      intro ssid hssid
      rw [hssids] at hssid
      rw [WifiManager.bssidOf, htable, List.find?_eq_none.mpr, Option.map_none]
      intro known hknown heq
      obtain ⟨e, he, rfl⟩ := List.mem_map.mp hknown
      exact hssid (List.mem_map.mpr ⟨e, he, eq_of_beq heq⟩) }

/-- The order of the scan results does not matter for the strengths. -/
theorem strengths_perm (h : aps.Perm aps') (p : Ssid × Int8) :
    p ∈ (strongestOf aps).map (fun e => (e.ssid, e.signalStrength)) ↔
      p ∈ (strongestOf aps').map fun e => (e.ssid, e.signalStrength) := by
  have hstrength : ∀ aps : List AccessPoint,
      p ∈ (strongestOf aps).map (fun e => (e.ssid, e.signalStrength)) ↔
        (p.1, p.2.toInt) ∈ (strongestOf aps).map fun e => (e.ssid, e.strength) := by
    intro aps
    simp only [List.mem_map, Prod.ext_iff, Entry.strength, Int8.toInt_inj]
  rw [hstrength, hstrength, strongestOf_eq, strongestOf_eq]
  exact mem_champions_perm (h.filterMap _) _

/-! ### Runs -/

theorem radio_returns (m : WifiManager) : m.radio.Returns fun r =>
    r.2.strongestBssid = m.strongestBssid ∧ (r.1 = true → r.2.hasRadio = true) := by
  unfold WifiManager.radio
  split
  · next hradio => exact ⟨rfl, fun _ => hradio⟩
  · split
    · exact ⟨rfl, nofun⟩
    · simp only [wifiOp, op, call_bind, ret_bind, returns_call]
      rintro (_ | _)
      · exact ⟨rfl, nofun⟩
      · rintro (_ | _)
        · exact ⟨rfl, nofun⟩
        · cases m.hasResources
          · exact ⟨rfl, nofun⟩
          · exact fun _ => ⟨rfl, fun _ => rfl⟩

theorem radio_only (m : WifiManager) : m.radio.Only (· ≠ .scan) := by
  unfold WifiManager.radio
  split
  · trivial
  · split
    · trivial
    · refine ⟨nofun, ?_⟩
      rintro (_ | _)
      · trivial
      · refine ⟨nofun, ?_⟩
        rintro (_ | _)
        · trivial
        · cases m.hasResources
          · trivial
          · exact ⟨nofun, fun _ => trivial⟩

/-- How a scan ends: without a radio, or with the answer to the one scan that it asks of it. -/
theorem scan_cases {networks : List Network} (h : Runs m.scan tr (networks, m')) :
    ∃ before ready m₁, Runs m.radio before (ready, m₁) ∧ match ready with
      | false => tr = before ∧ networks = [] ∧ m' = m₁
      | true => ∃ answer, tr = before ++ [⟨.scan, answer⟩] ∧ match answer with
        | none => networks = [] ∧ m' = m₁
        | some aps => networks = (strongestOf aps).map Entry.network ∧
          m' = { m₁ with strongestBssid := (strongestOf aps).map fun e => (e.ssid, e.bssid) } := by
  obtain ⟨before, rest, ⟨ready, m₁⟩, rfl, hradio, hrest⟩ := runs_bind.mp h
  refine ⟨before, ready, m₁, hradio, ?_⟩
  cases ready with
  | false =>
    obtain ⟨rfl, heq⟩ := runs_ret.mp hrest
    cases heq
    exact ⟨List.append_nil _, rfl, rfl⟩
  | true =>
    obtain ⟨answer, rest, rfl, hend⟩ := runs_call.mp hrest
    cases answer with
    | none =>
      obtain ⟨rfl, heq⟩ := runs_ret.mp hend
      cases heq
      exact ⟨none, rfl, rfl, rfl⟩
    | some aps =>
      obtain ⟨rfl, heq⟩ := runs_ret.mp hend
      cases heq
      exact ⟨some aps, rfl, rfl, rfl⟩

/-- The networks and the table of a scan that the radio answered, whatever else it called. -/
theorem scan_answered {networks : List Network} (h : Runs m.scan tr (networks, m')) (hmem : ⟨.scan, some aps⟩ ∈ tr) :
    m'.hasRadio = true ∧ networks = (strongestOf aps).map Entry.network ∧
      m'.strongestBssid = (strongestOf aps).map fun e => (e.ssid, e.bssid) := by
  obtain ⟨before, ready, m₁, hradio, hends⟩ := scan_cases h
  have hquiet : ∀ answer, ⟨.scan, answer⟩ ∉ before := fun answer hmem => (radio_only m).runs hradio _ hmem rfl
  cases ready with
  | false =>
    rw [hends.1] at hmem
    exact absurd hmem (hquiet _)
  | true =>
    obtain ⟨answer, rfl, hanswer⟩ := hends
    rcases List.mem_append.mp hmem with hmem | hmem
    · exact absurd hmem (hquiet _)
    · cases List.mem_singleton.mp hmem
      obtain ⟨rfl, rfl⟩ := hanswer
      exact ⟨((radio_returns m).runs hradio).2 rfl, rfl, rfl⟩

theorem leave_only : WifiManager.leave.Only fun o => ∀ config, o ≠ .setConfig config := by
  have hdown : (do
      if ← wifiOp .isConfigUp then wifiOp .waitConfigDown
      return true : WifiProg Bool).Only fun o => ∀ config, o ≠ .setConfig config := by
    refine only_bind (only_op nofun) ?_
    rintro (_ | _)
    · trivial
    · exact only_bind (only_op nofun) fun _ => trivial
  refine only_bind (only_op nofun) ?_
  rintro (_ | _)
  · exact hdown
  · refine only_bind (only_op nofun) ?_
    rintro (_ | _)
    · trivial
    · exact hdown

theorem associate_only (config : StationConfig) :
    (WifiManager.associate config).Only fun o => ∀ config', o = .setConfig config' → config' = config := by
  refine only_bind (only_op fun config' h => (WifiOp.setConfig.inj h).symm) ?_
  rintro (_ | _)
  · trivial
  · refine only_bind (only_op nofun) ?_
    rintro (_ | _)
    · trivial
    · exact only_bind (only_op nofun) fun _ => trivial

/-- With the radio up, `connect` sets no other configuration than the one it is asked for. -/
theorem connect_only (hradio : m.hasRadio = true) (ssid : Ssid) (password : List UInt8) :
    (m.connect ssid password).Only fun o => ∀ config, o = .setConfig config →
      config = ⟨ssid, password, m.bssidOf ssid⟩ := by
  unfold WifiManager.connect WifiManager.radio
  rw [if_pos hradio]
  simp only [pure_eq, ret_bind, Bool.not_true, Bool.false_eq_true, if_false]
  refine only_bind (leave_only.mono fun o ho config h => absurd h (ho config)) ?_
  rintro (_ | _)
  · trivial
  · exact only_bind (associate_only _) fun _ => trivial

/-- A `connect` that succeeds has set the configuration that it is asked for. -/
theorem connect_sets (hradio : m.hasRadio = true) {ssid : Ssid} {password : List UInt8}
    (h : Runs (m.connect ssid password) tr (true, m')) :
    ⟨.setConfig ⟨ssid, password, m.bssidOf ssid⟩, true⟩ ∈ tr := by
  unfold WifiManager.connect WifiManager.radio at h
  rw [if_pos hradio] at h
  simp only [pure_eq, ret_bind, Bool.not_true, Bool.false_eq_true, if_false] at h
  obtain ⟨tr₁, tr₂, left, rfl, -, hrest⟩ := runs_bind.mp h
  cases left with
  | false => cases (runs_ret.mp hrest).2
  | true =>
    obtain ⟨tr₃, tr₄, joined, rfl, hjoin, hend⟩ := runs_bind.mp hrest
    obtain ⟨-, heq⟩ := runs_ret.mp hend
    cases heq
    obtain ⟨set, tr₅, rfl, hset⟩ := runs_call.mp hjoin
    cases set with
    | false => cases (runs_ret.mp hset).2
    | true => simp

/-- What a scan asks for, returns and keeps, and the access point that a connect after it asks for. -/
theorem scan_strongest {networks : List Network} (h : Runs m.scan tr (networks, m')) :
    ∃ before ready m₁, Runs m.radio before (ready, m₁) ∧ (∀ ev ∈ before, ev.1 ≠ .scan) ∧ match ready with
      | false => tr = before ∧ networks = [] ∧ m'.strongestBssid = m.strongestBssid
      | true => ∃ answer, tr = before ++ [⟨.scan, answer⟩] ∧ match answer with
        | none => networks = [] ∧ m'.strongestBssid = m.strongestBssid
        | some aps => Scanned aps networks m' ∧
          (∀ ssid password tr' r, Runs (m'.connect ssid password) tr' r →
            (r.1 = true → ⟨.setConfig ⟨ssid, password, m'.bssidOf ssid⟩, true⟩ ∈ tr') ∧
            ∀ ev ∈ tr', ∀ config, ev.1 = .setConfig config → config = ⟨ssid, password, m'.bssidOf ssid⟩) ∧
          ∀ m₁ m₁' tr₁ networks₁ aps₁, Runs (WifiManager.scan m₁) tr₁ (networks₁, m₁') → ⟨.scan, some aps₁⟩ ∈ tr₁ →
            aps.Perm aps₁ → ∀ p, p ∈ networks.map (fun n => (n.ssid, n.signalStrength)) ↔
              p ∈ networks₁.map fun n => (n.ssid, n.signalStrength) := by
  obtain ⟨before, ready, m₁, hradio, hends⟩ := scan_cases h
  have hsame := ((radio_returns m).runs hradio).1
  refine ⟨before, ready, m₁, hradio, (radio_only m).runs hradio, ?_⟩
  cases ready with
  | false =>
    obtain ⟨rfl, rfl, rfl⟩ := hends
    exact ⟨rfl, rfl, hsame⟩
  | true =>
    obtain ⟨answer, rfl, hanswer⟩ := hends
    refine ⟨answer, rfl, ?_⟩
    cases answer with
    | none =>
      obtain ⟨rfl, rfl⟩ := hanswer
      exact ⟨rfl, hsame⟩
    | some aps =>
      obtain ⟨hup, rfl, htable⟩ := scan_answered h (List.mem_append_right _ (List.mem_singleton_self _))
      refine ⟨scanned htable, fun ssid password tr' r hrun => ⟨fun hjoined => ?_, ?_⟩,
        fun m₁ m₁' tr₁ networks₁ aps₁ h₁ hmem₁ hperm p => ?_⟩
      · obtain ⟨joined, m''⟩ := r
        cases hjoined
        exact connect_sets hup hrun
      · exact (connect_only hup ssid password).runs hrun
      · obtain ⟨-, rfl, -⟩ := scan_answered h₁ hmem₁
        rw [List.map_map, List.map_map]
        exact strengths_perm hperm p

/-- One SSID twice, the stronger access point second, and one without a name. -/
def sampleAccessPoints : List AccessPoint :=
  [⟨[0x61], .replicate 6 1, -70, none⟩, ⟨[], .replicate 6 2, -10, none⟩,
    ⟨[0x61], .replicate 6 3, -40, some (.other 3)⟩, ⟨[0x61], .replicate 6 4, -40, none⟩]

theorem run_scan_sample : Runs (WifiManager.scan ⟨false, false, true, []⟩) [⟨.scan, some sampleAccessPoints⟩]
    ([⟨[0x61], -40, true⟩], ⟨false, false, true, [([0x61], .replicate 6 3)]⟩) := .call .ret

theorem scan_strongest_sample :
    Runs (WifiManager.scan ⟨false, false, true, []⟩) [⟨.scan, some sampleAccessPoints⟩]
      ([⟨[0x61], -40, true⟩], ⟨false, false, true, [([0x61], .replicate 6 3)]⟩) ∧
    Scanned sampleAccessPoints [⟨[0x61], -40, true⟩] ⟨false, false, true, [([0x61], .replicate 6 3)]⟩ := by
  refine ⟨run_scan_sample, ?_⟩
  obtain ⟨before, ready, m₁, -, hquiet, hends⟩ := scan_strongest run_scan_sample
  cases ready with
  | false => exact absurd rfl (hquiet _ (hends.1 ▸ List.mem_singleton_self _))
  | true =>
    obtain ⟨answer, htr, hanswer⟩ := hends
    obtain rfl : before = [] := List.length_eq_zero_iff.mp (by simpa using congrArg List.length htr)
    cases htr
    exact hanswer.1

end Espbewi.Wifi
