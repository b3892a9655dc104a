import NewMavlink.Endpoints.VehicleLoop

/-! # From the vehicle to the ground station

The vehicle, the proxy service and the ground station, and a network that hands the last two any
datagrams at any time: it may drop, repeat, reorder, change and invent them. The AEAD is ideal in a
run if neither the proxy nor the station ever opens what was not sealed for it.

* `inv_networkStep`: what was committed at the proxy was sealed by the vehicle, what was relayed was
  committed, and what was shown was relayed; each at most once. -/

namespace NewMavlink.Endpoints.Authenticity

open NewMavlink.Lib.Runs NewMavlink.Lib.Programs NewMavlink.Wire NewMavlink.Crypto
open NewMavlink.State.Messages NewMavlink.State.Publisher NewMavlink.Record.SealOpen
open NewMavlink.Record.SendLog NewMavlink.Record.OpenCommit NewMavlink.Transport
open NewMavlink.ProxyService (Status serviceStep outHeader)
open NewMavlink.ProxyRelay (committed)
open NewMavlink.Endpoints.GroundStation (StateValue Station Showing decodeState records shown
  stationStep)
open NewMavlink.Endpoints.VehicleLoop (Vehicle vehicleStep sealedIn Logged RunningAt ReturnedAt
  contents contentOf planned due)
open NewMavlink.Endpoints.Hops

/-- The durations that the three programs are given. -/
structure Durations where
  vehicle : UInt64
  proxy : UInt64
  station : UInt64

/-- The three programs, with what the vehicle has sealed, what the proxy has committed and sealed
again, and what the station has shown. -/
structure Network where
  vehicle : Program Vehicle
  proxy : Status
  station : Program Station
  published : List (PublishedMessage × Sent) := []
  accepted : List OpenRecord := []
  relayed : List Sent := []
  showings : List Showing := []

/-- A round of one of the programs. -/
inductive Move where
  | vehicle (sendTo : ℕ → Bool)
  | proxy (r : ProxyService.Round)
  | station (r : GroundStation.Round)

/-- What the proxy seals in a round: the record that it commits, under its new header. -/
def resealed (P : Aead) : Status → ProxyService.Round → List Sent
  | .running s, r => (committed P (.running s) r).flatMap fun c =>
      seals P s.egress (outHeader c s.egressSequence) c.bytes
  | .exited _, _ => []

/-- The three programs after a round of one of them. -/
def networkStep (P : Aead) (d : Durations) (x : Network) : Move → Network
  | .vehicle sendTo =>
    { x with
      vehicle := vehicleStep P d.vehicle x.vehicle sendTo
      published := x.published ++ sealedIn P d.vehicle x.vehicle sendTo }
  | .proxy r =>
    { x with
      proxy := serviceStep P d.proxy x.proxy r
      accepted := x.accepted ++ committed P x.proxy r
      relayed := x.relayed ++ resealed P x.proxy r }
  | .station r =>
    { x with
      station := stationStep P d.station x.station r
      showings := x.showings ++ shown P d.station x.station r }

/-- The programs as they start; the flags say whether their ports can be bound. -/
def start (auth : Auth Block) (vehicleBound proxyBound stationBound : Bool) : Network where
  vehicle := VehicleLoop.start auth vehicleBound
  proxy := ProxyService.start auth proxyBound
  station := GroundStation.start auth stationBound

/-- **The AEAD is ideal**: what the proxy opens the vehicle has sealed, and what the station opens
the proxy has. -/
def Unforged (P : Aead) (x : Network) : Move → Prop
  | .vehicle _ => True
  | .proxy r => ∀ s, x.proxy = .running s →
      Ideal P (x.published.map Prod.snd) s.ingress r.datagram
  | .station r => ∀ s, x.station = .running s → Ideal P x.relayed s.endpoint r.datagram

variable {P : Aead} {d : Durations} {x : Network}

/-! ### The invariant -/

/-- The vehicle has kept to its plan. -/
def OnPlan (durationMs : UInt64) (log : List (PublishedMessage × Sent)) : Program Vehicle → Prop :=
  Program.Holds (fun v => ∃ n, RunningAt durationMs n log v) (fun _ => ∃ n, contents log <+: due n)

/-- **What holds after every move.** -/
structure Inv (d : Durations) (x : Network) : Prop where
  logged : Logged x.published
  plan : OnPlan d.vehicle x.published x.vehicle
  accepted : Taken (x.published.map Prod.snd) x.accepted
  ingress : ∀ s, x.proxy = .running s →
    Record.OpenCommit.Inv { session := s.ingress.session, committed := x.accepted }
  relayed : x.relayed.map sealedContent <+: x.accepted.map content
  level : ∀ s, x.proxy = .running s → x.relayed.length = x.accepted.length
  shown : Taken x.relayed (records x.showings)
  station : ∀ s, x.station = .running s →
    Record.OpenCommit.Inv { session := s.endpoint.session, committed := records x.showings }
  values : ∀ y ∈ x.showings, decodeState y.record.header.type y.record.bytes = some y.value

theorem onPlan_step {durationMs : UInt64} (hduration : durationMs ≤ 18446744073709551600)
    {log : List (PublishedMessage × Sent)} {vehicle : Program Vehicle} (hlog : Logged log)
    (h : OnPlan durationMs log vehicle) (sendTo : ℕ → Bool) :
    Logged (log ++ sealedIn P durationMs vehicle sendTo) ∧
      OnPlan durationMs (log ++ sealedIn P durationMs vehicle sendTo)
        (vehicleStep P durationMs vehicle sendTo) := by
  cases vehicle with
  | exited code =>
    rw [sealedIn, output_exited, List.append_nil]
    exact ⟨hlog, h⟩
  | running v =>
    obtain ⟨n, hn⟩ := h
    obtain ⟨hlogged, hstate⟩ := VehicleLoop.inv_vehicleStep (P := P) hduration hlog
      (show (Program.running v).Holds _ (ReturnedAt durationMs n log) from hn) sendTo
    refine ⟨hlogged, ?_⟩
    have hinitial := (VehicleLoop.contents_initial hstate).1
    cases hnext : vehicleStep P durationMs (.running v) sendTo with
    | running v' => rw [hnext] at hstate; exact ⟨_, hstate⟩
    | exited code => exact ⟨_, hinitial⟩

theorem sealedContent_sentBy (s : Session) (c : OpenRecord) (sequence : UInt64)
    (cipher : List UInt8) :
    sealedContent (sentBy s (outHeader c sequence) (.data c.bytes) cipher) = content c := rfl

theorem inv_proxy_idle (h : Inv d x) {next : Status} (hnext : ∀ s', next = .running s' →
      ∃ s, x.proxy = .running s ∧ s'.ingress = s.ingress) : Inv d { x with proxy := next } := by
  refine { h with ingress := ?_, level := ?_ }
  · intro s' hs'
    obtain ⟨s, hs, hsame⟩ := hnext s' hs'
    rw [hsame]
    exact h.ingress s hs
  · intro s' hs'
    obtain ⟨s, hs, -⟩ := hnext s' hs'
    exact h.level s hs

/-- **A round of the proxy**: what it commits was sealed by the vehicle, and what it seals is what
it commits. -/
theorem inv_proxy (h : Inv d x) {r : ProxyService.Round} (hideal : Unforged P x (.proxy r)) :
    Inv d (networkStep P d x (.proxy r)) := by
  unfold networkStep
  cases hproxy : x.proxy with
  | exited code =>
    have hnone : committed P (.exited code) r = [] := rfl
    have hnone' : resealed P (.exited code) r = [] := rfl
    simp only [hnone, hnone', List.append_nil]
    exact inv_proxy_idle h fun s hs => by cases hs
  | running s =>
    have hlevel := h.level s hproxy
    have hingress := h.ingress s hproxy
    have hsame : x.relayed.map sealedContent = x.accepted.map content :=
      h.relayed.eq_of_length (by simpa using hlevel)
    have hideal := hideal s hproxy
    have htake : ∀ c, ProxyRelay.Admitted P s r c →
        Taken (x.published.map Prod.snd) (x.accepted ++ [c]) := fun c hc =>
      taken_commit h.accepted (inv_commit hingress hc.epoch hc.fresh).nodup hideal hc.opened
    rcases ProxyRelay.round_cases P d.proxy s r with ⟨hnone, -, hnext⟩ |
      ⟨c, hc, hone, hround⟩ | ⟨c, record, hc, hone, hsend, -, hnext⟩
    · have hnone' : resealed P (.running s) r = [] := by rw [resealed, hnone, List.flatMap_nil]
      simp only [hnone, hnone', List.append_nil]
      refine inv_proxy_idle h fun s' hs' => ⟨s, hproxy, ?_⟩
      obtain ⟨b, rfl⟩ := hnext s' hs'
      rfl
    all_goals
      have hseals : resealed P (.running s) r = seals P s.egress (outHeader c s.egressSequence)
          c.bytes := by rw [resealed, hone, List.flatMap_singleton]
    · -- the record is committed and not sent, so this is the last round
      have hexited : serviceStep P d.proxy (.running s) r = .exited 5 := congrArg Prod.snd hround
      refine { h with accepted := ?_, ingress := ?_, relayed := ?_, level := ?_, shown := ?_ }
      all_goals simp only [hone, hseals, hexited]
      · exact htake c hc
      · exact fun s' hs' => by cases hs'
      · rw [List.map_append, List.map_append, hsame]
        refine (List.prefix_append_right_inj _).mpr ?_
        rcases send_cases P s.egress (outHeader c s.egressSequence) c.bytes r.sendTo with
          ⟨-, hs⟩ | ⟨cipher, -, -, hs, -⟩
        · rw [hs]
          exact List.nil_prefix
        · rw [hs, List.map_singleton, sealedContent_sentBy]
          exact List.prefix_rfl
      · exact fun s' hs' => by cases hs'
      · exact h.shown.mono
    · obtain ⟨cipher, hs⟩ : ∃ cipher, seals P s.egress (outHeader c s.egressSequence) c.bytes =
          [sentBy s.egress.session (outHeader c s.egressSequence) (.data c.bytes) cipher] := by
        rcases send_cases P s.egress (outHeader c s.egressSequence) c.bytes r.sendTo with
          ⟨hrefused, -⟩ | ⟨cipher, -, -, hs, -⟩
        · rw [hrefused] at hsend
          cases hsend
        · exact ⟨cipher, hs⟩
      refine { h with accepted := ?_, ingress := ?_, relayed := ?_, level := ?_, shown := ?_ }
      all_goals simp only [hone, hseals, hs]
      · exact htake c hc
      · intro s' hs'
        rw [hnext s' hs']
        exact inv_commit hingress hc.epoch hc.fresh
      · rw [List.map_append, List.map_append, hsame, List.map_singleton, sealedContent_sentBy]
        exact List.prefix_rfl
      · exact fun _ _ => by simp [hlevel]
      · exact h.shown.mono

theorem inv_station_idle (h : Inv d x) {next : Program Station}
    (hnext : ∀ s, next = .running s → x.station = .running s) :
    Inv d { x with station := next } :=
  { h with station := fun s hs => h.station s (hnext s hs) }

/-- **A round of the station**: what it shows was sealed by the proxy. -/
theorem inv_station (h : Inv d x) {r : GroundStation.Round} (hideal : Unforged P x (.station r)) :
    Inv d (networkStep P d x (.station r)) := by
  unfold networkStep
  cases hstation : x.station with
  | exited code =>
    have hnone : shown P d.station (.exited code) r = [] := rfl
    simp only [hnone, List.append_nil]
    exact inv_station_idle h fun s hs => by cases hs
  | running s =>
    have hcommitted := h.station s hstation
    have hideal := hideal s hstation
    have hshown : shown P d.station (.running s) r =
        (GroundStation.round P d.station s r).1.toList := rfl
    have hstep : stationStep P d.station (.running s) r =
        (GroundStation.round P d.station s r).2 := rfl
    rcases GroundStation.round_cases P d.station s r with hround | hround | ⟨y, hy, hround⟩
    · simp only [hshown, hstep, hround, Option.toList_none, List.append_nil]
      exact inv_station_idle h fun s' hs' => hstation.trans hs'
    · simp only [hshown, hstep, hround, Option.toList_none, List.append_nil]
      exact inv_station_idle h fun s' hs' => by cases hs'
    · have hone : shown P d.station (.running s) r = [y] := by
        rcases hround with hround | hround <;> rw [hshown, hround, Option.toList_some]
      have hrecords : records (x.showings ++ [y]) = records x.showings ++ [y.record] := by
        simp [records]
      have hnew := inv_commit hcommitted hy.epoch hy.fresh
      refine { h with shown := ?_, station := ?_, values := ?_ }
      all_goals simp only [hone]
      · rw [hrecords]
        exact taken_commit h.shown hnew.nodup hideal hy.opened
      · intro s' hs'
        rw [hstep] at hs'
        rcases hround with hround | hround
        · rw [hround] at hs'
          rw [← Program.running.inj hs', hrecords]
          exact hnew
        · rw [hround] at hs'
          cases hs'
      · exact forall_mem_log h.values hy.decodes

/-- **Every move keeps the invariant.** -/
theorem inv_networkStep (hduration : d.vehicle ≤ 18446744073709551600) (x : Network) (move : Move)
    (h : Inv d x) (hideal : Unforged P x move) : Inv d (networkStep P d x move) := by
  cases move with
  | vehicle sendTo =>
    obtain ⟨hlogged, hplan⟩ := onPlan_step (P := P) hduration h.logged h.plan sendTo
    refine { h with logged := hlogged, plan := hplan, accepted := ?_ }
    show Taken ((x.published ++ _).map Prod.snd) x.accepted
    rw [List.map_append]
    exact h.accepted.mono
  | proxy r => exact inv_proxy h hideal
  | station r => exact inv_station h hideal

theorem inv_start (auth : Auth Block) (vehicleBound proxyBound stationBound : Bool) :
    Inv d (start auth vehicleBound proxyBound stationBound) where
  logged := ⟨by simp [start, VehicleLoop.Numbered], by simp [start]⟩
  plan := by
    show OnPlan d.vehicle [] (VehicleLoop.start auth vehicleBound)
    cases hstart : VehicleLoop.start auth vehicleBound with
    | running v₀ => exact ⟨0, VehicleLoop.running_start hstart⟩
    | exited code => exact ⟨0, List.prefix_rfl⟩
  accepted := taken_nil _
  ingress s hs := by
    have htied := ProxyRelay.tied_start paddingAead auth proxyBound
    exact (htied.synced s hs).ingress
  relayed := List.prefix_rfl
  level _ _ := rfl
  shown := taken_nil _
  station s hs := (GroundStation.inv_start hs).committed
  values := by simp [start]

/-! ### The values -/

/-- The values of what was published. -/
def publishedValues (log : List (PublishedMessage × Sent)) : List StateValue :=
  log.filterMap fun e => (contentOf e.1).2

theorem decodeState_sealedContent {log : List (PublishedMessage × Sent)} (h : Logged log)
    {e : PublishedMessage × Sent} (he : e ∈ log) :
    decodeState (sealedContent e.2).1 (sealedContent e.2).2 = (contentOf e.1).2 := by
  obtain ⟨i, hi⟩ := List.mem_iff_getElem?.mp he
  obtain ⟨hheader, hplaintext⟩ := h.numbered i e hi
  rw [sealedContent, hheader, hplaintext]
  rfl

theorem filterMap_sealedContent {log : List (PublishedMessage × Sent)} (h : Logged log) :
    ((log.map Prod.snd).map sealedContent).filterMap (fun y => decodeState y.1 y.2) =
      publishedValues log := by
  rw [List.map_map, List.filterMap_map]
  exact List.filterMap_congr fun e he => decodeState_sealedContent h he

theorem filterMap_content {showings : List Showing}
    (h : ∀ y ∈ showings, decodeState y.record.header.type y.record.bytes = some y.value) :
    ((records showings).map content).filterMap (fun y => decodeState y.1 y.2) =
      showings.map Showing.value := by
  rw [records, List.map_map, List.filterMap_map, ← List.filterMap_eq_map]
  exact List.filterMap_congr fun y hy => h y hy

theorem publishedValues_eq (log : List (PublishedMessage × Sent)) :
    publishedValues log = (contents log).filterMap Prod.snd := by
  rw [publishedValues, contents, List.filterMap_map]
  rfl

theorem filterMap_due (n : ℕ) : (due n).filterMap Prod.snd = (planned n).map Prod.snd := by
  rw [due, List.filterMap_map, ← List.filterMap_eq_map]
  rfl

end NewMavlink.Endpoints.Authenticity
