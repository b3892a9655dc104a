import NewMavlink.Endpoints.Authenticity
import NewMavlink.Endpoints.Links

/-! # From end to end

The vehicle, the proxy service and the ground station over two links that lose nothing and keep the
order. Each program makes its rounds when it likes, before its time is up; in a round of the proxy
or of the station the datagram at the head of its link arrives, or none.

* `vehicle_round`, `proxy_round`, `station_round`: what a round does to the two links.
* `carried_lineStep`: what was published is what was shown, then what is in flight to the station,
  then what is in flight to the proxy.
* `delivered_in_order`: so nothing is lost, repeated or reordered, and no program fails.
* `shown_authentic`: over any other network, what the station shows is among what the vehicle has
  published. -/

namespace NewMavlink.Endpoints.EndToEnd

open NewMavlink.Lib.Runs NewMavlink.Lib.Programs NewMavlink.Lib.Fifo NewMavlink.Wire
open NewMavlink.Crypto NewMavlink.State.Messages NewMavlink.State.Publisher
open NewMavlink.Record.SealOpen NewMavlink.Record.SendLog NewMavlink.Record.Replay
open NewMavlink.Transport
open NewMavlink.ProxyService (Status psk schemaRejects)
open NewMavlink.Endpoints.GroundStation (StateValue Station Showing decodeState records)
open NewMavlink.Endpoints.VehicleLoop
open NewMavlink.Endpoints.Hops NewMavlink.Endpoints.Links NewMavlink.Endpoints.Authenticity

/-! ### The line -/

/-- The three programs, and the datagrams in flight between them. -/
structure Line where
  net : Network
  toProxy : List (List UInt8) := []
  toStation : List (List UInt8) := []

/-- A round of one of the programs; the flag says whether a datagram arrives in it. -/
inductive LineMove where
  | vehicle
  | proxy (elapsed : UInt64) (arrives : Bool)
  | station (elapsed : UInt64) (arrives : Bool)

/-- The datagram that arrives. -/
def arrival (arrives : Bool) (queue : List (List UInt8)) : Option (List UInt8) :=
  if arrives then queue.head? else none

/-- The datagrams that are left. -/
def left (arrives : Bool) (queue : List (List UInt8)) : List (List UInt8) :=
  if arrives then queue.tail else queue

/-- The move of the network: every datagram that is sent is taken. -/
def Line.move (x : Line) : LineMove → Move
  | .vehicle => .vehicle fun _ => true
  | .proxy elapsed arrives => .proxy { elapsed, datagram := arrival arrives x.toProxy }
  | .station elapsed arrives => .station { elapsed, datagram := arrival arrives x.toStation }

/-- The programs and the datagrams in flight after a move. -/
def lineStep (P : Aead) (d : Durations) (x : Line) (m : LineMove) : Line where
  net := networkStep P d x.net (x.move m)
  toProxy := match m with
    | .vehicle => x.toProxy ++ sentIn P d.vehicle x.net.vehicle fun _ => true
    | .proxy _ arrives => left arrives x.toProxy
    | .station _ _ => x.toProxy
  toStation := match m with
    | .vehicle => x.toStation
    | .proxy elapsed arrives => x.toStation ++
        ProxyRelay.sent P d.proxy x.net.proxy { elapsed, datagram := arrival arrives x.toProxy }
    | .station _ arrives => left arrives x.toStation

/-- The line before the first round. -/
def lineStart (auth : Auth Block) : Line := { net := start auth true true true }

/-- The proxy and the station make their rounds before their time is up. -/
def Timely (d : Durations) : LineMove → Prop
  | .vehicle => True
  | .proxy elapsed _ => elapsed < d.proxy
  | .station elapsed _ => elapsed < d.station

/-- The keys of the vehicle and of the proxy's egress are what `auth` derives, and are valid. -/
structure Keyed (auth : Auth Block) (k₁ k₂ : DirectionalKeys Block) : Prop where
  vehicle : deriveDirectionalKeys auth psk ⟨1, 1⟩ 1 3 = some (k₁, k₁.mirror)
  egress : deriveDirectionalKeys auth psk ⟨1, 1⟩ 3 2 = some (k₂, k₂.mirror)
  validVehicle : validKeys k₁ = true
  validEgress : validKeys k₂ = true

variable {P : Aead} {d : Durations} {auth : Auth Block} {k₁ k₂ : DirectionalKeys Block}

theorem Keyed.ids (h : Keyed auth k₁ k₂) :
    k₁.localId = 1 ∧ k₁.peerId = 3 ∧ k₁.session = ⟨1, 1⟩ ∧
      k₂.localId = 3 ∧ k₂.peerId = 2 ∧ k₂.session = ⟨1, 1⟩ := by
  obtain ⟨-, hs₁, hl₁, hp₁, -⟩ := deriveDirectionalKeys_eq_some h.vehicle
  obtain ⟨-, hs₂, hl₂, hp₂, -⟩ := deriveDirectionalKeys_eq_some h.egress
  exact ⟨hl₁, hp₁, hs₁, hl₂, hp₂, hs₂⟩

/-! ### A round of the vehicle -/

theorem sendable_built (h : Keyed auth k₁ k₂) {m : PublishedMessage} (hm : Built m) (n : ℕ) :
    Sendable k₁ n (VehicleLoop.outHeader m.message (UInt64.ofNat n)) := by
  obtain ⟨p, k, snapshot, hsource, hdestination, hbuild⟩ := hm
  obtain ⟨hheader, -, -, -⟩ := StatePublisher.build_eq_some hbuild
  obtain ⟨hlocal, hpeer, hsession, -⟩ := h.ids
  rw [hsource, hdestination] at hheader
  refine ⟨?_, ?_, ?_, ?_, ?_, ?_, ?_, rfl, ?_⟩
  all_goals unfold VehicleLoop.outHeader
  all_goals dsimp only
  all_goals try rw [hheader]
  · exact Kind.knownType_type k
  · cases snapshot with
    | false => exact (by decide : kFlagDelta ≤ kKnownFlags)
    | true => exact (by decide : kFlagSnapshot ≤ kKnownFlags)
  · exact (by decide : Qos.stateLatest.code ≤ Qos.explicit.code)
  · rw [hlocal]
    rfl
  · rw [hpeer]
    rfl
  · rw [hsession]
  · rw [hsession]
  · rfl

theorem length_bytes_le (m : NativeMessage) : m.bytes.length ≤ kMaxPayloadBytes := by
  rw [NativeMessage.bytes, List.length_take, List.Vector.toList_length]
  exact Nat.min_le_right _ _

/-- What the messages send, one after another. -/
abbrev sentAll (P : Aead) (x : Sender) (as : List (PublishedMessage × Bool)) :
    List (List UInt8) :=
  outputs (Program.step (emit P)) (Program.output (sentOf P)) (.running x) as

/-- **The messages of a round are put in flight**, under the next numbers. -/
theorem emits_inFlight (hP : Works P) (h : Keyed auth k₁ k₂)
    {as : List (PublishedMessage × Bool)} (hbuilt : ∀ a ∈ as, Built a.1 ∧ a.2 = true) :
    ∀ {x : Sender} {n : ℕ}, Sends k₁ n x.endpoint.session → x.sequence = UInt64.ofNat n →
      n + as.length < 2 ^ 64 - 1 →
      Queued (InFlight P k₁) n ((sealedAll P x as).map Prod.snd) (sentAll P x as) ∧
        ∃ y, run (Program.step (emit P)) (.running x) as = .running y ∧
          Sends k₁ (n + as.length) y.endpoint.session := by
  induction as with
  | nil =>
    intro x n hsends _ _
    exact ⟨queued_nil n, x, rfl, hsends⟩
  | cons a as ih =>
    intro x n hsends hsequence hn
    obtain ⟨hm, htrue⟩ := hbuilt a List.mem_cons_self
    rw [List.length_cons] at hn
    have hsendable := sendable_built h hm n
    rw [← hsequence] at hsendable
    obtain ⟨entry, datagram, hseals, hsend, hnext, hflight, -⟩ := send_inFlight hP h.validVehicle
      hsends (by omega) hsendable (length_bytes_le a.1.message)
    have hsealed : sealedOf P x a = [(a.1, entry)] := by
      rw [sealedOf, hseals, List.map_singleton]
    have hsent : sentOf P x a = [datagram] := by
      rw [sentOf, htrue, hsend, Option.toList_some]
    have hemit : emit P x a = .running x.next := by
      unfold emit
      rw [htrue, hsend]
      rfl
    have hnumber : x.next.sequence = UInt64.ofNat (n + 1) := by
      show x.sequence + 1 = _
      rw [hsequence, UInt64.ofNat_add]
      rfl
    obtain ⟨hqueue, y, hrun, hy⟩ := ih (fun b hb => hbuilt b (List.mem_cons_of_mem a hb)) hnext
      hnumber (by omega)
    refine ⟨?_, y, ?_, ?_⟩
    · show Queued _ n ((sealedOf P x a ++ outputs _ _ (emit P x a) as).map Prod.snd)
        (sentOf P x a ++ outputs _ _ (emit P x a) as)
      rw [hsealed, hsent, hemit]
      exact ⟨hflight, hqueue⟩
    · rw [run_cons, step_running, hemit]
      exact hrun
    · rw [List.length_cons, ← Nat.add_assoc, Nat.add_right_comm]
      exact hy

theorem length_published_lt {durationMs : UInt64} {n : ℕ} {log : List (PublishedMessage × Sent)}
    {v : Vehicle} (hduration : durationMs ≤ 18446744073709551600)
    (h : RunningAt durationMs n log v) : log.length + 3 < 2 ^ 64 - 1 := by
  have hrounds := le_roundsOf h.early
  have hmax : (18446744073709551600 : UInt64).toNat = 18446744073709551600 := rfl
  rw [UInt64.le_iff_toNat_le, hmax] at hduration
  have hplan : ∀ i, (plan i).length ≤ 3 := by
    intro i
    unfold plan
    split_ifs <;> simp
  have hplanned : ∀ m, (planned m).length ≤ 3 * m := by
    intro m
    induction m with
    | zero => simp [planned]
    | succ m ih =>
      rw [planned_succ, List.length_append]
      have := hplan m
      omega
  have hlength : log.length = (planned n).length := by
    simpa [contents, due] using congrArg List.length h.contents
  have hle := hplanned n
  unfold roundsOf at hrounds
  omega

/-- **A round of the vehicle** puts in flight what it seals, and the vehicle goes on or returns
0. -/
theorem vehicle_round (hP : Works P) (h : Keyed auth k₁ k₂) {durationMs : UInt64}
    (hduration : durationMs ≤ 18446744073709551600) {n : ℕ} {log : List (PublishedMessage × Sent)}
    {v : Vehicle} (hrunning : RunningAt durationMs n log v)
    (hsends : Sends k₁ log.length v.sender.endpoint.session) :
    let new := sealedIn P durationMs (.running v) fun _ => true
    Queued (InFlight P k₁) log.length (new.map Prod.snd)
        (sentIn P durationMs (.running v) fun _ => true) ∧
      new.length ≤ 3 ∧
      (vehicleStep P durationMs (.running v) fun _ => true).Holds
        (fun v' => Sends k₁ (log ++ new).length v'.sender.endpoint.session)
        (fun code => code = 0) := by
  intro new
  have hupdated := (updated_round hrunning.vehicle hrunning.duration_pos).1
  have hlength := length_published_lt hduration hrunning
  have hbuilt : ∀ a ∈ v.attempts durationMs (fun _ => true), Built a.1 ∧ a.2 = true := by
    intro a ha
    obtain ⟨x, hx, rfl⟩ := List.mem_map.mp ha
    exact ⟨built_polled hupdated (List.fst_mem_of_mem_zipIdx hx), rfl⟩
  have hattempts : (v.attempts durationMs fun _ => true).length ≤ 3 := by
    have hpoll := ((v.updated durationMs).publisher.poll_built v.nowMs
      kMaxHelpfulSnapshotMessages).2
    rw [Vehicle.attempts, List.length_map, List.length_zipIdx]
    exact hpoll
  obtain ⟨hqueue, y, hrun, hy⟩ := emits_inFlight hP h hbuilt hsends hrunning.sequence
    (by omega)
  obtain ⟨-, hsealed⟩ := emits P v.sender (v.attempts durationMs fun _ => true)
  rw [hrun] at hsealed
  have hnew : new.length = (v.attempts durationMs fun _ => true).length := by
    have := congrArg List.length hsealed.1
    rwa [List.length_map, List.length_map] at this
  refine ⟨hqueue, by rw [hnew]; exact hattempts, ?_⟩
  show (tick P durationMs v fun _ => true).Holds _ _
  unfold tick
  rw [hrun]
  dsimp only
  split_ifs
  · rfl
  · rfl
  · show Sends k₁ (log ++ new).length y.endpoint.session
    rw [List.length_append, hnew]
    exact hy

/-! ### A round of the proxy -/

theorem not_schemaRejects {c : OpenRecord} {value : StateValue}
    (h : decodeState c.header.type c.bytes = some value) : schemaRejects c = false := by
  obtain ⟨k, v⟩ := value
  obtain ⟨htype, hdecode⟩ := GroundStation.decodeState_eq_some.mp h
  have hlength : (c.length == 0) = false := by
    rw [beq_eq_false_iff_ne]
    intro hzero
    have hbytes := (decode_eq_some_iff.mp hdecode).1.2
    have hnil : c.bytes = [] := by rw [OpenRecord.bytes, hzero, List.take_zero]
    rw [hnil] at hbytes
    cases k <;> exact absurd hbytes (by decide)
  have hknown : knownType c.header.type = true := by rw [htype]; exact Kind.knownType_type k
  unfold schemaRejects
  rw [hknown, hlength, htype]
  cases k with
  | position =>
    rw [show decodePosition (.data c.bytes) = some v from hdecode]
    rfl
  | attitude =>
    rw [show decodeAttitude (.data c.bytes) = some v from hdecode]
    rfl
  | battery =>
    rw [show decodeBattery (.data c.bytes) = some v from hdecode]
    rfl

/-- The proxy has passed on the first `n` records. -/
structure Relaying (k₁ k₂ : DirectionalKeys Block) (n : ℕ) (s : ProxyService.Service) : Prop where
  ingress : Expects k₁.mirror n s.ingress.session
  egress : Sends k₂ n s.egress.session
  sequence : s.egressSequence = UInt64.ofNat n

theorem ne_zero_of_lt {elapsed durationMs : UInt64} (h : elapsed < durationMs) :
    durationMs ≠ 0 := by
  rintro rfl
  exact absurd h (by simp)

theorem proxy_idle {durationMs elapsed : UInt64} (hearly : elapsed < durationMs)
    (s : ProxyService.Service) :
    ProxyService.round P durationMs s { elapsed, datagram := none } = (none, .running s) ∧
      ProxyRelay.committed P (.running s) { elapsed, datagram := none } = [] := by
  have hreceive : s.ingress.receiveUncommitted P none elapsed.toUInt32 = .error .timeout := rfl
  refine ⟨?_, rfl⟩
  unfold ProxyService.round
  dsimp only
  rw [hreceive]
  dsimp only
  rw [if_pos rfl, if_neg (ne_zero_of_lt hearly), if_neg (UInt64.not_le.mpr hearly)]

theorem sendable_outHeader (h : Keyed auth k₁ k₂) {n : ℕ} {a : Sent} {c : OpenRecord}
    (hc : Opened k₁ n a c) :
    Sendable k₂ n (ProxyService.outHeader c (UInt64.ofNat n)) := by
  obtain ⟨-, -, -, hlocal, hpeer, hsession⟩ := h.ids
  refine ⟨hc.type, hc.flags, hc.qos, ?_, ?_, ?_, ?_, rfl, hc.deadline⟩
  · rw [hlocal]
    rfl
  · rw [hpeer]
    rfl
  · rw [hsession]
    rfl
  · rw [hsession]
    rfl

/-- **A round of the proxy** in which the next record arrives puts it in flight again, and the proxy
goes on. -/
theorem proxy_round (hP : Works P) (h : Keyed auth k₁ k₂) {durationMs elapsed : UInt64}
    (hearly : elapsed < durationMs) {n : ℕ} (hn : n < 2 ^ 64 - 1) {s : ProxyService.Service}
    (hs : Relaying k₁ k₂ n s) {a : Sent} {datagram : List UInt8}
    (hdatagram : InFlight P k₁ n a datagram) {value : StateValue}
    (hdecodes : decodeState (sealedContent a).1 (sealedContent a).2 = some value) :
    let r : ProxyService.Round := { elapsed, datagram := some datagram }
    ∃ record s' a', ProxyService.round P durationMs s r = (some record, .running s') ∧
      Relaying k₁ k₂ (n + 1) s' ∧ resealed P (.running s) r = [a'] ∧
      InFlight P k₂ n a' record ∧ sealedContent a' = sealedContent a := by
  intro r
  obtain ⟨c, hreceive, hopened, hexpects⟩ := receive_inFlight hs.ingress (by omega) hdatagram
    elapsed.toUInt32
  have hrejects : schemaRejects c = false := by
    rw [← hopened.content] at hdecodes
    exact not_schemaRejects hdecodes
  have hcommit : s.ingress.commit c = (.ok (), (s.ingress.commit c).2) :=
    Prod.ext (commit_of_receiveUncommitted hreceive) rfl
  have hsendable := sendable_outHeader h hopened
  rw [← hs.sequence] at hsendable
  obtain ⟨a', record, hseals, hsend, hnext, hflight, hcontent⟩ := send_inFlight hP h.validEgress
    hs.egress hn hsendable hopened.length
  have hcommitted : ProxyRelay.committed P (.running s) r = [c] := by
    unfold ProxyRelay.committed
    dsimp only
    rw [hreceive]
    dsimp only
    rw [if_neg (by simp [hrejects]), hcommit]
  have hround : ProxyService.round P durationMs s r = (some record, .running
      { s with
        ingress := (s.ingress.commit c).2
        egress := ⟨s.egress.session.sent
          (ProxyService.outHeader c s.egressSequence).sequence⟩
        egressSequence := s.egressSequence + 1
        receivedAny := true }) := by
    unfold ProxyService.round
    dsimp only
    rw [hreceive]
    dsimp only
    rw [if_neg (by simp [hrejects]), hcommit]
    dsimp only
    rw [hsend]
    dsimp only
    rw [if_neg (ne_zero_of_lt hearly), if_neg (UInt64.not_le.mpr hearly)]
  refine ⟨record, _, a', hround, ⟨hexpects, hnext, ?_⟩, ?_, hflight, ?_⟩
  · show s.egressSequence + 1 = _
    rw [hs.sequence, UInt64.ofNat_add]
    rfl
  · rw [resealed, hcommitted, List.flatMap_singleton, hseals]
  · rw [hcontent, ← hopened.content]
    rfl

/-! ### A round of the station -/

theorem station_idle {durationMs elapsed : UInt64} (hearly : elapsed < durationMs) (s : Station) :
    GroundStation.round P durationMs s { elapsed, datagram := none } = (none, .running s) := by
  have hpositive : durationMs > 0 := UInt64.pos_iff_ne_zero.mpr (ne_zero_of_lt hearly)
  exact if_pos ⟨rfl, hpositive, hearly⟩

/-- **A round of the station** in which the next record arrives shows it, and the station goes
on. -/
theorem station_round {durationMs elapsed : UInt64} (hearly : elapsed < durationMs) {n : ℕ}
    (hn : n < 2 ^ 64 - 1) {s : Station} (hs : Expects k₂.mirror n s.endpoint.session) {a : Sent}
    {datagram : List UInt8} (hdatagram : InFlight P k₂ n a datagram) {value : StateValue}
    (hdecodes : decodeState (sealedContent a).1 (sealedContent a).2 = some value) :
    ∃ c s', GroundStation.round P durationMs s { elapsed, datagram := some datagram } =
        (some ⟨c, value⟩, .running s') ∧ content c = sealedContent a ∧
      decodeState c.header.type c.bytes = some value ∧
      Expects k₂.mirror (n + 1) s'.endpoint.session := by
  obtain ⟨c, hreceive, hopened, hexpects⟩ := receive_inFlight hs (by omega) hdatagram
    elapsed.toUInt32
  rw [← hopened.content] at hdecodes
  replace hdecodes : decodeState c.header.type c.bytes = some value := hdecodes
  have hcommit : s.endpoint.commit c = (.ok (), (s.endpoint.commit c).2) :=
    Prod.ext (commit_of_receiveUncommitted hreceive) rfl
  refine ⟨c, s.after ⟨c, value⟩, ?_, hopened.content, hdecodes, hexpects⟩
  unfold GroundStation.round
  dsimp only
  rw [hreceive]
  dsimp only
  rw [hdecodes]
  dsimp only
  rw [hcommit]
  dsimp only
  rw [if_neg (ne_zero_of_lt hearly), if_neg (UInt64.not_le.mpr hearly)]
  rfl

/-! ### The invariant -/

/-- The queue carries the contents `sent` from number `received.length` on, and what stands for its
datagrams was sealed. -/
def InTransit (P : Aead) (k : DirectionalKeys Block) (log : List Sent)
    (received : List (MessageType × List UInt8)) (queue : List (List UInt8)) : Prop :=
  ∃ items, Queued (InFlight P k) received.length items queue ∧
    log.map sealedContent = received ++ items.map sealedContent ∧ items ⊆ log

/-- **What holds after every round**: what was published is what was relayed, then what is in flight
to the proxy; and what was relayed is what was shown, then what is in flight to the station. -/
structure Carried (P : Aead) (d : Durations) (k₁ k₂ : DirectionalKeys Block) (x : Line) :
    Prop where
  logged : Logged x.net.published
  vehicle : x.net.vehicle.Holds
    (fun v => (∃ n, RunningAt d.vehicle n x.net.published v) ∧
      Sends k₁ x.net.published.length v.sender.endpoint.session)
    (fun code => code = 0 ∧ contents x.net.published = due (roundsOf d.vehicle))
  few : x.net.published.length < 2 ^ 64 - 1
  decodable : ∀ e ∈ x.net.published, ∃ value, (contentOf e.1).2 = some value
  proxy : ∃ s, x.net.proxy = .running s ∧ Relaying k₁ k₂ x.net.relayed.length s
  station : ∃ s, x.net.station = .running s ∧
    Expects k₂.mirror x.net.showings.length s.endpoint.session
  toProxy : InTransit P k₁ (x.net.published.map Prod.snd) (x.net.relayed.map sealedContent)
    x.toProxy
  toStation : InTransit P k₂ x.net.relayed ((records x.net.showings).map content) x.toStation
  values : ∀ y ∈ x.net.showings, decodeState y.record.header.type y.record.bytes = some y.value

theorem arrival_cases (arrives : Bool) (queue : List (List UInt8)) :
    (arrival arrives queue = none ∧ left arrives queue = queue) ∨
      ∃ datagram, arrival arrives queue = some datagram ∧
        queue = datagram :: left arrives queue := by
  unfold arrival left
  cases arrives with
  | false => exact Or.inl ⟨rfl, rfl⟩
  | true =>
    cases queue with
    | nil => exact Or.inl ⟨rfl, rfl⟩
    | cons datagram queue => exact Or.inr ⟨datagram, rfl, rfl⟩

theorem InTransit.send {k : DirectionalKeys Block} {log new : List Sent}
    {received : List (MessageType × List UInt8)} {queue sent : List (List UInt8)}
    (h : InTransit P k log received queue) (hsent : Queued (InFlight P k) log.length new sent) :
    InTransit P k (log ++ new) received (queue ++ sent) := by
  obtain ⟨items, hqueue, hcontents, hsub⟩ := h
  have hlength : received.length + items.length = log.length := by
    have := congrArg List.length hcontents
    rw [List.length_append, List.length_map, List.length_map] at this
    exact this.symm
  refine ⟨items ++ new, queued_append hqueue (by rw [hlength]; exact hsent), ?_, ?_⟩
  · rw [List.map_append, List.map_append, hcontents, List.append_assoc]
  · intro a ha
    rcases List.mem_append.mp ha with ha | ha
    · exact List.mem_append_left _ (hsub ha)
    · exact List.mem_append_right _ ha

theorem InTransit.receive {k : DirectionalKeys Block} {log : List Sent}
    {received : List (MessageType × List UInt8)} {datagram : List UInt8}
    {queue : List (List UInt8)} (h : InTransit P k log received (datagram :: queue)) :
    ∃ a ∈ log, InFlight P k received.length a datagram ∧
      InTransit P k log (received ++ [sealedContent a]) queue := by
  obtain ⟨items, hqueue, hcontents, hsub⟩ := h
  obtain ⟨a, items, rfl, hhead, htail⟩ := queued_head hqueue
  refine ⟨a, hsub List.mem_cons_self, hhead, items, ?_, ?_, fun b hb =>
    hsub (List.mem_cons_of_mem a hb)⟩
  · rw [List.length_append, List.length_singleton]
    exact htail
  · rw [hcontents, List.map_cons, List.append_assoc, List.singleton_append]

theorem Carried.decodes {x : Line} (h : Carried P d k₁ k₂ x)
    {y : MessageType × List UInt8}
    (hy : y ∈ (x.net.published.map Prod.snd).map sealedContent) :
    ∃ value, decodeState y.1 y.2 = some value := by
  obtain ⟨a, ha, rfl⟩ := List.mem_map.mp hy
  obtain ⟨e, he, rfl⟩ := List.mem_map.mp ha
  rw [decodeState_sealedContent h.logged he]
  exact h.decodable e he

theorem Carried.decodes_relayed {x : Line} (h : Carried P d k₁ k₂ x) {a : Sent}
    (ha : a ∈ x.net.relayed) :
    ∃ value, decodeState (sealedContent a).1 (sealedContent a).2 = some value := by
  obtain ⟨items, -, hcontents, -⟩ := h.toProxy
  exact h.decodes (hcontents ▸ List.mem_append_left _ (List.mem_map_of_mem ha))

theorem InTransit.values {k : DirectionalKeys Block} {log : List Sent}
    {received : List (MessageType × List UInt8)} {queue : List (List UInt8)}
    (h : InTransit P k log received queue)
    (hdecodes : ∀ a ∈ log, ∃ value,
      decodeState (sealedContent a).1 (sealedContent a).2 = some value) :
    ∃ values : List StateValue, values.length = queue.length ∧
      (log.map sealedContent).filterMap (fun y => decodeState y.1 y.2) =
        received.filterMap (fun y => decodeState y.1 y.2) ++ values := by
  obtain ⟨items, hqueue, hcontents, hsub⟩ := h
  refine ⟨(items.map sealedContent).filterMap fun y => decodeState y.1 y.2, ?_, ?_⟩
  · have hlength : (items.map sealedContent).length = items.length := List.length_map _
    rw [← hqueue.length, ← hlength, List.filterMap_length_eq_length]
    intro y hy
    obtain ⟨a, ha, rfl⟩ := List.mem_map.mp hy
    rw [Option.isSome_iff_exists]
    exact hdecodes a (hsub ha)
  · rw [hcontents, List.filterMap_append]

theorem decodable_of_due {log : List (PublishedMessage × Sent)} {n : ℕ} (h : contents log = due n)
    {e : PublishedMessage × Sent} (he : e ∈ log) : ∃ value, (contentOf e.1).2 = some value := by
  have hmem : contentOf e.1 ∈ due n := by
    rw [← h]
    exact List.mem_map.mpr ⟨e, he, rfl⟩
  obtain ⟨item, -, hitem⟩ := List.mem_map.mp hmem
  exact ⟨item.2, (congrArg Prod.snd hitem).symm⟩

/-- A vehicle whose messages are all taken runs on, or returns when it has sent what was planned;
either way it has sealed what was due. -/
theorem vehicle_goesOn {durationMs : UInt64} {n : ℕ} {log : List (PublishedMessage × Sent)}
    {next : Program Vehicle}
    (hplan : next.Holds (RunningAt durationMs n log) (ReturnedAt durationMs n log))
    (hnext : next.Holds (fun v => Sends k₁ log.length v.sender.endpoint.session)
      (fun code => code = 0)) :
    next.Holds (fun v => (∃ n, RunningAt durationMs n log v) ∧
        Sends k₁ log.length v.sender.endpoint.session)
      (fun code => code = 0 ∧ contents log = due (roundsOf durationMs)) ∧
        ∃ m, contents log = due m := by
  cases next with
  | running v => exact ⟨⟨⟨n, hplan⟩, hnext⟩, n, hplan.contents⟩
  | exited code =>
    obtain rfl : code = 0 := hnext
    rcases hplan with ⟨-, -, hall⟩ | ⟨hfive, -⟩
    · exact ⟨⟨rfl, hall⟩, _, hall⟩
    · cases hfive

theorem carried_vehicle (hP : Works P) (hkeys : Keyed auth k₁ k₂)
    (hduration : d.vehicle ≤ 18446744073709551600) {x : Line} (h : Carried P d k₁ k₂ x) :
    Carried P d k₁ k₂ (lineStep P d x .vehicle) := by
  have hvehicle := h.vehicle
  unfold lineStep Line.move networkStep
  dsimp only
  cases hstate : x.net.vehicle with
  | exited code =>
    rw [hstate] at hvehicle
    have hsealed : sealedIn P d.vehicle (.exited code) (fun _ => true) = [] := rfl
    have hsent : sentIn P d.vehicle (.exited code) (fun _ => true) = [] := rfl
    rw [hsealed, hsent, List.append_nil, List.append_nil]
    exact { h with vehicle := hvehicle }
  | running v =>
    rw [hstate] at hvehicle
    obtain ⟨⟨n, hrunning⟩, hsends⟩ := hvehicle
    have hlength := length_published_lt hduration hrunning
    obtain ⟨hqueue, hfew, hnext⟩ := vehicle_round hP hkeys hduration hrunning hsends
    obtain ⟨hlogged, hplan⟩ := inv_vehicleStep (P := P) hduration h.logged
      (show (Program.running v).Holds _ (ReturnedAt d.vehicle n _) from hrunning) fun _ => true
    obtain ⟨hstep, m, hm⟩ := vehicle_goesOn hplan hnext
    generalize sealedIn P d.vehicle (.running v) (fun _ => true) = new at *
    refine { h with logged := hlogged, vehicle := hstep, few := ?_, decodable := ?_,
                    toProxy := ?_ }
    · show (x.net.published ++ new).length < _
      rw [List.length_append]
      omega
    · exact fun e he => decodable_of_due hm he
    · show InTransit P k₁ ((x.net.published ++ new).map Prod.snd) _ _
      rw [List.map_append]
      exact h.toProxy.send (by rw [List.length_map]; exact hqueue)

theorem Carried.relayed_le {x : Line} (h : Carried P d k₁ k₂ x) :
    x.net.relayed.length ≤ x.net.published.length := by
  obtain ⟨items, -, hcontents, -⟩ := h.toProxy
  have := congrArg List.length hcontents
  simp only [List.length_append, List.length_map] at this
  omega

theorem Carried.shown_le {x : Line} (h : Carried P d k₁ k₂ x) :
    x.net.showings.length ≤ x.net.relayed.length := by
  obtain ⟨items, -, hcontents, -⟩ := h.toStation
  have := congrArg List.length hcontents
  simp only [List.length_append, List.length_map] at this
  omega

theorem carried_proxy (hP : Works P) (hkeys : Keyed auth k₁ k₂) {x : Line}
    (h : Carried P d k₁ k₂ x) {elapsed : UInt64} (hearly : elapsed < d.proxy) (arrives : Bool) :
    Carried P d k₁ k₂ (lineStep P d x (.proxy elapsed arrives)) := by
  obtain ⟨s, hs, hrelaying⟩ := h.proxy
  have hfew := h.few
  have hle := h.relayed_le
  unfold lineStep Line.move networkStep
  dsimp only
  rw [hs]
  rcases arrival_cases arrives x.toProxy with ⟨hnone, hleft⟩ | ⟨datagram, hsome, hqueue⟩
  · obtain ⟨hround, hcommitted⟩ := proxy_idle (P := P) hearly s
    have hresealed : resealed P (.running s) { elapsed, datagram := none } = [] := by
      rw [resealed, hcommitted, List.flatMap_nil]
    have hsent : ProxyRelay.sent P d.proxy (.running s) { elapsed, datagram := none } = [] := by
      rw [ProxyRelay.sent, hround, Option.toList_none]
    have hstep : ProxyService.serviceStep P d.proxy (.running s) { elapsed, datagram := none } =
        .running s := congrArg Prod.snd hround
    rw [hnone, hleft, hresealed, hsent, hstep, List.append_nil, List.append_nil]
    exact { h with proxy := ⟨s, rfl, hrelaying⟩ }
  · have htransit := h.toProxy
    rw [hqueue] at htransit
    obtain ⟨a, ha, hflight, hrest⟩ := htransit.receive
    rw [List.length_map] at hflight
    obtain ⟨value, hvalue⟩ := h.decodes (List.mem_map_of_mem ha)
    obtain ⟨record, s', a', hround, hrelaying', hresealed, hflight', hcontent⟩ :=
      proxy_round hP hkeys hearly (by omega) hrelaying hflight hvalue
    have hsent : ProxyRelay.sent P d.proxy (.running s)
        { elapsed, datagram := some datagram } = [record] := by
      rw [ProxyRelay.sent, hround, Option.toList_some]
    have hstep : ProxyService.serviceStep P d.proxy (.running s)
        { elapsed, datagram := some datagram } = .running s' := congrArg Prod.snd hround
    rw [hsome, hresealed, hsent, hstep]
    refine { h with proxy := ⟨s', rfl, ?_⟩, toProxy := ?_, toStation := ?_ }
    · rw [List.length_append, List.length_singleton]
      exact hrelaying'
    · show InTransit P k₁ _ ((x.net.relayed ++ [a']).map sealedContent) _
      rw [List.map_append, List.map_singleton, hcontent]
      exact hrest
    · exact h.toStation.send (queued_singleton hflight')

theorem carried_station {x : Line} (h : Carried P d k₁ k₂ x) {elapsed : UInt64}
    (hearly : elapsed < d.station) (arrives : Bool) :
    Carried P d k₁ k₂ (lineStep P d x (.station elapsed arrives)) := by
  obtain ⟨s, hs, hexpects⟩ := h.station
  have hfew := h.few
  have hle := h.relayed_le
  have hle' := h.shown_le
  unfold lineStep Line.move networkStep
  dsimp only
  rw [hs]
  rcases arrival_cases arrives x.toStation with ⟨hnone, hleft⟩ | ⟨datagram, hsome, hqueue⟩
  · have hround := station_idle (P := P) hearly s
    have hshown : GroundStation.shown P d.station (.running s)
        { elapsed, datagram := none } = [] := congrArg (fun z => z.1.toList) hround
    have hstep : GroundStation.stationStep P d.station (.running s)
        { elapsed, datagram := none } = .running s := congrArg Prod.snd hround
    rw [hnone, hleft, hshown, hstep, List.append_nil]
    exact { h with station := ⟨s, rfl, hexpects⟩ }
  · have htransit := h.toStation
    rw [hqueue] at htransit
    obtain ⟨a, ha, hflight, hrest⟩ := htransit.receive
    rw [List.length_map, List.length_map] at hflight
    obtain ⟨value, hvalue⟩ := h.decodes_relayed ha
    obtain ⟨c, s', hround, hcontent, hdecodes, hexpects'⟩ :=
      station_round hearly (by omega) hexpects hflight hvalue
    have hshown : GroundStation.shown P d.station (.running s)
        { elapsed, datagram := some datagram } = [⟨c, value⟩] :=
      congrArg (fun z => z.1.toList) hround
    have hstep : GroundStation.stationStep P d.station (.running s)
        { elapsed, datagram := some datagram } = .running s' := congrArg Prod.snd hround
    rw [hsome, hshown, hstep]
    refine { h with station := ⟨s', rfl, ?_⟩, toStation := ?_, values := ?_ }
    · rw [List.length_append, List.length_singleton]
      exact hexpects'
    · show InTransit P k₂ _ ((records (x.net.showings ++ [⟨c, value⟩])).map content) _
      rw [records, List.map_append, List.map_append, List.map_singleton, List.map_singleton,
        hcontent]
      exact hrest
    · exact forall_mem_log h.values hdecodes

/-- **Every round keeps it so.** -/
theorem carried_lineStep (hP : Works P) (hkeys : Keyed auth k₁ k₂)
    (hduration : d.vehicle ≤ 18446744073709551600) (x : Line) (m : LineMove)
    (h : Carried P d k₁ k₂ x) (htimely : Timely d m) : Carried P d k₁ k₂ (lineStep P d x m) := by
  cases m with
  | vehicle => exact carried_vehicle hP hkeys hduration h
  | proxy elapsed arrives => exact carried_proxy hP hkeys h htimely arrives
  | station elapsed arrives => exact carried_station h htimely arrives

/-! ### Runs -/

theorem Keyed.vehicle_start (hkeys : Keyed auth k₁ k₂) :
    ∃ v, VehicleLoop.start auth true = .running v ∧
      v.sender.endpoint.session = { keys := k₁ } := by
  unfold VehicleLoop.start
  rw [hkeys.vehicle]
  exact ⟨_, rfl, rfl⟩

theorem carried_start (hkeys : Keyed auth k₁ k₂) : Carried P d k₁ k₂ (lineStart auth) := by
  have hproxy : ∃ s, ProxyService.start auth true = .running s ∧
      Relaying k₁ k₂ 0 s := by
    unfold ProxyService.start
    rw [hkeys.vehicle, hkeys.egress]
    exact ⟨_, rfl, ⟨rfl, Refines.fresh⟩, ⟨rfl, fun h => by cases h⟩, rfl⟩
  have hstation : ∃ s, GroundStation.start auth true = .running s ∧
      Expects k₂.mirror 0 s.endpoint.session := by
    unfold GroundStation.start
    rw [hkeys.egress]
    exact ⟨_, rfl, rfl, Refines.fresh⟩
  obtain ⟨v, hv, hkey⟩ := hkeys.vehicle_start
  have hnone : ∀ {α : Type} {p : α → Prop}, ∀ a ∈ ([] : List α), p a := by simp
  refine ⟨⟨by simp [lineStart, Authenticity.start, Numbered], hnone⟩, ?_,
    (by decide : 0 < 2 ^ 64 - 1), hnone, hproxy, hstation, ⟨[], trivial, rfl, List.nil_subset _⟩,
    ⟨[], trivial, rfl, List.nil_subset _⟩, hnone⟩
  show (VehicleLoop.start auth true).Holds _ _
  rw [hv]
  refine ⟨⟨0, running_start hv⟩, ?_, ?_⟩
  · rw [hkey]
  · rw [hkey]
    exact fun h => by cases h

/-- **What holds after every run.** -/
theorem carried_run (hP : Works P) (hkeys : Keyed auth k₁ k₂)
    (hduration : d.vehicle ≤ 18446744073709551600) {moves : List LineMove}
    (htimely : ∀ m ∈ moves, Timely d m) :
    Carried P d k₁ k₂ (run (lineStep P d) (lineStart auth) moves) :=
  run_invariant (P := fun _ => Timely d) (carried_lineStep hP hkeys hduration)
    (carried_start hkeys) (along_of_mem htimely)

/-- The rounds of the vehicle. -/
def LineMove.ticks : LineMove → List (ℕ → Bool)
  | .vehicle => [fun _ => true]
  | .proxy _ _ => []
  | .station _ _ => []

variable (auth) in
theorem vehicle_of_line (moves : List LineMove) :
    let x := run (lineStep P d) (lineStart auth) moves
    let ticks := moves.flatMap LineMove.ticks
    x.net.vehicle = run (vehicleStep P d.vehicle) (VehicleLoop.start auth true) ticks ∧
      x.net.published = emissions P d.vehicle (VehicleLoop.start auth true) ticks := by
  induction moves using List.reverseRecOn with
  | nil => exact ⟨rfl, rfl⟩
  | append_singleton moves m ih =>
    obtain ⟨hvehicle, hpublished⟩ := ih
    dsimp only
    rw [run_concat, List.flatMap_append, List.flatMap_singleton]
    cases m with
    | vehicle =>
      unfold emissions at hpublished ⊢
      rw [LineMove.ticks, run_concat, outputs_concat, ← hvehicle, ← hpublished]
      exact ⟨rfl, rfl⟩
    | proxy elapsed arrives =>
      rw [LineMove.ticks, List.append_nil]
      exact ⟨hvehicle, hpublished⟩
    | station elapsed arrives =>
      rw [LineMove.ticks, List.append_nil]
      exact ⟨hvehicle, hpublished⟩

theorem Carried.published_eq (hkeys : Keyed auth k₁ k₂) {moves : List LineMove}
    (hduration : d.vehicle ≤ 18446744073709551600)
    (h : Carried P d k₁ k₂ (run (lineStep P d) (lineStart auth) moves)) :
    publishedValues (run (lineStep P d) (lineStart auth) moves).net.published =
      (planned (min (moves.flatMap LineMove.ticks).length (roundsOf d.vehicle))).map Prod.snd := by
  have hvehicle := h.vehicle
  obtain ⟨hrun, hemissions⟩ := vehicle_of_line (P := P) (d := d) auth moves
  generalize run (lineStep P d) (lineStart auth) moves = x at *
  generalize moves.flatMap LineMove.ticks = ticks at *
  rw [publishedValues_eq, ← filterMap_due]
  refine congrArg _ ?_
  obtain ⟨v₀, hstart, -⟩ := hkeys.vehicle_start
  rw [hstart] at hrun hemissions
  rw [hrun] at hvehicle
  rw [hemissions]
  refine (contents_initial (inv_ticks (P := P) hduration (running_start hstart) ticks).2).2 ?_
  intro code hcode
  rw [hcode] at hvehicle
  exact hvehicle.1

/-! ### An example line -/

/-- The durations of the example. -/
def testDurations : Durations := ⟨20500, 20500, 20500⟩

/-- A round of the vehicle, and rounds of the proxy and the station in which datagrams arrive. -/
def testMoves : List LineMove := [.vehicle, .proxy 1 true, .station 2 true, .proxy 3 true]

theorem keyed_labelAuth : Keyed ProxyService.labelAuth ProxyService.testIngressKeys.mirror
    ProxyService.testEgressKeys where
  vehicle := by decide +kernel
  egress := by decide +kernel
  validVehicle := by decide
  validEgress := by decide

theorem timely_testMoves : ∀ m ∈ testMoves, Timely testDurations m := by
  unfold testMoves
  simp [Timely, testDurations]

/-! ### Over links that lose nothing -/

/-- **Nothing is lost, repeated or reordered**, over links that lose nothing and keep the order. In
every run in which the proxy and the station make their rounds in time: the values of the plan, as
far as the vehicle has come, are those that the station has shown, then one for each datagram in
flight to the station, then one for each in flight to the proxy; the proxy and the station go on,
and the vehicle returns nothing but 0. -/
theorem delivered_in_order (hP : Works P) (hkeys : Keyed auth k₁ k₂)
    (hduration : d.vehicle ≤ 18446744073709551600) {moves : List LineMove}
    (htimely : ∀ m ∈ moves, Timely d m) :
    let x := run (lineStep P d) (lineStart auth) moves
    let rounds := min (moves.flatMap LineMove.ticks).length (roundsOf d.vehicle)
    (∃ toStation toProxy : List StateValue,
      (planned rounds).map Prod.snd = x.net.showings.map Showing.value ++ toStation ++ toProxy ∧
        toStation.length = x.toStation.length ∧ toProxy.length = x.toProxy.length) ∧
      (∃ s, x.net.proxy = .running s) ∧ (∃ s, x.net.station = .running s) ∧
      ∀ code, x.net.vehicle = .exited code → code = 0 := by
  intro x rounds
  have h : Carried P d k₁ k₂ x := carried_run hP hkeys hduration htimely
  have hpublished : ∀ a ∈ x.net.published.map Prod.snd, ∃ value,
      decodeState (sealedContent a).1 (sealedContent a).2 = some value := fun a ha =>
    h.decodes (List.mem_map_of_mem ha)
  obtain ⟨toProxy, hproxyLength, htoProxy⟩ := h.toProxy.values hpublished
  obtain ⟨toStation, hstationLength, htoStation⟩ :=
    h.toStation.values fun _ ha => h.decodes_relayed ha
  refine ⟨⟨toStation, toProxy, ?_, hstationLength, hproxyLength⟩, ?_, ?_, ?_⟩
  · rw [← h.published_eq hkeys hduration, ← filterMap_content h.values, ← htoStation, ← htoProxy,
      filterMap_sealedContent h.logged]
  · exact h.proxy.imp fun _ hs => hs.1
  · exact h.station.imp fun _ hs => hs.1
  · intro code hcode
    have hvehicle := h.vehicle
    rw [hcode] at hvehicle
    exact hvehicle.1

/-- Three values are planned for the first round. -/
theorem delivered_in_order_demo :
    let x := run (lineStep paddingAead testDurations) (lineStart ProxyService.labelAuth) testMoves
    (∃ toStation toProxy : List StateValue,
      (planned 1).map Prod.snd = x.net.showings.map Showing.value ++ toStation ++ toProxy ∧
        toStation.length = x.toStation.length ∧ toProxy.length = x.toProxy.length) ∧
      (planned 1).length = 3 := by
  intro x
  refine ⟨?_, by decide⟩
  exact (delivered_in_order works_paddingAead keyed_labelAuth (d := testDurations) (by decide)
    timely_testMoves).1

/-! ### Over any network -/

/-- The moves of the network in a run of the line. -/
def netMoves (P : Aead) (d : Durations) : Line → List LineMove → List Move
  | _, [] => []
  | x, m :: moves => x.move m :: netMoves P d (lineStep P d x m) moves

theorem unforged_move {x : Line} (h : Carried P d k₁ k₂ x) (m : LineMove) :
    Unforged P x.net (x.move m) := by
  have hnothing : ∀ (log : List Sent) (e : NativeEndpoint), Ideal P log e none := by
    intro log e bytes plaintext hbytes
    cases hbytes
  cases m with
  | vehicle => trivial
  | proxy elapsed arrives =>
    intro s hs
    obtain ⟨s', hs', hrelaying⟩ := h.proxy
    obtain rfl : s' = s := by rw [hs] at hs'; cases hs'; rfl
    show Ideal P _ s'.ingress (arrival arrives x.toProxy)
    rcases arrival_cases arrives x.toProxy with ⟨hnone, -⟩ | ⟨datagram, hsome, hqueue⟩
    · rw [hnone]
      exact hnothing _ _
    · have htransit := h.toProxy
      rw [hqueue] at htransit
      obtain ⟨a, ha, hflight, -⟩ := htransit.receive
      rw [hsome]
      exact ideal_inFlight ha hrelaying.ingress.keys hflight
  | station elapsed arrives =>
    intro s hs
    obtain ⟨s', hs', hexpects⟩ := h.station
    obtain rfl : s' = s := by rw [hs] at hs'; cases hs'; rfl
    show Ideal P _ s'.endpoint (arrival arrives x.toStation)
    rcases arrival_cases arrives x.toStation with ⟨hnone, -⟩ | ⟨datagram, hsome, hqueue⟩
    · rw [hnone]
      exact hnothing _ _
    · have htransit := h.toStation
      rw [hqueue] at htransit
      obtain ⟨a, ha, hflight, -⟩ := htransit.receive
      rw [hsome]
      exact ideal_inFlight ha hexpects.keys hflight

/-- The moves of a line are those of a network in which the AEAD is ideal. -/
theorem unforged_line (hP : Works P) (hkeys : Keyed auth k₁ k₂)
    (hduration : d.vehicle ≤ 18446744073709551600) :
    ∀ {moves : List LineMove} {x : Line}, Carried P d k₁ k₂ x → (∀ m ∈ moves, Timely d m) →
      Along (networkStep P d) (Unforged P) x.net (netMoves P d x moves)
  | [], _, _, _ => trivial
  | m :: moves, x, h, htimely => by
    have hnext := carried_lineStep hP hkeys hduration x m h (htimely m List.mem_cons_self)
    exact ⟨unforged_move h m, unforged_line hP hkeys hduration hnext fun m' hm' =>
      htimely m' (List.mem_cons_of_mem m hm')⟩

/-- **What the station shows, the vehicle has published.** In every run of the three programs, in
any order of their rounds and whatever datagrams the network hands them, as long as the AEAD is
ideal: the values that the station has shown are, with their multiplicities, among those that the
vehicle has published so far, and these are an initial part of its plan. -/
theorem shown_authentic (auth : Auth Block) (vehicleBound proxyBound stationBound : Bool)
    (hduration : d.vehicle ≤ 18446744073709551600) {moves : List Move}
    (hideal : Along (networkStep P d) (Unforged P)
      (Authenticity.start auth vehicleBound proxyBound stationBound) moves) :
    let x := run (networkStep P d) (Authenticity.start auth vehicleBound proxyBound stationBound)
      moves
    (x.showings.map Showing.value).Subperm (publishedValues x.published) ∧
      ∃ n, publishedValues x.published <+: (planned n).map Prod.snd := by
  intro x
  have h : Authenticity.Inv d x := run_invariant (inv_networkStep hduration)
    (inv_start auth vehicleBound proxyBound stationBound) hideal
  refine ⟨?_, ?_⟩
  · rw [← filterMap_content h.values, ← filterMap_sealedContent h.logged]
    refine (subperm_filterMap _ (contents_subperm h.shown)).trans ?_
    refine (h.relayed.sublist.filterMap _).subperm.trans ?_
    exact subperm_filterMap _ (contents_subperm h.accepted)
  · obtain ⟨n, hn⟩ : ∃ n, contents x.published <+: due n := by
      have hplan := h.plan
      cases hvehicle : x.vehicle with
      | running v =>
        rw [hvehicle] at hplan
        obtain ⟨n, hn⟩ := hplan
        exact ⟨n, by rw [RunningAt.contents hn]⟩
      | exited code =>
        rw [hvehicle] at hplan
        exact hplan
    refine ⟨n, ?_⟩
    rw [publishedValues_eq, ← filterMap_due]
    exact hn.filterMap Prod.snd

/-- A line is such a network. -/
theorem shown_authentic_demo :
    let x := run (networkStep paddingAead testDurations)
      (Authenticity.start ProxyService.labelAuth true true true)
      (netMoves paddingAead testDurations (lineStart ProxyService.labelAuth) testMoves)
    (x.showings.map Showing.value).Subperm (publishedValues x.published) := by
  intro x
  have hduration : testDurations.vehicle ≤ 18446744073709551600 := by decide
  refine (shown_authentic ProxyService.labelAuth true true true hduration ?_).1
  exact unforged_line works_paddingAead keyed_labelAuth hduration (carried_start keyed_labelAuth)
    timely_testMoves

end NewMavlink.Endpoints.EndToEnd
