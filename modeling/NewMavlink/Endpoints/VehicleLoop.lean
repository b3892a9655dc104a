import NewMavlink.Endpoints.GroundStation
import NewMavlink.Endpoints.Hops
import NewMavlink.State.PublisherRuns
import NewMavlink.State.Snapshots

/-! # The vehicle

`main` of `vehicle_endpoint.cpp`: a loop that updates the publisher with fixed values, polls it
every hundred milliseconds, and seals and sends what it returns. A round of the loop is given which
of its datagrams the socket takes.

* `emit_cases`: a message is sealed and sent, sealed and not taken, or not sealed; the loop goes on
  only in the first case.
* `plan`: what is due in each round; `inv_ticks`: what a run has sealed so far is its plan.
* `vehicle_schedule`: over every run the records that are sealed are those of the plan, one after
  another, under the numbers 0, 1, 2, …; all of them unless the vehicle could not send one. -/

namespace NewMavlink.Endpoints.VehicleLoop

open NewMavlink.Lib.Buffer NewMavlink.Lib.Runs NewMavlink.Lib.Programs NewMavlink.Wire
open NewMavlink.Crypto NewMavlink.State.Messages NewMavlink.State.Publisher
open NewMavlink.State.PublisherRuns NewMavlink.Record.SealOpen NewMavlink.Record.SendLog
open NewMavlink.Transport NewMavlink.Endpoints.GroundStation NewMavlink.Endpoints.Hops
open NewMavlink.ProxyService (psk)

/-- The size of the array that `main` polls into. -/
abbrev kMaxHelpfulSnapshotMessages : ℕ := 3

/-- `endpoint` and `sequence`. -/
structure Sender where
  endpoint : NativeEndpoint
  sequence : UInt64 := 0

/-- What `main` keeps from round to round; `attitude` and `battery` never change. -/
structure Vehicle where
  sender : Sender
  publisher : StatePublisher
  position : Position
  nowMs : UInt64 := 0

/-- `position`, as `main` declares it. -/
def position : Position where
  stateMeta := { resourceId := 42, sourceId := 1 }
  latitudeE7 := 473977400
  longitudeE7 := 85455900
  altitudeMm := 500000

/-- `attitude`, as `main` declares it. -/
def attitude : Attitude where
  stateMeta := { resourceId := 43, sourceId := 1 }

/-- `battery`, as `main` declares it. -/
def battery : Battery where
  stateMeta := { resourceId := 44, sourceId := 1 }
  voltageMv := 16000
  remainingPermille := 900

/-! ### Sending the messages of a poll -/

/-- `header`, as it is sent. -/
def outHeader (m : NativeMessage) (sequence : UInt64) : RecordHeader :=
  { m.header with
    sessionId := 1
    epoch := 1
    sequence
    payloadLen := UInt16.ofNat m.length }

/-- One message is sealed and sent; the flag says whether the socket takes it. -/
def emit (P : Aead) (x : Sender) (a : PublishedMessage × Bool) : Program Sender :=
  match x.endpoint.send P (outHeader a.1.message x.sequence) (.data a.1.message.bytes) a.2 with
  | (none, _) => .exited 5
  | (some _, endpoint) => .running ⟨endpoint, x.sequence + 1⟩

/-- The message with the record that is sealed of it, sent or not. -/
def sealedOf (P : Aead) (x : Sender) (a : PublishedMessage × Bool) :
    List (PublishedMessage × Sent) :=
  (seals P x.endpoint (outHeader a.1.message x.sequence) a.1.message.bytes).map (Prod.mk a.1)

/-- The datagram that is sent. -/
def sentOf (P : Aead) (x : Sender) (a : PublishedMessage × Bool) : List (List UInt8) :=
  (x.endpoint.send P (outHeader a.1.message x.sequence) (.data a.1.message.bytes) a.2).1.toList

/-! ### The loop -/

/-- The updates at the start of a round. -/
def Vehicle.updated (durationMs : UInt64) (v : Vehicle) : Vehicle :=
  let v :=
    if v.nowMs = 0 then
      let publisher := (v.publisher.updatePosition v.position v.nowMs).2
      let publisher := (publisher.updateAttitude attitude v.nowMs).2
      { v with publisher := (publisher.updateBattery battery v.nowMs).2 }
    else v
  if durationMs > 0 ∧ v.nowMs = 3000 then
    let position := { v.position with latitudeE7 := v.position.latitudeE7 + 10 }
    { v with position, publisher := (v.publisher.updatePosition position v.nowMs).2 }
  else v

/-- `messages` of a round, and the publisher after the poll. -/
def Vehicle.polled (durationMs : UInt64) (v : Vehicle) : List PublishedMessage × StatePublisher :=
  (v.updated durationMs).publisher.poll v.nowMs kMaxHelpfulSnapshotMessages

/-- The messages of a round, each with whether the socket takes its datagram. -/
def Vehicle.attempts (durationMs : UInt64) (v : Vehicle) (sendTo : ℕ → Bool) :
    List (PublishedMessage × Bool) :=
  (v.polled durationMs).1.zipIdx.map fun x => (x.1, sendTo x.2)

/-- One round of the loop. -/
def tick (P : Aead) (durationMs : UInt64) (v : Vehicle) (sendTo : ℕ → Bool) : Program Vehicle :=
  match run (Program.step (emit P)) (.running v.sender) (v.attempts durationMs sendTo) with
  | .exited code => .exited code
  | .running sender =>
    if durationMs = 0 then .exited 0
    else if v.nowMs ≥ durationMs then .exited 0
    else .running {
      sender
      publisher := (v.polled durationMs).2
      position := (v.updated durationMs).position
      nowMs := v.nowMs + 100 }

/-- The vehicle after a round. -/
def vehicleStep (P : Aead) (durationMs : UInt64) : Program Vehicle → (ℕ → Bool) → Program Vehicle :=
  Program.step (tick P durationMs)

/-- What a round seals. -/
def sealedIn (P : Aead) (durationMs : UInt64) :
    Program Vehicle → (ℕ → Bool) → List (PublishedMessage × Sent) :=
  Program.output fun v sendTo => outputs (Program.step (emit P)) (Program.output (sealedOf P))
    (.running v.sender) (v.attempts durationMs sendTo)

/-- What a round sends. -/
def sentIn (P : Aead) (durationMs : UInt64) :
    Program Vehicle → (ℕ → Bool) → List (List UInt8) :=
  Program.output fun v sendTo => outputs (Program.step (emit P)) (Program.output (sentOf P))
    (.running v.sender) (v.attempts durationMs sendTo)

/-- What a run of the loop seals. -/
def emissions (P : Aead) (durationMs : UInt64) (vehicle : Program Vehicle)
    (ticks : List (ℕ → Bool)) : List (PublishedMessage × Sent) :=
  outputs (vehicleStep P durationMs) (sealedIn P durationMs) vehicle ticks

/-- `main` up to the loop; `bound` says whether the port can be bound. -/
def start (auth : Auth Block) (bound : Bool) : Program Vehicle :=
  match deriveDirectionalKeys auth psk ⟨1, 1⟩ 1 3 with
  | none => .exited 2
  | some (tx, _) =>
    if !bound then .exited 3
    else .running {
      sender := { endpoint := ⟨{ keys := tx }⟩ }
      publisher := .init 1 3 kHelpfulSnapshotPeriodMs
      position }

/-! ### The plan -/

/-- The position after the change. -/
def movedPosition : Position := { position with latitudeE7 := 473977410 }

/-- A value as it is published: with its generation, the one it is a difference to, and whether it
is a snapshot. -/
def numbered (k : Kind) (v : k.Value) (generation baseGeneration : UInt32) (snapshot : UInt8) :
    StateValue :=
  ⟨k, k.withMeta v { k.stateMeta v with generation, baseGeneration, snapshot }⟩

/-- What is due in the i-th round, a tenth of a second after the one before. -/
def plan (i : ℕ) : List (PublishKind × StateValue) :=
  if i = 0 then
    [(.onChange, numbered .position position 1 0 0),
      (.onChange, numbered .attitude attitude 1 0 0),
      (.onChange, numbered .battery battery 1 0 0)]
  else if i % 100 = 0 then
    [(.helpfulSnapshot, numbered .position movedPosition 2 0 1),
      (.helpfulSnapshot, numbered .attitude attitude 1 0 1),
      (.helpfulSnapshot, numbered .battery battery 1 0 1)]
  else if i = 30 then [(.onChange, numbered .position movedPosition 2 1 0)]
  else []

/-- The rounds that there are for a duration. -/
def roundsOf (durationMs : UInt64) : ℕ := (durationMs.toNat + 99) / 100 + 1

/-- What is due in the first `n` rounds. -/
def planned (n : ℕ) : List (PublishKind × StateValue) := (List.range n).flatMap plan

theorem planned_succ (n : ℕ) : planned (n + 1) = planned n ++ plan n := by
  rw [planned, List.range_succ, List.flatMap_append, List.flatMap_singleton]
  rfl

/-! ### What a poll returns -/

/-- The sort of a message and the value it carries. -/
def contentOf (x : PublishedMessage) : PublishKind × Option StateValue :=
  (x.kind, decodeState x.message.header.type x.message.bytes)

variable {p : StatePublisher} {nowMs : UInt64} {capacity : ℕ}

theorem contentOf_build {k : Kind} {snapshot : Bool} {x : PublishedMessage}
    (h : p.build k snapshot = some x) :
    contentOf x = (kindOf snapshot, some ⟨k, published p (kindOf snapshot) k⟩) := by
  have hpublishes := publishes_of_build h
  rw [contentOf, hpublishes.kind,
    decodeState_eq_some.mpr ⟨hpublishes.type, hpublishes.decodes⟩]

theorem map_contentOf_build {ks : List Kind} {snapshot : Bool}
    (h : ∀ k ∈ ks, (p.build k snapshot).isSome = true) :
    (ks.filterMap (p.build · snapshot)).map contentOf =
      ks.map fun k => (kindOf snapshot, some ⟨k, published p (kindOf snapshot) k⟩) := by
  induction ks with
  | nil => rfl
  | cons k ks ih =>
    obtain ⟨x, hx⟩ := Option.isSome_iff_exists.mp (h k List.mem_cons_self)
    rw [List.filterMap_cons_some (f := (p.build · snapshot)) hx, List.map_cons, List.map_cons,
      contentOf_build hx, ih fun k' hk' => h k' (List.mem_cons_of_mem k hk')]

/-- **A poll of a publisher whose values can be encoded**: a snapshot of each if one is due, else
the dirty ones; and none is dirty afterwards. -/
theorem poll_contents (hinv : PublisherInv p) (hencodes : ∀ k, encodes p k = true)
    (hroom : 3 ≤ capacity) :
    (p.poll nowMs capacity).1.map contentOf =
        (if p.due nowMs then
          Kind.all.map fun k => (.helpfulSnapshot, some ⟨k, published p .helpfulSnapshot k⟩)
        else (Kind.all.filter fun k => (p.streams k).dirty).map
          fun k => (.onChange, some ⟨k, published p .onChange k⟩)) ∧
      ∀ k, (p.poll nowMs capacity).2.streams k = { p.streams k with dirty := false } := by
  have hbuild : ∀ k snapshot, (p.build k snapshot).isSome = true := by
    intro k snapshot
    rw [build_isSome (hinv k), hencodes k]
  obtain ⟨hmessages, hdirty⟩ := p.poll_of_room nowMs hroom
  refine ⟨?_, fun k => ?_⟩
  · rw [hmessages]
    split_ifs with hdue
    · exact map_contentOf_build fun k _ => hbuild k true
    · have hpending : Kind.all.filterMap p.pending =
          (Kind.all.filter fun k => (p.streams k).dirty).filterMap (p.build · false) := by
        rw [List.filterMap_filter]
        exact List.filterMap_congr fun k _ => rfl
      rw [hpending]
      exact map_contentOf_build fun k _ => hbuild k false
  · have hclean : ((p.poll nowMs capacity).2.streams k).dirty = false := by
      rw [hdirty]
      unfold StatePublisher.pending
      obtain ⟨x, hx⟩ := Option.isSome_iff_exists.mp (hbuild k false)
      cases (p.streams k).dirty <;> simp [hx]
    rw [(p.sameState_poll nowMs capacity).2.2 k, hclean]

/-! ### The publisher between two rounds -/

/-- A stream of the vehicle, before and after the change of position. -/
def streamAt (moved dirty : Bool) : (k : Kind) → Stream k
  | .position =>
    if moved then ⟨true, (numbered .position movedPosition 2 1 0).2, 2, dirty⟩
    else ⟨true, (numbered .position position 1 0 0).2, 1, dirty⟩
  | .attitude => ⟨true, (numbered .attitude attitude 1 0 0).2, 1, dirty⟩
  | .battery => ⟨true, (numbered .battery battery 1 0 0).2, 1, dirty⟩

theorem streamAt_dirty (moved dirty : Bool) (k : Kind) :
    (streamAt moved dirty k).dirty = dirty := by
  cases k with
  | position => cases moved <;> rfl
  | attitude => rfl
  | battery => rfl

/-- The streams that the updates of the n-th round have changed. -/
def changedIn (n : ℕ) (k : Kind) : Bool := n == 0 || (n == 30 && k == .position)

/-- What holds of the publisher in the n-th round after its updates: `changed` says which streams
are dirty, and whether the position has been moved. -/
structure PublisherAt (n : ℕ) (moved : Bool) (changed : Kind → Bool) (p : StatePublisher) :
    Prop where
  source : p.sourceId = 1
  destination : p.destinationId = 3
  period : p.snapshotPeriodMs = 10000
  next : p.nextSnapshotMs.toNat = min (10000 * ((n - 1) / 100 + 1)) (2 ^ 64 - 1)
  streams : ∀ k, p.streams k = streamAt moved (changed k) k
  inv : PublisherInv p

theorem due_iff_round {n : ℕ} {moved : Bool} {changed : Kind → Bool}
    (h : PublisherAt n moved changed p) (hnow : nowMs.toNat = 100 * n) :
    p.due nowMs = true ↔ n ≠ 0 ∧ n % 100 = 0 := by
  have hlt : nowMs.toNat < 2 ^ 64 := nowMs.toNat_lt
  have hnext := h.next
  have hne : p.nextSnapshotMs ≠ 0 := by
    intro hzero
    rw [hzero, UInt64.toNat_zero] at hnext
    omega
  rw [State.Snapshots.due_iff, hnext, hnow]
  constructor
  · rintro ⟨-, hle⟩
    omega
  · rintro ⟨hzero, hround⟩
    exact ⟨hne, by omega⟩

theorem encodes_streamAt {moved dirty : Bool} {k : Kind}
    (h : p.streams k = streamAt moved dirty k) : encodes p k = true := by
  unfold encodes
  rw [h]
  cases k <;> cases moved <;> cases dirty <;> decide

/-- **What a poll returns in the n-th round is what is planned.** -/
theorem contents_round {n : ℕ} (h : PublisherAt n (30 ≤ n) (changedIn n) p)
    (hnow : nowMs.toNat = 100 * n) :
    (p.poll nowMs kMaxHelpfulSnapshotMessages).1.map contentOf =
      (plan n).map fun x => (x.1, some x.2) := by
  have hsnapshot : ∀ k, published p .helpfulSnapshot k =
      k.withMeta (streamAt (30 ≤ n) (changedIn n k) k).value
        { k.stateMeta (streamAt (30 ≤ n) (changedIn n k) k).value with
          snapshot := 1, baseGeneration := 0 } := by
    intro k
    rewrite [← h.streams k]
    rfl
  have hchange : ∀ k, published p .onChange k =
      k.withMeta (streamAt (30 ≤ n) (changedIn n k) k).value
        { k.stateMeta (streamAt (30 ≤ n) (changedIn n k) k).value with snapshot := 0 } := by
    intro k
    rewrite [← h.streams k]
    rfl
  have hdirty : ∀ k, (p.streams k).dirty = changedIn n k := by
    intro k
    rw [h.streams k, streamAt_dirty]
  rw [(poll_contents h.inv (fun k => encodes_streamAt (h.streams k)) (by decide)).1]
  by_cases hdue : p.due nowMs = true
  · obtain ⟨hzero, hround⟩ := (due_iff_round h hnow).mp hdue
    have hmoved : decide (30 ≤ n) = true := by simp; omega
    rw [if_pos hdue, plan, if_neg hzero, if_pos hround]
    simp only [hsnapshot, hmoved]
    rfl
  · have hround : ¬ (n ≠ 0 ∧ n % 100 = 0) := fun hn => hdue ((due_iff_round h hnow).mpr hn)
    rw [if_neg hdue, plan]
    simp only [hchange, hdirty]
    by_cases hzero : n = 0
    · subst hzero
      rfl
    · rw [if_neg hzero, if_neg fun h => hround ⟨hzero, h⟩]
      by_cases hthirty : n = 30
      · subst hthirty
        rfl
      · have hnone : ∀ k, changedIn n k = false := fun k => by simp [changedIn, hzero, hthirty]
        rw [if_neg hthirty]
        simp only [hnone]
        rfl

/-- **After the poll of the n-th round** the publisher is as the next round expects it. -/
theorem publisher_round {n : ℕ} (h : PublisherAt n (30 ≤ n) (changedIn n) p)
    (hnow : nowMs.toNat = 100 * n) :
    PublisherAt (n + 1) (30 ≤ n) (fun _ => false)
      (p.poll nowMs kMaxHelpfulSnapshotMessages).2 := by
  have hsame := p.sameState_poll nowMs kMaxHelpfulSnapshotMessages
  have hstreams : ∀ k, (p.poll nowMs kMaxHelpfulSnapshotMessages).2.streams k =
      { p.streams k with dirty := false } :=
    (poll_contents h.inv (fun k => encodes_streamAt (h.streams k)) (by decide)).2
  refine ⟨hsame.1.trans h.source, hsame.2.1.trans h.destination,
    State.Snapshots.snapshotPeriodMs_poll.trans h.period, ?_, fun k => ?_,
    publisherInv_step p (.poll nowMs kMaxHelpfulSnapshotMessages) h.inv⟩
  · have hlt : nowMs.toNat < 2 ^ 64 := nowMs.toNat_lt
    have hperiod : (10000 : UInt64).toNat = 10000 := rfl
    rw [State.Snapshots.nextSnapshotMs_poll]
    by_cases hdue : p.due nowMs = true
    · obtain ⟨hzero, hround⟩ := (due_iff_round h hnow).mp hdue
      rw [if_pos ⟨by decide, hdue⟩, State.Snapshots.toNat_scheduleNextSnapshot, h.period, hperiod,
        hnow]
      omega
    · have hround : ¬ (n ≠ 0 ∧ n % 100 = 0) := fun hn => hdue ((due_iff_round h hnow).mpr hn)
      rw [if_neg fun hn => hdue hn.2, h.next]
      omega
  · rw [hstreams k, h.streams k]
    cases k with
    | position => cases decide (30 ≤ n) <;> rfl
    | attitude => rfl
    | battery => rfl

/-! ### The updates of a round -/

/-- **What holds before the n-th round**, of what the messages are made of. -/
structure VehicleAt (n : ℕ) (v : Vehicle) : Prop where
  now : v.nowMs.toNat = 100 * n
  position : v.position = if 30 < n then movedPosition else position
  first : n = 0 → v.publisher = .init 1 3 kHelpfulSnapshotPeriodMs
  publisher : n ≠ 0 → PublisherAt n (30 < n) (fun _ => false) v.publisher

variable {durationMs : UInt64} {v : Vehicle} {n : ℕ}

theorem publisher_first {p : StatePublisher} (h : p = ((((StatePublisher.init 1 3
      kHelpfulSnapshotPeriodMs).updatePosition position 0).2.updateAttitude
        attitude 0).2.updateBattery battery 0).2) :
    PublisherAt 0 false (changedIn 0) p := by
  subst h
  have hinit := publisherInv_init 1 3 kHelpfulSnapshotPeriodMs
  have hposition := publisherInv_step _ (.update .position position 0) hinit
  have hattitude := publisherInv_step _ (.update .attitude attitude 0) hposition
  refine ⟨rfl, rfl, rfl, rfl, fun k => ?_,
    publisherInv_step _ (.update .battery battery 0) hattitude⟩
  cases k <;> rfl

theorem publisher_moved (h : PublisherAt 30 false (fun _ => false) p) :
    PublisherAt 30 true (changedIn 30) (p.updatePosition movedPosition nowMs).2 := by
  have hchanged : p.changed .position movedPosition = true := by
    unfold StatePublisher.changed
    rw [h.streams .position]
    decide
  have hnext : p.nextSnapshotMs ≠ 0 := by
    intro hzero
    have hnext := h.next
    rw [hzero] at hnext
    exact absurd hnext (by decide)
  refine ⟨?_, ?_, ?_, ?_, fun k => ?_,
    publisherInv_step p (.update .position movedPosition nowMs) h.inv⟩
  · rw [StatePublisher.updatePosition, StatePublisher.sourceId_update, h.source]
  · rw [StatePublisher.updatePosition, StatePublisher.destinationId_update, h.destination]
  · exact State.Snapshots.snapshotPeriodMs_update.trans h.period
  · rw [StatePublisher.updatePosition, State.Snapshots.nextSnapshotMs_update hchanged,
      if_neg hnext, h.next]
  · rw [StatePublisher.updatePosition, StatePublisher.streams_update hchanged]
    unfold StatePublisher.stored
    rw [h.streams .position, h.source]
    cases k with
    | position => rfl
    | attitude => exact h.streams .attitude
    | battery => exact h.streams .battery

/-- **The updates of the n-th round.** -/
theorem updated_round (h : VehicleAt n v) (hduration : n ≠ 0 → durationMs > 0) :
    PublisherAt n (30 ≤ n) (changedIn n) (v.updated durationMs).publisher ∧
      (v.updated durationMs).position = if 30 ≤ n then movedPosition else position := by
  have hthree : (3000 : UInt64).toNat = 3000 := rfl
  unfold Vehicle.updated
  by_cases hzero : n = 0
  · subst hzero
    have hnow : v.nowMs = 0 := UInt64.toNat_inj.mp h.now
    have hposition : v.position = position := h.position
    rw [if_pos hnow, if_neg fun hn => absurd (hnow.symm.trans hn.2) (by decide)]
    dsimp only
    rw [hnow, hposition, h.first rfl]
    exact ⟨publisher_first rfl, rfl⟩
  · have hnow : v.nowMs ≠ 0 := by
      intro hnow
      have hlt := h.now
      rw [hnow, UInt64.toNat_zero] at hlt
      omega
    have hpublisher := h.publisher hzero
    rw [if_neg hnow]
    by_cases hthirty : n = 30
    · subst hthirty
      have hnow : v.nowMs = 3000 := UInt64.toNat_inj.mp h.now
      have hposition : v.position = position := h.position
      have hmoved : { position with latitudeE7 := position.latitudeE7 + 10 } = movedPosition := rfl
      dsimp only
      rw [if_pos ⟨hduration hzero, hnow⟩]
      dsimp only
      rw [hposition, hmoved]
      exact ⟨publisher_moved hpublisher, rfl⟩
    · have hnot : ¬ (durationMs > 0 ∧ v.nowMs = 3000) := by
        rintro ⟨-, hnow⟩
        have hlt := h.now
        rw [hnow, hthree] at hlt
        omega
      have hsame : decide (30 ≤ n) = decide (30 < n) := by
        rw [decide_eq_decide]
        omega
      have hnone : changedIn n = fun _ => false := by
        funext k
        simp [changedIn, hzero, hthirty]
      dsimp only
      rw [if_neg hnot, hsame, hnone, h.position]
      refine ⟨hpublisher, ?_⟩
      by_cases hn : 30 < n
      · rw [if_pos hn, if_pos (by omega)]
      · rw [if_neg hn, if_neg (by omega)]

/-! ### What is sealed of the messages of a round -/

/-- The sender after a message. -/
def Sender.next (x : Sender) : Sender := ⟨⟨x.endpoint.session.sent x.sequence⟩, x.sequence + 1⟩

variable {P : Aead} {x : Sender} {a : PublishedMessage × Bool}

/-- **What becomes of a message**: it is not sealed, sealed and not taken, or sealed and sent, and
only then does the loop go on. -/
theorem emit_cases (P : Aead) (x : Sender) (a : PublishedMessage × Bool) :
    (sealedOf P x a = [] ∧ sentOf P x a = [] ∧ emit P x a = .exited 5) ∨
    ∃ cipher, Sealable x.endpoint.session (outHeader a.1.message x.sequence)
        (.data a.1.message.bytes) ∧
      sealCipher P x.endpoint.session (outHeader a.1.message x.sequence)
        (.data a.1.message.bytes) = some cipher ∧
      sealedOf P x a = [(a.1, sentBy x.endpoint.session (outHeader a.1.message x.sequence)
        (.data a.1.message.bytes) cipher)] ∧
      ((a.2 = false ∧ sentOf P x a = [] ∧ emit P x a = .exited 5) ∨
        (a.2 = true ∧ emit P x a = .running x.next ∧
          sentOf P x a = [datagramOf (outHeader a.1.message x.sequence) a.1.message.bytes
            cipher])) := by
  unfold sealedOf sentOf emit
  rcases send_cases P x.endpoint (outHeader a.1.message x.sequence) a.1.message.bytes a.2 with
    ⟨hsend, hseals⟩ | ⟨cipher, hsealable, hcipher, hseals, hsend⟩
  · rw [hsend, hseals]
    exact Or.inl ⟨rfl, rfl, rfl⟩
  · rw [hsend, hseals]
    refine Or.inr ⟨cipher, hsealable, hcipher, rfl, ?_⟩
    cases a.2 with
    | false => exact Or.inl ⟨rfl, rfl, rfl⟩
    | true => exact Or.inr ⟨rfl, rfl, rfl⟩

/-- The record is sealed of the message, under this number. -/
def SealedAs (sequence : UInt64) (e : PublishedMessage × Sent) : Prop :=
  e.2.header = sealedHeader (outHeader e.1.message sequence) e.1.message.bytes.length ∧
    e.2.plaintext = e.1.message.bytes

/-- What the messages seal, one after another. -/
abbrev sealedAll (P : Aead) (x : Sender) (as : List (PublishedMessage × Bool)) :
    List (PublishedMessage × Sent) :=
  outputs (Program.step (emit P)) (Program.output (sealedOf P)) (.running x) as

/-- The records are sealed under the numbers from `first` on. -/
def Numbered (first : UInt64) (log : List (PublishedMessage × Sent)) : Prop :=
  ∀ i e, log[i]? = some e → SealedAs (first + UInt64.ofNat i) e

theorem Numbered.concat {first : UInt64} {log : List (PublishedMessage × Sent)}
    {e : PublishedMessage × Sent} (h : Numbered first log)
    (he : SealedAs (first + UInt64.ofNat log.length) e) : Numbered first (log ++ [e]) := by
  intro i e' hi
  rcases Nat.lt_trichotomy i log.length with hlt | rfl | hgt
  · rw [List.getElem?_append_left hlt] at hi
    exact h i e' hi
  · rw [List.getElem?_concat_length] at hi
    obtain rfl := Option.some.inj hi
    exact he
  · rw [List.getElem?_eq_none (by simp; omega)] at hi
    cases hi

theorem Numbered.append {log log' : List (PublishedMessage × Sent)} (h : Numbered 0 log)
    (h' : Numbered (UInt64.ofNat log.length) log') : Numbered 0 (log ++ log') := by
  intro i e hi
  by_cases hlt : i < log.length
  · rw [List.getElem?_append_left hlt] at hi
    exact h i e hi
  · rw [List.getElem?_append_right (by omega)] at hi
    have he := h' _ e hi
    rwa [← UInt64.ofNat_add, Nat.add_sub_cancel' (by omega), ← UInt64.zero_add (UInt64.ofNat i)]
      at he

/-- **The messages of a round are sealed in order**, each under the next number, until one cannot be
sent. -/
theorem emits (P : Aead) (x : Sender) (as : List (PublishedMessage × Bool)) :
    Numbered x.sequence (sealedAll P x as) ∧
    (run (Program.step (emit P)) (.running x) as).Holds
      (fun y => (sealedAll P x as).map Prod.fst = as.map Prod.fst ∧
        y.sequence = x.sequence + UInt64.ofNat (sealedAll P x as).length)
      (fun code => code = 5 ∧ (sealedAll P x as).map Prod.fst <+: as.map Prod.fst) := by
  induction as using List.reverseRecOn with
  | nil => exact ⟨by simp [Numbered], rfl, by simp⟩
  | append_singleton as a ih =>
    obtain ⟨hnumbered, hrun⟩ := ih
    unfold sealedAll at hnumbered hrun ⊢
    rw [outputs_concat, run_concat]
    cases hstate : run (Program.step (emit P)) (.running x) as with
    | exited code =>
      rw [hstate] at hrun
      rw [output_exited, List.append_nil, step_exited, List.map_append]
      exact ⟨hnumbered, hrun.1, hrun.2.trans (List.prefix_append _ _)⟩
    | running y =>
      rw [hstate] at hrun
      obtain ⟨hmessages, hsequence⟩ := hrun
      rw [output_running, step_running]
      rcases emit_cases P y a with ⟨hnone, -, hemit⟩ | ⟨cipher, -, -, hone, hsent⟩
      · rw [hnone, hemit, List.append_nil, List.map_append]
        exact ⟨hnumbered, rfl, by rw [hmessages]; exact List.prefix_append _ _⟩
      · rw [hone]
        have hentry : SealedAs y.sequence (a.1, sentBy y.endpoint.session
            (outHeader a.1.message y.sequence) (.data a.1.message.bytes) cipher) := ⟨rfl, rfl⟩
        refine ⟨hnumbered.concat (by rw [← hsequence]; exact hentry), ?_⟩
        rcases hsent with ⟨-, -, hemit⟩ | ⟨-, hemit, -⟩
        · rw [hemit]
          exact ⟨rfl, by simp [hmessages]⟩
        · rw [hemit]
          refine ⟨by simp [hmessages], ?_⟩
          show y.sequence + 1 = _
          rw [hsequence, List.length_append, List.length_singleton, UInt64.ofNat_add,
            UInt64.add_assoc]
          rfl

/-! ### Whole runs -/

/-- The message was built by a publisher from 1 to 3. -/
def Built (m : PublishedMessage) : Prop :=
  ∃ p k snapshot, p.sourceId = 1 ∧ p.destinationId = 3 ∧
    StatePublisher.build p k snapshot = some m

/-- The contents of what was sealed. -/
abbrev contents (log : List (PublishedMessage × Sent)) : List (PublishKind × Option StateValue) :=
  log.map fun e => contentOf e.1

theorem contents_append (log log' : List (PublishedMessage × Sent)) :
    contents (log ++ log') = contents log ++ contents log' := List.map_append

/-- What is due in the first `n` rounds, as contents. -/
abbrev due (n : ℕ) : List (PublishKind × Option StateValue) :=
  (planned n).map fun x => (x.1, some x.2)

/-- What holds of the log at any time. -/
structure Logged (log : List (PublishedMessage × Sent)) : Prop where
  numbered : Numbered 0 log
  built : ∀ e ∈ log, Built e.1

/-- **What holds between two rounds**, of which there were `n`. -/
structure RunningAt (durationMs : UInt64) (n : ℕ) (log : List (PublishedMessage × Sent))
    (v : Vehicle) : Prop where
  vehicle : VehicleAt n v
  early : n ≠ 0 → 100 * (n - 1) < durationMs.toNat
  sequence : v.sender.sequence = UInt64.ofNat log.length
  contents : contents log = due n

/-- **What holds when `main` returns**: all that is planned was sealed, or one message could not be
sent. -/
def ReturnedAt (durationMs : UInt64) (n : ℕ) (log : List (PublishedMessage × Sent)) (code : ℕ) :
    Prop :=
  (code = 0 ∧ roundsOf durationMs ≤ n ∧ contents log = due (roundsOf durationMs)) ∨
    (code = 5 ∧ contents log <+: due (min n (roundsOf durationMs)))

theorem due_succ (n : ℕ) : due (n + 1) = due n ++ (plan n).map fun x => (x.1, some x.2) := by
  rw [due, planned_succ, List.map_append]

theorem due_initial {m n : ℕ} (h : m ≤ n) : due m <+: due n := by
  obtain ⟨k, rfl⟩ := Nat.exists_eq_add_of_le h
  induction k with
  | zero => exact List.prefix_rfl
  | succ k ih =>
    refine (ih (by omega)).trans ?_
    rw [← Nat.add_assoc, due_succ]
    exact List.prefix_append _ _

theorem le_roundsOf {n : ℕ} (h : n ≠ 0 → 100 * (n - 1) < durationMs.toNat) :
    n + 1 ≤ roundsOf durationMs := by
  unfold roundsOf
  by_cases hn : n = 0
  · omega
  · have hlt := h hn
    omega

theorem RunningAt.duration_pos {n : ℕ} {log : List (PublishedMessage × Sent)}
    (h : RunningAt durationMs n log v) (hn : n ≠ 0) : durationMs > 0 := by
  have hlt := h.early hn
  rw [gt_iff_lt, UInt64.lt_iff_toNat_lt, UInt64.toNat_zero]
  omega

theorem RunningAt.rounds_eq {n : ℕ} {log : List (PublishedMessage × Sent)}
    (h : RunningAt durationMs n log v) (hend : durationMs = 0 ∨ v.nowMs ≥ durationMs) :
    roundsOf durationMs = n + 1 := by
  have hle : durationMs.toNat ≤ 100 * n := by
    rcases hend with rfl | hge
    · exact Nat.zero_le _
    · rw [ge_iff_le, UInt64.le_iff_toNat_le, h.vehicle.now] at hge
      exact hge
  have hrounds := le_roundsOf h.early
  unfold roundsOf at hrounds ⊢
  omega

theorem vehicleAt_next {n : ℕ} {log : List (PublishedMessage × Sent)}
    (hduration : durationMs ≤ 18446744073709551600) (h : RunningAt durationMs n log v)
    (hearly : 100 * n < durationMs.toNat) (sender : Sender) :
    VehicleAt (n + 1) {
      sender
      publisher := (v.polled durationMs).2
      position := (v.updated durationMs).position
      nowMs := v.nowMs + 100 } := by
  obtain ⟨hupdated, hposition⟩ := updated_round h.vehicle h.duration_pos
  have hmax : (18446744073709551600 : UInt64).toNat = 18446744073709551600 := rfl
  have hhundred : (100 : UInt64).toNat = 100 := rfl
  rw [UInt64.le_iff_toNat_le, hmax] at hduration
  refine ⟨?_, ?_, fun hn => absurd hn (Nat.succ_ne_zero n), fun _ => ?_⟩
  · show (v.nowMs + 100).toNat = _
    rw [UInt64.toNat_add, h.vehicle.now, hhundred, Nat.mod_eq_of_lt (by omega)]
    omega
  · show (v.updated durationMs).position = _
    rw [hposition]
    exact if_congr Nat.lt_succ_iff.symm rfl rfl
  · have hsame : decide (30 < n + 1) = decide (30 ≤ n) := by
      rw [decide_eq_decide]
      exact Nat.lt_succ_iff
    rw [hsame]
    exact publisher_round hupdated h.vehicle.now

theorem fst_attempts (v : Vehicle) (sendTo : ℕ → Bool) :
    (v.attempts durationMs sendTo).map Prod.fst = (v.polled durationMs).1 := by
  rw [Vehicle.attempts, List.map_map]
  exact List.zipIdx_map_fst 0 _

theorem built_polled {n : ℕ} (h : PublisherAt n (30 ≤ n) (changedIn n)
      (v.updated durationMs).publisher) {m : PublishedMessage} (hm : m ∈ (v.polled durationMs).1) :
    Built m := by
  obtain ⟨k, snapshot, hbuild⟩ := StatePublisher.mem_poll hm
  exact ⟨_, k, snapshot, h.source, h.destination, hbuild⟩

/-- **Every round keeps to the plan.** The clock does not start again before the end of the
duration. -/
theorem inv_tick {n : ℕ} {log : List (PublishedMessage × Sent)}
    (hduration : durationMs ≤ 18446744073709551600) (hlog : Logged log)
    (h : RunningAt durationMs n log v) (sendTo : ℕ → Bool) :
    Logged (log ++ sealedAll P v.sender (v.attempts durationMs sendTo)) ∧
    (tick P durationMs v sendTo).Holds
      (RunningAt durationMs (n + 1)
        (log ++ sealedAll P v.sender (v.attempts durationMs sendTo)))
      (ReturnedAt durationMs (n + 1)
        (log ++ sealedAll P v.sender (v.attempts durationMs sendTo))) := by
  have hupdated := (updated_round h.vehicle h.duration_pos).1
  have hmessages := contents_round hupdated h.vehicle.now
  have hrounds := le_roundsOf h.early
  obtain ⟨hnumbered, hrun⟩ := emits P v.sender (v.attempts durationMs sendTo)
  rw [fst_attempts] at hrun
  have hmap : ∀ new : List (PublishedMessage × Sent),
      contents (log ++ new) = due n ++ (new.map Prod.fst).map contentOf := by
    intro new
    rw [contents_append, h.contents, List.map_map]
    rfl
  generalize hnew : sealedAll P v.sender (v.attempts durationMs sendTo) = new at hnumbered hrun ⊢
  have hinitial : new.map Prod.fst <+: (v.polled durationMs).1 := by
    cases hstate : run (Program.step (emit P)) (.running v.sender)
        (v.attempts durationMs sendTo) with
    | running y => rw [hstate] at hrun; rw [hrun.1]
    | exited code => rw [hstate] at hrun; exact hrun.2
  have hlogged : Logged (log ++ new) := by
    refine ⟨hlog.numbered.append (h.sequence ▸ hnumbered), fun e he => ?_⟩
    rcases List.mem_append.mp he with he | he
    · exact hlog.built e he
    · exact built_polled hupdated (hinitial.subset (List.mem_map_of_mem he))
  refine ⟨hlogged, ?_⟩
  unfold tick
  cases hstate : run (Program.step (emit P)) (.running v.sender)
      (v.attempts durationMs sendTo) with
  | exited code =>
    rw [hstate] at hrun
    refine Or.inr ⟨hrun.1, ?_⟩
    rw [hmap, Nat.min_eq_left hrounds, due_succ, ← hmessages]
    exact (List.prefix_append_right_inj _).mpr (hrun.2.map contentOf)
  | running y =>
    rw [hstate] at hrun
    have hall : contents (log ++ new) = due (n + 1) := by
      rw [hmap, hrun.1, due_succ, ← hmessages]
      rfl
    dsimp only
    split_ifs with hzero hdue
    · have hend := h.rounds_eq (Or.inl hzero)
      exact Or.inl ⟨rfl, hend.le, by rw [hend]; exact hall⟩
    · have hend := h.rounds_eq (Or.inr hdue)
      exact Or.inl ⟨rfl, hend.le, by rw [hend]; exact hall⟩
    · have hearly : 100 * n < durationMs.toNat := by
        rw [ge_iff_le, UInt64.not_le, UInt64.lt_iff_toNat_lt, h.vehicle.now] at hdue
        exact hdue
      refine ⟨vehicleAt_next hduration h hearly y, fun _ => by simpa using hearly, ?_, hall⟩
      show y.sequence = _
      rw [hrun.2, h.sequence, List.length_append, UInt64.ofNat_add]

theorem ReturnedAt.mono {m n : ℕ} {log : List (PublishedMessage × Sent)} {code : ℕ}
    (h : ReturnedAt durationMs m log code) (hmn : m ≤ n) : ReturnedAt durationMs n log code := by
  rcases h with ⟨hcode, hrounds, hcontents⟩ | ⟨hcode, hinitial⟩
  · exact Or.inl ⟨hcode, hrounds.trans hmn, hcontents⟩
  · exact Or.inr ⟨hcode, hinitial.trans (due_initial (by omega))⟩

/-- **What holds after a round**, whether the vehicle ran or had returned. -/
theorem inv_vehicleStep {n : ℕ} {log : List (PublishedMessage × Sent)} {vehicle : Program Vehicle}
    (hduration : durationMs ≤ 18446744073709551600) (hlog : Logged log)
    (h : vehicle.Holds (RunningAt durationMs n log) (ReturnedAt durationMs n log))
    (sendTo : ℕ → Bool) :
    Logged (log ++ sealedIn P durationMs vehicle sendTo) ∧
    (vehicleStep P durationMs vehicle sendTo).Holds
      (RunningAt durationMs (n + 1) (log ++ sealedIn P durationMs vehicle sendTo))
      (ReturnedAt durationMs (n + 1) (log ++ sealedIn P durationMs vehicle sendTo)) := by
  cases vehicle with
  | running v => exact inv_tick hduration hlog h sendTo
  | exited code =>
    rw [sealedIn, output_exited, List.append_nil]
    exact ⟨hlog, ReturnedAt.mono h (Nat.le_succ n)⟩

theorem running_start {auth : Auth Block} {bound : Bool} {v₀ : Vehicle}
    (h : start auth bound = .running v₀) : RunningAt durationMs 0 [] v₀ := by
  unfold start at h
  split at h
  · cases h
  · cases bound with
    | false => cases h
    | true =>
      obtain rfl := Program.running.inj h
      exact ⟨⟨rfl, rfl, fun _ => rfl, fun hn => absurd rfl hn⟩, fun hn => absurd rfl hn, rfl, rfl⟩

/-- **What holds after every run.** -/
theorem inv_ticks {v₀ : Vehicle} (hduration : durationMs ≤ 18446744073709551600)
    (h : RunningAt durationMs 0 [] v₀) (ticks : List (ℕ → Bool)) :
    Logged (emissions P durationMs (.running v₀) ticks) ∧
    (run (vehicleStep P durationMs) (.running v₀) ticks).Holds
      (RunningAt durationMs ticks.length (emissions P durationMs (.running v₀) ticks))
      (ReturnedAt durationMs ticks.length (emissions P durationMs (.running v₀) ticks)) := by
  induction ticks using List.reverseRecOn with
  | nil => exact ⟨⟨by simp [emissions, Numbered], by simp [emissions]⟩, h⟩
  | append_singleton ticks sendTo ih =>
    unfold emissions at ih ⊢
    rw [outputs_concat, run_concat, List.length_append, List.length_singleton]
    exact inv_vehicleStep hduration ih.1 ih.2 sendTo

theorem contents_initial {n : ℕ} {log : List (PublishedMessage × Sent)} {vehicle : Program Vehicle}
    (h : vehicle.Holds (RunningAt durationMs n log) (ReturnedAt durationMs n log)) :
    contents log <+: due (min n (roundsOf durationMs)) ∧
      ((∀ code, vehicle = .exited code → code = 0) →
        contents log = due (min n (roundsOf durationMs))) := by
  cases vehicle with
  | running v =>
    have hle := le_roundsOf (RunningAt.early h)
    have hall := RunningAt.contents h
    rw [Nat.min_eq_left (by omega), hall]
    exact ⟨List.prefix_rfl, fun _ => rfl⟩
  | exited code =>
    rcases h with ⟨rfl, hrounds, hall⟩ | ⟨rfl, hinitial⟩
    · rw [Nat.min_eq_right hrounds, hall]
      exact ⟨List.prefix_rfl, fun _ => rfl⟩
    · exact ⟨hinitial, fun hcode => absurd (hcode 5 rfl) (by decide)⟩

end NewMavlink.Endpoints.VehicleLoop
