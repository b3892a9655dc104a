import NewMavlink.Record.RoundTrip
import NewMavlink.State.Messages
import NewMavlink.Transport

/-! # The proxy service

`main` of `proxy_service.cpp`: a loop that opens what arrives at the ingress, seals it again with
the keys of the egress and sends it on, until it is due to stop. A round of the loop is given the
clock reading that it starts with, the datagram that arrives in time (if any) and whether the socket
takes what is sent.

* `forwards_eq_nil_iff`: when a service that runs forwards nothing more before it is due.
* `survives_iff`: a datagram that is refused makes no difference exactly if nothing is forwarded
  after it. The loop goes on after a timeout and after a record that fails the schema checks, but
  every other error ends the service (`stray_stops`). -/

namespace NewMavlink.ProxyService

open NewMavlink.Lib.Buffer NewMavlink.Lib.Runs NewMavlink.Wire NewMavlink.Crypto
open NewMavlink.State.Messages NewMavlink.Record.Header NewMavlink.Record.SealOpen
open NewMavlink.Record.RoundTrip NewMavlink.Transport

/-- What `main` keeps from round to round. -/
structure Service where
  ingress : NativeEndpoint
  egress : NativeEndpoint
  egressSequence : UInt64 := 0
  receivedAny : Bool := false

/-- The service runs, or `main` has returned. -/
inductive Status where
  | running (s : Service)
  | exited (code : ℕ)

/-- The inputs of one round. -/
structure Round where
  elapsed : UInt64
  datagram : Option (List UInt8)
  sendTo : Bool := true

/-- The checks of a record's type, length and schema. -/
def schemaRejects (opened : OpenRecord) : Bool :=
  !knownType opened.header.type || opened.length == 0 ||
    if opened.header.type = .position then (decodePosition (.data opened.bytes)).isNone
    else if opened.header.type = .attitude then (decodeAttitude (.data opened.bytes)).isNone
    else if opened.header.type = .battery then (decodeBattery (.data opened.bytes)).isNone
    else false

/-- `out_header`. -/
def outHeader (opened : OpenRecord) (sequence : UInt64) : RecordHeader :=
  { opened.header with
    sourceId := 3
    destinationId := 2
    sequence
    sessionId := 1
    epoch := 1 }

/-- After the loop. -/
def finish (s : Service) : Status := .exited (if s.receivedAny then 0 else 4)

/-- One round of the loop: the datagram that is sent, and the status afterwards. -/
def round (P : Aead) (durationMs : UInt64) (s : Service) (r : Round) :
    Option (List UInt8) × Status :=
  match s.ingress.receiveUncommitted P r.datagram r.elapsed.toUInt32 with
  | .error error =>
    if error = .timeout then
      if durationMs = 0 then (none, .exited 4)
      else if r.elapsed ≥ durationMs then (none, finish s)
      else (none, .running s)
    else (none, .exited 4)
  | .ok opened =>
    let s := { s with receivedAny := true }
    if schemaRejects opened then (none, .running s)
    else
      match s.ingress.commit opened with
      | (.error _, _) => (none, .exited 8)
      | (.ok _, ingress) =>
        let header := outHeader opened s.egressSequence
        let s := { s with ingress, egressSequence := s.egressSequence + 1 }
        match s.egress.send P header (.data opened.bytes) r.sendTo with
        | (none, _) => (none, .exited 5)
        | (some record, egress) =>
          let s := { s with egress }
          (some record,
            if durationMs = 0 then finish s
            else if r.elapsed ≥ durationMs then finish s
            else .running s)

/-- The status after a round. -/
def serviceStep (P : Aead) (durationMs : UInt64) : Status → Round → Status
  | .running s, r => (round P durationMs s r).2
  | .exited code, _ => .exited code

/-- What a round forwards before the service is due to stop. -/
def forwarded (P : Aead) (durationMs : UInt64) : Status → Round → List (List UInt8)
  | .running s, r => if r.elapsed < durationMs then (round P durationMs s r).1.toList else []
  | .exited _, _ => []

/-- What a run of the loop forwards before the service is due to stop. -/
def forwards (P : Aead) (durationMs : UInt64) (status : Status) (rounds : List Round) :
    List (List UInt8) :=
  outputs (serviceStep P durationMs) (forwarded P durationMs) status rounds

/-- The key of the demo, `1` to `16`. -/
def psk : Block := ⟨(List.range 16).map fun i => UInt8.ofNat (i + 1), by simp⟩

/-- `main` up to the loop; `bound` says whether the ingress port can be bound. -/
def start (auth : Auth Block) (bound : Bool) : Status :=
  match deriveDirectionalKeys auth psk ⟨1, 1⟩ 1 3, deriveDirectionalKeys auth psk ⟨1, 1⟩ 3 2 with
  | some (_, proxyIngress), some (proxyEgress, _) =>
    if !bound then .exited 3
    else .running
      { ingress := ⟨{ keys := proxyIngress }⟩
        egress := ⟨{ keys := proxyEgress }⟩ }
  | _, _ => .exited 2

/-! ### One round -/

/-- The round is passed over: nothing arrives and the service is not due, or a record opens but
fails the checks. -/
def idle (P : Aead) (durationMs : UInt64) (s : Service) (r : Round) : Bool :=
  match s.ingress.receiveUncommitted P r.datagram r.elapsed.toUInt32 with
  | .error error => error == .timeout && r.elapsed < durationMs
  | .ok opened => schemaRejects opened

/-- Before the service is due a record opens, passes the checks, and can be sealed and sent. -/
def relays (P : Aead) (durationMs : UInt64) (s : Service) (r : Round) : Bool :=
  match s.ingress.receiveUncommitted P r.datagram r.elapsed.toUInt32 with
  | .error _ => false
  | .ok opened => r.elapsed < durationMs && !schemaRejects opened &&
      (s.egress.send P (outHeader opened s.egressSequence) (.data opened.bytes) r.sendTo).1.isSome

/-- A datagram arrives that `open_uncommitted` refuses; a service that has stopped does not look. -/
def Refused (P : Aead) : Status → Round → Prop
  | .running s, r => ∃ bytes error, udpReceive r.datagram = some bytes ∧
      s.ingress.session.openUncommitted P (.data bytes) r.elapsed.toUInt32 = .error error
  | .exited _, _ => True

/-- The service has stopped, or the first round that it does not pass over relays nothing. -/
def Spared (P : Aead) (durationMs : UInt64) : Status → List Round → Prop
  | .running s, rounds => ∀ r ∈ rounds.find? fun r => !idle P durationMs s r,
      relays P durationMs s r = false
  | .exited _, _ => True

variable {P : Aead} {durationMs : UInt64} {s : Service} {r : Round} {rounds : List Round}

theorem round_of_refused (h : Refused P (.running s) r) :
    round P durationMs s r = (none, .exited 4) := by
  obtain ⟨bytes, error, hbytes, herror⟩ := h
  have hreceive : s.ingress.receiveUncommitted P r.datagram r.elapsed.toUInt32 = .error error := by
    unfold NativeEndpoint.receiveUncommitted
    rw [hbytes]
    exact herror
  have hne : error ≠ .timeout := by
    rintro rfl
    exact openUncommitted_ne_timeout P _ _ _ herror
  unfold round
  rw [hreceive]
  exact if_neg hne

theorem round_of_idle (h : idle P durationMs s r = true) : ∃ b,
    round P durationMs s r = (none, .running { s with receivedAny := b }) := by
  unfold idle at h
  unfold round
  cases hreceive : s.ingress.receiveUncommitted P r.datagram r.elapsed.toUInt32 with
  | error error =>
    simp only [hreceive, Bool.and_eq_true, beq_iff_eq, decide_eq_true_eq] at h
    obtain ⟨rfl, hearly⟩ := h
    have hpos : durationMs ≠ 0 := by
      rintro rfl
      simp at hearly
    refine ⟨s.receivedAny, ?_⟩
    dsimp only
    rw [if_pos rfl, if_neg hpos, if_neg (UInt64.not_le.mpr hearly)]
  | ok opened =>
    simp only [hreceive] at h
    refine ⟨true, ?_⟩
    dsimp only
    rw [if_pos h]

/-- The service when it has sent a record on. -/
def relayed (P : Aead) (s : Service) (r : Round) (opened : OpenRecord) : Service where
  ingress := (s.ingress.commit opened).2
  egress := (s.egress.send P (outHeader opened s.egressSequence) (.data opened.bytes) r.sendTo).2
  egressSequence := s.egressSequence + 1
  receivedAny := true

theorem round_of_ok (durationMs : UInt64) {opened : OpenRecord}
    (hreceive : s.ingress.receiveUncommitted P r.datagram r.elapsed.toUInt32 = .ok opened)
    (hpasses : schemaRejects opened = false) :
    ((s.egress.send P (outHeader opened s.egressSequence) (.data opened.bytes) r.sendTo).1 = none ∧
      round P durationMs s r = (none, .exited 5)) ∨
    ∃ record, (s.egress.send P (outHeader opened s.egressSequence) (.data opened.bytes)
        r.sendTo).1 = some record ∧
      round P durationMs s r = (some record, if durationMs = 0 then finish (relayed P s r opened)
        else if r.elapsed ≥ durationMs then finish (relayed P s r opened)
        else .running (relayed P s r opened)) := by
  have hcommit := commit_of_receiveUncommitted hreceive
  unfold round relayed
  rw [hreceive]
  dsimp only
  rw [hpasses]
  rcases hpair : s.ingress.commit opened with ⟨committed, ingress⟩
  rw [hpair] at hcommit
  obtain rfl : committed = .ok () := hcommit
  obtain ⟨sent, egress⟩ :=
    s.egress.send P (outHeader opened s.egressSequence) (.data opened.bytes) r.sendTo
  cases sent with
  | none => exact Or.inl ⟨rfl, rfl⟩
  | some record => exact Or.inr ⟨record, rfl, rfl⟩

theorem not_idle_of_relays (h : relays P durationMs s r = true) :
    idle P durationMs s r = false := by
  unfold relays at h
  unfold idle
  cases hreceive : s.ingress.receiveUncommitted P r.datagram r.elapsed.toUInt32 with
  | error error => simp [hreceive] at h
  | ok opened =>
    simp only [hreceive, Bool.and_eq_true, Bool.not_eq_true'] at h
    exact h.1.2

/-- Every other round forwards a record in time, or it is the last. -/
theorem round_of_not_idle (h : ¬ idle P durationMs s r = true) :
    (relays P durationMs s r = true ∧ forwarded P durationMs (.running s) r ≠ []) ∨
      (relays P durationMs s r = false ∧ forwarded P durationMs (.running s) r = [] ∧
        ∃ code, serviceStep P durationMs (.running s) r = .exited code) := by
  unfold idle at h
  unfold relays forwarded serviceStep
  dsimp only
  cases hreceive : s.ingress.receiveUncommitted P r.datagram r.elapsed.toUInt32 with
  | error error =>
    simp only [hreceive, Bool.and_eq_true, beq_iff_eq, decide_eq_true_eq, not_and] at h
    have hround : ∃ code, round P durationMs s r = (none, .exited code) := by
      unfold round
      rw [hreceive]
      dsimp only
      split_ifs with htimeout hzero hdue
      · exact ⟨4, rfl⟩
      · exact ⟨_, rfl⟩
      · exact absurd (UInt64.not_le.mp hdue) (h htimeout)
      · exact ⟨4, rfl⟩
    obtain ⟨code, hround⟩ := hround
    rw [hround]
    exact Or.inr ⟨rfl, ite_self _, code, rfl⟩
  | ok opened =>
    simp only [hreceive, Bool.not_eq_true] at h
    dsimp only
    rw [h]
    rcases round_of_ok durationMs hreceive h with ⟨hnone, hround⟩ | ⟨record, hsome, hround⟩
    · rw [hround, hnone]
      exact Or.inr ⟨by simp, ite_self _, 5, rfl⟩
    · rw [hround, hsome]
      by_cases hearly : r.elapsed < durationMs
      · rw [if_pos hearly]
        exact Or.inl ⟨by simp [hearly], by simp⟩
      · rw [if_neg hearly]
        refine Or.inr ⟨by simp [hearly], rfl, ?_⟩
        dsimp only
        rw [if_pos (UInt64.not_lt.mp hearly)]
        split_ifs
        · exact ⟨_, rfl⟩
        · exact ⟨_, rfl⟩

/-! ### Runs -/

theorem forwards_exited (code : ℕ) (rounds : List Round) :
    forwards P durationMs (.exited code) rounds = [] := by
  induction rounds with
  | nil => rfl
  | cons r rounds ih => exact ih

theorem forwards_cons (status : Status) (r : Round) (rounds : List Round) :
    forwards P durationMs status (r :: rounds) = forwarded P durationMs status r ++
      forwards P durationMs (serviceStep P durationMs status r) rounds := rfl

/-- **When a service forwards nothing more in time**: the first of the rounds that it does not pass
over relays nothing. -/
theorem forwards_eq_nil_iff : ∀ {s : Service} {rounds : List Round},
    forwards P durationMs (.running s) rounds = [] ↔ Spared P durationMs (.running s) rounds
  | s, [] => by simp [forwards, Spared]
  | s, r :: rounds => by
    rw [forwards_cons, List.append_eq_nil_iff]
    by_cases hidle : idle P durationMs s r = true
    · obtain ⟨b, hround⟩ := round_of_idle hidle
      have hnone : forwarded P durationMs (.running s) r = [] := by
        unfold forwarded
        dsimp only
        rw [hround]
        exact ite_self _
      have hstep : serviceStep P durationMs (.running s) r =
          .running { s with receivedAny := b } := congrArg Prod.snd hround
      rw [hstep, and_iff_right hnone, forwards_eq_nil_iff]
      dsimp only [Spared]
      rw [List.find?_cons_of_neg (by simp [hidle])]
      rfl
    · dsimp only [Spared]
      rw [List.find?_cons_of_pos (by simpa using hidle)]
      rcases round_of_not_idle hidle with ⟨hrelays, hsome⟩ | ⟨hrelays, hnone, code, hstep⟩
      · simp [hrelays, hsome]
      · rw [hstep, forwards_exited]
        simp [hrelays, hnone]

theorem forwards_refused {status : Status} {pre : List Round} {x : Round}
    (h : Refused P (run (serviceStep P durationMs) status pre) x) :
    forwards P durationMs status (pre ++ x :: rounds) = forwards P durationMs status pre := by
  unfold forwards
  rw [outputs_append, ← forwards, ← forwards]
  refine (congrArg _ ?_).trans (List.append_nil _)
  generalize run (serviceStep P durationMs) status pre = status at h
  cases status with
  | exited code => exact forwards_exited code _
  | running s =>
    have hround : round P durationMs s x = (none, .exited 4) := round_of_refused h
    have hstep : serviceStep P durationMs (.running s) x = .exited 4 := congrArg Prod.snd hround
    rw [forwards_cons, hstep, forwards_exited]
    unfold forwarded
    dsimp only
    rw [hround]
    exact congrArg (· ++ []) (ite_self _)

theorem forwards_insert {status : Status} {pre rest : List Round} {x : Round}
    (h : Refused P (run (serviceStep P durationMs) status pre) x) :
    forwards P durationMs status (pre ++ x :: rest) = forwards P durationMs status (pre ++ rest) ↔
      Spared P durationMs (run (serviceStep P durationMs) status pre) rest := by
  have happend : forwards P durationMs status (pre ++ rest) = forwards P durationMs status pre ++
      forwards P durationMs (run (serviceStep P durationMs) status pre) rest := outputs_append ..
  rw [forwards_refused h, happend, List.self_eq_append_right]
  cases run (serviceStep P durationMs) status pre with
  | exited code => simp [forwards_exited, Spared]
  | running s => exact forwards_eq_nil_iff

/-- **When the service survives a datagram that it refuses**, at any position in any run: if it has
stopped before, or nothing would be relayed after it. -/
theorem survives_iff (auth : Auth Block) (P : Aead) (bound : Bool) (durationMs : UInt64)
    (pre rest : List Round) (x : Round)
    (h : Refused P (run (serviceStep P durationMs) (start auth bound) pre) x) :
    forwards P durationMs (start auth bound) (pre ++ x :: rest) =
        forwards P durationMs (start auth bound) (pre ++ rest) ↔
      Spared P durationMs (run (serviceStep P durationMs) (start auth bound) pre) rest :=
  forwards_insert h

/-- Keys that repeat the fourth letter of their label. -/
def labelAuth : Auth Block := fun input _ => some (List.Vector.replicate 16 (input.getD 3 0))

/-- The keys that `main` derives of it for the ingress. -/
def testIngressKeys : DirectionalKeys Block :=
  ⟨⟨1, 1⟩, 3, 1, List.Vector.replicate 16 0x52, List.Vector.replicate 16 0x54⟩

/-- And for the egress. -/
def testEgressKeys : DirectionalKeys Block :=
  ⟨⟨1, 1⟩, 3, 2, List.Vector.replicate 16 0x54, List.Vector.replicate 16 0x52⟩

/-- The service as it starts with these keys. -/
def testService : Service where
  ingress := ⟨{ keys := testIngressKeys }⟩
  egress := ⟨{ keys := testEgressKeys }⟩

theorem start_labelAuth : start labelAuth true = .running testService := by
  have hvehicle : deriveDirectionalKeys labelAuth psk ⟨1, 1⟩ 1 3 =
      some (testIngressKeys.mirror, testIngressKeys) := by decide +kernel
  have hgcs : deriveDirectionalKeys labelAuth psk ⟨1, 1⟩ 3 2 =
      some (testEgressKeys, testEgressKeys.mirror) := by decide +kernel
  unfold start
  rw [hvehicle, hgcs]
  rfl

/-- The header of a record from the vehicle. -/
def vehicleHeader : RecordHeader where
  type := .commandRequest
  sourceId := 1
  destinationId := 3
  sessionId := 1
  epoch := 1

/-- The record that `paddingAead` makes of it. -/
def vehicleRecord : List UInt8 :=
  headerBytes (sealedHeader vehicleHeader 6) ++ (testPlain ++ List.replicate kTagBytes 0)

/-- A round in which it arrives. -/
def vehicleRound : Round := { elapsed := 5, datagram := some vehicleRecord }

theorem receive_vehicleRecord : testService.ingress.receiveUncommitted paddingAead
    (some vehicleRecord) (5 : UInt64).toUInt32 =
      .ok (openRecord (sealedHeader vehicleHeader 6) testPlain) := by
  have hsealable : Sealable { keys := testIngressKeys.mirror } vehicleHeader (.data testPlain) := by
    constructor <;> decide
  have hcipher : sealCipher paddingAead { keys := testIngressKeys.mirror } vehicleHeader
      (.data testPlain) = some (testPlain ++ List.replicate kTagBytes 0) :=
    aeadSeal_paddingAead rfl rfl (by decide) (by decide)
  have hmirrors : Mirrors { keys := testIngressKeys.mirror } testService.ingress.session := by
    constructor <;> decide
  have hdeadline : vehicleHeader.deadlineMs = 0 ∨
      (5 : UInt64).toUInt32.toNat ≤ vehicleHeader.deadlineMs.toNat := Or.inl rfl
  have hrecord : vehicleRecord =
      headerBytes (sealedHeader vehicleHeader (Span.data testPlain).length) ++
        (testPlain ++ List.replicate kTagBytes 0) := rfl
  rw [hrecord]
  exact receiveUncommitted_sealed correct_paddingAead hsealable hcipher hmirrors (by decide)
    hdeadline

theorem relays_vehicleRound : relays paddingAead 1000 testService vehicleRound = true := by
  have hbytes : (openRecord (sealedHeader vehicleHeader 6) testPlain).bytes = testPlain :=
    bytes_openRecord _ (by decide)
  have hseal : Sealable testService.egress.session
      (outHeader (openRecord (sealedHeader vehicleHeader 6) testPlain) 0) (.data testPlain) := by
    constructor <;> decide
  have hsend : (testService.egress.send paddingAead
      (outHeader (openRecord (sealedHeader vehicleHeader 6) testPlain) 0) (.data testPlain)
        true).1.isSome = true := by
    unfold NativeEndpoint.send
    rw [seal_of_sealable hseal, sealCipher, aeadSeal_paddingAead rfl rfl (by decide) (by decide)]
    rfl
  unfold relays vehicleRound
  dsimp only
  rw [receive_vehicleRecord]
  dsimp only
  rw [hbytes, show testService.egressSequence = 0 from rfl, hsend]
  rfl

theorem round_vehicleRound : ∃ record, round paddingAead 1000 testService vehicleRound =
    (some record, .running (relayed paddingAead testService vehicleRound
      (openRecord (sealedHeader vehicleHeader 6) testPlain))) := by
  have hpasses : schemaRejects (openRecord (sealedHeader vehicleHeader 6) testPlain) = false := rfl
  have hrelays := relays_vehicleRound
  unfold relays at hrelays
  dsimp only [vehicleRound] at hrelays
  rw [receive_vehicleRecord] at hrelays
  rcases round_of_ok (P := paddingAead) (s := testService) (r := vehicleRound) 1000
    receive_vehicleRecord hpasses with ⟨hnone, -⟩ | ⟨record, -, hround⟩
  · dsimp only [vehicleRound] at hnone hrelays
    rw [hnone] at hrelays
    simp at hrelays
  · exact ⟨record, hround⟩

/-- A datagram of one byte. -/
def stray : Round := { elapsed := 0, datagram := some [0] }

theorem refused_stray {s : Service} {elapsed : UInt64}
    (hkeys : validKeys s.ingress.session.keys = true) :
    Refused paddingAead (.running s) { stray with elapsed } := by
  refine ⟨[0], .invalidLength, rfl, ?_⟩
  unfold Session.openUncommitted
  rw [if_neg (by rw [hkeys]; decide), if_pos (by decide)]

/-- A round in which nothing comes in. -/
def silence : Round := { elapsed := 7, datagram := none }

/-- A datagram that is refused after a record was relayed, and nothing comes in after it. -/
theorem survives_silence :
    (forwards paddingAead 1000 (start labelAuth true) ([vehicleRound] ++ [silence])).length = 1 ∧
      forwards paddingAead 1000 (start labelAuth true)
          ([vehicleRound] ++ { stray with elapsed := 6 } :: [silence]) =
        forwards paddingAead 1000 (start labelAuth true) ([vehicleRound] ++ [silence]) := by
  obtain ⟨record, hround⟩ := round_vehicleRound
  have hrun : run (serviceStep paddingAead 1000) (start labelAuth true) [vehicleRound] =
      .running (relayed paddingAead testService vehicleRound
        (openRecord (sealedHeader vehicleHeader 6) testPlain)) := by
    rw [run_cons, run_nil, start_labelAuth]
    exact congrArg Prod.snd hround
  have hspared : Spared paddingAead 1000 (.running (relayed paddingAead testService vehicleRound
      (openRecord (sealedHeader vehicleHeader 6) testPlain))) [silence] := by
    have hidle : idle paddingAead 1000 (relayed paddingAead testService vehicleRound
        (openRecord (sealedHeader vehicleHeader 6) testPlain)) silence = true := rfl
    simp [Spared, hidle]
  constructor
  · have hquiet := forwards_eq_nil_iff.mpr hspared
    rw [start_labelAuth, List.singleton_append, forwards_cons, forwarded, serviceStep, hround,
      hquiet]
    rfl
  · refine (survives_iff labelAuth paddingAead true 1000 [vehicleRound] [silence] _ ?_).mpr ?_
    · rw [hrun]
      exact refused_stray (by decide)
    · rwa [hrun]

/-- One byte on the ingress port, and the record that comes after it is not relayed any more. -/
theorem stray_stops : ¬ ∀ (auth : Auth Block) (P : Aead) (bound : Bool) (durationMs : UInt64)
    (pre rest : List Round) (x : Round), durationMs ≠ 0 →
    Refused P (run (serviceStep P durationMs) (start auth bound) pre) x →
    forwards P durationMs (start auth bound) (pre ++ x :: rest) =
      forwards P durationMs (start auth bound) (pre ++ rest) := by
  intro h
  have hrefused : Refused paddingAead
      (run (serviceStep paddingAead 1000) (start labelAuth true) []) stray := by
    rw [run_nil, start_labelAuth]
    exact refused_stray (by decide)
  have hsame := h labelAuth paddingAead true 1000 [] [vehicleRound] stray (by decide) hrefused
  have hspared := (forwards_insert hrefused).mp hsame
  rw [run_nil, start_labelAuth] at hspared
  have hfalse := hspared vehicleRound (by simp [not_idle_of_relays relays_vehicleRound])
  rw [relays_vehicleRound] at hfalse
  cases hfalse

end NewMavlink.ProxyService
