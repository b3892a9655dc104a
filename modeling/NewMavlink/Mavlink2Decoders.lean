import NewMavlink.Lib.Runs
import NewMavlink.Mavlink2Adapter

/-! # Messages from the flight controller

`parse_message`, `decode_command_ack`, `decode_battery_status` and `decode_global_position` of
`mavlink2_adapter.cpp`, which look for a MAVLink message in a datagram. The functions of `mavlink.h`
are a parameter (`Reader`). The state of its channel outlives a call, so that a message may begin in
one datagram and end in a later one.

* `parseBytes_cases`, `parseBytes_append`: a search ends with the first message that it looks for
  and drops those before it; it makes no difference where one datagram ends and the next begins.
* `found_of_decode`, `battery_of_decode`, `position_of_decode`: what a decoder returns is read from
  the first message of its kind in the datagram; the charge of a battery can be published. -/

namespace NewMavlink.Mavlink2Decoders

open NewMavlink.Lib.Buffer NewMavlink.Lib.Runs NewMavlink.Wire NewMavlink.Codecs
open NewMavlink.Mavlink2Adapter

/-- The fields of a `mavlink_command_ack_t` that are read. -/
structure RawAck where
  command : UInt16
  result : UInt8
  progress : UInt8

/-- The fields of a `mavlink_battery_status_t` that are read: `voltages[0]` and
`battery_remaining`. -/
structure RawBattery where
  voltage : UInt16
  batteryRemaining : Int8

/-- The fields of a `mavlink_global_position_int_t` that are read. -/
structure RawPosition where
  lat : Int32
  lon : Int32
  alt : Int32

/-- What the decoders use of `mavlink.h`: `parseChar` is `mavlink_parse_char` on the channel
`MAVLINK_COMM_0`, with the message that the byte completes, if it does. -/
structure Reader (Channel Message : Type) where
  parseChar : Channel → UInt8 → Channel × Option Message
  msgid : Message → UInt32
  sysid : Message → UInt8
  msgIdCommandAck : UInt32
  msgIdBatteryStatus : UInt32
  msgIdGlobalPositionInt : UInt32
  commandAckDecode : Message → RawAck
  batteryStatusDecode : Message → RawBattery
  globalPositionIntDecode : Message → RawPosition

variable {Channel Message : Type}

/-- The loop of `parse_message` and of `decode_command_ack`. -/
def parseBytes (R : Reader Channel Message) (msgid : UInt32) :
    Channel → List UInt8 → Channel × Option Message
  | channel, [] => (channel, none)
  | channel, byte :: bytes =>
    match R.parseChar channel byte with
    | (channel, none) => parseBytes R msgid channel bytes
    | (channel, some message) =>
      if R.msgid message = msgid then (channel, some message) else parseBytes R msgid channel bytes

/-- `parse_message`, and the part of `decode_command_ack` that does the same. -/
def parseMessage (R : Reader Channel Message) (channel : Channel) (bytes : Span UInt8)
    (msgid : UInt32) : Channel × Option Message :=
  if bytes.isNull ∨ bytes.length = 0 ∨ bytes.length > kFrameBytes then (channel, none)
  else parseBytes R msgid channel bytes.elems

/-- `decode_command_ack`. -/
def decodeCommandAck (R : Reader Channel Message) (channel : Channel) (bytes : Span UInt8) :
    Channel × Option CommandAck :=
  match parseMessage R channel bytes R.msgIdCommandAck with
  | (channel, none) => (channel, none)
  | (channel, some message) =>
    let value := R.commandAckDecode message
    if !commandAllowed value.command then (channel, none)
    else (channel, some {
      requestId := 1
      status := value.result
      detail := value.progress
      resultCode := value.command.toUInt32 })

/-- `BatteryTelemetry`. -/
structure BatteryTelemetry where
  sourceSystem : UInt8 := 0
  voltageMv : UInt16 := 0
  remainingPermille : UInt16 := 0
deriving DecidableEq, Repr

/-- `battery_remaining` in permille. -/
def remainingPermille (batteryRemaining : Int8) : UInt16 :=
  if batteryRemaining < 0 then 0
  else if batteryRemaining ≥ 100 then 1000
  else UInt16.ofNat (batteryRemaining.toInt * 10).toNat

/-- `decode_battery_status`. -/
def decodeBatteryStatus (R : Reader Channel Message) (channel : Channel) (bytes : Span UInt8) :
    Channel × Option BatteryTelemetry :=
  match parseMessage R channel bytes R.msgIdBatteryStatus with
  | (channel, none) => (channel, none)
  | (channel, some message) =>
    let raw := R.batteryStatusDecode message
    if R.sysid message = 0 ∨ raw.voltage = 0xFFFF then (channel, none)
    else (channel, some {
      sourceSystem := R.sysid message
      voltageMv := raw.voltage
      remainingPermille := remainingPermille raw.batteryRemaining })

/-- `PositionTelemetry`. -/
structure PositionTelemetry where
  sourceSystem : UInt8 := 0
  latitudeE7 : Int32 := 0
  longitudeE7 : Int32 := 0
  altitudeMm : Int32 := 0
deriving DecidableEq, Repr

/-- `decode_global_position`. -/
def decodeGlobalPosition (R : Reader Channel Message) (channel : Channel) (bytes : Span UInt8) :
    Channel × Option PositionTelemetry :=
  match parseMessage R channel bytes R.msgIdGlobalPositionInt with
  | (channel, none) => (channel, none)
  | (channel, some message) =>
    let raw := R.globalPositionIntDecode message
    if R.sysid message = 0 then (channel, none)
    else (channel, some {
      sourceSystem := R.sysid message
      latitudeE7 := raw.lat
      longitudeE7 := raw.lon
      altitudeMm := raw.alt })

variable {R : Reader Channel Message} {channel channel' : Channel} {bytes : List UInt8}
  {message : Message} {msgid : UInt32}

/-! ### What a search finds -/

/-- The channel after it has parsed the bytes. -/
def parsed (R : Reader Channel Message) : Channel → List UInt8 → Channel :=
  run fun channel byte => (R.parseChar channel byte).1

/-- The messages that the bytes complete. -/
def completed (R : Reader Channel Message) : Channel → List UInt8 → List Message :=
  outputs (fun channel byte => (R.parseChar channel byte).1)
    fun channel byte => (R.parseChar channel byte).2.toList

theorem parsed_concat {byte : UInt8} : parsed R channel (bytes ++ [byte]) =
    (R.parseChar (parsed R channel bytes) byte).1 := run_concat ..

theorem completed_concat {byte : UInt8} : completed R channel (bytes ++ [byte]) =
    completed R channel bytes ++ (R.parseChar (parsed R channel bytes) byte).2.toList :=
  outputs_concat ..

theorem parseBytes_of_completes {byte : UInt8} (rest : List UInt8)
    (hparse : R.parseChar channel byte = (channel', some message))
    (hid : R.msgid message = msgid) :
    parseBytes R msgid channel (byte :: rest) = (channel', some message) := by
  rw [parseBytes, hparse]
  exact if_pos hid

/-- **A search goes on** behind bytes that complete no message that it looks for, whether they stand
in the same datagram or in an earlier one. -/
theorem parseBytes_append : ∀ {channel : Channel} {before : List UInt8},
    (∀ x ∈ completed R channel before, R.msgid x ≠ msgid) →
      parseBytes R msgid channel (before ++ bytes) =
        parseBytes R msgid (parsed R channel before) bytes
  | _, [], _ => rfl
  | channel, first :: before, h => by
    rw [List.cons_append, parseBytes]
    rcases hp : R.parseChar channel first with ⟨channel', _ | x⟩
    · have hrest : ∀ x ∈ completed R channel' before, R.msgid x ≠ msgid := by
        simpa [completed, outputs, hp] using h
      simpa [parsed, hp] using parseBytes_append hrest
    · have hall : R.msgid x ≠ msgid ∧ ∀ y ∈ completed R channel' before, R.msgid y ≠ msgid := by
        simpa [completed, outputs, hp] using h
      dsimp only
      rw [if_neg hall.1]
      simpa [parsed, hp] using parseBytes_append hall.2

/-- **What a search finds**: nothing, once it has parsed all bytes, or the first message that it
looks for, and the bytes behind it are never parsed. -/
theorem parseBytes_cases (R : Reader Channel Message) (msgid : UInt32) :
    ∀ (channel : Channel) (bytes : List UInt8),
      (∀ x ∈ completed R channel bytes, R.msgid x ≠ msgid) ∧
          parseBytes R msgid channel bytes = (parsed R channel bytes, none) ∨
        ∃ before byte after channel' message, bytes = before ++ byte :: after ∧
          (∀ x ∈ completed R channel before, R.msgid x ≠ msgid) ∧
          R.parseChar (parsed R channel before) byte = (channel', some message) ∧
          R.msgid message = msgid ∧
          parseBytes R msgid channel bytes = (channel', some message) := by
  intro channel bytes
  induction bytes using List.reverseRecOn with
  | nil => exact Or.inl ⟨by simp [completed], rfl⟩
  | append_singleton bytes byte ih =>
    rcases ih with
      ⟨hnone, -⟩ | ⟨before, first, after, channel', message, rfl, hnone, hparse, hid, -⟩
    · rw [parseBytes_append hnone, parsed_concat, completed_concat]
      rcases hp : R.parseChar (parsed R channel bytes) byte with ⟨channel', _ | message⟩
      · exact Or.inl ⟨by simpa using hnone, by simp [parseBytes, hp]⟩
      by_cases hid : R.msgid message = msgid
      · exact Or.inr ⟨bytes, byte, [], channel', message, rfl, hnone, hp, hid,
          parseBytes_of_completes [] hp hid⟩
      · refine Or.inl ⟨fun x hx => ?_, by simp [parseBytes, hp, hid]⟩
        rcases List.mem_append.mp hx with hx | hx
        · exact hnone x hx
        · rw [List.mem_singleton.mp hx]
          exact hid
    · refine Or.inr ⟨before, first, after ++ [byte], channel', message, by simp, hnone, hparse, hid,
        ?_⟩
      rw [List.append_assoc, List.cons_append, parseBytes_append hnone]
      exact parseBytes_of_completes _ hparse hid

/-- The message is the first one with this id that the bytes complete. -/
def First (R : Reader Channel Message) (channel : Channel) (bytes : List UInt8) (msgid : UInt32)
    (message : Message) : Prop :=
  ∃ before byte after channel', bytes = before ++ byte :: after ∧
    (∀ x ∈ completed R channel before, R.msgid x ≠ msgid) ∧
    R.parseChar (parsed R channel before) byte = (channel', some message) ∧
    R.msgid message = msgid

/-- **What `parse_message` finds.** -/
theorem first_of_parse
    (h : parseMessage R channel (.data bytes) msgid = (channel', some message)) :
    First R channel bytes msgid message := by
  have hsearch : parseBytes R msgid channel bytes = (channel', some message) := by
    unfold parseMessage at h
    split at h
    · cases h
    · exact h
  rcases parseBytes_cases R msgid channel bytes with
    ⟨-, hnone⟩ | ⟨before, byte, after, _, _, heq, hbefore, hparse, hid, hsome⟩
  · rw [hnone] at hsearch
    cases hsearch
  · rw [hsome] at hsearch
    cases hsearch
    exact ⟨before, byte, after, channel', heq, hbefore, hparse, hid⟩

/-! ### What the decoders give -/

/-- The acknowledgement is the first one that the bytes complete, and its command is allowed. -/
def Found (R : Reader Channel Message) (channel : Channel) (bytes : List UInt8)
    (ack : CommandAck) : Prop :=
  ∃ before byte after channel' message, bytes = before ++ byte :: after ∧
    (∀ x ∈ completed R channel before, R.msgid x ≠ R.msgIdCommandAck) ∧
    R.parseChar (parsed R channel before) byte = (channel', some message) ∧
    R.msgid message = R.msgIdCommandAck ∧
    commandAllowed (R.commandAckDecode message).command = true ∧
    ack.status = (R.commandAckDecode message).result ∧
    ack.resultCode = (R.commandAckDecode message).command.toUInt32

/-- **What `decode_command_ack` finds.** -/
theorem found_of_decode {ack : CommandAck}
    (h : decodeCommandAck R channel (.data bytes) = (channel', some ack)) :
    Found R channel bytes ack := by
  unfold decodeCommandAck at h
  rcases hp : parseMessage R channel (.data bytes) R.msgIdCommandAck with ⟨found, _ | message⟩
  · rw [hp] at h
    cases h
  rw [hp] at h
  dsimp only at h
  split at h
  · cases h
  rename_i hallowed
  obtain ⟨-, rfl⟩ : found = channel' ∧ _ = ack := by simpa using h
  obtain ⟨before, byte, after, channel₁, heq, hbefore, hparse, hid⟩ := first_of_parse hp
  exact ⟨before, byte, after, channel₁, message, heq, hbefore, hparse, hid,
    by simpa using hallowed, rfl, rfl⟩

theorem remainingPermille_le (batteryRemaining : Int8) :
    remainingPermille batteryRemaining ≤ 1000 := by
  unfold remainingPermille
  by_cases hneg : batteryRemaining < 0
  · rw [if_pos hneg]
    decide
  by_cases hfull : batteryRemaining ≥ 100
  · rw [if_neg hneg, if_pos hfull]
    exact UInt16.le_refl _
  · rw [if_neg hneg, if_neg hfull]
    rw [Int8.lt_iff_toInt_lt] at hneg
    rw [ge_iff_le, Int8.le_iff_toInt_le] at hfull
    have hzero : (0 : Int8).toInt = 0 := rfl
    have hhundred : (100 : Int8).toInt = 100 := rfl
    have hsmall : (batteryRemaining.toInt * 10).toNat ≤ 1000 := by omega
    rw [UInt16.le_iff_toNat_le, UInt16.toNat_ofNat', Nat.mod_eq_of_lt (by omega)]
    exact hsmall

/-- **What `decode_battery_status` finds**: the first message of the kind, with a known source and
voltage, and a charge that can be published. -/
theorem battery_of_decode {value : BatteryTelemetry}
    (h : decodeBatteryStatus R channel (.data bytes) = (channel', some value)) :
    ∃ message, First R channel bytes R.msgIdBatteryStatus message ∧
      value.sourceSystem = R.sysid message ∧ value.sourceSystem ≠ 0 ∧
      value.voltageMv = (R.batteryStatusDecode message).voltage ∧ value.voltageMv ≠ 0xFFFF ∧
      value.remainingPermille ≤ 1000 := by
  unfold decodeBatteryStatus at h
  rcases hp : parseMessage R channel (.data bytes) R.msgIdBatteryStatus with ⟨found, _ | message⟩
  · rw [hp] at h
    cases h
  rw [hp] at h
  dsimp only at h
  split at h
  · cases h
  rename_i hknown
  obtain ⟨hsource, hvoltage⟩ := not_or.mp hknown
  obtain ⟨-, rfl⟩ : found = channel' ∧ _ = value := by simpa using h
  exact ⟨message, first_of_parse hp, rfl, hsource, rfl, hvoltage, remainingPermille_le _⟩

/-- **What `decode_global_position` finds**: the first message of the kind, with a known source. -/
theorem position_of_decode {value : PositionTelemetry}
    (h : decodeGlobalPosition R channel (.data bytes) = (channel', some value)) :
    ∃ message, First R channel bytes R.msgIdGlobalPositionInt message ∧ R.sysid message ≠ 0 ∧
      value = ⟨R.sysid message, (R.globalPositionIntDecode message).lat,
        (R.globalPositionIntDecode message).lon, (R.globalPositionIntDecode message).alt⟩ := by
  unfold decodeGlobalPosition at h
  rcases hp : parseMessage R channel (.data bytes) R.msgIdGlobalPositionInt with
    ⟨found, _ | message⟩
  · rw [hp] at h
    cases h
  rw [hp] at h
  dsimp only at h
  split at h
  · cases h
  rename_i hsource
  obtain ⟨-, rfl⟩ : found = channel' ∧ _ = value := by simpa using h
  exact ⟨message, first_of_parse hp, hsource, rfl⟩

/-! ### A reader of MAVLink 2 -/

/-- A byte string with its checksum. -/
def withChecksum (extra : UInt8) (bytes : List UInt8) : List UInt8 :=
  bytes ++ leBytes 2 ((bytes.drop 1 ++ [extra]).foldl crcAccumulate 0xFFFF).toNat

end NewMavlink.Mavlink2Decoders
