import NewMavlink.Lib.Buffer

/-! # The wire contract

The constants, enumerations and records of `wire.hpp`, and the byte-field helpers that the sources
`crypto.cpp`, `record.cpp` and `session.cpp` each define for themselves.

An enumeration of the source has a one-byte underlying type and may hold any of its 256 values (a
decoder casts the byte it read), so it is that byte, with the enumerators as named values;
`knownType` tells the enumerators from the rest. The keys of a session are generic in the type `κ`
of one key: the record layer uses the sixteen bytes of a `Block`. -/

namespace NewMavlink.Wire

open NewMavlink.Lib.Buffer

/-! ### Constants -/

/-- The version that a header carries. -/
abbrev kVersion : UInt8 := 1
/-- The size of a header. -/
abbrev kHeaderBytes : ℕ := 40
/-- The size of a tag, which follows the payload. -/
abbrev kTagBytes : ℕ := 16
/-- The size of the longest payload. -/
abbrev kMaxPayloadBytes : ℕ := 768
/-- The size of the longest record. -/
abbrev kMaxRecordBytes : ℕ := kHeaderBytes + kMaxPayloadBytes + kTagBytes

/-- The payload names the generation that it builds on. -/
abbrev kFlagDelta : UInt8 := 0x01
/-- An acknowledgement is asked for. -/
abbrev kFlagAck : UInt8 := 0x02
/-- The payload stands for itself. -/
abbrev kFlagSnapshot : UInt8 := 0x04
/-- The payload answers a resync request. -/
abbrev kFlagResync : UInt8 := 0x08
/-- The flags that a session lets through. -/
abbrev kKnownFlags : UInt8 := kFlagDelta ||| kFlagAck ||| kFlagSnapshot ||| kFlagResync

/-- A key, a nonce, a tag or a pre-shared key: `kKeyBytes = kNonceBytes = kTagBytes = 16`. -/
abbrev Block : Type := List.Vector UInt8 16

instance : Inhabited Block := ⟨List.Vector.replicate 16 0⟩

/-! ### Enumerations -/

/-- `MessageType`: a byte. -/
structure MessageType where
  code : UInt8
deriving DecidableEq, Repr, Inhabited

namespace MessageType

def hello : MessageType := ⟨1⟩
def accept : MessageType := ⟨2⟩
def finish : MessageType := ⟨3⟩
def subscribe : MessageType := ⟨4⟩
def resync : MessageType := ⟨5⟩
def unsubscribe : MessageType := ⟨6⟩
def heartbeat : MessageType := ⟨16⟩
def vehicleState : MessageType := ⟨17⟩
def position : MessageType := ⟨18⟩
def attitude : MessageType := ⟨19⟩
def battery : MessageType := ⟨20⟩
def linkStats : MessageType := ⟨21⟩
def safetyEvent : MessageType := ⟨22⟩
def failsafeEvent : MessageType := ⟨23⟩
def geofenceEvent : MessageType := ⟨24⟩
def commandRequest : MessageType := ⟨48⟩
def commandAck : MessageType := ⟨49⟩
def commandResult : MessageType := ⟨50⟩
def schemaManifest : MessageType := ⟨64⟩
def rateReport : MessageType := ⟨65⟩
def diagnosticEvent : MessageType := ⟨66⟩

end MessageType

/-- `known_type`: the byte is one of the enumerators. -/
def knownType (type : MessageType) : Bool :=
  [MessageType.hello, .accept, .finish, .subscribe, .resync, .unsubscribe, .heartbeat,
    .vehicleState, .position, .attitude, .battery, .linkStats, .safetyEvent, .failsafeEvent,
    .geofenceEvent, .commandRequest, .commandAck, .commandResult, .schemaManifest, .rateReport,
    .diagnosticEvent].contains type

/-- `state_type`. -/
def stateType (type : MessageType) : Bool :=
  [MessageType.vehicleState, .position, .attitude, .battery, .linkStats, .rateReport].contains type

/-- `command_type`. -/
def commandType (type : MessageType) : Bool :=
  [MessageType.commandRequest, .commandAck, .commandResult].contains type

/-- `control_type`. -/
def controlType (type : MessageType) : Bool :=
  [MessageType.hello, .accept, .finish, .subscribe, .unsubscribe, .resync].contains type

/-- `Qos`: a byte. -/
structure Qos where
  code : UInt8
deriving DecidableEq, Repr

namespace Qos

/-- `CriticalReliable`: the class of events. -/
def criticalReliable : Qos := ⟨0⟩
/-- `CommandReliable`: the class of commands. -/
def commandReliable : Qos := ⟨1⟩
/-- `StateLatest`: the class of states, of which a queue keeps the latest. -/
def stateLatest : Qos := ⟨2⟩
/-- `TelemetryBestEffort`: the class of a header that names no other. -/
def telemetryBestEffort : Qos := ⟨3⟩
/-- `Liveness`: the class of heartbeats. -/
def liveness : Qos := ⟨4⟩
/-- `Explicit`: the class of control messages, and the last of the enumerators. -/
def explicit : Qos := ⟨5⟩

end Qos

/-! ### Records -/

/-- A session and its epoch, which a rekey increases. -/
structure SessionId where
  value : UInt64 := 0
  epoch : UInt64 := 0
deriving DecidableEq, Repr, Inhabited

/-- The two keys of one side of a session, with its own id and the peer's. -/
structure DirectionalKeys (κ : Type) where
  session : SessionId
  localId : UInt16
  peerId : UInt16
  tx : κ
  rx : κ
deriving DecidableEq, Repr, Inhabited

/-- The keys of the other side: same session, ids swapped, keys swapped. -/
def DirectionalKeys.mirror {κ : Type} (k : DirectionalKeys κ) : DirectionalKeys κ :=
  ⟨k.session, k.peerId, k.localId, k.rx, k.tx⟩

@[simp] theorem DirectionalKeys.mirror_mirror {κ : Type} (k : DirectionalKeys κ) :
    k.mirror.mirror = k := rfl

/-- `RecordHeader`. -/
structure RecordHeader where
  version : UInt8 := kVersion
  flags : UInt8 := 0
  type : MessageType := .heartbeat
  qos : Qos := .telemetryBestEffort
  sourceId : UInt16 := 0
  destinationId : UInt16 := 0
  sessionId : UInt64 := 0
  epoch : UInt64 := 0
  sequence : UInt64 := 0
  payloadLen : UInt16 := 0
  deadlineMs : UInt16 := 0
  headerCrc16 : UInt16 := 0
deriving DecidableEq, Repr, Inhabited

/-! ### Byte fields -/

/-- A byte at `off`. -/
def put8 (p : List UInt8) (off : ℕ) (v : UInt8) : List UInt8 := putLE 1 p off v.toNat
/-- `put16`. -/
def put16 (p : List UInt8) (off : ℕ) (v : UInt16) : List UInt8 := putLE 2 p off v.toNat
/-- `put32`. -/
def put32 (p : List UInt8) (off : ℕ) (v : UInt32) : List UInt8 := putLE 4 p off v.toNat
/-- `put64`. -/
def put64 (p : List UInt8) (off : ℕ) (v : UInt64) : List UInt8 := putLE 8 p off v.toNat

/-- The byte at `off`. -/
def get8 (p : List UInt8) (off : ℕ) : UInt8 := UInt8.ofNat (getLE 1 p off)
/-- `get16`. -/
def get16 (p : List UInt8) (off : ℕ) : UInt16 := UInt16.ofNat (getLE 2 p off)
/-- `get32`. -/
def get32 (p : List UInt8) (off : ℕ) : UInt32 := UInt32.ofNat (getLE 4 p off)
/-- `get64`. -/
def get64 (p : List UInt8) (off : ℕ) : UInt64 := UInt64.ofNat (getLE 8 p off)

variable {p : List UInt8} {off : ℕ}

@[simp] theorem length_put8 (v : UInt8) : (put8 p off v).length = p.length := length_putLE ..
@[simp] theorem length_put16 (v : UInt16) : (put16 p off v).length = p.length := length_putLE ..
@[simp] theorem length_put32 (v : UInt32) : (put32 p off v).length = p.length := length_putLE ..
@[simp] theorem length_put64 (v : UInt64) : (put64 p off v).length = p.length := length_putLE ..

@[simp] theorem toNat_get8 : (get8 p off).toNat = getLE 1 p off :=
  UInt8.toNat_ofNat_of_lt (getLE_lt 1 p off)
@[simp] theorem toNat_get16 : (get16 p off).toNat = getLE 2 p off :=
  UInt16.toNat_ofNat_of_lt (getLE_lt 2 p off)
@[simp] theorem toNat_get32 : (get32 p off).toNat = getLE 4 p off :=
  UInt32.toNat_ofNat_of_lt (getLE_lt 4 p off)
@[simp] theorem toNat_get64 : (get64 p off).toNat = getLE 8 p off :=
  UInt64.toNat_ofNat_of_lt (getLE_lt 8 p off)

theorem get64_put64 {v : UInt64} (h : off + 8 ≤ p.length) : get64 (put64 p off v) off = v := by
  rw [get64, put64, getLE_putLE h]; simp

end NewMavlink.Wire
