import NewMavlink.Lib.Codec
import NewMavlink.State.Messages

/-! # The typed codecs

The codecs of `messages.cpp` for commands, acknowledgements, subscriptions and heartbeats, beside
those of the state messages and the resync requests. An argument of a command is a `float` that is
copied byte by byte, so it is the 32 bits of its pattern.

* `typed_codecs_exact`: an encoder and its decoder are inverse to each other, for each of the seven
  messages whose two sides make the same checks.
* `round_trips_iff`: a subscription is read back exactly if its qos is known, and a meta exactly if
  its last two bytes are in range. The encoders do not look at these fields, their decoders do
  (`unknown_qos_not_read_back`). -/

namespace NewMavlink.Codecs

open NewMavlink.Lib.Buffer NewMavlink.Lib.Codec NewMavlink.Wire NewMavlink.State.Messages

/-- `kMaxArgs`: a `COMMAND_LONG` has seven parameters. -/
abbrev kMaxArgs : ℕ := 7
/-- The size of an encoded `CommandRequest`. -/
abbrev kCommandBytes : ℕ := 16 + 4 * kMaxArgs
/-- The size of an encoded `CommandAck`. -/
abbrev kAckBytes : ℕ := 16
/-- The size of an encoded `Subscription`. -/
abbrev kSubscribeBytes : ℕ := 10
/-- The size of an encoded `Heartbeat`. -/
abbrev kHeartbeatBytes : ℕ := 16

/-- `CommandRequest`, with its `float` arguments as their bit patterns. -/
structure CommandRequest where
  requestId : UInt64 := 0
  commandId : UInt16 := 0
  deadlineMs : UInt16 := 0
  argCount : UInt8 := 0
  args : List.Vector UInt32 kMaxArgs := List.Vector.replicate _ 0
deriving DecidableEq

/-- `CommandAck`. -/
structure CommandAck where
  requestId : UInt64 := 0
  status : UInt8 := 0
  detail : UInt8 := 0
  reserved : UInt16 := 0
  resultCode : UInt32 := 0
deriving DecidableEq

/-- `Heartbeat`. -/
structure Heartbeat where
  uptimeMs : UInt64 := 0
  capabilities : UInt32 := 0
  state : UInt32 := 0
deriving DecidableEq

/-! ### The functions -/

/-- `std::isfinite` of a pattern: the exponent is not all ones. -/
def isFinite (bits : UInt32) : Bool := bits &&& 0x7F800000 != 0x7F800000

/-- `valid_command`. -/
def validCommand (value : CommandRequest) : Bool :=
  !(value.requestId == 0 || value.commandId == 0 || value.deadlineMs == 0 ||
    decide (value.argCount.toNat > kMaxArgs)) &&
    (value.args.toList.take value.argCount.toNat).all isFinite

/-- The loop of `encode_command` over the arguments. -/
def putFloats : ℕ → List UInt32 → List UInt8 → List UInt8
  | _, [], p => p
  | off, x :: xs, p => putFloats (off + 4) xs (put32 p off x)

/-- The loop of `decode_command` over the arguments. -/
def getFloats (p : List UInt8) (off : ℕ) : List.Vector UInt32 kMaxArgs :=
  ⟨(List.range kMaxArgs).map fun i => get32 p (off + 4 * i), by simp⟩

/-- The stores of `encode_command`. -/
def putCommand (value : CommandRequest) (p : List UInt8) : List UInt8 :=
  let p := put64 p 0 value.requestId
  let p := put16 p 8 value.commandId
  let p := put16 p 10 value.deadlineMs
  let p := put8 p 12 value.argCount
  let p := put8 p 13 0
  let p := put8 p 14 0
  let p := put8 p 15 0
  putFloats 16 value.args.toList p

/-- `encode_command`. -/
def encodeCommand : Encoder CommandRequest := fun value out =>
  if out.isNull ∨ out.length < kCommandBytes ∨ !validCommand value then none
  else some (putCommand value out.elems, kCommandBytes)

/-- The loads of `decode_command`. -/
def readCommand (p : List UInt8) : CommandRequest :=
  ⟨get64 p 0, get16 p 8, get16 p 10, get8 p 12, getFloats p 16⟩

/-- `decode_command`. -/
def decodeCommand : Decoder CommandRequest := fun bytes =>
  let p := bytes.elems
  if bytes.isNull ∨ bytes.length ≠ kCommandBytes ∨ get8 p 13 ≠ 0 ∨ get8 p 14 ≠ 0 ∨
      get8 p 15 ≠ 0 then none
  else if validCommand (readCommand p) then some (readCommand p) else none

/-- The stores of `encode_ack`. -/
def putAck (value : CommandAck) (p : List UInt8) : List UInt8 :=
  let p := put64 p 0 value.requestId
  let p := put8 p 8 value.status
  let p := put8 p 9 value.detail
  let p := put16 p 10 value.reserved
  put32 p 12 value.resultCode

/-- `encode_ack`. -/
def encodeAck : Encoder CommandAck := fun value out =>
  if out.isNull ∨ out.length < kAckBytes ∨ value.requestId = 0 then none
  else some (putAck value out.elems, kAckBytes)

/-- The loads of `decode_ack`. -/
def readAck (p : List UInt8) : CommandAck :=
  ⟨get64 p 0, get8 p 8, get8 p 9, get16 p 10, get32 p 12⟩

/-- `decode_ack`. -/
def decodeAck : Decoder CommandAck := fun bytes =>
  if bytes.isNull ∨ bytes.length ≠ kAckBytes then none
  else if (readAck bytes.elems).requestId ≠ 0 then some (readAck bytes.elems) else none

/-- The stores of `encode_subscription`. -/
def putSubscription (value : Subscription) (p : List UInt8) : List UInt8 :=
  let p := put8 p 0 value.type.code
  let p := put8 p 1 value.qos.code
  let p := put16 p 2 value.sourceId
  let p := put16 p 4 value.intervalMs
  put32 p 6 value.flags

/-- `encode_subscription`. -/
def encodeSubscription : Encoder Subscription := fun value out =>
  if out.isNull ∨ out.length < kSubscribeBytes ∨ !knownType value.type ∨
      value.sourceId = 0 then none
  else some (putSubscription value out.elems, kSubscribeBytes)

/-- The loads of `decode_subscription`. -/
def readSubscription (p : List UInt8) : Subscription :=
  ⟨⟨get8 p 0⟩, ⟨get8 p 1⟩, get16 p 2, get16 p 4, get32 p 6⟩

/-- `decode_subscription`. -/
def decodeSubscription : Decoder Subscription := fun bytes =>
  let p := bytes.elems
  if bytes.isNull ∨ bytes.length ≠ kSubscribeBytes ∨ !knownType ⟨get8 p 0⟩ ∨
      get8 p 1 > Qos.explicit.code then none
  else if (readSubscription p).sourceId ≠ 0 then some (readSubscription p) else none

/-- `encode_unsubscribe`, which is `encode_subscription`. -/
def encodeUnsubscribe : Encoder Subscription := encodeSubscription

/-- `decode_unsubscribe`, which is `decode_subscription`. -/
def decodeUnsubscribe : Decoder Subscription := decodeSubscription

/-- The stores of `encode_heartbeat`. -/
def putHeartbeat (value : Heartbeat) (p : List UInt8) : List UInt8 :=
  let p := put64 p 0 value.uptimeMs
  let p := put32 p 8 value.capabilities
  put32 p 12 value.state

/-- `encode_heartbeat`. -/
def encodeHeartbeat (value : Heartbeat) (out : Span UInt8) : Option (List UInt8) :=
  if out.isNull ∨ out.length < kHeartbeatBytes then none else some (putHeartbeat value out.elems)

/-- The loads of `decode_heartbeat`. -/
def readHeartbeat (p : List UInt8) : Heartbeat := ⟨get64 p 0, get32 p 8, get32 p 12⟩

/-- `decode_heartbeat`. -/
def decodeHeartbeat : Decoder Heartbeat := fun bytes =>
  if bytes.isNull ∨ bytes.length ≠ kHeartbeatBytes then none else some (readHeartbeat bytes.elems)

/-! ### Commands -/

theorem take_putFloats : ∀ {off : ℕ} {xs : List UInt32} {p pre : List UInt8},
    off + 4 * xs.length ≤ p.length → p.take off = pre →
      (putFloats off xs p).take (off + 4 * xs.length) = pre ++ xs.flatMap (leBytes 4 ·.toNat)
  | off, [], p, pre, _, hp => by simpa [putFloats] using hp
  | off, x :: xs, p, pre, hl, hp => by
    rw [List.length_cons] at hl ⊢
    have hput : (put32 p off x).take (off + 4) = pre ++ leBytes 4 x.toNat :=
      take_putLE_eq rfl (by omega) hp
    have hroom : off + 4 + 4 * xs.length ≤ (put32 p off x).length := by rw [length_put32]; omega
    have hrest := take_putFloats hroom hput
    rw [putFloats, List.flatMap_cons, ← List.append_assoc, ← hrest]
    congr 1
    omega

theorem drop_putFloats : ∀ {off k : ℕ} {xs : List UInt32} {p : List UInt8},
    off + 4 * xs.length ≤ k → (putFloats off xs p).drop k = p.drop k
  | _, _, [], _, _ => rfl
  | off, k, x :: xs, p, h => by
    rw [List.length_cons] at h
    rw [putFloats, drop_putFloats (by omega), put32, drop_putLE (by omega)]

theorem take_getFloats {off : ℕ} {p pre : List UInt8} (hp : p.take off = pre) (n : ℕ)
    (hl : off + 4 * n ≤ p.length) : p.take (off + 4 * n) =
      pre ++ ((List.range n).map fun i => get32 p (off + 4 * i)).flatMap (leBytes 4 ·.toNat) := by
  induction n with
  | zero => simpa using hp
  | succ n ih =>
    have hlast : off + 4 * (n + 1) = off + 4 * n + 4 := by ring
    rw [take_getLE_eq _ hlast hl toNat_get32.symm (ih (by omega)), List.range_succ, List.map_append,
      List.flatMap_append, ← List.append_assoc]
    simp

theorem get32_flatMap : ∀ {xs : List UInt32} {i : ℕ} (hi : i < xs.length),
    get32 (xs.flatMap (leBytes 4 ·.toNat)) (4 * i) = xs[i]
  | x :: xs, 0, _ => by simp [get32, getLE_leBytes_append]
  | x :: xs, i + 1, hi => by
    have hi' : i < xs.length := by simpa using hi
    have hrest : get32 (xs.flatMap (leBytes 4 ·.toNat)) (4 * i) = xs[i] := get32_flatMap hi'
    rw [List.flatMap_cons, List.getElem_cons_succ, ← hrest, get32, get32,
      getLE_append_of_le (by simp), length_leBytes]
    congr 2

theorem getFloats_append {pre : List UInt8} {off : ℕ} (hpre : pre.length = off)
    (args : List.Vector UInt32 kMaxArgs) :
    getFloats (pre ++ args.toList.flatMap (leBytes 4 ·.toNat)) off = args := by
  refine Subtype.ext (List.ext_getElem (by simp [getFloats]) fun i hi hi' => ?_)
  simp only [getFloats, List.getElem_map, List.getElem_range]
  rw [get32, getLE_append_of_le (by omega), hpre, Nat.add_sub_cancel_left, ← get32]
  exact get32_flatMap hi'

/-- The sixteen bytes before the arguments. -/
def commandHead (v : CommandRequest) : List UInt8 :=
  leBytes 8 v.requestId.toNat ++ leBytes 2 v.commandId.toNat ++ leBytes 2 v.deadlineMs.toNat ++
    leBytes 1 v.argCount.toNat ++ leBytes 1 (0 : UInt8).toNat ++ leBytes 1 (0 : UInt8).toNat ++
    leBytes 1 (0 : UInt8).toNat

/-- The wire form of a `CommandRequest`. -/
def commandFormat : Format CommandRequest where
  size := kCommandBytes
  bytes v := commandHead v ++ v.args.toList.flatMap (leBytes 4 ·.toNat)
  length_bytes v := by
    have hargs : v.args.toList.length = kMaxArgs := v.args.toList_length
    simp [commandHead, List.length_flatMap, hargs, kCommandBytes, kMaxArgs]

theorem writes_command : Writes commandFormat (validCommand · = true) encodeCommand := by
  refine writes_of_put putCommand (fun v out => rfl) (fun v out => by simp [commandFormat])
    (fun v p hl => ?_) (fun v p => ?_)
  · have hl : 44 ≤ p.length := hl
    have hargs : v.args.toList.length = 7 := v.args.toList_length
    have hsize : commandFormat.size = 16 + 4 * v.args.toList.length := by rw [hargs]; rfl
    rw [hsize]
    refine take_putFloats (by simp; omega) ?_
    simp only [commandHead, put8, put16, put64]
    iterate 6
      refine take_putLE_eq (by norm_num) (by simp only [length_putLE]; omega) ?_
    rw [take_putLE_eq (by norm_num) (by omega) List.take_zero, List.nil_append]
  · unfold putCommand
    dsimp only
    rw [drop_putFloats (by simp [commandFormat, kCommandBytes])]
    simp only [put8, put16, put64]
    iterate 7
      rw [drop_putLE (by decide)]

theorem reads_command : Reads commandFormat (validCommand · = true) decodeCommand := by
  refine reads_of_read readCommand
    (fun p => get8 p 13 = 0 ∧ get8 p 14 = 0 ∧ get8 p 15 = 0) (fun b v => ?_) (fun v => ?_)
    (fun b hl hz => ?_)
  · refine Option.ite_none_left_eq_some.trans (and_congr (by simp [commandFormat]) ?_)
    exact checked_eq_some_iff (c := fun v => validCommand v = true)
  · have hhead : (commandHead v).length = 16 := by simp [commandHead]
    have hargs := getFloats_append hhead v.args
    refine ⟨?_, ?_⟩
    · simp [commandFormat, commandHead, get8, getLE_leBytes_append, getLE_append_of_le]
    · unfold readCommand
      rw [show getFloats (commandFormat.bytes v) 16 = v.args from hargs]
      simp [commandFormat, commandHead, get8, get16, get64, getLE_leBytes_append,
        getLE_append_of_le]
  · obtain ⟨h13, h14, h15⟩ := hz
    have hl : b.length = 44 := hl
    have hhead : b.take 16 = commandHead (readCommand b) := by
      unfold commandHead
      refine take_getLE_eq 15 rfl (by omega) (by rw [← toNat_get8, h15]) ?_
      refine take_getLE_eq 14 rfl (by omega) (by rw [← toNat_get8, h14]) ?_
      refine take_getLE_eq 13 rfl (by omega) (by rw [← toNat_get8, h13]) ?_
      refine take_getLE_eq 12 rfl (by omega) toNat_get8.symm ?_
      refine take_getLE_eq 10 rfl (by omega) toNat_get16.symm ?_
      refine take_getLE_eq 8 rfl (by omega) toNat_get16.symm ?_
      exact take_getLE_eq 0 rfl (by omega) toNat_get64.symm List.take_zero
    exact take_getFloats hhead 7 (by omega)

/-! ### Acknowledgements, heartbeats, subscriptions and requests -/

/-- The wire form of a `CommandAck`. -/
def ackFormat : Format CommandAck where
  size := kAckBytes
  bytes v := leBytes 8 v.requestId.toNat ++ leBytes 1 v.status.toNat ++ leBytes 1 v.detail.toNat ++
    leBytes 2 v.reserved.toNat ++ leBytes 4 v.resultCode.toNat
  length_bytes v := by simp

theorem writes_ack : Writes ackFormat (fun v => v.requestId ≠ 0) encodeAck := by
  refine writes_of_put putAck (fun v out => rfl) (fun v out => by simp [ackFormat])
    (fun v p hl => ?_) (fun v p => ?_)
  · have hl : 16 ≤ p.length := hl
    simp only [ackFormat, putAck, put8, put16, put32, put64]
    iterate 4
      refine take_putLE_eq (by norm_num) (by simp only [length_putLE]; omega) ?_
    rw [take_putLE_eq (by norm_num) (by omega) List.take_zero, List.nil_append]
  · simp only [putAck, put8, put16, put32, put64]
    iterate 5
      rw [drop_putLE (by decide)]

theorem reads_ack : Reads ackFormat (fun v => v.requestId ≠ 0) decodeAck := by
  refine reads_of_read readAck (fun _ => True) (fun b v => ?_)
    (fun v => ⟨trivial, ?_⟩) (fun b hl _ => ?_)
  · refine Option.ite_none_left_eq_some.trans (and_congr (by simp [ackFormat]) ?_)
    exact checked_eq_some_iff (c := fun v : CommandAck => v.requestId ≠ 0)
  · simp [readAck, ackFormat, get8, get16, get32, get64, getLE_leBytes_append, getLE_append_of_le,
      getLE_leBytes]
  · have hl : b.length = 16 := hl
    refine take_getLE_eq 12 rfl (by omega) toNat_get32.symm ?_
    refine take_getLE_eq 10 rfl (by omega) toNat_get16.symm ?_
    refine take_getLE_eq 9 rfl (by omega) toNat_get8.symm ?_
    refine take_getLE_eq 8 rfl (by omega) toNat_get8.symm ?_
    exact take_getLE_eq 0 rfl (by omega) toNat_get64.symm List.take_zero

/-- The wire form of a `Heartbeat`. -/
def heartbeatFormat : Format Heartbeat where
  size := kHeartbeatBytes
  bytes v := leBytes 8 v.uptimeMs.toNat ++ leBytes 4 v.capabilities.toNat ++
    leBytes 4 v.state.toNat
  length_bytes v := by simp

theorem writes_heartbeat :
    Writes heartbeatFormat (fun _ => True) (sized kHeartbeatBytes encodeHeartbeat) := by
  have hencode : ∀ (v : Heartbeat) (out : Span UInt8),
      sized kHeartbeatBytes encodeHeartbeat v out =
        if out.isNull = true ∨ out.length < kHeartbeatBytes then none
        else some (putHeartbeat v out.elems, kHeartbeatBytes) := fun v out =>
    apply_ite (Option.map _) _ _ _
  refine writes_of_put putHeartbeat hencode (fun v out => by simp [heartbeatFormat])
    (fun v p hl => ?_) (fun v p => ?_)
  · have hl : 16 ≤ p.length := hl
    simp only [heartbeatFormat, putHeartbeat, put32, put64]
    iterate 2
      refine take_putLE_eq (by norm_num) (by simp only [length_putLE]; omega) ?_
    rw [take_putLE_eq (by norm_num) (by omega) List.take_zero, List.nil_append]
  · simp only [putHeartbeat, put32, put64]
    iterate 3
      rw [drop_putLE (by decide)]

theorem reads_heartbeat : Reads heartbeatFormat (fun _ => True) decodeHeartbeat := by
  refine reads_of_read readHeartbeat (fun _ => True) (fun b v => ?_)
    (fun v => ⟨trivial, ?_⟩) (fun b hl _ => ?_)
  · refine Option.ite_none_left_eq_some.trans (and_congr (by simp [heartbeatFormat]) ?_)
    simp
  · simp [readHeartbeat, heartbeatFormat, get32, get64, getLE_leBytes_append, getLE_append_of_le,
      getLE_leBytes]
  · have hl : b.length = 16 := hl
    refine take_getLE_eq 12 rfl (by omega) toNat_get32.symm ?_
    refine take_getLE_eq 8 rfl (by omega) toNat_get32.symm ?_
    exact take_getLE_eq 0 rfl (by omega) toNat_get64.symm List.take_zero

/-- The wire form of a `Subscription`. -/
def subscriptionFormat : Format Subscription where
  size := kSubscribeBytes
  bytes v := leBytes 1 v.type.code.toNat ++ leBytes 1 v.qos.code.toNat ++
    leBytes 2 v.sourceId.toNat ++ leBytes 2 v.intervalMs.toNat ++ leBytes 4 v.flags.toNat
  length_bytes v := by simp

theorem writes_subscription :
    Writes subscriptionFormat (fun v => knownType v.type = true ∧ v.sourceId ≠ 0)
      encodeSubscription := by
  refine writes_of_put putSubscription (fun v out => rfl)
    (fun v out => by simp [subscriptionFormat]) (fun v p hl => ?_) (fun v p => ?_)
  · have hl : 10 ≤ p.length := hl
    simp only [subscriptionFormat, putSubscription, put8, put16, put32]
    iterate 4
      refine take_putLE_eq (by norm_num) (by simp only [length_putLE]; omega) ?_
    rw [take_putLE_eq (by norm_num) (by omega) List.take_zero, List.nil_append]
  · simp only [putSubscription, put8, put16, put32]
    iterate 5
      rw [drop_putLE (by decide)]

theorem reads_subscription : Reads subscriptionFormat
    (fun v => knownType v.type = true ∧ v.qos.code ≤ Qos.explicit.code ∧ v.sourceId ≠ 0)
    decodeSubscription := by
  refine reads_of_read readSubscription (fun _ => True) (fun b v => ?_) (fun v => ⟨trivial, ?_⟩)
    (fun b hl _ => ?_)
  · refine Option.ite_none_left_eq_some.trans ?_
    rw [checked_eq_some_iff (c := fun v : Subscription => v.sourceId ≠ 0)]
    constructor
    · rintro ⟨hc, rfl, hs⟩
      simp only [not_or, Bool.not_eq_true, Bool.not_eq_eq_eq_not, Bool.not_true, not_not,
        Bool.not_eq_false, gt_iff_lt, UInt8.not_lt, ne_eq] at hc
      exact ⟨⟨hc.1, hc.2.1, trivial⟩, rfl, hc.2.2.1, hc.2.2.2, hs⟩
    · rintro ⟨⟨hnull, hlen, -⟩, rfl, htype, hqos, hs⟩
      refine ⟨?_, rfl, hs⟩
      simp only [not_or, Bool.not_eq_true, Bool.not_eq_eq_eq_not, Bool.not_true, not_not,
        Bool.not_eq_false, gt_iff_lt, UInt8.not_lt, ne_eq]
      exact ⟨hnull, hlen, htype, hqos⟩
  · simp [readSubscription, subscriptionFormat, get8, get16, get32, getLE_leBytes_append,
      getLE_append_of_le, getLE_leBytes]
  · have hl : b.length = 10 := hl
    refine take_getLE_eq 6 rfl (by omega) toNat_get32.symm ?_
    refine take_getLE_eq 4 rfl (by omega) toNat_get16.symm ?_
    refine take_getLE_eq 2 rfl (by omega) toNat_get16.symm ?_
    refine take_getLE_eq 1 rfl (by omega) toNat_get8.symm ?_
    exact take_getLE_eq 0 rfl (by omega) toNat_get8.symm List.take_zero

/-- The wire form of a `ResyncRequest`. -/
def resyncFormat : Format ResyncRequest where
  size := kResyncBytes
  bytes := resyncBytes
  length_bytes := length_resyncBytes

/-- The stores of `encode_resync`. -/
def putResync (value : ResyncRequest) (p : List UInt8) : List UInt8 :=
  put32 (put16 (put8 (put8 p 0 value.type.code) 1 0) 2 value.sourceId) 4 value.resourceId

/-- The loads of `decode_resync`. -/
def readResync (p : List UInt8) : ResyncRequest := ⟨⟨get8 p 0⟩, get16 p 2, get32 p 4⟩

theorem writes_resync : Writes resyncFormat ResyncRequest.Valid encodeResync := by
  refine writes_of_put putResync (fun v out => rfl) (fun v out => ?_) (fun v p hl => ?_)
    (fun v p => ?_)
  · simp only [not_or, Bool.not_eq_true, Bool.not_eq_eq_eq_not, Bool.not_true, Bool.not_eq_false,
      not_lt, resyncFormat]
    exact ⟨fun h => ⟨h.1, h.2.1, h.2.2.1, h.2.2.2.1, h.2.2.2.2⟩,
      fun h => ⟨h.1, h.2.1, h.2.2.type, h.2.2.source, h.2.2.resource⟩⟩
  · have hl : 8 ≤ p.length := hl
    simp only [resyncFormat, resyncBytes, putResync, put8, put16, put32]
    iterate 3
      refine take_putLE_eq (by norm_num) (by simp only [length_putLE]; omega) ?_
    rw [take_putLE_eq (by norm_num) (by omega) List.take_zero, List.nil_append]
  · simp only [putResync, put8, put16, put32]
    iterate 4
      rw [drop_putLE (by decide)]

theorem reads_resync : Reads resyncFormat ResyncRequest.Valid decodeResync := by
  refine reads_of_read readResync (fun p => get8 p 1 = 0)
    (fun b v => ?_) (fun v => ⟨?_, ?_⟩) (fun b hl hz => ?_)
  · have hchecked := checked_eq_some_iff (c := fun v : ResyncRequest => v.sourceId ≠ 0 ∧
      v.resourceId ≠ 0) (a := readResync b.elems) (b := v)
    refine Option.ite_none_left_eq_some.trans ((and_congr_right' hchecked).trans ?_)
    constructor
    · rintro ⟨hc, rfl, hs, hr⟩
      simp only [not_or, Bool.not_eq_true, Bool.not_eq_eq_eq_not, Bool.not_true, not_not,
        Bool.not_eq_false, ne_eq] at hc
      exact ⟨⟨hc.1, hc.2.1, hc.2.2.1⟩, rfl, hc.2.2.2, hs, hr⟩
    · rintro ⟨⟨hnull, hlen, hzero⟩, rfl, hvalid⟩
      refine ⟨?_, rfl, hvalid.source, hvalid.resource⟩
      simp only [not_or, Bool.not_eq_true, Bool.not_eq_eq_eq_not, Bool.not_true, not_not,
        Bool.not_eq_false, ne_eq]
      exact ⟨hnull, hlen, hzero, hvalid.type⟩
  · simp [resyncFormat, resyncBytes, get8, getLE_leBytes_append, getLE_append_of_le]
  · simp [readResync, resyncFormat, resyncBytes, get8, get16, get32, getLE_leBytes_append,
      getLE_append_of_le, getLE_leBytes]
  · have hl : b.length = 8 := hl
    refine take_getLE_eq 4 rfl (by omega) toNat_get32.symm ?_
    refine take_getLE_eq 2 rfl (by omega) toNat_get16.symm ?_
    refine take_getLE_eq 1 rfl (by omega) (by rw [← toNat_get8, hz]) ?_
    exact take_getLE_eq 0 rfl (by omega) toNat_get8.symm List.take_zero

/-- **A request that names a stream is encoded, and decodes back to itself.** -/
theorem decode_encodeResync {r : ResyncRequest} (h : r.Valid) {out : List UInt8}
    (hout : kResyncBytes ≤ out.length) : ∃ p, encodeResync r (.data out) = some (p, kResyncBytes) ∧
      decodeResync (.data (p.take kResyncBytes)) = some r := by
  have hencode := (writes_resync r (.data out) _ _).mpr ⟨⟨rfl, hout, h⟩, rfl, rfl⟩
  exact ⟨_, hencode, (exact_of_writes writes_resync reads_resync).roundTrips r _ _ _ hencode⟩

/-! ### State messages -/

/-- The wire form of a `StateMeta`. -/
def metaFormat : Format StateMeta where
  size := 16
  bytes := metaBytes
  length_bytes := length_metaBytes

/-- The stores of `encode_state_meta`. -/
def putMeta (m : StateMeta) (p : List UInt8) : List UInt8 :=
  put8 (put8 (put16 (put32 (put32 (put32 p 0 m.resourceId) 4 m.generation) 8 m.baseGeneration) 12
    m.sourceId) 14 m.snapshot) 15 m.reserved

theorem writes_meta : Writes metaFormat
    (fun m => m.resourceId ≠ 0 ∧ m.generation ≠ 0 ∧ m.sourceId ≠ 0) (sized 16 encodeStateMeta) := by
  have hencode : ∀ (m : StateMeta) (out : Span UInt8), sized 16 encodeStateMeta m out =
      if out.isNull = true ∨ out.length < 16 ∨ m.resourceId = 0 ∨ m.generation = 0 ∨
        m.sourceId = 0 then none else some (putMeta m out.elems, 16) := fun m out =>
    apply_ite (Option.map _) _ _ _
  refine writes_of_put putMeta hencode (fun m out => by simp [metaFormat]) (fun m p hl => ?_)
    (fun m p => ?_)
  · have hl : 16 ≤ p.length := hl
    simp only [metaFormat, metaBytes, putMeta, put8, put16, put32]
    iterate 5
      refine take_putLE_eq (by norm_num) (by simp only [length_putLE]; omega) ?_
    rw [take_putLE_eq (by norm_num) (by omega) List.take_zero, List.nil_append]
  · simp only [putMeta, put8, put16, put32]
    iterate 6
      rw [drop_putLE (by decide)]

theorem reads_meta : Reads metaFormat StateMeta.Valid decodeStateMeta := by
  refine reads_of_read readStateMeta (fun _ => True) (fun b m => ?_) (fun m => ⟨trivial, ?_⟩)
    (fun b hl _ => ?_)
  · have hchecked := checked_eq_some_iff (c := fun m : StateMeta => m.resourceId ≠ 0 ∧
      m.generation ≠ 0 ∧ m.sourceId ≠ 0 ∧ m.snapshot ≤ 1 ∧ m.reserved = 0)
      (a := readStateMeta b.elems) (b := m)
    refine Option.ite_none_left_eq_some.trans (and_congr (by simp [metaFormat])
      (hchecked.trans (and_congr_right' ?_)))
    exact ⟨fun h => ⟨h.1, h.2.1, h.2.2.1, h.2.2.2.1, h.2.2.2.2⟩,
      fun h => ⟨h.resource, h.generation, h.source, h.snapshot, h.reserved⟩⟩
  · simp [readStateMeta, metaFormat, metaBytes, get8, get16, get32, getLE_leBytes_append,
      getLE_append_of_le, getLE_leBytes]
  · have hl : b.length = 16 := hl
    refine take_getLE_eq 15 rfl (by omega) toNat_get8.symm ?_
    refine take_getLE_eq 14 rfl (by omega) toNat_get8.symm ?_
    refine take_getLE_eq 12 rfl (by omega) toNat_get16.symm ?_
    refine take_getLE_eq 8 rfl (by omega) toNat_get32.symm ?_
    refine take_getLE_eq 4 rfl (by omega) toNat_get32.symm ?_
    exact take_getLE_eq 0 rfl (by omega) toNat_get32.symm List.take_zero

variable {k : Kind} {v : k.Value} {out b : Span UInt8} {p : List UInt8}

/-- The wire form of a state message of this kind. -/
def stateFormat (k : Kind) : Format k.Value where
  size := k.bytes
  bytes := stateBytes k
  length_bytes := length_stateBytes k

theorem eq_of_encode (h : k.encode v out = some p) :
    p = stateBytes k v ++ out.elems.drop k.bytes := by
  rw [← (take_of_encode h).2.2]
  refine (List.take_append_drop k.bytes p).symm.trans (congrArg _ ?_)
  obtain ⟨-, q, hq, rfl⟩ := encode_eq_some_iff.mp h
  have hmeta : sized 16 encodeStateMeta (k.stateMeta v) out = some (q, 16) := by
    simp [sized, hq]
  obtain ⟨-, rfl, -⟩ := (writes_meta _ _ _ _).mp hmeta
  have hbytes := length_fieldBytes k v
  have hfields : ∀ q, (putFields k v q).drop k.bytes = q.drop k.bytes := by
    intro q
    cases k with
    | battery =>
      simp only [putFields, put16]
      iterate 4
        rw [drop_putLE (by decide)]
    | position | attitude =>
      simp only [putFields, put32]
      iterate 3
        rw [drop_putLE (by decide)]
  dsimp only [metaFormat]
  rw [hfields, List.drop_append, length_metaBytes, List.drop_drop,
    List.drop_of_length_le (by rw [length_metaBytes]; omega), List.nil_append]
  congr 1
  omega

theorem writes_state (k : Kind) : Writes (stateFormat k)
    (fun v => (k.stateMeta v).Valid ∧ k.Plausible v) (sized k.bytes k.encode) := by
  intro v out p n
  constructor
  · intro h
    obtain ⟨q, hq, heq⟩ := Option.map_eq_some_iff.mp h
    obtain ⟨rfl, rfl⟩ := Prod.mk.inj heq
    obtain ⟨hnull, hroom, -, -, hv⟩ := (encode_eq_some_iff.mp hq).1
    exact ⟨⟨hnull, hroom, valid_of_encode hq, hv⟩, eq_of_encode hq, rfl⟩
  · rintro ⟨⟨hnull, hroom, hm, hv⟩, rfl, rfl⟩
    cases out with
    | null n => cases hnull
    | data l =>
      obtain ⟨q, hq⟩ := Option.isSome_iff_exists.mp ((encode_isSome_iff hroom).mpr ⟨hm, hv⟩)
      exact Option.map_eq_some_iff.mpr ⟨q, hq, Prod.ext (eq_of_encode hq) rfl⟩

theorem stateBytes_readValue {m : StateMeta} {l : List UInt8} (hl : l.length = k.bytes)
    (hm : l.take 16 = metaBytes m) : stateBytes k (readValue k m l) = l := by
  have hall : l.take k.bytes = stateBytes k (readValue k m l) := by
    unfold stateBytes
    rw [stateMeta_readValue]
    cases k with
    | battery =>
      have hl : l.length = 24 := hl
      simp only [fieldBytes, ← List.append_assoc]
      refine take_getLE_eq 22 rfl (by omega) toNat_get16.symm ?_
      refine take_getLE_eq 20 rfl (by omega) toNat_get16.symm ?_
      refine take_getLE_eq 18 rfl (by omega) toNat_get16.symm ?_
      exact take_getLE_eq 16 rfl (by omega) toNat_get16.symm hm
    | position | attitude =>
      have hl : l.length = 28 := hl
      simp only [fieldBytes, ← List.append_assoc]
      refine take_getLE_eq 24 rfl (by omega) toNat_get32.symm ?_
      refine take_getLE_eq 20 rfl (by omega) toNat_get32.symm ?_
      exact take_getLE_eq 16 rfl (by omega) toNat_get32.symm hm
  rw [← hall, List.take_of_length_le hl.le]

theorem reads_state (k : Kind) :
    Reads (stateFormat k) (fun v => (k.stateMeta v).Valid ∧ k.Plausible v) k.decode := by
  intro b v
  constructor
  · intro h
    refine ⟨?_, valid_of_decode h⟩
    obtain ⟨⟨hnull, hlen⟩, m, hm, rfl, -⟩ := decode_eq_some_iff.mp h
    cases b with
    | null n => cases hnull
    | data l =>
      have htake : l.take 16 = metaBytes m := Span.data.inj ((reads_meta _ m).mp hm).1
      exact congrArg Span.data (stateBytes_readValue hlen htake).symm
  · rintro ⟨rfl, hm, hv⟩
    exact decode_stateBytes hm hv

/-! ### Both directions -/

/-- **The typed codecs are exact**: what an encoder accepts is read back, and what a decoder accepts
is what its encoder writes for the value that was read. -/
theorem typed_codecs_exact :
    Exact kCommandBytes encodeCommand decodeCommand ∧
    Exact kAckBytes encodeAck decodeAck ∧
    Exact kResyncBytes encodeResync decodeResync ∧
    Exact kPositionBytes (sized kPositionBytes encodePosition) decodePosition ∧
    Exact kAttitudeBytes (sized kAttitudeBytes encodeAttitude) decodeAttitude ∧
    Exact kBatteryBytes (sized kBatteryBytes encodeBattery) decodeBattery ∧
    Exact kHeartbeatBytes (sized kHeartbeatBytes encodeHeartbeat) decodeHeartbeat := by
  have hstate : ∀ k : Kind, Exact k.bytes (sized k.bytes k.encode) k.decode := fun k =>
    exact_of_writes (writes_state k) (reads_state k)
  exact ⟨exact_of_writes writes_command reads_command, exact_of_writes writes_ack reads_ack,
    exact_of_writes writes_resync reads_resync, hstate .position, hstate .attitude,
    hstate .battery, exact_of_writes writes_heartbeat reads_heartbeat⟩

/-- What `encode_subscription` refuses. -/
def RefusesSubscription (v : Subscription) (out : Span UInt8) : Prop :=
  out.isNull = true ∨ out.length < kSubscribeBytes ∨ knownType v.type = false ∨ v.sourceId = 0

/-- What `encode_state_meta` refuses. -/
def RefusesMeta (m : StateMeta) (out : Span UInt8) : Prop :=
  out.isNull = true ∨ out.length < 16 ∨ m.resourceId = 0 ∨ m.generation = 0 ∨ m.sourceId = 0

theorem refusesSubscription_iff (v : Subscription) (out : Span UInt8) :
    RefusesSubscription v out ↔ ¬ (out.isNull = false ∧ kSubscribeBytes ≤ out.length ∧
      knownType v.type = true ∧ v.sourceId ≠ 0) := by
  simp only [RefusesSubscription, not_and_or, Bool.not_eq_false, Bool.not_eq_true, not_le, not_not]

theorem refusesMeta_iff (m : StateMeta) (out : Span UInt8) :
    RefusesMeta m out ↔ ¬ (out.isNull = false ∧ 16 ≤ out.length ∧
      m.resourceId ≠ 0 ∧ m.generation ≠ 0 ∧ m.sourceId ≠ 0) := by
  simp only [RefusesMeta, not_and_or, Bool.not_eq_false, not_le, not_not]

theorem roundTrips_subscription (v : Subscription) (out : Span UInt8) :
    RoundTrips encodeSubscription decodeSubscription v out ↔
      RefusesSubscription v out ∨ v.qos.code ≤ Qos.explicit.code := by
  rw [roundTrips_iff writes_subscription reads_subscription, refusesSubscription_iff,
    ← imp_iff_not_or]
  refine imp_congr_right ?_
  rintro ⟨-, -, htype, hsource⟩
  exact ⟨fun h => h.2.1, fun h => ⟨htype, h, hsource⟩⟩

theorem roundTrips_meta (m : StateMeta) (out : Span UInt8) :
    RoundTrips (sized 16 encodeStateMeta) decodeStateMeta m out ↔
      RefusesMeta m out ∨ m.snapshot ≤ 1 ∧ m.reserved = 0 := by
  rw [roundTrips_iff writes_meta reads_meta, refusesMeta_iff, ← imp_iff_not_or]
  refine imp_congr_right ?_
  rintro ⟨-, -, hresource, hgeneration, hsource⟩
  exact ⟨fun h => ⟨h.snapshot, h.reserved⟩,
    fun h => ⟨hresource, hgeneration, hsource, h.1, h.2⟩⟩

/-- **When a subscription and a meta are read back**: if their encoder refuses them, or the fields
that only their decoder looks at are in range. -/
theorem round_trips_iff (v : Subscription) (m : StateMeta) (out : Span UInt8) :
    (RoundTrips encodeSubscription decodeSubscription v out ↔
      RefusesSubscription v out ∨ v.qos.code ≤ Qos.explicit.code) ∧
    (RoundTrips encodeUnsubscribe decodeUnsubscribe v out ↔
      RefusesSubscription v out ∨ v.qos.code ≤ Qos.explicit.code) ∧
    (RoundTrips (sized 16 encodeStateMeta) decodeStateMeta m out ↔
      RefusesMeta m out ∨ m.snapshot ≤ 1 ∧ m.reserved = 0) :=
  ⟨roundTrips_subscription v out, roundTrips_subscription v out, roundTrips_meta m out⟩

/-- A subscription whose qos no decoder knows. -/
theorem unknown_qos_not_read_back : ¬ ((∀ v out,
    RoundTrips encodeSubscription decodeSubscription v out) ∧
      (∀ v out, RoundTrips encodeUnsubscribe decodeUnsubscribe v out) ∧
        ∀ m out, RoundTrips (sized 16 encodeStateMeta) decodeStateMeta m out) := by
  rintro ⟨hsub, -, -⟩
  have hbytes := hsub { qos := ⟨6⟩, sourceId := 1 } (.data (List.replicate kSubscribeBytes 0))
    [18, 6, 1, 0, 0, 0, 0, 0, 0, 0] kSubscribeBytes (by decide +kernel)
  revert hbytes
  decide +kernel

end NewMavlink.Codecs
