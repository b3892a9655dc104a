import Mathlib.Data.List.DropRight
import NewMavlink.Codecs

/-! # Commands to the flight controller

`encode_command_long` of `mavlink2_adapter.cpp`, which turns a native command into a MAVLink frame.
The functions of `mavlink.h` are a parameter (`Mavlink`).

* `params_of_encodes`: a frame carries the seven arguments of the request.
* `params_finite_iff`: when they are finite. The decoder and the adapter look at the first
  `arg_count` arguments only, and the adapter packs all seven (`unchecked_reach_the_frame`). -/

namespace NewMavlink.Mavlink2Adapter

open NewMavlink.Lib.Buffer NewMavlink.Wire NewMavlink.State.Messages NewMavlink.Codecs

/-- The size of a frame. -/
abbrev kFrameBytes : ℕ := 280

/-- `MavlinkFrame`: the frame stands in the first `length` bytes. -/
structure MavlinkFrame where
  bytes : List.Vector UInt8 kFrameBytes := List.Vector.replicate _ 0
  length : ℕ := 0

/-- What `encode_command_long` uses of `mavlink.h`, and the parameters of a `COMMAND_LONG` that the
receiver of a frame finds in it. -/
structure Mavlink (Message : Type) where
  commandLongPack : (systemId componentId targetSystem targetComponent : UInt8) →
    (command : UInt16) → (confirmation : UInt8) → (params : List.Vector UInt32 kMaxArgs) → Message
  msgToSendBuffer : List.Vector UInt8 kFrameBytes → Message →
    UInt16 × List.Vector UInt8 kFrameBytes
  params : MavlinkFrame → List.Vector UInt32 kMaxArgs

/-- `mavlink_msg_command_long_pack` copies its seven parameters: they are found in the frame that
`mavlink_msg_to_send_buffer` makes of the message. -/
def Mavlink.Copies {Message : Type} (M : Mavlink Message) : Prop :=
  ∀ systemId componentId targetSystem targetComponent command confirmation params buffer,
    let sent := M.msgToSendBuffer buffer (M.commandLongPack systemId componentId targetSystem
      targetComponent command confirmation params)
    sent.1 ≠ 0 → sent.1.toNat ≤ kFrameBytes → M.params ⟨sent.2, sent.1.toNat⟩ = params

/-- `command_allowed`. -/
def commandAllowed (commandId : UInt16) : Bool :=
  commandId == 400 || commandId == 22 || commandId == 21

/-- `encode_command_long`. -/
def encodeCommandLong {Message : Type} (M : Mavlink Message) (request : CommandRequest)
    (sourceSystem sourceComponent targetSystem targetComponent : UInt8) (frame : MavlinkFrame) :
    Bool × MavlinkFrame :=
  let frame := { frame with length := 0 }
  if !commandAllowed request.commandId ∨ request.requestId = 0 ∨ request.deadlineMs = 0 ∨
      request.argCount.toNat > kMaxArgs ∨ sourceSystem = 0 ∨ sourceComponent = 0 ∨
      targetSystem = 0 ∨ targetComponent = 0 then (false, frame)
  else if !(request.args.toList.take request.argCount.toNat).all isFinite then (false, frame)
  else
    let message := M.commandLongPack sourceSystem sourceComponent targetSystem targetComponent
      request.commandId 0 request.args
    let (length, bytes) := M.msgToSendBuffer frame.bytes message
    if length = 0 ∨ length.toNat > kFrameBytes then (false, { frame with bytes })
    else (true, { bytes, length := length.toNat })

variable {Message : Type} {M : Mavlink Message} {request : CommandRequest} {bytes : List UInt8}
  {sourceSystem sourceComponent targetSystem targetComponent : UInt8} {frame frame' : MavlinkFrame}

/-- **A frame carries the seven arguments of the request.** -/
theorem params_of_encodes (hM : M.Copies)
    (h : encodeCommandLong M request sourceSystem sourceComponent targetSystem targetComponent
      frame = (true, frame')) : M.params frame' = request.args := by
  unfold encodeCommandLong at h
  dsimp only at h
  split_ifs at h with hcheck hfinite hlength
  · simp at h
  · simp at h
  · simp at h
  · push Not at hlength
    obtain ⟨hpos, hle⟩ := hlength
    have hcopied := hM sourceSystem sourceComponent targetSystem targetComponent request.commandId 0
      request.args frame.bytes hpos hle
    obtain ⟨-, rfl⟩ := Prod.mk.inj h
    exact hcopied

theorem get_getFloats (p : List UInt8) (off : ℕ) (i : Fin kMaxArgs) :
    (getFloats p off).get i = get32 p (off + 4 * i) := by
  simp [getFloats, List.Vector.get]
  rfl

/-- The arguments of a decoded command, where they stand in its bytes; the first `arg_count` of them
are finite. -/
theorem args_of_decode (h : decodeCommand (.data bytes) = some request) (i : Fin kMaxArgs) :
    request.args.get i = get32 bytes (16 + 4 * i) ∧
      (i < (get8 bytes 12).toNat → isFinite (get32 bytes (16 + 4 * i)) = true) := by
  obtain ⟨hvalid, hread⟩ : validCommand (readCommand bytes) = true ∧
      readCommand bytes = request := by
    unfold decodeCommand at h
    dsimp only at h
    split_ifs at h with hcheck hvalid
    exact ⟨hvalid, Option.some.inj h⟩
  have hget : (readCommand bytes).args.get i = get32 bytes (16 + 4 * i) := get_getFloats bytes 16 i
  refine ⟨hread ▸ hget, fun hi => ?_⟩
  unfold validCommand at hvalid
  rw [Bool.and_eq_true, List.all_eq_true] at hvalid
  have hmem : (readCommand bytes).args.get i ∈
      (readCommand bytes).args.toList.take (readCommand bytes).argCount.toNat := by
    rw [List.Vector.get_eq_get_toList, List.mem_take_iff_getElem]
    refine ⟨i, ?_, rfl⟩
    have hlen : (readCommand bytes).args.toList.length = kMaxArgs := List.Vector.toList_length _
    have hi' : (i : ℕ) < (readCommand bytes).argCount.toNat := hi
    have hlt := i.isLt
    omega
  exact hget ▸ hvalid.2 _ hmem

/-- **When the parameters in the frame are finite**: if those from `arg_count` on are, which neither
the decoder nor the adapter looks at. -/
theorem params_finite_iff (hM : M.Copies) (hdecode : decodeCommand (.data bytes) = some request)
    (hencode : encodeCommandLong M request sourceSystem sourceComponent targetSystem
      targetComponent frame = (true, frame')) :
    (∀ i, isFinite ((M.params frame').get i) = true) ↔
      ∀ i : Fin kMaxArgs, (get8 bytes 12).toNat ≤ i →
        isFinite (get32 bytes (16 + 4 * i)) = true := by
  rw [params_of_encodes hM hencode]
  refine forall_congr' fun i => ?_
  obtain ⟨hget, hchecked⟩ := args_of_decode hdecode i
  rw [hget]
  refine ⟨fun h _ => h, fun h => ?_⟩
  rcases Nat.lt_or_ge i (get8 bytes 12).toNat with hi | hi
  · exact hchecked hi
  · exact h hi

/-! ### A frame of MAVLink 2 -/

/-- `crc_accumulate`. -/
def crcAccumulate (crc : UInt16) (data : UInt8) : UInt16 :=
  let tmp := data ^^^ crc.toUInt8
  let tmp := (tmp ^^^ (tmp <<< 4)).toUInt16
  (crc >>> 8) ^^^ (tmp <<< 8) ^^^ (tmp <<< 3) ^^^ (tmp >>> 4)

/-- A payload without the zeros at its end, of which the first byte is always sent. -/
def trimPayload (payload : List UInt8) : List UInt8 :=
  payload.take (max 1 (payload.rdropWhile (· == 0)).length)

/-- The header of a `COMMAND_LONG` with sequence number zero, for a payload of `n` bytes. -/
def frameHeader (systemId componentId : UInt8) (n : ℕ) : List UInt8 :=
  [0xFD, UInt8.ofNat n, 0, 0, 0, systemId, componentId, 76, 0, 0]

/-- The header, the payload and the checksum. -/
def frameBytes (systemId componentId : UInt8) (payload : List UInt8) : List UInt8 :=
  let header := frameHeader systemId componentId (trimPayload payload).length
  let checked := header.drop 1 ++ trimPayload payload ++ [152]
  header ++ (trimPayload payload ++ leBytes 2 (checked.foldl crcAccumulate 0xFFFF).toNat)

/-- The payload of a `COMMAND_LONG`. -/
def commandLongPayload (targetSystem targetComponent : UInt8) (command : UInt16)
    (confirmation : UInt8) (params : List.Vector UInt32 kMaxArgs) : List UInt8 :=
  params.toList.flatMap (leBytes 4 ·.toNat) ++
    (leBytes 2 command.toNat ++ [targetSystem, targetComponent, confirmation])

/-- The payload of a frame, with the zeros at its end. -/
def payloadOf (frame : MavlinkFrame) : List UInt8 :=
  let sent := frame.bytes.toList.take frame.length
  let payload := slice sent 10 (get8 sent 1).toNat
  payload ++ List.replicate (33 - payload.length) 0

/-- The functions of `mavlink.h`, for a message that is its own frame. -/
def mavlink2 : Mavlink (List UInt8) where
  commandLongPack systemId componentId targetSystem targetComponent command confirmation params :=
    frameBytes systemId componentId
      (commandLongPayload targetSystem targetComponent command confirmation params)
  msgToSendBuffer buffer message :=
    (UInt16.ofNat message.length, ⟨blit buffer.toList 0 message, by simp⟩)
  params frame := getFloats ((payloadOf frame).take 28) 0

theorem trimPayload_append (payload : List UInt8) :
    trimPayload payload ++ List.replicate (payload.length - (trimPayload payload).length) 0 =
      payload := by
  have hsplit : payload.rdropWhile (· == 0) ++ payload.rtakeWhile (· == 0) = payload :=
    List.rdropWhile_append_rtakeWhile
  have hzero : ∀ x ∈ payload.drop (max 1 (payload.rdropWhile (· == 0)).length), x = 0 := by
    intro x hx
    have htail : x ∈ payload.drop (payload.rdropWhile (· == 0)).length :=
      List.drop_subset_drop_left _ (le_max_right 1 _) hx
    rw [← congrArg (List.drop (payload.rdropWhile (· == 0)).length) hsplit,
      List.drop_left] at htail
    simpa using List.mem_rtakeWhile_imp htail
  have hdrop := List.eq_replicate_of_mem hzero
  rw [List.length_drop] at hdrop
  unfold trimPayload
  rw [List.length_take, Nat.min_comm, ← Nat.sub_eq_sub_min, ← hdrop, List.take_append_drop]

theorem length_trimPayload_le (payload : List UInt8) :
    (trimPayload payload).length ≤ payload.length := by
  unfold trimPayload
  rw [List.length_take]
  exact Nat.min_le_right _ _

theorem length_frameBytes (systemId componentId : UInt8) (payload : List UInt8) :
    (frameBytes systemId componentId payload).length = 12 + (trimPayload payload).length := by
  simp only [frameBytes, frameHeader, List.length_append, List.length_cons, List.length_nil,
    length_leBytes]
  omega

theorem get8_cons_one (a b : UInt8) (l : List UInt8) : get8 (a :: b :: l) 1 = b := by
  simp [get8, getLE]

theorem slice_frameBytes (systemId componentId : UInt8) {payload : List UInt8}
    (h : payload.length = 33) :
    slice (frameBytes systemId componentId payload) 10
      (get8 (frameBytes systemId componentId payload) 1).toNat = trimPayload payload := by
  have htrim := length_trimPayload_le payload
  have hcount : (get8 (frameBytes systemId componentId payload) 1).toNat =
      (trimPayload payload).length := by
    have hget : get8 (frameBytes systemId componentId payload) 1 =
        UInt8.ofNat (trimPayload payload).length := get8_cons_one _ _ _
    rw [hget, UInt8.toNat_ofNat']
    omega
  rw [hcount]
  unfold slice frameBytes
  dsimp only
  have hheader : (frameHeader systemId componentId (trimPayload payload).length).length = 10 := rfl
  rw [List.drop_left' hheader, List.take_left]

theorem take_msgToSendBuffer {message : List UInt8} (buffer : List.Vector UInt8 kFrameBytes)
    (h : message.length ≤ kFrameBytes) :
    (mavlink2.msgToSendBuffer buffer message).2.toList.take
      (mavlink2.msgToSendBuffer buffer message).1.toNat = message := by
  have hcount : (UInt16.ofNat message.length).toNat = message.length := by
    have hsmall : message.length < 2 ^ 16 := h.trans_lt (by decide)
    rw [UInt16.toNat_ofNat', Nat.mod_eq_of_lt hsmall]
  have hroom : 0 + message.length ≤ buffer.toList.length := by
    rw [List.Vector.toList_length, Nat.zero_add]
    exact h
  have hblit := take_blit hroom
  rw [Nat.zero_add, List.take_zero, List.nil_append] at hblit
  dsimp only [mavlink2]
  rw [hcount]
  exact hblit

theorem copies_mavlink2 : mavlink2.Copies := by
  intro systemId componentId targetSystem targetComponent command confirmation params buffer sent
    _ _
  have hfields : (params.toList.flatMap (leBytes 4 ·.toNat)).length = 28 := by
    have hparams : params.toList.length = kMaxArgs := List.Vector.toList_length _
    simp [List.length_flatMap, hparams, kMaxArgs]
  set payload := commandLongPayload targetSystem targetComponent command confirmation params
    with hpayload
  have hlength : payload.length = 33 := by
    simp [hpayload, commandLongPayload, hfields]
  have hroom : (frameBytes systemId componentId payload).length ≤ kFrameBytes := by
    have htrim := length_trimPayload_le payload
    rw [length_frameBytes, kFrameBytes]
    omega
  have hread : payloadOf ⟨sent.2, sent.1.toNat⟩ = payload := by
    have hsent : sent.2.toList.take sent.1.toNat = frameBytes systemId componentId payload :=
      take_msgToSendBuffer buffer hroom
    unfold payloadOf
    dsimp only
    rw [hsent, slice_frameBytes systemId componentId hlength,
      ← hlength, trimPayload_append]
  have hfront : payload.take 28 = [] ++ params.toList.flatMap (leBytes 4 ·.toNat) := by
    rw [hpayload, commandLongPayload, List.take_left' hfields, List.nil_append]
  show getFloats ((payloadOf ⟨sent.2, sent.1.toNat⟩).take 28) 0 = params
  rw [hread, hfront]
  exact getFloats_append List.length_nil params

/-- The request of `adapter_test.cpp`, for any number of arguments and any first one. -/
def testRequest (argCount : UInt8) (arg : UInt32) : CommandRequest where
  requestId := 44
  commandId := 400
  deadlineMs := 1000
  argCount := argCount
  args := ⟨[arg, 0, 0, 0, 0, 0, 0], rfl⟩

/-- Its bytes. -/
def testBytes (argCount : UInt8) (arg : UInt32) : List UInt8 :=
  [44, 0, 0, 0, 0, 0, 0, 0, 0x90, 1, 0xE8, 3, argCount, 0, 0, 0] ++ leBytes 4 arg.toNat ++
    List.replicate 24 0

/-- The frame that MAVLink 2 makes of it, from the station to the flight controller. -/
def testFrame (argCount : UInt8) (arg : UInt32) : MavlinkFrame :=
  (encodeCommandLong mavlink2 (testRequest argCount arg) 255 190 1 1 {}).2

/-- One argument, which is `1.0F`: a frame of 44 bytes with finite parameters. -/
theorem params_finite_test : (testFrame 1 0x3F800000).length = 44 ∧
    ∀ i, isFinite ((mavlink2.params (testFrame 1 0x3F800000)).get i) = true := by
  have hdecode : decodeCommand (.data (testBytes 1 0x3F800000)) = some (testRequest 1 0x3F800000) :=
    by decide +kernel
  have hsent : (encodeCommandLong mavlink2 (testRequest 1 0x3F800000) 255 190 1 1 {}).1 = true := by
    decide +kernel
  refine ⟨by decide +kernel,
    (params_finite_iff copies_mavlink2 hdecode (Prod.ext hsent rfl)).mpr ?_⟩
  decide +kernel

/-- No argument, and a NaN in the first slot. -/
theorem unchecked_reach_the_frame : ¬ ∀ (Message : Type) (M : Mavlink Message)
    (bytes : List UInt8) (request : CommandRequest)
    (sourceSystem sourceComponent targetSystem targetComponent : UInt8)
    (frame frame' : MavlinkFrame), M.Copies → bytes.length = kCommandBytes →
    decodeCommand (.data bytes) = some request →
    encodeCommandLong M request sourceSystem sourceComponent targetSystem targetComponent frame =
      (true, frame') →
    ∀ i, isFinite ((M.params frame').get i) = true := by
  intro h
  have hdecode : decodeCommand (.data (testBytes 0 0x7FC00000)) = some (testRequest 0 0x7FC00000) :=
    by decide +kernel
  have hsent : (encodeCommandLong mavlink2 (testRequest 0 0x7FC00000) 255 190 1 1 {}).1 = true := by
    decide +kernel
  have hencode : encodeCommandLong mavlink2 (testRequest 0 0x7FC00000) 255 190 1 1 {} =
      (true, testFrame 0 0x7FC00000) := Prod.ext hsent rfl
  have hfinite := h (List UInt8) mavlink2 (testBytes 0 0x7FC00000) (testRequest 0 0x7FC00000)
    255 190 1 1 {} (testFrame 0 0x7FC00000) copies_mavlink2 rfl hdecode hencode 0
  rw [params_of_encodes copies_mavlink2 hencode] at hfinite
  revert hfinite
  decide +kernel

end NewMavlink.Mavlink2Adapter
