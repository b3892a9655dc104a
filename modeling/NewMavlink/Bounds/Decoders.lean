import NewMavlink.Codecs
import NewMavlink.Handshake.Codecs
import NewMavlink.Lib.Indexing

/-! # The decoders, index by index

The decoders of `session.cpp` and `messages.cpp` as they index their input: they are given a pointer
and a length, and a read behind what the pointer points to is a fault. Checks stand in the order of
the source, so what is read depends on the checks before it. A pointer is a `Span` here, whose
elements are the memory behind it; the length is an argument of its own.

* `decodeFixed_eq`: a decoder checks the pointer and the length before it reads anything, so what it
  reads has to be in range of an input of its own length only.
* `handshake_in_bounds`, `typed_in_bounds`: no decoder reads at or behind the length it is given,
  whatever the bytes, and each computes the function of the codec modules. -/

namespace NewMavlink.Bounds.Decoders

open NewMavlink.Lib.Buffer NewMavlink.Lib.Codec NewMavlink.Lib.Indexing NewMavlink.Wire
open NewMavlink.Crc16 (crcByte)
open NewMavlink.Handshake.Messages (Hello Accept Finish kHelloBytes validIds)
open NewMavlink.Handshake.Codecs (kAcceptBytes kFinishBytes validHello validAccept validFinish)
open NewMavlink.State.Messages (Subscription ResyncRequest StateMeta Position Attitude Battery
  kResyncBytes kPositionBytes kAttitudeBytes kBatteryBytes)
open NewMavlink.Codecs (CommandRequest CommandAck Heartbeat kMaxArgs kCommandBytes kAckBytes
  kSubscribeBytes kHeartbeatBytes isFinite)

variable {α : Type} {p : List UInt8} {off : ℕ}

/-- **A parser stays in bounds**: on bytes of every length, every read is below the length that it
is given, and it returns what `decode` does. -/
def InBounds (parse : Span UInt8 → ℕ → Access (Option α)) (decode : Decoder α) : Prop :=
  ∀ bytes, parse bytes bytes.length = .ok (decode bytes)

/-! ### Fields -/

/-- `p[off]`. -/
def get8 (p : List UInt8) (off : ℕ) : Access UInt8 := return UInt8.ofNat (← readLE 1 p off)
/-- `get16`, byte by byte. -/
def get16 (p : List UInt8) (off : ℕ) : Access UInt16 := return UInt16.ofNat (← readLE 2 p off)
/-- `get32`, byte by byte. -/
def get32 (p : List UInt8) (off : ℕ) : Access UInt32 := return UInt32.ofNat (← readLE 4 p off)
/-- `get64`, byte by byte. -/
def get64 (p : List UInt8) (off : ℕ) : Access UInt64 := return UInt64.ofNat (← readLE 8 p off)

theorem get8_eq (h : off + 1 ≤ p.length) : get8 p off = .ok (Wire.get8 p off) := by
  rw [get8, readLE_eq h]
  rfl

theorem get16_eq (h : off + 2 ≤ p.length) : get16 p off = .ok (Wire.get16 p off) := by
  rw [get16, readLE_eq h]
  rfl

theorem get32_eq (h : off + 4 ≤ p.length) : get32 p off = .ok (Wire.get32 p off) := by
  rw [get32, readLE_eq h]
  rfl

theorem get64_eq (h : off + 8 ≤ p.length) : get64 p off = .ok (Wire.get64 p off) := by
  rw [get64, readLE_eq h]
  rfl

/-- `p[off] != 0`. -/
def nonzeroAt (p : List UInt8) (off : ℕ) : Access Bool := return (← get8 p off) != 0

theorem nonzeroAt_eq (h : off + 1 ≤ p.length) :
    nonzeroAt p off = .ok (Wire.get8 p off != 0) := by
  rw [nonzeroAt, get8_eq h]
  rfl

/-- `crc16_ccitt`. -/
def crc16Ccitt (bytes : Span UInt8) (length : ℕ) : Access UInt16 :=
  if bytes.isNull ∧ length ≠ 0 then return 0 else scan crcByte bytes.elems 0 length 0xFFFF

theorem crc16Ccitt_eq {length : ℕ} (h : length ≤ p.length) :
    crc16Ccitt (.data p) length = .ok (Crc16.crc16Ccitt (.data (p.take length))) := by
  have hin : 0 + length ≤ p.length := by omega
  rw [crc16Ccitt, if_neg (by simp), Span.elems_data, scan_eq hin, slice, List.drop_zero]
  rw [Crc16.crc16Ccitt, if_neg (by simp), Span.elems_data]

/-- `get16(bytes + cover) != crc16_ccitt(bytes, cover)`. -/
def crcDiffers (cover : ℕ) (bytes : Span UInt8) : Access Bool :=
  return (← get16 bytes.elems cover) != (← crc16Ccitt bytes cover)

theorem crcDiffers_eq {cover : ℕ} (h : cover + 2 ≤ p.length) : crcDiffers cover (.data p) =
    .ok (Wire.get16 p cover != Crc16.crc16Ccitt (.data (p.take cover))) := by
  have hcover : cover ≤ p.length := by omega
  rw [crcDiffers, Span.elems_data, get16_eq h, crc16Ccitt_eq hcover]
  rfl

/-! ### The shared body -/

/-- The body of the decoders: the pointer, the length and `refuse` are checked, in this order, then
the fields are read, then `valid` is checked. -/
def decodeFixed (size : ℕ) (refuse : Span UInt8 → Access Bool) (read : List UInt8 → Access α)
    (valid : α → Access Bool) (bytes : Span UInt8) (length : ℕ) : Access (Option α) := do
  if ← pure (bytes.isNull || length != size) <||> refuse bytes then return none
  else do
    let value ← read bytes.elems
    if ← valid value then return some value else return none

/-- **What is read has to be in range of an input of the right length only**, if there is as much
memory as the length says. -/
theorem decodeFixed_eq {size length : ℕ} {refuse : Span UInt8 → Access Bool}
    {read : List UInt8 → Access α} {valid : α → Access Bool} (refuse' : List UInt8 → Bool)
    (read' : List UInt8 → α) (valid' : α → Bool)
    (hrefuse : ∀ p, size ≤ p.length → refuse (.data p) = .ok (refuse' p))
    (hread : ∀ p, size ≤ p.length → read p = .ok (read' p))
    (hvalid : ∀ v, valid v = .ok (valid' v)) {bytes : Span UInt8} (hlen : length ≤ bytes.length) :
    decodeFixed size refuse read valid bytes length =
      .ok (if bytes.isNull = true ∨ length ≠ size ∨ refuse' bytes.elems = true then none
        else if valid' (read' bytes.elems) = true then some (read' bytes.elems) else none) := by
  cases bytes with
  | null n => rfl
  | data p =>
    rw [Span.length_data] at hlen
    unfold decodeFixed
    have hguard : orM (pure (Span.isNull (.data p) || length != size)) (refuse (.data p)) =
        .ok (length != size || refuse' p) := by
      refine orM_eq rfl fun hl => hrefuse p ?_
      have hl : length = size := by simpa using hl
      exact hl.ge.trans hlen
    rw [hguard, ok_bind]
    by_cases hl : length = size
    · rw [Span.elems_data, hread p (hl.ge.trans hlen), ok_bind, hvalid, ok_bind]
      cases refuse' p <;> cases valid' (read' p) <;> simp [hl]
    · simp [hl]

/-! ### The handshake -/

/-- The sixteen bytes from `off` on, copied into an authenticator. -/
def getBlock (p : List UInt8) (off : ℕ) : Access Block :=
  fill (List.Vector.replicate 16 0) fun i => readAt p (off + i)

theorem getBlock_eq (h : off + 16 ≤ p.length) :
    getBlock p off = .ok (Handshake.Codecs.getBlock p off) :=
  fill_eq fun i hi => readAt_getD (by omega) 0

/-- The fields of a `Hello`, in the order in which they are read. -/
def readHello (p : List UInt8) : Access Hello := do
  return ⟨← get16 p 0, ← get16 p 2, ← get64 p 4, ← get32 p 12⟩

/-- `decode_hello`. -/
def decodeHello : Span UInt8 → ℕ → Access (Option Hello) :=
  decodeFixed kHelloBytes (crcDiffers 16) readHello fun v => return validHello v

/-- The fields of an `Accept`, in the order in which they are read. -/
def readAccept (p : List UInt8) : Access (Accept Block) := do
  return ⟨← get16 p 0, ← get16 p 2, ← get64 p 4, ← get64 p 12, ← get64 p 20, ← get64 p 28,
    ← getBlock p 36⟩

/-- `decode_accept`. -/
def decodeAccept : Span UInt8 → ℕ → Access (Option (Accept Block)) :=
  decodeFixed kAcceptBytes (crcDiffers 52) readAccept fun v => return validAccept v

/-- The fields of a `Finish`, in the order in which they are read. -/
def readFinish (p : List UInt8) : Access (Finish Block) := do
  return ⟨← get16 p 0, ← get16 p 2, ← get64 p 4, ← get64 p 12, ← getBlock p 20⟩

/-- `decode_finish`. -/
def decodeFinish : Span UInt8 → ℕ → Access (Option (Finish Block)) :=
  decodeFixed kFinishBytes (crcDiffers 36) readFinish fun v => return validFinish v

theorem readHello_eq (h : 16 ≤ p.length) : readHello p = .ok (Handshake.Codecs.readHello p) := by
  unfold readHello
  simp (disch := omega) only [get16_eq, get32_eq, get64_eq, ok_bind, pure_eq_ok]
  rfl

theorem readAccept_eq (h : 52 ≤ p.length) :
    readAccept p = .ok (Handshake.Codecs.readAccept p) := by
  unfold readAccept
  simp (disch := omega) only [get16_eq, get64_eq, getBlock_eq, ok_bind, pure_eq_ok]
  rfl

theorem readFinish_eq (h : 36 ≤ p.length) :
    readFinish p = .ok (Handshake.Codecs.readFinish p) := by
  unfold readFinish
  simp (disch := omega) only [get16_eq, get64_eq, getBlock_eq, ok_bind, pure_eq_ok]
  rfl

theorem inBounds_checked {size cover : ℕ} {read : List UInt8 → Access α} {valid : α → Bool}
    {read' : List UInt8 → α} (hcover : cover + 2 ≤ size)
    (hread : ∀ p, size ≤ p.length → read p = .ok (read' p)) :
    InBounds (decodeFixed size (crcDiffers cover) read fun v => return valid v)
      (Handshake.Codecs.decodeChecked size cover valid read') := by
  intro bytes
  refine (decodeFixed_eq _ read' valid (fun p hl => crcDiffers_eq (by omega)) hread (fun v => rfl)
    le_rfl).trans (congrArg Except.ok ?_)
  simp only [Handshake.Codecs.decodeChecked, bne_iff_ne]

/-- **The decoders of the handshake stay in bounds.** -/
theorem handshake_in_bounds : InBounds decodeHello Handshake.Messages.decodeHello ∧
    InBounds decodeAccept Handshake.Codecs.decodeAccept ∧
    InBounds decodeFinish Handshake.Codecs.decodeFinish := by
  refine ⟨?_, ?_, ?_⟩
  · rw [Handshake.Codecs.decodeHello_eq]
    exact inBounds_checked (by decide) fun p hl => readHello_eq (le_trans (by decide) hl)
  · exact inBounds_checked (by decide) fun p hl => readAccept_eq (le_trans (by decide) hl)
  · exact inBounds_checked (by decide) fun p hl => readFinish_eq (le_trans (by decide) hl)

/-! ### Commands, acknowledgements, subscriptions, requests and heartbeats -/

/-- `valid_command`: the arguments are read once their number has been checked. -/
def validCommand (value : CommandRequest) : Access Bool :=
  if value.requestId = 0 ∨ value.commandId = 0 ∨ value.deadlineMs = 0 ∨
      value.argCount.toNat > kMaxArgs then return false
  else allAt isFinite value.args.toList 0 value.argCount.toNat

theorem validCommand_eq (v : CommandRequest) :
    validCommand v = .ok (Codecs.validCommand v) := by
  have hiff : (v.requestId == 0 || v.commandId == 0 || v.deadlineMs == 0 ||
      decide (v.argCount.toNat > kMaxArgs)) = true ↔ v.requestId = 0 ∨ v.commandId = 0 ∨
        v.deadlineMs = 0 ∨ v.argCount.toNat > kMaxArgs := by
    simp only [Bool.or_eq_true, beq_iff_eq, decide_eq_true_eq, or_assoc]
  unfold validCommand Codecs.validCommand
  by_cases hc : v.requestId = 0 ∨ v.commandId = 0 ∨ v.deadlineMs = 0 ∨
      v.argCount.toNat > kMaxArgs
  · rw [if_pos hc, hiff.mpr hc]
    rfl
  · have hcount : 0 + v.argCount.toNat ≤ v.args.toList.length := by
      have hargs : v.args.toList.length = kMaxArgs := v.args.toList_length
      push Not at hc
      omega
    rw [if_neg hc, Bool.eq_false_iff.mpr (mt hiff.mp hc), allAt_eq hcount, slice, List.drop_zero]
    rfl

/-- The loop of `decode_command` over the arguments. -/
def getFloats (p : List UInt8) (off : ℕ) : Access (List.Vector UInt32 kMaxArgs) :=
  fill (List.Vector.replicate kMaxArgs 0) fun i => get32 p (off + 4 * i)

theorem getFloats_eq (h : off + 28 ≤ p.length) :
    getFloats p off = .ok (Codecs.getFloats p off) :=
  fill_eq fun i hi => get32_eq (by
    have hi : i < 7 := hi
    omega)

/-- The fields of a command, in the order in which they are read. -/
def readCommand (p : List UInt8) : Access CommandRequest := do
  return ⟨← get64 p 0, ← get16 p 8, ← get16 p 10, ← get8 p 12, ← getFloats p 16⟩

/-- `decode_command`. -/
def decodeCommand : Span UInt8 → ℕ → Access (Option CommandRequest) :=
  decodeFixed kCommandBytes
    (fun bytes => nonzeroAt bytes.elems 13 <||> nonzeroAt bytes.elems 14 <||>
      nonzeroAt bytes.elems 15) readCommand validCommand

/-- The fields of an acknowledgement, in the order in which they are read. -/
def readAck (p : List UInt8) : Access CommandAck := do
  return ⟨← get64 p 0, ← get8 p 8, ← get8 p 9, ← get16 p 10, ← get32 p 12⟩

/-- `decode_ack`. -/
def decodeAck : Span UInt8 → ℕ → Access (Option CommandAck) :=
  decodeFixed kAckBytes (fun _ => return false) readAck fun v => return v.requestId != 0

/-- The fields of a subscription, in the order in which they are read. -/
def readSubscription (p : List UInt8) : Access Subscription := do
  return ⟨⟨← get8 p 0⟩, ⟨← get8 p 1⟩, ← get16 p 2, ← get16 p 4, ← get32 p 6⟩

/-- `decode_subscription`. -/
def decodeSubscription : Span UInt8 → ℕ → Access (Option Subscription) :=
  decodeFixed kSubscribeBytes
    (fun bytes => (do return !knownType ⟨← get8 bytes.elems 0⟩) <||>
      (do return (← get8 bytes.elems 1) > Qos.explicit.code))
    readSubscription fun v => return v.sourceId != 0

/-- `decode_unsubscribe`, which is `decode_subscription`. -/
def decodeUnsubscribe : Span UInt8 → ℕ → Access (Option Subscription) := decodeSubscription

/-- The fields of a resync request, in the order in which they are read. -/
def readResync (p : List UInt8) : Access ResyncRequest := do
  return ⟨⟨← get8 p 0⟩, ← get16 p 2, ← get32 p 4⟩

/-- `decode_resync`. -/
def decodeResync : Span UInt8 → ℕ → Access (Option ResyncRequest) :=
  decodeFixed kResyncBytes
    (fun bytes => nonzeroAt bytes.elems 1 <||> (do return !stateType ⟨← get8 bytes.elems 0⟩))
    readResync fun v => return v.sourceId != 0 && v.resourceId != 0

/-- The fields of a heartbeat, in the order in which they are read. -/
def readHeartbeat (p : List UInt8) : Access Heartbeat := do
  return ⟨← get64 p 0, ← get32 p 8, ← get32 p 12⟩

/-- `decode_heartbeat`. -/
def decodeHeartbeat : Span UInt8 → ℕ → Access (Option Heartbeat) :=
  decodeFixed kHeartbeatBytes (fun _ => return false) readHeartbeat fun _ => return true

theorem readCommand_eq (h : kCommandBytes ≤ p.length) :
    readCommand p = .ok (Codecs.readCommand p) := by
  have h : 44 ≤ p.length := h
  unfold readCommand
  simp (disch := omega) only [get8_eq, get16_eq, get64_eq, getFloats_eq, ok_bind, pure_eq_ok]
  rfl

theorem readAck_eq (h : 16 ≤ p.length) : readAck p = .ok (Codecs.readAck p) := by
  unfold readAck
  simp (disch := omega) only [get8_eq, get16_eq, get32_eq, get64_eq, ok_bind, pure_eq_ok]
  rfl

theorem readSubscription_eq (h : 10 ≤ p.length) :
    readSubscription p = .ok (Codecs.readSubscription p) := by
  unfold readSubscription
  simp (disch := omega) only [get8_eq, get16_eq, get32_eq, ok_bind, pure_eq_ok]
  rfl

theorem readResync_eq (h : 8 ≤ p.length) : readResync p = .ok (Codecs.readResync p) := by
  unfold readResync
  simp (disch := omega) only [get8_eq, get16_eq, get32_eq, ok_bind, pure_eq_ok]
  rfl

theorem readHeartbeat_eq (h : 16 ≤ p.length) :
    readHeartbeat p = .ok (Codecs.readHeartbeat p) := by
  unfold readHeartbeat
  simp (disch := omega) only [get32_eq, get64_eq, ok_bind, pure_eq_ok]
  rfl

theorem decodeCommand_inBounds : InBounds decodeCommand Codecs.decodeCommand := by
  intro bytes
  have hreserved : ∀ p : List UInt8, kCommandBytes ≤ p.length →
      (nonzeroAt p 13 <||> nonzeroAt p 14 <||> nonzeroAt p 15) =
        .ok (Wire.get8 p 13 != 0 || (Wire.get8 p 14 != 0 || Wire.get8 p 15 != 0)) := by
    intro p hl
    have hl : 44 ≤ p.length := hl
    exact orM_eq (nonzeroAt_eq (by omega)) fun _ =>
      orM_eq (nonzeroAt_eq (by omega)) fun _ => nonzeroAt_eq (by omega)
  refine (decodeFixed_eq _ _ _ hreserved (fun p hl => readCommand_eq hl) validCommand_eq
    le_rfl).trans (congrArg Except.ok ?_)
  simp only [Codecs.decodeCommand, Bool.or_eq_true, bne_iff_ne]

theorem decodeAck_inBounds : InBounds decodeAck Codecs.decodeAck := by
  intro bytes
  refine (decodeFixed_eq _ _ _ (fun p _ => pure_eq_ok false) (fun p hl => readAck_eq hl)
    (fun v => pure_eq_ok _) le_rfl).trans (congrArg Except.ok ?_)
  simp only [Codecs.decodeAck, Bool.false_eq_true, or_false, bne_iff_ne]

theorem decodeSubscription_inBounds :
    InBounds decodeSubscription Codecs.decodeSubscription := by
  intro bytes
  have hrefuse : ∀ p : List UInt8, kSubscribeBytes ≤ p.length →
      ((do return !knownType ⟨← get8 p 0⟩ : Access Bool) <||>
        (do return (← get8 p 1) > Qos.explicit.code)) =
        .ok (!knownType ⟨Wire.get8 p 0⟩ || decide (Wire.get8 p 1 > Qos.explicit.code)) := by
    intro p hl
    have hl : 10 ≤ p.length := hl
    refine orM_eq ?_ fun _ => ?_
    · rw [get8_eq (by omega), ok_bind, pure_eq_ok]
    · rw [get8_eq (by omega), ok_bind, pure_eq_ok]
  refine (decodeFixed_eq _ _ _ hrefuse (fun p hl => readSubscription_eq hl)
    (fun v => pure_eq_ok _) le_rfl).trans (congrArg Except.ok ?_)
  simp only [Codecs.decodeSubscription, Bool.or_eq_true, decide_eq_true_eq, bne_iff_ne]

theorem decodeResync_inBounds : InBounds decodeResync State.Messages.decodeResync := by
  intro bytes
  have hrefuse : ∀ p : List UInt8, kResyncBytes ≤ p.length →
      (nonzeroAt p 1 <||> (do return !stateType ⟨← get8 p 0⟩)) =
        .ok (Wire.get8 p 1 != 0 || !stateType ⟨Wire.get8 p 0⟩) := by
    intro p hl
    have hl : 8 ≤ p.length := hl
    refine orM_eq (nonzeroAt_eq (by omega)) fun _ => ?_
    rw [get8_eq (by omega), ok_bind, pure_eq_ok]
  refine (decodeFixed_eq _ _ _ hrefuse (fun p hl => readResync_eq hl)
    (fun v => pure_eq_ok _) le_rfl).trans (congrArg Except.ok ?_)
  simp only [State.Messages.decodeResync, Codecs.readResync, Bool.or_eq_true, Bool.and_eq_true,
    bne_iff_ne]

theorem decodeHeartbeat_inBounds : InBounds decodeHeartbeat Codecs.decodeHeartbeat := by
  intro bytes
  refine (decodeFixed_eq _ _ _ (fun p _ => pure_eq_ok false) (fun p hl => readHeartbeat_eq hl)
    (fun v => pure_eq_ok true) le_rfl).trans (congrArg Except.ok ?_)
  simp only [Codecs.decodeHeartbeat, Bool.false_eq_true, or_false, if_true]

/-! ### State messages -/

/-- The fields of a meta, in the order in which they are read. -/
def readStateMeta (p : List UInt8) : Access StateMeta := do
  return ⟨← get32 p 0, ← get32 p 4, ← get32 p 8, ← get16 p 12, ← get8 p 14, ← get8 p 15⟩

/-- `decode_state_meta`. -/
def decodeStateMeta : Span UInt8 → ℕ → Access (Option StateMeta) :=
  decodeFixed 16 (fun _ => return false) readStateMeta fun m =>
    return decide (m.resourceId ≠ 0 ∧ m.generation ≠ 0 ∧ m.sourceId ≠ 0 ∧ m.snapshot ≤ 1 ∧
      m.reserved = 0)

/-- The body of the three decoders, which call `decode_state_meta` for the first sixteen bytes. -/
def decodeState (size : ℕ) (read : StateMeta → List UInt8 → Access α) (valid : α → Bool)
    (bytes : Span UInt8) (length : ℕ) : Access (Option α) := do
  if bytes.isNull ∨ length ≠ size then return none
  else
    match ← decodeStateMeta bytes 16 with
    | none => return none
    | some m => do
      let value ← read m bytes.elems
      if valid value then return some value else return none

/-- `decode_position`. -/
def decodePosition : Span UInt8 → ℕ → Access (Option Position) :=
  decodeState kPositionBytes
    (fun m p => do
      return ⟨m, (← get32 p 16).toInt32, (← get32 p 20).toInt32, (← get32 p 24).toInt32⟩)
    fun v => v.latitudeE7 ≥ -900000000 ∧ v.latitudeE7 ≤ 900000000 ∧
      v.longitudeE7 ≥ -1800000000 ∧ v.longitudeE7 ≤ 1800000000

/-- `decode_attitude`. -/
def decodeAttitude : Span UInt8 → ℕ → Access (Option Attitude) :=
  decodeState kAttitudeBytes
    (fun m p => do
      return ⟨m, (← get32 p 16).toInt32, (← get32 p 20).toInt32, (← get32 p 24).toInt32⟩)
    fun _ => true

/-- `decode_battery`. -/
def decodeBattery : Span UInt8 → ℕ → Access (Option Battery) :=
  decodeState kBatteryBytes
    (fun m p => do return ⟨m, ← get16 p 16, ← get16 p 18, ← get16 p 20, ← get16 p 22⟩)
    fun v => v.remainingPermille ≤ 1000 ∧ v.reserved = 0

theorem readStateMeta_eq (h : 16 ≤ p.length) :
    readStateMeta p = .ok (State.Messages.readStateMeta (p.take 16)) := by
  have htake : State.Messages.readStateMeta (p.take 16) = State.Messages.readStateMeta p := by
    simp only [State.Messages.readStateMeta, Wire.get8, Wire.get16, Wire.get32]
    repeat rw [getLE_take (by decide)]
  rw [htake]
  unfold readStateMeta
  simp (disch := omega) only [get8_eq, get16_eq, get32_eq, ok_bind, pure_eq_ok]
  rfl

theorem decodeStateMeta_eq (h : 16 ≤ p.length) : decodeStateMeta (.data p) 16 =
    .ok (State.Messages.decodeStateMeta (.data (p.take 16))) := by
  refine (decodeFixed_eq _ _ _ (fun p _ => pure_eq_ok false) (fun p hl => readStateMeta_eq hl)
    (fun v => pure_eq_ok _) h).trans (congrArg Except.ok ?_)
  have hlen : (p.take 16).length = 16 := by simpa using h
  simp only [decide_eq_true_eq]
  simp only [State.Messages.decodeStateMeta, Span.isNull_data, Span.length_data, Span.elems_data,
    hlen, Bool.false_eq_true, or_false]
  rfl

theorem inBounds_state {size : ℕ} {read : StateMeta → List UInt8 → Access α} {valid : α → Bool}
    {decode : Decoder α} (read' : StateMeta → List UInt8 → α) (hsize : 16 ≤ size)
    (hread : ∀ m p, size ≤ p.length → read m p = .ok (read' m p))
    (hdecode : ∀ bytes, decode bytes = if bytes.isNull = true ∨ bytes.length ≠ size then none else
      (State.Messages.decodeStateMeta (.data (bytes.elems.take 16))).bind fun m =>
        if valid (read' m bytes.elems) = true then some (read' m bytes.elems) else none) :
    InBounds (decodeState size read valid) decode := by
  intro bytes
  rw [hdecode]
  unfold decodeState
  by_cases hc : bytes.isNull = true ∨ bytes.length ≠ size
  · rw [if_pos hc, if_pos hc, pure_eq_ok]
  · rw [if_neg hc, if_neg hc]
    cases bytes with
    | null n => simp at hc
    | data p =>
      have hl : p.length = size := by simpa using hc
      rw [decodeStateMeta_eq (hsize.trans hl.ge), ok_bind, Span.elems_data]
      cases State.Messages.decodeStateMeta (.data (p.take 16)) with
      | none => rfl
      | some m =>
        dsimp only
        rw [hread m p hl.ge, ok_bind, Option.bind_some]
        split_ifs <;> rfl

theorem decodeStateMeta_inBounds : InBounds decodeStateMeta State.Messages.decodeStateMeta := by
  intro bytes
  by_cases hl : bytes.length = 16
  · cases bytes with
    | null n => rfl
    | data p =>
      rw [Span.length_data] at hl
      rw [Span.length_data, hl, decodeStateMeta_eq hl.ge, List.take_of_length_le hl.le]
  · refine (decodeFixed_eq _ _ _ (fun p _ => pure_eq_ok false) (fun p hl => readStateMeta_eq hl)
      (fun v => pure_eq_ok _) le_rfl).trans (congrArg Except.ok ?_)
    rw [if_pos (Or.inr (Or.inl hl)), State.Messages.decodeStateMeta, if_pos (Or.inr hl)]

theorem decodePosition_inBounds : InBounds decodePosition State.Messages.decodePosition := by
  refine inBounds_state (State.Messages.readValue .position) (by decide) (fun m p hl => ?_)
    fun bytes => ?_
  · have hl : 28 ≤ p.length := hl
    simp (disch := omega) only [get32_eq, ok_bind, pure_eq_ok]
    rfl
  · simp only [decide_eq_true_eq]
    rfl

theorem decodeAttitude_inBounds : InBounds decodeAttitude State.Messages.decodeAttitude := by
  refine inBounds_state (State.Messages.readValue .attitude) (by decide) (fun m p hl => ?_)
    fun bytes => ?_
  · have hl : 28 ≤ p.length := hl
    simp (disch := omega) only [get32_eq, ok_bind, pure_eq_ok]
    rfl
  · rfl

theorem decodeBattery_inBounds : InBounds decodeBattery State.Messages.decodeBattery := by
  refine inBounds_state (State.Messages.readValue .battery) (by decide) (fun m p hl => ?_)
    fun bytes => ?_
  · have hl : 24 ≤ p.length := hl
    simp (disch := omega) only [get16_eq, ok_bind, pure_eq_ok]
    rfl
  · simp only [decide_eq_true_eq]
    rfl

/-- **The typed decoders stay in bounds.** -/
theorem typed_in_bounds : InBounds decodeCommand Codecs.decodeCommand ∧
    InBounds decodeAck Codecs.decodeAck ∧
    InBounds decodeSubscription Codecs.decodeSubscription ∧
    InBounds decodeUnsubscribe Codecs.decodeUnsubscribe ∧
    InBounds decodeResync State.Messages.decodeResync ∧
    InBounds decodeStateMeta State.Messages.decodeStateMeta ∧
    InBounds decodePosition State.Messages.decodePosition ∧
    InBounds decodeAttitude State.Messages.decodeAttitude ∧
    InBounds decodeBattery State.Messages.decodeBattery ∧
    InBounds decodeHeartbeat Codecs.decodeHeartbeat :=
  ⟨decodeCommand_inBounds, decodeAck_inBounds, decodeSubscription_inBounds,
    decodeSubscription_inBounds, decodeResync_inBounds, decodeStateMeta_inBounds,
    decodePosition_inBounds, decodeAttitude_inBounds, decodeBattery_inBounds,
    decodeHeartbeat_inBounds⟩

/-- A length that says more than there is makes the reads fault. -/
example : decodeAck (.data [1, 0, 0]) 16 = .error (.read 3 3) := by decide

end NewMavlink.Bounds.Decoders
