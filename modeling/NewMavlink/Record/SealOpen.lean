import NewMavlink.Crypto
import NewMavlink.Record.Header
import NewMavlink.Record.Replay

/-! # Sealing and opening records

The class `Session` of `record.cpp`: the keys of one side, the replay window of what it receives
and the highest sequence it has sealed. Every operation returns its result and the session after
the call, on failure too; what a failed call leaves in its output arguments is not modelled.

* `seal_cases`, `seal_eq_ok`: a seal succeeds exactly if the session may seal this header and
  payload (`Sealable`) and the AEAD encrypts; the record is the header's forty bytes and the
  ciphertext, whatever the output array held before. A seal that fails changes nothing.
* `openUncommitted_eq_ok`: a record opens exactly if its header is admitted (`Openable`) and the
  AEAD decrypts.
* `rekey_cases`, `commitReplay_fst`, `commitReplay_snd`: what the other two can do. -/

namespace NewMavlink.Record.SealOpen

open NewMavlink.Lib.Buffer NewMavlink.Wire NewMavlink.Crc16 NewMavlink.Crypto
open NewMavlink.Record.Header NewMavlink.Record.Replay

/-- The last sequence, which is never sealed. -/
abbrev kUint64Max : UInt64 := 0xFFFFFFFFFFFFFFFF

/-- `RecordError`; `None` is the success of an `Except`. -/
inductive RecordError where
  | invalidHeader
  | invalidKeys
  | invalidLength
  | authenticationFailed
  | replay
  | expired
  | sequenceExhausted
  | invalidPayload
  | timeout
deriving DecidableEq, Repr

/-- `OpenRecord`: the payload stands in the first `length` bytes of its array. -/
structure OpenRecord where
  header : RecordHeader := {}
  payload : List.Vector UInt8 kMaxPayloadBytes := List.Vector.replicate _ 0
  length : ℕ := 0

/-- The payload of an opened record. -/
def OpenRecord.bytes (r : OpenRecord) : List UInt8 := r.payload.toList.take r.length

/-- An `OpenRecord`, with this header and with the plaintext stored at the start of its payload. -/
def openRecord (h : RecordHeader) (plaintext : List UInt8) : OpenRecord :=
  ⟨h, ⟨blit (List.replicate kMaxPayloadBytes 0) 0 plaintext, by simp⟩, plaintext.length⟩

/-- The array that a record is sealed into. -/
abbrev RecordBuffer : Type := List.Vector UInt8 kMaxRecordBytes

/-- The keys, the window of what was received, and the highest sequence that was sealed. -/
structure Session where
  keys : DirectionalKeys Block
  replay : ReplayWindow := {}
  sendHighWater : UInt64 := 0
  sendInitialized : Bool := false
deriving DecidableEq

/-- `valid_keys`. -/
def validKeys (k : DirectionalKeys Block) : Bool :=
  k.session.value ≠ 0 && k.session.epoch ≠ 0 && k.localId ≠ 0 && k.peerId ≠ 0 &&
    k.localId ≠ k.peerId && k.tx.toList.any (· ≠ 0) && k.rx.toList.any (· ≠ 0) && k.tx ≠ k.rx

/-- The header that `seal` sends for `input`, and the output array with the header written into it:
once without the CRC, which is then computed from what was written, and once with it. -/
def writeHeader (input : RecordHeader) (length : ℕ) (out : List UInt8) :
    RecordHeader × List UInt8 :=
  let h := { input with
    version := kVersion
    payloadLen := UInt16.ofNat length
    headerCrc16 := crc16Ccitt (.null 0) }
  let out := encodeHeader h out false
  let h := { h with headerCrc16 := crc16Ccitt (.data (out.take 36)) }
  (h, encodeHeader h out true)

namespace Session

/-- `Session::seal`: the bytes of the record. -/
def «seal» (P : Aead) (s : Session) (input : RecordHeader) (plaintext : Span UInt8)
    (output : RecordBuffer) : Except RecordError (List UInt8) × Session :=
  if !validKeys s.keys then (.error .invalidKeys, s)
  else if !knownType input.type ∨ input.flags > kKnownFlags ∨
      input.qos.code > Qos.explicit.code ∨ input.sourceId ≠ s.keys.localId ∨
      input.destinationId ≠ s.keys.peerId ∨ input.sessionId ≠ s.keys.session.value ∨
      input.epoch ≠ s.keys.session.epoch ∨ plaintext.length > kMaxPayloadBytes ∨
      (plaintext.isNull ∧ plaintext.length ≠ 0) ∨ input.sequence = kUint64Max ∨
      (s.sendInitialized ∧ input.sequence ≤ s.sendHighWater) then
    (.error .invalidHeader, s)
  else
    let (h, out) := writeHeader input plaintext.length output.toList
    let nonce := makeNonce s.keys.session h.sequence
    match aeadSeal P s.keys.tx nonce (.data (out.take kHeaderBytes)) plaintext
        (out.length - kHeaderBytes) with
    | none => (.error .authenticationFailed, s)
    | some cipher =>
      (.ok ((blit out kHeaderBytes cipher).take (kHeaderBytes + cipher.length)),
        { s with sendHighWater := h.sequence, sendInitialized := true })

/-- `Session::open_uncommitted`. -/
def openUncommitted (P : Aead) (s : Session) (record : Span UInt8) (nowMs : UInt32) :
    Except RecordError OpenRecord :=
  if !validKeys s.keys then .error .invalidKeys
  else if record.isNull ∨ record.length < kHeaderBytes + kTagBytes ∨
      record.length > kMaxRecordBytes then .error .invalidLength
  else
    match decodeHeader record with
    | none => .error .invalidHeader
    | some h =>
      if h.version ≠ kVersion ∨ !knownType h.type ∨ h.flags > kKnownFlags ∨
          h.qos.code > Qos.explicit.code ∨ h.sourceId ≠ s.keys.peerId ∨
          h.destinationId ≠ s.keys.localId ∨ h.sessionId ≠ s.keys.session.value ∨
          h.epoch ≠ s.keys.session.epoch ∨ h.payloadLen.toNat > kMaxPayloadBytes ∨
          record.length ≠ kHeaderBytes + h.payloadLen.toNat + kTagBytes then
        .error .invalidHeader
      else if h.deadlineMs ≠ 0 ∧ nowMs.toNat > h.deadlineMs.toNat then .error .expired
      else if !s.replay.accepted h.sequence then .error .replay
      else
        let nonce := makeNonce s.keys.session h.sequence
        match aeadOpen P s.keys.rx nonce (.data (record.elems.take kHeaderBytes))
            (.data (record.elems.drop kHeaderBytes)) kMaxPayloadBytes with
        | none => .error .authenticationFailed
        | some plaintext =>
          .ok (openRecord h plaintext)

/-- `Session::commit_replay`. -/
def commitReplay (s : Session) (record : OpenRecord) : Except RecordError Unit × Session :=
  let (ok, replay) := s.replay.commit record.header.sequence
  (if ok then .ok () else .error .replay, { s with replay := replay })

/-- `Session::rekey`. -/
def rekey (s : Session) (nextKeys : DirectionalKeys Block) : Except RecordError Unit × Session :=
  if !validKeys nextKeys ∨ nextKeys.localId ≠ s.keys.localId ∨ nextKeys.peerId ≠ s.keys.peerId ∨
      nextKeys.session.value ≠ s.keys.session.value ∨
      nextKeys.session.epoch ≤ s.keys.session.epoch then
    (.error .invalidHeader, s)
  else (.ok (), ⟨nextKeys, s.replay.reset, 0, false⟩)

end Session

@[simp] theorem header_openRecord (h : RecordHeader) (plaintext : List UInt8) :
    (openRecord h plaintext).header = h := rfl

@[simp] theorem length_openRecord (h : RecordHeader) (plaintext : List UInt8) :
    (openRecord h plaintext).length = plaintext.length := rfl

theorem bytes_openRecord (h : RecordHeader) {plaintext : List UInt8}
    (hl : plaintext.length ≤ kMaxPayloadBytes) : (openRecord h plaintext).bytes = plaintext :=
  take_blit_zero (by simpa using hl)

/-! ### Sealing -/

/-- **What a session asks of a header and a payload before it seals them.** -/
structure Sealable (s : Session) (input : RecordHeader) (plaintext : Span UInt8) : Prop where
  keys : validKeys s.keys = true
  type : knownType input.type = true
  flags : input.flags ≤ kKnownFlags
  qos : input.qos.code ≤ Qos.explicit.code
  source : input.sourceId = s.keys.localId
  destination : input.destinationId = s.keys.peerId
  session : input.sessionId = s.keys.session.value
  epoch : input.epoch = s.keys.session.epoch
  length : plaintext.length ≤ kMaxPayloadBytes
  notNull : ¬ (plaintext.isNull = true ∧ plaintext.length ≠ 0)
  sequence : input.sequence ≠ kUint64Max
  fresh : s.sendInitialized = true → s.sendHighWater < input.sequence

/-- The header that `seal` writes. -/
def sealedHeader (input : RecordHeader) (length : ℕ) : RecordHeader :=
  let h := { input with version := kVersion, payloadLen := UInt16.ofNat length }
  { h with headerCrc16 := headerCrc h }

theorem headerCrc_sealedHeader (input : RecordHeader) (length : ℕ) :
    headerCrc (sealedHeader input length) = (sealedHeader input length).headerCrc16 := by
  simp only [sealedHeader, headerCrc, headerPrefix]

@[simp] theorem length_writeHeader (input : RecordHeader) (length : ℕ) (out : List UInt8) :
    (writeHeader input length out).2.length = out.length := by
  simp [writeHeader]

theorem writeHeader_fst (input : RecordHeader) (length : ℕ) {out : List UInt8}
    (hl : 40 ≤ out.length) : (writeHeader input length out).1 = sealedHeader input length := by
  simp only [writeHeader, take_encodeHeader_prefix _ false hl, sealedHeader, headerCrc,
    headerPrefix]

theorem take_writeHeader (input : RecordHeader) (length : ℕ) {out : List UInt8}
    (hl : 40 ≤ out.length) :
    (writeHeader input length out).2.take 40 = headerBytes (sealedHeader input length) := by
  rw [← writeHeader_fst input length hl]
  simp only [writeHeader]
  rw [take_encodeHeader _ (by simpa using hl)]

/-- The session after a seal. -/
def Session.sent (s : Session) (sequence : UInt64) : Session :=
  { s with sendHighWater := sequence, sendInitialized := true }

/-- The AEAD call of a seal. -/
def sealCipher (P : Aead) (s : Session) (input : RecordHeader) (plaintext : Span UInt8) :
    Option (List UInt8) :=
  aeadSeal P s.keys.tx (makeNonce s.keys.session input.sequence)
    (.data (headerBytes (sealedHeader input plaintext.length))) plaintext
    (kMaxRecordBytes - kHeaderBytes)

variable {P : Aead} {s s' : Session} {input : RecordHeader} {plaintext : Span UInt8}
  {output : RecordBuffer} {record : List UInt8} {e : RecordError}

/-- The checks of `seal`, in its words. -/
theorem sealable_iff : Sealable s input plaintext ↔ validKeys s.keys = true ∧
    ¬ (!knownType input.type ∨ input.flags > kKnownFlags ∨ input.qos.code > Qos.explicit.code ∨
      input.sourceId ≠ s.keys.localId ∨ input.destinationId ≠ s.keys.peerId ∨
      input.sessionId ≠ s.keys.session.value ∨ input.epoch ≠ s.keys.session.epoch ∨
      plaintext.length > kMaxPayloadBytes ∨ (plaintext.isNull ∧ plaintext.length ≠ 0) ∨
      input.sequence = kUint64Max ∨ (s.sendInitialized ∧ input.sequence ≤ s.sendHighWater)) := by
  constructor
  · intro h
    refine ⟨h.keys, ?_⟩
    simp only [not_or]
    exact ⟨by simp [h.type], UInt8.not_lt.mpr h.flags, UInt8.not_lt.mpr h.qos, not_not.mpr h.source,
      not_not.mpr h.destination, not_not.mpr h.session, not_not.mpr h.epoch, not_lt.mpr h.length,
      h.notNull, h.sequence, fun hf => UInt64.not_le.mpr (h.fresh hf.1) hf.2⟩
  · rintro ⟨hk, hc⟩
    simp only [not_or, Bool.not_eq_true, Bool.not_eq_false', gt_iff_lt, UInt8.not_lt,
      Nat.not_lt, not_not, not_and, UInt64.not_le] at hc
    obtain ⟨h1, h2, h3, h4, h5, h6, h7, h8, h9, h10, h11⟩ := hc
    exact ⟨hk, h1, h2, h3, h4, h5, h6, h7, h8, by simpa using h9, h10, h11⟩

theorem seal_of_not_sealable (h : ¬ Sealable s input plaintext) :
    ∃ e, s.seal P input plaintext output = (.error e, s) := by
  unfold Session.seal
  split_ifs with hk hc
  · exact ⟨_, rfl⟩
  · exact ⟨_, rfl⟩
  · exact absurd (sealable_iff.mpr ⟨by simpa using hk, hc⟩) h

/-- A session that may seal does what the AEAD does. -/
theorem seal_of_sealable (h : Sealable s input plaintext) :
    s.seal P input plaintext output = match sealCipher P s input plaintext with
      | none => (.error .authenticationFailed, s)
      | some cipher => (.ok (headerBytes (sealedHeader input plaintext.length) ++ cipher),
          s.sent input.sequence) := by
  have hout : 40 ≤ output.toList.length := by
    rw [List.Vector.toList_length]
    decide
  have hseq : (sealedHeader input plaintext.length).sequence = input.sequence := rfl
  unfold Session.seal
  rw [if_neg (by simp [h.keys]), if_neg (sealable_iff.mp h).2]
  dsimp only
  rw [writeHeader_fst _ _ hout, take_writeHeader _ _ hout, length_writeHeader,
    List.Vector.toList_length, hseq, ← sealCipher]
  cases hc : sealCipher P s input plaintext with
  | none => rfl
  | some cipher =>
    obtain ⟨-, -, -, hp, -, hl⟩ := aeadSeal_eq_some.mp hc
    dsimp only
    rw [take_blit, take_writeHeader _ _ hout, Session.sent]
    rw [length_writeHeader, List.Vector.toList_length, kMaxRecordBytes]
    omega

/-- **What a seal can do**: refuse and change nothing, or send a record. -/
theorem seal_cases (P : Aead) (s : Session) (input : RecordHeader) (plaintext : Span UInt8)
    (output : RecordBuffer) :
    (∃ e, s.seal P input plaintext output = (.error e, s)) ∨
      ∃ cipher, Sealable s input plaintext ∧ sealCipher P s input plaintext = some cipher ∧
        s.seal P input plaintext output =
          (.ok (headerBytes (sealedHeader input plaintext.length) ++ cipher),
            s.sent input.sequence) := by
  by_cases h : Sealable s input plaintext
  · rw [seal_of_sealable h]
    cases hc : sealCipher P s input plaintext with
    | none => exact Or.inl ⟨_, rfl⟩
    | some cipher => exact Or.inr ⟨cipher, h, rfl, rfl⟩
  · exact Or.inl (seal_of_not_sealable h)

/-- **When a seal succeeds, and what it returns.** -/
theorem seal_eq_ok : s.seal P input plaintext output = (.ok record, s') ↔
    Sealable s input plaintext ∧ ∃ cipher, sealCipher P s input plaintext = some cipher ∧
      record = headerBytes (sealedHeader input plaintext.length) ++ cipher ∧
      s' = s.sent input.sequence := by
  constructor
  · intro h
    rcases seal_cases P s input plaintext output with ⟨e, he⟩ | ⟨cipher, hs, hc, he⟩
    · simp [he] at h
    · simp only [he, Prod.mk.injEq, Except.ok.injEq] at h
      exact ⟨hs, cipher, hc, h.1.symm, h.2.symm⟩
  · rintro ⟨hs, cipher, hc, rfl, rfl⟩
    rw [seal_of_sealable hs, hc]

/-! ### Opening -/

/-- **What a session asks of the header of a record** of `length` bytes before it decrypts it. -/
structure Openable (s : Session) (length : ℕ) (nowMs : UInt32) (h : RecordHeader) : Prop where
  keys : validKeys s.keys = true
  version : h.version = kVersion
  type : knownType h.type = true
  flags : h.flags ≤ kKnownFlags
  qos : h.qos.code ≤ Qos.explicit.code
  source : h.sourceId = s.keys.peerId
  destination : h.destinationId = s.keys.localId
  session : h.sessionId = s.keys.session.value
  epoch : h.epoch = s.keys.session.epoch
  payload : h.payloadLen.toNat ≤ kMaxPayloadBytes
  length : length = kHeaderBytes + h.payloadLen.toNat + kTagBytes
  deadline : h.deadlineMs = 0 ∨ nowMs.toNat ≤ h.deadlineMs.toNat
  replay : s.replay.accepted h.sequence = true

/-- The AEAD call of an open. -/
def openPlaintext (P : Aead) (s : Session) (record : List UInt8) (h : RecordHeader) :
    Option (List UInt8) :=
  aeadOpen P s.keys.rx (makeNonce s.keys.session h.sequence) (.data (record.take kHeaderBytes))
    (.data (record.drop kHeaderBytes)) kMaxPayloadBytes

variable {nowMs : UInt32} {r : OpenRecord} {input' : Span UInt8} {length : ℕ} {h : RecordHeader}

/-- The checks of `open_uncommitted` behind the decoding of the header, in its words. -/
theorem openable_iff : Openable s length nowMs h ↔ validKeys s.keys = true ∧
    ¬ (h.version ≠ kVersion ∨ !knownType h.type ∨ h.flags > kKnownFlags ∨
      h.qos.code > Qos.explicit.code ∨ h.sourceId ≠ s.keys.peerId ∨
      h.destinationId ≠ s.keys.localId ∨ h.sessionId ≠ s.keys.session.value ∨
      h.epoch ≠ s.keys.session.epoch ∨ h.payloadLen.toNat > kMaxPayloadBytes ∨
      length ≠ kHeaderBytes + h.payloadLen.toNat + kTagBytes) ∧
    ¬ (h.deadlineMs ≠ 0 ∧ nowMs.toNat > h.deadlineMs.toNat) ∧
    ¬ (!s.replay.accepted h.sequence) := by
  constructor
  · intro ho
    refine ⟨ho.keys, ?_, ?_, by simp [ho.replay]⟩
    · simp only [not_or, gt_iff_lt, UInt8.not_lt, not_lt, not_not]
      exact ⟨ho.version, by simp [ho.type], ho.flags, ho.qos, ho.source, ho.destination,
        ho.session, ho.epoch, ho.payload, ho.length⟩
    · rw [not_and, not_lt]
      exact fun hne => ho.deadline.resolve_left hne
  · rintro ⟨hk, hh, he, hr⟩
    simp only [not_or, Bool.not_eq_true, Bool.not_eq_false', gt_iff_lt, UInt8.not_lt, not_lt,
      not_not, not_and_or] at hh he hr
    obtain ⟨h1, h2, h3, h4, h5, h6, h7, h8, h9, h10⟩ := hh
    exact ⟨hk, h1, h2, h3, h4, h5, h6, h7, h8, h9, h10, he, hr⟩

/-- **When an open succeeds, and what it returns.** -/
theorem openUncommitted_eq_ok : s.openUncommitted P input' nowMs = .ok r ↔
    ∃ record h plaintext, input' = .data record ∧ decodeHeader input' = some h ∧
      Openable s record.length nowMs h ∧ openPlaintext P s record h = some plaintext ∧
      r = openRecord h plaintext := by
  constructor
  · intro ho
    unfold Session.openUncommitted at ho
    split_ifs at ho with hk hl
    cases hd : decodeHeader input' with
    | none => simp [hd] at ho
    | some h =>
      rw [hd] at ho
      dsimp only at ho
      split_ifs at ho with hh he hr
      cases input' with
      | null n => simp at hl
      | data record =>
        rw [Span.elems_data, ← openPlaintext] at ho
        cases hp : openPlaintext P s record h with
        | none => simp [hp] at ho
        | some plaintext =>
          rw [hp] at ho
          exact ⟨record, h, plaintext, rfl, rfl, openable_iff.mpr ⟨by simpa using hk, hh, he, hr⟩,
            hp, (Except.ok.inj ho).symm⟩
  · rintro ⟨record, h, plaintext, rfl, hd, ho, hp, rfl⟩
    have hlen := ho.length
    have hpay := ho.payload
    obtain ⟨hk, hh, he, hr⟩ := openable_iff.mp ho
    unfold Session.openUncommitted
    rw [if_neg (by simp [hk]), if_neg, hd]
    · dsimp only
      rw [Span.length_data, if_neg hh, if_neg he, if_neg hr, Span.elems_data, ← openPlaintext, hp]
    · simp only [Span.isNull_data, Span.length_data, Bool.false_eq_true, false_or, not_or, not_lt]
      unfold kMaxRecordBytes
      omega

/-- A timeout is an error of the socket, not of a session. -/
theorem openUncommitted_ne_timeout (P : Aead) (s : Session) (record : Span UInt8)
    (nowMs : UInt32) : s.openUncommitted P record nowMs ≠ .error .timeout := by
  unfold Session.openUncommitted
  split_ifs
  · simp
  · simp
  · cases decodeHeader record with
    | none => simp
    | some h =>
      dsimp only
      split_ifs
      · simp
      · simp
      · simp
      · split <;> simp

theorem epoch_of_open (h : s.openUncommitted P input' nowMs = .ok r) :
    r.header.epoch = s.keys.session.epoch := by
  obtain ⟨record, header, plaintext, -, -, ho, -, rfl⟩ := openUncommitted_eq_ok.mp h
  exact ho.epoch

theorem accepted_of_open (h : s.openUncommitted P input' nowMs = .ok r) :
    s.replay.accepted r.header.sequence = true := by
  obtain ⟨record, header, plaintext, -, -, ho, -, rfl⟩ := openUncommitted_eq_ok.mp h
  exact ho.replay

/-- What a session opens, it has authenticated: the payload is what the AEAD call gave. -/
theorem authentic_of_open {record : List UInt8}
    (h : s.openUncommitted P (.data record) nowMs = .ok r) :
    openPlaintext P s record r.header = some r.bytes := by
  obtain ⟨record', header, plaintext, hrecord, -, -, hplain, rfl⟩ := openUncommitted_eq_ok.mp h
  obtain rfl := Span.data.inj hrecord
  obtain ⟨-, -, hroom, -, -, -, hlength⟩ := aeadOpen_eq_some.mp hplain
  rwa [bytes_openRecord _ (hlength.trans_le hroom)]

/-! ### Commits and rekeys -/

theorem commitReplay_fst (s : Session) (r : OpenRecord) :
    (s.commitReplay r).1 =
      if s.replay.accepted r.header.sequence then .ok () else .error .replay := by
  rw [← ReplayWindow.commit_fst]
  rfl

theorem commitReplay_snd (s : Session) (r : OpenRecord) :
    (s.commitReplay r).2 = { s with replay := (s.replay.commit r.header.sequence).2 } := rfl

/-- **A record that has just been opened is committed.** -/
theorem commitReplay_of_open (h : s.openUncommitted P input' nowMs = .ok r) :
    s.commitReplay r =
      (.ok (), { s with replay := (s.replay.commit r.header.sequence).2 }) := by
  refine Prod.ext ?_ (commitReplay_snd _ _)
  rw [commitReplay_fst, if_pos (accepted_of_open h)]

/-- **What a session asks of the next keys.** -/
structure Rekeyable (s : Session) (nextKeys : DirectionalKeys Block) : Prop where
  keys : validKeys nextKeys = true
  localId : nextKeys.localId = s.keys.localId
  peerId : nextKeys.peerId = s.keys.peerId
  session : nextKeys.session.value = s.keys.session.value
  epoch : s.keys.session.epoch < nextKeys.session.epoch

/-- **What a rekey can do**: refuse and change nothing, or start afresh with the next keys. -/
theorem rekey_cases (s : Session) (nextKeys : DirectionalKeys Block) :
    s.rekey nextKeys = (.error .invalidHeader, s) ∨
      (Rekeyable s nextKeys ∧ s.rekey nextKeys = (.ok (), { keys := nextKeys })) := by
  unfold Session.rekey
  split_ifs with hc
  · exact Or.inl rfl
  · simp only [not_or, Bool.not_eq_true, Bool.not_eq_false', not_not, UInt64.not_le] at hc
    obtain ⟨h1, h2, h3, h4, h5⟩ := hc
    exact Or.inr ⟨⟨h1, h2, h3, h4, h5⟩, rfl⟩

/-! ### Concrete sessions

The ids, the session value and the header of `security_test.cpp`, with keys of one repeated byte. -/

/-- The keys of id 1, whose peer is id 2. -/
def testKeys (epoch : UInt64) (tx rx : UInt8) : DirectionalKeys Block :=
  ⟨⟨77, epoch⟩, 1, 2, List.Vector.replicate 16 tx, List.Vector.replicate 16 rx⟩

/-- The header of a command from 1 to 2. -/
def testHeader (epoch sequence : UInt64) : RecordHeader where
  type := .commandRequest
  sourceId := 1
  destinationId := 2
  sessionId := 77
  epoch := epoch
  sequence := sequence

/-- `secret`. -/
def testPlain : List UInt8 := [0x73, 0x65, 0x63, 0x72, 0x65, 0x74]

/-- The record that `paddingAead` makes of it. -/
def testRecord (epoch sequence : UInt64) : List UInt8 :=
  headerBytes (sealedHeader (testHeader epoch sequence) 6) ++
    (testPlain ++ List.replicate kTagBytes 0)

theorem length_testRecord (epoch sequence : UInt64) : (testRecord epoch sequence).length = 62 := by
  rw [testRecord, List.length_append, length_headerBytes]
  rfl

theorem seal_test {epoch sequence : UInt64} (output : RecordBuffer)
    (h : Sealable s (testHeader epoch sequence) (.data testPlain)) :
    s.seal paddingAead (testHeader epoch sequence) (.data testPlain) output =
      (.ok (testRecord epoch sequence), s.sent sequence) :=
  seal_eq_ok.mpr ⟨h, _, aeadSeal_paddingAead rfl rfl (by decide) (by decide), rfl, rfl⟩

end NewMavlink.Record.SealOpen
