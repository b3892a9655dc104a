import NewMavlink.Bounds.Decoders
import NewMavlink.Record.RoundTrip

/-! # Records, index by index

`Session::seal` and `Session::open_uncommitted` as they index the record, the payload and the nonce,
with what they leave in their output arguments when they fail.

The AEAD is a call into another library. It is given the bytes behind its pointers, and answers a
return code, the length that it reports and the bytes that it has stored, on failure too
(`CallResult`). What is assumed of it is how many bytes it stores (`AeadCalls.Documented`); the code
compares the reported length with that number itself.

* `aeadSeal_stores`, `aeadOpen_stores`: the two wrappers store no more than their capacity.
* `open_in_bounds`, `seal_in_bounds`: no index is out of range, and the results are those of
  `Session`.
* `parsers_in_bounds`: the same for every parser of untrusted bytes. -/

namespace NewMavlink.Bounds.Records

open NewMavlink.Lib.Buffer NewMavlink.Lib.Indexing NewMavlink.Bounds.Decoders
open NewMavlink.Wire (Block SessionId RecordHeader Qos knownType kVersion kKnownFlags kHeaderBytes
  kTagBytes kMaxPayloadBytes kMaxRecordBytes)
open NewMavlink.Crypto (Aead)
open NewMavlink.Record.Header (readHeader)
open NewMavlink.Record.SealOpen (Session OpenRecord RecordBuffer RecordError Sealable sealable_iff
  validKeys kUint64Max)

/-! ### The calls of the AEAD -/

/-- What a call answers: whether its return code is zero, the length that it reports, and the bytes
that it has stored behind its output pointer. -/
structure CallResult where
  ok : Bool
  length : ℕ
  stored : List UInt8

/-- The output of a call that succeeded and reports the length of what it has stored. -/
def CallResult.output (r : CallResult) : Option (List UInt8) :=
  if r.ok ∧ r.length = r.stored.length then some r.stored else none

/-- `crypto_aead_encrypt` and `crypto_aead_decrypt`. -/
structure AeadCalls where
  encrypt (plaintext aad : List UInt8) (nonce key : Block) : CallResult
  decrypt (ciphertext aad : List UInt8) (nonce key : Block) : CallResult

namespace AeadCalls

/-- **How many bytes the calls store**, whatever they return. -/
structure Documented (A : AeadCalls) : Prop where
  encrypt : ∀ p aad nonce key, (A.encrypt p aad nonce key).stored.length = p.length + kTagBytes
  decrypt : ∀ c aad nonce key, kTagBytes ≤ c.length →
    (A.decrypt c aad nonce key).stored.length = c.length - kTagBytes

/-- The calls as functions of their inputs. -/
def aead (A : AeadCalls) : Aead where
  encrypt p aad nonce key := (A.encrypt p aad nonce key).output
  decrypt c aad nonce key := (A.decrypt c aad nonce key).output

end AeadCalls

section Wrappers

variable {n : ℕ} (A : AeadCalls) (key nonce : Block) (aad : Span UInt8) (aadLength : ℕ)
  (out : List.Vector UInt8 n) (off capacity : ℕ)

/-- The end of both wrappers: the call has stored its bytes, its return code and the length that it
reports are checked. The length is `none` on failure, where the source has 0. -/
def finishCall (r : CallResult) (expected : ℕ) : Access (Option ℕ × List.Vector UInt8 n) := do
  let out ← writeBlock out off r.stored
  if !r.ok ∨ r.length ≠ expected then return (none, out) else return (some r.length, out)

/-- `aead_seal`, into `out` from position `off` on. -/
def aeadSeal (plaintext : Span UInt8) (plaintextLength : ℕ) :
    Access (Option ℕ × List.Vector UInt8 n) :=
  if capacity < plaintextLength + kTagBytes ∨ (aad.isNull ∧ aadLength ≠ 0) ∨
      (plaintext.isNull ∧ plaintextLength ≠ 0) ∨ plaintextLength > kMaxPayloadBytes then
    return (none, out)
  else do
    let p ← readBlock plaintext.elems 0 plaintextLength
    let ad ← readBlock aad.elems 0 aadLength
    finishCall out off (A.encrypt p ad nonce key) (plaintextLength + kTagBytes)

/-- `aead_open`, into `out` from position `off` on. -/
def aeadOpen (ciphertext : Span UInt8) (ciphertextLength : ℕ) :
    Access (Option ℕ × List.Vector UInt8 n) :=
  if ciphertext.isNull ∨ ciphertextLength < kTagBytes ∨
      capacity < ciphertextLength - kTagBytes ∨
      ciphertextLength > kMaxPayloadBytes + kTagBytes ∨ (aad.isNull ∧ aadLength ≠ 0) then
    return (none, out)
  else do
    let c ← readBlock ciphertext.elems 0 ciphertextLength
    let ad ← readBlock aad.elems 0 aadLength
    finishCall out off (A.decrypt c ad nonce key) (ciphertextLength - kTagBytes)

/-- `run` stores at most `k` bytes and does what `result` says: it fails, or it has stored the bytes
of `result` and returns how many they are. -/
def Stores (k : ℕ) (result : Option (List UInt8)) (run : Access (Option ℕ × List.Vector UInt8 n)) :
    Prop :=
  (∃ src, src.length ≤ k ∧ result = none ∧ run = .ok (none, store out off src)) ∨
    ∃ src, src.length ≤ k ∧ result = some src ∧ run = .ok (some src.length, store out off src)

variable {A off capacity}

theorem stores_refused (k : ℕ) : Stores out off k none (.ok (none, out)) :=
  Or.inl ⟨[], Nat.zero_le k, rfl, by rw [store_nil]⟩

/-- The length that is checked behind a call is that of what the call has stored. -/
theorem stores_finishCall {r : CallResult} {expected : ℕ} (hr : r.stored.length = expected)
    (hroom : off + expected ≤ n) :
    Stores out off expected (match r.output with
      | none => none
      | some c => if c.length ≠ expected then none else some c)
      (finishCall out off r expected) := by
  subst hr
  rw [finishCall, writeBlock_eq hroom, ok_bind, CallResult.output]
  by_cases hc : r.ok = true ∧ r.length = r.stored.length
  · refine Or.inr ⟨r.stored, le_rfl, ?_, ?_⟩
    · rw [if_pos hc]
      exact if_neg (not_not.mpr rfl)
    · rw [if_neg (by simp [hc]), hc.2, pure_eq_ok]
  · have hfail : (!r.ok) = true ∨ r.length ≠ r.stored.length :=
      (not_and_or.mp hc).imp_left (by simp)
    refine Or.inl ⟨r.stored, le_rfl, ?_, ?_⟩
    · rw [if_neg hc]
    · rw [if_pos hfail, pure_eq_ok]

/-- **`aead_seal` stores no more than its capacity**, and returns what the function of its inputs
does. -/
theorem aeadSeal_stores (hA : A.Documented) {ad : List UInt8} {aadLength : ℕ}
    (had : aadLength ≤ ad.length) (hroom : off + capacity ≤ n) (plaintext : Span UInt8) :
    Stores out off (min capacity (plaintext.length + kTagBytes))
      (Crypto.aeadSeal A.aead key nonce (.data (ad.take aadLength)) plaintext capacity)
      (aeadSeal A key nonce (.data ad) aadLength out off capacity plaintext plaintext.length) := by
  unfold aeadSeal Crypto.aeadSeal
  simp only [Span.isNull_data, Span.elems_data, Bool.false_eq_true, false_and, false_or]
  split_ifs with hc
  · exact stores_refused out _
  · push Not at hc
    obtain ⟨hfit, hnull, -⟩ := hc
    have hlen : plaintext.elems.length = plaintext.length :=
      Span.length_elems fun h => h.2 (hnull h.1)
    have hp : slice plaintext.elems 0 plaintext.length = plaintext.elems :=
      List.take_of_length_le hlen.le
    rw [readBlock_eq (by omega), ok_bind, readBlock_eq (by omega), ok_bind, hp,
      Nat.min_eq_right hfit]
    exact stores_finishCall out (by rw [hA.encrypt, hlen]) (by omega)

/-- **`aead_open` stores no more than its capacity**, and returns what the function of its inputs
does. -/
theorem aeadOpen_stores (hA : A.Documented) {ad : List UInt8} {aadLength : ℕ}
    (had : aadLength ≤ ad.length) (hroom : off + capacity ≤ n) (c : List UInt8) :
    Stores out off (min capacity (c.length - kTagBytes))
      (Crypto.aeadOpen A.aead key nonce (.data (ad.take aadLength)) (.data c) capacity)
      (aeadOpen A key nonce (.data ad) aadLength out off capacity (.data c) c.length) := by
  unfold aeadOpen Crypto.aeadOpen
  simp only [Span.isNull_data, Span.length_data, Span.elems_data, Bool.false_eq_true, false_and,
    false_or, or_false]
  split_ifs with hc
  · exact stores_refused out _
  · push Not at hc
    obtain ⟨htag, hfit, -⟩ := hc
    have hwhole : slice c 0 c.length = c := List.take_length
    rw [readBlock_eq (by omega), ok_bind, readBlock_eq (by omega), ok_bind, hwhole,
      Nat.min_eq_right hfit]
    exact stores_finishCall out (hA.decrypt _ _ _ _ htag) (by omega)

end Wrappers

/-! ### Fields of an array -/

section Fields

variable {n : ℕ}

/-- `out[off] = v`. -/
def put8 (a : List.Vector UInt8 n) (off : ℕ) (v : UInt8) : Access (List.Vector UInt8 n) :=
  writeLE 1 a off v.toNat
/-- `put16`, byte by byte. -/
def put16 (a : List.Vector UInt8 n) (off : ℕ) (v : UInt16) : Access (List.Vector UInt8 n) :=
  writeLE 2 a off v.toNat
/-- `put64`, byte by byte. -/
def put64 (a : List.Vector UInt8 n) (off : ℕ) (v : UInt64) : Access (List.Vector UInt8 n) :=
  writeLE 8 a off v.toNat

/-- `make_nonce`. -/
def makeNonce (session : SessionId) (sequence : UInt64) : Access Block := do
  let nonce ← put64 (List.Vector.replicate 16 0) 0 session.value
  put64 nonce 8 (session.epoch ^^^ sequence)

theorem makeNonce_eq (session : SessionId) (sequence : UInt64) :
    makeNonce session sequence = .ok (Crypto.makeNonce session sequence) := by
  unfold makeNonce put64
  rw [writeLE_eq (by decide), ok_bind, writeLE_eq (by decide)]
  refine congrArg Except.ok (List.Vector.eq _ _ ?_)
  rw [toList_store, toList_store, Crypto.toList_makeNonce]
  rfl

/-- `encode_header`. -/
def encodeHeader (h : RecordHeader) (out : List.Vector UInt8 n) (withCrc : Bool) :
    Access (List.Vector UInt8 n) := do
  let out ← put8 out 0 h.version
  let out ← put8 out 1 h.flags
  let out ← put8 out 2 h.type.code
  let out ← put8 out 3 h.qos.code
  let out ← put16 out 4 h.sourceId
  let out ← put16 out 6 h.destinationId
  let out ← put64 out 8 h.sessionId
  let out ← put64 out 16 h.epoch
  let out ← put64 out 24 h.sequence
  let out ← put16 out 32 h.payloadLen
  let out ← put16 out 34 h.deadlineMs
  let out ← put16 out 36 (if withCrc then h.headerCrc16 else 0)
  put16 out 38 0

theorem encodeHeader_spec (h : RecordHeader) (out : List.Vector UInt8 n) (c : Bool) (hn : 40 ≤ n) :
    ∃ out', encodeHeader h out c = .ok out' ∧
      out'.toList = Record.Header.encodeHeader h out.toList c ∧ WritesBelow 40 out out' := by
  unfold encodeHeader put8 put16 put64
  simp (disch := omega) only [writeLE_eq, ok_bind]
  refine ⟨_, rfl, ?_, ?_⟩
  · simp only [toList_store, Record.Header.encodeHeader, Wire.put8, Wire.put16, Wire.put64, putLE]
  · unfold WritesBelow
    simp (disch := simp) only [toList_store, drop_blit]

/-- The header that `seal` sends, and the output array with the header written into it. -/
def writeHeader (input : RecordHeader) (length : ℕ) (out : List.Vector UInt8 n) :
    Access (RecordHeader × List.Vector UInt8 n) := do
  let h := { input with
    version := kVersion
    payloadLen := UInt16.ofNat length
    headerCrc16 := ← crc16Ccitt (.null 0) 0 }
  let out ← encodeHeader h out false
  let h := { h with headerCrc16 := ← crc16Ccitt (.data out.toList) 36 }
  let out ← encodeHeader h out true
  return (h, out)

theorem writeHeader_spec (input : RecordHeader) (length : ℕ) (out : List.Vector UInt8 n)
    (hn : 40 ≤ n) : ∃ out', writeHeader input length out =
        .ok ((Record.SealOpen.writeHeader input length out.toList).1, out') ∧
      out'.toList = (Record.SealOpen.writeHeader input length out.toList).2 ∧
      WritesBelow 40 out out' := by
  have hnull : crc16Ccitt (.null 0) 0 = .ok (Crc16.crc16Ccitt (.null 0)) := rfl
  have hcrc : ∀ out : List.Vector UInt8 n, crc16Ccitt (.data out.toList) 36 =
      .ok (Crc16.crc16Ccitt (.data (out.toList.take 36))) := by
    intro out
    refine crc16Ccitt_eq ?_
    rw [List.Vector.toList_length]
    omega
  unfold writeHeader
  rw [hnull, ok_bind]
  dsimp only
  obtain ⟨out₁, h₁, hl₁, hw₁⟩ := encodeHeader_spec _ out false hn
  rw [h₁, ok_bind, hcrc, ok_bind]
  obtain ⟨out₂, h₂, hl₂, hw₂⟩ := encodeHeader_spec _ out₁ true hn
  rw [h₂, ok_bind]
  refine ⟨out₂, ?_, ?_, hw₁.trans hw₂⟩
  · simp only [hl₁, Record.SealOpen.writeHeader, pure_eq_ok]
  · simp only [hl₂, hl₁, Record.SealOpen.writeHeader]

/-- `decode_header`: the answer and the header, which is filled before the checks. -/
def decodeHeader (input : Span UInt8) : Access (Bool × RecordHeader) :=
  if input.isNull then return (false, {})
  else do
    let p := input.elems
    let h : RecordHeader := {
      version := ← get8 p 0
      flags := ← get8 p 1
      type := ⟨← get8 p 2⟩
      qos := ⟨← get8 p 3⟩
      sourceId := ← get16 p 4
      destinationId := ← get16 p 6
      sessionId := ← get64 p 8
      epoch := ← get64 p 16
      sequence := ← get64 p 24
      payloadLen := ← get16 p 32
      deadlineMs := ← get16 p 34
      headerCrc16 := ← get16 p 36 }
    if ← nonzeroAt p 38 <||> nonzeroAt p 39 then return (false, h)
    else return ((← crc16Ccitt input 36) == h.headerCrc16, h)

theorem decodeHeader_eq {p : List UInt8} (h : 40 ≤ p.length) : decodeHeader (.data p) =
    .ok ((Record.Header.decodeHeader (.data p)).isSome, readHeader p) := by
  have hzero : (nonzeroAt p 38 <||> nonzeroAt p 39) =
      .ok (Wire.get8 p 38 != 0 || Wire.get8 p 39 != 0) :=
    orM_eq (nonzeroAt_eq (by omega)) fun _ => nonzeroAt_eq (by omega)
  unfold decodeHeader Record.Header.decodeHeader
  rw [Span.isNull_data, Span.elems_data, if_neg Bool.false_ne_true, if_neg Bool.false_ne_true]
  simp (disch := omega) only [get8_eq, get16_eq, get64_eq, ok_bind]
  rw [hzero, ok_bind, crc16Ccitt_eq (by omega)]
  simp only [Bool.or_eq_true, bne_iff_ne]
  by_cases hz : Wire.get8 p 38 ≠ 0 ∨ Wire.get8 p 39 ≠ 0
  · rw [if_pos hz, if_pos hz]
    rfl
  · have hread : (readHeader p).headerCrc16 = Wire.get16 p 36 := rfl
    rw [if_neg hz, if_neg hz, ok_bind, hread]
    split_ifs with hc
    · rw [hc, beq_self_eq_true]
      rfl
    · rw [beq_eq_false_iff_ne.mpr hc]
      rfl

end Fields

/-! ### Sealing and opening -/

section Records

variable (A : AeadCalls) (s : Session)

/-- `Session::seal`: the length of the record, the output array and the session after the call. -/
def «seal» (input : RecordHeader) (plaintext : Span UInt8) (length : ℕ) (output : RecordBuffer) :
    Access (Except RecordError ℕ × RecordBuffer × Session) :=
  if !validKeys s.keys then return (.error .invalidKeys, output, s)
  else if !knownType input.type ∨ input.flags > kKnownFlags ∨
      input.qos.code > Qos.explicit.code ∨ input.sourceId ≠ s.keys.localId ∨
      input.destinationId ≠ s.keys.peerId ∨ input.sessionId ≠ s.keys.session.value ∨
      input.epoch ≠ s.keys.session.epoch ∨ length > kMaxPayloadBytes ∨
      (plaintext.isNull ∧ length ≠ 0) ∨ input.sequence = kUint64Max ∨
      (s.sendInitialized ∧ input.sequence ≤ s.sendHighWater) then
    return (.error .invalidHeader, output, s)
  else do
    let (h, output) ← writeHeader input length output
    let nonce ← makeNonce s.keys.session h.sequence
    let (cipherLength, output) ← aeadSeal A s.keys.tx nonce (.data output.toList) kHeaderBytes
      output kHeaderBytes (kMaxRecordBytes - kHeaderBytes) plaintext length
    match cipherLength with
    | none => return (.error .authenticationFailed, output, s)
    | some cipherLength =>
      return (.ok (kHeaderBytes + cipherLength), output,
        { s with sendHighWater := h.sequence, sendInitialized := true })

/-- `Session::open_uncommitted`: the error and the output, which is cleared first and filled from
the header before that is checked. -/
def openUncommitted (record : Span UInt8) (recordLength : ℕ) (nowMs : UInt32) :
    Access (Except RecordError Unit × OpenRecord) :=
  if !validKeys s.keys then return (.error .invalidKeys, {})
  else if record.isNull ∨ recordLength < kHeaderBytes + kTagBytes ∨
      recordLength > kMaxRecordBytes then return (.error .invalidLength, {})
  else do
    let (ok, h) ← decodeHeader record
    let output : OpenRecord := { header := h }
    if !ok then return (.error .invalidHeader, output)
    else if h.version ≠ kVersion ∨ !knownType h.type ∨ h.flags > kKnownFlags ∨
        h.qos.code > Qos.explicit.code ∨ h.sourceId ≠ s.keys.peerId ∨
        h.destinationId ≠ s.keys.localId ∨ h.sessionId ≠ s.keys.session.value ∨
        h.epoch ≠ s.keys.session.epoch ∨ h.payloadLen.toNat > kMaxPayloadBytes ∨
        recordLength ≠ kHeaderBytes + h.payloadLen.toNat + kTagBytes then
      return (.error .invalidHeader, output)
    else if h.deadlineMs ≠ 0 ∧ nowMs.toNat > h.deadlineMs.toNat then
      return (.error .expired, output)
    else if !s.replay.accepted h.sequence then return (.error .replay, output)
    else do
      let nonce ← makeNonce s.keys.session h.sequence
      let (length, payload) ← aeadOpen A s.keys.rx nonce record kHeaderBytes output.payload 0
        kMaxPayloadBytes (.data (record.elems.drop kHeaderBytes)) (recordLength - kHeaderBytes)
      let output := { output with payload := payload, length := length.getD 0 }
      if length.isNone then return (.error .authenticationFailed, output)
      else return (.ok (), output)

variable {A s}

/-- **A seal stays in bounds.** No index is out of range, the record and the session are those of
`Session`, and only the first bytes of the output array are written: no more than the record has,
on failure too. -/
theorem seal_in_bounds (hA : A.Documented) (s : Session) (input : RecordHeader)
    (plaintext : Span UInt8) (output : RecordBuffer) :
    ∃ result output' s', «seal» A s input plaintext plaintext.length output =
        .ok (result, output', s') ∧
      (result.map output'.toList.take, s') = s.seal A.aead input plaintext output ∧
      WritesBelow (min kMaxRecordBytes (kHeaderBytes + plaintext.length + kTagBytes))
        output output' ∧
      ∀ n, result = .ok n → n = kHeaderBytes + plaintext.length + kTagBytes := by
  have hroom : kHeaderBytes + (kMaxRecordBytes - kHeaderBytes) ≤ kMaxRecordBytes := by decide
  unfold «seal» Session.seal
  split_ifs with hk hc
  · exact ⟨_, _, _, rfl, rfl, WritesBelow.refl _ _, fun _ h => nomatch h⟩
  · exact ⟨_, _, _, rfl, rfl, WritesBelow.refl _ _, fun _ h => nomatch h⟩
  · have hs : Sealable s input plaintext := sealable_iff.mpr ⟨by simpa using hk, hc⟩
    have hlen := hs.length
    obtain ⟨out₁, h₁, hl₁, hw₁⟩ := writeHeader_spec input plaintext.length output (by decide)
    rw [h₁, ok_bind]
    dsimp only
    rw [makeNonce_eq, ok_bind, ← hl₁, List.Vector.toList_length]
    have hhead : kHeaderBytes ≤ out₁.toList.length := by
      rw [List.Vector.toList_length]
      decide
    have hbound : min kMaxRecordBytes (kHeaderBytes + plaintext.length + kTagBytes) =
        kHeaderBytes + plaintext.length + kTagBytes := by
      unfold kMaxRecordBytes
      omega
    have hwrites : ∀ src : List UInt8,
        src.length ≤ min (kMaxRecordBytes - kHeaderBytes) (plaintext.length + kTagBytes) →
        WritesBelow (kHeaderBytes + plaintext.length + kTagBytes) output
          (store out₁ kHeaderBytes src) := by
      intro src hsrc
      have hfit : kHeaderBytes + src.length ≤ kHeaderBytes + plaintext.length + kTagBytes := by
        have := hsrc.trans (min_le_right _ _)
        omega
      exact (hw₁.mono (Nat.le_add_right_of_le (Nat.le_add_right 40 _))).trans
        (WritesBelow.store hfit)
    rw [hbound]
    rcases aeadSeal_stores s.keys.tx (Crypto.makeNonce s.keys.session
      (Record.SealOpen.writeHeader input plaintext.length output.toList).1.sequence) out₁ hA hhead
      hroom plaintext with ⟨src, hsrc, hres, hrun⟩ | ⟨cipher, hsrc, hres, hrun⟩
    · -- the header has been written, and what the call has stored
      rw [hrun, ok_bind, hres]
      exact ⟨_, _, _, rfl, rfl, hwrites src hsrc, fun _ h => nomatch h⟩
    · rw [hrun, ok_bind, hres]
      refine ⟨_, _, _, rfl, ?_, hwrites cipher hsrc, ?_⟩
      · simp only [Except.map, toList_store]
      · obtain ⟨-, -, -, -, -, hcipher⟩ := Crypto.aeadSeal_eq_some.mp hres
        rintro n ⟨⟩
        rw [hcipher, Nat.add_assoc]

/-- **An open stays in bounds.** No index is at or behind the length of the record, the result is
that of `Session`, and only the first bytes of the payload are written: no more than the record has
behind its header and in front of its tag, on failure too. -/
theorem open_in_bounds (hA : A.Documented) (s : Session) (record : Span UInt8) (nowMs : UInt32) :
    ∃ result output, openUncommitted A s record record.length nowMs = .ok (result, output) ∧
      result.map (fun _ => output) = s.openUncommitted A.aead record nowMs ∧
      WritesBelow (min kMaxPayloadBytes (record.length - kHeaderBytes - kTagBytes))
        ({} : OpenRecord).payload output.payload ∧
      (result = .ok () → kHeaderBytes + output.length + kTagBytes = record.length) := by
  unfold openUncommitted Session.openUncommitted
  split_ifs with hk hl
  · exact ⟨_, _, rfl, rfl, WritesBelow.refl _ _, fun h => nomatch h⟩
  · exact ⟨_, _, rfl, rfl, WritesBelow.refl _ _, fun h => nomatch h⟩
  · cases record with
    | null n => simp at hl
    | data p =>
      have hhead : kHeaderBytes ≤ p.length := by
        simp only [Span.length_data, not_or, not_lt] at hl
        omega
      rw [decodeHeader_eq hhead, ok_bind]
      cases hd : Record.Header.decodeHeader (.data p) with
      | none => exact ⟨_, _, rfl, rfl, WritesBelow.refl _ _, fun h => nomatch h⟩
      | some h =>
        have hread := Record.Header.decodeHeader_eq_some hd
        rw [Span.elems_data] at hread
        subst hread
        dsimp only
        rw [Option.isSome_some, if_neg (show ¬ (!true) = true by decide)]
        split_ifs with hh he hr
        · exact ⟨_, _, rfl, rfl, WritesBelow.refl _ _, fun h => nomatch h⟩
        · exact ⟨_, _, rfl, rfl, WritesBelow.refl _ _, fun h => nomatch h⟩
        · exact ⟨_, _, rfl, rfl, WritesBelow.refl _ _, fun h => nomatch h⟩
        · rw [makeNonce_eq, ok_bind, Span.elems_data, Span.length_data, ← List.length_drop]
          rcases aeadOpen_stores s.keys.rx (Crypto.makeNonce s.keys.session
            (readHeader p).sequence) ({} : OpenRecord).payload hA hhead
            (show 0 + kMaxPayloadBytes ≤ kMaxPayloadBytes by omega) (p.drop kHeaderBytes) with
            ⟨src, hsrc, hres, hrun⟩ | ⟨plaintext, hsrc, hres, hrun⟩
          · -- not authentic, but the plaintext may have been stored
            rw [hrun, ok_bind, hres]
            exact ⟨_, _, rfl, rfl, WritesBelow.store ((Nat.zero_add _).trans_le hsrc),
              fun h => nomatch h⟩
          · rw [hrun, ok_bind, hres]
            refine ⟨_, _, rfl, rfl, WritesBelow.store ((Nat.zero_add _).trans_le hsrc), fun _ => ?_⟩
            obtain ⟨-, htag, -, -, -, -, hlen⟩ := Crypto.aeadOpen_eq_some.mp hres
            rw [Span.length_data, List.length_drop] at htag hlen
            show kHeaderBytes + plaintext.length + kTagBytes = p.length
            omega

end Records

/-! ### All parsers -/

/-- **Parsers of untrusted bytes stay in bounds.** Given bytes of any length, whatever they are, the
decoders of the handshake, the typed decoders and the open of a record under any keys read only
below that length; the open writes at most 768 bytes of its payload and returns the length of the
record without the 56 bytes of its header and tag. A seal writes at most 824 bytes of its output.
Each computes what the model without indices does. -/
theorem parsers_in_bounds {A : AeadCalls} (hA : A.Documented) :
    (InBounds decodeHello Handshake.Messages.decodeHello ∧
      InBounds decodeAccept Handshake.Codecs.decodeAccept ∧
      InBounds decodeFinish Handshake.Codecs.decodeFinish) ∧
    (InBounds decodeCommand Codecs.decodeCommand ∧ InBounds decodeAck Codecs.decodeAck ∧
      InBounds decodeSubscription Codecs.decodeSubscription ∧
      InBounds decodeUnsubscribe Codecs.decodeUnsubscribe ∧
      InBounds decodeResync State.Messages.decodeResync ∧
      InBounds decodeStateMeta State.Messages.decodeStateMeta ∧
      InBounds decodePosition State.Messages.decodePosition ∧
      InBounds decodeAttitude State.Messages.decodeAttitude ∧
      InBounds decodeBattery State.Messages.decodeBattery ∧
      InBounds decodeHeartbeat Codecs.decodeHeartbeat) ∧
    (∀ (s : Session) (record : Span UInt8) (nowMs : UInt32), ∃ result output,
      openUncommitted A s record record.length nowMs = .ok (result, output) ∧
      result.map (fun _ => output) = s.openUncommitted A.aead record nowMs ∧
      WritesBelow (min 768 (record.length - 56)) ({} : OpenRecord).payload output.payload ∧
      (result = .ok () → 56 ≤ record.length ∧ output.length = record.length - 56)) ∧
    ∀ (s : Session) (input : RecordHeader) (plaintext : Span UInt8) (output : RecordBuffer),
      ∃ result output' s', «seal» A s input plaintext plaintext.length output =
        .ok (result, output', s') ∧
      (result.map output'.toList.take, s') = s.seal A.aead input plaintext output ∧
      WritesBelow (min 824 (plaintext.length + 56)) output output' ∧
      ∀ n, result = .ok n → n = plaintext.length + 56 := by
  refine ⟨handshake_in_bounds, typed_in_bounds, fun s record nowMs => ?_,
    fun s input plaintext output => ?_⟩
  · obtain ⟨result, output, hrun, hresult, hwrites, hlen⟩ := open_in_bounds hA s record nowMs
    rw [Nat.sub_sub] at hwrites
    refine ⟨result, output, hrun, hresult, hwrites, fun hok => ?_⟩
    have hlen := hlen hok
    unfold kHeaderBytes kTagBytes at hlen
    omega
  · obtain ⟨result, output', s', hrun, hresult, hwrites, hlen⟩ :=
      seal_in_bounds hA s input plaintext output
    have hsum : kHeaderBytes + plaintext.length + kTagBytes = plaintext.length + 56 := by
      unfold kHeaderBytes kTagBytes
      omega
    rw [hsum] at hwrites hlen
    exact ⟨result, output', s', hrun, hresult, hwrites, hlen⟩

/-- Calls that hide nothing and append a tag of zeros. -/
def paddingCalls : AeadCalls where
  encrypt p _ _ _ := ⟨true, p.length + kTagBytes, p ++ List.replicate kTagBytes 0⟩
  decrypt c _ _ _ := ⟨true, c.length - kTagBytes, c.take (c.length - kTagBytes)⟩

theorem documented_paddingCalls : paddingCalls.Documented := by
  constructor
  · intro p aad nonce key
    exact List.length_append.trans (by rw [List.length_replicate])
  · intro c aad nonce key _
    exact List.length_take_of_le (Nat.sub_le ..)

theorem aead_paddingCalls : paddingCalls.aead = Crypto.paddingAead := by
  unfold AeadCalls.aead paddingCalls Crypto.paddingAead CallResult.output
  simp

open Record.SealOpen Record.RoundTrip in
/-- The record of `security_test.cpp`: 62 bytes, of which six are the payload. -/
theorem parsers_in_bounds_test : ∃ output,
    openUncommitted paddingCalls { keys := (testKeys 3 1 2).mirror } (.data (testRecord 3 4)) 62 0 =
      .ok (.ok (), output) ∧ output.length = 6 := by
  obtain ⟨result, output, hrun, hresult, -, hlen⟩ := (parsers_in_bounds
    documented_paddingCalls).2.2.1 { keys := (testKeys 3 1 2).mirror } (.data (testRecord 3 4)) 0
  have hs : Sealable { keys := testKeys 3 1 2 } (testHeader 3 4) (.data testPlain) := by
    constructor <;> decide
  have hm : Mirrors { keys := testKeys 3 1 2 } { keys := (testKeys 3 1 2).mirror } := by
    constructor <;> decide
  have hopen : Session.openUncommitted Crypto.paddingAead { keys := (testKeys 3 1 2).mirror }
      (.data (testRecord 3 4)) 0 = _ := open_test hs hm (by decide)
  rw [Span.length_data, length_testRecord] at hrun hlen
  rw [aead_paddingCalls, hopen] at hresult
  cases result with
  | error e => exact nomatch hresult
  | ok u => exact ⟨output, hrun, (hlen rfl).2⟩

end NewMavlink.Bounds.Records
