import NewMavlink.Record.RoundTrip

/-! # Sending and receiving datagrams

`transport.cpp`: what an endpoint's session seals for the socket, and what arrives on it, opened and
committed by the session. The endpoint's buffer is overwritten by every record and every datagram
before it is read, and is not part of the state.

* `receive_cases`: a datagram is refused and changes nothing, or its record is opened, committed
  and delivered.
* `receive_sealed`: what the peer has sealed is delivered, if it arrives as it was sealed. -/

namespace NewMavlink.Transport

open NewMavlink.Lib.Buffer NewMavlink.Wire NewMavlink.Crypto
open NewMavlink.Record.Header NewMavlink.Record.Replay NewMavlink.Record.SealOpen
open NewMavlink.Record.RoundTrip

/-- `UdpEndpoint::receive` into a buffer of `kMaxRecordBytes`, of the datagram that arrived in time
(if any): a longer one is cut, an empty one is no success. -/
def udpReceive : Option (List UInt8) → Option (List UInt8)
  | none => none
  | some datagram => if datagram.length = 0 then none else some (datagram.take kMaxRecordBytes)

/-- An endpoint, as far as it is the session of its records. -/
structure NativeEndpoint where
  session : Session

namespace NativeEndpoint

/-- `NativeEndpoint::send`: the datagram that was sent, if it was. What the buffer held before makes
no difference; `sendTo` says whether the socket takes the datagram. -/
def send (P : Aead) (e : NativeEndpoint) (header : RecordHeader) (payload : Span UInt8)
    (sendTo : Bool) : Option (List UInt8) × NativeEndpoint :=
  match e.session.seal P header payload (List.Vector.replicate _ 0) with
  | (.error _, session) => (none, ⟨session⟩)
  | (.ok record, session) => (if sendTo then some record else none, ⟨session⟩)

/-- `NativeEndpoint::receive_uncommitted`. -/
def receiveUncommitted (P : Aead) (e : NativeEndpoint) (datagram : Option (List UInt8))
    (nowMs : UInt32) : Except RecordError OpenRecord :=
  match udpReceive datagram with
  | none => .error .timeout
  | some bytes => e.session.openUncommitted P (.data bytes) nowMs

/-- `NativeEndpoint::commit`. -/
def commit (e : NativeEndpoint) (record : OpenRecord) : Except RecordError Unit × NativeEndpoint :=
  ((e.session.commitReplay record).1, ⟨(e.session.commitReplay record).2⟩)

/-- `NativeEndpoint::receive`. -/
def receive (P : Aead) (e : NativeEndpoint) (datagram : Option (List UInt8)) (nowMs : UInt32) :
    Except RecordError OpenRecord × NativeEndpoint :=
  match e.receiveUncommitted P datagram nowMs with
  | .error err => (.error err, e)
  | .ok record => ((e.commit record).1.map fun _ => record, (e.commit record).2)

end NativeEndpoint

theorem commit_of_receiveUncommitted {P : Aead} {e : NativeEndpoint}
    {datagram : Option (List UInt8)} {nowMs : UInt32} {record : OpenRecord}
    (h : e.receiveUncommitted P datagram nowMs = .ok record) : (e.commit record).1 = .ok () := by
  unfold NativeEndpoint.receiveUncommitted at h
  cases hu : udpReceive datagram with
  | none => simp [hu] at h
  | some bytes =>
    rw [hu] at h
    exact congrArg Prod.fst (commitReplay_of_open h)

/-- **When a record is sent**: if it can be sealed and the socket takes it. -/
theorem send_eq_some {P : Aead} {e e' : NativeEndpoint} {header : RecordHeader}
    {payload : Span UInt8} {sendTo : Bool} {record : List UInt8} :
    e.send P header payload sendTo = (some record, e') ↔
      sendTo = true ∧
        e.session.seal P header payload (List.Vector.replicate _ 0) = (.ok record, e'.session) := by
  obtain ⟨session'⟩ := e'
  unfold NativeEndpoint.send
  rcases e.session.seal P header payload (List.Vector.replicate _ 0) with ⟨error | sealed, session⟩
  · simp
  · cases sendTo <;> simp

/-- The endpoint after it has delivered a record. -/
def delivered (e : NativeEndpoint) (record : OpenRecord) : NativeEndpoint :=
  ⟨{ e.session with replay := (e.session.replay.commit record.header.sequence).2 }⟩

/-- **What a receive can do**: refuse and change nothing, or open, commit and deliver a record. -/
theorem receive_cases (P : Aead) (e : NativeEndpoint) (datagram : Option (List UInt8))
    (nowMs : UInt32) :
    (∃ err, e.receive P datagram nowMs = (.error err, e)) ∨
      ∃ bytes record, udpReceive datagram = some bytes ∧
        e.session.openUncommitted P (.data bytes) nowMs = .ok record ∧
        e.receive P datagram nowMs = (.ok record, delivered e record) := by
  unfold NativeEndpoint.receive NativeEndpoint.receiveUncommitted
  cases hu : udpReceive datagram with
  | none => exact Or.inl ⟨_, rfl⟩
  | some bytes =>
    dsimp only
    cases ho : e.session.openUncommitted P (.data bytes) nowMs with
    | error err => exact Or.inl ⟨err, rfl⟩
    | ok record =>
      refine Or.inr ⟨bytes, record, rfl, ho, ?_⟩
      simp only [NativeEndpoint.commit, commitReplay_of_open ho]
      rfl

/-! ### What arrives as it was sealed -/

section Sealed
variable {P : Aead} {s : Session} {e : NativeEndpoint} {input : RecordHeader}
  {plaintext : Span UInt8} {cipher : List UInt8} {nowMs : UInt32}

/-- A record fits into the buffer it is received into. -/
theorem udpReceive_sealed (hs : Sealable s input plaintext)
    (hc : sealCipher P s input plaintext = some cipher) :
    udpReceive (some (headerBytes (sealedHeader input plaintext.length) ++ cipher)) =
      some (headerBytes (sealedHeader input plaintext.length) ++ cipher) := by
  have hlength : (headerBytes (sealedHeader input plaintext.length) ++ cipher).length =
      kHeaderBytes + (plaintext.length + kTagBytes) := by
    rw [List.length_append, length_headerBytes, length_of_sealCipher hc]
  have hpayload := hs.length
  rw [udpReceive, if_neg (by rw [hlength]; unfold kHeaderBytes; omega), List.take_of_length_le]
  rw [hlength]
  unfold kMaxRecordBytes
  omega

theorem receiveUncommitted_sealed (hP : P.Correct) (hs : Sealable s input plaintext)
    (hc : sealCipher P s input plaintext = some cipher) (hm : Mirrors s e.session)
    (ha : e.session.replay.accepted input.sequence = true)
    (hd : input.deadlineMs = 0 ∨ nowMs.toNat ≤ input.deadlineMs.toNat) :
    e.receiveUncommitted P
        (some (headerBytes (sealedHeader input plaintext.length) ++ cipher)) nowMs =
      .ok (openRecord (sealedHeader input plaintext.length) plaintext.elems) := by
  unfold NativeEndpoint.receiveUncommitted
  rw [udpReceive_sealed hs hc]
  exact openUncommitted_sealed hP hs hc hm ha hd

/-- **What the peer has sealed is delivered.** -/
theorem receive_sealed (hP : P.Correct) (hs : Sealable s input plaintext)
    (hc : sealCipher P s input plaintext = some cipher) (hm : Mirrors s e.session)
    (ha : e.session.replay.accepted input.sequence = true)
    (hd : input.deadlineMs = 0 ∨ nowMs.toNat ≤ input.deadlineMs.toNat) :
    e.receive P (some (headerBytes (sealedHeader input plaintext.length) ++ cipher)) nowMs =
      (.ok (openRecord (sealedHeader input plaintext.length) plaintext.elems),
        delivered e (openRecord (sealedHeader input plaintext.length) plaintext.elems)) := by
  have hopen := receiveUncommitted_sealed hP hs hc hm ha hd
  have hcommit := commitReplay_of_open (openUncommitted_sealed hP hs hc hm ha hd)
  unfold NativeEndpoint.receive
  rw [hopen]
  dsimp only [NativeEndpoint.commit]
  rw [hcommit]
  rfl

end Sealed

end NewMavlink.Transport
