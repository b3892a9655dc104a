import NewMavlink.Endpoints.Hops
import NewMavlink.Lib.Fifo

/-! # A link that loses nothing

A datagram in flight between two sides of one derivation (`InFlight`), the session that sends the
n-th (`Sends`) and the session that has committed the first `n` (`Expects`). The AEAD encrypts
everything and decrypts what it has encrypted (`Works`).

* `send_inFlight`: a session that sends the n-th record puts it in flight, and sends the next.
* `receive_inFlight`: a session that expects the n-th record opens it, and then expects the next.
* `ideal_inFlight`: what is in flight was not forged. -/

namespace NewMavlink.Endpoints.Links

open NewMavlink.Lib.Buffer NewMavlink.Lib.SlidingWindow NewMavlink.Wire NewMavlink.Crypto
open NewMavlink.Record.Header NewMavlink.Record.Replay NewMavlink.Record.SealOpen
open NewMavlink.Record.SendLog NewMavlink.Record.RoundTrip NewMavlink.Transport NewMavlink.Channel
open NewMavlink.Endpoints.Hops

/-- The AEAD encrypts everything, with a tag, and decrypts what it has encrypted. -/
structure Works (P : Aead) : Prop where
  correct : P.Correct
  total : ∀ plaintext aad nonce key, ∃ cipher, P.encrypt plaintext aad nonce key = some cipher ∧
    cipher.length = plaintext.length + kTagBytes

theorem works_paddingAead : Works paddingAead :=
  ⟨correct_paddingAead, fun plaintext _ _ _ => ⟨_, rfl, by simp⟩⟩

/-- The session has sent the numbers below `n`. -/
structure Sends (k : DirectionalKeys Block) (n : ℕ) (s : Session) : Prop where
  keys : s.keys = k
  fresh : s.sendInitialized = true → s.sendHighWater.toNat < n

/-- The session has committed the numbers below `n`, and no others. -/
structure Expects (k : DirectionalKeys Block) (n : ℕ) (s : Session) : Prop where
  keys : s.keys = k
  window : Refines s.replay (Finset.range n)

/-- What a receiver relies on in a record that it has opened. -/
structure Opened (k : DirectionalKeys Block) (i : ℕ) (a : Sent) (c : OpenRecord) : Prop where
  sequence : c.header.sequence = UInt64.ofNat i
  content : content c = sealedContent a
  deadline : c.header.deadlineMs = 0
  type : knownType c.header.type = true
  flags : c.header.flags ≤ kKnownFlags
  qos : c.header.qos.code ≤ Qos.explicit.code
  length : c.bytes.length ≤ kMaxPayloadBytes

/-- **A datagram in flight** from the side with the keys `k`, under the number `i`: it is the record
`a`, and opens at the other side. -/
structure InFlight (P : Aead) (k : DirectionalKeys Block) (i : ℕ) (a : Sent)
    (datagram : List UInt8) : Prop where
  bytes : datagram = headerBytes a.header ++ a.ciphertext
  fits : datagram.length ≤ kMaxRecordBytes
  key : a.key = k.tx
  nonce : a.nonce = makeNonce k.session a.header.sequence
  plain : aeadOpen P k.tx a.nonce (.data (headerBytes a.header)) (.data a.ciphertext)
    kMaxPayloadBytes = some a.plaintext
  opens : ∀ (s : Session) (nowMs : UInt32), s.keys = k.mirror →
    s.replay.accepted (UInt64.ofNat i) = true →
      ∃ c, s.openUncommitted P (.data datagram) nowMs = .ok c ∧ Opened k i a c

variable {P : Aead} {k : DirectionalKeys Block} {n : ℕ} {e : NativeEndpoint} {a : Sent}
  {datagram : List UInt8} {log : List Sent}

/-! ### Sending -/

/-- The header is one that the side with the keys `k` sends its n-th record with. -/
structure Sendable (k : DirectionalKeys Block) (n : ℕ) (header : RecordHeader) : Prop where
  type : knownType header.type = true
  flags : header.flags ≤ kKnownFlags
  qos : header.qos.code ≤ Qos.explicit.code
  source : header.sourceId = k.localId
  destination : header.destinationId = k.peerId
  session : header.sessionId = k.session.value
  epoch : header.epoch = k.session.epoch
  sequence : header.sequence = UInt64.ofNat n
  deadline : header.deadlineMs = 0

theorem toNat_ofNat_sequence (hn : n < 2 ^ 64) : (UInt64.ofNat n).toNat = n := by
  rw [UInt64.toNat_ofNat']
  exact Nat.mod_eq_of_lt hn

theorem sealable_of_sends (hvalid : validKeys k = true) (h : Sends k n e.session)
    (hn : n < 2 ^ 64 - 1) {header : RecordHeader} (hheader : Sendable k n header)
    {payload : List UInt8} (hlength : payload.length ≤ kMaxPayloadBytes) :
    Sealable e.session header (.data payload) := by
  have hnumber := toNat_ofNat_sequence (n := n) (by omega)
  refine ⟨by rw [h.keys, hvalid], hheader.type, hheader.flags, hheader.qos, ?_, ?_, ?_, ?_,
    hlength, by simp, fun hmax => ?_, fun hinit => ?_⟩
  · rw [h.keys, hheader.source]
  · rw [h.keys, hheader.destination]
  · rw [h.keys, hheader.session]
  · rw [h.keys, hheader.epoch]
  · have hlast : kUint64Max.toNat = 2 ^ 64 - 1 := rfl
    rw [hheader.sequence] at hmax
    rw [hmax, hlast] at hnumber
    omega
  · rw [UInt64.lt_iff_toNat_lt, hheader.sequence, hnumber]
    exact h.fresh hinit

theorem inFlight_of_sealCipher (hP : P.Correct) (hvalid : validKeys k = true)
    (h : Sends k n e.session) (hn : n < 2 ^ 64 - 1) {header : RecordHeader}
    (hheader : Sendable k n header) {payload cipher : List UInt8}
    (hlength : payload.length ≤ kMaxPayloadBytes)
    (hcipher : sealCipher P e.session header (.data payload) = some cipher) :
    InFlight P k n (sentBy e.session header (.data payload) cipher)
      (datagramOf header payload cipher) := by
  have hsealable := sealable_of_sends hvalid h hn hheader hlength
  obtain ⟨-, -, -, -, -, hcipherLength⟩ := aeadSeal_eq_some.mp hcipher
  refine ⟨rfl, ?_, ?_, ?_, ?_, ?_⟩
  · have hheaderBytes : kHeaderBytes = 40 := rfl
    have hplaintext : (Span.data payload).length = payload.length := rfl
    rw [datagramOf, List.length_append, length_headerBytes, hcipherLength, kMaxRecordBytes]
    omega
  · rw [← h.keys]
    rfl
  · rw [← h.keys]
    rfl
  · rw [← h.keys]
    exact aeadOpen_of_aeadSeal hP hcipher hlength
  · intro s nowMs hkeys haccepted
    have hmirrors : Mirrors e.session s :=
      mirrors_mirror hsealable.keys (by rw [hkeys, h.keys])
    have hopen := openUncommitted_sealed hP hsealable hcipher hmirrors
      (by rw [hheader.sequence]; exact haccepted)
      (show _ ∨ nowMs.toNat ≤ _ from Or.inl hheader.deadline)
    have hbytes := bytes_openRecord (sealedHeader header payload.length) hlength
    refine ⟨_, hopen, hheader.sequence, ?_, hheader.deadline, hheader.type, hheader.flags,
      hheader.qos, ?_⟩
    · rw [content, Span.elems_data, Span.length_data, hbytes]
      rfl
    · rw [Span.elems_data, Span.length_data, hbytes]
      exact hlength

/-- **A session that sends its n-th record** puts it in flight. -/
theorem send_inFlight (hP : Works P) (hvalid : validKeys k = true) (h : Sends k n e.session)
    (hn : n < 2 ^ 64 - 1) {header : RecordHeader} (hheader : Sendable k n header)
    {payload : List UInt8} (hlength : payload.length ≤ kMaxPayloadBytes) :
    ∃ a datagram, seals P e header payload = [a] ∧
      e.send P header (.data payload) true =
        (some datagram, ⟨e.session.sent header.sequence⟩) ∧
      Sends k (n + 1) (e.session.sent header.sequence) ∧ InFlight P k n a datagram ∧
      sealedContent a = (header.type, payload) := by
  have hsealable := sealable_of_sends hvalid h hn hheader hlength
  have hnumber := toNat_ofNat_sequence (n := n) (by omega)
  obtain ⟨cipher, hencrypt, hcipherLength⟩ := hP.total payload
    (headerBytes (sealedHeader header payload.length))
    (makeNonce e.session.keys.session header.sequence) e.session.keys.tx
  have hcipher : sealCipher P e.session header (.data payload) = some cipher := by
    refine aeadSeal_eq_some.mpr ⟨?_, by simp, by simp, hlength, hencrypt, hcipherLength⟩
    have hlength' : (Span.data payload).length ≤ kMaxPayloadBytes := hlength
    unfold kMaxRecordBytes
    omega
  rcases send_cases P e header payload true with ⟨hrefused, hnone⟩ |
    ⟨cipher', -, hcipher', hseals, hsend⟩
  · -- the session may seal, so the first case is impossible
    have hsealed : e.session.seal P header (.data payload) (List.Vector.replicate _ 0) = _ :=
      seal_of_sealable hsealable
    rw [hcipher] at hsealed
    unfold NativeEndpoint.send at hrefused
    rw [hsealed] at hrefused
    simp at hrefused
  · obtain rfl : cipher = cipher' := Option.some.inj (hcipher.symm.trans hcipher')
    refine ⟨_, _, hseals, hsend, ⟨h.keys, fun _ => ?_⟩,
      inFlight_of_sealCipher hP.correct hvalid h hn hheader hlength hcipher, rfl⟩
    show header.sequence.toNat < n + 1
    rw [hheader.sequence, hnumber]
    omega

/-! ### Receiving -/

theorem accepted_of_expects {s : Session} (h : Expects k n s) (hn : n < 2 ^ 64) :
    s.replay.accepted (UInt64.ofNat n) = true := by
  rw [h.window.accepted_iff, toNat_ofNat_sequence hn]
  by_cases hzero : n = 0
  · subst hzero
    exact Or.inl rfl
  · have hsup : (Finset.range n).sup id < n :=
      (Finset.sup_lt_iff (Nat.pos_of_ne_zero hzero : (⊥ : ℕ) < n)).mpr fun i hi =>
        Finset.mem_range.mp hi
    exact Or.inr (Or.inl hsup)

theorem udpReceive_inFlight (h : InFlight P k n a datagram) :
    udpReceive (some datagram) = some datagram := by
  have hlength : datagram.length ≠ 0 := by
    rw [h.bytes, List.length_append, length_headerBytes]
    omega
  rw [udpReceive, if_neg hlength, List.take_of_length_le h.fits]

/-- **A session that expects the n-th record** opens it, and then expects the next. -/
theorem receive_inFlight (h : Expects k.mirror n e.session) (hn : n < 2 ^ 64)
    (hdatagram : InFlight P k n a datagram) (nowMs : UInt32) :
    ∃ c, e.receiveUncommitted P (some datagram) nowMs = .ok c ∧ Opened k n a c ∧
      Expects k.mirror (n + 1) (e.commit c).2.session := by
  have haccepted := accepted_of_expects h hn
  obtain ⟨c, hopen, hopened⟩ := hdatagram.opens e.session nowMs h.keys haccepted
  refine ⟨c, ?_, hopened, h.keys, ?_⟩
  · unfold NativeEndpoint.receiveUncommitted
    rw [udpReceive_inFlight hdatagram]
    exact hopen
  · have hcommit := h.window.commit haccepted
    rw [toNat_ofNat_sequence hn, ← Finset.range_add_one] at hcommit
    show Refines (e.session.replay.commit c.header.sequence).2 _
    rw [hopened.sequence]
    exact hcommit

/-- **What is in flight was not forged.** -/
theorem ideal_inFlight (ha : a ∈ log) (hkeys : e.session.keys = k.mirror)
    (h : InFlight P k n a datagram) : Ideal P log e (some datagram) := by
  intro bytes plaintext hbytes hplain
  rw [udpReceive_inFlight h] at hbytes
  obtain rfl := Option.some.inj hbytes
  have htake : datagram.take kHeaderBytes = headerBytes a.header := by
    rw [h.bytes, List.take_left' (length_headerBytes _)]
  have hdrop : datagram.drop kHeaderBytes = a.ciphertext := by
    rw [h.bytes, List.drop_left' (length_headerBytes _)]
  have hread : readHeader datagram = a.header := by
    rw [h.bytes, readHeader_headerBytes]
  have hopen := h.plain
  change openPlaintext P e.session datagram (readHeader datagram) = some plaintext at hplain
  rw [openPlaintext, htake, hdrop, hread, hkeys] at hplain
  have hnonce : makeNonce k.mirror.session a.header.sequence = a.nonce := h.nonce.symm
  have hkey : k.mirror.rx = k.tx := rfl
  rw [hnonce, hkey, hopen] at hplain
  show Produced log e.session.keys.rx (makeNonce e.session.keys.session _) _ _ _
  rw [htake, hdrop, hread, hkeys]
  exact ⟨a, ha, h.key, h.nonce, rfl, rfl, Option.some.inj hplain⟩

end NewMavlink.Endpoints.Links
