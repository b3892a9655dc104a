import NewMavlink.Record.SealOpen

/-! # A sealed record opens at the peer, and nowhere else

`seal` and `open_uncommitted` each check a header against the session's own keys; the two lists of
checks meet in the ids, which the receiver reads the other way round.

* `openable_sealed`: a receiver with mirrored keys admits every header that `seal` writes.
* `open_of_seal`: with a correct AEAD it opens the record and returns the payload and the header;
  a session whose ids, session value or epoch do not mirror the sender's refuses it, whatever the
  AEAD does.
* `header_canonical`: a header has one wire form, so the header that was opened determines the
  bytes that were authenticated. -/

namespace NewMavlink.Record.RoundTrip

open NewMavlink.Lib.Buffer NewMavlink.Wire NewMavlink.Crc16 NewMavlink.Crypto
open NewMavlink.Record.Header NewMavlink.Record.SealOpen

/-- `r` has the keys of the other side of `s`, in the direction from `s` to `r`. -/
structure Mirrors (s r : Session) : Prop where
  keys : validKeys r.keys = true
  localId : r.keys.localId = s.keys.peerId
  peerId : r.keys.peerId = s.keys.localId
  session : r.keys.session = s.keys.session
  key : r.keys.rx = s.keys.tx

theorem validKeys_mirror (k : DirectionalKeys Block) : validKeys k.mirror = validKeys k := by
  unfold validKeys DirectionalKeys.mirror
  grind

theorem mirrors_mirror {s r : Session} (hvalid : validKeys s.keys = true)
    (h : r.keys = s.keys.mirror) : Mirrors s r := by
  constructor
  · rw [h, validKeys_mirror, hvalid]
  all_goals rw [h]; rfl

variable {P : Aead} {s s' r : Session} {input : RecordHeader} {plaintext : Span UInt8}
  {output : RecordBuffer} {record cipher : List UInt8} {nowMs : UInt32}

theorem toNat_payloadLen {n : ℕ} (h : n ≤ kMaxPayloadBytes) : (UInt16.ofNat n).toNat = n := by
  rw [UInt16.toNat_ofNat']
  exact Nat.mod_eq_of_lt (lt_of_le_of_lt h (by decide))

theorem length_of_sealCipher (h : sealCipher P s input plaintext = some cipher) :
    cipher.length = plaintext.length + kTagBytes := by
  obtain ⟨-, -, -, -, -, hl⟩ := aeadSeal_eq_some.mp h
  exact hl

/-- **A receiver with mirrored keys admits every header that `seal` writes.** -/
theorem openable_sealed (hs : Sealable s input plaintext) (hm : Mirrors s r)
    (ha : r.replay.accepted input.sequence = true)
    (hd : input.deadlineMs = 0 ∨ nowMs.toNat ≤ input.deadlineMs.toNat) :
    Openable r (kHeaderBytes + plaintext.length + kTagBytes) nowMs
      (sealedHeader input plaintext.length) where
  keys := hm.keys
  version := rfl
  type := hs.type
  flags := hs.flags
  qos := hs.qos
  source := hs.source.trans hm.peerId.symm
  destination := hs.destination.trans hm.localId.symm
  session := hs.session.trans (congrArg SessionId.value hm.session).symm
  epoch := hs.epoch.trans (congrArg SessionId.epoch hm.session).symm
  payload := by
    show (UInt16.ofNat plaintext.length).toNat ≤ _
    rw [toNat_payloadLen hs.length]; exact hs.length
  length := by
    show _ = _ + (UInt16.ofNat plaintext.length).toNat + _
    rw [toNat_payloadLen hs.length]
  deadline := hd
  replay := ha

theorem openUncommitted_sealed (hP : P.Correct) (hs : Sealable s input plaintext)
    (hc : sealCipher P s input plaintext = some cipher) (hm : Mirrors s r)
    (ha : r.replay.accepted input.sequence = true)
    (hd : input.deadlineMs = 0 ∨ nowMs.toNat ≤ input.deadlineMs.toNat) :
    r.openUncommitted P (.data (headerBytes (sealedHeader input plaintext.length) ++ cipher))
        nowMs = .ok (openRecord (sealedHeader input plaintext.length) plaintext.elems) := by
  refine openUncommitted_eq_ok.mpr ⟨_, _, _, rfl,
    decodeHeader_headerBytes (headerCrc_sealedHeader _ _) _, ?_, ?_, rfl⟩
  · rw [List.length_append, length_headerBytes, length_of_sealCipher hc, ← Nat.add_assoc]
    exact openable_sealed hs hm ha hd
  · unfold openPlaintext
    rw [List.take_left' (length_headerBytes _), List.drop_left' (length_headerBytes _),
      hm.key, hm.session]
    exact aeadOpen_of_aeadSeal hP hc hs.length

theorem open_test {epoch sequence : UInt64}
    (hs : Sealable s (testHeader epoch sequence) (.data testPlain)) (hm : Mirrors s r)
    (ha : r.replay.accepted sequence = true) :
    r.openUncommitted paddingAead (.data (testRecord epoch sequence)) nowMs =
      .ok (openRecord (sealedHeader (testHeader epoch sequence) 6) testPlain) := by
  have hc : sealCipher paddingAead s (testHeader epoch sequence) (.data testPlain) =
      some (testPlain ++ List.replicate kTagBytes 0) :=
    aeadSeal_paddingAead rfl rfl (by decide) (by decide)
  have hd : (testHeader epoch sequence).deadlineMs = 0 ∨
      nowMs.toNat ≤ (testHeader epoch sequence).deadlineMs.toNat := Or.inl rfl
  have ho := openUncommitted_sealed correct_paddingAead hs hc hm ha hd
  rwa [Span.length_data, Span.elems_data, show testPlain.length = 6 from rfl, ← testRecord] at ho

theorem mirror_of_open {P' : Aead} {o : OpenRecord} (hs : Sealable s input plaintext)
    (ho : r.openUncommitted P' (.data (headerBytes (sealedHeader input plaintext.length) ++ cipher))
      nowMs = .ok o) :
    r.keys.localId = s.keys.peerId ∧ r.keys.peerId = s.keys.localId ∧
      r.keys.session = s.keys.session := by
  obtain ⟨record, h, p, -, hd, hop, -⟩ := openUncommitted_eq_ok.mp ho
  rw [decodeHeader_headerBytes (headerCrc_sealedHeader _ _)] at hd
  obtain rfl := Option.some.inj hd
  refine ⟨hop.destination.symm.trans hs.destination, hop.source.symm.trans hs.source, ?_⟩
  have hv := hop.session.symm.trans hs.session
  have he := hop.epoch.symm.trans hs.epoch
  cases hr : r.keys.session
  cases hk : s.keys.session
  simp_all

/-- **Seal and open agree.** A correct AEAD given, the receiver whose keys mirror the sender's
opens the record that was sealed, within its deadline and replay window, and returns the payload
and the header as it was given to `seal`, but for the version, the length and the CRC. No session
with other ids or another session value or epoch opens it, whatever its AEAD does; in particular
none with the sender's own id, which the sender keeps in every later state. -/
theorem open_of_seal (hs : s.seal P input plaintext output = (.ok record, s')) :
    (P.Correct → ∀ r nowMs, Mirrors s r → r.replay.accepted input.sequence = true →
      (input.deadlineMs = 0 ∨ nowMs.toNat ≤ input.deadlineMs.toNat) →
      ∃ o, r.openUncommitted P (.data record) nowMs = .ok o ∧ o.bytes = plaintext.elems ∧
        o.length = plaintext.length ∧
        o.header = { input with
          version := kVersion
          payloadLen := UInt16.ofNat plaintext.length
          headerCrc16 := o.header.headerCrc16 }) ∧
    (∀ r : Session, ¬ (r.keys.localId = s.keys.peerId ∧ r.keys.peerId = s.keys.localId ∧
        r.keys.session = s.keys.session) →
      ∀ P' nowMs, ∃ e, r.openUncommitted P' (.data record) nowMs = .error e) ∧
    (∀ r : Session, r.keys.localId = s.keys.localId →
      ∀ P' nowMs, ∃ e, r.openUncommitted P' (.data record) nowMs = .error e) := by
  obtain ⟨hsl, cipher, hc, rfl, rfl⟩ := seal_eq_ok.mp hs
  have hlen : plaintext.elems.length = plaintext.length := Span.length_elems hsl.notNull
  have hother : ∀ r : Session, ¬ (r.keys.localId = s.keys.peerId ∧ r.keys.peerId = s.keys.localId ∧
        r.keys.session = s.keys.session) →
      ∀ P' nowMs, ∃ e, r.openUncommitted P' (.data (headerBytes (sealedHeader input
        plaintext.length) ++ cipher)) nowMs = .error e := by
    intro r hr P' nowMs
    cases ho : r.openUncommitted P' (.data (headerBytes (sealedHeader input
      plaintext.length) ++ cipher)) nowMs with
    | error e => exact ⟨e, rfl⟩
    | ok o => exact absurd (mirror_of_open hsl ho) hr
  refine ⟨?_, hother, ?_⟩
  · intro hP r nowMs hm ha hd
    have ho := openUncommitted_sealed hP hsl hc hm ha hd
    have hb := bytes_openRecord (sealedHeader input plaintext.length) (hlen.trans_le hsl.length)
    refine ⟨_, ho, hb, hlen, ?_⟩
    rw [header_openRecord, sealedHeader]
  · -- the sender's ids are distinct, so none of its own states mirrors it
    intro r hid
    refine hother r fun hr => ?_
    have hk := hsl.keys
    simp [validKeys, ← hr.1, hid] at hk

/-- The record of `security_test.cpp`: it opens at the peer and nowhere with id 1. -/
theorem open_of_seal_test :
    (∃ o, Session.openUncommitted paddingAead { keys := (testKeys 3 1 2).mirror }
      (.data (testRecord 3 4)) 0 = .ok o ∧ o.bytes = testPlain) ∧
    ∃ e, Session.openUncommitted paddingAead { keys := testKeys 3 1 2 }
      (.data (testRecord 3 4)) 0 = .error e := by
  have hs := seal_test (s := { keys := testKeys 3 1 2 }) (List.Vector.replicate _ 0)
    (show Sealable _ (testHeader 3 4) _ by constructor <;> decide)
  obtain ⟨hopen, -, hself⟩ := open_of_seal hs
  obtain ⟨o, ho, hb, -⟩ := hopen correct_paddingAead { keys := (testKeys 3 1 2).mirror } 0
    (by constructor <;> decide) (by decide) (Or.inl (by decide))
  exact ⟨⟨o, ho, hb⟩, hself _ (by decide) paddingAead 0⟩

/-! ### One wire form -/

/-- **A header has one wire form.** `decode_header` accepts forty bytes exactly if they are what
`encode_header` writes for the header it returns, and that header carries the CRC of the first
thirty-six; so the header of a record that is opened is written again as the bytes that were
authenticated. -/
theorem header_canonical :
    (∀ (b out : List UInt8) (h : RecordHeader), b.length = 40 → out.length = 40 →
      (decodeHeader (.data b) = some h ↔
        encodeHeader h out true = b ∧
          h.headerCrc16 = crc16Ccitt (.data ((encodeHeader h out true).take 36)))) ∧
    ∀ (P : Aead) (s : Session) (record : Span UInt8) (nowMs : UInt32) (r : OpenRecord)
      (out : List UInt8), out.length = 40 → s.openUncommitted P record nowMs = .ok r →
        encodeHeader r.header out true = record.elems.take 40 ∧
          aeadOpen P s.keys.rx (makeNonce s.keys.session r.header.sequence)
            (.data (encodeHeader r.header out true)) (.data (record.elems.drop 40))
            kMaxPayloadBytes = some r.bytes := by
  have hwhole : ∀ (h : RecordHeader) (out : List UInt8), out.length = 40 →
      encodeHeader h out true = headerBytes h := by
    intro h out hout
    rw [← take_encodeHeader h hout.ge, List.take_of_length_le (by rw [length_encodeHeader, hout])]
  refine ⟨fun b out h hb hout => ?_, fun P s record nowMs r out hout ho => ?_⟩
  · have hpre := take_encodeHeader_prefix h true hout.ge
    rw [decodeHeader_iff hb.ge, List.take_of_length_le hb.le, hwhole h out hout,
      ← hwhole h out hout, hpre, ← headerCrc, eq_comm, eq_comm (a := headerCrc h)]
  · obtain ⟨l, h, plaintext, rfl, hd, hop, -, rfl⟩ := openUncommitted_eq_ok.mp ho
    have hlen : 40 ≤ l.length := by
      have hl := hop.length
      unfold kHeaderBytes at hl
      omega
    have hbytes : l.take 40 = headerBytes h := ((decodeHeader_iff hlen).mp hd).1
    have hsame : encodeHeader h out true = l.take 40 := (hwhole h out hout).trans hbytes.symm
    refine ⟨hsame, ?_⟩
    have hplain := authentic_of_open ho
    rw [header_openRecord, hsame]
    exact hplain

/-- The header of the record of `security_test.cpp`: decoded, encoded again, and authenticated. -/
theorem header_canonical_test :
    (∃ h, decodeHeader (.data ((testRecord 3 4).take 40)) = some h ∧
      encodeHeader h (List.replicate 40 0) true = (testRecord 3 4).take 40) ∧
    ∃ r, Session.openUncommitted paddingAead { keys := (testKeys 3 1 2).mirror }
        (.data (testRecord 3 4)) 0 = .ok r ∧
      encodeHeader r.header (List.replicate 40 0) true = (testRecord 3 4).take 40 := by
  have hs : Sealable { keys := testKeys 3 1 2 } (testHeader 3 4) (.data testPlain) := by
    constructor <;> decide
  have hm : Mirrors { keys := testKeys 3 1 2 } { keys := (testKeys 3 1 2).mirror } := by
    constructor <;> decide
  have hopen : Session.openUncommitted paddingAead { keys := (testKeys 3 1 2).mirror }
      (.data (testRecord 3 4)) 0 = _ := open_test hs hm (by decide)
  have hfront : (testRecord 3 4).take 40 = headerBytes (sealedHeader (testHeader 3 4) 6) :=
    List.take_left' (length_headerBytes _)
  have hdec : decodeHeader (.data ((testRecord 3 4).take 40)) =
      some (sealedHeader (testHeader 3 4) 6) := by
    rw [hfront, ← List.append_nil (headerBytes _)]
    exact decodeHeader_headerBytes (headerCrc_sealedHeader _ _) []
  have hlen : ((testRecord 3 4).take 40).length = 40 := by rw [hfront, length_headerBytes]
  refine ⟨⟨_, hdec, ?_⟩, ⟨_, hopen, ?_⟩⟩
  · exact ((header_canonical.1 _ (List.replicate 40 0) _ hlen List.length_replicate).mp hdec).1
  · exact (header_canonical.2 _ _ _ _ _ (List.replicate 40 0) List.length_replicate hopen).1

end NewMavlink.Record.RoundTrip
