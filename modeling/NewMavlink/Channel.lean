import NewMavlink.Record.OpenCommit
import NewMavlink.Record.SendLog
import NewMavlink.Transport

/-! # A sender, a receiver and the network

One session seals, an endpoint receives whatever datagrams the network hands it, and either side
may be rekeyed at any time, to any keys its own checks admit. The AEAD is ideal in a run if it
never opens what was not sealed (`Unforged`); nothing else is assumed of it, and nothing of the
network.

* `inv_linkStep`: the receiver's window refines the set of sequences delivered in its epoch, and
  every record delivered is one that was sealed.
* `channel_safe`: in every such run what is delivered was sealed, nothing is delivered twice, the
  commit after an open succeeds, and a refused datagram leaves no trace. -/

namespace NewMavlink.Channel

open NewMavlink.Lib.Buffer NewMavlink.Lib.Runs NewMavlink.Wire NewMavlink.Crypto
open NewMavlink.Record.Header NewMavlink.Record.Replay NewMavlink.Record.SealOpen
open NewMavlink.Record.SendLog NewMavlink.Record.OpenCommit NewMavlink.Record.RoundTrip
open NewMavlink.Transport

/-- A call on the sender, a datagram for the receiver, or a rekey of the receiver. -/
inductive LinkOp where
  | send (op : SendOp)
  | receive (datagram : Option (List UInt8)) (nowMs : UInt32)
  | receiverRekey (nextKeys : DirectionalKeys Block)

/-- The sender with the records it has sealed, and the receiver with those it has delivered. -/
structure Link where
  sender : Session × List Sent
  receiver : NativeEndpoint
  delivered : List OpenRecord := []

/-- Two sessions as they are constructed. -/
def start (senderKeys receiverKeys : DirectionalKeys Block) : Link :=
  { sender := ({ keys := senderKeys }, []), receiver := ⟨{ keys := receiverKeys }⟩ }

/-- The link after a receive: what is delivered is logged. -/
def logDelivery (c : Link) : Except RecordError OpenRecord × NativeEndpoint → Link
  | (.ok r, e) => { c with receiver := e, delivered := c.delivered ++ [r] }
  | (.error _, e) => { c with receiver := e }

/-- The link after a call. -/
def linkStep (P : Aead) (c : Link) : LinkOp → Link
  | .send op => { c with sender := sendStep P c.sender op }
  | .receive datagram nowMs => logDelivery c (c.receiver.receive P datagram nowMs)
  | .receiverRekey nextKeys => { c with receiver := ⟨(c.receiver.session.rekey nextKeys).2⟩ }

/-- A call of `aead_open` that succeeded has opened what a logged call of `aead_seal` made. -/
def Produced (log : List Sent) (key nonce : Block) (aad ciphertext plaintext : List UInt8) : Prop :=
  ∃ a ∈ log, a.key = key ∧ a.nonce = nonce ∧ headerBytes a.header = aad ∧
    a.ciphertext = ciphertext ∧ a.plaintext = plaintext

/-- **The AEAD is ideal**: if it opens the datagram under the receiver's key, it was sealed. -/
def Unforged (P : Aead) (c : Link) : LinkOp → Prop
  | .receive datagram _ => ∀ bytes plaintext, udpReceive datagram = some bytes →
      openPlaintext P c.receiver.session bytes (readHeader bytes) = some plaintext →
      Produced c.sender.2 c.receiver.session.keys.rx
        (makeNonce c.receiver.session.keys.session (readHeader bytes).sequence)
        (bytes.take kHeaderBytes) (bytes.drop kHeaderBytes) plaintext
  | _ => True

variable {P : Aead} {c : Link} {r : OpenRecord}

/-- The receiver, by its commits. -/
def Link.committing (c : Link) : Receiver :=
  { session := c.receiver.session, committed := c.delivered }

/-- `r` is what `a` sealed. -/
def Delivers (a : Sent) (r : OpenRecord) : Prop :=
  r.header = a.header ∧ r.length = a.plaintext.length ∧ r.bytes = a.plaintext

/-- **What holds after every call.** -/
structure Inv (P : Aead) (c : Link) : Prop where
  sender : Record.SendLog.Inv P c.sender
  receiver : Record.OpenCommit.Inv c.committing
  sealed : ∀ r ∈ c.delivered, ∃ a ∈ c.sender.2, Delivers a r

theorem inv_start (senderKeys receiverKeys : DirectionalKeys Block) :
    Inv P (start senderKeys receiverKeys) :=
  ⟨Record.SendLog.inv_start P _, Record.OpenCommit.inv_fresh receiverKeys, by simp [start]⟩

theorem inv_send (h : Inv P c) (op : SendOp) :
    Inv P { c with sender := sendStep P c.sender op } where
  sender := inv_sendStep P c.sender op h.sender
  receiver := h.receiver
  sealed r hr := by
    obtain ⟨a, ha, hd⟩ := h.sealed r hr
    exact ⟨a, mem_sendStep ha, hd⟩

/-- What is opened, if a call in some log of `Q` made it, was sealed under that key, header and
payload. -/
theorem delivers_of_produced {Q : List Sent → Prop} {s : Session} {nowMs : UInt32}
    {bytes : List UInt8}
    (hu : ∀ plaintext, openPlaintext P s bytes (readHeader bytes) = some plaintext →
      ∃ log, Q log ∧ Produced log s.keys.rx
        (makeNonce s.keys.session (readHeader bytes).sequence)
        (bytes.take kHeaderBytes) (bytes.drop kHeaderBytes) plaintext)
    (ho : s.openUncommitted P (.data bytes) nowMs = .ok r) :
    ∃ log, Q log ∧ ∃ a ∈ log, a.key = s.keys.rx ∧ Delivers a r := by
  obtain ⟨_, h, plaintext, hdata, hd, -, hp, rfl⟩ := openUncommitted_eq_ok.mp ho
  cases hdata
  have hh := decodeHeader_eq_some hd
  rw [Span.elems_data] at hh
  rw [hh] at hp
  obtain ⟨log, hlog, a, ha, hkey, -, haad, -, hpt⟩ := hu plaintext hp
  obtain ⟨-, -, -, hmax, -, -, hlen⟩ := aeadOpen_eq_some.mp hp
  refine ⟨log, hlog, a, ha, hkey, ?_, ?_, ?_⟩
  · rw [header_openRecord, hh, ← List.take_append_drop kHeaderBytes bytes, ← haad,
      readHeader_headerBytes]
  · rw [length_openRecord, hpt]
  · rw [hpt]
    exact bytes_openRecord h (by omega)

theorem delivers_of_unforged {datagram : Option (List UInt8)} {nowMs : UInt32} {bytes : List UInt8}
    (hu : Unforged P c (.receive datagram nowMs)) (hb : udpReceive datagram = some bytes)
    (ho : c.receiver.session.openUncommitted P (.data bytes) nowMs = .ok r) :
    ∃ a ∈ c.sender.2, Delivers a r := by
  obtain ⟨_, rfl, a, ha, -, hdelivers⟩ :=
    delivers_of_produced (fun plaintext hp => ⟨_, rfl, hu bytes plaintext hb hp⟩) ho
  exact ⟨a, ha, hdelivers⟩

theorem inv_receive (h : Inv P c) {datagram : Option (List UInt8)} {nowMs : UInt32}
    (hu : Unforged P c (.receive datagram nowMs)) :
    Inv P (logDelivery c (c.receiver.receive P datagram nowMs)) := by
  rcases receive_cases P c.receiver datagram nowMs with ⟨e, he⟩ | ⟨bytes, r, hb, ho, he⟩
  · rw [he]; exact h
  · have hrec := inv_commit h.receiver (epoch_of_open ho) (accepted_of_open ho)
    have hnew : ∃ a ∈ c.sender.2, Delivers a r := delivers_of_unforged hu hb ho
    rw [he, logDelivery]
    exact ⟨h.sender, hrec, forall_mem_log h.sealed hnew⟩

/-- **Every call keeps the invariant.** -/
theorem inv_linkStep (c : Link) (op : LinkOp) (h : Inv P c) (hu : Unforged P c op) :
    Inv P (linkStep P c op) := by
  cases op with
  | send op => exact inv_send h op
  | receive datagram nowMs => exact inv_receive h hu
  | receiverRekey nextKeys =>
    rw [linkStep]
    rcases rekey_cases c.receiver.session nextKeys with he | ⟨hr, he⟩
    · rw [he]; exact h
    · rw [he]
      exact ⟨h.sender, inv_rekey h.receiver hr, h.sealed⟩

/-! ### Runs -/

/-- The link after a list of calls. -/
def links (P : Aead) (senderKeys receiverKeys : DirectionalKeys Block) (ops : List LinkOp) : Link :=
  run (linkStep P) (start senderKeys receiverKeys) ops

/-- **Channel safety.** In every run of seals, datagrams and rekeys in which the AEAD is ideal,
every record the receiver delivers has the header and the payload of one the sender sealed; no
(epoch, sequence) is sealed twice and none is delivered twice; the commit after an open succeeds;
and a datagram that is refused leaves the receiver as it was. -/
theorem channel_safe {P : Aead} {senderKeys receiverKeys : DirectionalKeys Block}
    {ops : List LinkOp}
    (hideal : Along (linkStep P) (Unforged P) (start senderKeys receiverKeys) ops) :
    let c := links P senderKeys receiverKeys ops
    (∀ r ∈ c.delivered, ∃ a ∈ c.sender.2, Delivers a r) ∧
    (c.sender.2.map fun a => (a.header.epoch, a.header.sequence)).Nodup ∧
    (c.delivered.map slot).Nodup ∧
    (∀ bytes nowMs r, c.receiver.session.openUncommitted P bytes nowMs = .ok r →
      (c.receiver.session.commitReplay r).1 = .ok ()) ∧
    (∀ datagram nowMs e receiver, c.receiver.receive P datagram nowMs = (.error e, receiver) →
      receiver = c.receiver) := by
  intro c
  have h : Inv P c := run_invariant inv_linkStep (inv_start senderKeys receiverKeys) hideal
  have hsent : ∀ {a b : Sent}, Before a b →
      (a.header.epoch, a.header.sequence) ≠ (b.header.epoch, b.header.sequence) := by
    intro a b hab heq
    obtain ⟨he, hs⟩ := Prod.mk.inj heq
    rcases hab with hlt | ⟨-, hlt⟩
    · exact UInt64.ne_of_lt hlt he
    · exact UInt64.ne_of_lt hlt hs
  refine ⟨h.sealed, ?_, h.receiver.nodup, ?_, ?_⟩
  · rw [List.Nodup, List.pairwise_map]
    exact h.sender.sorted.imp hsent
  · intro bytes nowMs r ho
    rw [commitReplay_of_open ho]
  · intro datagram nowMs e receiver he
    rcases receive_cases P c.receiver datagram nowMs with ⟨e', hc⟩ | ⟨_, _, -, -, hc⟩
    · exact (Prod.mk.inj (hc.symm.trans he)).2.symm
    · simp [hc] at he

/-! ### A run -/

/-- A correct AEAD opens a record to what was sealed in it. -/
theorem produced_of_sealed (hP : P.Correct) {s t : Session} {input : RecordHeader}
    {plaintext : Span UInt8} {cipher bytes opened : List UInt8}
    (hcipher : sealCipher P s input plaintext = some cipher)
    (hlength : plaintext.length ≤ kMaxPayloadBytes) {log : List Sent}
    (hlog : sentBy s input plaintext cipher ∈ log) (hkeys : t.keys = s.keys.mirror)
    (hbytes : bytes = headerBytes (sealedHeader input plaintext.length) ++ cipher)
    (hopen : openPlaintext P t bytes (readHeader bytes) = some opened) :
    Produced log t.keys.rx
      (makeNonce t.keys.session (readHeader bytes).sequence) (bytes.take kHeaderBytes)
      (bytes.drop kHeaderBytes) opened := by
  have htake : bytes.take kHeaderBytes = headerBytes (sealedHeader input plaintext.length) := by
    rw [hbytes, List.take_left' (length_headerBytes _)]
  have hdrop : bytes.drop kHeaderBytes = cipher := by
    rw [hbytes, List.drop_left' (length_headerBytes _)]
  have hread : readHeader bytes = sealedHeader input plaintext.length := by
    rw [hbytes, readHeader_headerBytes]
  rw [openPlaintext, htake, hdrop, hread, hkeys] at hopen
  have hagain := aeadOpen_of_aeadSeal hP hcipher hlength
  rw [htake, hdrop, hread, hkeys]
  exact ⟨_, hlog, rfl, rfl, rfl, rfl, Option.some.inj (hagain.symm.trans hopen)⟩

/-- The record of `security_test.cpp` is sealed, and arrives. -/
def testOps : List LinkOp :=
  [.send (.seal (testHeader 3 4) (.data testPlain) (List.Vector.replicate _ 0)),
    .receive (some (testRecord 3 4)) 0]

/-- The link when the record arrives. -/
def testLink : Link where
  sender := (Session.sent { keys := testKeys 3 1 2 } 4,
    [sentBy { keys := testKeys 3 1 2 } (testHeader 3 4) (.data testPlain)
      (testPlain ++ List.replicate kTagBytes 0)])
  receiver := ⟨{ keys := (testKeys 3 1 2).mirror }⟩

theorem sealable_test : Sealable { keys := testKeys 3 1 2 } (testHeader 3 4) (.data testPlain) := by
  constructor <;> decide

theorem sealCipher_testPlain (s : Session) (epoch sequence : UInt64) :
    sealCipher paddingAead s (testHeader epoch sequence) (.data testPlain) =
      some (testPlain ++ List.replicate kTagBytes 0) :=
  aeadSeal_paddingAead rfl rfl (by decide) (by decide)

theorem linkStep_test : linkStep paddingAead (start (testKeys 3 1 2) (testKeys 3 1 2).mirror)
    (.send (.seal (testHeader 3 4) (.data testPlain) (List.Vector.replicate _ 0))) = testLink := by
  rw [linkStep, start, sendStep_of_sealable sealable_test (sealCipher_testPlain _ 3 4), testLink]
  rfl

theorem testRecord_eq (epoch sequence : UInt64) : testRecord epoch sequence =
    headerBytes (sealedHeader (testHeader epoch sequence) (Span.data testPlain).length) ++
      (testPlain ++ List.replicate kTagBytes 0) := rfl

theorem udpReceive_test : udpReceive (some (testRecord 3 4)) = some (testRecord 3 4) := by
  rw [testRecord_eq]
  exact udpReceive_sealed sealable_test (sealCipher_testPlain _ 3 4)

theorem unforged_test : Unforged paddingAead testLink (.receive (some (testRecord 3 4)) 0) := by
  intro bytes p hbytes hopen
  obtain rfl := Option.some.inj (udpReceive_test.symm.trans hbytes)
  exact produced_of_sealed correct_paddingAead (sealCipher_testPlain _ 3 4)
    (show testPlain.length ≤ kMaxPayloadBytes by decide) (List.mem_singleton_self _) rfl
    (testRecord_eq 3 4) hopen

/-- What is opened of the record. -/
def testOpened (sequence : UInt64) : OpenRecord :=
  openRecord (sealedHeader (testHeader 3 sequence) 6) testPlain

theorem receive_test {e : NativeEndpoint} {sequence : UInt64}
    (hkeys : e.session.keys = (testKeys 3 1 2).mirror)
    (hs : Sealable { keys := testKeys 3 1 2 } (testHeader 3 sequence) (.data testPlain))
    (ha : e.session.replay.accepted sequence = true) :
    e.receive paddingAead (some (testRecord 3 sequence)) 0 =
      (.ok (testOpened sequence), Transport.delivered e (testOpened sequence)) := by
  rw [testRecord_eq]
  exact receive_sealed correct_paddingAead hs (sealCipher_testPlain _ 3 sequence)
    (mirrors_mirror hs.keys hkeys) ha (Or.inl rfl)

/-- The hypothesis of `channel_safe` can be met, and the record is delivered. -/
theorem channel_safe_test :
    let c := links paddingAead (testKeys 3 1 2) (testKeys 3 1 2).mirror testOps
    c.delivered.length = 1 ∧ ∀ r ∈ c.delivered, ∃ a ∈ c.sender.2, Delivers a r := by
  have hideal : Along (linkStep paddingAead) (Unforged paddingAead)
      (start (testKeys 3 1 2) (testKeys 3 1 2).mirror) testOps := by
    rw [testOps, along_cons, along_cons, linkStep_test]
    exact ⟨trivial, unforged_test, trivial⟩
  refine ⟨?_, (channel_safe hideal).1⟩
  rw [links, testOps, run_cons, run_cons, run_nil, linkStep_test, linkStep,
    receive_test rfl sealable_test (by decide)]
  rfl

end NewMavlink.Channel
