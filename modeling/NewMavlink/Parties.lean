import NewMavlink.Endpoints.Hops

/-! # Any number of sessions on one network

Every party has one session that seals, opens and is rekeyed, and the network hands any party any
datagram at any time: what another has sent, what it has sent itself, what was meant for a third, or
what nobody has sent. The AEAD is ideal in a run if what a party opens, some party has sealed, in
either direction and under whatever keys.

* `inv_partiesStep`: what a party has sealed and delivered names the two ids and the session of its
  keys, whatever it was rekeyed to.
* `parties_safe`: so what a party delivers another party has sealed for it, never the party itself;
  no (epoch, sequence) is delivered twice, and what is delivered is, with its multiplicities, among
  what the peer has sealed. -/

namespace NewMavlink.Parties

open NewMavlink.Lib.Buffer NewMavlink.Lib.Runs NewMavlink.Wire NewMavlink.Crypto
open NewMavlink.Record.Header NewMavlink.Record.SealOpen NewMavlink.Record.RoundTrip
open NewMavlink.Record.SendLog NewMavlink.Record.OpenCommit NewMavlink.Transport NewMavlink.Channel
open NewMavlink.Endpoints.Hops

/-- A session, with the records it has sealed and those it has delivered. -/
structure Party where
  session : Session
  sealed : List Sent := []
  delivered : List OpenRecord := []

/-- A call on the party's session, or a datagram for it. -/
inductive PartyOp where
  | send (op : SendOp)
  | receive (datagram : Option (List UInt8)) (nowMs : UInt32)

/-- The party after a delivery, or after a refusal. -/
def Party.deliver (x : Party) : Except RecordError OpenRecord × NativeEndpoint → Party
  | (.ok r, e) => { x with session := e.session, delivered := x.delivered ++ [r] }
  | (.error _, e) => { x with session := e.session }

/-- The party after a call. -/
def partyStep (P : Aead) (x : Party) : PartyOp → Party
  | .send op =>
    let y := sendStep P (x.session, x.sealed) op
    { x with session := y.1, sealed := y.2 }
  | .receive datagram nowMs => x.deliver (NativeEndpoint.receive P ⟨x.session⟩ datagram nowMs)

variable {ι : Type}

/-- One of the parties makes a call. -/
def partiesStep [DecidableEq ι] (P : Aead) (x : ι → Party) (move : ι × PartyOp) : ι → Party :=
  Function.update x move.1 (partyStep P (x move.1) move.2)

theorem partiesStep_self [DecidableEq ι] (P : Aead) (x : ι → Party) (i : ι) (op : PartyOp) :
    partiesStep P x (i, op) i = partyStep P (x i) op :=
  Function.update_self ..

theorem partiesStep_of_ne [DecidableEq ι] (P : Aead) (x : ι → Party) {i j : ι} (h : j ≠ i)
    (op : PartyOp) : partiesStep P x (i, op) j = x j :=
  Function.update_of_ne h ..

/-- Sessions as they are constructed. -/
def start (keys : ι → DirectionalKeys Block) : ι → Party :=
  fun i => { session := { keys := keys i } }

/-- **The AEAD is ideal**: what a party opens, some party has sealed. -/
def Unforged (P : Aead) (x : ι → Party) : ι × PartyOp → Prop
  | (i, .receive datagram _) => ∀ bytes plaintext, udpReceive datagram = some bytes →
      openPlaintext P (x i).session bytes (readHeader bytes) = some plaintext →
      ∃ j, Produced (x j).sealed (x i).session.keys.rx
        (makeNonce (x i).session.keys.session (readHeader bytes).sequence)
        (bytes.take kHeaderBytes) (bytes.drop kHeaderBytes) plaintext
  | (_, .send _) => True

/-- The two ids and the session that the keys are for. -/
def channelOf (k : DirectionalKeys Block) : UInt16 × UInt16 × UInt64 :=
  (k.localId, k.peerId, k.session.value)

/-- `j` has the other end of the channel of `i`. -/
def Peers (keys : ι → DirectionalKeys Block) (i j : ι) : Prop :=
  channelOf (keys j) = ((keys i).peerId, (keys i).localId, (keys i).session.value)

variable {P : Aead} {x : ι → Party} {keys : ι → DirectionalKeys Block} {p : Party}
  {k : DirectionalKeys Block}

/-! ### One party -/

/-- **What holds of a party after every call**: its keys are of the channel of `k`, and so is what
it has sealed and delivered. -/
structure PartyInv (P : Aead) (k : DirectionalKeys Block) (p : Party) : Prop where
  channel : channelOf p.session.keys = channelOf k
  sender : Record.SendLog.Inv P (p.session, p.sealed)
  receiver : Record.OpenCommit.Inv { session := p.session, committed := p.delivered }
  sealed : ∀ a ∈ p.sealed,
    (a.header.sourceId, a.header.destinationId, a.header.sessionId) = channelOf k
  delivered : ∀ r ∈ p.delivered, k.localId ≠ k.peerId ∧
    (r.header.destinationId, r.header.sourceId, r.header.sessionId) = channelOf k

theorem partyInv_start (P : Aead) (k : DirectionalKeys Block) :
    PartyInv P k { session := { keys := k } } :=
  ⟨rfl, Record.SendLog.inv_start P _, inv_fresh k, by simp, by simp⟩

theorem channelOf_rekeyable {s : Session} {nextKeys : DirectionalKeys Block}
    (h : Rekeyable s nextKeys) : channelOf nextKeys = channelOf s.keys := by
  unfold channelOf
  rw [h.localId, h.peerId, h.session]

theorem partyInv_send (h : PartyInv P k p) (op : SendOp) :
    PartyInv P k (partyStep P p (.send op)) := by
  have hsender := inv_sendStep P (p.session, p.sealed) op h.sender
  unfold partyStep
  dsimp only
  rcases sendStep_cases P (p.session, p.sealed) op with hsame |
    ⟨input, plaintext, cipher, hsealable, -, hsent⟩ | ⟨nextKeys, hrekey, hnext⟩
  · rw [hsame]
    exact h
  · rw [hsent] at hsender ⊢
    have hreceiver := h.receiver
    refine ⟨h.channel, hsender, ⟨hreceiver.refines, hreceiver.past, hreceiver.nodup⟩, ?_,
      h.delivered⟩
    refine forall_mem_log h.sealed ?_
    show (input.sourceId, input.destinationId, input.sessionId) = channelOf k
    rw [hsealable.source, hsealable.destination, hsealable.session, ← h.channel, channelOf]
  · rw [hnext] at hsender ⊢
    exact ⟨(channelOf_rekeyable hrekey).trans h.channel, hsender,
      inv_rekey h.receiver hrekey, h.sealed, h.delivered⟩

theorem addressed_of_open {s : Session} {bytes : List UInt8} {nowMs : UInt32} {r : OpenRecord}
    (h : s.openUncommitted P (.data bytes) nowMs = .ok r) :
    s.keys.localId ≠ s.keys.peerId ∧
      (r.header.destinationId, r.header.sourceId, r.header.sessionId) = channelOf s.keys := by
  obtain ⟨record, header, plaintext, -, -, hopenable, -, rfl⟩ := openUncommitted_eq_ok.mp h
  refine ⟨?_, ?_⟩
  · have hvalid := hopenable.keys
    simp only [validKeys, Bool.and_eq_true, decide_eq_true_eq] at hvalid
    exact hvalid.1.1.1.2
  · rw [header_openRecord, hopenable.source, hopenable.destination, hopenable.session, channelOf]

theorem inv_replay {s : Session} {log : List Sent} (h : Record.SendLog.Inv P (s, log))
    (w : Record.Replay.ReplayWindow) : Record.SendLog.Inv P ({ s with replay := w }, log) :=
  ⟨h.sorted, fun a ha => (h.below a ha).imp_right fun hc =>
    ⟨hc.epoch, hc.key, hc.initialized, hc.sequence⟩, h.notMax, h.call, h.nonce, h.sameKey⟩

theorem partyInv_receive (h : PartyInv P k p) (datagram : Option (List UInt8)) (nowMs : UInt32) :
    PartyInv P k (partyStep P p (.receive datagram nowMs)) := by
  unfold partyStep
  dsimp only
  rcases receive_cases P ⟨p.session⟩ datagram nowMs with ⟨error, he⟩ | ⟨bytes, r, -, hopen, he⟩
  · rw [he, Party.deliver]
    exact h
  · rw [he, Party.deliver]
    refine ⟨h.channel, inv_replay h.sender _, inv_commit h.receiver (epoch_of_open hopen)
      (accepted_of_open hopen), h.sealed, ?_⟩
    refine forall_mem_log h.delivered ?_
    obtain ⟨hids, haddressed⟩ := addressed_of_open hopen
    have hchannel := h.channel
    simp only [channelOf, Prod.mk.injEq] at hchannel
    obtain ⟨hlocal, hpeer, -⟩ := hchannel
    rw [hlocal, hpeer] at hids
    exact ⟨hids, haddressed.trans h.channel⟩

theorem mem_sealed_step {a : Sent} (ha : a ∈ p.sealed) (op : PartyOp) :
    a ∈ (partyStep P p op).sealed := by
  cases op with
  | send op => exact mem_sendStep (x := (p.session, p.sealed)) ha
  | receive datagram nowMs =>
    unfold partyStep
    dsimp only
    rcases receive_cases P ⟨p.session⟩ datagram nowMs with ⟨error, he⟩ | ⟨bytes, r, -, -, he⟩
    · rw [he]
      exact ha
    · rw [he]
      exact ha

/-! ### All parties -/

/-- **What holds after every move.** -/
structure Inv (P : Aead) (keys : ι → DirectionalKeys Block) (x : ι → Party) : Prop where
  party : ∀ i, PartyInv P (keys i) (x i)
  authentic : ∀ i, ∀ r ∈ (x i).delivered, ∃ j, ∃ a ∈ (x j).sealed, Delivers a r

theorem inv_start (P : Aead) (keys : ι → DirectionalKeys Block) : Inv P keys (start keys) :=
  ⟨fun i => partyInv_start P (keys i), by simp [start]⟩

theorem sealed_of_unforged {i : ι} {datagram : Option (List UInt8)} {nowMs : UInt32}
    {bytes : List UInt8} {r : OpenRecord} (hideal : Unforged P x (i, .receive datagram nowMs))
    (hbytes : udpReceive datagram = some bytes)
    (hopen : (x i).session.openUncommitted P (.data bytes) nowMs = .ok r) :
    ∃ j, ∃ a ∈ (x j).sealed, Delivers a r := by
  have hmade : ∀ plaintext,
      openPlaintext P (x i).session bytes (readHeader bytes) = some plaintext →
      ∃ log, (∃ j, log = (x j).sealed) ∧ Produced log (x i).session.keys.rx
        (makeNonce (x i).session.keys.session (readHeader bytes).sequence)
        (bytes.take kHeaderBytes) (bytes.drop kHeaderBytes) plaintext := by
    intro plaintext hplain
    obtain ⟨j, hproduced⟩ := hideal bytes plaintext hbytes hplain
    exact ⟨_, ⟨j, rfl⟩, hproduced⟩
  obtain ⟨_, ⟨j, rfl⟩, a, ha, -, hdelivers⟩ := delivers_of_produced hmade hopen
  exact ⟨j, a, ha, hdelivers⟩

/-- **Every move keeps the invariant.** -/
theorem inv_partiesStep [DecidableEq ι] (x : ι → Party) (move : ι × PartyOp) (h : Inv P keys x)
    (hideal : Unforged P x move) : Inv P keys (partiesStep P x move) := by
  obtain ⟨i, op⟩ := move
  have hmore : ∀ {r : OpenRecord}, (∃ j, ∃ a ∈ (x j).sealed, Delivers a r) →
      ∃ j, ∃ a ∈ (partiesStep P x (i, op) j).sealed, Delivers a r := by
    rintro r ⟨j, a, ha, hdelivers⟩
    refine ⟨j, a, ?_, hdelivers⟩
    by_cases hj : j = i
    · subst hj
      rw [partiesStep_self]
      exact mem_sealed_step ha op
    · rwa [partiesStep_of_ne P x hj]
  refine ⟨fun j => ?_, fun j r hr => hmore ?_⟩
  · by_cases hj : j = i
    · subst hj
      rw [partiesStep_self]
      cases op with
      | send op => exact partyInv_send (h.party j) op
      | receive datagram nowMs => exact partyInv_receive (h.party j) datagram nowMs
    · rw [partiesStep_of_ne P x hj]
      exact h.party j
  · by_cases hj : j = i
    · subst hj
      rw [partiesStep_self] at hr
      cases op with
      | send op => exact h.authentic j r hr
      | receive datagram nowMs =>
        unfold partyStep at hr
        dsimp only at hr
        rcases receive_cases P ⟨(x j).session⟩ datagram nowMs with
          ⟨error, he⟩ | ⟨bytes, new, hbytes, hopen, he⟩
        · rw [he] at hr
          exact h.authentic j r hr
        · rw [he, Party.deliver] at hr
          rcases List.mem_append.mp hr with hr | hr
          · exact h.authentic j r hr
          · rw [List.mem_singleton.mp hr]
            exact sealed_of_unforged hideal hbytes hopen
    · rw [partiesStep_of_ne P x hj] at hr
      exact h.authentic j r hr

/-- What a party has delivered, a peer of it has sealed. -/
theorem Inv.sealed_by_peer (h : Inv P keys x) {i : ι} {r : OpenRecord}
    (hr : r ∈ (x i).delivered) :
    ∃ j, j ≠ i ∧ Peers keys i j ∧ ∃ a ∈ (x j).sealed, Delivers a r := by
  obtain ⟨j, a, ha, hdelivers⟩ := h.authentic i r hr
  have hsealed := (h.party j).sealed a ha
  obtain ⟨hids, hdelivered⟩ := (h.party i).delivered r hr
  rw [hdelivers.1] at hdelivered
  simp only [channelOf, Prod.mk.injEq] at hsealed hdelivered
  obtain ⟨hsource, hdestination, hsession⟩ := hsealed
  obtain ⟨hlocal, hpeer, hvalue⟩ := hdelivered
  refine ⟨j, ?_, ?_, a, ha, hdelivers⟩
  · rintro rfl
    exact hids (hsource.symm.trans hpeer ▸ rfl)
  · unfold Peers channelOf
    rw [← hsource, ← hdestination, ← hsession, hpeer, hlocal, hvalue]

/-- What a party delivers is, with its multiplicities, among what its only peer has sealed. -/
theorem Inv.contents_subperm (h : Inv P keys x) {i j : ι} (honly : ∀ j', Peers keys i j' → j' = j) :
    ((x i).delivered.map content).Subperm ((x j).sealed.map sealedContent) := by
  refine Endpoints.Hops.contents_subperm ⟨fun r hr => ?_, (h.party i).receiver.nodup⟩
  obtain ⟨j', -, hpeers, hsealed⟩ := h.sealed_by_peer hr
  rw [honly j' hpeers] at hsealed
  exact hsealed

/-! ### Runs -/

/-- **Any number of sessions are safe on one network.** In every run in which the AEAD is ideal,
however the sessions are rekeyed and whatever the network hands to whom: a record that a party
delivers was sealed, header and payload, by another party, whose keys were made for the other end of
the same channel; no party delivers an (epoch, sequence) twice; and what it delivers is, with its
multiplicities, among what its peer has sealed, if it has only one. -/
theorem parties_safe [DecidableEq ι] {moves : List (ι × PartyOp)}
    (hideal : Along (partiesStep P) (Unforged P) (start keys) moves) :
    let x := run (partiesStep P) (start keys) moves
    (∀ i, ∀ r ∈ (x i).delivered,
      ∃ j, j ≠ i ∧ Peers keys i j ∧ ∃ a ∈ (x j).sealed, Delivers a r) ∧
    (∀ i, ((x i).delivered.map slot).Nodup) ∧
    ∀ i j, (∀ j', Peers keys i j' → j' = j) →
      ((x i).delivered.map content).Subperm ((x j).sealed.map sealedContent) := by
  intro x
  have h : Inv P keys x := run_invariant inv_partiesStep (inv_start P keys) hideal
  exact ⟨fun i r hr => h.sealed_by_peer hr, fun i => (h.party i).receiver.nodup,
    fun i j => h.contents_subperm⟩

/-! ### A run -/

section Sealed
variable {s : Session} {input : RecordHeader} {plaintext : Span UInt8} {cipher : List UInt8}
  {nowMs : UInt32}

theorem partyStep_seal (hs : Sealable p.session input plaintext)
    (hc : sealCipher P p.session input plaintext = some cipher) (output : RecordBuffer) :
    partyStep P p (.send (.seal input plaintext output)) = { p with
      session := p.session.sent input.sequence
      sealed := p.sealed ++ [sentBy p.session input plaintext cipher] } := by
  have hstep : sendStep P (p.session, p.sealed) (.seal input plaintext output) =
      (p.session.sent input.sequence, p.sealed ++ [sentBy p.session input plaintext cipher]) :=
    sendStep_of_sealable (x := (p.session, p.sealed)) hs hc output
  rw [partyStep, hstep]

theorem unforged_of_sealed (hP : P.Correct) (hs : Sealable s input plaintext)
    (hc : sealCipher P s input plaintext = some cipher) {i j : ι}
    (hlog : sentBy s input plaintext cipher ∈ (x j).sealed)
    (hkeys : (x i).session.keys = s.keys.mirror) :
    Unforged P x (i, .receive
      (some (headerBytes (sealedHeader input plaintext.length) ++ cipher)) nowMs) := by
  intro bytes opened hbytes hopen
  have hsame := (udpReceive_sealed hs hc).symm.trans hbytes
  exact ⟨j, produced_of_sealed hP hc hs.length hlog hkeys (Option.some.inj hsame).symm hopen⟩

theorem partyStep_receive (hP : P.Correct) (hs : Sealable s input plaintext)
    (hc : sealCipher P s input plaintext = some cipher) (hm : Mirrors s p.session)
    (ha : p.session.replay.accepted input.sequence = true)
    (hd : input.deadlineMs = 0 ∨ nowMs.toNat ≤ input.deadlineMs.toNat) :
    (partyStep P p (.receive
        (some (headerBytes (sealedHeader input plaintext.length) ++ cipher)) nowMs)).delivered =
      p.delivered ++ [openRecord (sealedHeader input plaintext.length) plaintext.elems] := by
  have hreceive := receive_sealed (e := ⟨p.session⟩) hP hs hc hm ha hd
  rw [partyStep, hreceive, Party.deliver]

end Sealed

/-- A party that seals the record of `security_test.cpp`, and its peer, to which it is handed. -/
def testParties (b : Bool) : DirectionalKeys Block :=
  if b then (testKeys 3 1 2).mirror else testKeys 3 1 2

/-- The first of them seals. -/
def testSend : PartyOp :=
  .send (.seal (testHeader 3 4) (.data testPlain) (List.Vector.replicate _ 0))

/-- The record is sealed, and arrives. -/
def testMoves : List (Bool × PartyOp) :=
  [(false, testSend), (true, .receive (some (testRecord 3 4)) 0)]

theorem testSend_eq : partyStep paddingAead (start testParties false) testSend =
    { session := testLink.sender.1, sealed := testLink.sender.2 } :=
  partyStep_seal sealable_test (sealCipher_testPlain _ 3 4) _

theorem unforged_testMoves :
    Along (partiesStep paddingAead) (Unforged paddingAead) (start testParties) testMoves := by
  refine ⟨trivial, ?_, trivial⟩
  have hsealed : sentBy { keys := testKeys 3 1 2 } (testHeader 3 4) (.data testPlain)
      (testPlain ++ List.replicate kTagBytes 0) ∈
        (partiesStep paddingAead (start testParties) (false, testSend) false).sealed := by
    rw [partiesStep_self, testSend_eq]
    exact List.mem_singleton_self _
  rw [testRecord_eq]
  exact unforged_of_sealed correct_paddingAead sealable_test (sealCipher_testPlain _ 3 4) hsealed
    rfl

/-- The peer delivers the record. -/
theorem parties_safe_test :
    let x := run (partiesStep paddingAead) (start testParties) testMoves
    (x true).delivered.length = 1 ∧ ∀ r ∈ (x true).delivered,
      ∃ j, j ≠ true ∧ Peers testParties true j ∧ ∃ a ∈ (x j).sealed, Delivers a r := by
  refine ⟨?_, (parties_safe unforged_testMoves).1 true⟩
  have hmirrors : Mirrors { keys := testKeys 3 1 2 } (start testParties true).session :=
    mirrors_mirror sealable_test.keys rfl
  rw [testMoves, run_cons, run_cons, run_nil, partiesStep_self,
    partiesStep_of_ne _ _ (by decide), testRecord_eq, partyStep_receive correct_paddingAead
      sealable_test (sealCipher_testPlain _ 3 4) hmirrors (by decide) (Or.inl rfl)]
  rfl

end NewMavlink.Parties
