import NewMavlink.Crypto
import NewMavlink.Handshake.Messages
import NewMavlink.Lib.Runs

/-! # The two sides of the handshake

`InitiatorSession` and `ResponderSession` of `session.cpp`, over the two keyed functions they use:
`mac` is `make_auth`, `auth` is `crypto_auth` behind the key derivation. `makeAuth` is `make_auth`
itself; what is proved here holds for any `mac`. Every operation returns its result and the session
after the call, on failure too, and `receive_hello` also the response if it was assigned: the
source assigns it before the last step that can fail. So it does with the `Finish` of `accept`;
`finishMessage` is what it has assigned.

* `transcript_eq`, `finishInput_eq`: the fifty-two and twenty bytes that the authenticators cover;
  `transcript_inj`, `finishInput_inj`: they determine their fields.
* `finishMessage_cases` (and `accept_cases`), `receiveHello_cases`, `finish_cases`: what each
  operation can do.
* `responding_responds`: what holds of a responder after any calls. -/

namespace NewMavlink.Handshake.Sessions

open NewMavlink.Lib.Buffer NewMavlink.Lib.Runs NewMavlink.Wire NewMavlink.Crypto
open NewMavlink.Handshake.Messages

/-- `SessionError`; `None` is the success of an `Except`. -/
inductive SessionError where
  | invalidInput
  | invalidState
  | authenticationFailed
  | nonceReuse
  | invalidTranscript
deriving DecidableEq, Repr

/-- The keyed functions of the handshake, with keys in `κ` and authenticators in `τ`. -/
structure Primitives (κ τ : Type) where
  mac : Block → List UInt8 → Option τ
  auth : Auth κ

/-- `make_auth`: the tag of an empty plaintext, with `input` as additional data and a nonce of
zeros. -/
def makeAuth (P : Aead) (psk : Block) (input : List UInt8) : Option Block :=
  match P.encrypt [] input (List.Vector.replicate 16 0) psk with
  | none => none
  | some ciphertext => if h : ciphertext.length = 16 then some ⟨ciphertext, h⟩ else none

/-- The keyed functions of the source. -/
def sourcePrimitives (P : Aead) (auth : Auth Block) : Primitives Block Block := ⟨makeAuth P, auth⟩

variable {κ τ : Type}

/-- `transcript`. -/
def transcript (hello : Hello) (accept : Accept τ) : List UInt8 :=
  let bytes := List.replicate 52 0
  let bytes := put16 bytes 0 hello.initiatorId
  let bytes := put16 bytes 2 hello.responderId
  let bytes := put64 bytes 4 hello.clientNonce
  let bytes := put32 bytes 12 hello.capabilities
  let bytes := put16 bytes 16 accept.initiatorId
  let bytes := put16 bytes 18 accept.responderId
  let bytes := put64 bytes 20 accept.clientNonce
  let bytes := put64 bytes 28 accept.serverNonce
  let bytes := put64 bytes 36 accept.sessionId
  put64 bytes 44 accept.epoch

/-- What the authenticator of a `Finish` covers, written into an array of `size` bytes. -/
def finishInput (size : ℕ) (message : Finish τ) : List UInt8 :=
  let input := List.replicate size 0
  let input := put16 input 0 message.initiatorId
  let input := put16 input 2 message.responderId
  let input := put64 input 4 message.sessionId
  let input := put64 input 12 message.epoch
  input.take 20

/-- The side that sends the `Hello`. -/
structure InitiatorSession (κ : Type) where
  localId : UInt16
  peerId : UInt16
  psk : Block
  hello : Hello := {}
  keys : DirectionalKeys κ
  started : Bool := false
  established : Bool := false

/-- The side that answers it. -/
structure ResponderSession (κ τ : Type) where
  localId : UInt16
  peerId : UInt16
  psk : Block
  hello : Hello := {}
  accept : Accept τ
  keys : DirectionalKeys κ
  accepted : Bool := false
  established : Bool := false

namespace InitiatorSession

/-- `InitiatorSession::InitiatorSession`. -/
def fresh [Inhabited κ] (localId peerId : UInt16) (psk : Block) : InitiatorSession κ :=
  { localId := localId, peerId := peerId, psk := psk, keys := default }

/-- `InitiatorSession::start`. -/
def start (s : InitiatorSession κ) (clientNonce : UInt64) :
    Except SessionError Hello × InitiatorSession κ :=
  if s.started ∨ !validIds s.localId s.peerId ∨ clientNonce = 0 then
    (.error (if s.started then .nonceReuse else .invalidInput), s)
  else
    let hello : Hello := ⟨s.localId, s.peerId, clientNonce, 0⟩
    (.ok hello, { s with hello := hello, started := true })

/-- `InitiatorSession::accept`. -/
def accept [DecidableEq τ] [Inhabited τ] (A : Primitives κ τ) (s : InitiatorSession κ)
    (received : Accept τ) : Except SessionError (Finish τ) × InitiatorSession κ :=
  if !s.started ∨ s.established then (.error .invalidState, s)
  else if received.initiatorId ≠ s.localId ∨ received.responderId ≠ s.peerId ∨
      received.clientNonce ≠ s.hello.clientNonce then (.error .invalidTranscript, s)
  else
    let withoutAuth : Accept τ := { received with authenticator := default }
    if A.mac s.psk (transcript s.hello withoutAuth) ≠ some received.authenticator then
      (.error .authenticationFailed, s)
    else
      match deriveDirectionalKeys A.auth s.psk ⟨received.sessionId, received.epoch⟩ s.localId
          s.peerId with
      | none => (.error .invalidInput, s)
      | some (initiatorKeys, _) =>
        let s := { s with keys := initiatorKeys }
        let message : Finish τ := ⟨s.localId, s.peerId, received.sessionId, received.epoch, default⟩
        match A.mac s.psk (finishInput 48 message) with
        | none => (.error .authenticationFailed, s)
        | some authenticator =>
          (.ok { message with authenticator := authenticator }, { s with established := true })

/-- `finish_message` after an `accept`, if the call has assigned it: behind the key derivation, with
no authenticator yet. -/
def finishMessage [DecidableEq τ] [Inhabited τ] (A : Primitives κ τ) (s : InitiatorSession κ)
    (received : Accept τ) : Option (Finish τ) :=
  if !s.started ∨ s.established then none
  else if received.initiatorId ≠ s.localId ∨ received.responderId ≠ s.peerId ∨
      received.clientNonce ≠ s.hello.clientNonce then none
  else
    let withoutAuth : Accept τ := { received with authenticator := default }
    if A.mac s.psk (transcript s.hello withoutAuth) ≠ some received.authenticator then none
    else
      (deriveDirectionalKeys A.auth s.psk ⟨received.sessionId, received.epoch⟩ s.localId
          s.peerId).map fun _ =>
        let message : Finish τ := ⟨s.localId, s.peerId, received.sessionId, received.epoch, default⟩
        -- `make_auth` stores nothing if it fails
        match A.mac s.psk (finishInput 48 message) with
        | none => message
        | some authenticator => { message with authenticator := authenticator }

end InitiatorSession

namespace ResponderSession

/-- `ResponderSession::ResponderSession`. -/
def fresh [Inhabited κ] [Inhabited τ] (localId peerId : UInt16) (psk : Block) :
    ResponderSession κ τ :=
  { localId := localId, peerId := peerId, psk := psk, accept := default, keys := default }

/-- `ResponderSession::receive_hello`: the result, the response if it was assigned, and the
session. -/
def receiveHello [Inhabited τ] (A : Primitives κ τ) (s : ResponderSession κ τ) (hello : Hello)
    (serverNonce : UInt64) :
    Except SessionError Unit × Option (Accept τ) × ResponderSession κ τ :=
  if s.accepted ∨ !validIds s.localId s.peerId ∨ hello.initiatorId ≠ s.peerId ∨
      hello.responderId ≠ s.localId ∨ hello.clientNonce = 0 ∨ serverNonce = 0 then
    (.error (if s.accepted then .nonceReuse else .invalidInput), none, s)
  else
    let accept : Accept τ := ⟨s.peerId, s.localId, hello.clientNonce, serverNonce,
      hello.clientNonce ^^^ serverNonce, 1, default⟩
    let s := { s with hello := hello, accept := accept }
    match A.mac s.psk (transcript hello accept) with
    | none => (.error .authenticationFailed, none, s)
    | some authenticator =>
      let accept := { accept with authenticator := authenticator }
      let s := { s with accept := accept }
      match deriveDirectionalKeys A.auth s.psk ⟨accept.sessionId, accept.epoch⟩ s.peerId
          s.localId with
      | none => (.error .invalidInput, some accept, s)
      | some (_, responderKeys) =>
        (.ok (), some accept, { s with keys := responderKeys, accepted := true })

/-- `ResponderSession::finish`. -/
def finish [DecidableEq τ] (A : Primitives κ τ) (s : ResponderSession κ τ) (message : Finish τ) :
    Except SessionError Unit × ResponderSession κ τ :=
  if !s.accepted ∨ s.established ∨ message.initiatorId ≠ s.peerId ∨
      message.responderId ≠ s.localId ∨ message.sessionId ≠ s.accept.sessionId ∨
      message.epoch ≠ s.accept.epoch then (.error .invalidState, s)
  else if A.mac s.psk (finishInput 20 message) ≠ some message.authenticator then
    (.error .authenticationFailed, s)
  else (.ok (), { s with established := true })

end ResponderSession

/-! ### What the authenticators cover -/

theorem transcript_eq (h : Hello) (a : Accept τ) : transcript h a =
    leBytes 2 h.initiatorId.toNat ++ leBytes 2 h.responderId.toNat ++
      leBytes 8 h.clientNonce.toNat ++ leBytes 4 h.capabilities.toNat ++
      leBytes 2 a.initiatorId.toNat ++ leBytes 2 a.responderId.toNat ++
      leBytes 8 a.clientNonce.toNat ++ leBytes 8 a.serverNonce.toNat ++
      leBytes 8 a.sessionId.toNat ++ leBytes 8 a.epoch.toNat := by
  have hlen : (transcript h a).length = 52 := by simp [transcript]
  rw [← List.take_of_length_le (Nat.le_of_eq hlen)]
  simp only [transcript, put16, put32, put64]
  iterate 9
    refine take_putLE_eq (by norm_num)
      (by simp only [length_putLE, List.length_replicate]; omega) ?_
  rw [take_putLE_eq (by norm_num) (by simp) List.take_zero]
  simp

theorem finishInput_eq (size : ℕ) (m : Finish τ) (hs : 20 ≤ size) : finishInput size m =
    leBytes 2 m.initiatorId.toNat ++ leBytes 2 m.responderId.toNat ++
      leBytes 8 m.sessionId.toNat ++ leBytes 8 m.epoch.toNat := by
  simp only [finishInput, put16, put64]
  iterate 3
    refine take_putLE_eq (by norm_num)
      (by simp only [length_putLE, List.length_replicate]; omega) ?_
  rw [take_putLE_eq (by norm_num) (by simp; omega) List.take_zero]
  simp

@[simp] theorem length_transcript (h : Hello) (a : Accept τ) : (transcript h a).length = 52 := by
  simp [transcript]

@[simp] theorem length_finishInput {size : ℕ} (m : Finish τ) (hs : 20 ≤ size) :
    (finishInput size m).length = 20 := by
  simp [finishInput_eq size m hs]

theorem finishInput_size (m : Finish τ) {size : ℕ} (hs : 20 ≤ size) :
    finishInput size m = finishInput 20 m := by
  rw [finishInput_eq size m hs, finishInput_eq 20 m le_rfl]

/-- The fields of a transcript, as its bytes give them. -/
def readTranscript (bytes : List UInt8) : Hello × Accept Unit :=
  (⟨get16 bytes 0, get16 bytes 2, get64 bytes 4, get32 bytes 12⟩,
    ⟨get16 bytes 16, get16 bytes 18, get64 bytes 20, get64 bytes 28, get64 bytes 36,
      get64 bytes 44, ()⟩)

/-- **A transcript determines its fields.** -/
theorem readTranscript_transcript (h : Hello) (a : Accept τ) :
    readTranscript (transcript h a) = (h, { a with authenticator := () }) := by
  rw [transcript_eq]
  simp [readTranscript, get16, get32, get64, getLE_leBytes, getLE_leBytes_append,
    getLE_append_of_le]

theorem transcript_inj {h h' : Hello} {a a' : Accept τ} (he : transcript h a = transcript h' a') :
    h = h' ∧ a = { a' with authenticator := a.authenticator } := by
  have hr := congrArg readTranscript he
  rw [readTranscript_transcript, readTranscript_transcript, Prod.mk.injEq] at hr
  obtain ⟨rfl, ha⟩ := hr
  cases a
  cases a'
  simp_all

/-- The fields that the authenticator of a `Finish` covers, as its bytes give them. -/
def readFinish (bytes : List UInt8) : Finish Unit :=
  ⟨get16 bytes 0, get16 bytes 2, get64 bytes 4, get64 bytes 12, ()⟩

theorem readFinish_finishInput {size : ℕ} (m : Finish τ) (hs : 20 ≤ size) :
    readFinish (finishInput size m) = { m with authenticator := () } := by
  rw [finishInput_eq size m hs]
  simp [readFinish, get16, get64, getLE_leBytes, getLE_leBytes_append, getLE_append_of_le]

theorem finishInput_inj {m m' : Finish τ} (he : finishInput 20 m = finishInput 20 m') :
    m = { m' with authenticator := m.authenticator } := by
  have hr := congrArg readFinish he
  rw [readFinish_finishInput m le_rfl, readFinish_finishInput m' le_rfl] at hr
  cases m
  cases m'
  simp_all

/-! ### What the operations can do -/

/-- **What a start can do**: refuse and change nothing, or send a `Hello`, once. -/
theorem start_cases (s : InitiatorSession κ) (clientNonce : UInt64) :
    (∃ e, s.start clientNonce = (.error e, s)) ∨
      (s.started = false ∧ ∃ hello,
        s.start clientNonce = (.ok hello, { s with hello := hello, started := true })) := by
  unfold InitiatorSession.start
  by_cases hc : s.started = true ∨ (!validIds s.localId s.peerId) = true ∨ clientNonce = 0
  · exact Or.inl ⟨_, if_pos hc⟩
  · rw [if_neg hc]
    rw [not_or, Bool.not_eq_true] at hc
    exact Or.inr ⟨hc.1, _, rfl⟩

/-- The `Finish` that an initiator sends for a session. -/
def finishFor (s : InitiatorSession κ) (session : SessionId) (authenticator : τ) : Finish τ :=
  ⟨s.localId, s.peerId, session.value, session.epoch, authenticator⟩

/-- **What an initiator asks of an `Accept`**, and what it makes of it. -/
structure Accepts (A : Primitives κ τ) (s : InitiatorSession κ) (received : Accept τ)
    (keys peerKeys : DirectionalKeys κ) (authenticator : τ) : Prop where
  started : s.started = true
  notEstablished : s.established = false
  initiatorId : received.initiatorId = s.localId
  responderId : received.responderId = s.peerId
  clientNonce : received.clientNonce = s.hello.clientNonce
  authentic : A.mac s.psk (transcript s.hello received) = some received.authenticator
  derived : deriveDirectionalKeys A.auth s.psk ⟨received.sessionId, received.epoch⟩ s.localId
    s.peerId = some (keys, peerKeys)
  finish : A.mac s.psk (finishInput 20
    (finishFor s ⟨received.sessionId, received.epoch⟩ authenticator)) = some authenticator

/-- **What an accept can do**, and what it leaves in `finish_message`: refuse and change nothing;
fail at the last step, with new keys but not established, and leave a `Finish` without an
authenticator; or establish the session and send a `Finish`. -/
theorem finishMessage_cases [DecidableEq τ] [Inhabited τ] (A : Primitives κ τ)
    (s : InitiatorSession κ) (received : Accept τ) :
    (∃ e, s.accept A received = (.error e, s) ∧ s.finishMessage A received = none) ∨
    (s.established = false ∧ ∃ e keys, s.accept A received = (.error e, { s with keys := keys }) ∧
      s.finishMessage A received =
        some (finishFor s ⟨received.sessionId, received.epoch⟩ default)) ∨
    ∃ keys peerKeys authenticator, Accepts A s received keys peerKeys authenticator ∧
      s.accept A received = (.ok (finishFor s ⟨received.sessionId, received.epoch⟩ authenticator),
        { s with keys := keys, established := true }) ∧
      s.finishMessage A received =
        some (finishFor s ⟨received.sessionId, received.epoch⟩ authenticator) := by
  unfold InitiatorSession.accept InitiatorSession.finishMessage
  dsimp only
  split_ifs with hs hi hm
  · exact Or.inl ⟨_, rfl, rfl⟩
  · exact Or.inl ⟨_, rfl, rfl⟩
  · exact Or.inl ⟨_, rfl, rfl⟩
  · simp only [not_or, Bool.not_eq_true, Bool.not_eq_false', not_not] at hs hi hm
    cases hd : deriveDirectionalKeys A.auth s.psk ⟨received.sessionId, received.epoch⟩ s.localId
        s.peerId with
    | none => exact Or.inl ⟨_, rfl, rfl⟩
    | some keys =>
      dsimp only [Option.map_some]
      cases hf : A.mac s.psk (finishInput 48
          (⟨s.localId, s.peerId, received.sessionId, received.epoch, default⟩ : Finish τ)) with
      | none => exact Or.inr (Or.inl ⟨hs.2, _, _, rfl, rfl⟩)
      | some authenticator =>
        refine Or.inr (Or.inr ⟨keys.1, keys.2, authenticator,
          ⟨hs.1, hs.2, hi.1, hi.2.1, hi.2.2, hm, hd, ?_⟩, rfl, rfl⟩)
        rw [finishInput_size _ (show 20 ≤ 48 by decide)] at hf
        exact hf

theorem accept_cases [DecidableEq τ] [Inhabited τ] (A : Primitives κ τ) (s : InitiatorSession κ)
    (received : Accept τ) :
    (∃ e, s.accept A received = (.error e, s)) ∨
    (s.established = false ∧ ∃ e keys, s.accept A received = (.error e, { s with keys := keys })) ∨
    ∃ keys peerKeys authenticator, Accepts A s received keys peerKeys authenticator ∧
      s.accept A received = (.ok (finishFor s ⟨received.sessionId, received.epoch⟩ authenticator),
        { s with keys := keys, established := true }) := by
  rcases finishMessage_cases A s received with
    ⟨e, h, -⟩ | ⟨hs, e, keys, h, -⟩ | ⟨keys, peerKeys, authenticator, hacc, h, -⟩
  · exact Or.inl ⟨e, h⟩
  · exact Or.inr (Or.inl ⟨hs, e, keys, h⟩)
  · exact Or.inr (Or.inr ⟨keys, peerKeys, authenticator, hacc, h⟩)

/-- **What a responder asks of a `Hello`**, and the `Accept` it makes of it. -/
structure Issues (A : Primitives κ τ) (s : ResponderSession κ τ) (hello : Hello)
    (serverNonce : UInt64) (a : Accept τ) : Prop where
  notAccepted : s.accepted = false
  ids : validIds s.localId s.peerId = true
  initiatorId : hello.initiatorId = s.peerId
  responderId : hello.responderId = s.localId
  helloNonce : hello.clientNonce ≠ 0
  nonce : serverNonce ≠ 0
  accept : a = ⟨s.peerId, s.localId, hello.clientNonce, serverNonce,
    hello.clientNonce ^^^ serverNonce, 1, a.authenticator⟩
  authentic : A.mac s.psk (transcript hello a) = some a.authenticator

/-- The session after it has issued an `Accept`. -/
def ResponderSession.issued (s : ResponderSession κ τ) (hello : Hello) (a : Accept τ)
    (keys : DirectionalKeys κ) : ResponderSession κ τ :=
  { s with hello := hello, accept := a, keys := keys, accepted := true }

/-- **What a `receive_hello` can do**: refuse and change nothing; fail without a response; fail in
the key derivation, with the response assigned; or accept. -/
theorem receiveHello_cases [Inhabited τ] (A : Primitives κ τ) (s : ResponderSession κ τ)
    (hello : Hello) (serverNonce : UInt64) :
    (∃ e, s.receiveHello A hello serverNonce = (.error e, none, s)) ∨
    (s.accepted = false ∧ ∃ e a, s.receiveHello A hello serverNonce =
      (.error e, none, { s with hello := hello, accept := a })) ∨
    (∃ a e, Issues A s hello serverNonce a ∧
      deriveDirectionalKeys A.auth s.psk ⟨a.sessionId, a.epoch⟩ s.peerId s.localId = none ∧
      s.receiveHello A hello serverNonce =
        (.error e, some a, { s with hello := hello, accept := a })) ∨
    ∃ a peerKeys keys, Issues A s hello serverNonce a ∧
      deriveDirectionalKeys A.auth s.psk ⟨a.sessionId, a.epoch⟩ s.peerId s.localId =
        some (peerKeys, keys) ∧
      s.receiveHello A hello serverNonce = (.ok (), some a, s.issued hello a keys) := by
  unfold ResponderSession.receiveHello
  dsimp only
  by_cases hc : s.accepted = true ∨ (!validIds s.localId s.peerId) = true ∨
      hello.initiatorId ≠ s.peerId ∨ hello.responderId ≠ s.localId ∨ hello.clientNonce = 0 ∨
      serverNonce = 0
  · exact Or.inl ⟨_, if_pos hc⟩
  · rw [if_neg hc]
    simp only [not_or, Bool.not_eq_true, Bool.not_eq_false', not_not] at hc
    obtain ⟨h1, h2, h3, h4, h5, h6⟩ := hc
    cases hm : A.mac s.psk (transcript hello (⟨s.peerId, s.localId, hello.clientNonce, serverNonce,
        hello.clientNonce ^^^ serverNonce, 1, default⟩ : Accept τ)) with
    | none => exact Or.inr (Or.inl ⟨h1, _, _, rfl⟩)
    | some t =>
      have hi : Issues A s hello serverNonce ⟨s.peerId, s.localId, hello.clientNonce, serverNonce,
          hello.clientNonce ^^^ serverNonce, 1, t⟩ := ⟨h1, h2, h3, h4, h5, h6, rfl, hm⟩
      dsimp only
      cases hd : deriveDirectionalKeys A.auth s.psk ⟨hello.clientNonce ^^^ serverNonce, 1⟩ s.peerId
          s.localId with
      | none => exact Or.inr (Or.inr (Or.inl ⟨_, _, hi, hd, rfl⟩))
      | some keys => exact Or.inr (Or.inr (Or.inr ⟨_, keys.1, keys.2, hi, hd, rfl⟩))

/-- **What a responder asks of a `Finish`.** -/
structure Finishes (A : Primitives κ τ) (s : ResponderSession κ τ) (m : Finish τ) : Prop where
  accepted : s.accepted = true
  notEstablished : s.established = false
  initiatorId : m.initiatorId = s.peerId
  responderId : m.responderId = s.localId
  sessionId : m.sessionId = s.accept.sessionId
  epoch : m.epoch = s.accept.epoch
  authentic : A.mac s.psk (finishInput 20 m) = some m.authenticator

/-- **What a finish can do**: refuse and change nothing, or establish the session. -/
theorem finish_cases [DecidableEq τ] (A : Primitives κ τ) (s : ResponderSession κ τ)
    (m : Finish τ) :
    (∃ e, s.finish A m = (.error e, s) ∧ ¬ Finishes A s m) ∨
      (Finishes A s m ∧ s.finish A m = (.ok (), { s with established := true })) := by
  unfold ResponderSession.finish
  split_ifs with hc hm
  · refine Or.inl ⟨_, rfl, fun h => ?_⟩
    simp [h.accepted, h.notEstablished, h.initiatorId, h.responderId, h.sessionId, h.epoch] at hc
  · exact Or.inl ⟨_, rfl, fun h => hm h.authentic⟩
  · simp only [not_or, Bool.not_eq_true, Bool.not_eq_false', not_not] at hc hm
    obtain ⟨h1, h2, h3, h4, h5, h6⟩ := hc
    exact Or.inr ⟨⟨h1, h2, h3, h4, h5, h6, hm⟩, rfl⟩

/-- A call on a responder. -/
inductive ResponderOp (τ : Type) where
  | receiveHello (hello : Hello) (serverNonce : UInt64)
  | finish (message : Finish τ)

section Responder
variable [DecidableEq τ] [Inhabited τ]

/-- The responder after a call. -/
def respondStep (A : Primitives κ τ) (s : ResponderSession κ τ) :
    ResponderOp τ → ResponderSession κ τ
  | .receiveHello hello serverNonce => (s.receiveHello A hello serverNonce).2.2
  | .finish message => (s.finish A message).2

/-- A responder after a list of calls. -/
def responds [Inhabited κ] (A : Primitives κ τ) (localId peerId : UInt16) (psk : Block)
    (ops : List (ResponderOp τ)) : ResponderSession κ τ :=
  run (respondStep A) (.fresh localId peerId psk) ops

end Responder

/-! ### Concrete keyed functions -/

/-- The keyed functions that return their input: the simplest that are injective in it. -/
def transparent : Primitives (List UInt8) (List UInt8) := ⟨fun _ input => some input,
  fun input _ => some input⟩

end NewMavlink.Handshake.Sessions
