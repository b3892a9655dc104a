import NewMavlink.Handshake.Sessions

/-! # Honest handshakes complete, and only in order

The keyed functions are assumed to succeed (`Total`) where a handshake has to complete. The flags of
a session record which calls have succeeded, so that a call that comes too early or once too often
is refused; such a refusal needs no assumption.

* `start_succeeded_iff`, `accept_succeeded_iff`, `hello_succeeded_iff`, `finish_succeeded_iff`: what
  the four flags say of the calls so far.
* `handshake_completes`: the four calls in order, and every call out of order.
* `completes_source`: the four calls with the functions that the source uses.
* `trace_free_iff`: a failed call leaves no trace but for a `Hello` that carries the nonce of the
  responder. -/

namespace NewMavlink.Handshake.Completion

open NewMavlink.Lib.Runs NewMavlink.Wire NewMavlink.Crypto
open NewMavlink.Handshake.Messages NewMavlink.Handshake.Sessions

variable {κ τ : Type} {A : Primitives κ τ}

/-- The keyed functions do not fail. -/
structure Total (A : Primitives κ τ) : Prop where
  mac : ∀ psk input, ∃ t, A.mac psk input = some t
  auth : ∀ input psk, ∃ k, A.auth input psk = some k

theorem derive_of_total (hA : Total A) (psk : Block) {session : SessionId} {a b : UInt16}
    (hv : session.value ≠ 0) (he : session.epoch ≠ 0) (ha : a ≠ 0) (hb : b ≠ 0) (hab : a ≠ b) :
    ∃ first second, deriveDirectionalKeys A.auth psk session a b = some (first, second) := by
  have hone : ∀ label : List UInt8, label.length ≤ 8 →
      ∃ k, deriveOne A.auth psk label session a b = some k := by
    intro label hl
    unfold deriveOne prfBlock
    rw [if_neg (by omega)]
    dsimp only
    rw [if_neg (by simp)]
    exact hA.auth _ _
  obtain ⟨ktx, htx⟩ := hone txLabel (by decide)
  obtain ⟨krx, hrx⟩ := hone rxLabel (by decide)
  unfold deriveDirectionalKeys
  rw [if_neg (by simp [hv, he, ha, hb, hab]), htx, hrx]
  exact ⟨_, _, rfl⟩

/-! ### Calls out of order -/

theorem start_refused {s : InitiatorSession κ} (h : s.started = true) (clientNonce : UInt64) :
    s.start clientNonce = (.error .nonceReuse, s) := by
  simp [InitiatorSession.start, h]

theorem accept_refused [DecidableEq τ] [Inhabited τ] {s : InitiatorSession κ}
    (h : s.started = false ∨ s.established = true) (received : Accept τ) :
    s.accept A received = (.error .invalidState, s) := by
  unfold InitiatorSession.accept
  rw [if_pos]
  simpa using h

theorem receiveHello_refused [Inhabited τ] {s : ResponderSession κ τ} (h : s.accepted = true)
    (hello : Hello) (serverNonce : UInt64) :
    s.receiveHello A hello serverNonce = (.error .nonceReuse, none, s) := by
  simp [ResponderSession.receiveHello, h]

theorem finish_refused [DecidableEq τ] {s : ResponderSession κ τ}
    (h : s.accepted = false ∨ s.established = true) (message : Finish τ) :
    s.finish A message = (.error .invalidState, s) := by
  unfold ResponderSession.finish
  rw [if_pos]
  rcases h with h | h
  · exact Or.inl (by simp [h])
  · exact Or.inr (Or.inl h)

/-! ### Runs of an initiator -/

/-- A call on an initiator. -/
inductive InitiatorOp (τ : Type) where
  | start (clientNonce : UInt64)
  | accept (received : Accept τ)

variable [DecidableEq τ] [Inhabited τ]

/-- The initiator after a call. -/
def initiateStep (A : Primitives κ τ) (s : InitiatorSession κ) :
    InitiatorOp τ → InitiatorSession κ
  | .start clientNonce => (s.start clientNonce).2
  | .accept received => (s.accept A received).2

/-- An initiator after a list of calls. -/
def initiates [Inhabited κ] (A : Primitives κ τ) (localId peerId : UInt16) (psk : Block)
    (ops : List (InitiatorOp τ)) : InitiatorSession κ :=
  run (initiateStep A) (.fresh localId peerId psk) ops

/-! ### What the flags say -/

/-- The call is a `start` that succeeds. -/
def StartSucceeds (s : InitiatorSession κ) (op : InitiatorOp τ) : Prop :=
  ∃ clientNonce hello, op = .start clientNonce ∧ (s.start clientNonce).1 = .ok hello

/-- The call is an `accept` that succeeds. -/
def AcceptSucceeds (A : Primitives κ τ) (s : InitiatorSession κ) (op : InitiatorOp τ) : Prop :=
  ∃ received message, op = .accept received ∧ (s.accept A received).1 = .ok message

/-- The call is a `receive_hello` that succeeds. -/
def HelloSucceeds (A : Primitives κ τ) (s : ResponderSession κ τ) (op : ResponderOp τ) : Prop :=
  ∃ hello serverNonce, op = .receiveHello hello serverNonce ∧
    (s.receiveHello A hello serverNonce).1 = .ok ()

/-- The call is a `finish` that succeeds. -/
def FinishSucceeds (A : Primitives κ τ) (s : ResponderSession κ τ) (op : ResponderOp τ) : Prop :=
  ∃ message, op = .finish message ∧ (s.finish A message).1 = .ok ()

/-- Each flag of an initiator is set by the success of its call. -/
theorem flags_initiateStep (s : InitiatorSession κ) (op : InitiatorOp τ) :
    ((initiateStep A s op).started = true ↔ s.started = true ∨ StartSucceeds s op) ∧
      ((initiateStep A s op).established = true ↔
        s.established = true ∨ AcceptSucceeds A s op) := by
  cases op with
  | start n =>
    rw [initiateStep]
    rcases start_cases s n with ⟨e, he⟩ | ⟨-, hello, he⟩
    · simp [he, StartSucceeds, AcceptSucceeds]
    · simp [he, StartSucceeds, AcceptSucceeds]
  | accept received =>
    rw [initiateStep]
    rcases accept_cases A s received with ⟨e, he⟩ | ⟨-, e, keys, he⟩ | ⟨keys, _, t, ha, he⟩
    · simp [he, StartSucceeds, AcceptSucceeds]
    · simp [he, StartSucceeds, AcceptSucceeds]
    · simp [he, StartSucceeds, AcceptSucceeds]

theorem flags_respondStep (s : ResponderSession κ τ) (op : ResponderOp τ) :
    ((respondStep A s op).accepted = true ↔ s.accepted = true ∨ HelloSucceeds A s op) ∧
      ((respondStep A s op).established = true ↔
        s.established = true ∨ FinishSucceeds A s op) := by
  cases op with
  | receiveHello hello n =>
    rw [respondStep]
    rcases receiveHello_cases A s hello n with ⟨e, he⟩ | ⟨-, e, a, he⟩ | ⟨a, e, -, -, he⟩ |
      ⟨a, _, keys, -, -, he⟩
    · simp [he, HelloSucceeds, FinishSucceeds]
    · simp [he, HelloSucceeds, FinishSucceeds]
    · simp [he, HelloSucceeds, FinishSucceeds]
    · simp [he, HelloSucceeds, FinishSucceeds, ResponderSession.issued]
  | finish m =>
    rw [respondStep]
    rcases finish_cases A s m with ⟨e, he, -⟩ | ⟨-, he⟩
    · simp [he, HelloSucceeds, FinishSucceeds]
    · simp [he, HelloSucceeds, FinishSucceeds]

section Flags
variable [Inhabited κ] {localId peerId : UInt16} {psk : Block}

theorem start_succeeded_iff (ops : List (InitiatorOp τ)) :
    (initiates A localId peerId psk ops).started = true ↔
      Somewhere (initiateStep A) StartSucceeds (.fresh localId peerId psk) ops :=
  run_flag_iff (Q := fun s : InitiatorSession κ => s.started = true)
    (fun s op => (flags_initiateStep s op).1) Bool.false_ne_true ops

theorem accept_succeeded_iff (ops : List (InitiatorOp τ)) :
    (initiates A localId peerId psk ops).established = true ↔
      Somewhere (initiateStep A) (AcceptSucceeds A) (.fresh localId peerId psk) ops :=
  run_flag_iff (Q := fun s : InitiatorSession κ => s.established = true)
    (fun s op => (flags_initiateStep s op).2) Bool.false_ne_true ops

theorem hello_succeeded_iff (ops : List (ResponderOp τ)) :
    (responds A localId peerId psk ops).accepted = true ↔
      Somewhere (respondStep A) (HelloSucceeds A) (.fresh localId peerId psk) ops :=
  run_flag_iff (Q := fun s : ResponderSession κ τ => s.accepted = true)
    (fun s op => (flags_respondStep s op).1) Bool.false_ne_true ops

theorem finish_succeeded_iff (ops : List (ResponderOp τ)) :
    (responds A localId peerId psk ops).established = true ↔
      Somewhere (respondStep A) (FinishSucceeds A) (.fresh localId peerId psk) ops :=
  run_flag_iff (Q := fun s : ResponderSession κ τ => s.established = true)
    (fun s op => (flags_respondStep s op).2) Bool.false_ne_true ops

end Flags

/-! ### Calls that succeed -/

omit [DecidableEq τ] in
/-- A responder that issues an `Accept` for a session it can derive keys for has accepted. -/
theorem receiveHello_of_issues {s : ResponderSession κ τ} {hello : Hello} {serverNonce : UInt64}
    {a : Accept τ} {peerKeys keys : DirectionalKeys κ} (h : Issues A s hello serverNonce a)
    (hd : deriveDirectionalKeys A.auth s.psk ⟨a.sessionId, a.epoch⟩ s.peerId s.localId =
      some (peerKeys, keys)) :
    s.receiveHello A hello serverNonce = (.ok (), some a, s.issued hello a keys) := by
  have hmac : A.mac s.psk (transcript hello (⟨s.peerId, s.localId, hello.clientNonce, serverNonce,
      hello.clientNonce ^^^ serverNonce, 1, default⟩ : Accept τ)) = some a.authenticator := by
    have hsame := h.authentic
    rw [h.accept] at hsame
    exact hsame
  have hvalue : a.sessionId = hello.clientNonce ^^^ serverNonce :=
    congrArg Accept.sessionId h.accept
  have hepoch : a.epoch = 1 := congrArg Accept.epoch h.accept
  rw [hvalue, hepoch] at hd
  unfold ResponderSession.receiveHello
  rw [if_neg (by simp [h.notAccepted, h.ids, h.initiatorId, h.responderId, h.helloNonce, h.nonce])]
  dsimp only
  rw [hmac]
  dsimp only
  rw [hd]
  dsimp only
  rw [← h.accept]
  rfl

theorem accept_of_accepts {s : InitiatorSession κ} {received : Accept τ}
    {keys peerKeys : DirectionalKeys κ} {t : τ} (h : Accepts A s received keys peerKeys t) :
    s.accept A received = (.ok (finishFor s ⟨received.sessionId, received.epoch⟩ t),
      { s with keys := keys, established := true }) := by
  unfold InitiatorSession.accept
  rw [if_neg (by simp [h.started, h.notEstablished]),
    if_neg (by simp [h.initiatorId, h.responderId, h.clientNonce])]
  have hmac : A.mac s.psk (transcript s.hello
      ({ received with authenticator := default } : Accept τ)) = some received.authenticator :=
    h.authentic
  have hfinish : A.mac s.psk (finishInput 48
      (⟨s.localId, s.peerId, received.sessionId, received.epoch, default⟩ : Finish τ)) =
        some t := by
    rw [finishInput_size _ (by decide : 20 ≤ 48)]
    exact h.finish
  dsimp only
  rw [if_neg (not_not.mpr hmac), h.derived]
  dsimp only
  rw [hfinish]
  rfl

omit [Inhabited τ] in
theorem finish_of_finishes {s : ResponderSession κ τ} {m : Finish τ} (h : Finishes A s m) :
    s.finish A m = (.ok (), { s with established := true }) := by
  rcases finish_cases A s m with ⟨_, -, hn⟩ | ⟨-, he⟩
  · exact absurd h hn
  · exact he

/-! ### The honest run -/

/-- The four calls between an initiator `(a, b)` and a responder `(b, a)` all succeed, and both end
established, with one session, their ids and keys swapped. -/
def Completes [Inhabited κ] (A : Primitives κ τ) (psk : Block) (a b : UInt16) (cn sn : UInt64) :
    Prop :=
  ∃ (hello : Hello) (i i' : InitiatorSession κ) (accept : Accept τ) (finish : Finish τ)
    (r r' : ResponderSession κ τ),
    (InitiatorSession.fresh a b psk).start cn = (.ok hello, i) ∧
    (ResponderSession.fresh b a psk).receiveHello A hello sn = (.ok (), some accept, r) ∧
    i.accept A accept = (.ok finish, i') ∧ r.finish A finish = (.ok (), r') ∧
    i'.established = true ∧ r'.established = true ∧
    i'.keys.session = ⟨cn ^^^ sn, 1⟩ ∧ r'.keys.session = ⟨cn ^^^ sn, 1⟩ ∧
    i'.keys.localId = a ∧ i'.keys.peerId = b ∧ r'.keys.localId = b ∧ r'.keys.peerId = a ∧
    i'.keys.tx = r'.keys.rx ∧ i'.keys.rx = r'.keys.tx

/-- **An honest run completes.** -/
theorem completes_of_total [Inhabited κ] (hA : Total A) (psk : Block) {a b : UInt16}
    {cn sn : UInt64} (ha : a ≠ 0) (hb : b ≠ 0) (hab : a ≠ b) (hcn : cn ≠ 0) (hsn : sn ≠ 0)
    (hne : cn ≠ sn) : Completes A psk a b cn sn := by
  have hx : cn ^^^ sn ≠ 0 := fun h => hne (UInt64.xor_eq_zero_iff.mp h)
  have hids : validIds a b = true ∧ validIds b a = true := by
    simp [validIds, ha, hb, hab, Ne.symm hab]
  -- what the two keyed functions give on the way
  obtain ⟨t, ht⟩ := hA.mac psk (transcript ⟨a, b, cn, 0⟩
    (⟨a, b, cn, sn, cn ^^^ sn, 1, default⟩ : Accept τ))
  obtain ⟨first, second, hd⟩ : ∃ first second,
      deriveDirectionalKeys A.auth psk ⟨cn ^^^ sn, 1⟩ a b = some (first, second) :=
    derive_of_total hA psk hx (by decide : (1 : UInt64) ≠ 0) ha hb hab
  obtain ⟨u, hu⟩ := hA.mac psk (finishInput 20 (⟨a, b, cn ^^^ sn, 1, default⟩ : Finish τ))
  obtain ⟨rfl, hsession, hlocal, hpeer, -⟩ := deriveDirectionalKeys_eq_some hd
  let accept : Accept τ := ⟨a, b, cn, sn, cn ^^^ sn, 1, t⟩
  let finish : Finish τ := ⟨a, b, cn ^^^ sn, 1, u⟩
  let i : InitiatorSession κ :=
    { InitiatorSession.fresh a b psk with hello := ⟨a, b, cn, 0⟩, started := true }
  let r : ResponderSession κ τ :=
    (ResponderSession.fresh b a psk).issued ⟨a, b, cn, 0⟩ accept first.mirror
  have hstart : (InitiatorSession.fresh a b psk : InitiatorSession κ).start cn =
      (.ok ⟨a, b, cn, 0⟩, i) := by
    unfold InitiatorSession.start
    rw [if_neg (by simp [InitiatorSession.fresh, hids.1, hcn])]
    rfl
  have hissues : Issues A (ResponderSession.fresh b a psk : ResponderSession κ τ) ⟨a, b, cn, 0⟩ sn
      accept := ⟨rfl, hids.2, rfl, rfl, hcn, hsn, rfl, ht⟩
  have haccepts : Accepts A i accept first first.mirror u :=
    ⟨rfl, rfl, rfl, rfl, rfl, ht, hd, hu⟩
  have hfinishes : Finishes A r finish := ⟨rfl, rfl, rfl, rfl, rfl, rfl, hu⟩
  exact ⟨_, i, _, accept, finish, r, _, hstart, receiveHello_of_issues hissues hd,
    accept_of_accepts haccepts, finish_of_finishes hfinishes, rfl, rfl, hsession, hsession, hlocal,
    hpeer, hpeer, hlocal, rfl, rfl⟩

/-- **Honest handshakes complete, and only in order.** If the keyed functions succeed, the four
calls complete for all ids and nonces that are not zero and differ; and after any calls, a `start`
or a `receive_hello` after one that has succeeded, an `accept` without a `start` before it, a
`finish` without a `receive_hello`, and either of them once the session is established, is refused
and changes nothing. -/
theorem handshake_completes [Inhabited κ] (A : Primitives κ τ) :
    (Total A → ∀ (psk : Block) (a b : UInt16) (cn sn : UInt64), a ≠ 0 → b ≠ 0 → a ≠ b → cn ≠ 0 →
      sn ≠ 0 → cn ≠ sn → Completes A psk a b cn sn) ∧
    (∀ (localId peerId : UInt16) (psk : Block) (ops : List (InitiatorOp τ)),
      let s := initiates A localId peerId psk ops
      let had := fun P => Somewhere (initiateStep A) P (.fresh localId peerId psk) ops
      (had StartSucceeds → ∀ clientNonce, s.start clientNonce = (.error .nonceReuse, s)) ∧
        (¬ had StartSucceeds ∨ had (AcceptSucceeds A) →
          ∀ received, s.accept A received = (.error .invalidState, s))) ∧
    ∀ (localId peerId : UInt16) (psk : Block) (ops : List (ResponderOp τ)),
      let s := responds A localId peerId psk ops
      let had := fun P => Somewhere (respondStep A) P (.fresh localId peerId psk) ops
      (had (HelloSucceeds A) → ∀ hello serverNonce,
          s.receiveHello A hello serverNonce = (.error .nonceReuse, none, s)) ∧
        (¬ had (HelloSucceeds A) ∨ had (FinishSucceeds A) →
          ∀ message, s.finish A message = (.error .invalidState, s)) := by
  refine ⟨fun hA psk a b cn sn ha hb hab hcn hsn hne =>
    completes_of_total hA psk ha hb hab hcn hsn hne, fun localId peerId psk ops => ⟨?_, ?_⟩,
    fun localId peerId psk ops => ⟨?_, ?_⟩⟩
  · intro hstart clientNonce
    exact start_refused ((start_succeeded_iff ops).mpr hstart) clientNonce
  · intro hwhen received
    refine accept_refused ?_ received
    rcases hwhen with hno | hdone
    · exact Or.inl (Bool.eq_false_iff.mpr fun h => hno ((start_succeeded_iff ops).mp h))
    · exact Or.inr ((accept_succeeded_iff ops).mpr hdone)
  · intro hhello hello serverNonce
    exact receiveHello_refused ((hello_succeeded_iff ops).mpr hhello) hello serverNonce
  · intro hwhen message
    refine finish_refused ?_ message
    rcases hwhen with hno | hdone
    · exact Or.inl (Bool.eq_false_iff.mpr fun h => hno ((hello_succeeded_iff ops).mp h))
    · exact Or.inr ((finish_succeeded_iff ops).mpr hdone)

/-- `make_auth` and `crypto_auth` do not fail if the AEAD makes a tag of an empty text. -/
theorem total_source {P : Aead} {auth : Auth Block}
    (htag : ∀ aad nonce key, ∃ tag, P.encrypt [] aad nonce key = some tag ∧ tag.length = kTagBytes)
    (hauth : ∀ input key, ∃ k, auth input key = some k) : Total (sourcePrimitives P auth) where
  mac psk input := by
    obtain ⟨tag, htag, hlength⟩ := htag input (List.Vector.replicate 16 0) psk
    refine ⟨⟨tag, hlength⟩, ?_⟩
    show makeAuth P psk input = _
    unfold makeAuth
    rw [htag]
    exact dif_pos hlength
  auth := hauth

/-- **With the functions of the source** an honest run completes. -/
theorem completes_source {P : Aead} {auth : Auth Block}
    (htag : ∀ aad nonce key, ∃ tag, P.encrypt [] aad nonce key = some tag ∧ tag.length = kTagBytes)
    (hauth : ∀ input key, ∃ k, auth input key = some k) (psk : Block) {a b : UInt16}
    {cn sn : UInt64} (ha : a ≠ 0) (hb : b ≠ 0) (hab : a ≠ b) (hcn : cn ≠ 0) (hsn : sn ≠ 0)
    (hne : cn ≠ sn) : Completes (sourcePrimitives P auth) psk a b cn sn :=
  completes_of_total (total_source htag hauth) psk ha hb hab hcn hsn hne

theorem total_transparent : Total transparent :=
  ⟨fun _ input => ⟨input, rfl⟩, fun input _ => ⟨input, rfl⟩⟩

/-- The handshake of `session_test.cpp` completes, with the functions that return their input; and
before it, a responder refuses every `Finish`. -/
theorem handshake_completes_test :
    Completes transparent (List.Vector.replicate 16 7) 10 20 0x1122334455667788
      0x8877665544332211 ∧
    ∀ message, ((responds transparent 20 10 (List.Vector.replicate 16 7) []).finish transparent
      message).1 = .error .invalidState := by
  obtain ⟨hcompletes, -, hresponder⟩ := handshake_completes transparent
  refine ⟨hcompletes total_transparent _ _ _ _ _ (by decide) (by decide) (by decide) (by decide)
    (by decide) (by decide), fun message => ?_⟩
  refine congrArg Prod.fst ((hresponder 20 10 _ []).2 (Or.inl ?_) message)
  rintro ⟨before, a, after, h, -⟩
  simp at h

/-! ### What a failed call leaves behind -/

/-- If the call fails, the initiator is as it was; the two messages are outputs of success only. -/
def InitiatorTraceFree (A : Primitives κ τ) (s : InitiatorSession κ) : InitiatorOp τ → Prop
  | .start clientNonce => ∀ e s', s.start clientNonce = (.error e, s') → s' = s
  | .accept received => ∀ e s', s.accept A received = (.error e, s') → s' = s

/-- If the call fails, the responder is as it was, and no `Accept` has been handed out. -/
def ResponderTraceFree (A : Primitives κ τ) (s : ResponderSession κ τ) : ResponderOp τ → Prop
  | .receiveHello hello serverNonce => ∀ e response s',
      s.receiveHello A hello serverNonce = (.error e, response, s') → response = none ∧ s' = s
  | .finish message => ∀ e s', s.finish A message = (.error e, s') → s' = s

/-- A `Hello` that passes the checks and carries the nonce of the responder. -/
def Collides (s : ResponderSession κ τ) : ResponderOp τ → Prop
  | .receiveHello hello serverNonce => s.accepted = false ∧ validIds s.localId s.peerId = true ∧
      hello.initiatorId = s.peerId ∧ hello.responderId = s.localId ∧ hello.clientNonce ≠ 0 ∧
      hello.clientNonce = serverNonce
  | .finish _ => False

theorem initiatorTraceFree (hA : Total A) (s : InitiatorSession κ) (op : InitiatorOp τ) :
    InitiatorTraceFree A s op := by
  cases op with
  | start clientNonce =>
    intro e s' h
    rcases start_cases s clientNonce with ⟨_, he⟩ | ⟨-, _, he⟩
    · exact (congrArg Prod.snd (h.symm.trans he))
    · simp [he] at h
  | accept received =>
    intro e s' h
    obtain ⟨u, hu⟩ := hA.mac s.psk (finishInput 48
      (⟨s.localId, s.peerId, received.sessionId, received.epoch, default⟩ : Finish τ))
    unfold InitiatorSession.accept at h
    dsimp only at h
    -- the keys are stored after the last step that can fail
    split_ifs at h
    · exact (congrArg Prod.snd h).symm
    · exact (congrArg Prod.snd h).symm
    · exact (congrArg Prod.snd h).symm
    · split at h
      · exact (congrArg Prod.snd h).symm
      · rw [hu] at h
        cases congrArg Prod.fst h

theorem responderTraceFree_finish (s : ResponderSession κ τ) (message : Finish τ) :
    ResponderTraceFree A s (.finish message) := by
  intro e s' h
  rcases finish_cases A s message with ⟨_, he, -⟩ | ⟨-, he⟩
  · exact congrArg Prod.snd (h.symm.trans he)
  · simp [he] at h

omit [DecidableEq τ] in
/-- **A `Hello` that carries the nonce of the responder**: the response is handed out, and the call
fails in the key derivation. -/
theorem receiveHello_of_collides (hA : Total A) {s : ResponderSession κ τ} {hello : Hello}
    {serverNonce : UInt64} (h : Collides s (.receiveHello hello serverNonce : ResponderOp τ)) :
    ∃ a, Issues A s hello serverNonce a ∧ s.receiveHello A hello serverNonce =
      (.error .invalidInput, some a, { s with hello := hello, accept := a }) := by
  obtain ⟨hacc, hids, hi, hr, hn, rfl⟩ := h
  obtain ⟨t, ht⟩ := hA.mac s.psk (transcript hello (⟨s.peerId, s.localId, hello.clientNonce,
    hello.clientNonce, hello.clientNonce ^^^ hello.clientNonce, 1, default⟩ : Accept τ))
  refine ⟨⟨s.peerId, s.localId, hello.clientNonce, hello.clientNonce,
    hello.clientNonce ^^^ hello.clientNonce, 1, t⟩, ⟨hacc, hids, hi, hr, hn, hn, rfl, ht⟩, ?_⟩
  unfold ResponderSession.receiveHello
  rw [if_neg (by simp [hacc, hids, hi, hr, hn])]
  simp only [ht, deriveDirectionalKeys]
  rw [if_pos (Or.inl UInt64.xor_self)]

theorem responderTraceFree_hello (hA : Total A) {s : ResponderSession κ τ} {hello : Hello}
    {serverNonce : UInt64} (h : ¬ Collides s (.receiveHello hello serverNonce : ResponderOp τ)) :
    ResponderTraceFree A s (.receiveHello hello serverNonce) := by
  intro e response s' he
  by_cases hc : s.accepted = true ∨ (!validIds s.localId s.peerId) = true ∨
      hello.initiatorId ≠ s.peerId ∨ hello.responderId ≠ s.localId ∨ hello.clientNonce = 0 ∨
      serverNonce = 0
  · have hrefused : s.receiveHello A hello serverNonce = (.error _, none, s) := if_pos hc
    rw [hrefused, Prod.mk.injEq, Prod.mk.injEq] at he
    exact ⟨he.2.1.symm, he.2.2.symm⟩
  · simp only [not_or, Bool.not_eq_true, Bool.not_eq_false', not_not] at hc
    obtain ⟨hacc, hids, hi, hr, hn, hsn⟩ := hc
    have hne : hello.clientNonce ^^^ serverNonce ≠ 0 := fun hx =>
      h ⟨hacc, hids, hi, hr, hn, UInt64.xor_eq_zero_iff.mp hx⟩
    obtain ⟨t, ht⟩ := hA.mac s.psk (transcript hello (⟨s.peerId, s.localId, hello.clientNonce,
      serverNonce, hello.clientNonce ^^^ serverNonce, 1, default⟩ : Accept τ))
    have hissues : Issues A s hello serverNonce ⟨s.peerId, s.localId, hello.clientNonce,
        serverNonce, hello.clientNonce ^^^ serverNonce, 1, t⟩ :=
      ⟨hacc, hids, hi, hr, hn, hsn, rfl, ht⟩
    have hvalid : s.localId ≠ 0 ∧ s.peerId ≠ 0 ∧ s.localId ≠ s.peerId := by
      simpa [validIds, and_assoc] using hids
    obtain ⟨first, second, hd⟩ : ∃ first second, deriveDirectionalKeys A.auth s.psk
        ⟨hello.clientNonce ^^^ serverNonce, 1⟩ s.peerId s.localId = some (first, second) :=
      derive_of_total hA s.psk hne (by decide : (1 : UInt64) ≠ 0) hvalid.2.1 hvalid.1
        (Ne.symm hvalid.2.2)
    rw [receiveHello_of_issues hissues hd] at he
    cases congrArg Prod.fst he

/-- **When a failed step leaves no trace.** If the keyed functions succeed, no failed call of an
initiator changes anything or hands anything out, whatever was called before; and of a responder
neither, exactly if the call is not a `Hello` that passes the checks and carries the nonce of the
responder. So no call of a run without such a `Hello` leaves a trace. -/
theorem trace_free_iff [Inhabited κ] (hA : Total A) (localId peerId : UInt16) (psk : Block) :
    (∀ (ops : List (InitiatorOp τ)) op,
      InitiatorTraceFree A (initiates A localId peerId psk ops) op) ∧
    (∀ (ops : List (ResponderOp τ)) op,
      ResponderTraceFree A (responds A localId peerId psk ops) op ↔
        ¬ Collides (responds A localId peerId psk ops) op) ∧
    ∀ ops : List (ResponderOp τ),
      Along (respondStep A) (ResponderTraceFree A) (.fresh localId peerId psk) ops ↔
        Along (respondStep A) (fun s op => ¬ Collides s op) (.fresh localId peerId psk) ops := by
  have hiff : ∀ (s : ResponderSession κ τ) (op : ResponderOp τ),
      ResponderTraceFree A s op ↔ ¬ Collides s op := by
    intro s op
    cases op with
    | receiveHello hello serverNonce =>
      refine ⟨fun hfree hc => ?_, responderTraceFree_hello hA⟩
      obtain ⟨a, -, he⟩ := receiveHello_of_collides hA hc
      cases (hfree _ _ _ he).1
    | finish message => exact iff_of_true (responderTraceFree_finish s message) id
  exact ⟨fun ops op => initiatorTraceFree hA _ op, fun ops op => hiff _ op,
    fun ops => along_congr (along_of_forall hiff _ ops)⟩

/-- A responder 20 of a peer 10. -/
def freshResponder : ResponderSession (List UInt8) (List UInt8) :=
  .fresh 20 10 (List.Vector.replicate 16 7)

/-- A `Hello` with another nonce is refused without a trace. -/
theorem trace_free_test :
    ResponderTraceFree transparent freshResponder (.receiveHello ⟨11, 20, 7, 0⟩ 8) :=
  ((trace_free_iff total_transparent 20 10 (List.Vector.replicate 16 7)).2.1 []
    (.receiveHello ⟨11, 20, 7, 0⟩ 8)).mpr fun h => absurd h.2.2.1 (by decide)

/-- The `Hello` of nonce 7 to a responder of nonce 7 fails, hands out an `Accept` with a valid
authenticator, and leaves itself in the session. -/
theorem receiveHello_leaves_trace :
    Total transparent ∧ ∃ a s',
      freshResponder.receiveHello transparent ⟨10, 20, 7, 0⟩ 7 =
        (.error .invalidInput, some a, s') ∧
      transparent.mac freshResponder.psk (transcript ⟨10, 20, 7, 0⟩ a) = some a.authenticator ∧
      s'.hello ≠ freshResponder.hello ∧ s'.accept ≠ freshResponder.accept ∧
      ¬ ResponderTraceFree transparent freshResponder (.receiveHello ⟨10, 20, 7, 0⟩ 7) := by
  have hc : Collides freshResponder
      (.receiveHello ⟨10, 20, 7, 0⟩ 7 : ResponderOp (List UInt8)) := by
    refine ⟨rfl, ?_, rfl, rfl, ?_, rfl⟩
    · decide
    · decide
  obtain ⟨a, ha, he⟩ := receiveHello_of_collides total_transparent hc
  refine ⟨total_transparent, a, _, he, ha.authentic, ?_, ?_, fun hfree => ?_⟩
  · simp [freshResponder, ResponderSession.fresh]
  · intro h
    have hid : a.initiatorId = 0 := congrArg Accept.initiatorId h
    have hpeer : a.initiatorId = 10 := congrArg Accept.initiatorId ha.accept
    exact absurd (hpeer.symm.trans hid) (by decide)
  · cases (hfree _ _ _ he).1

end NewMavlink.Handshake.Completion
