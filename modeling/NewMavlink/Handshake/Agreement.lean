import NewMavlink.Handshake.Sessions
import Mathlib.Logic.Function.Basic

/-! # Agreement on keys

Any number of initiators and responders with one psk, and a network that hands each of them any
message at any time. What an honest session hands out with an authenticator is logged in
`released`; `make_auth` is ideal in a run if no session is handed a valid authenticator for an
input that is not in the log (`Unforged`).

* `inv_netStep`: the authenticators released are over transcripts of responders and over the
  sessions of established initiators; what a session holds after it has accepted or is established
  stays as it is.
* `handshake_agreement`: an established initiator has its peer, which accepted its `Hello`, issued
  the `Accept` it took, and has the mirrored keys; an established responder has an established
  initiator with the mirrored keys. -/

namespace NewMavlink.Handshake.Agreement

open NewMavlink.Lib.Buffer NewMavlink.Lib.Runs NewMavlink.Wire NewMavlink.Crypto
open NewMavlink.Handshake.Messages NewMavlink.Handshake.Sessions

variable {ι ρ κ τ : Type}

/-- The sessions, with what they released under an authenticator, the `Accept`s that initiators
took and those that responders issued. -/
structure Net (ι ρ κ τ : Type) where
  initiators : ι → InitiatorSession κ
  responders : ρ → ResponderSession κ τ
  released : List (List UInt8 × τ) := []
  took : List (ι × Accept τ) := []
  issued : List (ρ × Accept τ) := []

/-- Fresh sessions with the ids `initiatorIds i` and `responderIds j` (own id, peer id). -/
def start [Inhabited κ] [Inhabited τ] (psk : Block) (initiatorIds : ι → UInt16 × UInt16)
    (responderIds : ρ → UInt16 × UInt16) : Net ι ρ κ τ where
  initiators i := .fresh (initiatorIds i).1 (initiatorIds i).2 psk
  responders j := .fresh (responderIds j).1 (responderIds j).2 psk

/-- A call on one of the sessions, with whatever message the network hands it. -/
inductive NetOp (ι ρ τ : Type) where
  | start (i : ι) (clientNonce : UInt64)
  | receiveHello (j : ρ) (hello : Hello) (serverNonce : UInt64)
  | accept (i : ι) (received : Accept τ)
  | finish (j : ρ) (message : Finish τ)

/-- The network after an `accept`: a `Finish` that is returned is released. -/
def logAccept [DecidableEq ι] (n : Net ι ρ κ τ) (i : ι) (received : Accept τ) :
    Except SessionError (Finish τ) × InitiatorSession κ → Net ι ρ κ τ
  | (.ok m, s) =>
    { n with
      initiators := Function.update n.initiators i s
      released := n.released ++ [(finishInput 20 m, m.authenticator)]
      took := n.took ++ [(i, received)] }
  | (.error _, s) => { n with initiators := Function.update n.initiators i s }

/-- The network after a `receive_hello`: a response that was assigned is released, and it is
issued if the call succeeds. -/
def logHello [DecidableEq ρ] (n : Net ι ρ κ τ) (j : ρ) (hello : Hello) :
    Except SessionError Unit × Option (Accept τ) × ResponderSession κ τ → Net ι ρ κ τ
  | (.ok (), some a, s) =>
    { n with
      responders := Function.update n.responders j s
      released := n.released ++ [(transcript hello a, a.authenticator)]
      issued := n.issued ++ [(j, a)] }
  | (.error _, some a, s) =>
    { n with
      responders := Function.update n.responders j s
      released := n.released ++ [(transcript hello a, a.authenticator)] }
  | (_, none, s) => { n with responders := Function.update n.responders j s }

/-- One call on one session. -/
def netStep [DecidableEq ι] [DecidableEq ρ] [DecidableEq τ] [Inhabited τ] (A : Primitives κ τ)
    (n : Net ι ρ κ τ) : NetOp ι ρ τ → Net ι ρ κ τ
  | .start i clientNonce =>
    { n with
      initiators := Function.update n.initiators i ((n.initiators i).start clientNonce).2 }
  | .receiveHello j hello serverNonce =>
    logHello n j hello ((n.responders j).receiveHello A hello serverNonce)
  | .accept i received => logAccept n i received ((n.initiators i).accept A received)
  | .finish j m =>
    { n with responders := Function.update n.responders j ((n.responders j).finish A m).2 }

/-- **`make_auth` is ideal**: a session is handed a valid authenticator only for an input that an
honest session released it over. -/
def Unforged (A : Primitives κ τ) (n : Net ι ρ κ τ) : NetOp ι ρ τ → Prop
  | .accept i received =>
    A.mac (n.initiators i).psk (transcript (n.initiators i).hello received) =
        some received.authenticator →
      (transcript (n.initiators i).hello received, received.authenticator) ∈ n.released
  | .finish j m =>
    A.mac (n.responders j).psk (finishInput 20 m) = some m.authenticator →
      (finishInput 20 m, m.authenticator) ∈ n.released
  | _ => True

/-! ### What stays as it is -/

variable {A : Primitives κ τ} {psk : Block} {n n' : Net ι ρ κ τ}

/-- **What no call takes back**: the psk, established initiators, what a responder has accepted,
and the logs. -/
structure Extends (n n' : Net ι ρ κ τ) : Prop where
  initiatorPsk : ∀ i, (n'.initiators i).psk = (n.initiators i).psk
  responderPsk : ∀ j, (n'.responders j).psk = (n.responders j).psk
  established : ∀ i, (n.initiators i).established = true → n'.initiators i = n.initiators i
  accepted : ∀ j, (n.responders j).accepted = true →
    n'.responders j = { n.responders j with established := (n'.responders j).established }
  completed : ∀ j, (n.responders j).established = true → (n'.responders j).established = true
  took : ∀ p ∈ n.took, p ∈ n'.took
  issued : ∀ p ∈ n.issued, p ∈ n'.issued

/-- A call on an initiator takes nothing back if it leaves an established one as it is. -/
theorem Extends.of_initiator [DecidableEq ι] {i : ι} {s : InitiatorSession κ}
    {released : List (List UInt8 × τ)} {took : List (ι × Accept τ)}
    (hpsk : s.psk = (n.initiators i).psk)
    (hkeep : (n.initiators i).established = true → s = n.initiators i)
    (htook : ∀ p ∈ n.took, p ∈ took) :
    Extends n { n with
      initiators := Function.update n.initiators i s, released := released, took := took } where
  initiatorPsk k := by
    rcases eq_or_ne k i with rfl | hk
    · simpa using hpsk
    · simp [hk]
  responderPsk _ := rfl
  established k h := by
    rcases eq_or_ne k i with rfl | hk
    · simpa using hkeep h
    · simp [hk]
  accepted _ _ := rfl
  completed _ h := h
  took := htook
  issued _ h := h

/-- A call on a responder takes nothing back if it only establishes one that has accepted. -/
theorem Extends.of_responder [DecidableEq ρ] {j : ρ} {s : ResponderSession κ τ}
    {released : List (List UInt8 × τ)} {issued : List (ρ × Accept τ)}
    (hpsk : s.psk = (n.responders j).psk)
    (hkeep : (n.responders j).accepted = true →
      s = { n.responders j with established := s.established })
    (hest : (n.responders j).established = true → s.established = true)
    (hissued : ∀ p ∈ n.issued, p ∈ issued) :
    Extends n { n with
      responders := Function.update n.responders j s, released := released, issued := issued } where
  initiatorPsk _ := rfl
  responderPsk k := by
    rcases eq_or_ne k j with rfl | hk
    · simpa using hpsk
    · simp [hk]
  established _ _ := rfl
  accepted k h := by
    rcases eq_or_ne k j with rfl | hk
    · simpa using hkeep h
    · simp [hk]
  completed k h := by
    rcases eq_or_ne k j with rfl | hk
    · simpa using hest h
    · simpa [hk] using h
  took _ h := h
  issued := hissued

/-! ### The invariant -/

/-- Responder `j` has accepted `hello` and issued `a`. -/
structure Issued (n : Net ι ρ κ τ) (j : ρ) (hello : Hello) (a : Accept τ) : Prop where
  accepted : (n.responders j).accepted = true
  hello : (n.responders j).hello = hello
  accept : (n.responders j).accept = a
  initiatorId : a.initiatorId = (n.responders j).peerId
  responderId : a.responderId = (n.responders j).localId
  mem : (j, a) ∈ n.issued

/-- **Agreement** of initiator `i` with responder `j` on the `Accept` `a`, the ids and the keys. -/
structure Agreed (n : Net ι ρ κ τ) (i : ι) (j : ρ) (a : Accept τ) : Prop where
  took : (i, a) ∈ n.took
  issued : Issued n j (n.initiators i).hello a
  clientNonce : a.clientNonce = (n.initiators i).hello.clientNonce
  localId : (n.responders j).localId = (n.initiators i).peerId
  peerId : (n.responders j).peerId = (n.initiators i).localId
  session : (n.initiators i).keys.session = ⟨a.sessionId, a.epoch⟩
  keys : (n.responders j).keys = (n.initiators i).keys.mirror

/-- What an authenticator was released for: a transcript, whose keys cannot be derived or that a
responder has accepted, or the session of an established initiator. -/
def Released (A : Primitives κ τ) (psk : Block) (n : Net ι ρ κ τ) (p : List UInt8 × τ) : Prop :=
  (∃ hello a, p = (transcript hello a, a.authenticator) ∧
    (deriveDirectionalKeys A.auth psk ⟨a.sessionId, a.epoch⟩ a.initiatorId a.responderId = none ∨
      ∃ j, Issued n j hello a)) ∨
  ∃ i, (n.initiators i).established = true ∧
    p.1 = finishInput 20 (finishFor (n.initiators i) (n.initiators i).keys.session p.2)

/-- What an established initiator has. -/
structure InitiatorDone (A : Primitives κ τ) (psk : Block) (n : Net ι ρ κ τ) (i : ι) : Prop where
  started : (n.initiators i).started = true
  keys : deriveDirectionalKeys A.auth psk (n.initiators i).keys.session (n.initiators i).localId
    (n.initiators i).peerId = some ((n.initiators i).keys, (n.initiators i).keys.mirror)
  agreed : ∃ j a, Agreed n i j a

/-- The keys of a responder that has accepted. -/
def ResponderKeys (A : Primitives κ τ) (psk : Block) (n : Net ι ρ κ τ) (j : ρ) : Prop :=
  deriveDirectionalKeys A.auth psk
    ⟨(n.responders j).accept.sessionId, (n.responders j).accept.epoch⟩ (n.responders j).peerId
    (n.responders j).localId = some ((n.responders j).keys.mirror, (n.responders j).keys)

/-- What an established responder has. -/
def ResponderDone (n : Net ι ρ κ τ) (j : ρ) : Prop :=
  (n.responders j).accepted = true ∧
    ∃ i, (n.initiators i).established = true ∧ (n.responders j).keys = (n.initiators i).keys.mirror

/-- **What holds after every call.** -/
structure Inv (A : Primitives κ τ) (psk : Block) (n : Net ι ρ κ τ) : Prop where
  initiatorPsk : ∀ i, (n.initiators i).psk = psk
  responderPsk : ∀ j, (n.responders j).psk = psk
  released : ∀ p ∈ n.released, Released A psk n p
  initiators : ∀ i, (n.initiators i).established = true → InitiatorDone A psk n i
  accepted : ∀ j, (n.responders j).accepted = true → ResponderKeys A psk n j
  completed : ∀ j, (n.responders j).established = true → ResponderDone n j

theorem Issued.extend (hx : Extends n n') {j : ρ} {hello : Hello} {a : Accept τ}
    (h : Issued n j hello a) : Issued n' j hello a := by
  have hr := hx.accepted j h.accepted
  refine ⟨?_, ?_, ?_, ?_, ?_, hx.issued _ h.mem⟩
  · rw [hr]; exact h.accepted
  · rw [hr]; exact h.hello
  · rw [hr]; exact h.accept
  · rw [hr]; exact h.initiatorId
  · rw [hr]; exact h.responderId

theorem Agreed.extend (hx : Extends n n') {i : ι} {j : ρ} {a : Accept τ}
    (he : (n.initiators i).established = true) (h : Agreed n i j a) : Agreed n' i j a := by
  have hi := hx.established i he
  have hr := hx.accepted j h.issued.accepted
  refine ⟨hx.took _ h.took, ?_, ?_, ?_, ?_, ?_, ?_⟩
  · rw [hi]; exact h.issued.extend hx
  · rw [hi]; exact h.clientNonce
  · rw [hi, hr]; exact h.localId
  · rw [hi, hr]; exact h.peerId
  · rw [hi]; exact h.session
  · rw [hi, hr]; exact h.keys

theorem Released.extend (hx : Extends n n') {p : List UInt8 × τ} (h : Released A psk n p) :
    Released A psk n' p := by
  rcases h with ⟨hello, a, hp, hd | ⟨j, hj⟩⟩ | ⟨i, he, hp⟩
  · exact Or.inl ⟨hello, a, hp, Or.inl hd⟩
  · exact Or.inl ⟨hello, a, hp, Or.inr ⟨j, hj.extend hx⟩⟩
  · refine Or.inr ⟨i, ?_, ?_⟩
    · rw [hx.established i he]; exact he
    · rw [hx.established i he]; exact hp

theorem InitiatorDone.extend (hx : Extends n n') {i : ι}
    (he : (n.initiators i).established = true) (h : InitiatorDone A psk n i) :
    InitiatorDone A psk n' i := by
  obtain ⟨hs, hk, j, a, ha⟩ := h
  refine ⟨?_, ?_, j, a, ha.extend hx he⟩
  · rw [hx.established i he]; exact hs
  · rw [hx.established i he]; exact hk

theorem ResponderKeys.extend (hx : Extends n n') {j : ρ} (ha : (n.responders j).accepted = true)
    (h : ResponderKeys A psk n j) : ResponderKeys A psk n' j := by
  unfold ResponderKeys
  rw [hx.accepted j ha]
  exact h

theorem ResponderDone.extend (hx : Extends n n') {j : ρ} (h : ResponderDone n j) :
    ResponderDone n' j := by
  obtain ⟨ha, i, he, hk⟩ := h
  refine ⟨?_, i, ?_, ?_⟩
  · rw [hx.accepted j ha]; exact ha
  · rw [hx.established i he]; exact he
  · rw [hx.accepted j ha, hx.established i he]; exact hk

/-- **The invariant passes on**, once what is new has been shown. -/
theorem Inv.extend (h : Inv A psk n) (hx : Extends n n')
    (hreleased : ∀ p ∈ n'.released, p ∈ n.released ∨ Released A psk n' p)
    (hinitiators : ∀ i, (n'.initiators i).established = true →
      (n.initiators i).established = true ∨ InitiatorDone A psk n' i)
    (haccepted : ∀ j, (n'.responders j).accepted = true →
      (n.responders j).accepted = true ∨ ResponderKeys A psk n' j)
    (hcompleted : ∀ j, (n'.responders j).established = true →
      (n.responders j).established = true ∨ ResponderDone n' j) : Inv A psk n' where
  initiatorPsk i := (hx.initiatorPsk i).trans (h.initiatorPsk i)
  responderPsk j := (hx.responderPsk j).trans (h.responderPsk j)
  released p hp := (hreleased p hp).elim (fun hp => (h.released p hp).extend hx) id
  initiators i hi := (hinitiators i hi).elim (fun hi => (h.initiators i hi).extend hx hi) id
  accepted j hj := (haccepted j hj).elim (fun hj => (h.accepted j hj).extend hx hj) id
  completed j hj := (hcompleted j hj).elim (fun hj => (h.completed j hj).extend hx) id

/-! ### What one call keeps -/

theorem inv_fresh [Inhabited κ] [Inhabited τ] {initiatorIds : ι → UInt16 × UInt16}
    {responderIds : ρ → UInt16 × UInt16} :
    Inv A psk (start psk initiatorIds responderIds : Net ι ρ κ τ) where
  initiatorPsk _ := rfl
  responderPsk _ := rfl
  released p hp := absurd hp (by simp [start])
  initiators i hi := absurd hi (by simp [start, InitiatorSession.fresh])
  accepted j hj := absurd hj (by simp [start, ResponderSession.fresh])
  completed j hj := absurd hj (by simp [start, ResponderSession.fresh])

theorem keys_eq_mirror {session : SessionId} {a b : UInt16} {first second third : DirectionalKeys κ}
    (hi : deriveDirectionalKeys A.auth psk session a b = some (first, second))
    (hr : deriveDirectionalKeys A.auth psk session a b = some (third.mirror, third)) :
    third = first.mirror := by
  rw [hi] at hr
  obtain ⟨rfl, -⟩ := Prod.mk.inj (Option.some.inj hr)
  rfl

/-- **An initiator takes only what a responder issued**, and derives the mirrored keys: what was
released over fifty-two bytes is a transcript, and the transcript determines its fields. -/
theorem issued_of_accepts {i : ι} {received : Accept τ} {keys peerKeys : DirectionalKeys κ} {t : τ}
    (ha : Accepts A (n.initiators i) received keys peerKeys t) (h : Inv A psk n)
    (hu : Unforged A n (.accept i received)) :
    ∃ j, Issued n j (n.initiators i).hello received ∧ (n.responders j).keys = keys.mirror := by
  have hd := ha.derived
  rw [h.initiatorPsk, ← ha.initiatorId, ← ha.responderId] at hd
  rcases h.released _ (hu ha.authentic) with ⟨hello, a, hp, hor⟩ | ⟨k, -, hp⟩
  · obtain ⟨ht, hauth⟩ := Prod.mk.inj hp
    obtain ⟨rfl, hra⟩ := transcript_inj ht
    obtain rfl : received = a := by rw [hra, hauth]
    rcases hor with hnone | ⟨j, hj⟩
    · rw [hnone] at hd
      cases hd
    · have hr := h.accepted j hj.accepted
      rw [ResponderKeys, hj.accept, ← hj.initiatorId, ← hj.responderId] at hr
      exact ⟨j, hj, keys_eq_mirror hd hr⟩
  · have hlen := congrArg List.length hp
    simp at hlen

/-- **A responder is finished only by an established initiator** of its session: what was released
over twenty bytes is the input of a `Finish`, which determines the session. -/
theorem initiator_of_finishes {j : ρ} {m : Finish τ} (hf : Finishes A (n.responders j) m)
    (h : Inv A psk n) (hu : Unforged A n (.finish j m)) :
    ∃ i, (n.initiators i).established = true ∧
      (n.responders j).keys = (n.initiators i).keys.mirror := by
  rcases h.released _ (hu hf.authentic) with ⟨hello, a, hp, -⟩ | ⟨i, hi, hp⟩
  · have hlen := congrArg (fun p => List.length p.1) hp
    simp at hlen
  · dsimp only at hp
    have hm := finishInput_inj hp
    have hid : (n.initiators i).localId = (n.responders j).peerId :=
      (congrArg Finish.initiatorId hm).symm.trans hf.initiatorId
    have hpeer : (n.initiators i).peerId = (n.responders j).localId :=
      (congrArg Finish.responderId hm).symm.trans hf.responderId
    have hses : (n.initiators i).keys.session =
        ⟨(n.responders j).accept.sessionId, (n.responders j).accept.epoch⟩ := by
      rw [← hf.sessionId, ← hf.epoch, hm, finishFor]
    have hd := (h.initiators i hi).keys
    rw [hses, hid, hpeer] at hd
    exact ⟨i, hi, keys_eq_mirror hd (h.accepted j hf.accepted)⟩

section Initiator

variable [DecidableEq ι]

theorem Inv.initiator {i : ι} {s : InitiatorSession κ} (h : Inv A psk n)
    (hold : (n.initiators i).established = false) (hnew : s.established = false)
    (hpsk : s.psk = (n.initiators i).psk) :
    Inv A psk { n with initiators := Function.update n.initiators i s } := by
  have hx : Extends n { n with initiators := Function.update n.initiators i s } := by
    refine .of_initiator hpsk (fun hest => ?_) (fun _ hp => hp)
    rw [hold] at hest
    cases hest
  refine h.extend hx ?_ ?_ ?_ ?_
  · intro p hp
    exact Or.inl hp
  · intro k hk
    rcases eq_or_ne k i with rfl | hne
    · simp [hnew] at hk
    · exact Or.inl (by simpa [hne] using hk)
  · intro j hj
    exact Or.inl hj
  · intro j hj
    exact Or.inl hj

theorem inv_start (h : Inv A psk n) (i : ι) (clientNonce : UInt64) :
    Inv A psk { n with
      initiators := Function.update n.initiators i ((n.initiators i).start clientNonce).2 } := by
  rcases start_cases (n.initiators i) clientNonce with ⟨_, he⟩ | ⟨hs, _, he⟩
  · rw [he, Function.update_eq_self]
    exact h
  · -- an established initiator has started
    have hold : (n.initiators i).established = false := by
      by_contra hest
      rw [(h.initiators i (by simpa using hest)).started] at hs
      cases hs
    rw [he]
    exact h.initiator hold hold rfl

theorem inv_accept [DecidableEq τ] [Inhabited τ] (h : Inv A psk n) (i : ι) (received : Accept τ)
    (hu : Unforged A n (.accept i received)) :
    Inv A psk (logAccept n i received ((n.initiators i).accept A received)) := by
  rcases accept_cases A (n.initiators i) received with ⟨_, he⟩ | ⟨hold, _, keys, he⟩ |
    ⟨keys, peerKeys, t, ha, he⟩
  · rw [he, logAccept, Function.update_eq_self]
    exact h
  · rw [he, logAccept]
    exact h.initiator hold hold rfl
  · obtain ⟨j, hj, hkeys⟩ := issued_of_accepts ha h hu
    have hd := ha.derived
    obtain ⟨rfl, hses, -⟩ := deriveDirectionalKeys_eq_some hd
    rw [h.initiatorPsk, ← hses] at hd
    have hlocal : (n.responders j).localId = (n.initiators i).peerId :=
      hj.responderId.symm.trans ha.responderId
    have hpeer : (n.responders j).peerId = (n.initiators i).localId :=
      hj.initiatorId.symm.trans ha.initiatorId
    rw [he, logAccept]
    refine h.extend ?_ ?_ ?_ ?_ ?_
    · refine .of_initiator rfl (fun hest => ?_) (fun _ hp => List.mem_append_left _ hp)
      rw [ha.notEstablished] at hest
      cases hest
    · refine forall_mem_log (fun p hp => Or.inl hp) ?_
      exact Or.inr (Or.inr ⟨i, by simp, by simp [finishFor, hses]⟩)
    · intro k hk
      rcases eq_or_ne k i with rfl | hne
      · refine Or.inr ⟨by simp [ha.started], by simpa using hd, j, received, by simp,
          ⟨hj.accepted, ?_, hj.accept, hj.initiatorId, hj.responderId, hj.mem⟩, ?_, ?_, ?_, ?_, ?_⟩
        · simpa using hj.hello
        · simpa using ha.clientNonce
        · simpa using hlocal
        · simpa using hpeer
        · simpa using hses
        · simpa using hkeys
      · exact Or.inl (by simpa [hne] using hk)
    · intro j hj
      exact Or.inl hj
    · intro j hj
      exact Or.inl hj

end Initiator

section Responder

variable [DecidableEq ρ]

theorem Inv.responder {j : ρ} {s : ResponderSession κ τ} {released : List (List UInt8 × τ)}
    (h : Inv A psk n) (hold : (n.responders j).accepted = false) (hnew : s.accepted = false)
    (hest : s.established = (n.responders j).established) (hpsk : s.psk = (n.responders j).psk)
    (hreleased : ∀ p ∈ released, p ∈ n.released ∨ ∀ n' : Net ι ρ κ τ, Released A psk n' p) :
    Inv A psk { n with
      responders := Function.update n.responders j s, released := released } := by
  have hx : Extends n { n with
      responders := Function.update n.responders j s, released := released } := by
    refine .of_responder hpsk (fun ha => ?_) (fun he => hest ▸ he) (fun _ hp => hp)
    rw [hold] at ha
    cases ha
  refine h.extend hx ?_ ?_ ?_ ?_
  · intro p hp
    exact (hreleased p hp).imp_right fun hp => hp _
  · intro i hi
    exact Or.inl hi
  · intro k hk
    rcases eq_or_ne k j with rfl | hne
    · simp [hnew] at hk
    · exact Or.inl (by simpa [hne] using hk)
  · intro k hk
    rcases eq_or_ne k j with rfl | hne
    · exact Or.inl (by simpa [hest] using hk)
    · exact Or.inl (by simpa [hne] using hk)

theorem inv_receiveHello [Inhabited τ] (h : Inv A psk n) (j : ρ) (hello : Hello)
    (serverNonce : UInt64) :
    Inv A psk (logHello n j hello ((n.responders j).receiveHello A hello serverNonce)) := by
  rcases receiveHello_cases A (n.responders j) hello serverNonce with ⟨_, he⟩ |
    ⟨hold, _, _, he⟩ | ⟨a, _, hi, hd, he⟩ | ⟨a, peerKeys, keys, hi, hd, he⟩
  · rw [he, logHello, Function.update_eq_self]
    exact h
  · rw [he, logHello]
    exact h.responder hold hold rfl rfl fun _ hp => Or.inl hp
  · -- the response is out, but no initiator derives keys from it
    have hnone : deriveDirectionalKeys A.auth psk ⟨a.sessionId, a.epoch⟩ a.initiatorId
        a.responderId = none := by
      rw [h.responderPsk] at hd
      rw [hi.accept] at hd ⊢
      exact hd
    rw [he, logHello]
    refine h.responder hi.notAccepted hi.notAccepted rfl rfl ?_
    refine forall_mem_log (fun p hp => Or.inl hp) (Or.inr fun n' => ?_)
    exact Or.inl ⟨hello, a, rfl, Or.inl hnone⟩
  · obtain ⟨rfl, -⟩ := deriveDirectionalKeys_eq_some hd
    rw [h.responderPsk] at hd
    have hinitiator : a.initiatorId = (n.responders j).peerId :=
      congrArg Accept.initiatorId hi.accept
    have hresponder : a.responderId = (n.responders j).localId :=
      congrArg Accept.responderId hi.accept
    rw [he, logHello]
    refine h.extend ?_ ?_ ?_ ?_ ?_
    · refine .of_responder rfl (fun ha => ?_) (fun hest => hest)
        (fun _ hp => List.mem_append_left _ hp)
      rw [hi.notAccepted] at ha
      cases ha
    · refine forall_mem_log (fun p hp => Or.inl hp) ?_
      refine Or.inr (Or.inl ⟨hello, a, rfl, Or.inr ⟨j, ?_, ?_, ?_, ?_, ?_, ?_⟩⟩)
      · simp [ResponderSession.issued]
      · simp [ResponderSession.issued]
      · simp [ResponderSession.issued]
      · simpa [ResponderSession.issued] using hinitiator
      · simpa [ResponderSession.issued] using hresponder
      · exact List.mem_append_right _ (List.mem_singleton_self _)
    · intro i hi
      exact Or.inl hi
    · intro k hk
      rcases eq_or_ne k j with rfl | hne
      · exact Or.inr (by simpa [ResponderKeys, ResponderSession.issued] using hd)
      · exact Or.inl (by simpa [hne] using hk)
    · intro k hk
      rcases eq_or_ne k j with rfl | hne
      · exact Or.inl (by simpa [ResponderSession.issued] using hk)
      · exact Or.inl (by simpa [hne] using hk)

theorem inv_finish [DecidableEq τ] (h : Inv A psk n) (j : ρ) (m : Finish τ)
    (hu : Unforged A n (.finish j m)) :
    Inv A psk { n with
      responders := Function.update n.responders j ((n.responders j).finish A m).2 } := by
  rcases finish_cases A (n.responders j) m with ⟨_, he, -⟩ | ⟨hf, he⟩
  · rw [he, Function.update_eq_self]
    exact h
  · obtain ⟨i, hi, hkeys⟩ := initiator_of_finishes hf h hu
    rw [he]
    refine h.extend ?_ ?_ ?_ ?_ ?_
    · exact .of_responder rfl (fun _ => rfl) (fun _ => rfl) (fun _ hp => hp)
    · intro p hp
      exact Or.inl hp
    · intro i hi
      exact Or.inl hi
    · intro k hk
      rcases eq_or_ne k j with rfl | hne
      · exact Or.inl hf.accepted
      · exact Or.inl (by simpa [hne] using hk)
    · intro k hk
      rcases eq_or_ne k j with rfl | hne
      · exact Or.inr ⟨by simpa using hf.accepted, i, hi, by simpa using hkeys⟩
      · exact Or.inl (by simpa [hne] using hk)

end Responder

variable [DecidableEq ι] [DecidableEq ρ] [DecidableEq τ] [Inhabited τ]

theorem inv_netStep (n : Net ι ρ κ τ) (op : NetOp ι ρ τ) (h : Inv A psk n)
    (hu : Unforged A n op) : Inv A psk (netStep A n op) := by
  cases op with
  | start i clientNonce => exact inv_start h i clientNonce
  | receiveHello j hello serverNonce => exact inv_receiveHello h j hello serverNonce
  | accept i received => exact inv_accept h i received hu
  | finish j m => exact inv_finish h j m hu

/-! ### Agreement -/

/-- **Agreement on keys.** In every run of any sessions with one psk in which `make_auth` is ideal,
an established initiator agrees with a responder on the `Hello`, the `Accept`, the ids and the
keys, and an established responder has an established initiator with the mirrored keys. -/
theorem handshake_agreement [Inhabited κ] (A : Primitives κ τ) (psk : Block)
    (initiatorIds : ι → UInt16 × UInt16) (responderIds : ρ → UInt16 × UInt16)
    (ops : List (NetOp ι ρ τ))
    (hu : Along (netStep A) (Unforged A) (start psk initiatorIds responderIds) ops) :
    let n := run (netStep A) (start psk initiatorIds responderIds) ops
    (∀ i, (n.initiators i).established = true → ∃ j a, Agreed n i j a) ∧
      ∀ j, (n.responders j).established = true →
        ∃ i, (n.initiators i).established = true ∧
          (n.responders j).keys = (n.initiators i).keys.mirror := by
  intro n
  have h : Inv A psk n := run_invariant inv_netStep inv_fresh hu
  constructor
  · intro i hi
    exact (h.initiators i hi).agreed
  · intro j hj
    exact (h.completed j hj).2

/-- An initiator 10 and a responder 20, with the functions that return their input. -/
def testNet : Net Unit Unit (List UInt8) (List UInt8) :=
  start (List.Vector.replicate 16 7) (fun _ => (10, 20)) fun _ => (20, 10)

/-- Their handshake over the nonces 1 and 2, with nothing altered. -/
def testOps : List (NetOp Unit Unit (List UInt8)) :=
  let hello : Hello := ⟨10, 20, 1, 0⟩
  let accept : Accept (List UInt8) := ⟨10, 20, 1, 2, 3, 1, []⟩
  let message : Finish (List UInt8) := ⟨10, 20, 3, 1, []⟩
  [.start () 1, .receiveHello () hello 2,
    .accept () { accept with authenticator := transcript hello accept },
    .finish () { message with authenticator := finishInput 20 message }]

/-- The handshake establishes both sides, and they agree. -/
theorem handshake_agreement_test :
    let n := run (netStep transparent) testNet testOps
    (∃ j a, Agreed n () j a) ∧ ∃ i, (n.responders ()).keys = (n.initiators i).keys.mirror := by
  have hu : Along (netStep transparent) (Unforged transparent) testNet testOps :=
    ⟨trivial, trivial, fun _ => by decide +kernel, fun _ => by decide +kernel, trivial⟩
  have h := handshake_agreement transparent (List.Vector.replicate 16 7) (fun _ => (10, 20))
    (fun _ => (20, 10)) testOps hu
  obtain ⟨i, -, hi⟩ := h.2 () (by decide +kernel)
  exact ⟨h.1 () (by decide +kernel), i, hi⟩

end NewMavlink.Handshake.Agreement
