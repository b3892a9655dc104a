import NewMavlink.Crc16

/-! # Handshake messages

The three messages of `session.hpp` and the wire form of the first. An authenticator has a type `τ`
of its own: the code has sixteen bytes there, and what is proved of the handshake holds for any
type.

* `decodeHello_of_encodeHello`: `encode_hello` leaves the two bytes that `decode_hello` compares
  with the CRC at zero and succeeds only if the CRC is not zero, so no `Hello` that it encodes is
  ever decoded (`hello_never_decoded`, `hello_of_session_test`). -/

namespace NewMavlink.Handshake.Messages

open NewMavlink.Lib.Buffer NewMavlink.Wire NewMavlink.Crc16

/-- The size of an encoded `Hello`. -/
abbrev kHelloBytes : ℕ := 24

/-- `Hello`: an initiator asks for a session. -/
structure Hello where
  initiatorId : UInt16 := 0
  responderId : UInt16 := 0
  clientNonce : UInt64 := 0
  capabilities : UInt32 := 0
deriving DecidableEq, Repr, Inhabited

/-- `Accept`: the responder names the session, and proves that it has the key. -/
structure Accept (τ : Type) where
  initiatorId : UInt16
  responderId : UInt16
  clientNonce : UInt64
  serverNonce : UInt64
  sessionId : UInt64
  epoch : UInt64
  authenticator : τ
deriving DecidableEq, Repr, Inhabited

/-- `Finish`: the initiator proves it in turn. -/
structure Finish (τ : Type) where
  initiatorId : UInt16
  responderId : UInt16
  sessionId : UInt64
  epoch : UInt64
  authenticator : τ
deriving DecidableEq, Repr, Inhabited

/-- `valid_ids`. -/
def validIds (a b : UInt16) : Bool := a ≠ 0 && b ≠ 0 && a ≠ b

/-- The fields of a `Hello`, written into an array. -/
def putHello (out : List UInt8) (v : Hello) : List UInt8 :=
  let out := put16 out 0 v.initiatorId
  let out := put16 out 2 v.responderId
  let out := put64 out 4 v.clientNonce
  put32 out 12 v.capabilities

/-- `encode_hello`: the array, if the call returns true. -/
def encodeHello (v : Hello) : Option (List UInt8) :=
  if !validIds v.initiatorId v.responderId ∨ v.clientNonce = 0 then none
  else
    let out := putHello (List.replicate kHelloBytes 0) v
    if crc16Ccitt (.data (out.take 16)) ≠ 0 then some out else none

/-- `decode_hello`. -/
def decodeHello (bytes : Span UInt8) : Option Hello :=
  if bytes.isNull ∨ bytes.length ≠ kHelloBytes ∨
      get16 bytes.elems 16 ≠ crc16Ccitt (.data (bytes.elems.take 16)) then none
  else
    let v : Hello := ⟨get16 bytes.elems 0, get16 bytes.elems 2, get64 bytes.elems 4,
      get32 bytes.elems 12⟩
    if validIds v.initiatorId v.responderId ∧ v.clientNonce ≠ 0 then some v else none

/-! ### No `Hello` crosses the wire -/

/-- The bytes where the CRC belongs are not written. -/
theorem get16_putHello (v : Hello) : get16 (putHello (List.replicate kHelloBytes 0) v) 16 = 0 := by
  unfold get16 putHello put16 put64 put32
  dsimp only
  rw [getLE_putLE_of_disjoint (by omega), getLE_putLE_of_disjoint (by omega),
    getLE_putLE_of_disjoint (by omega), getLE_putLE_of_disjoint (by omega),
    getLE_replicate_zero]
  rfl

/-- **What `encode_hello` writes, `decode_hello` refuses.** -/
theorem decodeHello_of_encodeHello {v : Hello} {out : List UInt8} (h : encodeHello v = some out) :
    decodeHello (.data out) = none := by
  unfold encodeHello at h
  split_ifs at h with hv
  by_cases hc : crc16Ccitt (.data ((putHello (List.replicate kHelloBytes 0) v).take 16)) = 0
  · simp [hc] at h
  · simp only [ne_eq, hc, not_false_eq_true, if_true, Option.some.injEq] at h
    subst h
    unfold decodeHello
    rw [if_pos]
    refine Or.inr (Or.inr ?_)
    rw [Span.elems_data, get16_putHello]
    exact fun he => hc he.symm

/-- **No `Hello` crosses the wire**: none is decoded from its own encoding. -/
theorem hello_never_decoded (v : Hello) :
    ¬ ∃ out, encodeHello v = some out ∧ decodeHello (.data out) = some v := by
  rintro ⟨out, he, hd⟩
  rw [decodeHello_of_encodeHello he] at hd
  cases hd

/-- The `Hello` of `session_test.cpp` is encoded, and refused. -/
theorem hello_of_session_test :
    let v : Hello := ⟨10, 20, 0x1122334455667788, 0⟩
    validIds v.initiatorId v.responderId = true ∧ v.clientNonce ≠ 0 ∧
      ∃ out, encodeHello v = some out ∧ decodeHello (.data out) = none := by
  intro v
  have hsome : (encodeHello v).isSome = true := by decide +kernel
  obtain ⟨out, hout⟩ := Option.isSome_iff_exists.mp hsome
  exact ⟨by decide, by decide, out, hout, decodeHello_of_encodeHello hout⟩

end NewMavlink.Handshake.Messages
