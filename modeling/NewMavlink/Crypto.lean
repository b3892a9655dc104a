import NewMavlink.Wire

/-! # Keys, nonces and the AEAD

`crypto.cpp`. The two primitives of the vendored library are parameters: the AEAD of
`crypto_aead.h` (`Aead`) and the keyed function of `crypto_auth.h` (`Auth`); `none` is a nonzero
return code. Nothing is assumed of them but where a statement says so.

* `aeadSeal_eq_some`, `aeadOpen_eq_some`: what a success of the wrappers says about the lengths and
  the primitive.
* `aeadOpen_of_aeadSeal`: they undo each other if the primitives do.
* `makeNonce_inj`: a nonce determines the session value and epoch XOR sequence, and no more.
* `deriveDirectionalKeys_eq_some`: the two key sets of one derivation mirror each other. -/

namespace NewMavlink.Crypto

open NewMavlink.Lib.Buffer NewMavlink.Wire

/-- `crypto_aead_encrypt` and `crypto_aead_decrypt`. -/
structure Aead where
  encrypt (plaintext aad : List UInt8) (nonce key : Block) : Option (List UInt8)
  decrypt (ciphertext aad : List UInt8) (nonce key : Block) : Option (List UInt8)

/-- `crypto_auth`, with outputs in `κ`. -/
abbrev Auth (κ : Type) : Type := List UInt8 → Block → Option κ

/-! ### Key derivation -/

section Derivation

variable {κ : Type} (auth : Auth κ) (psk : Block)

/-- `prf_block`. -/
def prfBlock (info : Span UInt8) (block : UInt32) : Option κ :=
  if info.isNull ∨ info.length > 96 then none
  else
    let input := put32 (blit (List.replicate 100 0) 0 info.elems) info.length block
    auth (input.take (info.length + 4)) psk

/-- `derive_one`. -/
def deriveOne (label : List UInt8) (session : SessionId) (firstId secondId : UInt16) : Option κ :=
  if label.length > 8 then none
  else
    let info := blit (List.replicate 32 0) 0 label
    let info := put64 info 8 session.value
    let info := put64 info 16 session.epoch
    let info := put16 info 24 firstId
    let info := put16 info 26 secondId
    prfBlock auth psk (.data (info.take 28)) 0

/-- `tx_label`: `NM-TX`. -/
def txLabel : List UInt8 := [0x4E, 0x4D, 0x2D, 0x54, 0x58]

/-- `rx_label`: `NM-RX`. -/
def rxLabel : List UInt8 := [0x4E, 0x4D, 0x2D, 0x52, 0x58]

/-- `derive_directional_keys`: the keys of the first side and of the second. -/
def deriveDirectionalKeys (session : SessionId) (firstId secondId : UInt16) :
    Option (DirectionalKeys κ × DirectionalKeys κ) :=
  if session.value = 0 ∨ session.epoch = 0 ∨ firstId = 0 ∨ secondId = 0 ∨ firstId = secondId then
    none
  else
    match deriveOne auth psk txLabel session firstId secondId,
      deriveOne auth psk rxLabel session firstId secondId with
    | some firstTx, some secondTx =>
      some (⟨session, firstId, secondId, firstTx, secondTx⟩,
        ⟨session, secondId, firstId, secondTx, firstTx⟩)
    | _, _ => none

variable {auth psk}

/-- **One derivation gives two sides that mirror each other**, for a valid session and ids. -/
theorem deriveDirectionalKeys_eq_some {session : SessionId} {firstId secondId : UInt16}
    {first second : DirectionalKeys κ}
    (h : deriveDirectionalKeys auth psk session firstId secondId = some (first, second)) :
    second = first.mirror ∧ first.session = session ∧ first.localId = firstId ∧
      first.peerId = secondId ∧ session.value ≠ 0 ∧ session.epoch ≠ 0 := by
  unfold deriveDirectionalKeys at h
  split_ifs at h with hv
  split at h
  · simp only [Option.some.injEq, Prod.mk.injEq] at h
    obtain ⟨rfl, rfl⟩ := h
    push Not at hv
    exact ⟨rfl, rfl, rfl, rfl, hv.1, hv.2.1⟩
  · cases h

end Derivation

/-! ### The AEAD wrappers

The output pointers of the source are never null where it calls these; `capacity` is the room
behind the output pointer. -/

/-- `aead_seal`. -/
def aeadSeal (P : Aead) (key nonce : Block) (aad plaintext : Span UInt8) (capacity : ℕ) :
    Option (List UInt8) :=
  if capacity < plaintext.length + kTagBytes ∨ (aad.isNull ∧ aad.length ≠ 0) ∨
      (plaintext.isNull ∧ plaintext.length ≠ 0) ∨ plaintext.length > kMaxPayloadBytes then none
  else
    match P.encrypt plaintext.elems aad.elems nonce key with
    | none => none
    | some out => if out.length ≠ plaintext.length + kTagBytes then none else some out

/-- `aead_open`. -/
def aeadOpen (P : Aead) (key nonce : Block) (aad ciphertext : Span UInt8) (capacity : ℕ) :
    Option (List UInt8) :=
  if ciphertext.isNull ∨ ciphertext.length < kTagBytes ∨ capacity < ciphertext.length - kTagBytes ∨
      ciphertext.length > kMaxPayloadBytes + kTagBytes ∨ (aad.isNull ∧ aad.length ≠ 0) then none
  else
    match P.decrypt ciphertext.elems aad.elems nonce key with
    | none => none
    | some out => if out.length ≠ ciphertext.length - kTagBytes then none else some out

variable {P : Aead} {key nonce : Block} {aad plaintext ciphertext : Span UInt8} {capacity : ℕ}
  {out : List UInt8}

theorem aeadSeal_eq_some : aeadSeal P key nonce aad plaintext capacity = some out ↔
    plaintext.length + kTagBytes ≤ capacity ∧ ¬ (aad.isNull ∧ aad.length ≠ 0) ∧
      ¬ (plaintext.isNull ∧ plaintext.length ≠ 0) ∧ plaintext.length ≤ kMaxPayloadBytes ∧
      P.encrypt plaintext.elems aad.elems nonce key = some out ∧
      out.length = plaintext.length + kTagBytes := by
  unfold aeadSeal
  split_ifs with hc
  · simp only [false_iff]
    rintro ⟨h1, h2, h3, h4, -⟩
    rcases hc with h | h | h | h
    · omega
    · exact h2 h
    · exact h3 h
    · omega
  · simp only [not_or, not_lt, gt_iff_lt] at hc
    obtain ⟨h1, h2, h3, h4⟩ := hc
    cases P.encrypt plaintext.elems aad.elems nonce key with
    | none => simp
    | some c =>
      by_cases hl : c.length = plaintext.length + kTagBytes
      · simp only [hl, ne_eq, not_true_eq_false, if_false, Option.some.injEq]
        exact ⟨fun h => ⟨h1, h2, h3, h4, h, h ▸ hl⟩, fun h => h.2.2.2.2.1⟩
      · simp only [hl, ne_eq, not_false_eq_true, if_true, reduceCtorEq, false_iff]
        rintro ⟨-, -, -, -, h, h'⟩
        exact hl (Option.some.inj h ▸ h')

theorem aeadOpen_eq_some : aeadOpen P key nonce aad ciphertext capacity = some out ↔
    ciphertext.isNull = false ∧ kTagBytes ≤ ciphertext.length ∧
      ciphertext.length - kTagBytes ≤ capacity ∧
      ciphertext.length ≤ kMaxPayloadBytes + kTagBytes ∧ ¬ (aad.isNull ∧ aad.length ≠ 0) ∧
      P.decrypt ciphertext.elems aad.elems nonce key = some out ∧
      out.length = ciphertext.length - kTagBytes := by
  unfold aeadOpen
  split_ifs with hc
  · simp only [false_iff]
    rintro ⟨h1, h2, h3, h4, h5, -⟩
    rcases hc with h | h | h | h | h
    · exact absurd (h1.symm.trans h) (by decide)
    · omega
    · omega
    · omega
    · exact h5 h
  · simp only [not_or, not_lt, gt_iff_lt, Bool.not_eq_true] at hc
    obtain ⟨h1, h2, h3, h4, h5⟩ := hc
    cases P.decrypt ciphertext.elems aad.elems nonce key with
    | none => simp
    | some p =>
      by_cases hl : p.length = ciphertext.length - kTagBytes
      · simp only [hl, ne_eq, not_true_eq_false, if_false, Option.some.injEq]
        exact ⟨fun h => ⟨h1, h2, h3, h4, by simpa using h5, h, h ▸ hl⟩, fun h => h.2.2.2.2.2.1⟩
      · simp only [hl, ne_eq, not_false_eq_true, if_true, reduceCtorEq, false_iff]
        rintro ⟨-, -, -, -, -, h, h'⟩
        exact hl (Option.some.inj h ▸ h')

/-- Decryption undoes encryption. -/
def Aead.Correct (P : Aead) : Prop :=
  ∀ p aad nonce key c, P.encrypt p aad nonce key = some c → P.decrypt c aad nonce key = some p

/-- **What a correct AEAD seals, it opens.** -/
theorem aeadOpen_of_aeadSeal (hP : P.Correct)
    (h : aeadSeal P key nonce aad plaintext capacity = some out) {room : ℕ}
    (hroom : plaintext.length ≤ room) :
    aeadOpen P key nonce aad (.data out) room = some plaintext.elems := by
  obtain ⟨-, ha, hp, hl, he, hlen⟩ := aeadSeal_eq_some.mp h
  refine aeadOpen_eq_some.mpr ⟨rfl, ?_, ?_, ?_, ha, hP _ _ _ _ _ he, ?_⟩
  · rw [Span.length_data]; omega
  · rw [Span.length_data]; omega
  · rw [Span.length_data]; omega
  · rw [Span.length_elems hp, Span.length_data]; omega

/-- An AEAD that hides nothing and appends a tag of zeros. -/
def paddingAead : Aead where
  encrypt p _ _ _ := some (p ++ List.replicate kTagBytes 0)
  decrypt c _ _ _ := some (c.take (c.length - kTagBytes))

theorem correct_paddingAead : paddingAead.Correct := by
  intro p aad nonce key c h
  obtain rfl := Option.some.inj h
  simp [paddingAead]

theorem aeadSeal_paddingAead (ha : aad.isNull = false) (hp : plaintext.isNull = false)
    (hl : plaintext.length ≤ kMaxPayloadBytes) (hc : plaintext.length + kTagBytes ≤ capacity) :
    aeadSeal paddingAead key nonce aad plaintext capacity =
      some (plaintext.elems ++ List.replicate kTagBytes 0) := by
  refine aeadSeal_eq_some.mpr ⟨hc, by simp [ha], by simp [hp], hl, rfl, ?_⟩
  rw [List.length_append, List.length_replicate, Span.length_elems (by simp [hp])]

/-! ### Nonces -/

/-- `make_nonce`: the session value, then epoch XOR sequence. -/
def makeNonce (session : SessionId) (sequence : UInt64) : Block :=
  ⟨put64 (put64 (List.replicate 16 0) 0 session.value) 8 (session.epoch ^^^ sequence), by simp⟩

theorem toList_makeNonce (s : SessionId) (q : UInt64) : (makeNonce s q).toList =
    put64 (put64 (List.replicate 16 0) 0 s.value) 8 (s.epoch ^^^ q) := by
  rw [makeNonce, List.Vector.toList_mk]

/-- **A nonce determines the session value and epoch XOR sequence, and no more.** -/
theorem makeNonce_inj {s t : SessionId} {q r : UInt64} :
    makeNonce s q = makeNonce t r ↔ s.value = t.value ∧ s.epoch ^^^ q = t.epoch ^^^ r := by
  have hread : ∀ (s : SessionId) (q : UInt64), get64 (makeNonce s q).toList 0 = s.value ∧
      get64 (makeNonce s q).toList 8 = s.epoch ^^^ q := by
    intro s q
    rw [toList_makeNonce]
    constructor
    · rw [get64, put64, getLE_putLE_of_disjoint (by omega), ← get64, get64_put64 (by simp)]
    · rw [get64_put64 (by simp)]
  constructor
  · intro h
    obtain ⟨h1, h2⟩ := hread s q
    obtain ⟨h3, h4⟩ := hread t r
    rw [h] at h1 h2
    exact ⟨h1.symm.trans h3, h2.symm.trans h4⟩
  · rintro ⟨h1, h2⟩
    exact Subtype.ext (by simp only [makeNonce, h1, h2])

end NewMavlink.Crypto
