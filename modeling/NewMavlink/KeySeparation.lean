import NewMavlink.Crypto

/-! # Key separation

The thirty-two bytes that the key derivation of `crypto.cpp` hands to `crypto_auth`: the label in a
field of eight bytes, the session, the two ids, and the number of the block.

* `deriveOne_eq`: what one derivation asks of the primitive.
* `deriveInput_inj`: the bytes determine the label, the session and the ids.
* `key_separation`: so no key of one context is a key of another, as far as the primitive tells its
  inputs apart. -/

namespace NewMavlink.KeySeparation

open NewMavlink.Lib.Buffer NewMavlink.Wire NewMavlink.Crypto

/-! ### The input of the primitive -/

/-- The bytes that one derivation authenticates. -/
def deriveInput (label : List UInt8) (session : SessionId) (firstId secondId : UInt16) :
    List UInt8 :=
  label ++ List.replicate (8 - label.length) 0 ++ leBytes 8 session.value.toNat ++
    leBytes 8 session.epoch.toNat ++ leBytes 2 firstId.toNat ++ leBytes 2 secondId.toNat ++
    leBytes 4 0

variable {κ : Type} {auth : Auth κ} {psk : Block}

theorem blit_replicate {n : ℕ} {src : List UInt8} (h : src.length ≤ n) :
    blit (List.replicate n 0) 0 src = src ++ List.replicate (n - src.length) 0 := by
  have hroom : src.length ≤ (List.replicate n (0 : UInt8)).length := by simpa using h
  rw [blit_zero hroom, List.drop_replicate]

/-- What `prf_block` asks of the primitive: the number of the block stands right behind the info. -/
theorem prfBlock_eq {info : List UInt8} (hl : info.length ≤ 96) (block : UInt32) :
    prfBlock auth psk (.data info) block = auth (info ++ leBytes 4 block.toNat) psk := by
  have hinfo : (blit (List.replicate 100 0) 0 info).take info.length = info :=
    take_blit_zero (by rw [List.length_replicate]; omega)
  have hblock := take_putLE_eq (v := block.toNat) (n := 4) rfl
    (by rw [length_blit, List.length_replicate]; omega) hinfo
  unfold prfBlock
  rw [if_neg (by simpa using hl)]
  dsimp only
  rw [Span.length_data, Span.elems_data, put32, hblock]

/-- **What one derivation asks of the primitive.** -/
theorem deriveOne_eq {label : List UInt8} (hl : label.length ≤ 8) (session : SessionId)
    (firstId secondId : UInt16) : deriveOne auth psk label session firstId secondId =
      auth (deriveInput label session firstId secondId) psk := by
  have hlabel : (blit (List.replicate 32 0) 0 label).take 8 =
      label ++ List.replicate (8 - label.length) 0 := by
    rw [blit_replicate (by omega), List.take_append, List.take_of_length_le hl,
      List.take_replicate, Nat.min_eq_left (by omega)]
  have hinfo : (put16 (put16 (put64 (put64 (blit (List.replicate 32 0) 0 label) 8 session.value) 16
      session.epoch) 24 firstId) 26 secondId).take 28 =
        label ++ List.replicate (8 - label.length) 0 ++ leBytes 8 session.value.toNat ++
          leBytes 8 session.epoch.toNat ++ leBytes 2 firstId.toNat ++ leBytes 2 secondId.toNat := by
    simp only [put16, put64]
    iterate 4
      refine take_putLE_eq (by norm_num) (by simp) ?_
    exact hlabel
  unfold deriveOne
  rw [if_neg (by omega)]
  dsimp only
  rw [prfBlock_eq (by simp), hinfo]
  rfl

/-- The session and the ids, as the bytes give them. -/
def readContext (p : List UInt8) : SessionId × UInt16 × UInt16 :=
  (⟨get64 p 8, get64 p 16⟩, get16 p 24, get16 p 26)

theorem readContext_deriveInput {label : List UInt8} (hl : label.length ≤ 8) (session : SessionId)
    (firstId secondId : UInt16) :
    readContext (deriveInput label session firstId secondId) = (session, firstId, secondId) := by
  have hpre : (label ++ List.replicate (8 - label.length) (0 : UInt8)).length = 8 := by
    rw [List.length_append, List.length_replicate]
    omega
  unfold readContext deriveInput
  generalize label ++ List.replicate (8 - label.length) (0 : UInt8) = pre at hpre ⊢
  simp [get16, get64, getLE_leBytes_append, getLE_append_of_le, hpre]

/-- **The bytes determine the label, the session and the ids**, for labels of one length. -/
theorem deriveInput_inj {label label' : List UInt8} (hl : label.length ≤ 8)
    (hlen : label.length = label'.length) {session session' : SessionId} {a b a' b' : UInt16}
    (h : deriveInput label session a b = deriveInput label' session' a' b') :
    label = label' ∧ session = session' ∧ a = a' ∧ b = b' := by
  have hread := congrArg readContext h
  rw [readContext_deriveInput hl, readContext_deriveInput (hlen ▸ hl), Prod.mk.injEq,
    Prod.mk.injEq] at hread
  simp only [deriveInput, List.append_assoc] at h
  exact ⟨(List.append_inj h hlen).1, hread⟩

/-! ### Keys and their contexts -/

/-- The two directions of one derivation. -/
inductive Direction where
  | fromFirst
  | fromSecond
deriving DecidableEq

/-- The label of a direction. -/
def Direction.label : Direction → List UInt8
  | fromFirst => txLabel
  | fromSecond => rxLabel

/-- The key of a direction, from the keys of the first side. -/
def Direction.key (first : DirectionalKeys κ) : Direction → κ
  | fromFirst => first.tx
  | fromSecond => first.rx

@[simp] theorem Direction.length_label (d : Direction) : d.label.length = 5 := by cases d <;> rfl

theorem Direction.label_inj {d d' : Direction} (h : d.label = d'.label) : d = d' := by
  cases d <;> cases d' <;> first | rfl | exact absurd h (by decide)

/-- The primitive tells apart the inputs that are built here. -/
def Separates (auth : Auth κ) (psk : Block) : Prop :=
  ∀ (d d' : Direction) (s s' : SessionId) (a b a' b' : UInt16) (k : κ),
    auth (deriveInput d.label s a b) psk = some k →
    auth (deriveInput d'.label s' a' b') psk = some k →
    deriveInput d.label s a b = deriveInput d'.label s' a' b'

variable {session session' : SessionId} {a b a' b' : UInt16}
  {first second first' second' : DirectionalKeys κ}

theorem auth_of_derive (h : deriveDirectionalKeys auth psk session a b = some (first, second))
    (d : Direction) : auth (deriveInput d.label session a b) psk = some (d.key first) := by
  unfold deriveDirectionalKeys at h
  split_ifs at h with hv
  rw [deriveOne_eq (by decide), deriveOne_eq (by decide)] at h
  split at h
  · next ktx krx htx hrx =>
    simp only [Option.some.injEq, Prod.mk.injEq] at h
    obtain ⟨rfl, rfl⟩ := h
    cases d with
    | fromFirst => exact htx
    | fromSecond => exact hrx
  · cases h

theorem context_of_key_eq (hsep : Separates auth psk)
    (h : deriveDirectionalKeys auth psk session a b = some (first, second))
    (h' : deriveDirectionalKeys auth psk session' a' b' = some (first', second'))
    {d d' : Direction} (hkey : d.key first = d'.key first') :
    d = d' ∧ session = session' ∧ a = a' ∧ b = b' := by
  have hk := auth_of_derive h d
  have hk' := auth_of_derive h' d'
  rw [← hkey] at hk'
  have hinput := hsep _ _ _ _ _ _ _ _ _ hk hk'
  obtain ⟨hlabel, hrest⟩ := deriveInput_inj (by simp) (by simp) hinput
  exact ⟨Direction.label_inj hlabel, hrest⟩

theorem ids_ne_of_derive
    (h : deriveDirectionalKeys auth psk session a b = some (first, second)) : a ≠ b := by
  unfold deriveDirectionalKeys at h
  split_ifs at h with hv
  push Not at hv
  exact hv.2.2.2.2

theorem mem_keys (h : deriveDirectionalKeys auth psk session a b = some (first, second)) {k : κ} :
    k ∈ [first.tx, first.rx, second.tx, second.rx] ↔ ∃ d : Direction, k = d.key first := by
  obtain ⟨rfl, -⟩ := deriveDirectionalKeys_eq_some h
  constructor
  · intro hk
    simp only [List.mem_cons, List.not_mem_nil, or_false, DirectionalKeys.mirror] at hk
    rcases hk with rfl | rfl | rfl | rfl
    · exact ⟨.fromFirst, rfl⟩
    · exact ⟨.fromSecond, rfl⟩
    · exact ⟨.fromSecond, rfl⟩
    · exact ⟨.fromFirst, rfl⟩
  · rintro ⟨d, rfl⟩
    cases d <;> simp [Direction.key]

/-- **Key separation.** Under a primitive that tells its inputs apart, keys of different sessions,
epochs, ids (in this order) or directions are different; the two sides of one derivation mirror each
other, with a key of its own for each direction; and no key of one context is a key of the context
with the ids swapped, or of another epoch or session. -/
theorem key_separation (hsep : Separates auth psk)
    (h : deriveDirectionalKeys auth psk session a b = some (first, second)) :
    (∀ (session' : SessionId) (a' b' : UInt16) (first' second' : DirectionalKeys κ)
        (d d' : Direction),
      deriveDirectionalKeys auth psk session' a' b' = some (first', second') →
      (session.value, session.epoch, a, b, d) ≠ (session'.value, session'.epoch, a', b', d') →
      d.key first ≠ d'.key first') ∧
    (first.session = second.session ∧ first.localId = second.peerId ∧
      first.peerId = second.localId ∧ first.tx = second.rx ∧ first.rx = second.tx ∧
      first.tx ≠ first.rx ∧ second.tx ≠ second.rx) ∧
    ∀ (session' : SessionId) (a' b' : UInt16) (first' second' : DirectionalKeys κ),
      deriveDirectionalKeys auth psk session' a' b' = some (first', second') →
      (a' = b ∧ b' = a ∨ session'.epoch ≠ session.epoch ∨ session'.value ≠ session.value) →
      ∀ k ∈ [first.tx, first.rx, second.tx, second.rx],
        k ∉ [first'.tx, first'.rx, second'.tx, second'.rx] := by
  have hdirections : first.tx ≠ first.rx := by
    intro hk
    have hkeys : Direction.fromFirst.key first = Direction.fromSecond.key first := hk
    have hsame : Direction.fromFirst = .fromSecond := (context_of_key_eq hsep h h hkeys).1
    cases hsame
  refine ⟨fun session' a' b' first' second' d d' h' hne hkey => ?_, ?_,
    fun session' a' b' first' second' h' hother k hk hk' => ?_⟩
  · obtain ⟨rfl, rfl, rfl, rfl⟩ := context_of_key_eq hsep h h' hkey
    exact hne rfl
  · obtain ⟨rfl, -⟩ := deriveDirectionalKeys_eq_some h
    exact ⟨rfl, rfl, rfl, rfl, rfl, hdirections, hdirections.symm⟩
  · obtain ⟨d, rfl⟩ := (mem_keys h).mp hk
    obtain ⟨d', hkey⟩ := (mem_keys h').mp hk'
    obtain ⟨-, rfl, rfl, rfl⟩ := context_of_key_eq hsep h h' hkey
    rcases hother with ⟨hab, -⟩ | he | hv
    · exact ids_ne_of_derive h hab
    · exact he rfl
    · exact hv rfl

/-- A primitive that returns its input tells its inputs apart: the keys of one session between 1 and
2 are none of those between 2 and 1. -/
theorem key_separation_test :
    ∃ first second first' second' : DirectionalKeys (List UInt8),
      deriveDirectionalKeys (fun input _ => some input) default ⟨77, 3⟩ 1 2 =
        some (first, second) ∧
      deriveDirectionalKeys (fun input _ => some input) default ⟨77, 3⟩ 2 1 =
        some (first', second') ∧
      first.tx ≠ first.rx ∧ first.tx ≠ first'.tx ∧ first.tx ≠ first'.rx := by
  have hsep : Separates (fun input _ => some input) default := by
    intro d d' s s' a b a' b' k hk hk'
    exact (Option.some.inj hk).trans (Option.some.inj hk').symm
  have h : deriveDirectionalKeys (fun input _ => some input) default ⟨77, 3⟩ 1 2 = _ := rfl
  have h' : deriveDirectionalKeys (fun input _ => some input) default ⟨77, 3⟩ 2 1 = _ := rfl
  obtain ⟨hkeys, ⟨-, -, -, -, -, hne, -⟩, -⟩ := key_separation hsep h
  exact ⟨_, _, _, _, h, h', hne,
    hkeys _ _ _ _ _ .fromFirst .fromFirst h' (by decide),
    hkeys _ _ _ _ _ .fromFirst .fromSecond h' (by decide)⟩

end NewMavlink.KeySeparation
