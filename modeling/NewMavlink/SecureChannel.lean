import NewMavlink.Handshake.Agreement
import NewMavlink.KeySeparation
import NewMavlink.Parties

/-! # From the handshake to the records

Any number of initiators and responders with one psk shake hands over a network that hands anybody
anything. From the keys of an established one a `Session` is constructed, once, which seals and
opens records over the same network. `make_auth` and the AEAD are ideal, and `crypto_auth` tells
apart the inputs of the key derivation; no session is rekeyed.

* `counterpart_of_key`: who seals under the key that another opens with has the other role and the
  mirrored keys.
* `inv_step`: what an established one has stays; what is delivered, a counterpart has sealed.
* `secure_channel`: so what a session delivers was sealed, header and payload, by the session of
  somebody established, of the other role, with the mirrored keys. -/

namespace NewMavlink.SecureChannel

open NewMavlink.Lib.Buffer NewMavlink.Lib.Runs NewMavlink.Wire NewMavlink.Crypto
open NewMavlink.KeySeparation NewMavlink.Record.Header NewMavlink.Record.SealOpen
open NewMavlink.Record.RoundTrip NewMavlink.Record.SendLog NewMavlink.Record.OpenCommit
open NewMavlink.Transport NewMavlink.Channel
open NewMavlink.Endpoints.Hops NewMavlink.Parties
open NewMavlink.Handshake.Sessions NewMavlink.Handshake.Agreement

variable {ι ρ τ : Type}

/-- The handshakes, and the sessions that were constructed from their keys. -/
structure System (ι ρ τ : Type) where
  net : Net ι ρ Block τ
  parties : ι ⊕ ρ → Option Party := fun _ => none

/-- Fresh handshakes, and no session yet. -/
def start [Inhabited τ] (psk : Block) (initiatorIds : ι → UInt16 × UInt16)
    (responderIds : ρ → UInt16 × UInt16) : System ι ρ τ where
  net := Handshake.Agreement.start psk initiatorIds responderIds

/-- `InitiatorSession::keys` and `ResponderSession::keys`. -/
def keysOf (n : Net ι ρ Block τ) : ι ⊕ ρ → DirectionalKeys Block
  | .inl i => (n.initiators i).keys
  | .inr j => (n.responders j).keys

/-- `InitiatorSession::established` and `ResponderSession::established`. -/
def established (n : Net ι ρ Block τ) : ι ⊕ ρ → Bool
  | .inl i => (n.initiators i).established
  | .inr j => (n.responders j).established

/-- What can happen: a handshake goes on, a session is constructed, or one is used. -/
inductive Op (ι ρ τ : Type) where
  /-- A call in a handshake. -/
  | handshake (op : NetOp ι ρ τ)
  /-- A `Session` is constructed from the keys. -/
  | construct (a : ι ⊕ ρ)
  /-- A call on that session. -/
  | record (a : ι ⊕ ρ) (op : PartyOp)

section Step
variable [DecidableEq ι] [DecidableEq ρ] [DecidableEq τ] [Inhabited τ]

/-- The system after a step. -/
def step (A : Primitives Block τ) (P : Aead) (x : System ι ρ τ) : Op ι ρ τ → System ι ρ τ
  | .handshake op => { x with net := netStep A x.net op }
  | .construct a =>
    { x with
      parties := Function.update x.parties a (some { session := { keys := keysOf x.net a } }) }
  | .record a op =>
    { x with parties := Function.update x.parties a ((x.parties a).map (partyStep P · op)) }

end Step

/-- What a session opens, some session has sealed. -/
def IdealAead (P : Aead) (x : System ι ρ τ) (a : ι ⊕ ρ) (datagram : Option (List UInt8)) : Prop :=
  ∀ p ∈ x.parties a, ∀ bytes plaintext, udpReceive datagram = some bytes →
    openPlaintext P p.session bytes (readHeader bytes) = some plaintext →
    ∃ b, ∃ q ∈ x.parties b, Produced q.sealed p.session.keys.rx
      (makeNonce p.session.keys.session (readHeader bytes).sequence)
      (bytes.take kHeaderBytes) (bytes.drop kHeaderBytes) plaintext

/-- What the keys of `a` are derived from: the session, and the ids with the initiator's first. -/
def contextOf : ι ⊕ ρ → DirectionalKeys Block → SessionId × UInt16 × UInt16
  | .inl _, k => (k.session, k.localId, k.peerId)
  | .inr _, k => (k.session, k.peerId, k.localId)

/-- `make_auth` and the AEAD are ideal; a session is constructed once, from keys that are
established and were derived from one of the contexts `C`, and is not rekeyed. -/
def Sound (A : Primitives Block τ) (P : Aead) (C : Set (SessionId × UInt16 × UInt16))
    (x : System ι ρ τ) : Op ι ρ τ → Prop
  | .handshake op => Handshake.Agreement.Unforged A x.net op
  | .construct a => established x.net a = true ∧ x.parties a = none ∧
      contextOf a (keysOf x.net a) ∈ C
  | .record a (.receive datagram _) => IdealAead P x a datagram
  | .record _ (.send op) => ∀ nextKeys, op ≠ .rekey nextKeys

/-- `crypto_auth` tells apart what keys are derived from in the contexts `C`. -/
def SeparatesOn (auth : Auth Block) (psk : Block) (C : Set (SessionId × UInt16 × UInt16)) : Prop :=
  ∀ d d' s u v s' u' v' key, (s, u, v) ∈ C → (s', u', v') ∈ C →
    auth (deriveInput (Direction.label d) s u v) psk = some key →
    auth (deriveInput (Direction.label d') s' u' v') psk = some key →
    deriveInput d.label s u v = deriveInput d'.label s' u' v'

variable {A : Primitives Block τ} {P : Aead} {psk : Block} {n : Net ι ρ Block τ} {a b : ι ⊕ ρ}
  {k k' : DirectionalKeys Block} {p q : Party} {C : Set (SessionId × UInt16 × UInt16)}

/-! ### The keys of an established handshake -/

/-- Keys that were derived: an initiator has the first side of a derivation, and a responder the
second. -/
def Derived (A : Primitives Block τ) (psk : Block) : ι ⊕ ρ → DirectionalKeys Block → Prop
  | .inl _, k => deriveDirectionalKeys A.auth psk k.session k.localId k.peerId = some (k, k.mirror)
  | .inr _, k => deriveDirectionalKeys A.auth psk k.session k.peerId k.localId = some (k.mirror, k)

theorem derived_of_established (h : Handshake.Agreement.Inv A psk n) (ha : established n a = true) :
    Derived A psk a (keysOf n a) := by
  cases a with
  | inl i =>
    have hd := (h.initiators i ha).keys
    obtain ⟨-, -, hlocal, hpeer, -⟩ := deriveDirectionalKeys_eq_some hd
    rw [Derived, keysOf, hlocal, hpeer]
    exact hd
  | inr j =>
    have hd := h.accepted j (h.completed j ha).1
    rw [ResponderKeys] at hd
    obtain ⟨-, hsession, hlocal, hpeer, -⟩ := deriveDirectionalKeys_eq_some hd
    rw [← hsession, ← hlocal, ← hpeer] at hd
    exact hd

/-- `b` is of the other role than `a`, and its keys `k'` mirror the keys `k` of `a`. -/
def Counterpart (a b : ι ⊕ ρ) (k k' : DirectionalKeys Block) : Prop :=
  a.isLeft ≠ b.isLeft ∧ k' = k.mirror

theorem context_of_key {auth : Auth Block} {s s' : SessionId} {u v u' v' : UInt16}
    {first second first' second' : DirectionalKeys Block} {d d' : Direction}
    (hsep : SeparatesOn auth psk C) (hc : (s, u, v) ∈ C) (hc' : (s', u', v') ∈ C)
    (h : deriveDirectionalKeys auth psk s u v = some (first, second))
    (h' : deriveDirectionalKeys auth psk s' u' v' = some (first', second'))
    (hkey : d.key first = d'.key first') : d = d' ∧ first = first' := by
  have hauth' := auth_of_derive h' d'
  rw [← hkey] at hauth'
  have hinput := hsep d d' s u v s' u' v' _ hc hc' (auth_of_derive h d) hauth'
  obtain ⟨hlabel, rfl, rfl, rfl⟩ := deriveInput_inj (by simp) (by simp) hinput
  exact ⟨Direction.label_inj hlabel, (Prod.mk.inj (Option.some.inj (h.symm.trans h'))).1⟩

/-- **Who seals under the key that another opens with** is its counterpart. -/
theorem counterpart_of_key (hsep : SeparatesOn A.auth psk C) (ha : Derived A psk a k)
    (hb : Derived A psk b k') (hca : contextOf a k ∈ C) (hcb : contextOf b k' ∈ C)
    (hkey : k'.tx = k.rx) : Counterpart a b k k' := by
  cases a with
  | inl i =>
    cases b with
    | inl i' =>
      have hkey : Direction.fromFirst.key k' = Direction.fromSecond.key k := hkey
      cases (context_of_key hsep hcb hca hb ha hkey).1
    | inr j =>
      have hkey : Direction.fromSecond.key k'.mirror = Direction.fromSecond.key k := hkey
      obtain ⟨-, hsame⟩ := context_of_key hsep hcb hca hb ha hkey
      exact ⟨by simp, by rw [← hsame, DirectionalKeys.mirror_mirror]⟩
  | inr j =>
    cases b with
    | inl i =>
      have hkey : Direction.fromFirst.key k' = Direction.fromFirst.key k.mirror := hkey
      exact ⟨by simp, (context_of_key hsep hcb hca hb ha hkey).2⟩
    | inr j' =>
      have hkey : Direction.fromSecond.key k'.mirror = Direction.fromFirst.key k.mirror := hkey
      cases (context_of_key hsep hcb hca hb ha hkey).1

section Established
variable [DecidableEq ι] [DecidableEq ρ] [DecidableEq τ] [Inhabited τ]

theorem initiator_netStep (h : Handshake.Agreement.Inv A psk n) (op : NetOp ι ρ τ) {i : ι}
    (hi : (n.initiators i).established = true) :
    (netStep A n op).initiators i = n.initiators i := by
  have hupdate : ∀ {i' : ι} {s : InitiatorSession Block},
      (i' = i → s = n.initiators i) → Function.update n.initiators i' s i = n.initiators i := by
    intro i' s hs
    rcases eq_or_ne i i' with rfl | hne
    · rw [Function.update_self, hs rfl]
    · exact Function.update_of_ne hne ..
  cases op with
  | start i' clientNonce =>
    refine hupdate ?_
    rintro rfl
    rcases start_cases (n.initiators i') clientNonce with ⟨_, he⟩ | ⟨hs, _, he⟩
    · rw [he]
    · rw [(h.initiators i' hi).started] at hs
      cases hs
  | receiveHello j hello serverNonce =>
    rw [netStep]
    generalize (n.responders j).receiveHello A hello serverNonce = result
    rcases result with ⟨_ | _, _ | _, _⟩ <;> rfl
  | accept i' received =>
    have hlog : ∀ result, (logAccept n i' received result).initiators =
        Function.update n.initiators i' result.2 := by
      rintro ⟨_ | _, _⟩ <;> rfl
    rw [netStep, hlog]
    refine hupdate ?_
    rintro rfl
    rcases accept_cases A (n.initiators i') received with ⟨_, he⟩ | ⟨hold, -⟩ |
      ⟨_, _, _, ha, -⟩
    · rw [he]
    · rw [hi] at hold
      cases hold
    · have hold := ha.notEstablished
      rw [hi] at hold
      cases hold
  | finish j m => rfl

theorem responder_netStep (op : NetOp ι ρ τ) {j : ρ} (hj : (n.responders j).accepted = true)
    (hest : (n.responders j).established = true) :
    ((netStep A n op).responders j).established = true ∧
      ((netStep A n op).responders j).keys = (n.responders j).keys := by
  have hupdate : ∀ {j' : ρ} {s : ResponderSession Block τ},
      (j' = j → s.established = true ∧ s.keys = (n.responders j).keys) →
        (Function.update n.responders j' s j).established = true ∧
          (Function.update n.responders j' s j).keys = (n.responders j).keys := by
    intro j' s hs
    rcases eq_or_ne j j' with rfl | hne
    · rw [Function.update_self]
      exact hs rfl
    · rw [Function.update_of_ne hne]
      exact ⟨hest, rfl⟩
  cases op with
  | start i clientNonce => exact ⟨hest, rfl⟩
  | receiveHello j' hello serverNonce =>
    have hlog : ∀ result, (logHello n j' hello result).responders =
        Function.update n.responders j' result.2.2 := by
      rintro ⟨_ | _, _ | _, _⟩ <;> rfl
    rw [netStep, hlog]
    refine hupdate ?_
    rintro rfl
    rcases receiveHello_cases A (n.responders j') hello serverNonce with ⟨_, he⟩ |
      ⟨hold, -⟩ | ⟨_, _, hi, -⟩ | ⟨_, _, _, hi, -⟩
    · rw [he]
      exact ⟨hest, rfl⟩
    · rw [hj] at hold
      cases hold
    · have hold := hi.notAccepted
      rw [hj] at hold
      cases hold
    · have hold := hi.notAccepted
      rw [hj] at hold
      cases hold
  | accept i received =>
    rw [netStep]
    generalize (n.initiators i).accept A received = result
    rcases result with ⟨_ | _, _⟩ <;> exact ⟨hest, rfl⟩
  | finish j' m =>
    refine hupdate ?_
    rintro rfl
    rcases finish_cases A (n.responders j') m with ⟨_, he, -⟩ | ⟨-, he⟩
    · rw [he]
      exact ⟨hest, rfl⟩
    · rw [he]
      exact ⟨rfl, rfl⟩

/-- **What an established one has, stays.** -/
theorem established_netStep (h : Handshake.Agreement.Inv A psk n) (op : NetOp ι ρ τ)
    (ha : established n a = true) :
    established (netStep A n op) a = true ∧ keysOf (netStep A n op) a = keysOf n a := by
  cases a with
  | inl i =>
    have hsame := initiator_netStep h op ha
    exact ⟨(congrArg InitiatorSession.established hsame).trans ha,
      congrArg InitiatorSession.keys hsame⟩
  | inr j => exact responder_netStep op (h.completed j ha).1 ha

end Established

/-! ### One session -/

/-- **What holds of a session after every call**, if it is never rekeyed: it has the keys `k`, and
has sealed under their sending key. -/
structure Keyed (P : Aead) (k : DirectionalKeys Block) (p : Party) : Prop where
  keys : p.session.keys = k
  sealed : ∀ s ∈ p.sealed, s.key = k.tx
  party : PartyInv P k p

theorem keyed_start (P : Aead) (k : DirectionalKeys Block) :
    Keyed P k { session := { keys := k } } :=
  ⟨rfl, by simp, partyInv_start P k⟩

theorem keyed_send (h : Keyed P k p) {op : SendOp} (hop : ∀ nextKeys, op ≠ .rekey nextKeys) :
    Keyed P k (partyStep P p (.send op)) := by
  have hparty := partyInv_send h.party op
  cases op with
  | rekey nextKeys => exact absurd rfl (hop nextKeys)
  | «seal» input plaintext output =>
    have hsend : sendStep P (p.session, p.sealed) (.seal input plaintext output) =
        logSeal (p.session, p.sealed) input plaintext
          (p.session.seal P input plaintext output) := rfl
    unfold partyStep at hparty ⊢
    dsimp only at hparty ⊢
    rw [hsend] at hparty ⊢
    rcases seal_cases P p.session input plaintext output with ⟨error, he⟩ | ⟨cipher, -, -, he⟩
    · rw [he, logSeal]
      exact h
    · rw [he, logSeal] at hparty ⊢
      exact ⟨h.keys, forall_mem_log h.sealed (congrArg DirectionalKeys.tx h.keys), hparty⟩

theorem keyed_receive (h : Keyed P k p) (datagram : Option (List UInt8)) (nowMs : UInt32) :
    Keyed P k (partyStep P p (.receive datagram nowMs)) := by
  have hparty := partyInv_receive h.party datagram nowMs
  unfold partyStep at hparty ⊢
  dsimp only at hparty ⊢
  rcases receive_cases P ⟨p.session⟩ datagram nowMs with ⟨error, he⟩ | ⟨bytes, r, -, -, he⟩
  · rw [he, Party.deliver]
    exact h
  · rw [he, Party.deliver] at hparty ⊢
    exact ⟨h.keys, h.sealed, hparty⟩

/-! ### All sessions -/

/-- A counterpart of `a` has sealed the record. -/
def Authentic (x : System ι ρ τ) (a : ι ⊕ ρ) (r : OpenRecord) : Prop :=
  ∃ b, ∃ q ∈ x.parties b, Counterpart a b (keysOf x.net a) (keysOf x.net b) ∧
    ∃ s ∈ q.sealed, Delivers s r

/-- **What holds of the session of `a`.** -/
structure Opened (P : Aead) (C : Set (SessionId × UInt16 × UInt16)) (n : Net ι ρ Block τ)
    (a : ι ⊕ ρ) (p : Party) : Prop where
  established : established n a = true
  context : contextOf a (keysOf n a) ∈ C
  keyed : Keyed P (keysOf n a) p

/-- **What holds after every call.** -/
structure Inv (A : Primitives Block τ) (P : Aead) (psk : Block)
    (C : Set (SessionId × UInt16 × UInt16)) (x : System ι ρ τ) : Prop where
  net : Handshake.Agreement.Inv A psk x.net
  sessions : ∀ a, ∀ p ∈ x.parties a, Opened P C x.net a p
  authentic : ∀ a, ∀ p ∈ x.parties a, ∀ r ∈ p.delivered, Authentic x a r

variable {x x' : System ι ρ τ} {r : OpenRecord}

theorem inv_start (A : Primitives Block τ) (P : Aead) (psk : Block)
    (C : Set (SessionId × UInt16 × UInt16)) (initiatorIds : ι → UInt16 × UInt16)
    (responderIds : ρ → UInt16 × UInt16) [Inhabited τ] :
    Inv A P psk C (start psk initiatorIds responderIds) where
  net := Handshake.Agreement.inv_fresh
  sessions a p hp := by cases hp
  authentic a p hp := by cases hp

theorem Authentic.mono (h : Authentic x a r) (hx : Inv A P psk C x) (hp : p ∈ x.parties a)
    (hkeys : ∀ b, established x.net b = true → keysOf x'.net b = keysOf x.net b)
    (hsealed : ∀ b, ∀ q ∈ x.parties b, ∃ q' ∈ x'.parties b, q.sealed ⊆ q'.sealed) :
    Authentic x' a r := by
  obtain ⟨b, q, hq, hcounterpart, s, hs, hdelivers⟩ := h
  obtain ⟨q', hq', hsub⟩ := hsealed b q hq
  refine ⟨b, q', hq', ?_, s, hsub hs, hdelivers⟩
  rw [hkeys a (hx.sessions a p hp).established, hkeys b (hx.sessions b q hq).established]
  exact hcounterpart

/-- **What an ideal AEAD opens**, a counterpart has sealed. -/
theorem authentic_of_receive (hsep : SeparatesOn A.auth psk C) (hx : Inv A P psk C x)
    (hp : p ∈ x.parties a) {datagram : Option (List UInt8)} {nowMs : UInt32} {bytes : List UInt8}
    (hideal : IdealAead P x a datagram) (hbytes : udpReceive datagram = some bytes)
    (hopen : p.session.openUncommitted P (.data bytes) nowMs = .ok r) : Authentic x a r := by
  have hmade : ∀ plaintext, openPlaintext P p.session bytes (readHeader bytes) = some plaintext →
      ∃ log, (∃ b, ∃ q ∈ x.parties b, log = q.sealed) ∧ Produced log p.session.keys.rx
        (makeNonce p.session.keys.session (readHeader bytes).sequence)
        (bytes.take kHeaderBytes) (bytes.drop kHeaderBytes) plaintext := by
    intro plaintext hplain
    obtain ⟨b, q, hq, hproduced⟩ := hideal p hp bytes plaintext hbytes hplain
    exact ⟨_, ⟨b, q, hq, rfl⟩, hproduced⟩
  obtain ⟨_, ⟨b, q, hq, rfl⟩, s, hs, hkey, hdelivers⟩ := delivers_of_produced hmade hopen
  have ha := hx.sessions a p hp
  have hb := hx.sessions b q hq
  refine ⟨b, q, hq, ?_, s, hs, hdelivers⟩
  refine counterpart_of_key hsep (derived_of_established hx.net ha.established)
    (derived_of_established hx.net hb.established) ha.context hb.context ?_
  rw [← hb.keyed.sealed s hs, hkey, ha.keyed.keys]

/-- The session of `a` is constructed or makes a call, and keeps what it has sealed. -/
theorem Inv.update [DecidableEq ι] [DecidableEq ρ] (hx : Inv A P psk C x)
    (hopened : Opened P C x.net a q) (hsealed : ∀ p ∈ x.parties a, p.sealed ⊆ q.sealed)
    (hdelivered : ∀ r ∈ q.delivered, Authentic x a r ∧ ∃ p, p ∈ x.parties a) :
    Inv A P psk C { x with parties := Function.update x.parties a (some q) } := by
  have hkeep : ∀ b, ∀ p ∈ x.parties b,
      ∃ p' ∈ Function.update x.parties a (some q) b, p.sealed ⊆ p'.sealed := by
    intro b p hp
    rcases eq_or_ne b a with rfl | hne
    · exact ⟨q, by simp, hsealed p hp⟩
    · exact ⟨p, by rwa [Function.update_of_ne hne], List.Subset.refl _⟩
  refine ⟨hx.net, fun b p hp => ?_, fun b p hp r hr => ?_⟩
  · rcases eq_or_ne b a with rfl | hne
    · obtain rfl : q = p := by simpa using hp
      exact hopened
    · exact hx.sessions b p (by simpa [hne] using hp)
  · rcases eq_or_ne b a with rfl | hne
    · obtain rfl : q = p := by simpa using hp
      obtain ⟨hauthentic, p, hp⟩ := hdelivered r hr
      exact hauthentic.mono hx hp (fun _ _ => rfl) hkeep
    · have hp : p ∈ x.parties b := by simpa [hne] using hp
      exact (hx.authentic b p hp r hr).mono hx hp (fun _ _ => rfl) hkeep

section Runs
variable [DecidableEq ι] [DecidableEq ρ] [DecidableEq τ] [Inhabited τ]

theorem inv_handshake (hx : Inv A P psk C x) (op : NetOp ι ρ τ)
    (hideal : Handshake.Agreement.Unforged A x.net op) :
    Inv A P psk C { x with net := netStep A x.net op } where
  net := inv_netStep x.net op hx.net hideal
  sessions a p hp := by
    have ha := hx.sessions a p hp
    obtain ⟨hest, hkeys⟩ := established_netStep hx.net op ha.established
    refine ⟨hest, ?_, ?_⟩
    · rw [hkeys]
      exact ha.context
    · rw [hkeys]
      exact ha.keyed
  authentic a p hp r hr :=
    (hx.authentic a p hp r hr).mono hx hp
      (fun b hb => (established_netStep hx.net op hb).2) fun b q hq => ⟨q, hq, List.Subset.refl _⟩

/-- **Every call keeps the invariant.** -/
theorem inv_step (hsep : SeparatesOn A.auth psk C) (x : System ι ρ τ) (op : Op ι ρ τ)
    (hx : Inv A P psk C x) (hsound : Sound A P C x op) : Inv A P psk C (step A P x op) := by
  cases op with
  | handshake op => exact inv_handshake hx op hsound
  | construct a =>
    obtain ⟨hest, hnone, hcontext⟩ := hsound
    refine hx.update ⟨hest, hcontext, keyed_start P _⟩ (fun p hp => ?_) fun r hr => by cases hr
    rw [hnone] at hp
    cases hp
  | record a op =>
    rw [step]
    cases hparty : x.parties a with
    | none =>
      rw [Option.map_none, ← hparty, Function.update_eq_self]
      exact hx
    | some p =>
      obtain ⟨hest, hcontext, hkeyed⟩ := hx.sessions a p hparty
      have hsealed : ∀ p' ∈ x.parties a, p'.sealed ⊆ (partyStep P p op).sealed := by
        intro p' hp' s hs
        obtain rfl : p = p' := Option.some.inj (hparty.symm.trans hp')
        exact mem_sealed_step hs op
      have hold : ∀ r ∈ p.delivered, Authentic x a r ∧ ∃ p, p ∈ x.parties a :=
        fun r hr => ⟨hx.authentic a p hparty r hr, p, hparty⟩
      rw [Option.map_some]
      cases op with
      | send op => exact hx.update ⟨hest, hcontext, keyed_send hkeyed hsound⟩ hsealed hold
      | receive datagram nowMs =>
        refine hx.update ⟨hest, hcontext, keyed_receive hkeyed datagram nowMs⟩ hsealed ?_
        unfold partyStep
        dsimp only
        rcases receive_cases P ⟨p.session⟩ datagram nowMs with ⟨error, he⟩ |
          ⟨bytes, new, hbytes, hopen, he⟩
        · rw [he, Party.deliver]
          exact hold
        · rw [he, Party.deliver]
          exact forall_mem_log hold
            ⟨authentic_of_receive hsep hx hparty hsound hbytes hopen, p, hparty⟩

/-- **The channel is secure from the handshake on.** In every run of handshakes and records in which
`make_auth` and the AEAD are ideal and `crypto_auth` tells apart what keys are derived from: a
session belongs to an established handshake and has its keys; what it delivers was sealed, header
and payload, by the session of somebody established, of the other role, with the mirrored keys; it
delivers no (epoch, sequence) twice; and if there is only one such session, then what it delivers
is, with its multiplicities, among what that one has sealed. -/
theorem secure_channel {initiatorIds : ι → UInt16 × UInt16} {responderIds : ρ → UInt16 × UInt16}
    {ops : List (Op ι ρ τ)} (hsep : SeparatesOn A.auth psk C)
    (hsound : Along (step A P) (Sound A P C) (start psk initiatorIds responderIds) ops) :
    let x := run (step A P) (start psk initiatorIds responderIds) ops
    ∀ a, ∀ p ∈ x.parties a,
      established x.net a = true ∧ p.session.keys = keysOf x.net a ∧
      (∀ r ∈ p.delivered, Authentic x a r) ∧ (p.delivered.map slot).Nodup ∧
      ∀ b, ∀ q ∈ x.parties b, (∀ b' q', q' ∈ x.parties b' →
          Counterpart a b' (keysOf x.net a) (keysOf x.net b') → b' = b) →
        (p.delivered.map content).Subperm (q.sealed.map sealedContent) := by
  intro x a p hp
  have hx : Inv A P psk C x := run_invariant (inv_step hsep) (inv_start A P psk C _ _) hsound
  obtain ⟨hest, -, hkeyed⟩ := hx.sessions a p hp
  refine ⟨hest, hkeyed.keys, hx.authentic a p hp, hkeyed.party.receiver.nodup, ?_⟩
  intro b q hq honly
  refine contents_subperm ⟨fun r hr => ?_, hkeyed.party.receiver.nodup⟩
  obtain ⟨b', q', hq', hcounterpart, s, hs, hdelivers⟩ := hx.authentic a p hp r hr
  obtain rfl := honly b' q' hq' hcounterpart
  obtain rfl := Option.some.inj (hq.symm.trans hq')
  exact ⟨s, hs, hdelivers⟩

end Runs

/-! ### A run -/

/-- Authenticators that are what they authenticate, and keys of one byte of the label. -/
def testPrimitives : Primitives Block (List UInt8) where
  mac _ input := some input
  auth input _ := some (List.Vector.replicate 16 (input.getD 3 0))

/-- The only context of the run. -/
def testContexts : Set (SessionId × UInt16 × UInt16) := {(⟨3, 1⟩, 10, 20)}

theorem separatesOn_test (psk : Block) : SeparatesOn testPrimitives.auth psk testContexts := by
  intro d d' s u v s' u' v' key hc hc' h h'
  cases Set.mem_singleton_iff.mp hc
  cases Set.mem_singleton_iff.mp hc'
  have hkey := Option.some.inj (h.trans h'.symm)
  cases d <;> cases d'
  · rfl
  · exact absurd hkey (by decide)
  · exact absurd hkey (by decide)
  · rfl

/-- The handshake of `session_test.cpp`, with smaller nonces. -/
def testHandshake : List (Op Unit Unit (List UInt8)) :=
  Handshake.Agreement.testOps.map .handshake

/-- Its `Heartbeat`. -/
def testHeartbeat : RecordHeader where
  type := .heartbeat
  sourceId := 10
  destinationId := 20
  sessionId := 3
  epoch := 1

/-- The record that `paddingAead` makes of it. -/
def testBytes : List UInt8 :=
  headerBytes (sealedHeader testHeartbeat 1) ++ ([0x42] ++ List.replicate kTagBytes 0)

/-- The keys that both ends have. -/
def testFirst : DirectionalKeys Block :=
  ⟨⟨3, 1⟩, 10, 20, List.Vector.replicate 16 0x54, List.Vector.replicate 16 0x52⟩

/-- The heartbeat is sealed by the initiator, and arrives. -/
def testRun : List (Op Unit Unit (List UInt8)) :=
  testHandshake ++ [.construct (.inl ()), .construct (.inr ()),
    .record (.inl ()) (.send (.seal testHeartbeat (.data [0x42]) (List.Vector.replicate _ 0))),
    .record (.inr ()) (.receive (some testBytes) 0)]

/-- One initiator and one responder. -/
def testStart : System Unit Unit (List UInt8) :=
  start (List.Vector.replicate 16 7) (fun _ => (10, 20)) fun _ => (20, 10)

/-- The system when their handshake is over. -/
def testReady : System Unit Unit (List UInt8) :=
  run (step testPrimitives paddingAead) testStart testHandshake

theorem along_testHandshake :
    Along (step testPrimitives paddingAead) (Sound testPrimitives paddingAead testContexts)
      testStart testHandshake :=
  ⟨trivial, trivial, fun _ => by decide +kernel, fun _ => by decide +kernel, trivial⟩

theorem testReady_keys : (established testReady.net (.inl ()) = true ∧
      established testReady.net (.inr ()) = true) ∧
    keysOf testReady.net (.inl ()) = testFirst ∧
      keysOf testReady.net (.inr ()) = testFirst.mirror := by
  decide +kernel

theorem sealable_testHeartbeat : Sealable { keys := testFirst } testHeartbeat (.data [0x42]) := by
  constructor <;> decide

theorem sealCipher_test :
    sealCipher paddingAead { keys := testFirst } testHeartbeat (.data [0x42]) =
      some ([0x42] ++ List.replicate kTagBytes 0) :=
  aeadSeal_paddingAead rfl rfl (by decide) (by decide)

theorem sealed_test : partyStep paddingAead { session := { keys := testFirst } }
      (.send (.seal testHeartbeat (.data [0x42]) (List.Vector.replicate _ 0))) = {
    session := Session.sent { keys := testFirst } 0
    sealed := [sentBy { keys := testFirst } testHeartbeat (.data [0x42])
      ([0x42] ++ List.replicate kTagBytes 0)] } :=
  partyStep_seal (p := { session := { keys := testFirst } }) sealable_testHeartbeat
    sealCipher_test _

theorem testBytes_eq : testBytes =
    headerBytes (sealedHeader testHeartbeat (Span.data [(0x42 : UInt8)]).length) ++
      ([0x42] ++ List.replicate kTagBytes 0) := rfl

theorem idealAead_test {x : System Unit Unit (List UInt8)}
    (hinitiator : x.parties (.inl ()) = some (partyStep paddingAead
      { session := { keys := testFirst } }
      (.send (.seal testHeartbeat (.data [0x42]) (List.Vector.replicate _ 0)))))
    (hresponder : x.parties (.inr ()) = some { session := { keys := testFirst.mirror } }) :
    IdealAead paddingAead x (.inr ()) (some testBytes) := by
  intro p hp bytes plaintext hbytes hopen
  obtain rfl := Option.some.inj (hresponder.symm.trans hp)
  rw [testBytes_eq, udpReceive_sealed sealable_testHeartbeat sealCipher_test] at hbytes
  refine ⟨.inl (), _, hinitiator, ?_⟩
  rw [sealed_test]
  exact produced_of_sealed correct_paddingAead sealCipher_test (by decide)
    (List.mem_singleton_self _) rfl (Option.some.inj hbytes).symm hopen

theorem along_testRun :
    Along (step testPrimitives paddingAead) (Sound testPrimitives paddingAead testContexts)
      testStart testRun := by
  refine along_append.mpr ⟨along_testHandshake, ?_⟩
  obtain ⟨⟨hinitiator, hresponder⟩, hfirst, hsecond⟩ := testReady_keys
  have hnone : ∀ a, testReady.parties a = none := fun a => rfl
  have hfirstContext : contextOf (.inl () : Unit ⊕ Unit) testFirst ∈ testContexts := rfl
  have hsecondContext : contextOf (.inr () : Unit ⊕ Unit) testFirst.mirror ∈ testContexts := rfl
  rw [← hfirst] at hfirstContext
  rw [← hsecond] at hsecondContext
  refine ⟨⟨hinitiator, hnone _, hfirstContext⟩, ⟨hresponder, ?_, hsecondContext⟩, ?_, ?_, trivial⟩
  · rfl
  · exact fun nextKeys h => by cases h
  · refine idealAead_test ?_ ?_
    · rw [← hfirst]
      rfl
    · rw [← hsecond]
      rfl

/-- The responder's session delivers what the initiator's has sealed. -/
theorem secure_channel_test :
    let x := run (step testPrimitives paddingAead) testStart testRun
    (∃ p ∈ x.parties (.inr ()), p.delivered.length = 1) ∧
      ∀ a, ∀ p ∈ x.parties a, established x.net a = true ∧ ∀ r ∈ p.delivered, Authentic x a r := by
  refine ⟨?_, fun a p hp => ?_⟩
  · obtain ⟨-, -, hkeys⟩ := testReady_keys
    have hmirrors : Mirrors { keys := testFirst } { keys := testFirst.mirror } :=
      mirrors_mirror sealable_testHeartbeat.keys rfl
    have hdeadline : testHeartbeat.deadlineMs = 0 ∨
        (0 : UInt32).toNat ≤ testHeartbeat.deadlineMs.toNat := Or.inl rfl
    have hdelivered := partyStep_receive (p := { session := { keys := testFirst.mirror } })
      correct_paddingAead sealable_testHeartbeat sealCipher_test hmirrors (by decide) hdeadline
    refine ⟨partyStep paddingAead { session := { keys := testFirst.mirror } }
      (.receive (some testBytes) 0), ?_, ?_⟩
    · rw [← hkeys]
      rfl
    · rw [testBytes_eq, hdelivered]
      rfl
  · have h := secure_channel (separatesOn_test _) along_testRun a p hp
    exact ⟨h.1, h.2.2.1⟩

end NewMavlink.SecureChannel
