import NewMavlink.SecureChannel

/-! # Nonces across a network

Any number of sessions that seal, open and are rekeyed, where all keys come out of the key
derivation, for contexts in which `crypto_auth` tells its inputs apart.

* `keys_of_tx`: the key that a session sends with determines all of its keys, its ids and its
  session.
* `keyed_step`: every record was sealed with keys of the channel of its party, of its own epoch.
* `nonces_unique`: so no two records on the network were sealed with the same key and nonce. -/

namespace NewMavlink.Nonces

open NewMavlink.Lib.Buffer NewMavlink.Lib.Runs NewMavlink.Wire NewMavlink.Crypto
open NewMavlink.KeySeparation NewMavlink.Record.Header
open NewMavlink.Record.SealOpen NewMavlink.Record.SendLog NewMavlink.Transport
open NewMavlink.Parties
open NewMavlink.SecureChannel (SeparatesOn context_of_key testHeartbeat)

/-- The keys are one side of a derivation, in one of the contexts `C`. -/
def DerivedFrom (auth : Auth Block) (psk : Block) (C : Set (SessionId × UInt16 × UInt16))
    (k : DirectionalKeys Block) : Prop :=
  ∃ u v first second, (k.session, u, v) ∈ C ∧
    deriveDirectionalKeys auth psk k.session u v = some (first, second) ∧ (k = first ∨ k = second)

variable {auth : Auth Block} {psk : Block} {C : Set (SessionId × UInt16 × UInt16)} {P : Aead}
  {k k' : DirectionalKeys Block} {p : Party}

theorem exists_direction (h : DerivedFrom auth psk C k) : ∃ u v first second d,
    (k.session, u, v) ∈ C ∧ deriveDirectionalKeys auth psk k.session u v = some (first, second) ∧
      k.tx = Direction.key first d ∧ k = if d = .fromFirst then first else first.mirror := by
  obtain ⟨u, v, first, second, hc, hd, rfl | rfl⟩ := h
  · exact ⟨u, v, k, second, .fromFirst, hc, hd, rfl, rfl⟩
  · obtain ⟨rfl, -⟩ := deriveDirectionalKeys_eq_some hd
    exact ⟨u, v, first, _, .fromSecond, hc, hd, rfl, rfl⟩

/-- **The key that a session sends with** determines the others. -/
theorem keys_of_tx (hsep : SeparatesOn auth psk C) (h : DerivedFrom auth psk C k)
    (h' : DerivedFrom auth psk C k') (htx : k.tx = k'.tx) : k = k' := by
  obtain ⟨u, v, first, second, d, hc, hd, hkey, hside⟩ := exists_direction h
  obtain ⟨u', v', first', second', d', hc', hd', hkey', hside'⟩ := exists_direction h'
  obtain ⟨rfl, rfl⟩ := context_of_key hsep hc hc' hd hd' (hkey.symm.trans (htx.trans hkey'))
  rw [hside, hside']

/-! ### One party -/

/-- The session's keys were derived, and each record was sealed with derived keys of the channel of
`k` and of the record's own epoch. -/
structure Keyed (auth : Auth Block) (psk : Block) (C : Set (SessionId × UInt16 × UInt16))
    (k : DirectionalKeys Block) (p : Party) : Prop where
  keys : DerivedFrom auth psk C p.session.keys
  sealed : ∀ a ∈ p.sealed, ∃ k', DerivedFrom auth psk C k' ∧ channelOf k' = channelOf k ∧
    a.key = k'.tx ∧ a.header.epoch = k'.session.epoch

/-- A session is rekeyed to derived keys only. -/
def RekeyDerived (auth : Auth Block) (psk : Block) (C : Set (SessionId × UInt16 × UInt16)) :
    PartyOp → Prop
  | .send (.rekey nextKeys) => DerivedFrom auth psk C nextKeys
  | _ => True

theorem keyed_seal (hparty : PartyInv P k p) (h : Keyed auth psk C k p) (input : RecordHeader)
    (plaintext : Span UInt8) (output : RecordBuffer) :
    Keyed auth psk C k (partyStep P p (.send (.seal input plaintext output))) := by
  rcases seal_cases P p.session input plaintext output with ⟨e, he⟩ | ⟨cipher, hs, -, he⟩
  · simp only [partyStep, sendStep, he, logSeal]
    exact h
  · simp only [partyStep, sendStep, he, logSeal]
    refine ⟨h.keys, forall_mem_log h.sealed ⟨_, h.keys, hparty.channel, rfl, ?_⟩⟩
    rw [readHeader_headerBytes]
    exact hs.epoch

/-- **Every call keeps it.** -/
theorem keyed_step (hparty : PartyInv P k p) (h : Keyed auth psk C k p) {op : PartyOp}
    (hop : RekeyDerived auth psk C op) : Keyed auth psk C k (partyStep P p op) := by
  cases op with
  | send op =>
    cases op with
    | «seal» input plaintext output => exact keyed_seal hparty h input plaintext output
    | rekey nextKeys =>
      rcases rekey_cases p.session nextKeys with he | ⟨-, he⟩
      · simp only [partyStep, sendStep, he]
        exact h
      · simp only [partyStep, sendStep, he]
        exact ⟨hop, h.sealed⟩
  | receive datagram nowMs =>
    rcases receive_cases P ⟨p.session⟩ datagram nowMs with ⟨error, he⟩ | ⟨bytes, r, -, -, he⟩
    · simp only [partyStep, he, Party.deliver]
      exact h
    · simp only [partyStep, he, Party.deliver]
      exact ⟨h.keys, h.sealed⟩

/-! ### All parties -/

variable {ι : Type} {keys : ι → DirectionalKeys Block} {x : ι → Party}

/-- **What holds after every move.** -/
structure Inv (auth : Auth Block) (psk : Block) (C : Set (SessionId × UInt16 × UInt16)) (P : Aead)
    (keys : ι → DirectionalKeys Block) (x : ι → Party) : Prop where
  party : ∀ i, PartyInv P (keys i) (x i)
  keyed : ∀ i, Keyed auth psk C (keys i) (x i)

theorem inv_start (P : Aead) (hkeys : ∀ i, DerivedFrom auth psk C (keys i)) :
    Inv auth psk C P keys (start keys) :=
  ⟨fun i => partyInv_start P (keys i), fun i => ⟨hkeys i, by simp [start]⟩⟩

theorem inv_step [DecidableEq ι] (x : ι → Party) (move : ι × PartyOp)
    (h : Inv auth psk C P keys x) (hop : RekeyDerived auth psk C move.2) :
    Inv auth psk C P keys (partiesStep P x move) := by
  obtain ⟨i, op⟩ := move
  constructor
  · intro j
    by_cases hj : j = i
    · subst hj
      rw [partiesStep_self]
      cases op with
      | send op => exact partyInv_send (h.party j) op
      | receive datagram nowMs => exact partyInv_receive (h.party j) datagram nowMs
    · rw [partiesStep_of_ne P x hj]
      exact h.party j
  · intro j
    by_cases hj : j = i
    · subst hj
      rw [partiesStep_self]
      exact keyed_step (h.party j) (h.keyed j) hop
    · rw [partiesStep_of_ne P x hj]
      exact h.keyed j

theorem Inv.of_key_eq (h : Inv auth psk C P keys x) (hsep : SeparatesOn auth psk C)
    (hown : ∀ i j, channelOf (keys i) = channelOf (keys j) → i = j) {i j : ι} {a b : Sent}
    (ha : a ∈ (x i).sealed) (hb : b ∈ (x j).sealed) (hkey : a.key = b.key) :
    i = j ∧ a.header.epoch = b.header.epoch := by
  obtain ⟨k, hk, hchannel, hakey, haepoch⟩ := (h.keyed i).sealed a ha
  obtain ⟨k', hk', hchannel', hbkey, hbepoch⟩ := (h.keyed j).sealed b hb
  obtain rfl := keys_of_tx hsep hk hk' (hakey.symm.trans (hkey.trans hbkey))
  exact ⟨hown i j (hchannel.symm.trans hchannel'), haepoch.trans hbepoch.symm⟩

theorem Inv.nonce_ne (h : Inv auth psk C P keys x) {i : ι} {n m : ℕ} {a b : Sent}
    (ha : (x i).sealed[n]? = some a) (hb : (x i).sealed[m]? = some b) (hnm : n < m)
    (hepoch : a.header.epoch = b.header.epoch) : a.nonce ≠ b.nonce := by
  obtain ⟨hn, rfl⟩ := List.getElem?_eq_some_iff.mp ha
  obtain ⟨hm, rfl⟩ := List.getElem?_eq_some_iff.mp hb
  have hsender := (h.party i).sender
  exact hsender.nonce_ne (List.getElem_mem hn) (List.getElem_mem hm)
    (List.pairwise_iff_getElem.mp hsender.sorted n m hn hm hnm) hepoch

/-- **No nonce is used twice under one key.** In every run of any number of sessions whose keys come
out of the derivation, at the start and at every rekey, in contexts that `crypto_auth` tells apart:
if no two sessions are for the same ids, in this order, and the same session, then no two records on
the network, of one party or of two, were sealed with the same key and the same nonce, whatever the
network hands to whom. -/
theorem nonces_unique [DecidableEq ι] (hsep : SeparatesOn auth psk C)
    (hkeys : ∀ i, DerivedFrom auth psk C (keys i))
    (hown : ∀ i j, channelOf (keys i) = channelOf (keys j) → i = j) {moves : List (ι × PartyOp)}
    (hmoves : ∀ move ∈ moves, RekeyDerived auth psk C move.2) :
    let x := run (partiesStep P) (start keys) moves
    ∀ (i j : ι) (n m : ℕ) (a b : Sent), (x i).sealed[n]? = some a → (x j).sealed[m]? = some b →
      a.key = b.key → a.nonce = b.nonce → i = j ∧ n = m := by
  intro x i j n m a b ha hb hkey hnonce
  have h : Inv auth psk C P keys x :=
    run_invariant inv_step (inv_start P hkeys) (along_of_mem hmoves)
  obtain ⟨rfl, hepoch⟩ :=
    h.of_key_eq hsep hown (List.mem_of_getElem? ha) (List.mem_of_getElem? hb) hkey
  refine ⟨rfl, ?_⟩
  rcases Nat.lt_trichotomy n m with hlt | heq | hgt
  · exact absurd hnonce (h.nonce_ne ha hb hlt hepoch)
  · exact heq
  · exact absurd hnonce.symm (h.nonce_ne hb ha hgt hepoch.symm)

/-- Keys of one byte of the label and one of the epoch. -/
def testAuth : Auth Block := fun input _ =>
  some (input.getD 3 0 ::ᵥ List.Vector.replicate 15 (input.getD 16 0))

/-- One session in two epochs. -/
def testContexts : Set (SessionId × UInt16 × UInt16) := {(⟨3, 1⟩, 10, 20), (⟨3, 2⟩, 10, 20)}

/-- The first side in an epoch of one byte. -/
def testFirst (epoch : UInt8) : DirectionalKeys Block where
  session := ⟨3, epoch.toUInt64⟩
  localId := 10
  peerId := 20
  tx := 0x54 ::ᵥ List.Vector.replicate 15 epoch
  rx := 0x52 ::ᵥ List.Vector.replicate 15 epoch

theorem separatesOn_testAuth (psk : Block) : SeparatesOn testAuth psk testContexts := by
  intro d d' s u v s' u' v' key hc hc' h h'
  have hkey := Option.some.inj (h.trans h'.symm)
  rcases hc with hc | hc <;> rcases hc' with hc' | hc' <;> cases hc <;> cases hc' <;>
    cases d <;> cases d' <;> first | rfl | exact absurd hkey (by decide)

theorem derivedFrom_first (psk : Block) {epoch : UInt8} (h : epoch = 1 ∨ epoch = 2) :
    DerivedFrom testAuth psk testContexts (testFirst epoch) ∧
      DerivedFrom testAuth psk testContexts (testFirst epoch).mirror := by
  have hc : ((testFirst epoch).session, (10 : UInt16), (20 : UInt16)) ∈ testContexts := by
    rcases h with rfl | rfl
    · exact Or.inl rfl
    · exact Or.inr rfl
  have hd : deriveDirectionalKeys testAuth psk (testFirst epoch).session 10 20 =
      some (testFirst epoch, (testFirst epoch).mirror) := by
    rcases h with rfl | rfl <;> rfl
  exact ⟨⟨10, 20, _, _, hc, hd, Or.inl rfl⟩, ⟨10, 20, _, _, hc, hd, Or.inr rfl⟩⟩

/-- Both ends seal a heartbeat, and the first end another one after a rekey. -/
def rekeyMoves : List (Bool × PartyOp) :=
  [(true, .send (.seal testHeartbeat (.data [0x42]) (List.Vector.replicate _ 0))),
    (false, .send (.seal { testHeartbeat with sourceId := 20, destinationId := 10 } (.data [0x42])
      (List.Vector.replicate _ 0))),
    (true, .send (.rekey (testFirst 2))),
    (true, .send (.seal { testHeartbeat with epoch := 2 } (.data [0x42])
      (List.Vector.replicate _ 0)))]

/-- The two ends of the session. -/
def testKeys : Bool → DirectionalKeys Block
  | true => testFirst 1
  | false => (testFirst 1).mirror

/-- The three records have three pairs of a key and a nonce. -/
theorem nonces_unique_test :
    let x := run (partiesStep paddingAead) (start testKeys) rekeyMoves
    (x true).sealed.length = 2 ∧ (x false).sealed.length = 1 ∧
      ∀ (i j : Bool) (n m : ℕ) (a b : Sent), (x i).sealed[n]? = some a →
        (x j).sealed[m]? = some b → a.key = b.key → a.nonce = b.nonce → i = j ∧ n = m := by
  let psk : Block := List.Vector.replicate 16 7
  have hkeys : ∀ i, DerivedFrom testAuth psk testContexts (testKeys i) := by
    intro i
    cases i
    · exact (derivedFrom_first psk (Or.inl rfl)).2
    · exact (derivedFrom_first psk (Or.inl rfl)).1
  have hown : ∀ i j, channelOf (testKeys i) = channelOf (testKeys j) → i = j := by decide
  have hmoves : ∀ move ∈ rekeyMoves, RekeyDerived testAuth psk testContexts move.2 := by
    simp only [rekeyMoves, List.forall_mem_cons, List.not_mem_nil, false_implies, implies_true,
      and_true]
    exact ⟨trivial, trivial, (derivedFrom_first psk (Or.inr rfl)).1, trivial⟩
  refine ⟨by decide +kernel, by decide +kernel, ?_⟩
  exact nonces_unique (separatesOn_testAuth psk) hkeys hown hmoves

end NewMavlink.Nonces
