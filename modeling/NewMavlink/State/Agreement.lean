import NewMavlink.Proxy.Ingest
import NewMavlink.State.Publisher

/-! # Publisher and proxy agree on state

A publisher is updated and polled, and a proxy is given records. Nothing is said of how the messages
of the publisher get to the proxy, so they may be lost, duplicated, delayed and reordered: a record
of a stream carries any message that was ever sent (`Faithful`). The state keeps what the publisher
was given and what it sent, and the generation of a value is its place among the values given.

* `gave_unique`: a generation identifies a value.
* `inv_systemStep`: the current values, the messages sent and the cache entries of the stream stay
  values that the publisher was given.
* `agreement`: so every cached message decodes to what the publisher was given at its generation,
  and a snapshot of the current generation brings the cache up to date. -/

namespace NewMavlink.State.Agreement

open NewMavlink.Lib.Buffer NewMavlink.Lib.Tables NewMavlink.Lib.Replica NewMavlink.Lib.Runs
open NewMavlink.Wire NewMavlink.State.Messages NewMavlink.State.Publisher
open NewMavlink.Record.SealOpen
open NewMavlink.Proxy.Queue hiding streamKey
open NewMavlink.Proxy.Links NewMavlink.Proxy.Links.NativeProxy NewMavlink.Proxy.Ingest

/-- A publisher and a proxy, with the messages that were published and the values that were given
to the publisher in the updates that changed something. -/
structure System where
  publisher : StatePublisher
  proxy : NativeProxy
  sent : List NativeMessage := []
  given : (k : Kind) → List k.Value := fun _ => []

/-- A call on the publisher, or on the proxy. -/
inductive SystemOp where
  | update (k : Kind) (value : k.Value) (nowMs : UInt64)
  | poll (nowMs : UInt64) (capacity : ℕ)
  | proxy (op : ProxyOp)

namespace System

/-- A new publisher and a new proxy. -/
def init (sourceId destinationId : UInt16) (snapshotPeriodMs : UInt64) (queueCapacity : ℕ) :
    System where
  publisher := .init sourceId destinationId snapshotPeriodMs
  proxy := .init queueCapacity

end System

/-- The system after a call, with what was published and given. -/
def systemStep (s : System) : SystemOp → System
  | .update k value nowMs =>
    let (changed, publisher) := s.publisher.update k value nowMs
    { s with
      publisher
      given := if changed then Function.update s.given k (s.given k ++ [value]) else s.given }
  | .poll nowMs capacity =>
    let (output, publisher) := s.publisher.poll nowMs capacity
    { s with publisher, sent := s.sent ++ output.map PublishedMessage.message }
  | .proxy op => { s with proxy := proxyStep s.proxy op }

/-! ### Values -/

/-- A value without the fields that say how it is published. -/
def plain (k : Kind) (v : k.Value) : k.Value :=
  k.withMeta v { k.stateMeta v with baseGeneration := 0, snapshot := 0 }

/-- The values differ at most in how they are published: as a snapshot, or on what base. -/
def SameValue (k : Kind) (v w : k.Value) : Prop := plain k v = plain k w

/-- The value that a publisher with this source makes of a value it is given. -/
def numbered (sourceId : UInt16) (k : Kind) (value : k.Value) (generation : UInt32) : k.Value :=
  let m := k.stateMeta value
  k.withMeta value { m with
    sourceId := if m.sourceId = 0 then sourceId else m.sourceId
    generation := generation }

/-- The publisher was given this value, at the generation that the value names. -/
def Gave (s : System) (k : Kind) (v : k.Value) : Prop :=
  ∃ i value, (s.given k)[i]? = some value ∧ (k.stateMeta v).generation.toNat = i + 1 ∧
    SameValue k v (numbered s.publisher.sourceId k value (k.stateMeta v).generation)

variable {s s' : System} {k : Kind} {v w value : k.Value} {κ : UInt64} {m : NativeMessage}
  {r : OpenRecord} {op : SystemOp} {l : UInt16} {nowMs : UInt64}

theorem SameValue.generation_eq (h : SameValue k v w) :
    (k.stateMeta v).generation = (k.stateMeta w).generation := by
  have hmeta := congrArg (fun u => (k.stateMeta u).generation) h
  simpa [plain] using hmeta

theorem Gave.of_same (hw : Gave s k w) (h : SameValue k v w) : Gave s k v := by
  obtain ⟨i, value, hi, hg, hsame⟩ := hw
  refine ⟨i, value, hi, by rw [h.generation_eq, hg], ?_⟩
  rw [h.generation_eq]
  exact h.trans hsame

/-- **A generation identifies a value.** -/
theorem gave_unique (hv : Gave s k v) (hw : Gave s k w)
    (h : (k.stateMeta v).generation = (k.stateMeta w).generation) : SameValue k v w := by
  obtain ⟨i, value, hi, hgi, hsame⟩ := hv
  obtain ⟨j, value', hj, hgj, hsame'⟩ := hw
  obtain rfl : i = j := by
    rw [h] at hgi
    omega
  obtain rfl := Option.some.inj (hi.symm.trans hj)
  rw [← h] at hsame'
  exact hsame.trans hsame'.symm

theorem Gave.generation_le (h : Gave s k v) :
    (k.stateMeta v).generation.toNat ≤ (s.given k).length := by
  obtain ⟨i, value, hi, hg, -⟩ := h
  have hlt := (List.getElem?_eq_some_iff.mp hi).1
  omega

theorem same_outgoing (p : StatePublisher) (snapshot : Bool) :
    SameValue k (p.outgoing k snapshot) (p.streams k).value := by
  simp [SameValue, plain, StatePublisher.outgoing]

theorem same_stored (p : StatePublisher) : SameValue k (p.stored k value)
    (numbered p.sourceId k value (nextGeneration (p.streams k).generation)) := by
  simp [SameValue, plain, numbered, StatePublisher.stored]

@[simp] theorem generation_stored (p : StatePublisher) :
    (k.stateMeta (p.stored k value)).generation = nextGeneration (p.streams k).generation := by
  simp [StatePublisher.stored]

/-! ### Messages and records -/

/-- What a session carries of a message. The rest of the header is the session's business. -/
structure Carries (r : OpenRecord) (m : NativeMessage) : Prop where
  type : r.header.type = m.header.type
  source : r.header.sourceId = m.header.sourceId
  destination : r.header.destinationId = m.header.destinationId
  length : r.length = m.length
  bytes : r.bytes = m.bytes

/-- The message brings a value from the publisher to its destination. -/
structure Addressed (p : StatePublisher) (m : NativeMessage) (k : Kind) (v : k.Value) : Prop where
  source : m.header.sourceId = p.sourceId
  destination : m.header.destinationId = p.destinationId
  type : m.header.type = k.type
  length : m.length = k.bytes
  decodes : k.decode (.data m.bytes) = some v

/-- The link is the one between the publisher and its destination. -/
def PublisherLink (p : StatePublisher) (q : NativeProxy) (l : UInt16) : Prop :=
  ∃ link, q.links.lookup l = some link ∧ link.session.keys.peerId = p.sourceId ∧
    link.session.keys.localId = p.destinationId

theorem addressed_of_build {p : StatePublisher} {snapshot : Bool} {x : PublishedMessage}
    (h : p.build k snapshot = some x) : Addressed p x.message k (p.outgoing k snapshot) := by
  obtain ⟨hheader, hlen, -, hdecode⟩ := StatePublisher.build_eq_some h
  refine ⟨?_, ?_, ?_, hlen, hdecode⟩
  all_goals
    rw [hheader]
    rfl

theorem Carries.bytes_messageOf {p : StatePublisher} (h : Carries r m) (hm : Addressed p m k v) :
    (messageOf r).bytes = m.bytes := by
  rw [NewMavlink.Proxy.Ingest.bytes_messageOf, h.bytes]
  rw [h.length, hm.length]
  cases k <;> decide

theorem Carries.decode_messageOf {p : StatePublisher} (h : Carries r m)
    (hm : Addressed p m k v) : k.decode (.data (messageOf r).bytes) = some v := by
  rw [h.bytes_messageOf hm]
  exact hm.decodes

theorem Carries.admits {p : StatePublisher} {q : NativeProxy} (h : Carries r m)
    (hm : Addressed p m k v) (hlink : PublisherLink p q l) : admits q l r = true := by
  obtain ⟨link, hl, hpeer, hlocal⟩ := hlink
  have hr : r.header.type = k.type := h.type.trans hm.type
  refine admits_eq_true_iff.mpr ⟨link, hl, ?_, ?_, ?_, ?_, ?_⟩
  · rw [h.length, hm.length]
    cases k <;> decide
  · rw [hr]
    exact k.knownType_type
  · rw [h.source, hm.source, hpeer]
  · rw [h.destination, hm.destination, hlocal]
  · have hdecode := h.decode_messageOf hm
    unfold badPosition
    rw [header_messageOf, hr]
    cases k with
    | position =>
      have hpos : decodePosition (.data (messageOf r).bytes) = some v := hdecode
      simp [hpos]
    | attitude => rfl
    | battery => rfl

/-- The message carries a value that the publisher was given. -/
def Sent (s : System) (m : NativeMessage) : Prop :=
  ∃ k v, Addressed s.publisher m k v ∧ Gave s k v

/-- The message belongs to the stream, and carries the value that the publisher was given at this
generation. -/
def Had (s : System) (κ : UInt64) (generation : ℕ) (m : NativeMessage) : Prop :=
  streamKey m = κ ∧ ∃ k v, m.header.type = k.type ∧ k.decode (.data m.bytes) = some v ∧
    (k.stateMeta v).generation.toNat = generation ∧ Gave s k v

theorem Carries.had (h : Carries r m) (hm : Sent s m) : ∃ sm, metaOf (messageOf r) = some sm ∧
    Had s (streamKey (messageOf r)) sm.generation.toNat (messageOf r) := by
  obtain ⟨k, v, haddr, hgave⟩ := hm
  have hdecode := h.decode_messageOf haddr
  exact ⟨k.stateMeta v, metaOf_of_decode hdecode, rfl, k, v, h.type.trans haddr.type, hdecode, rfl,
    hgave⟩

/-! ### What is never taken back -/

/-- The publisher is the same, and was given more. -/
def Extends (s s' : System) : Prop :=
  s'.publisher.sourceId = s.publisher.sourceId ∧
    s'.publisher.destinationId = s.publisher.destinationId ∧ ∀ k, s.given k <+: s'.given k

theorem Gave.mono (h : Extends s s') (hv : Gave s k v) : Gave s' k v := by
  obtain ⟨i, value, hi, hg, hsame⟩ := hv
  obtain ⟨more, hmore⟩ := h.2.2 k
  refine ⟨i, value, ?_, hg, by rwa [h.1]⟩
  rw [← hmore, List.getElem?_append_left (List.getElem?_eq_some_iff.mp hi).1]
  exact hi

theorem Sent.mono (h : Extends s s') (hm : Sent s m) : Sent s' m := by
  obtain ⟨k, v, haddr, hgave⟩ := hm
  have hsource := haddr.source.trans h.1.symm
  have hdest := haddr.destination.trans h.2.1.symm
  exact ⟨k, v, ⟨hsource, hdest, haddr.type, haddr.length, haddr.decodes⟩, hgave.mono h⟩

theorem Had.mono {g : ℕ} (h : Extends s s') (hm : Had s κ g m) : Had s' κ g m := by
  obtain ⟨hκ, k, v, htype, hdecode, hg, hgave⟩ := hm
  exact ⟨hκ, k, v, htype, hdecode, hg, hgave.mono h⟩

theorem given_update (s : System) (k : Kind) (value : k.Value) (nowMs : UInt64) :
    (systemStep s (.update k value nowMs)).given =
      if s.publisher.changed k value then Function.update s.given k (s.given k ++ [value])
      else s.given := by
  simp only [systemStep, StatePublisher.fst_update]

theorem extends_systemStep (s : System) (op : SystemOp) : Extends s (systemStep s op) := by
  cases op with
  | update k value nowMs =>
    refine ⟨StatePublisher.sourceId_update, StatePublisher.destinationId_update, fun k' => ?_⟩
    rw [given_update]
    split_ifs
    · by_cases hk : k' = k
      · subst hk
        rw [Function.update_self]
        exact List.prefix_append _ _
      · rw [Function.update_of_ne hk]
    · exact List.prefix_rfl
  | poll nowMs capacity =>
    obtain ⟨hs, hd, -⟩ := s.publisher.sameState_poll nowMs capacity
    exact ⟨hs, hd, fun _ => List.prefix_rfl⟩
  | proxy op => exact ⟨rfl, rfl, fun _ => List.prefix_rfl⟩

/-! ### The invariant -/

/-- What the environment guarantees for a stream: each kind is updated fewer times than there are
generations, and nothing but messages of the publisher is given to the proxy as a record of the
stream. -/
structure Faithful (κ : UInt64) (s : System) (op : SystemOp) : Prop where
  few : ∀ k, (s.given k).length < 2 ^ 32 - 1
  alone : ∀ l r nowMs, op = .proxy (.ingest l r nowMs) → streamKey (messageOf r) = κ →
    ∃ m ∈ s.sent, Carries r m

/-- **Every value in the system was given to the publisher**: the current values at the current
generations, the values sent, and what the proxy caches of the stream. -/
structure Inv (κ : UInt64) (s : System) : Prop where
  started : ∀ k, (s.publisher.streams k).has = true ↔ s.given k ≠ []
  counted : ∀ k, (s.publisher.streams k).generation.toNat = (s.given k).length
  current : ∀ k, (s.publisher.streams k).has = true → Gave s k (s.publisher.streams k).value ∧
    (k.stateMeta (s.publisher.streams k).value).generation = (s.publisher.streams k).generation
  sent : ∀ m ∈ s.sent, Sent s m
  decodes : ∀ m, s.proxy.cache.lookup κ = some m → (metaOf m).isSome = true
  honest : Honest (Had s κ) (held s.proxy κ)

theorem inv_init (κ : UInt64) (sourceId destinationId : UInt16) (period : UInt64) (c : ℕ) :
    Inv κ (.init sourceId destinationId period c) where
  started _ := by simp [System.init, StatePublisher.init]
  counted _ := rfl
  current _ h := by cases h
  sent _ h := by cases h
  decodes _ h := by cases h
  honest := honest_none

theorem gave_update (hinv : Inv κ s) (hfew : (s.given k).length < 2 ^ 32 - 1)
    (hc : s.publisher.changed k value = true) :
    Gave (systemStep s (.update k value nowMs)) k (s.publisher.stored k value) := by
  have hcount := hinv.counted k
  refine ⟨(s.given k).length, value, ?_, ?_, ?_⟩
  · rw [given_update, if_pos hc, Function.update_self, List.getElem?_concat_length]
  · rw [generation_stored, toNat_nextGeneration, hcount]
    omega
  · rw [generation_stored, (extends_systemStep s _).1]
    exact same_stored _

theorem systemStep_update_of_not_changed (hc : s.publisher.changed k value = false) :
    systemStep s (.update k value nowMs) = s := by
  have hpub := s.publisher.update_of_not_changed nowMs hc
  simp only [systemStep, StatePublisher.fst_update, hc, hpub]
  rfl

theorem inv_update (hinv : Inv κ s) (hfew : ∀ k, (s.given k).length < 2 ^ 32 - 1) :
    Inv κ (systemStep s (.update k value nowMs)) := by
  by_cases hc : s.publisher.changed k value = true
  · have hext := extends_systemStep s (.update k value nowMs)
    have hstreams : (systemStep s (.update k value nowMs)).publisher.streams = _ :=
      StatePublisher.streams_update hc
    have hgiven := given_update s k value nowMs
    rw [if_pos hc] at hgiven
    refine ⟨fun k' => ?_, fun k' => ?_, fun k' h => ?_, fun m hm => (hinv.sent m hm).mono hext,
      hinv.decodes, fun q hq => (hinv.honest q hq).mono hext⟩
    · rw [hstreams, hgiven]
      by_cases hk : k' = k
      · subst hk
        simp
      · rw [Function.update_of_ne hk, Function.update_of_ne hk]
        exact hinv.started k'
    · have hcount := hinv.counted k'
      rw [hstreams, hgiven]
      by_cases hk : k' = k
      · subst hk
        have hlt := hfew k'
        rw [Function.update_self, Function.update_self, List.length_append]
        dsimp only
        rw [toNat_nextGeneration, hcount, List.length_singleton]
        omega
      · rw [Function.update_of_ne hk, Function.update_of_ne hk]
        exact hcount
    · rw [hstreams] at h ⊢
      by_cases hk : k' = k
      · subst hk
        rw [Function.update_self]
        exact ⟨gave_update hinv (hfew k') hc, generation_stored _⟩
      · rw [Function.update_of_ne hk] at h ⊢
        obtain ⟨hgave, hgen⟩ := hinv.current k' h
        exact ⟨hgave.mono hext, hgen⟩
  · rw [systemStep_update_of_not_changed (by simpa using hc)]
    exact hinv

theorem sent_of_build {snapshot : Bool} {x : PublishedMessage} (hinv : Inv κ s)
    (h : s.publisher.build k snapshot = some x) : Sent s x.message := by
  obtain ⟨-, -, hhas, -⟩ := StatePublisher.build_eq_some h
  have hgave := (hinv.current k hhas).1.of_same (same_outgoing _ snapshot)
  exact ⟨k, _, addressed_of_build h, hgave⟩

theorem inv_poll {capacity : ℕ} (hinv : Inv κ s) :
    Inv κ (systemStep s (.poll nowMs capacity)) := by
  have hext := extends_systemStep s (.poll nowMs capacity)
  obtain ⟨-, -, hstreams⟩ := s.publisher.sameState_poll nowMs capacity
  have hpoll : (systemStep s (.poll nowMs capacity)).publisher =
      (s.publisher.poll nowMs capacity).2 := rfl
  refine ⟨fun k => ?_, fun k => ?_, fun k h => ?_, fun m hm => ?_, hinv.decodes,
    fun q hq => (hinv.honest q hq).mono hext⟩
  · rw [hpoll, hstreams k]
    exact hinv.started k
  · rw [hpoll, hstreams k]
    exact hinv.counted k
  · rw [hpoll, hstreams k] at h ⊢
    obtain ⟨hgave, hgen⟩ := hinv.current k h
    exact ⟨hgave.mono hext, hgen⟩
  · rcases List.mem_append.mp hm with hm | hm
    · exact (hinv.sent m hm).mono hext
    · obtain ⟨x, hx, rfl⟩ := List.mem_map.mp hm
      obtain ⟨k, snapshot, hb⟩ := StatePublisher.mem_poll hx
      exact (sent_of_build hinv hb).mono hext

/-- **The cache entry of the stream is a replica that is offered messages of the publisher.** -/
theorem inv_proxy {op : ProxyOp} (hinv : Inv κ s) (hop : Faithful κ s (.proxy op)) :
    Inv κ (systemStep s (.proxy op)) := by
  have hext := extends_systemStep s (.proxy op)
  refine ⟨hinv.started, hinv.counted, fun k h => ?_, fun m hm => (hinv.sent m hm).mono hext, ?_, ?_⟩
  · obtain ⟨hgave, hgen⟩ := hinv.current k h
    exact ⟨hgave.mono hext, hgen⟩
  · intro m hm
    rcases lookup_cache_proxyStep s.proxy op κ with heq | ⟨l, r, nowMs, rfl, -, hκ, hnew⟩
    · exact hinv.decodes m (heq ▸ hm)
    · obtain rfl : messageOf r = m := Option.some.inj (hnew.symm.trans hm)
      obtain ⟨m', hm', hcarries⟩ := hop.alone l r nowMs rfl hκ.symm
      obtain ⟨sm, hsm, -⟩ := hcarries.had (hinv.sent m' hm')
      rw [hsm]
      rfl
  · have hhonest : Honest (Had s κ) (held (proxyStep s.proxy op) κ) := by
      by_cases hoffer : ∃ l r nowMs, op = .ingest l r nowMs ∧ disposition s.proxy l r = .stored ∧
          streamKey (messageOf r) = κ
      · obtain ⟨l, r, nowMs, rfl, hstored, rfl⟩ := hoffer
        obtain ⟨hadm, hstate⟩ := admits_of_stored hstored
        obtain ⟨m', hm', hcarries⟩ := hop.alone l r nowMs rfl rfl
        obtain ⟨sm, hsm, hhad⟩ := hcarries.had (hinv.sent m' hm')
        rw [proxyStep, held_ingest_of_key hadm hstate hsm hinv.decodes]
        exact honest_offer hinv.honest hhad
      · have hother : ∀ l r nowMs, op = .ingest l r nowMs → disposition s.proxy l r = .stored →
            κ ≠ streamKey (messageOf r) := fun l r nowMs hop hstored hκ =>
          hoffer ⟨l, r, nowMs, hop, hstored, hκ.symm⟩
        rw [held_proxyStep_of_ne_key hother]
        exact hinv.honest
    exact fun q hq => (hhonest q hq).mono hext

theorem inv_systemStep (s : System) (op : SystemOp) (hinv : Inv κ s) (hop : Faithful κ s op) :
    Inv κ (systemStep s op) := by
  cases op with
  | update k value nowMs => exact inv_update hinv hop.few
  | poll nowMs capacity => exact inv_poll hinv
  | proxy op => exact inv_proxy hinv hop

/-! ### Agreement -/

/-- Every cached message of the stream decodes to what the publisher was given of this type, source
and resource at the generation of the message. -/
def Agrees (κ : UInt64) (s : System) : Prop :=
  ∀ m, s.proxy.cache.lookup κ = some m → ∃ k v, m.header.type = k.type ∧
    k.decode (.data m.bytes) = some v ∧
    κ = packKey k.type (k.stateMeta v).sourceId (k.stateMeta v).resourceId ∧ Gave s k v

/-- A record brings a snapshot of the current generation, on a link whose peer is the publisher. -/
structure Brings (s : System) (k : Kind) (l : UInt16) (r : OpenRecord) : Prop where
  link : PublisherLink s.publisher s.proxy l
  carried : ∃ m ∈ s.sent, m.header.type = k.type ∧ Carries r m
  snapshot : ∃ sm, metaOf (messageOf r) = some sm ∧ sm.snapshot ≠ 0 ∧
    sm.generation = (s.publisher.streams k).generation

/-- The proxy holds the current value of the publisher in the stream. -/
def UpToDate (s : System) (k : Kind) (κ : UInt64) (p : NativeProxy) : Prop :=
  ∃ m v, p.cache.lookup κ = some m ∧ m.header.type = k.type ∧
    k.decode (.data m.bytes) = some v ∧ SameValue k v (s.publisher.streams k).value

/-- Right after a snapshot of the current generation the proxy is up to date. -/
def Recovers (κ : UInt64) (s : System) : Prop :=
  ∀ k l r nowMs, Brings s k l r → streamKey (messageOf r) = κ →
    UpToDate s k κ (s.proxy.ingest l r nowMs).2

theorem agrees_of_inv (hinv : Inv κ s) : Agrees κ s := by
  intro m hm
  obtain ⟨sm, hsm⟩ := Option.isSome_iff_exists.mp (hinv.decodes m hm)
  have hheld : held s.proxy κ = some (sm.generation.toNat, m) :=
    held_eq_some_iff.mpr ⟨hm, sm, hsm, rfl⟩
  obtain ⟨rfl, k, v, htype, hdecode, -, hgave⟩ := hinv.honest _ hheld
  refine ⟨k, v, htype, hdecode, ?_, hgave⟩
  rw [← htype]
  exact streamKey_of_metaOf (metaOf_of_decode hdecode)

theorem kind_of_streamKey {m m' : NativeMessage} {k k' : Kind} (h : streamKey m = streamKey m')
    (hk : m.header.type = k.type) (hk' : m'.header.type = k'.type) : k = k' := by
  have htype : m.header.type = m'.header.type := (streamKey_eq_iff.mp h).1
  exact Kind.type_injective (hk.symm.trans (htype.trans hk'))

theorem recovers_of_inv (hinv : Inv κ s) : Recovers κ s := by
  intro k l r nowMs hbrings hκ
  obtain ⟨m, hm, htype, hcarries⟩ := hbrings.carried
  have hadm : admits s.proxy l r = true := by
    obtain ⟨k', v, haddr, -⟩ := hinv.sent m hm
    exact hcarries.admits haddr hbrings.link
  obtain ⟨sm, hsm, hsnap, hgen⟩ := hbrings.snapshot
  obtain ⟨sm', hsm', hhad⟩ := hcarries.had (hinv.sent m hm)
  obtain rfl : sm = sm' := Option.some.inj (hsm.symm.trans hsm')
  have hr : r.header.type = k.type := hcarries.type.trans htype
  have hcount := hinv.counted k
  rw [hκ] at hhad
  -- nothing the proxy holds is newer than the current generation
  have hle : ∀ q ∈ held s.proxy κ, q.1 ≤ (updateOf sm).generation := by
    rintro ⟨g, m'⟩ hq
    obtain ⟨hκ', k', v', htype', -, rfl, hgave⟩ := hinv.honest _ hq
    obtain rfl := kind_of_streamKey (hκ'.trans hκ.symm) htype' hr
    have hbound := hgave.generation_le
    show (k'.stateMeta v').generation.toNat ≤ sm.generation.toNat
    rw [hgen]
    omega
  have hfull : (updateOf sm).base = none := if_neg hsnap
  obtain ⟨y, hoffer, hy⟩ := offer_full (r := held s.proxy κ) (x := messageOf r) hfull hle
  -- it is what the record carries or what was held already, and both are honest
  have hheld : held (s.proxy.ingest l r nowMs).2 κ = some (sm.generation.toNat, y) := by
    rw [← hκ, held_ingest_of_key hadm (by rw [hr]; exact k.stateType_type) hsm
      (by rw [hκ]; exact hinv.decodes), hκ]
    exact hoffer
  have hhonest : Had s κ sm.generation.toNat y := by
    rcases hy with rfl | hy
    · exact hhad
    · exact hinv.honest (sm.generation.toNat, y) hy
  obtain ⟨hκy, k', v, htypey, hdecode, hg, hgave⟩ := hhonest
  obtain rfl := kind_of_streamKey (hκy.trans hκ.symm) htypey hr
  refine ⟨y, v, (held_eq_some_iff.mp hheld).1, htypey, hdecode, ?_⟩
  have hgenv : (k'.stateMeta v).generation = (s.publisher.streams k').generation := by
    rw [← hgen]
    exact UInt32.toNat_inj.mp hg
  have hhas : (s.publisher.streams k').has = true := by
    obtain ⟨i, value, hi, -⟩ := hgave
    refine (hinv.started k').mpr fun hnil => ?_
    rw [hnil] at hi
    cases hi
  obtain ⟨hcur, hgcur⟩ := hinv.current k' hhas
  exact gave_unique hgave hcur (hgenv.trans hgcur.symm)

/-- **Publisher and proxy agree**: in every run, however messages are lost, duplicated, delayed and
reordered, what the proxy caches of a stream decodes to what the publisher was given at that
generation, and a snapshot of the current generation brings the proxy up to date. -/
theorem agreement {sourceId destinationId : UInt16} {period : UInt64} {c : ℕ} {ops : List SystemOp}
    (h : Along systemStep (Faithful κ) (.init sourceId destinationId period c) ops) :
    Agrees κ (run systemStep (.init sourceId destinationId period c) ops) ∧
      Recovers κ (run systemStep (.init sourceId destinationId period c) ops) := by
  have hinv : Inv κ (run systemStep (.init sourceId destinationId period c) ops) :=
    run_invariant inv_systemStep (inv_init κ _ _ _ _) h
  exact ⟨agrees_of_inv hinv, recovers_of_inv hinv⟩

/-- The record that a session opens for a message, if it adds nothing to the header. -/
def relay (m : NativeMessage) : OpenRecord := ⟨m.header, m.payload, m.length⟩

theorem carries_relay (m : NativeMessage) : Carries (relay m) m := ⟨rfl, rfl, rfl, rfl, rfl⟩

/-- Two positions are published, the first as a difference and the second as a snapshot. -/
def twoPositions : System :=
  run systemStep (.init 2 1 0 4) [.proxy (.addLink 1 (testSession 1 2)),
    .update .position ⟨{ resourceId := 42, sourceId := 2 }, 473977400, 85455900, 500000⟩ 0,
    .poll 0 3,
    .update .position ⟨{ resourceId := 42, sourceId := 2 }, 473977410, 85455900, 500000⟩ 3000,
    .poll 10000 3]

/-- The first is lost, and the second brings the proxy up to date. -/
theorem agreement_after_loss : ∃ r, Brings twoPositions .position 1 r ∧
    UpToDate twoPositions .position (packKey .position 2 42)
      (twoPositions.proxy.ingest 1 r 0).2 := by
  have hsent : (twoPositions.sent[1]?.map fun m => (m.header.type, streamKey (messageOf (relay m)),
      metaOf (messageOf (relay m)))) =
      some (.position, packKey .position 2 42, some ⟨42, 2, 0, 2, 1, 0⟩) := by decide +kernel
  obtain ⟨m, hm, heq⟩ := Option.map_eq_some_iff.mp hsent
  obtain ⟨htype, hkey, hmeta⟩ : m.header.type = .position ∧
      streamKey (messageOf (relay m)) = packKey .position 2 42 ∧
      metaOf (messageOf (relay m)) = some ⟨42, 2, 0, 2, 1, 0⟩ := by simpa using heq
  have hlink : (twoPositions.proxy.links.lookup 1).map
      (fun link => (link.session.keys.peerId, link.session.keys.localId)) = some (2, 1) := by
    decide +kernel
  obtain ⟨link, hl, hkeys⟩ := Option.map_eq_some_iff.mp hlink
  obtain ⟨hpeer, hlocal⟩ := Prod.mk.inj hkeys
  have hbrings : Brings twoPositions .position 1 (relay m) := by
    refine ⟨⟨link, hl, ?_, ?_⟩, ⟨m, List.mem_of_getElem? hm, htype, carries_relay m⟩,
      _, hmeta, by decide, by decide +kernel⟩
    · rw [hpeer]
      decide +kernel
    · rw [hlocal]
      decide +kernel
  refine ⟨relay m, hbrings, (agreement ?_).2 .position 1 (relay m) 0 hbrings hkey⟩
  refine ⟨?_, ?_, ?_, ?_, ?_, trivial⟩
  all_goals
    refine ⟨fun k => by cases k <;> decide +kernel, ?_⟩
    rintro l r nowMs ⟨⟩

end NewMavlink.State.Agreement
