import NewMavlink.State.Agreement

/-! # Gaps without a loss

The messages of a publisher are ingested once, in order and without loss, and the question is
whether the proxy sees a gap all the same. The state keeps what was published, what of it is still
on its way, and how often each stream was updated since its last message.

A difference names the generation before the last update as its base, whether or not that
generation was published, so two updates between two polls break the chain (`false_gap`).

* `counted_feedStep`: the generation and the base of a stream, in terms of the last message and of
  the updates since.
* `chained_poll_iff`: when what a poll publishes continues what was published before.
* `inOrder_feedStep`: while no difference stands for more than one update, what is on its way
  continues what the proxy holds.
* `no_false_gaps`: so in a run the messages are chained exactly if no difference stands for more
  than one update, and then the proxy refuses none of them and asks for nothing. -/

namespace NewMavlink.State.Gaps

open NewMavlink.Lib.Buffer NewMavlink.Lib.Tables NewMavlink.Lib.Replica NewMavlink.Lib.Runs
open NewMavlink.Wire NewMavlink.State.Messages NewMavlink.State.Publisher
open NewMavlink.State.Agreement NewMavlink.Record.SealOpen
open NewMavlink.Proxy.Queue hiding streamKey
open NewMavlink.Proxy.Links NewMavlink.Proxy.Links.NativeProxy NewMavlink.Proxy.Ingest

/-- What messages say of the stream of a kind, as updates of it. -/
def updatesOf (k : Kind) (ms : List NativeMessage) : List (Update ℕ) :=
  ms.filterMap fun m => if m.header.type = k.type then (metaOf m).map updateOf else none

/-- A publisher and a proxy, with what was published, what is on its way, and the updates of each
stream since its last message. -/
structure Feed where
  publisher : StatePublisher
  proxy : NativeProxy
  published : List NativeMessage := []
  inFlight : List NativeMessage := []
  unpublished : Kind → ℕ := fun _ => 0

/-- A call on the publisher, the delivery of what is in flight, or another call on the proxy. -/
inductive FeedOp where
  | update (k : Kind) (value : k.Value) (nowMs : UInt64)
  | poll (nowMs : UInt64) (capacity : ℕ)
  | deliver (ingressLink : UInt16) (opened : OpenRecord) (nowMs : UInt64)
  | proxy (op : ProxyOp)

namespace Feed

/-- A new publisher and a new proxy, with nothing in flight. -/
def init (sourceId destinationId : UInt16) (snapshotPeriodMs : UInt64) (queueCapacity : ℕ) :
    Feed where
  publisher := .init sourceId destinationId snapshotPeriodMs
  proxy := .init queueCapacity

/-- The generation of the last message of a stream. -/
def last (s : Feed) (k : Kind) : Option ℕ := tip none (updatesOf k s.published)

/-- What a poll publishes. -/
def polled (s : Feed) (nowMs : UInt64) (capacity : ℕ) : List NativeMessage :=
  (s.publisher.poll nowMs capacity).1.map PublishedMessage.message

end Feed

/-- The feed after a call. -/
def feedStep (s : Feed) : FeedOp → Feed
  | .update k value nowMs =>
    let (changed, publisher) := s.publisher.update k value nowMs
    { s with
      publisher
      unpublished := if changed then Function.update s.unpublished k (s.unpublished k + 1)
        else s.unpublished }
  | .poll nowMs capacity =>
    let output := s.polled nowMs capacity
    { s with
      publisher := (s.publisher.poll nowMs capacity).2
      published := s.published ++ output
      inFlight := s.inFlight ++ output
      unpublished := fun k => if updatesOf k output = [] then s.unpublished k else 0 }
  | .deliver ingressLink opened nowMs =>
    { s with
      proxy := (s.proxy.ingest ingressLink opened nowMs).2
      inFlight := s.inFlight.tail }
  | .proxy op => { s with proxy := proxyStep s.proxy op }

/-- What the environment guarantees: the values can be encoded and each kind stays in one stream,
polls have room for all messages, every message is ingested in its turn on the publisher's link, and
nothing else is ingested into these streams. -/
def Fed (resource : Kind → UInt32) (source : Kind → UInt16) (s : Feed) : FeedOp → Prop
  | .update k value _ => (encodePayload k (s.publisher.stored k value)).isSome = true ∧
      (k.stateMeta (s.publisher.stored k value)).resourceId = resource k ∧
      (k.stateMeta (s.publisher.stored k value)).sourceId = source k
  | .poll _ capacity => 3 ≤ capacity
  | .deliver l r _ => (∃ m rest, s.inFlight = m :: rest ∧ Carries r m) ∧
      PublisherLink s.publisher s.proxy l
  | .proxy op => ∀ l r nowMs, op = .ingest l r nowMs →
      ∀ k : Kind, streamKey (messageOf r) ≠ packKey k.type (source k) (resource k)

/-- What is published of each stream continues what was published of it before: each difference
names the generation of the message before it as its base. -/
def NamesPrevious (s : Feed) : FeedOp → Prop
  | .poll nowMs capacity => ∀ k, Chained (s.last k) (updatesOf k (s.polled nowMs capacity))
  | _ => True

/-- No difference stands for more than one update: when one is published, its stream was updated
once since the last message, if there was one. The last generation is an exception, since the
number is not changed any more. -/
def OneUpdate (s : Feed) : FeedOp → Prop
  | .poll nowMs _ => s.publisher.due nowMs = false →
      ∀ k, ∀ g ∈ s.last k, s.unpublished k ≤ 1 ∨ g = 2 ^ 32 - 1
  | _ => True

/-- Ingest accepts the message and does not ask for anything. -/
def NoFalseGap (s : Feed) : FeedOp → Prop
  | .deliver l r nowMs => (s.proxy.ingest l r nowMs).1 = true ∧
      (s.proxy.ingest l r nowMs).2.resync = s.proxy.resync
  | _ => True

/-! ### What a poll publishes -/

variable {resource : Kind → UInt32} {source : Kind → UInt16} {s : Feed} {k : Kind}
  {value : k.Value} {nowMs : UInt64} {capacity : ℕ} {snapshot : Bool} {op : FeedOp}

@[simp] theorem updatesOf_nil (k : Kind) : updatesOf k [] = [] := rfl

theorem updatesOf_append (k : Kind) (ms ms' : List NativeMessage) :
    updatesOf k (ms ++ ms') = updatesOf k ms ++ updatesOf k ms' := List.filterMap_append

theorem updatesOf_built {p : StatePublisher} {f : Kind → Option PublishedMessage}
    (hf : ∀ k x, f k = some x → p.build k snapshot = some x) (k : Kind) :
    updatesOf k ((Kind.all.filterMap f).map PublishedMessage.message) =
      if (f k).isSome then [updateOf (k.stateMeta (p.outgoing k snapshot))] else [] := by
  have hone : ∀ k', ((f k').bind fun x => if x.message.header.type = k.type then
      (metaOf x.message).map updateOf else none) = if k' = k then
        (if (f k).isSome then some (updateOf (k.stateMeta (p.outgoing k snapshot))) else none)
      else none := by
    intro k'
    cases hx : f k' with
    | none =>
      by_cases hk : k' = k
      · subst hk
        simp [hx]
      · simp [hk]
    | some x =>
      have haddr := addressed_of_build (hf k' x hx)
      have htype := haddr.type
      have hmeta := metaOf_of_decode haddr.decodes
      by_cases hk : k' = k
      · subst hk
        simp [hx, htype, hmeta]
      · have hne : k'.type ≠ k.type := fun h => hk (Kind.type_injective h)
        simp [hk, htype, hne]
  unfold updatesOf
  rw [List.filterMap_map, List.filterMap_filterMap]
  refine (List.filterMap_congr fun k' _ => hone k').trans ?_
  cases k <;> split_ifs <;> rfl

/-- What the publisher's state of a stream says, in terms of the last message of the stream and of
the updates since. -/
structure Counted (resource : Kind → UInt32) (source : Kind → UInt16) (s : Feed) (k : Kind) :
    Prop where
  has : (s.publisher.streams k).has = true ↔ (s.publisher.streams k).generation ≠ 0
  dirty : (s.publisher.streams k).dirty = true ↔ 0 < s.unpublished k
  last_le : (s.last k).getD 0 ≤ 2 ^ 32 - 1
  generation : (s.publisher.streams k).generation.toNat =
    min ((s.last k).getD 0 + s.unpublished k) (2 ^ 32 - 1)
  base : 0 < s.unpublished k → (k.stateMeta (s.publisher.streams k).value).baseGeneration.toNat =
    min ((s.last k).getD 0 + s.unpublished k - 1) (2 ^ 32 - 1)
  value : (s.publisher.streams k).has = true → ∃ m, k.stateMeta (s.publisher.streams k).value = m ∧
    m.Valid ∧ m.generation = (s.publisher.streams k).generation ∧
    m.resourceId = resource k ∧ m.sourceId = source k ∧ k.Plausible (s.publisher.streams k).value

theorem Counted.build_isSome (h : Counted resource source s k) (snapshot : Bool) :
    (s.publisher.build k snapshot).isSome = (s.publisher.streams k).has := by
  rw [Bool.eq_iff_iff, StatePublisher.build_isSome_iff]
  refine ⟨fun hb => hb.1, fun hhas => ⟨hhas, ?_⟩⟩
  obtain ⟨m, rfl, hvalid, -, -, -, hplausible⟩ := h.value hhas
  unfold StatePublisher.outgoing
  refine ⟨?_, (k.plausible_withMeta _ _).mpr hplausible⟩
  rw [k.stateMeta_withMeta]
  have hsnapshot : (if snapshot then (1 : UInt8) else 0) ≤ 1 := by cases snapshot <;> decide
  exact ⟨hvalid.resource, hvalid.generation, hvalid.source, hsnapshot, hvalid.reserved⟩

theorem Counted.has_of_dirty (h : Counted resource source s k)
    (hd : (s.publisher.streams k).dirty = true) : (s.publisher.streams k).has = true := by
  have hpos := h.dirty.mp hd
  have hgen := h.generation
  refine h.has.mpr fun hzero => ?_
  rw [hzero, UInt32.toNat_zero] at hgen
  omega

theorem Counted.pending_isSome (h : Counted resource source s k) :
    (s.publisher.pending k).isSome = (s.publisher.streams k).dirty := by
  unfold StatePublisher.pending
  by_cases hd : (s.publisher.streams k).dirty = true
  · rw [if_pos hd, h.build_isSome, h.has_of_dirty hd, hd]
  · rw [if_neg hd]
    simpa using hd

/-- **What a poll with room for every message publishes of a stream.** -/
theorem Counted.updatesOf_polled (h : Counted resource source s k) (nowMs : UInt64)
    (hroom : 3 ≤ capacity) :
    updatesOf k (s.polled nowMs capacity) =
      if s.publisher.due nowMs then
        if (s.publisher.streams k).has then
          [⟨(s.publisher.streams k).generation.toNat, none⟩]
        else []
      else if (s.publisher.streams k).dirty then
        [⟨(s.publisher.streams k).generation.toNat,
          some (k.stateMeta (s.publisher.streams k).value).baseGeneration.toNat⟩]
      else [] := by
  have hup : ∀ snapshot, (s.publisher.streams k).has = true →
      updateOf (k.stateMeta (s.publisher.outgoing k snapshot)) =
        ⟨(s.publisher.streams k).generation.toNat, if snapshot then none else
          some (k.stateMeta (s.publisher.streams k).value).baseGeneration.toNat⟩ := by
    intro snapshot hhas
    obtain ⟨m, rfl, -, hgen, -⟩ := h.value hhas
    rw [← hgen]
    cases snapshot <;> simp [StatePublisher.outgoing, updateOf]
  unfold Feed.polled
  rw [(s.publisher.poll_of_room nowMs hroom).1]
  by_cases hdue : s.publisher.due nowMs = true
  · rw [if_pos hdue, if_pos hdue, updatesOf_built (fun _ _ hb => hb), h.build_isSome]
    by_cases hhas : (s.publisher.streams k).has = true
    · rw [if_pos hhas, if_pos hhas, hup true hhas]
      rfl
    · rw [if_neg hhas, if_neg hhas]
  · have hpending : ∀ k x, s.publisher.pending k = some x → s.publisher.build k false = some x := by
      intro k x hx
      unfold StatePublisher.pending at hx
      split_ifs at hx
      exact hx
    rw [if_neg hdue, if_neg hdue, updatesOf_built hpending, h.pending_isSome]
    by_cases hd : (s.publisher.streams k).dirty = true
    · rw [if_pos hd, if_pos hd, hup false (h.has_of_dirty hd)]
      rfl
    · rw [if_neg hd, if_neg hd]

/-! ### Steps -/

theorem counted_init (resource : Kind → UInt32) (source : Kind → UInt16)
    (sourceId destinationId : UInt16) (period : UInt64) (c : ℕ) (k : Kind) :
    Counted resource source (.init sourceId destinationId period c) k where
  has := by simp [Feed.init, StatePublisher.init]
  dirty := by simp [Feed.init, StatePublisher.init]
  last_le := by simp [Feed.init, Feed.last]
  generation := rfl
  base h := by cases h
  value h := by cases h

theorem Counted.of_same {s' : Feed} (h : Counted resource source s k)
    (hstream : s'.publisher.streams k = s.publisher.streams k) (hlast : s'.last k = s.last k)
    (hun : s'.unpublished k = s.unpublished k) : Counted resource source s' k where
  has := by rw [hstream]; exact h.has
  dirty := by rw [hstream, hun]; exact h.dirty
  last_le := by rw [hlast]; exact h.last_le
  generation := by rw [hstream, hlast, hun]; exact h.generation
  base := by rw [hstream, hlast, hun]; exact h.base
  value := by rw [hstream]; exact h.value

theorem feedStep_update_of_not_changed (hc : s.publisher.changed k value = false) :
    feedStep s (.update k value nowMs) = s := by
  have hpub := s.publisher.update_of_not_changed nowMs hc
  simp only [feedStep, StatePublisher.fst_update, hc, hpub]
  rfl

theorem Counted.base_stored (h : Counted resource source s k) (value : k.Value) :
    (k.stateMeta (s.publisher.stored k value)).baseGeneration =
      (s.publisher.streams k).generation := by
  unfold StatePublisher.stored
  rw [k.stateMeta_withMeta]
  by_cases hhas : (s.publisher.streams k).has = true
  · exact if_pos hhas
  · have hzero := not_not.mp (mt h.has.mpr hhas)
    rw [if_neg hhas, hzero]

theorem Counted.update (h : Counted resource source s k)
    (hfed : Fed resource source s (.update k value nowMs))
    (hc : s.publisher.changed k value = true) :
    Counted resource source (feedStep s (.update k value nowMs)) k := by
  obtain ⟨hencodable, hresource, hsource⟩ := hfed
  obtain ⟨hvalid, hplausible⟩ := StatePublisher.encodePayload_isSome_iff.mp hencodable
  have hgen := h.generation
  have hnext := toNat_nextGeneration (s.publisher.streams k).generation
  have hstream : (feedStep s (.update k value nowMs)).publisher.streams k = {
      has := true
      value := s.publisher.stored k value
      generation := nextGeneration (s.publisher.streams k).generation
      dirty := true } := by
    rw [show (feedStep s (.update k value nowMs)).publisher.streams = _ from
      StatePublisher.streams_update hc, Function.update_self]
  have hun : (feedStep s (.update k value nowMs)).unpublished k = s.unpublished k + 1 := by
    simp only [feedStep, StatePublisher.fst_update, hc, if_true, Function.update_self]
  have hlast : (feedStep s (.update k value nowMs)).last k = s.last k := rfl
  constructor
  case has =>
    rw [hstream]
    refine iff_of_true rfl fun hzero => ?_
    have hnat : (nextGeneration (s.publisher.streams k).generation).toNat = 0 :=
      congrArg UInt32.toNat hzero
    omega
  case dirty =>
    rw [hstream, hun]
    exact iff_of_true rfl (Nat.succ_pos _)
  case last_le =>
    rw [hlast]
    exact h.last_le
  case generation =>
    rw [hstream, hlast, hun]
    dsimp only
    rw [hnext, hgen]
    omega
  case base =>
    intro _
    rw [hstream, hlast, hun]
    dsimp only
    rw [h.base_stored, hgen]
    omega
  case value =>
    intro _
    rw [hstream]
    exact ⟨_, rfl, hvalid, generation_stored _, hresource, hsource, hplausible⟩

theorem counted_update (h : ∀ k, Counted resource source s k)
    (hfed : Fed resource source s (.update k value nowMs)) (k' : Kind) :
    Counted resource source (feedStep s (.update k value nowMs)) k' := by
  by_cases hc : s.publisher.changed k value = true
  · by_cases hk : k' = k
    · subst hk
      exact (h k').update hfed hc
    · refine (h k').of_same ?_ rfl ?_
      · rw [show (feedStep s (.update k value nowMs)).publisher.streams = _ from
          StatePublisher.streams_update hc, Function.update_of_ne hk]
      · simp only [feedStep, StatePublisher.fst_update, hc, if_true, Function.update_of_ne hk]
  · rw [feedStep_update_of_not_changed (by simpa using hc)]
    exact h k'

theorem last_poll (s : Feed) (nowMs : UInt64) (capacity : ℕ) (k : Kind) :
    (feedStep s (.poll nowMs capacity)).last k =
      tip (s.last k) (updatesOf k (s.polled nowMs capacity)) := by
  unfold Feed.last
  rw [← tip_append, ← updatesOf_append]
  rfl

theorem Counted.streams_poll (h : Counted resource source s k) (nowMs : UInt64)
    (hroom : 3 ≤ capacity) :
    (feedStep s (.poll nowMs capacity)).publisher.streams k =
      { s.publisher.streams k with dirty := false } := by
  have hdirty := (s.publisher.poll_of_room nowMs hroom).2 k
  have hpending := h.pending_isSome
  have hclean : ((s.publisher.poll nowMs capacity).2.streams k).dirty = false := by
    rw [hdirty]
    cases hp : s.publisher.pending k <;> simp_all
  have hstream := (s.publisher.sameState_poll nowMs capacity).2.2 k
  rw [hclean] at hstream
  exact hstream

/-- A stream of which nothing is published was not dirty, else its generation is published. -/
theorem Counted.updatesOf_polled_cases (h : Counted resource source s k) (nowMs : UInt64)
    (hroom : 3 ≤ capacity) :
    (updatesOf k (s.polled nowMs capacity) = [] ∧ (s.publisher.streams k).dirty = false) ∨
      ∃ base, updatesOf k (s.polled nowMs capacity) =
        [⟨(s.publisher.streams k).generation.toNat, base⟩] := by
  rw [h.updatesOf_polled nowMs hroom]
  have hhas := h.has_of_dirty
  split_ifs with hdue hhas' hdirty
  · exact Or.inr ⟨_, rfl⟩
  · exact Or.inl ⟨rfl, by simpa using mt hhas hhas'⟩
  · exact Or.inr ⟨_, rfl⟩
  · exact Or.inl ⟨rfl, by simpa using hdirty⟩

theorem counted_poll (h : Counted resource source s k) (hroom : 3 ≤ capacity) :
    Counted resource source (feedStep s (.poll nowMs capacity)) k := by
  have hstream := h.streams_poll nowMs hroom
  have hlast := last_poll s nowMs capacity k
  have hun : (feedStep s (.poll nowMs capacity)).unpublished k =
      if updatesOf k (s.polled nowMs capacity) = [] then s.unpublished k else 0 := rfl
  rcases h.updatesOf_polled_cases nowMs hroom with ⟨hnone, hd⟩ | ⟨base, hone⟩
  · rw [hnone] at hlast hun
    refine h.of_same ?_ hlast hun
    rw [hstream, ← hd]
  · rw [hone] at hlast hun
    rw [if_neg (List.cons_ne_nil _ _)] at hun
    rw [tip_cons, tip_nil] at hlast
    have hlt := UInt32.toNat_lt (s.publisher.streams k).generation
    constructor
    case has =>
      rw [hstream]
      exact h.has
    case dirty =>
      rw [hstream, hun]
      simp
    case last_le =>
      rw [hlast, Option.getD_some]
      exact Nat.le_pred_of_lt hlt
    case generation =>
      rw [hstream, hlast, hun, Option.getD_some]
      dsimp only
      omega
    case base =>
      rw [hun]
      intro hpos
      cases hpos
    case value =>
      rw [hstream]
      exact h.value

theorem counted_feedStep (s : Feed) (op : FeedOp) (h : ∀ k, Counted resource source s k)
    (hfed : Fed resource source s op) : ∀ k, Counted resource source (feedStep s op) k := by
  intro k
  cases op with
  | update k' value nowMs => exact counted_update h hfed k
  | poll nowMs capacity => exact counted_poll (h k) hfed
  | deliver l r nowMs => exact (h k).of_same rfl rfl rfl
  | proxy op => exact (h k).of_same rfl rfl rfl

/-- **When what a poll publishes of a stream continues what was published before**: a difference
stands for one update, or the number of the generation cannot change any more. -/
theorem chained_poll_iff (h : Counted resource source s k) (hroom : 3 ≤ capacity) :
    Chained (s.last k) (updatesOf k (s.polled nowMs capacity)) ↔
      (s.publisher.due nowMs = false →
        ∀ g ∈ s.last k, s.unpublished k ≤ 1 ∨ g = 2 ^ 32 - 1) := by
  have hgen := h.generation
  have hbase := h.base
  have hle := h.last_le
  have hdirty := h.dirty
  rw [h.updatesOf_polled nowMs hroom]
  cases hl : s.last k with
  | none =>
    split_ifs <;> simp [Chained]
  | some g =>
    rw [hl, Option.getD_some] at hgen hbase hle
    have hup : g ≤ (s.publisher.streams k).generation.toNat := by omega
    by_cases hdue : s.publisher.due nowMs = true
    · rw [if_pos hdue]
      refine iff_of_true ?_ fun hfalse => by rw [hdue] at hfalse; cases hfalse
      split_ifs
      · refine ⟨fun g' hg' => ?_, trivial⟩
        obtain rfl : g = g' := Option.some.inj hg'
        exact ⟨Update.fits_of_full rfl _, hup⟩
      · trivial
    · rw [if_neg hdue]
      have hnot : s.publisher.due nowMs = false := by simpa using hdue
      by_cases hd : (s.publisher.streams k).dirty = true
      · have hbase := hbase (hdirty.mp hd)
        have hpos := hdirty.mp hd
        rw [if_pos hd]
        constructor
        · intro hchained _ g' hg'
          obtain rfl : g = g' := Option.some.inj hg'
          have hfits := (hchained.1 g rfl).1 _ rfl
          omega
        · intro hone
          have hg := hone hnot g rfl
          refine ⟨fun g' hg' => ?_, trivial⟩
          obtain rfl : g = g' := Option.some.inj hg'
          refine ⟨fun b hb => ?_, hup⟩
          obtain rfl := Option.some.inj hb
          omega
      · have hzero : s.unpublished k = 0 := by
          by_contra hne
          exact hd (hdirty.mpr (Nat.pos_of_ne_zero hne))
        rw [if_neg hd, hzero]
        exact iff_of_true trivial fun _ _ _ => Or.inl (Nat.zero_le 1)

/-! ### Messages in order -/

/-- The key of the one stream of a kind. -/
abbrev key (resource : Kind → UInt32) (source : Kind → UInt16) (k : Kind) : UInt64 :=
  packKey k.type (source k) (resource k)

/-- The generation that the proxy holds of the stream of a kind. -/
abbrev heldGeneration (resource : Kind → UInt32) (source : Kind → UInt16) (p : NativeProxy)
    (k : Kind) : Option ℕ :=
  (held p (key resource source k)).map Prod.fst

/-- The message belongs to the one stream of its kind. -/
def OfStream (resource : Kind → UInt32) (source : Kind → UInt16) (p : StatePublisher)
    (m : NativeMessage) (k : Kind) (v : k.Value) : Prop :=
  Addressed p m k v ∧ (k.stateMeta v).resourceId = resource k ∧ (k.stateMeta v).sourceId = source k

/-- **What is on its way continues what the proxy holds**, up to the last message. -/
structure InOrder (resource : Kind → UInt32) (source : Kind → UInt16) (s : Feed) : Prop where
  counted : ∀ k, Counted resource source s k
  carried : ∀ m ∈ s.inFlight, ∃ k v, OfStream resource source s.publisher m k v
  decodes : ∀ k m, s.proxy.cache.lookup (key resource source k) = some m →
    (metaOf m).isSome = true
  chained : ∀ k, Chained (heldGeneration resource source s.proxy k) (updatesOf k s.inFlight)
  reaches : ∀ k, tip (heldGeneration resource source s.proxy k) (updatesOf k s.inFlight) = s.last k

theorem inOrder_init (resource : Kind → UInt32) (source : Kind → UInt16)
    (sourceId destinationId : UInt16) (period : UInt64) (c : ℕ) :
    InOrder resource source (.init sourceId destinationId period c) where
  counted := counted_init resource source _ _ _ _
  carried _ h := by cases h
  decodes _ _ h := by cases h
  chained _ := trivial
  reaches _ := rfl

theorem OfStream.of_ids {p p' : StatePublisher} {m : NativeMessage} {v : k.Value}
    (h : OfStream resource source p m k v) (hs : p'.sourceId = p.sourceId)
    (hd : p'.destinationId = p.destinationId) : OfStream resource source p' m k v := by
  obtain ⟨haddr, hids⟩ := h
  exact ⟨⟨haddr.source.trans hs.symm, haddr.destination.trans hd.symm, haddr.type, haddr.length,
    haddr.decodes⟩, hids⟩

theorem inOrder_update (h : InOrder resource source s)
    (hfed : Fed resource source s (.update k value nowMs)) :
    InOrder resource source (feedStep s (.update k value nowMs)) where
  counted := counted_update h.counted hfed
  carried m hm := by
    obtain ⟨k', v, hv⟩ := h.carried m hm
    exact ⟨k', v, hv.of_ids StatePublisher.sourceId_update StatePublisher.destinationId_update⟩
  decodes := h.decodes
  chained := h.chained
  reaches := h.reaches

theorem ofStream_polled (h : ∀ k, Counted resource source s k) {m : NativeMessage}
    (hm : m ∈ s.polled nowMs capacity) : ∃ k v, OfStream resource source s.publisher m k v := by
  obtain ⟨x, hx, rfl⟩ := List.mem_map.mp hm
  obtain ⟨k, snapshot, hb⟩ := StatePublisher.mem_poll hx
  have hhas := (StatePublisher.build_eq_some hb).2.2.1
  obtain ⟨m, rfl, -, -, hresource, hsource, -⟩ := (h k).value hhas
  refine ⟨k, _, addressed_of_build hb, ?_, ?_⟩
  · rw [StatePublisher.outgoing, k.stateMeta_withMeta]
    exact hresource
  · rw [StatePublisher.outgoing, k.stateMeta_withMeta]
    exact hsource

theorem inOrder_poll (h : InOrder resource source s) (hroom : 3 ≤ capacity)
    (hone : OneUpdate s (.poll nowMs capacity)) :
    InOrder resource source (feedStep s (.poll nowMs capacity)) where
  counted k := counted_poll (h.counted k) hroom
  carried m hm := by
    obtain ⟨hs, hd, -⟩ := s.publisher.sameState_poll nowMs capacity
    rcases List.mem_append.mp hm with hm | hm
    · obtain ⟨k, v, hv⟩ := h.carried m hm
      exact ⟨k, v, hv.of_ids hs hd⟩
    · obtain ⟨k, v, hv⟩ := ofStream_polled h.counted hm
      exact ⟨k, v, hv.of_ids hs hd⟩
  decodes := h.decodes
  chained k := by
    have hnext := (chained_poll_iff (h.counted k) hroom).mpr fun hdue => hone hdue k
    show Chained (heldGeneration resource source s.proxy k)
      (updatesOf k (s.inFlight ++ s.polled nowMs capacity))
    rw [updatesOf_append]
    refine chained_append (h.chained k) ?_
    rw [h.reaches k]
    exact hnext
  reaches k := by
    show tip (heldGeneration resource source s.proxy k)
      (updatesOf k (s.inFlight ++ s.polled nowMs capacity)) = _
    rw [updatesOf_append, tip_append, last_poll, h.reaches k]

theorem inOrder_proxy {op : ProxyOp} (h : InOrder resource source s)
    (hfed : Fed resource source s (.proxy op)) :
    InOrder resource source (feedStep s (.proxy op)) := by
  have hlook : ∀ k, (proxyStep s.proxy op).cache.lookup (key resource source k) =
      s.proxy.cache.lookup (key resource source k) := by
    intro k
    rcases lookup_cache_proxyStep s.proxy op (key resource source k) with heq | ⟨l, r, nowMs, hop,
      -, hkey, -⟩
    · exact heq
    · exact absurd hkey.symm (hfed l r nowMs hop k)
  have hheld : ∀ k, heldGeneration resource source (proxyStep s.proxy op) k =
      heldGeneration resource source s.proxy k := by
    intro k
    unfold heldGeneration held
    rw [hlook k]
  refine ⟨fun k => (h.counted k).of_same rfl rfl rfl, h.carried, fun k m hm => ?_, fun k => ?_,
    fun k => ?_⟩
  · exact h.decodes k m ((hlook k).symm.trans hm)
  · show Chained (heldGeneration resource source (proxyStep s.proxy op) k) _
    rw [hheld k]
    exact h.chained k
  · show tip (heldGeneration resource source (proxyStep s.proxy op) k) _ = _
    rw [hheld k]
    exact h.reaches k

/-! ### Deliveries -/

/-- The record of the first message on its way, as the proxy sees it. -/
structure Delivers (resource : Kind → UInt32) (source : Kind → UInt16) (s : Feed) (l : UInt16)
    (r : OpenRecord) (k : Kind) (sm : StateMeta) : Prop where
  admitted : admits s.proxy l r = true
  state : stateType r.header.type = true
  key_eq : streamKey (messageOf r) = key resource source k
  decodes : metaOf (messageOf r) = some sm
  first : updatesOf k s.inFlight = updateOf sm :: updatesOf k s.inFlight.tail
  others : ∀ k', k' ≠ k → updatesOf k' s.inFlight = updatesOf k' s.inFlight.tail

theorem InOrder.delivers {l : UInt16} {r : OpenRecord} (h : InOrder resource source s)
    (hfed : Fed resource source s (.deliver l r nowMs)) :
    ∃ k sm, Delivers resource source s l r k sm := by
  obtain ⟨⟨m, rest, hm, hcarries⟩, hlink⟩ := hfed
  obtain ⟨k, v, haddr, hresource, hsource⟩ := h.carried m (by rw [hm]; exact List.mem_cons_self)
  have hmeta := metaOf_of_decode (hcarries.decode_messageOf haddr)
  have hr : r.header.type = k.type := hcarries.type.trans haddr.type
  refine ⟨k, k.stateMeta v, hcarries.admits haddr hlink, ?_, ?_, hmeta, ?_, fun k' hk => ?_⟩
  · rw [hr]
    exact k.stateType_type
  · have hkey := streamKey_of_metaOf hmeta
    rw [header_messageOf, hr, hresource, hsource] at hkey
    exact hkey
  · rw [hm, List.tail_cons]
    exact List.filterMap_cons_some (by
      rw [if_pos haddr.type, metaOf_of_decode haddr.decodes]
      rfl)
  · have hne : m.header.type ≠ k'.type := by
      rw [haddr.type]
      exact fun he => hk (Kind.type_injective he.symm)
    rw [hm, List.tail_cons]
    exact List.filterMap_cons_none (if_neg hne)

variable {l : UInt16} {r : OpenRecord} {sm : StateMeta}

/-- The message finds its base in the cache. -/
theorem Delivers.verdict_ne_gap (hd : Delivers resource source s l r k sm)
    (h : InOrder resource source s) :
    verdict (heldGeneration resource source s.proxy k) (updateOf sm) ≠ .gap := by
  have hchained := h.chained k
  rw [hd.first] at hchained
  exact verdict_ne_gap_of_chained hchained

/-- **A message in its turn leaves no gap.** -/
theorem Delivers.noFalseGap (hd : Delivers resource source s l r k sm)
    (h : InOrder resource source s) : NoFalseGap s (.deliver l r nowMs) := by
  have hv := hd.verdict_ne_gap h
  have hdisp := disposition_eq_verdict hd.admitted hd.state hd.decodes
    (by rw [hd.key_eq]; exact h.decodes k)
  rw [hd.key_eq] at hdisp
  show (s.proxy.ingest l r nowMs).1 = true ∧
    (s.proxy.ingest l r nowMs).2.resync = s.proxy.resync
  rw [ingest_eq, hdisp]
  cases hverdict : verdict (heldGeneration resource source s.proxy k) (updateOf sm) with
  | gap => exact absurd hverdict hv
  | old => exact ⟨rfl, rfl⟩
  | stored => exact ⟨rfl, rfl⟩

theorem Delivers.heldGeneration_ingest (hd : Delivers resource source s l r k sm) (nowMs : UInt64)
    (h : InOrder resource source s) (k' : Kind) :
    heldGeneration resource source (s.proxy.ingest l r nowMs).2 k' =
      if k' = k then some (updateOf sm).generation
      else heldGeneration resource source s.proxy k' := by
  by_cases hk : k' = k
  · subst hk
    have hheld : held (s.proxy.ingest l r nowMs).2 (streamKey (messageOf r)) = _ :=
      held_ingest_of_key hd.admitted hd.state hd.decodes (by rw [hd.key_eq]; exact h.decodes k')
    have hchained := h.chained k'
    rw [hd.first] at hchained
    rw [hd.key_eq] at hheld
    rw [if_pos rfl]
    unfold heldGeneration
    rw [hheld]
    exact offer_fst_of_chained hchained
  · have hne : key resource source k' ≠ streamKey (messageOf r) := by
      rw [hd.key_eq]
      exact fun he => hk (Kind.type_injective (packKey_eq_iff.mp he).1)
    have hlook := lookup_cache_ingest s.proxy l r nowMs (key resource source k')
    rw [if_neg fun hs => hne hs.2] at hlook
    rw [if_neg hk]
    unfold heldGeneration held
    rw [hlook]

theorem inOrder_deliver (h : InOrder resource source s)
    (hfed : Fed resource source s (.deliver l r nowMs)) :
    InOrder resource source (feedStep s (.deliver l r nowMs)) := by
  obtain ⟨k, sm, hd⟩ := h.delivers hfed
  refine ⟨fun k' => (h.counted k').of_same rfl rfl rfl,
    fun m hm => h.carried m (List.mem_of_mem_tail hm), fun k' m hm => ?_, fun k' => ?_,
    fun k' => ?_⟩
  · have hlook := lookup_cache_ingest s.proxy l r nowMs (key resource source k')
    have hm' : (s.proxy.ingest l r nowMs).2.cache.lookup (key resource source k') = some m := hm
    rw [hlook] at hm'
    split_ifs at hm' with hstored
    · obtain rfl := Option.some.inj hm'
      rw [hd.decodes]
      rfl
    · exact h.decodes k' m hm'
  · have hheld := hd.heldGeneration_ingest nowMs h k'
    have hchained := h.chained k'
    show Chained (heldGeneration resource source (s.proxy.ingest l r nowMs).2 k')
      (updatesOf k' s.inFlight.tail)
    rw [hheld]
    by_cases hk : k' = k
    · subst hk
      rw [hd.first] at hchained
      rw [if_pos rfl]
      exact hchained.2
    · rw [if_neg hk, ← hd.others k' hk]
      exact hchained
  · have hheld := hd.heldGeneration_ingest nowMs h k'
    have hreaches := h.reaches k'
    show tip (heldGeneration resource source (s.proxy.ingest l r nowMs).2 k')
      (updatesOf k' s.inFlight.tail) = s.last k'
    rw [hheld]
    by_cases hk : k' = k
    · subst hk
      rw [hd.first, tip_cons] at hreaches
      rw [if_pos rfl]
      exact hreaches
    · rw [if_neg hk, ← hd.others k' hk]
      exact hreaches

theorem inOrder_feedStep (s : Feed) (op : FeedOp) (h : InOrder resource source s)
    (hop : Fed resource source s op ∧ OneUpdate s op) :
    InOrder resource source (feedStep s op) := by
  cases op with
  | update k value nowMs => exact inOrder_update h hop.1
  | poll nowMs capacity => exact inOrder_poll h hop.1 hop.2
  | deliver l r nowMs => exact inOrder_deliver h hop.1
  | proxy op => exact inOrder_proxy h hop.1

theorem noFalseGap_of_inOrder (s : Feed) (op : FeedOp) (h : InOrder resource source s)
    (hop : Fed resource source s op ∧ OneUpdate s op) : NoFalseGap s op := by
  cases op with
  | deliver l r nowMs =>
    obtain ⟨k, sm, hd⟩ := h.delivers hop.1
    exact hd.noFalseGap h
  | update k value nowMs => trivial
  | poll nowMs capacity => trivial
  | proxy op => trivial

/-- **When there are no false gaps**, in every run: what is published of each stream is chained
exactly if no difference stands for more than one update, and then ingest accepts every message and
asks for nothing. -/
theorem no_false_gaps {sourceId destinationId : UInt16} {period : UInt64} {c : ℕ}
    {ops : List FeedOp}
    (h : Along feedStep (Fed resource source) (.init sourceId destinationId period c) ops) :
    (Along feedStep NamesPrevious (.init sourceId destinationId period c) ops ↔
      Along feedStep OneUpdate (.init sourceId destinationId period c) ops) ∧
    (Along feedStep OneUpdate (.init sourceId destinationId period c) ops →
      Along feedStep NoFalseGap (.init sourceId destinationId period c) ops) := by
  refine ⟨along_congr ?_, fun hone => ?_⟩
  · refine along_of_invariant (fun s op hs hop => counted_feedStep s op hs hop)
      (fun s op hs hop => ?_) (counted_init resource source _ _ _ _) h
    cases op with
    | poll nowMs capacity =>
      refine (forall_congr' fun k => chained_poll_iff (hs k) hop).trans ?_
      exact ⟨fun hall hdue k => hall k hdue, fun hall k hdue => hall hdue k⟩
    | update k value nowMs => exact Iff.rfl
    | deliver l r nowMs => exact Iff.rfl
    | proxy op => exact Iff.rfl
  · exact along_of_invariant inOrder_feedStep noFalseGap_of_inOrder
      (inOrder_init resource source _ _ _ _) (along_and h hone)

/-! ### Runs of one position -/

/-- The position of `publisher_test.cpp`, moved. -/
def positionAt (latitudeE7 : Int32) : Position :=
  ⟨{ resourceId := 42, sourceId := 2 }, latitudeE7, 85455900, 500000⟩

/-- The first message on its way is delivered. -/
def deliverFirst (s : Feed) : FeedOp := .deliver 1 (relay (s.inFlight.headD {})) 0

theorem fed_deliverFirst (hm : s.inFlight.isEmpty = false)
    (hl : (s.proxy.links.lookup 1).map (fun link =>
      (link.session.keys.peerId, link.session.keys.localId)) =
        some (s.publisher.sourceId, s.publisher.destinationId)) :
    Fed resource source s (deliverFirst s) := by
  obtain ⟨link, hlink, hids⟩ := Option.map_eq_some_iff.mp hl
  obtain ⟨hpeer, hlocal⟩ := Prod.mk.inj hids
  refine ⟨?_, link, hlink, hpeer, hlocal⟩
  cases hs : s.inFlight with
  | nil => simp [hs] at hm
  | cons m rest => exact ⟨m, rest, rfl, carries_relay m⟩

/-- A first position is published. -/
def firstPosition : List FeedOp := [.proxy (.addLink 1 (testSession 1 2)),
  .update .position (positionAt 473977400) 0, .poll 0 3]

/-- The proxy holds it. -/
def fed : Feed :=
  let s := run feedStep (.init 2 1 0 4) firstPosition
  feedStep s (deliverFirst s)

/-- The ops up to there, and then these. -/
def opsThen (ops : List FeedOp) : List FeedOp :=
  firstPosition ++ deliverFirst (run feedStep (.init 2 1 0 4) firstPosition) ::
    (ops ++ [deliverFirst (run feedStep fed ops)])

theorem along_opsThen {P : Feed → FeedOp → Prop} {ops : List FeedOp} :
    Along feedStep P (.init 2 1 0 4) (opsThen ops) ↔
      Along feedStep P (.init 2 1 0 4) firstPosition ∧
      P (run feedStep (.init 2 1 0 4) firstPosition)
        (deliverFirst (run feedStep (.init 2 1 0 4) firstPosition)) ∧
      Along feedStep P fed ops ∧
      P (run feedStep fed ops) (deliverFirst (run feedStep fed ops)) := by
  unfold opsThen
  rw [along_append, along_cons, along_append]
  exact and_congr Iff.rfl (and_congr Iff.rfl (and_congr Iff.rfl (and_iff_left trivial)))

theorem fed_firstPosition :
    Along feedStep (Fed (fun _ => 42) fun _ => 2) (.init 2 1 0 4) firstPosition := by
  refine ⟨?_, ⟨?_, ?_, ?_⟩, le_rfl, trivial⟩
  · rintro l r nowMs ⟨⟩
  all_goals decide +kernel

/-- One update between two polls leaves no gap. -/
theorem no_false_gaps_one : Along feedStep NoFalseGap (.init 2 1 0 4)
    (opsThen [.update .position (positionAt 473977410) 3000, .poll 3000 3]) := by
  have hfed : Along feedStep (Fed (fun _ => 42) fun _ => 2) (.init 2 1 0 4)
      (opsThen [.update .position (positionAt 473977410) 3000, .poll 3000 3]) := by
    refine along_opsThen.mpr ⟨fed_firstPosition,
      fed_deliverFirst (by decide +kernel) (by decide +kernel), ⟨⟨?_, ?_, ?_⟩, le_rfl, trivial⟩,
      fed_deliverFirst (by decide +kernel) (by decide +kernel)⟩
    all_goals decide +kernel
  refine (no_false_gaps hfed).2 (along_opsThen.mpr ⟨⟨trivial, trivial, ?_, trivial⟩, trivial,
    ⟨trivial, ?_, trivial⟩, trivial⟩)
  all_goals
    intro _ k g _
    refine Or.inl ?_
    cases k <;> decide +kernel

/-- Two updates between two polls do: the proxy refuses a message though none was lost. -/
theorem false_gap : ¬ ∀ (resource : Kind → UInt32) (source : Kind → UInt16)
    (sourceId destinationId : UInt16) (period : UInt64) (c : ℕ) (ops : List FeedOp),
    Along feedStep (Fed resource source) (.init sourceId destinationId period c) ops →
      Along feedStep NoFalseGap (.init sourceId destinationId period c) ops := by
  intro h
  let ops : List FeedOp := [.update .position (positionAt 473977410) 3000,
    .update .position (positionAt 473977420) 3001, .poll 3002 3]
  have hfed : Along feedStep (Fed (fun _ => 42) fun _ => 2) (.init 2 1 0 4) (opsThen ops) := by
    refine along_opsThen.mpr ⟨fed_firstPosition,
      fed_deliverFirst (by decide +kernel) (by decide +kernel),
      ⟨⟨?_, ?_, ?_⟩, ⟨?_, ?_, ?_⟩, le_rfl, trivial⟩,
      fed_deliverFirst (by decide +kernel) (by decide +kernel)⟩
    all_goals decide +kernel
  have hlast := (along_opsThen.mp (h _ _ 2 1 0 4 _ hfed)).2.2.2.1
  revert hlast
  decide +kernel

end NewMavlink.State.Gaps
