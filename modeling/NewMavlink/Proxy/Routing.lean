import NewMavlink.Proxy.Ingest

/-! # Routing over whole runs

A message reaches the queue of a link in two ways, forwarded by `ingest` or replayed from the cache
by `subscribe`, and stays there while links, subscriptions and the cache change.

* `queued_proxyStep`: a message in a queue was there before the operation, or was forwarded or
  replayed by it.
* `next_sound`: what `next` returns was queued under a subscription of the link, and carries a
  record that `ingest` accepted before.
* `typed_iff`: cache and returned messages decode exactly if every stored record does. `ingest`
  decodes a `Position` only, so an `Attitude` or a `Battery` of any content goes through
  (`attitude_not_decoded`).
* `next_destination`: what `next` returns is addressed to the link, if `subscribe` replays only
  messages that are. `subscribe` does not set the destination as `ingest` does
  (`replayed_destination`). -/

namespace NewMavlink.Proxy.Routing

open NewMavlink.Lib.Buffer NewMavlink.Lib.Tables NewMavlink.Lib.Runs
open NewMavlink.Wire NewMavlink.State.Messages NewMavlink.Record.SealOpen
open NewMavlink.Proxy.Queue hiding streamKey
open NewMavlink.Proxy.Links NewMavlink.Proxy.Links.NativeProxy NewMavlink.Proxy.Ingest

variable {p : NativeProxy} {op : ProxyOp} {l : UInt16} {m x : NativeMessage} {r : OpenRecord}
  {nowMs : UInt64}

/-! ### What waits in a queue -/

/-- The message waits in the queue of the link. -/
def Queued (p : NativeProxy) (l : UInt16) (m : NativeMessage) : Prop :=
  ∃ link, p.links.lookup l = some link ∧ m ∈ link.queue.messages

/-- The operation forwards the message to the link. -/
def Forwards (p : NativeProxy) (op : ProxyOp) (l : UInt16) (m : NativeMessage) : Prop :=
  ∃ ingressLink r nowMs link, op = .ingest ingressLink r nowMs ∧
    (disposition p ingressLink r = .stored ∨ disposition p ingressLink r = .passed) ∧
    p.links.lookup l = some link ∧ wants ingressLink l (messageOf r) link = true ∧
    m = forwarded (messageOf r) l

/-- The operation replays the cached message to the link. -/
def Replays (p : NativeProxy) (op : ProxyOp) (l : UInt16) (m : NativeMessage) : Prop :=
  ∃ visit sub κ, op = .subscribe visit l sub ∧ records p l sub = true ∧
    p.cache.lookup κ = some m ∧ m.header.type = sub.type ∧
    m.header.sourceId = sub.sourceId

/-- **How a message gets into a queue.** -/
theorem queued_proxyStep (h : Queued (proxyStep p op) l m) :
    Queued p l m ∨ Forwards p op l m ∨ Replays p op l m := by
  obtain ⟨link', hl', hm⟩ := h
  rcases link_cases hl' with ⟨session, rfl, rfl⟩ | ⟨link, hl, hstep⟩
  · simp [values] at hm
  · cases hstep with
    | kept => exact Or.inl ⟨_, hl, hm⟩
    | subscribed visit sub hsub =>
      rcases mem_messages_replay hm with hm | ⟨hin, htype, hsource⟩
      · exact Or.inl ⟨link, hl, hm⟩
      · obtain ⟨κ, hκ⟩ := mem_visit.mp hin
        exact Or.inr (Or.inr ⟨visit, sub, κ, rfl, hsub, hκ, htype, hsource⟩)
    | unsubscribed type => exact Or.inl ⟨link, hl, hm⟩
    | forwarded ingressLink r nowMs hd =>
      rcases mem_messages_forwardTo hm with hm | ⟨hw, rfl⟩
      · exact Or.inl ⟨link, hl, hm⟩
      · exact Or.inr (Or.inl ⟨ingressLink, r, nowMs, link, rfl, hd, hl, hw, rfl⟩)
    | popped nowMs => exact Or.inl ⟨link, hl, BoundedQosQueue.mem_messages_pop hm⟩
    | session session => exact Or.inl ⟨link, hl, hm⟩

theorem queued_of_next (h : (p.next l nowMs).1 = some m) : Queued p l m := by
  unfold next at h
  cases hl : p.links.lookup l with
  | none => simp [hl] at h
  | some link =>
    simp only [hl] at h
    exact ⟨link, hl, BoundedQosQueue.mem_of_pop h⟩

theorem not_queued_init (c : ℕ) (l : UInt16) (m : NativeMessage) : ¬ Queued (init c) l m := by
  rintro ⟨link, hl, -⟩
  cases hl

/-! ### Subscriptions -/

/-- The link holds a subscription for the type and the source of the message. -/
def HoldsSubscription (p : NativeProxy) (l : UInt16) (m : NativeMessage) : Prop :=
  ∃ link sub, p.links.lookup l = some link ∧
    link.subscriptions.lookup m.header.type.code = some sub ∧ sub.type = m.header.type ∧
    sub.sourceId = m.header.sourceId

/-- Every subscription is one that `subscribe` accepts, under its own type. -/
def SubscriptionInv (p : NativeProxy) : Prop :=
  ∀ l link k sub, p.links.lookup l = some link → link.subscriptions.lookup k = some sub →
    sub.type.code = k ∧ subscribable sub = true

theorem subscriptionInv_proxyStep (p : NativeProxy) (op : ProxyOp) (h : SubscriptionInv p) :
    SubscriptionInv (proxyStep p op) := by
  intro l link' k sub hl' hk
  rcases link_cases hl' with ⟨session, rfl, rfl⟩ | ⟨link, hl, hstep⟩
  · cases hk
  · cases hstep with
    | kept => exact h l _ k sub hl hk
    | subscribed visit sub' hsub =>
      dsimp only at hk
      rw [lookup_insert_eq] at hk
      split_ifs at hk with heq
      · obtain rfl := Option.some.inj hk
        exact ⟨heq.symm, subscribable_of_records hsub⟩
      · exact h l link k sub hl hk
    | unsubscribed type =>
      dsimp only at hk
      rw [lookup_erase_eq] at hk
      split_ifs at hk
      exact h l link k sub hl hk
    | forwarded ingressLink r nowMs hd =>
      rw [subscriptions_forwardTo] at hk
      exact h l link k sub hl hk
    | popped nowMs => exact h l link k sub hl hk
    | session session => exact h l link k sub hl hk

theorem subscriptionInv_run (c : ℕ) (ops : List ProxyOp) :
    SubscriptionInv (run proxyStep (init c) ops) := by
  refine run_keeps subscriptionInv_proxyStep ops ?_
  intro l link k sub hl
  cases hl

/-- **A message enters a queue under a subscription** of the link. -/
theorem holds_of_entry (hinv : SubscriptionInv p) (hnew : ¬ Queued p l m)
    (h : Queued (proxyStep p op) l m) : HoldsSubscription (proxyStep p op) l m := by
  obtain ⟨link', hl', hm⟩ := h
  rcases link_cases hl' with ⟨session, rfl, rfl⟩ | ⟨link, hl, hstep⟩
  · simp [values] at hm
  · cases hstep with
    | kept => exact absurd ⟨_, hl, hm⟩ hnew
    | subscribed visit sub hsub =>
      rcases mem_messages_replay hm with hm | ⟨-, htype, hsource⟩
      · exact absurd ⟨link, hl, hm⟩ hnew
      · refine ⟨_, sub, hl', ?_, htype.symm, hsource.symm⟩
        rw [htype, AList.lookup_insert]
    | unsubscribed type => exact absurd ⟨link, hl, hm⟩ hnew
    | forwarded k r nowMs hd =>
      rcases mem_messages_forwardTo hm with hm | ⟨hw, rfl⟩
      · exact absurd ⟨link, hl, hm⟩ hnew
      · obtain ⟨-, sub, hsub, hsource⟩ := wants_iff.mp hw
        have htype : sub.type = r.header.type :=
          congrArg MessageType.mk (hinv l link _ sub hl hsub).1
        refine ⟨_, sub, hl', ?_, htype, hsource⟩
        rw [subscriptions_forwardTo]
        exact hsub
    | popped nowMs => exact absurd ⟨link, hl, BoundedQosQueue.mem_messages_pop hm⟩ hnew
    | session session => exact absurd ⟨link, hl, hm⟩ hnew

/-! ### Where a message comes from -/

/-- The message carries the record: its payload, and its header but for the destination. -/
structure CarriesRecord (m : NativeMessage) (r : OpenRecord) : Prop where
  bytes : m.bytes = r.bytes
  type : m.header.type = r.header.type
  qos : m.header.qos = r.header.qos
  flags : m.header.flags = r.header.flags
  source : m.header.sourceId = r.header.sourceId
  sequence : m.header.sequence = r.header.sequence
  deadline : m.header.deadlineMs = r.header.deadlineMs

/-- The operation is an ingest that accepts the record, on a link whose session has the record's
source as its peer and the record's destination as its own id. -/
def Accepts (p : NativeProxy) (op : ProxyOp) (r : OpenRecord) : Prop :=
  ∃ l nowMs link, op = .ingest l r nowMs ∧ (p.ingest l r nowMs).1 = true ∧
    p.links.lookup l = some link ∧ link.session.keys.peerId = r.header.sourceId ∧
    link.session.keys.localId = r.header.destinationId

/-- The proxy holds the message, up to its destination. -/
def Holds (p : NativeProxy) (m : NativeMessage) : Prop :=
  (∃ κ x, p.cache.lookup κ = some x ∧ forwarded x 0 = m) ∨
    ∃ l x, Queued p l x ∧ forwarded x 0 = m

/-- The operation brings the message in. -/
def Brings (p : NativeProxy) (op : ProxyOp) (m : NativeMessage) : Prop :=
  ∃ l r nowMs, op = .ingest l r nowMs ∧
    (disposition p l r = .stored ∨ disposition p l r = .passed) ∧ forwarded (messageOf r) 0 = m

theorem holds_proxyStep (p : NativeProxy) (op : ProxyOp) (m : NativeMessage)
    (h : Holds (proxyStep p op) m) : Holds p m ∨ Brings p op m := by
  rcases h with ⟨κ, x, hx, rfl⟩ | ⟨l, x, hx, rfl⟩
  · rcases lookup_cache_proxyStep p op κ with heq | ⟨l, r, nowMs, rfl, hs, -, hnew⟩
    · exact Or.inl (Or.inl ⟨κ, x, heq ▸ hx, rfl⟩)
    · obtain rfl := Option.some.inj (hnew.symm.trans hx)
      exact Or.inr ⟨l, r, nowMs, rfl, Or.inl hs, rfl⟩
  · rcases queued_proxyStep hx with hx | ⟨k, r, nowMs, link, rfl, hd, -, -, rfl⟩ |
      ⟨visit, sub, κ, -, -, hκ, -, -⟩
    · exact Or.inl (Or.inr ⟨l, x, hx, rfl⟩)
    · exact Or.inr ⟨k, r, nowMs, rfl, hd, rfl⟩
    · exact Or.inl (Or.inl ⟨κ, x, hκ, rfl⟩)

theorem accepts_of_disposition (nowMs : UInt64)
    (hd : disposition p l r = .stored ∨ disposition p l r = .passed) :
    Accepts p (.ingest l r nowMs) r ∧ r.length ≤ kMaxPayloadBytes := by
  have hadm : admits p l r = true := by
    by_contra hadm
    rw [disposition_of_not_admits hadm] at hd
    simp at hd
  obtain ⟨link, hl, hlen, -, hsource, hdest, -⟩ := admits_eq_true_iff.mp hadm
  refine ⟨⟨l, nowMs, link, rfl, ?_, hl, hsource.symm, hdest.symm⟩, hlen⟩
  rw [ingest_eq]
  rcases hd with hd | hd <;> rw [hd]

theorem carriesRecord_of_forwarded (hlen : r.length ≤ kMaxPayloadBytes)
    (h : forwarded (messageOf r) 0 = forwarded m 0) : CarriesRecord m r := by
  have hheader : ∀ {β : Type} (f : RecordHeader → β),
      f (forwarded (messageOf r) 0).header = f (forwarded m 0).header := fun f =>
    congrArg (fun x : NativeMessage => f x.header) h
  have hbytes : (forwarded (messageOf r) 0).bytes = (forwarded m 0).bytes := congrArg _ h
  exact ⟨hbytes.symm.trans (bytes_messageOf hlen), (hheader RecordHeader.type).symm,
    (hheader RecordHeader.qos).symm, (hheader RecordHeader.flags).symm,
    (hheader RecordHeader.sourceId).symm, (hheader RecordHeader.sequence).symm,
    (hheader RecordHeader.deadlineMs).symm⟩

/-- **What `next` returns**, in every run: its type is neither a control nor a command type; it has
waited in the queue since an operation after which the link held a subscription for its type and
source; and it carries a record that `ingest` accepted before. -/
theorem next_sound (c : ℕ) (ops : List ProxyOp) (l : UInt16) (nowMs : UInt64) (m : NativeMessage)
    (h : ((run proxyStep (init c) ops).next l nowMs).1 = some m) :
    controlType m.header.type = false ∧ commandType m.header.type = false ∧
      (∃ before op after, ops = before ++ op :: after ∧
        ¬ Queued (run proxyStep (init c) before) l m ∧
        (∀ mid, mid <+: after → Queued (run proxyStep (init c) (before ++ op :: mid)) l m) ∧
        HoldsSubscription (run proxyStep (init c) (before ++ [op])) l m) ∧
      ∃ before op after r, ops = before ++ op :: after ∧
        Accepts (run proxyStep (init c) before) op r ∧ CarriesRecord m r := by
  have hq := queued_of_next h
  obtain ⟨before, op, after, hops, hnew, hsince⟩ :=
    run_entry (Q := fun p => Queued p l m) (not_queued_init c l m) hq
  have hstep : run proxyStep (init c) (before ++ [op]) =
      proxyStep (run proxyStep (init c) before) op := by rw [run_append]; rfl
  have hentry := hsince [] List.nil_prefix
  rw [hstep] at hentry
  have hholds := holds_of_entry (subscriptionInv_run c before) hnew hentry
  have hallowed : controlType m.header.type = false ∧ commandType m.header.type = false := by
    obtain ⟨link, sub, hl, hsub, htype, -⟩ := hholds
    rw [← hstep] at hl
    have hok := (subscriptionInv_run c (before ++ [op]) l link _ sub hl hsub).2
    unfold subscribable at hok
    rw [← htype]
    simp only [Bool.not_or, Bool.and_eq_true, Bool.not_eq_true'] at hok
    exact ⟨hok.1.1.2, hok.1.2⟩
  refine ⟨hallowed.1, hallowed.2, ⟨before, op, after, hops, hnew, hsince, hstep ▸ hholds⟩, ?_⟩
  have hnone : ¬ Holds (init c) (forwarded m 0) := by
    rintro (⟨κ, x, hx, -⟩ | ⟨l, x, hx, -⟩)
    · cases hx
    · exact not_queued_init c l x hx
  obtain ⟨before, op, after, hops, k, r, nowMs, rfl, hd, heq⟩ :=
    run_origin holds_proxyStep hnone (Or.inr ⟨l, m, hq, rfl⟩)
  obtain ⟨hacc, hlen⟩ := accepts_of_disposition nowMs hd
  exact ⟨before, _, after, r, hops, hacc, carriesRecord_of_forwarded hlen heq⟩

/-- A `Position` forwarded to the second link. -/
theorem next_sound_forwarded : ∃ m,
    ((run proxyStep (init 4) [.addLink 1 (testSession 1 2), .addLink 2 (testSession 1 3),
      .subscribe .inOrder 2 { sourceId := 2 },
      .ingest 1 (makePosition 2 ⟨42, 1, 0, 2, 1, 0⟩) 0]).next 2 0).1 = some m ∧
    controlType m.header.type = false ∧ commandType m.header.type = false := by
  obtain ⟨m, hm⟩ := Option.isSome_iff_exists.mp (show
    ((run proxyStep (init 4) [.addLink 1 (testSession 1 2), .addLink 2 (testSession 1 3),
      .subscribe .inOrder 2 { sourceId := 2 },
      .ingest 1 (makePosition 2 ⟨42, 1, 0, 2, 1, 0⟩) 0]).next 2 0).1.isSome = true by
    decide +kernel)
  have hsound := next_sound 4 _ 2 0 m hm
  exact ⟨m, hm, hsound.1, hsound.2.1⟩

/-! ### Typed state -/

/-- A message whose type has a codec is accepted by its decoder. -/
def Decodes (m : NativeMessage) : Prop :=
  ∀ k : Kind, m.header.type = k.type → (k.decode (.data m.bytes)).isSome = true

/-- Everything that the proxy holds decodes. -/
def TypedInv (p : NativeProxy) : Prop :=
  (∀ κ m, p.cache.lookup κ = some m → Decodes m) ∧ ∀ l m, Queued p l m → Decodes m

/-- What the cache holds after the operation decodes, and what it returns. -/
def Typed (p : NativeProxy) (op : ProxyOp) : Prop :=
  (∀ κ m, (proxyStep p op).cache.lookup κ = some m → Decodes m) ∧
    ∀ l nowMs m, op = .next l nowMs → (p.next l nowMs).1 = some m → Decodes m

/-- An `Attitude` or a `Battery` that is stored decodes. -/
def StoresTyped (p : NativeProxy) (op : ProxyOp) : Prop :=
  ∀ l r nowMs (k : Kind), op = .ingest l r nowMs → disposition p l r = .stored → k ≠ .position →
    r.header.type = k.type → (k.decode (.data r.bytes)).isSome = true

theorem bytes_of_stored (h : disposition p l r = .stored) : (messageOf r).bytes = r.bytes := by
  obtain ⟨-, -, hlen, -⟩ := admits_eq_true_iff.mp (admits_of_stored h).1
  exact bytes_messageOf hlen

theorem decodes_of_storesTyped (h : StoresTyped p (.ingest l r nowMs))
    (hs : disposition p l r = .stored) : Decodes (messageOf r) := by
  intro k hk
  cases k with
  | position => exact decodePosition_of_admits (admits_of_stored hs).1 hk
  | attitude => rw [bytes_of_stored hs]; exact h l r nowMs _ rfl hs (by simp) hk
  | battery => rw [bytes_of_stored hs]; exact h l r nowMs _ rfl hs (by simp) hk

theorem decodes_of_passed (h : disposition p l r = .passed) : Decodes (messageOf r) := by
  intro k hk
  have hstate : stateType r.header.type = true := by
    rw [header_messageOf] at hk
    rw [hk]
    exact k.stateType_type
  rw [stateType_of_passed h] at hstate
  cases hstate

theorem typedInv_proxyStep (p : NativeProxy) (op : ProxyOp) (h : TypedInv p)
    (hop : StoresTyped p op) : TypedInv (proxyStep p op) := by
  constructor
  · intro κ m hm
    rcases lookup_cache_proxyStep p op κ with heq | ⟨l, r, nowMs, rfl, hs, -, hnew⟩
    · exact h.1 κ m (heq ▸ hm)
    · obtain rfl := Option.some.inj (hnew.symm.trans hm)
      exact decodes_of_storesTyped hop hs
  · intro l m hm
    rcases queued_proxyStep hm with hm | ⟨k, r, nowMs, link, rfl, hd, -, -, rfl⟩ |
      ⟨visit, sub, κ, -, -, hκ, -, -⟩
    · exact h.2 l m hm
    · have hdec : Decodes (messageOf r) := by
        rcases hd with hd | hd
        · exact decodes_of_storesTyped hop hd
        · exact decodes_of_passed hd
      exact hdec
    · exact h.1 κ m hκ

theorem typed_of_typedInv (h : TypedInv p) (hop : StoresTyped p op) : Typed p op := by
  refine ⟨(typedInv_proxyStep p op h hop).1, ?_⟩
  rintro l nowMs m - hm
  exact h.2 l m (queued_of_next hm)

theorem storesTyped_of_typed (h : Typed p op) : StoresTyped p op := by
  rintro l r nowMs k rfl hs - hk
  have hin : (proxyStep p (.ingest l r nowMs)).cache.lookup (streamKey (messageOf r)) =
      some (messageOf r) := by
    have hlook := lookup_cache_ingest p l r nowMs (streamKey (messageOf r))
    rwa [if_pos ⟨hs, rfl⟩] at hlook
  rw [← bytes_of_stored hs]
  exact h.1 _ _ hin k hk

/-- **When typed state is well-formed**, in every run: cache and returned messages decode exactly if
every `Attitude` and every `Battery` that is stored does. -/
theorem typed_iff (c : ℕ) (ops : List ProxyOp) :
    Along proxyStep Typed (init c) ops ↔ Along proxyStep StoresTyped (init c) ops := by
  constructor
  · exact along_mono fun _ _ => storesTyped_of_typed
  · refine along_of_invariant typedInv_proxyStep (fun _ _ => typed_of_typedInv) ⟨?_, ?_⟩
    · intro κ m hm
      cases hm
    · exact fun l m hm => absurd hm (not_queued_init c l m)

/-- An `Attitude` of any content goes through. -/
theorem attitude_not_decoded : ¬ ∀ (c : ℕ) (ops : List ProxyOp),
    Along proxyStep Typed (init c) ops := by
  intro h
  let empty : OpenRecord :=
    ⟨{ positionHeader 2 with type := .attitude }, List.Vector.replicate _ 0, 0⟩
  have htyped := (typed_iff 4 [.addLink 1 (testSession 1 2), .ingest 1 empty 0]).mp (h 4 _)
  obtain ⟨-, hstores, -⟩ := htyped
  have hdec := hstores 1 empty 0 .attitude rfl (by decide +kernel) (by decide) rfl
  revert hdec
  decide +kernel

/-! ### Destinations -/

/-- Every waiting message is addressed to the link that it waits for. -/
def AddressedInv (p : NativeProxy) : Prop := ∀ l m, Queued p l m → m.header.destinationId = l

/-- A subscription that is recorded finds only messages in the cache that are addressed to its link
already. -/
def ReplaysAddressed (p : NativeProxy) (op : ProxyOp) : Prop :=
  ∀ visit l sub κ m, op = .subscribe visit l sub → records p l sub = true →
    p.cache.lookup κ = some m → m.header.type = sub.type → m.header.sourceId = sub.sourceId →
    m.header.destinationId = l

/-- What the operation returns is addressed to the link. -/
def ReturnsAddressed (p : NativeProxy) (op : ProxyOp) : Prop :=
  ∀ l nowMs m, op = .next l nowMs → (p.next l nowMs).1 = some m → m.header.destinationId = l

theorem addressedInv_proxyStep (p : NativeProxy) (op : ProxyOp) (h : AddressedInv p)
    (hop : ReplaysAddressed p op) : AddressedInv (proxyStep p op) := by
  intro l m hm
  rcases queued_proxyStep hm with hm | ⟨k, r, nowMs, link, rfl, -, -, -, rfl⟩ |
    ⟨visit, sub, κ, rfl, hrec, hκ, htype, hsource⟩
  · exact h l m hm
  · rfl
  · exact hop visit l sub κ m rfl hrec hκ htype hsource

/-- **What `next` returns is addressed to the link**, in every run whose subscriptions find only
messages in the cache that are. -/
theorem next_destination {c : ℕ} {ops : List ProxyOp}
    (h : Along proxyStep ReplaysAddressed (init c) ops) :
    Along proxyStep ReturnsAddressed (init c) ops := by
  refine along_of_invariant addressedInv_proxyStep (fun p op hinv _ => ?_)
    (fun l m hm => absurd hm (not_queued_init c l m)) h
  rintro l nowMs m - hm
  exact hinv l m (queued_of_next hm)

/-- The run of `messaging_advanced_test.cpp`: the subscription comes before the snapshot. -/
theorem next_destination_forwarded :
    Along proxyStep ReturnsAddressed (init 4) [.addLink 1 (testSession 1 2),
      .addLink 2 (testSession 1 3), .subscribe .inOrder 2 { sourceId := 2 },
      .ingest 1 (makePosition 2 ⟨42, 1, 0, 2, 1, 0⟩) 0, .next 2 0] := by
  refine next_destination ⟨?_, ?_, ?_, ?_, ?_, trivial⟩
  · rintro visit l sub κ m ⟨⟩
  · rintro visit l sub κ m ⟨⟩
  · -- the cache is still empty
    rintro visit l sub κ m - - ⟨⟩
  · rintro visit l sub κ m ⟨⟩
  · rintro visit l sub κ m ⟨⟩

/-- A message that is replayed keeps the destination that it came in with. -/
theorem replayed_destination : ¬ ∀ (c : ℕ) (ops : List ProxyOp),
    Along proxyStep ReturnsAddressed (init c) ops := by
  intro h
  obtain ⟨-, -, -, -, hnext, -⟩ := h 4 [.addLink 1 (testSession 1 2), .addLink 2 (testSession 1 3),
    .ingest 1 (makePosition 2 ⟨42, 1, 0, 2, 1, 0⟩) 0, .subscribe .inOrder 2 { sourceId := 2 },
    .next 2 0]
  have hone : ((run proxyStep (init 4) [.addLink 1 (testSession 1 2),
      .addLink 2 (testSession 1 3), .ingest 1 (makePosition 2 ⟨42, 1, 0, 2, 1, 0⟩) 0,
      .subscribe .inOrder 2 { sourceId := 2 }]).next 2 0).1.map (·.header.destinationId) =
        some 1 := by decide +kernel
  obtain ⟨m, hm, hdest⟩ := Option.map_eq_some_iff.mp hone
  rw [hnext 2 0 m rfl hm] at hdest
  revert hdest
  decide

end NewMavlink.Proxy.Routing
