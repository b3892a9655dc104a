import NewMavlink.Proxy.Queue
import NewMavlink.Record.SealOpen

/-! # The links of the native proxy

`NativeProxy` of `proxy.cpp`: links with their subscriptions and queues, the latest message of each
state stream, and the resync requests that wait for their source. Every operation returns its
result and the proxy after the call.

A link keeps a pointer to a session that its owner goes on using, so a run of the proxy is
interleaved with changes of the sessions (`ProxyOp.owner`); `add_link` takes a reference, so the
pointer is never null. The order in which an unordered map is visited is an argument (`Visit`)
wherever a call may stop half way through; `ingest` always goes through all links, and what it
does to one does not depend on the others.

* `stream_keys_exact`: what a stream key identifies.
* `lookup_forward`: what forwarding does to one link.
* `mem_messages_replay`, `mem_messages_forwardTo`: what the two loops put into a queue. -/

namespace NewMavlink.Proxy.Links

open NewMavlink.Lib.Buffer NewMavlink.Lib.Tables NewMavlink.Wire NewMavlink.State.Messages
open NewMavlink.Record.SealOpen NewMavlink.Proxy.Queue

/-- The most subscriptions that all links hold together. -/
abbrev kMaxProxySubscriptions : ℕ := 64

/-- `ProxyMetrics`. -/
structure ProxyMetrics where
  ingressAccepted : UInt64 := 0
  ingressRejected : UInt64 := 0
  forwarded : UInt64 := 0
  cacheUpdates : UInt64 := 0
  resyncRequests : UInt64 := 0
deriving DecidableEq, Repr, Inhabited

/-- A link: its session, what waits for it, and its subscriptions by message type. -/
structure LinkState where
  session : Session
  queue : BoundedQosQueue
  subscriptions : Table UInt8 Subscription := ∅

/-- The proxy: its links by id, and what is cached of each stream. -/
structure NativeProxy where
  queueCapacity : ℕ := 64
  links : Table UInt16 LinkState := ∅
  cache : Table UInt64 NativeMessage := ∅
  resync : List ResyncRequest := []
  metrics : ProxyMetrics := {}

/-- `stream_key` of `proxy.cpp`, the same code as `BoundedQosQueue::stream_key`. -/
def streamKey (m : NativeMessage) : UInt64 :=
  packKey m.header.type (streamSource m) (streamResource m)

theorem stream_of_meta {m : NativeMessage} {sm : StateMeta} (h : metaOf m = some sm) :
    streamSource m = sm.sourceId ∧ streamResource m = sm.resourceId := by
  unfold streamSource streamResource
  rw [h]
  exact ⟨rfl, rfl⟩

theorem stream_of_no_meta {m : NativeMessage} (h : metaOf m = none) :
    streamSource m = m.header.sourceId ∧ streamResource m = 0 := by
  unfold streamSource streamResource
  rw [h]
  exact ⟨rfl, rfl⟩

/-- **Stream keys do not collide.** The proxy and the queue compute one key, and it is the same for
two messages exactly if they agree in type, source and resource: those of the meta, if there are
sixteen bytes of payload and they decode, else the header's source and resource 0. A message whose
meta does not decode shares its key with none whose meta does. -/
theorem stream_keys_exact (m m' : NativeMessage) :
    streamKey m = Queue.streamKey m ∧
    (Queue.streamKey m = Queue.streamKey m' ↔ m.header.type = m'.header.type ∧
      streamSource m = streamSource m' ∧ streamResource m = streamResource m') ∧
    (∀ sm, 16 ≤ m.length → decodeStateMeta (.data (m.payload.toList.take 16)) = some sm →
      streamSource m = sm.sourceId ∧ streamResource m = sm.resourceId) ∧
    (m.length < 16 ∨ decodeStateMeta (.data (m.payload.toList.take 16)) = none →
      streamSource m = m.header.sourceId ∧ streamResource m = 0) ∧
    (metaOf m = none → metaOf m' ≠ none → Queue.streamKey m ≠ Queue.streamKey m') := by
  refine ⟨rfl, streamKey_eq_iff, fun sm hlen hdecode => ?_, fun h => ?_, fun hnone hsome hkey => ?_⟩
  · exact stream_of_meta ((if_pos hlen).trans hdecode)
  · refine stream_of_no_meta ?_
    unfold metaOf
    rcases h with hlen | hdecode
    · exact if_neg (Nat.not_le.mpr hlen)
    · rw [hdecode, ite_self]
  · obtain ⟨-, -, hresource⟩ := streamKey_eq_iff.mp hkey
    have hzero : streamResource m' = 0 :=
      hresource.symm.trans (streamResource_eq_zero_iff.mpr hnone)
    exact hsome (streamResource_eq_zero_iff.mp hzero)

/-- A `Position` of source 2 with the bytes of a meta of source 2 and resource 7, and one whose
meta says resource 0. -/
theorem stream_keys_test :
    let header : RecordHeader := { type := .position, sourceId := 2 }
    let message : UInt32 → NativeMessage := fun resource => {
      header
      payload := ⟨blit (List.replicate kMaxPayloadBytes 0) 0 (metaBytes ⟨resource, 1, 0, 2, 1, 0⟩),
        by simp⟩
      length := 16 }
    Queue.streamKey (message 0) ≠ Queue.streamKey (message 7) := by
  intro header message
  exact (stream_keys_exact (message 0) (message 7)).2.2.2.2 (by decide +kernel) (by decide +kernel)

/-- The message that `ingest` makes of a record: the header, and the payload in a fresh array. -/
def messageOf (opened : OpenRecord) : NativeMessage where
  header := opened.header
  payload := ⟨blit (List.replicate kMaxPayloadBytes 0) 0 opened.bytes, by simp⟩
  length := opened.length

/-- The message is a `Position` that `decode_position` refuses. -/
def badPosition (m : NativeMessage) : Bool :=
  m.header.type == .position && (decodePosition (.data m.bytes)).isNone

namespace NativeProxy

/-- A new proxy. -/
def init (queueCapacity : ℕ) : NativeProxy := { queueCapacity }

variable (p : NativeProxy)

/-- `NativeProxy::add_link`. -/
def addLink (linkId : UInt16) (session : Session) : Bool × NativeProxy :=
  if linkId = 0 ∨ (p.links.lookup linkId).isSome ∨ count p.links ≥ 16 then (false, p)
  else (true, { p with
    links := p.links.insert linkId { session, queue := { capacity := p.queueCapacity } } })

/-- `NativeProxy::remove_link`. -/
def removeLink (linkId : UInt16) : Bool × NativeProxy :=
  ((p.links.lookup linkId).isSome, { p with links := p.links.erase linkId })

/-- The loop of `subscribe` over the cached messages; it stops at the first one that the queue
refuses. -/
def replay (subscription : Subscription) :
    List NativeMessage → BoundedQosQueue → Bool × BoundedQosQueue
  | [], queue => (true, queue)
  | cached :: rest, queue =>
    if cached.header.type.code = subscription.type.code ∧
        cached.header.sourceId = subscription.sourceId then
      let (ok, queue) := queue.push cached 0
      if ok then replay subscription rest queue else (false, queue)
    else replay subscription rest queue

/-- The checks of `subscribe` on its argument. -/
def subscribable (subscription : Subscription) : Bool :=
  !(subscription.sourceId == 0 || !knownType subscription.type ||
    controlType subscription.type || commandType subscription.type ||
    subscription.qos.code > Qos.explicit.code)

/-- The subscriptions of all links. -/
def subscriptionCount : ℕ := ((values p.links).map fun link => count link.subscriptions).sum

/-- `NativeProxy::subscribe`. -/
def subscribe (visit : Visit NativeMessage) (linkId : UInt16) (subscription : Subscription) :
    Bool × NativeProxy :=
  match p.links.lookup linkId with
  | none => (false, p)
  | some link =>
    if !subscribable subscription then (false, p)
    else
      let key := subscription.type.code
      if (link.subscriptions.lookup key).isNone ∧
          p.subscriptionCount ≥ kMaxProxySubscriptions then (false, p)
      else
        let (ok, queue) := replay subscription (visit.order (values p.cache)) link.queue
        (ok, { p with links := p.links.insert linkId { link with
          queue
          subscriptions := link.subscriptions.insert key subscription } })

/-- `NativeProxy::unsubscribe`. -/
def unsubscribe (linkId : UInt16) (type : MessageType) : Bool × NativeProxy :=
  match p.links.lookup linkId with
  | none => (false, p)
  | some link => ((link.subscriptions.lookup type.code).isSome, { p with
      links := p.links.insert linkId { link with
        subscriptions := link.subscriptions.erase type.code } })

/-! ### Ingest -/

/-- A record that is refused is counted. -/
def reject : NativeProxy :=
  { p with metrics := { p.metrics with ingressRejected := p.metrics.ingressRejected + 1 } }

/-- A gap leaves a request, if there is room for it. -/
def requestResync (request : ResyncRequest) : NativeProxy :=
  if p.resync.length < p.queueCapacity then { p with
    resync := p.resync ++ [request]
    metrics := { p.metrics with resyncRequests := p.metrics.resyncRequests + 1 } }
  else p

/-- `cache_[key] = message`. -/
def store (key : UInt64) (message : NativeMessage) : NativeProxy :=
  { p with
    cache := p.cache.insert key message
    metrics := { p.metrics with cacheUpdates := p.metrics.cacheUpdates + 1 } }

/-- A message with the link that it is forwarded to as its destination. -/
def forwarded (message : NativeMessage) (linkId : UInt16) : NativeMessage :=
  { message with header := { message.header with destinationId := linkId } }

/-- A link takes the message: it is not where the message came in, and it holds a subscription for
its type and source. -/
def wants (ingressLink linkId : UInt16) (message : NativeMessage) (link : LinkState) : Bool :=
  linkId != ingressLink &&
    match link.subscriptions.lookup message.header.type.code with
    | none => false
    | some subscription => subscription.sourceId == message.header.sourceId

/-- One round of the loop of `ingest` over the links: whether the link's queue took the message, and
the link afterwards. -/
def forwardTo (ingressLink : UInt16) (message : NativeMessage) (nowMs : UInt64) (linkId : UInt16)
    (link : LinkState) : Bool × LinkState :=
  if wants ingressLink linkId message link then
    let (ok, queue) := link.queue.push (forwarded message linkId) nowMs
    (ok, { link with queue })
  else (false, link)

/-- The end of `ingest`: the record is counted and forwarded to every link that wants it. -/
def forward (ingressLink : UInt16) (message : NativeMessage) (nowMs : UInt64) : NativeProxy :=
  let taken := p.links.entries.countP fun e =>
    (forwardTo ingressLink message nowMs e.1 e.2).1
  { p with
    links := mapValues (fun linkId link => (forwardTo ingressLink message nowMs linkId link).2)
      p.links
    metrics := { p.metrics with
      ingressAccepted := p.metrics.ingressAccepted + 1
      forwarded := p.metrics.forwarded + UInt64.ofNat taken } }

/-- `NativeProxy::ingest`. -/
def ingest (ingressLink : UInt16) (opened : OpenRecord) (nowMs : UInt64) : Bool × NativeProxy :=
  match p.links.lookup ingressLink with
  | none => (false, p.reject)
  | some ingress =>
    if opened.length > kMaxPayloadBytes ∨ !knownType opened.header.type ∨
        opened.header.sourceId ≠ ingress.session.keys.peerId ∨
        opened.header.destinationId ≠ ingress.session.keys.localId then (false, p.reject)
    else
      let message := messageOf opened
      if badPosition message then (false, p.reject)
      else if stateType message.header.type then
        let key := streamKey message
        match p.cache.lookup key with
        | none => (true, (p.store key message).forward ingressLink message nowMs)
        | some old =>
          match metaOf old, metaOf message with
          | some oldMeta, some newMeta =>
            -- the source checks a `Position` a second time here
            if badPosition message then (false, p.reject)
            else if newMeta.snapshot = 0 ∧ newMeta.baseGeneration ≠ oldMeta.generation then
              (false, p.requestResync
                ⟨message.header.type, newMeta.sourceId, newMeta.resourceId⟩)
            else if newMeta.generation ≤ oldMeta.generation then (true, p)
            else (true, (p.store key message).forward ingressLink message nowMs)
          | _, _ => (false, p.reject)
      else (true, p.forward ingressLink message nowMs)

/-- `NativeProxy::next`. -/
def next (egressLink : UInt16) (nowMs : UInt64) : Option NativeMessage × NativeProxy :=
  match p.links.lookup egressLink with
  | none => (none, p)
  | some link =>
    let (message, queue) := link.queue.pop nowMs
    (message, { p with links := p.links.insert egressLink { link with queue } })

/-- `NativeProxy::cached`: the first cached message of the type, in the order in which the cache is
visited. -/
def cached (visit : Visit NativeMessage) (type : MessageType) : Option NativeMessage :=
  (visit.order (values p.cache)).find? fun message => message.header.type = type

/-- `NativeProxy::next_resync`. -/
def nextResync : Option ResyncRequest × NativeProxy :=
  match p.resync with
  | [] => (none, p)
  | request :: rest => (some request, { p with resync := rest })

variable {p} {m x : NativeMessage} {l : UInt16} {nowMs : UInt64}

theorem mem_messages_replay {sub : Subscription} {ms : List NativeMessage} {q : BoundedQosQueue}
    (h : x ∈ (replay sub ms q).2.messages) : x ∈ q.messages ∨
      x ∈ ms ∧ x.header.type = sub.type ∧ x.header.sourceId = sub.sourceId := by
  induction ms generalizing q with
  | nil => exact Or.inl h
  | cons c ms ih =>
    have hmore : ∀ {q'}, x ∈ (replay sub ms q').2.messages → x ∈ q'.messages ∨
        x ∈ c :: ms ∧ x.header.type = sub.type ∧ x.header.sourceId = sub.sourceId := fun h' =>
      (ih h').imp_right fun hx => ⟨List.mem_cons_of_mem _ hx.1, hx.2⟩
    unfold replay at h
    by_cases hc : c.header.type.code = sub.type.code ∧ c.header.sourceId = sub.sourceId
    · have htype : c.header.type = sub.type := congrArg MessageType.mk hc.1
      have hpush : x ∈ (q.push c 0).2.messages → x ∈ q.messages ∨
          x ∈ c :: ms ∧ x.header.type = sub.type ∧ x.header.sourceId = sub.sourceId := fun h' => by
        rcases BoundedQosQueue.mem_messages_push h' with hx | rfl
        · exact Or.inl hx
        · exact Or.inr ⟨List.mem_cons_self, htype, hc.2⟩
      rw [if_pos hc] at h
      dsimp only at h
      split_ifs at h
      · rcases hmore h with hx | hx
        · exact hpush hx
        · exact Or.inr hx
      · exact hpush h
    · rw [if_neg hc] at h
      exact hmore h

theorem mem_messages_forwardTo {ingressLink : UInt16} {link : LinkState}
    (h : x ∈ (forwardTo ingressLink m nowMs l link).2.queue.messages) :
    x ∈ link.queue.messages ∨ wants ingressLink l m link = true ∧ x = forwarded m l := by
  unfold forwardTo at h
  by_cases hw : wants ingressLink l m link = true
  · rw [if_pos hw] at h
    exact (BoundedQosQueue.mem_messages_push h).imp_right fun hx => ⟨hw, hx⟩
  · rw [if_neg hw] at h
    exact Or.inl h

theorem session_forwardTo {ingressLink : UInt16} {link : LinkState} :
    (forwardTo ingressLink m nowMs l link).2.session = link.session := by
  unfold forwardTo
  split_ifs <;> rfl

theorem subscriptions_forwardTo {ingressLink : UInt16} {link : LinkState} :
    (forwardTo ingressLink m nowMs l link).2.subscriptions = link.subscriptions := by
  unfold forwardTo
  split_ifs <;> rfl

/-- **What forwarding does to one link.** -/
theorem lookup_forward {ingressLink : UInt16} : (p.forward ingressLink m nowMs).links.lookup l =
    (p.links.lookup l).map fun link => (forwardTo ingressLink m nowMs l link).2 :=
  lookup_mapValues _ _ _

theorem wants_iff {ingressLink : UInt16} {link : LinkState} : wants ingressLink l m link = true ↔
    l ≠ ingressLink ∧ ∃ sub, link.subscriptions.lookup m.header.type.code = some sub ∧
      sub.sourceId = m.header.sourceId := by
  unfold wants
  cases link.subscriptions.lookup m.header.type.code <;> simp

end NativeProxy

/-! ### Runs -/

/-- A call of the proxy, or a change of a link's session by its owner. -/
inductive ProxyOp where
  | addLink (linkId : UInt16) (session : Session)
  | removeLink (linkId : UInt16)
  | subscribe (visit : Visit NativeMessage) (linkId : UInt16) (subscription : Subscription)
  | unsubscribe (linkId : UInt16) (type : MessageType)
  | ingest (ingressLink : UInt16) (opened : OpenRecord) (nowMs : UInt64)
  | next (egressLink : UInt16) (nowMs : UInt64)
  | nextResync
  | owner (linkId : UInt16) (session : Session)

open NativeProxy

/-- A link's session, changed by its owner. -/
def changeSession (p : NativeProxy) (linkId : UInt16) (session : Session) : NativeProxy :=
  match p.links.lookup linkId with
  | none => p
  | some link => { p with links := p.links.insert linkId { link with session } }

/-- The proxy after an operation. -/
def proxyStep (p : NativeProxy) : ProxyOp → NativeProxy
  | .addLink linkId session => (p.addLink linkId session).2
  | .removeLink linkId => (p.removeLink linkId).2
  | .subscribe visit linkId subscription => (p.subscribe visit linkId subscription).2
  | .unsubscribe linkId type => (p.unsubscribe linkId type).2
  | .ingest ingressLink opened nowMs => (p.ingest ingressLink opened nowMs).2
  | .next egressLink nowMs => (p.next egressLink nowMs).2
  | .nextResync => p.nextResync.2
  | .owner linkId session => changeSession p linkId session

end NewMavlink.Proxy.Links
