import NewMavlink.Lib.Tables
import NewMavlink.State.Messages

/-! # The bounded queue of a link

`BoundedQosQueue` of `qos.cpp`: critical messages and events in order, the latest message of each
state stream, and a bound on all three together. Every operation returns its result and the queue
after the call.

* `streamKey_eq_iff`: two messages have the same key exactly if they agree in type, source and
  resource, as the meta names them.
* `mem_messages_push`, `mem_messages_pop`, `mem_of_pop`: a queue holds what was pushed to it, and a
  pop returns what it held.
* `pop_eq`: one round of the loop of `pop`, which ends because every round takes a message out. -/

namespace NewMavlink.Proxy.Queue

open NewMavlink.Lib.Buffer NewMavlink.Lib.Tables NewMavlink.Wire NewMavlink.State.Messages

/-! ### Stream keys -/

/-- The source of a message's stream: the meta's, if there is one. -/
def streamSource (m : NativeMessage) : UInt16 :=
  match metaOf m with
  | some sm => sm.sourceId
  | none => m.header.sourceId

/-- The resource of a message's stream: the meta's, if there is one. -/
def streamResource (m : NativeMessage) : UInt32 :=
  match metaOf m with
  | some sm => sm.resourceId
  | none => 0

/-- A type, a source and a resource in one word. -/
def packKey (type : MessageType) (source : UInt16) (resource : UInt32) : UInt64 :=
  type.code.toUInt64 <<< 56 ||| source.toUInt64 <<< 32 ||| resource.toUInt64

/-- `BoundedQosQueue::stream_key`. -/
def streamKey (m : NativeMessage) : UInt64 :=
  packKey m.header.type (streamSource m) (streamResource m)

theorem toNat_packKey (type : MessageType) (source : UInt16) (resource : UInt32) :
    (packKey type source resource).toNat =
      type.code.toNat * 2 ^ 56 + source.toNat * 2 ^ 32 + resource.toNat := by
  have ht : type.code.toNat < 2 ^ 8 := UInt8.toNat_lt _
  have hs : source.toNat < 2 ^ 16 := UInt16.toNat_lt _
  have hr : resource.toNat < 2 ^ 32 := UInt32.toNat_lt _
  have htype : (type.code.toUInt64 <<< 56).toNat = type.code.toNat <<< 56 := by
    rw [UInt64.toNat_shiftLeft, UInt8.toNat_toUInt64, show (56 : UInt64).toNat % 64 = 56 from rfl]
    exact Nat.mod_eq_of_lt (by rw [Nat.shiftLeft_eq]; omega)
  have hsource : (source.toUInt64 <<< 32).toNat = source.toNat <<< 32 := by
    rw [UInt64.toNat_shiftLeft, UInt16.toNat_toUInt64, show (32 : UInt64).toNat % 64 = 32 from rfl]
    exact Nat.mod_eq_of_lt (by rw [Nat.shiftLeft_eq]; omega)
  have hrest : source.toNat <<< 32 + resource.toNat < 2 ^ 56 := by rw [Nat.shiftLeft_eq]; omega
  unfold packKey
  rw [UInt64.toNat_or, UInt64.toNat_or, htype, hsource, UInt32.toNat_toUInt64, Nat.or_assoc,
    ← Nat.shiftLeft_add_eq_or_of_lt hr, ← Nat.shiftLeft_add_eq_or_of_lt hrest, Nat.shiftLeft_eq,
    Nat.shiftLeft_eq, Nat.add_assoc]

theorem packKey_eq_iff {t t' : MessageType} {s s' : UInt16} {r r' : UInt32} :
    packKey t s r = packKey t' s' r' ↔ t = t' ∧ s = s' ∧ r = r' := by
  constructor
  · intro h
    have hnat := congrArg UInt64.toNat h
    rw [toNat_packKey, toNat_packKey] at hnat
    have hs : s.toNat < 2 ^ 16 := UInt16.toNat_lt _
    have hr : r.toNat < 2 ^ 32 := UInt32.toNat_lt _
    have hs' : s'.toNat < 2 ^ 16 := UInt16.toNat_lt _
    have hr' : r'.toNat < 2 ^ 32 := UInt32.toNat_lt _
    have htype : t.code.toNat = t'.code.toNat := by omega
    refine ⟨?_, UInt16.toNat_inj.mp (by omega), UInt32.toNat_inj.mp (by omega)⟩
    cases t
    cases t'
    exact congrArg MessageType.mk (UInt8.toNat_inj.mp htype)
  · rintro ⟨rfl, rfl, rfl⟩
    rfl

/-- **Two messages have the same key** exactly if they agree in type, source and resource. -/
theorem streamKey_eq_iff {m m' : NativeMessage} : streamKey m = streamKey m' ↔
    m.header.type = m'.header.type ∧ streamSource m = streamSource m' ∧
      streamResource m = streamResource m' :=
  packKey_eq_iff

theorem streamKey_of_metaOf {m : NativeMessage} {sm : StateMeta} (h : metaOf m = some sm) :
    streamKey m = packKey m.header.type sm.sourceId sm.resourceId := by
  unfold streamKey streamSource streamResource
  rw [h]

/-- The decoder refuses a meta without a resource, so 0 is left to the messages without a meta. -/
theorem streamResource_eq_zero_iff {m : NativeMessage} :
    streamResource m = 0 ↔ metaOf m = none := by
  unfold streamResource
  cases h : metaOf m with
  | none => simp
  | some sm =>
    have hdecode := (metaOf_eq_some_iff.mp h).2
    have hresource := (valid_of_decodeStateMeta hdecode).resource
    simp [hresource]

/-! ### The queue -/

/-- `QueueMetrics`. -/
structure QueueMetrics where
  enqueued : UInt64 := 0
  delivered : UInt64 := 0
  droppedLatest : UInt64 := 0
  rejectedCritical : UInt64 := 0
  expired : UInt64 := 0
deriving DecidableEq, Repr, Inhabited

/-- The queue: two lists in the order of their arrival, and one message of each state stream. -/
structure BoundedQosQueue where
  capacity : ℕ := 0
  critical : List NativeMessage := []
  events : List NativeMessage := []
  state : Table UInt64 NativeMessage := ∅
  metrics : QueueMetrics := {}

/-- `BoundedQosQueue::expired`. -/
def expired (m : NativeMessage) (nowMs : UInt64) : Bool :=
  m.header.deadlineMs ≠ 0 && nowMs > m.header.deadlineMs.toUInt64

/-- `BoundedQosQueue::is_state`. -/
def isState (m : NativeMessage) : Bool := stateType m.header.type && m.header.qos == .stateLatest

theorem isState_eq_true_iff {m : NativeMessage} :
    isState m = true ↔ stateType m.header.type = true ∧ m.header.qos = .stateLatest := by
  simp [isState]

theorem expired_of_no_deadline {m : NativeMessage} (h : m.header.deadlineMs = 0) (nowMs : UInt64) :
    expired m nowMs = false := by
  simp [expired, h]

namespace QueueMetrics

/-- `++metrics_.enqueued`. -/
def incEnqueued (c : QueueMetrics) : QueueMetrics := { c with enqueued := c.enqueued + 1 }
/-- `++metrics_.delivered`. -/
def incDelivered (c : QueueMetrics) : QueueMetrics := { c with delivered := c.delivered + 1 }
/-- `++metrics_.dropped_latest`. -/
def incDroppedLatest (c : QueueMetrics) : QueueMetrics :=
  { c with droppedLatest := c.droppedLatest + 1 }
/-- `++metrics_.rejected_critical`. -/
def incRejectedCritical (c : QueueMetrics) : QueueMetrics :=
  { c with rejectedCritical := c.rejectedCritical + 1 }
/-- `++metrics_.expired`. -/
def incExpired (c : QueueMetrics) : QueueMetrics := { c with expired := c.expired + 1 }

end QueueMetrics

namespace BoundedQosQueue

/-- `BoundedQosQueue::size`. -/
def size (q : BoundedQosQueue) : ℕ :=
  q.critical.length + count q.state + q.events.length

/-- The loop that makes room for a new stream: it drops events from the front while the queue is
full. -/
def makeRoom (q : BoundedQosQueue) : List NativeMessage → BoundedQosQueue
  | [] => { q with events := [] }
  | e :: es =>
    if { q with events := e :: es }.size ≥ q.capacity then
      makeRoom { q with metrics := q.metrics.incDroppedLatest } es
    else { q with events := e :: es }

/-- `BoundedQosQueue::push`. -/
def push (q : BoundedQosQueue) (m : NativeMessage) (nowMs : UInt64) : Bool × BoundedQosQueue :=
  if q.capacity = 0 ∨ m.length > kMaxPayloadBytes ∨ expired m nowMs then
    (false, { q with metrics := q.metrics.incExpired })
  else if isState m then
    let key := streamKey m
    match q.state.lookup key with
    | some _ => (true, { q with
        state := q.state.insert key m
        metrics := q.metrics.incDroppedLatest.incEnqueued })
    | none =>
      let q := q.makeRoom q.events
      if q.size ≥ q.capacity then (false, { q with metrics := q.metrics.incDroppedLatest })
      else (true, { q with
        state := q.state.insert key m
        metrics := q.metrics.incEnqueued })
  else
    let critical := m.header.qos = .criticalReliable ∨ m.header.qos = .commandReliable
    if q.size ≥ q.capacity then
      if critical then (false, { q with metrics := q.metrics.incRejectedCritical })
      else
        match q.events with
        | _ :: events => (true, { q with
            events := events ++ [m]
            metrics := q.metrics.incDroppedLatest.incEnqueued })
        | [] => (false, { q with metrics := q.metrics.incDroppedLatest })
    else if critical then (true, { q with
      critical := q.critical ++ [m]
      metrics := q.metrics.incEnqueued })
    else (true, { q with
      events := q.events ++ [m]
      metrics := q.metrics.incEnqueued })

/-- The entry of the smallest key. -/
def firstState (q : BoundedQosQueue) : Option (Σ _ : UInt64, NativeMessage) :=
  match q.state.entries with
  | [] => none
  | e :: es => some (es.foldl (fun it candidate => if candidate.1 < it.1 then candidate else it) e)

/-- The message that a round of `pop` takes out, if there is one, and the queue without it. -/
def takeNext (q : BoundedQosQueue) : Option (NativeMessage × BoundedQosQueue) :=
  match q.critical with
  | m :: rest => some (m, { q with critical := rest })
  | [] =>
    match q.events with
    | m :: rest => some (m, { q with events := rest })
    | [] => q.firstState.map fun e => (e.2, { q with state := q.state.erase e.1 })

/-- The loop of `pop`, for at most so many rounds. -/
def popLoop (nowMs : UInt64) : ℕ → BoundedQosQueue → Option NativeMessage × BoundedQosQueue
  | 0, q => (none, q)
  | fuel + 1, q =>
    match q.takeNext with
    | none => (none, q)
    | some (m, q) =>
      if expired m nowMs then popLoop nowMs fuel { q with metrics := q.metrics.incExpired }
      else (some m, { q with metrics := q.metrics.incDelivered })

/-- `BoundedQosQueue::pop`: the message, if the call returns true. -/
def pop (q : BoundedQosQueue) (nowMs : UInt64) : Option NativeMessage × BoundedQosQueue :=
  popLoop nowMs (q.size + 1) q

/-- `BoundedQosQueue::clear`. -/
def clear (q : BoundedQosQueue) : BoundedQosQueue :=
  { q with critical := [], events := [], state := ∅ }

/-- What a queue holds. -/
def messages (q : BoundedQosQueue) : List NativeMessage := q.critical ++ q.events ++ values q.state

variable {q : BoundedQosQueue} {m x : NativeMessage} {nowMs : UInt64}

@[simp] theorem mem_messages :
    x ∈ q.messages ↔ x ∈ q.critical ∨ x ∈ q.events ∨ x ∈ values q.state := by
  simp [messages]

/-! ### Pushing -/

theorem messages_makeRoom (es : List NativeMessage) (h : x ∈ (q.makeRoom es).messages) :
    x ∈ q.critical ∨ x ∈ es ∨ x ∈ values q.state := by
  induction es generalizing q with
  | nil => simpa [makeRoom] using h
  | cons e es ih =>
    unfold makeRoom at h
    split_ifs at h with hfull
    · rcases ih h with hx | hx | hx
      · exact Or.inl hx
      · exact Or.inr (Or.inl (List.mem_cons_of_mem _ hx))
      · exact Or.inr (Or.inr hx)
    · simpa using h

/-- **A queue holds what was pushed to it**, and nothing else. -/
theorem mem_messages_push (h : x ∈ (q.push m nowMs).2.messages) : x ∈ q.messages ∨ x = m := by
  unfold push at h
  by_cases hbad : q.capacity = 0 ∨ m.length > kMaxPayloadBytes ∨ expired m nowMs = true
  · rw [if_pos hbad] at h
    exact Or.inl (by simpa using h)
  rw [if_neg hbad] at h
  by_cases hstate : isState m = true
  · rw [if_pos hstate] at h
    cases hold : q.state.lookup (streamKey m) with
    | some old =>
      -- latest wins: the stream's message is replaced
      simp only [hold, mem_messages] at h ⊢
      rcases h with h | h | h
      · exact Or.inl (Or.inl h)
      · exact Or.inl (Or.inr (Or.inl h))
      · exact (mem_values_insert h).imp_left fun h => Or.inr (Or.inr h)
    | none =>
      have hroom : ∀ {y}, y ∈ (q.makeRoom q.events).messages → y ∈ q.messages := fun hy =>
        mem_messages.mpr (messages_makeRoom _ hy)
      simp only [hold] at h
      split_ifs at h
      · exact Or.inl (hroom (by simpa using h))
      · rcases mem_messages.mp h with h | h | h
        · exact Or.inl (hroom (mem_messages.mpr (Or.inl h)))
        · exact Or.inl (hroom (mem_messages.mpr (Or.inr (Or.inl h))))
        · exact (mem_values_insert h).imp_left fun h =>
            hroom (mem_messages.mpr (Or.inr (Or.inr h)))
  · rw [if_neg hstate] at h
    dsimp only at h
    by_cases hsize : q.size ≥ q.capacity
    · rw [if_pos hsize] at h
      split_ifs at h
      · exact Or.inl (by simpa using h)
      · cases he : q.events with
        | nil =>
          simp only [he] at h
          exact Or.inl (by simpa [he] using h)
        | cons e es =>
          simp only [he, mem_messages, List.mem_append, List.mem_cons] at h ⊢
          tauto
    · rw [if_neg hsize] at h
      split_ifs at h <;>
        · simp only [mem_messages, List.mem_append, List.mem_singleton] at h ⊢
          tauto

/-! ### Popping -/

theorem mem_firstState {e : Σ _ : UInt64, NativeMessage} (h : q.firstState = some e) :
    e ∈ q.state.entries := by
  have hfold : ∀ (es : List (Σ _ : UInt64, NativeMessage)) (it : Σ _ : UInt64, NativeMessage),
      es.foldl (fun it candidate => if candidate.1 < it.1 then candidate else it) it ∈
        it :: es := by
    intro es
    induction es with
    | nil => exact fun it => List.mem_singleton_self it
    | cons c es ih =>
      intro it
      rw [List.foldl_cons]
      rcases List.mem_cons.mp (ih (if c.1 < it.1 then c else it)) with hit | hit
      · rw [hit]
        split_ifs <;> simp
      · exact List.mem_cons_of_mem _ (List.mem_cons_of_mem _ hit)
  unfold firstState at h
  cases hes : q.state.entries with
  | nil => simp [hes] at h
  | cons e' es =>
    simp only [hes, Option.some.injEq] at h
    exact h ▸ hfold es e'

theorem takeNext_eq_some {q' : BoundedQosQueue} (h : q.takeNext = some (m, q')) :
    m ∈ q.messages ∧ (∀ x ∈ q'.messages, x ∈ q.messages) ∧ q'.size + 1 = q.size := by
  unfold takeNext at h
  cases hc : q.critical with
  | cons c rest =>
    simp only [hc, Option.some.injEq, Prod.mk.injEq] at h
    obtain ⟨rfl, rfl⟩ := h
    refine ⟨by simp [hc], fun x hx => ?_, by simp [size, hc]; omega⟩
    simp only [mem_messages, hc, List.mem_cons] at hx ⊢
    tauto
  | nil =>
    cases he : q.events with
    | cons e rest =>
      simp only [hc, he, Option.some.injEq, Prod.mk.injEq] at h
      obtain ⟨rfl, rfl⟩ := h
      refine ⟨by simp [he], fun x hx => ?_, by simp [size, hc, he]; omega⟩
      simp only [mem_messages, he, List.mem_cons] at hx ⊢
      tauto
    | nil =>
      simp only [hc, he, Option.map_eq_some_iff, Prod.mk.injEq] at h
      obtain ⟨e, hfirst, rfl, rfl⟩ := h
      have hmem := mem_firstState hfirst
      have hin : e.1 ∈ q.state := AList.mem_keys.mpr (List.mem_map.mpr ⟨e, hmem, rfl⟩)
      refine ⟨?_, fun x hx => ?_, ?_⟩
      · exact mem_messages.mpr (Or.inr (Or.inr (List.mem_map.mpr ⟨e, hmem, rfl⟩)))
      · rcases mem_messages.mp hx with hx | hx | hx
        · exact absurd hx List.not_mem_nil
        · exact absurd hx List.not_mem_nil
        · exact mem_messages.mpr (Or.inr (Or.inr (mem_values_erase hx)))
      · have hcount := count_erase hin
        simp only [size, hc, he, List.length_nil]
        omega

/-- The rounds allowed do not matter once they are more than the messages held. -/
theorem popLoop_congr : ∀ {n n' : ℕ} {q : BoundedQosQueue}, q.size < n → q.size < n' →
    popLoop nowMs n q = popLoop nowMs n' q
  | n + 1, n' + 1, q, hn, hn' => by
    unfold popLoop
    cases hnext : q.takeNext with
    | none => rfl
    | some p =>
      obtain ⟨m, q'⟩ := p
      have hsize := (takeNext_eq_some hnext).2.2
      dsimp only
      split_ifs
      · have hsame : { q' with metrics := q'.metrics.incExpired }.size = q'.size := rfl
        exact popLoop_congr (by omega) (by omega)
      · rfl

/-- **One round of the loop of `pop`**: the loop goes on only after an expired message. -/
theorem pop_eq (q : BoundedQosQueue) (nowMs : UInt64) : q.pop nowMs =
    match q.takeNext with
    | none => (none, q)
    | some (m, q') =>
      if expired m nowMs then pop { q' with metrics := q'.metrics.incExpired } nowMs
      else (some m, { q' with metrics := q'.metrics.incDelivered }) := by
  conv_lhs => unfold pop popLoop
  cases hnext : q.takeNext with
  | none => rfl
  | some p =>
    obtain ⟨m, q'⟩ := p
    have hsize := (takeNext_eq_some hnext).2.2
    dsimp only
    split_ifs
    · have hsame : { q' with metrics := q'.metrics.incExpired }.size = q'.size := rfl
      exact popLoop_congr (by omega) (by omega)
    · rfl

/-- **A pop returns what the queue held**, and leaves nothing new behind. -/
theorem mem_popLoop {n : ℕ} {r : Option NativeMessage × BoundedQosQueue}
    (h : popLoop nowMs n q = r) :
    (∀ m ∈ r.1, m ∈ q.messages) ∧ ∀ x ∈ r.2.messages, x ∈ q.messages := by
  induction n generalizing q with
  | zero =>
    obtain rfl := h
    exact ⟨fun m hm => (by cases hm), fun x hx => hx⟩
  | succ n ih =>
    unfold popLoop at h
    cases hnext : q.takeNext with
    | none =>
      simp only [hnext] at h
      obtain rfl := h
      exact ⟨fun m hm => (by cases hm), fun x hx => hx⟩
    | some p =>
      obtain ⟨m, q'⟩ := p
      obtain ⟨hm, hrest, -⟩ := takeNext_eq_some hnext
      simp only [hnext] at h
      split_ifs at h
      · obtain ⟨h1, h2⟩ := ih h
        exact ⟨fun x hx => hrest x (by simpa using h1 x hx),
          fun x hx => hrest x (by simpa using h2 x hx)⟩
      · obtain rfl := h
        refine ⟨fun x hx => ?_, fun x hx => hrest x (by simpa using hx)⟩
        obtain rfl : m = x := by simpa using hx
        exact hm

theorem mem_of_pop (h : (q.pop nowMs).1 = some m) : m ∈ q.messages :=
  (mem_popLoop rfl).1 m h

theorem mem_messages_pop (h : x ∈ (q.pop nowMs).2.messages) : x ∈ q.messages :=
  (mem_popLoop rfl).2 x h

end BoundedQosQueue

end NewMavlink.Proxy.Queue
