import NewMavlink.Proxy.Cache
import NewMavlink.Proxy.Limits
import NewMavlink.Proxy.QueueLaws
import NewMavlink.Proxy.Subscribers

/-! # A subscription that does not get all of the state

`subscribe` records the subscription, and then pushes the cached messages that it asks for into the
queue of the link, until one is refused.

* `push_true_iff`, `Entered`: when a push finds room, and what it then makes of a queue.
* `enters_iff`: when messages that are pushed one after the other are all in the queue at the end:
  if they fit beside what the queue cannot drop, and every critical one finds the queue not full.
* `all_or_nothing_iff`: so a call of `subscribe` is all or nothing exactly if a check refuses it or
  the cached messages fit. What was recorded and pushed before a refusal stays
  (`half_subscribed`). -/

namespace NewMavlink.Proxy.Subscribing

open NewMavlink.Lib.Tables NewMavlink.Lib.Runs NewMavlink.Wire NewMavlink.State.Messages
open NewMavlink.Proxy.Queue NewMavlink.Proxy.Queue.BoundedQosQueue
open NewMavlink.Proxy.QueueRuns NewMavlink.Proxy.QueueLaws
open NewMavlink.Proxy.Links hiding streamKey
open NewMavlink.Proxy.Links.NativeProxy NewMavlink.Proxy.Ingest
open NewMavlink.Proxy.Cache NewMavlink.Proxy.Limits NewMavlink.Proxy.Subscribers

variable {q q' : BoundedQosQueue} {m : NativeMessage} {ms : List NativeMessage} {nowMs : UInt64}
  {c : ℕ}

/-! ### One push -/

/-- The message may be dropped to make room for another. -/
def isEvent (m : NativeMessage) : Bool := !isState m && !decide (IsCritical m)

/-- The room that messages need, if they are of different streams. -/
def needs (q : BoundedQosQueue) (ms : List NativeMessage) : ℕ := ms.countP fun m => !replaces q m

/-- What becomes of a queue that messages of different streams are pushed into. -/
structure Entered (q : BoundedQosQueue) (ms : List NativeMessage) (q' : BoundedQosQueue) :
    Prop where
  capacity : q'.capacity = q.capacity
  size : q'.size = min q.capacity (q.size + needs q ms)
  keeps : kept q' + ms.countP isEvent = kept q + needs q ms
  critical : q'.critical = q.critical ++ ms.filter (IsCritical ·)
  events : q'.events <:+ q.events ++ ms.filter isEvent
  state : ∀ m ∈ ms, isState m = true → q'.state.lookup (streamKey m) = some m
  others : ∀ κ, (∀ m ∈ ms, streamKey m ≠ κ) → q'.state.lookup κ = q.state.lookup κ

theorem kept_pos_of_replaces (h : replaces q m = true) : 0 < kept q := by
  unfold replaces at h
  have hin : streamKey m ∈ q.state := AList.lookup_isSome.mp (Bool.and_elim_right h)
  have hcount := count_erase hin
  unfold kept
  omega

theorem isEvent_of_isState (h : isState m = true) : isEvent m = false := by
  simp [isEvent, h]

theorem isEvent_of_isCritical (h : IsCritical m) : isEvent m = false := by
  simp [isEvent, h]

/-- **When a push finds room**: a critical message needs a place that is free, any other one that is
free or taken by an event. -/
theorem push_true_iff (h : QueueInv c q) (hlen : m.length ≤ kMaxPayloadBytes)
    (htime : expired m nowMs = false) : (q.push m nowMs).1 = true ↔
      replaces q m = true ∨ if IsCritical m then q.size < q.capacity else kept q < q.capacity := by
  rw [push_fst_iff h.bounded, HasPlace, and_iff_right_iff_imp]
  rintro hplace (hcap | hlong | hlate)
  · -- a queue without capacity has neither a place nor a predecessor
    have hsize := h.bounded
    have hkept := size_eq_kept q
    rcases hplace with hr | hroom
    · have hpos := kept_pos_of_replaces hr
      omega
    · split_ifs at hroom
      · omega
      · omega
  · omega
  · simp [htime] at hlate

theorem roomIn_size {r : BoundedQosQueue} (h : RoomIn q r) :
    r.size + 1 = min q.capacity (q.size + 1) := by
  cases h with
  | free hlt => omega
  | evicted hfull e es he =>
    have hq := size_eq_kept q
    have hr := size_eq_kept { q with events := es, metrics := q.metrics.incDroppedLatest }
    have hkept : kept { q with events := es, metrics := q.metrics.incDroppedLatest } = kept q := rfl
    rw [he, List.length_cons] at hq
    dsimp only at hr
    omega

theorem lookup_insert_state (t : Table UInt64 NativeMessage) (m : NativeMessage) :
    (∀ x ∈ [m], isState x = true → (t.insert (streamKey m) m).lookup (streamKey x) = some x) ∧
      ∀ κ, (∀ x ∈ [m], streamKey x ≠ κ) →
        (t.insert (streamKey m) m).lookup κ = t.lookup κ := by
  constructor
  · intro x hx _
    rw [List.mem_singleton.mp hx]
    exact AList.lookup_insert _
  · intro κ hκ
    exact AList.lookup_insert_ne (hκ m (List.mem_singleton_self m)).symm

theorem entered_replaced {old : NativeMessage} (hsize : q.size ≤ q.capacity)
    (hstate : isState m = true) (hold : q.state.lookup (streamKey m) = some old)
    (metrics : QueueMetrics) :
    Entered q [m] { q with state := q.state.insert (streamKey m) m, metrics } := by
  have hneeds : needs q [m] = 0 := by simp [needs, replaces, hstate, hold]
  have hevent := isEvent_of_isState hstate
  have hcrit : ¬ IsCritical m := not_isCritical_of_isState hstate
  have hin : streamKey m ∈ q.state := AList.lookup_isSome.mp (by rw [hold]; rfl)
  obtain ⟨hstored, hothers⟩ := lookup_insert_state q.state m
  have hcount : count (q.state.insert (streamKey m) m) = count q.state := count_insert_of_mem hin
  refine ⟨rfl, ?_, ?_, by simp [hcrit], by simp [hevent], hstored, hothers⟩
  · unfold size at hsize ⊢
    rw [hneeds]
    dsimp only
    omega
  · unfold kept
    rw [hneeds, List.countP_singleton, hevent]
    dsimp only
    rw [hcount]
    rfl

theorem entered_stream {r : BoundedQosQueue} (hroom : RoomIn q r) (hstate : isState m = true)
    (hnew : q.state.lookup (streamKey m) = none) (metrics : QueueMetrics) :
    Entered q [m] { r with state := r.state.insert (streamKey m) m, metrics } := by
  have hneeds : needs q [m] = 1 := by simp [needs, replaces, hnew]
  have hevent := isEvent_of_isState hstate
  have hcrit : ¬ IsCritical m := not_isCritical_of_isState hstate
  have hout : streamKey m ∉ r.state := by
    rw [hroom.state_eq]
    exact AList.lookup_eq_none.mp hnew
  obtain ⟨hstored, hothers⟩ := lookup_insert_state r.state m
  have hcount : count (r.state.insert (streamKey m) m) = count r.state + 1 :=
    count_insert_of_notMem hout
  have hroomsize := roomIn_size hroom
  refine ⟨hroom.capacity_eq, ?_, ?_, ?_, ?_, hstored, fun κ hκ => ?_⟩
  · rw [hneeds, ← hroomsize]
    unfold size
    dsimp only
    omega
  · unfold kept
    rw [hneeds, List.countP_singleton, hevent]
    dsimp only
    rw [hcount, hroom.state_eq, hroom.critical_eq]
    simp [Nat.add_assoc]
  · simp [hcrit, hroom.critical_eq]
  · simpa [hevent] using hroom.events_suffix
  · rw [← hroom.state_eq]
    exact hothers κ hκ

theorem entered_critical (hroom : q.size < q.capacity) (hcrit : IsCritical m)
    (metrics : QueueMetrics) :
    Entered q [m] { q with critical := q.critical ++ [m], metrics } := by
  have hstate := isState_of_isCritical hcrit
  have hneeds : needs q [m] = 1 := by simp [needs, replaces, hstate]
  have hevent := isEvent_of_isCritical hcrit
  refine ⟨rfl, ?_, ?_, by simp [hcrit], by simp [hevent], by simp [hstate], fun κ _ => rfl⟩
  · rw [hneeds]
    unfold size at hroom ⊢
    rw [List.length_append, List.length_singleton]
    dsimp only
    omega
  · unfold kept
    rw [hneeds, List.countP_singleton, hevent, List.length_append, List.length_singleton]
    simp [Nat.add_right_comm]

theorem entered_event {r : BoundedQosQueue} (hroom : RoomIn q r) (hstate : isState m = false)
    (hcrit : ¬ IsCritical m) (metrics : QueueMetrics) :
    Entered q [m] { r with events := r.events ++ [m], metrics } := by
  have hneeds : needs q [m] = 1 := by simp [needs, replaces, hstate]
  have hevent : isEvent m = true := by simp [isEvent, hstate, hcrit]
  have hroomsize := roomIn_size hroom
  refine ⟨hroom.capacity_eq, ?_, ?_, ?_, ?_, by simp [hstate], fun κ _ => ?_⟩
  · rw [hneeds, ← hroomsize]
    unfold size
    rw [List.length_append, List.length_singleton]
    dsimp only
    omega
  · unfold kept
    rw [hneeds, List.countP_singleton, hevent]
    dsimp only
    rw [hroom.state_eq, hroom.critical_eq]
    rfl
  · simp [hcrit, hroom.critical_eq]
  · rw [List.filter_singleton, hevent]
    exact List.suffix_append_self_iff.mpr hroom.events_suffix
  · rw [hroom.state_eq]

/-- **What becomes of the queue** when a push returns true. -/
theorem entered_push (h : QueueInv c q) (hok : (q.push m nowMs).1 = true) :
    Entered q [m] (q.push m nowMs).2 := by
  have hpush := push_cases h.bounded m nowMs
  generalize q.push m nowMs = r at hpush hok
  cases hpush with
  | late => cases hok
  | rejected => cases hok
  | noRoom => cases hok
  | replaced old hstate hold => exact entered_replaced h.bounded hstate hold _
  | stream r hroom hstate hnew => exact entered_stream hroom hstate hnew _
  | critical hroom hcrit => exact entered_critical hroom hcrit _
  | event r hroom hstate hcrit => exact entered_event hroom hstate hcrit _

/-! ### Many pushes -/

/-- Messages are pushed one after the other, until one is refused. -/
def pushAll : List NativeMessage → BoundedQosQueue → Bool × BoundedQosQueue
  | [], q => (true, q)
  | m :: ms, q => if (q.push m 0).1 then pushAll ms (q.push m 0).2 else (false, (q.push m 0).2)

/-- **The messages fit**: they find room beside what the queue does not drop, and every critical one
finds a free place after those before it. -/
structure Fits (q : BoundedQosQueue) (ms : List NativeMessage) : Prop where
  room : kept q + needs q ms ≤ q.capacity
  criticals : ∀ before m after, ms = before ++ m :: after → IsCritical m →
    q.size + needs q before < q.capacity

theorem needs_cons (q : BoundedQosQueue) (m : NativeMessage) (ms : List NativeMessage) :
    needs q (m :: ms) = needs q [m] + needs q ms := by
  unfold needs
  rw [← List.countP_append, List.singleton_append]

theorem Entered.needs_eq {q₁ : BoundedQosQueue} (h : Entered q [m] q₁)
    (hkeys : ∀ x ∈ ms, streamKey x ≠ streamKey m) : needs q₁ ms = needs q ms := by
  refine List.countP_congr fun x hx => ?_
  have hlookup : q₁.state.lookup (streamKey x) = q.state.lookup (streamKey x) :=
    h.others _ fun y hy => by rw [List.mem_singleton.mp hy]; exact (hkeys x hx).symm
  unfold replaces
  rw [hlookup]

theorem Entered.cons {q₁ : BoundedQosQueue} (h₁ : Entered q [m] q₁) (h : Entered q₁ ms q')
    (hkeys : ∀ x ∈ ms, streamKey x ≠ streamKey m) : Entered q (m :: ms) q' := by
  have hneeds := h₁.needs_eq hkeys
  have hsplit := needs_cons q m ms
  constructor
  · exact h.capacity.trans h₁.capacity
  · have hsize₁ := h₁.size
    have hsize := h.size
    rw [h₁.capacity] at hsize
    omega
  · have hkept₁ := h₁.keeps
    have hkept := h.keeps
    rw [List.countP_cons]
    rw [List.countP_singleton] at hkept₁
    omega
  · rw [h.critical, h₁.critical, List.append_assoc, ← List.filter_append]
    rfl
  · have hevents : q₁.events ++ ms.filter isEvent <:+
        q.events ++ [m].filter isEvent ++ ms.filter isEvent :=
      List.suffix_append_self_iff.mpr h₁.events
    rw [List.append_assoc, ← List.filter_append] at hevents
    exact h.events.trans hevents
  · intro x hx hstate
    rcases List.mem_cons.mp hx with rfl | hx
    · rw [h.others _ hkeys]
      exact h₁.state x (List.mem_singleton_self x) hstate
    · exact h.state x hx hstate
  · intro κ hκ
    rw [h.others κ fun x hx => hκ x (List.mem_cons_of_mem _ hx)]
    exact h₁.others κ fun x hx => hκ x (List.mem_cons.mpr (Or.inl (List.mem_singleton.mp hx)))

theorem entered_nil (h : QueueInv c q) : Entered q [] q := by
  refine ⟨rfl, (min_eq_right h.bounded).symm, rfl, by simp, by simp, by simp, fun _ _ => rfl⟩

/-- **What becomes of the queue** when none of the messages is refused. -/
theorem entered_pushAll (h : QueueInv c q) (hkeys : (ms.map streamKey).Nodup)
    (hok : (pushAll ms q).1 = true) : Entered q ms (pushAll ms q).2 := by
  induction ms generalizing q with
  | nil => exact entered_nil h
  | cons m ms ih =>
    rw [List.map_cons, List.nodup_cons] at hkeys
    have hother : ∀ x ∈ ms, streamKey x ≠ streamKey m := fun x hx heq =>
      hkeys.1 (heq ▸ List.mem_map_of_mem hx)
    unfold pushAll at hok ⊢
    split_ifs at hok ⊢ with hpush
    exact (entered_push h hpush).cons (ih (queueInv_push h m 0) hkeys.2 hok) hother

theorem queueInv_pushAll (h : QueueInv c q) : QueueInv c (pushAll ms q).2 := by
  induction ms generalizing q with
  | nil => exact h
  | cons m ms ih =>
    unfold pushAll
    split_ifs
    · exact ih (queueInv_push h m 0)
    · exact queueInv_push h m 0

theorem push_true_of_room (h : QueueInv c q) (hlen : m.length ≤ kMaxPayloadBytes)
    (htime : expired m nowMs = false) (hroom : kept q + needs q [m] ≤ q.capacity) :
    (q.push m nowMs).1 = true ↔ (IsCritical m → q.size < q.capacity) := by
  rw [push_true_iff h hlen htime]
  by_cases hcrit : IsCritical m
  · have hr : replaces q m = false := by simp [replaces, isState_of_isCritical hcrit]
    simp [hr, hcrit]
  · refine iff_of_true ?_ fun hc => absurd hc hcrit
    rw [if_neg hcrit]
    by_cases hr : replaces q m = true
    · exact Or.inl hr
    · have hneeds : needs q [m] = 1 := by simpa [needs] using hr
      exact Or.inr (by omega)

/-- **When none is refused** of messages that find room: if every critical one finds a free
place. -/
theorem pushAll_true_iff (h : QueueInv c q) (hkeys : (ms.map streamKey).Nodup)
    (hlen : ∀ m ∈ ms, m.length ≤ kMaxPayloadBytes) (hroom : kept q + needs q ms ≤ q.capacity) :
    (pushAll ms q).1 = true ↔ ∀ before m after, ms = before ++ m :: after → IsCritical m →
      q.size + needs q before < q.capacity := by
  induction ms generalizing q with
  | nil => exact iff_of_true rfl fun before m after heq => by simp at heq
  | cons a ms ih =>
    rw [List.map_cons, List.nodup_cons] at hkeys
    have hother : ∀ x ∈ ms, streamKey x ≠ streamKey a := fun x hx heq =>
      hkeys.1 (heq ▸ List.mem_map_of_mem hx)
    rw [needs_cons] at hroom
    have hpush := push_true_of_room h (hlen a List.mem_cons_self) (expired_zero a)
      (show kept q + needs q [a] ≤ q.capacity by omega)
    unfold pushAll
    by_cases hok : (q.push a 0).1 = true
    · have hentered := entered_push h hok
      have hsize := hentered.size
      have hkept := hentered.keeps
      rw [if_pos hok, ih (queueInv_push h a 0) hkeys.2 fun m hm => hlen m
        (List.mem_cons_of_mem _ hm)]
      · have hstep : ∀ before, before ⊆ ms →
            ((q.push a 0).2.size + needs (q.push a 0).2 before < (q.push a 0).2.capacity ↔
              q.size + needs q (a :: before) < q.capacity) := by
          intro before hsub
          rw [hentered.needs_eq fun x hx => hother x (hsub hx), hentered.capacity, needs_cons]
          omega
        constructor
        · intro hall before m after heq hcrit
          cases before with
          | nil =>
            obtain ⟨rfl, -⟩ := List.cons.inj heq
            exact hpush.mp hok hcrit
          | cons b before =>
            obtain ⟨rfl, rfl⟩ := List.cons.inj heq
            exact (hstep before (List.subset_append_left _ _)).mp (hall before m after rfl hcrit)
        · rintro hall before m after rfl hcrit
          exact (hstep before (List.subset_append_left _ _)).mpr
            (hall (a :: before) m after rfl hcrit)
      · rw [hentered.needs_eq hother, hentered.capacity]
        omega
    · rw [if_neg hok]
      refine iff_of_false Bool.false_ne_true fun hall => hok (hpush.mpr fun hcrit => ?_)
      exact hall [] a ms rfl hcrit

theorem Entered.mem_of_not_isEvent (h : Entered q ms q') (hm : m ∈ ms) (he : isEvent m = false) :
    m ∈ q'.messages := by
  by_cases hstate : isState m = true
  · exact mem_messages.mpr (Or.inr (Or.inr (mem_values_iff.mpr ⟨_, h.state m hm hstate⟩)))
  · have hcrit : IsCritical m := by simpa [isEvent, hstate] using he
    refine mem_messages.mpr (Or.inl ?_)
    rw [h.critical]
    exact List.mem_append_right _ (List.mem_filter.mpr ⟨hm, by simpa using hcrit⟩)

theorem mem_events_of_isEvent (h : QueueInv c q) (he : isEvent m = true) (hm : m ∈ q.messages) :
    m ∈ q.events := by
  obtain ⟨hstate, hcrit⟩ : isState m = false ∧ ¬ IsCritical m := by simpa [isEvent] using he
  rcases mem_messages.mp hm with hm | hm | hm
  · exact absurd (h.critical m hm) hcrit
  · exact hm
  · obtain ⟨κ, hκ⟩ := mem_values_iff.mp hm
    rw [(h.state κ m hκ).1] at hstate
    cases hstate

/-- **When no message is dropped for a later one**: if all of them find room beside what the queue
does not drop. -/
theorem Entered.all_mem_iff (h : Entered q ms q') (hinv : QueueInv c q')
    (hkeys : (ms.map streamKey).Nodup) :
    (∀ m ∈ ms, m ∈ q'.messages) ↔ kept q + needs q ms ≤ q.capacity := by
  have hsize := h.size
  have hkept := h.keeps
  have hsplit := size_eq_kept q'
  have hbefore := size_eq_kept q
  rw [List.countP_eq_length_filter] at hkept
  constructor
  · intro hall
    have hsub : ms.filter isEvent ⊆ q'.events := by
      intro m hm
      obtain ⟨hm, he⟩ := List.mem_filter.mp hm
      exact mem_events_of_isEvent hinv he (hall m hm)
    have hnodup : (ms.filter isEvent).Nodup := (List.Nodup.of_map _ hkeys).filter _
    have hle := (List.subperm_of_subset hnodup hsub).length_le
    omega
  · intro hroom m hm
    cases he : isEvent m with
    | false => exact h.mem_of_not_isEvent hm he
    | true =>
      -- the events that are left are enough of the last ones to hold those of the messages
      have hlast : ms.filter isEvent <:+ q'.events :=
        List.suffix_of_suffix_length_le (List.suffix_append _ _) h.events (by omega)
      exact mem_messages.mpr (Or.inr (Or.inl
        (hlast.mem (List.mem_filter.mpr ⟨hm, he⟩))))

/-- **When messages that are pushed are all in the queue at the end.** -/
theorem enters_iff (h : QueueInv c q) (hkeys : (ms.map streamKey).Nodup)
    (hlen : ∀ m ∈ ms, m.length ≤ kMaxPayloadBytes) :
    ((pushAll ms q).1 = true ∧ ∀ m ∈ ms, m ∈ (pushAll ms q).2.messages) ↔ Fits q ms := by
  constructor
  · rintro ⟨hok, hall⟩
    have hroom := ((entered_pushAll h hkeys hok).all_mem_iff (queueInv_pushAll h) hkeys).mp hall
    exact ⟨hroom, (pushAll_true_iff h hkeys hlen hroom).mp hok⟩
  · rintro ⟨hroom, hcriticals⟩
    have hok := (pushAll_true_iff h hkeys hlen hroom).mpr hcriticals
    exact ⟨hok, ((entered_pushAll h hkeys hok).all_mem_iff (queueInv_pushAll h) hkeys).mpr hroom⟩

theorem pushAll_of_refused (h : QueueInv c q) (hno : (pushAll ms q).1 = false) :
    (pushAll ms q).2 ≠ q := by
  suffices hmark : ∃ k : ℕ,
      (pushAll ms q).2.metrics.enqueued = q.metrics.enqueued + UInt64.ofNat k ∧
      pushedWord (pushAll ms q).2 = pushedWord q + UInt64.ofNat k + 1 by
    obtain ⟨k, henq, hword⟩ := hmark
    intro heq
    rw [heq] at henq hword
    have hzero : UInt64.ofNat k = 0 := by simpa using henq
    rw [hzero] at hword
    simp at hword
  induction ms generalizing q with
  | nil => cases hno
  | cons m ms ih =>
    obtain ⟨hword, henq⟩ := pushedWord_push h m 0
    unfold pushAll at hno ⊢
    split_ifs at hno ⊢ with hok
    · obtain ⟨k, henq', hword'⟩ := ih (queueInv_push h m 0) hno
      have hone : (accepted q (.push m 0)).length = 1 := by simp [accepted, hok]
      refine ⟨k + 1, ?_, ?_⟩
      · rw [henq', henq, hone, UInt64.ofNat_add]
        ac_rfl
      · rw [hword', hword, UInt64.ofNat_add]
        ac_rfl
    · have hnone : (accepted q (.push m 0)).length = 0 := by simp [accepted, hok]
      rw [hnone] at henq
      exact ⟨0, henq, by simpa using hword⟩

/-! ### Subscriptions -/

/-- The comparison of `subscribe` with a cached message. -/
def asksFor (sub : Subscription) (m : NativeMessage) : Bool :=
  decide (m.header.type.code = sub.type.code ∧ m.header.sourceId = sub.sourceId)

/-- The cached messages that a subscription asks for, in the order in which they are visited. -/
def wanted (p : NativeProxy) (visit : Visit NativeMessage) (sub : Subscription) :
    List NativeMessage :=
  (visit.order (values p.cache)).filter (asksFor sub)

/-- The proxies differ at most in the order in which they store their links. -/
def SameProxy (p p' : NativeProxy) : Prop :=
  p' = { p with links := p'.links } ∧ ∀ l, p'.links.lookup l = p.links.lookup l

/-- **All or nothing**: if the call returns true, the subscription is recorded and every cached
message that it asks for is in the queue of the link; if it returns false, it has changed
nothing. -/
structure AllOrNothing (p : NativeProxy) (visit : Visit NativeMessage) (l : UInt16)
    (sub : Subscription) : Prop where
  all : (p.subscribe visit l sub).1 = true →
    ∃ link, (p.subscribe visit l sub).2.links.lookup l = some link ∧
      link.subscriptions.lookup sub.type.code = some sub ∧
      ∀ κ m, p.cache.lookup κ = some m → m.header.type = sub.type →
        m.header.sourceId = sub.sourceId → m ∈ link.queue.messages
  nothing : (p.subscribe visit l sub).1 = false → SameProxy p (p.subscribe visit l sub).2

variable {p : NativeProxy} {visit : Visit NativeMessage} {l : UInt16} {sub : Subscription}
  {link : LinkState}

theorem replay_eq (sub : Subscription) (ms : List NativeMessage) (q : BoundedQosQueue) :
    replay sub ms q = pushAll (ms.filter (asksFor sub)) q := by
  induction ms generalizing q with
  | nil => rfl
  | cons m ms ih =>
    unfold replay
    by_cases hm : m.header.type.code = sub.type.code ∧ m.header.sourceId = sub.sourceId
    · have hasks : asksFor sub m = true := decide_eq_true hm
      rw [if_pos hm, List.filter_cons_of_pos hasks, pushAll]
      dsimp only
      rw [ih]
    · have hnot : ¬ asksFor sub m = true := by simpa [asksFor] using hm
      rw [if_neg hm, List.filter_cons_of_neg hnot, ih]

theorem subscribe_refused (h : records p l sub = false) :
    p.subscribe visit l sub = (false, p) := by
  unfold subscribe
  unfold records at h
  cases hl : p.links.lookup l with
  | none => rfl
  | some link =>
    rw [hl] at h
    dsimp only at h ⊢
    split_ifs with hbad hfull
    · rfl
    · rfl
    · have hgood : subscribable sub = true := by simpa using hbad
      rw [hgood, decide_eq_false hfull] at h
      cases h

/-- The link after its subscription is recorded and the cached messages are pushed. -/
def subscribed (p : NativeProxy) (visit : Visit NativeMessage) (sub : Subscription)
    (link : LinkState) : LinkState :=
  { link with
    queue := (pushAll (wanted p visit sub) link.queue).2
    subscriptions := link.subscriptions.insert sub.type.code sub }

theorem subscribe_recorded (h : records p l sub = true) (hl : p.links.lookup l = some link) :
    p.subscribe visit l sub = ((pushAll (wanted p visit sub) link.queue).1,
      { p with links := p.links.insert l (subscribed p visit sub link) }) := by
  unfold subscribe
  unfold records at h
  rw [hl] at h ⊢
  dsimp only at h ⊢
  obtain ⟨hgood, hroom⟩ := Bool.and_eq_true_iff.mp h
  have hfree : ¬ ((link.subscriptions.lookup sub.type.code).isNone = true ∧
      p.subscriptionCount ≥ kMaxProxySubscriptions) := by
    rwa [Bool.not_eq_true', decide_eq_false_iff_not] at hroom
  rw [if_neg (by simp [hgood]), if_neg hfree, replay_eq]
  rfl

theorem link_of_records (h : records p l sub = true) : ∃ link, p.links.lookup l = some link := by
  unfold records at h
  cases hl : p.links.lookup l with
  | none => simp [hl] at h
  | some link => exact ⟨link, rfl⟩

theorem mem_wanted {m : NativeMessage} : m ∈ wanted p visit sub ↔
    (∃ κ, p.cache.lookup κ = some m) ∧ m.header.type = sub.type ∧
      m.header.sourceId = sub.sourceId := by
  unfold wanted asksFor
  rw [List.mem_filter, mem_visit, decide_eq_true_eq]
  refine and_congr_right fun _ => and_congr_left fun _ => ?_
  exact ⟨fun h => congrArg MessageType.mk h, fun h => congrArg MessageType.code h⟩

theorem wanted_nodup (h : CacheInv p) : ((wanted p visit sub).map streamKey).Nodup := by
  have hkeys : (values p.cache).map streamKey = p.cache.keys := by
    unfold values
    rw [List.map_map]
    refine List.map_congr_left fun e he => ?_
    exact (h e.1 e.2 (AList.mem_lookup_iff.mpr he)).2.1
  have hall : ((visit.order (values p.cache)).map streamKey).Nodup := by
    rw [((visit.perm (values p.cache)).map streamKey).nodup_iff, hkeys]
    exact AList.keys_nodup _
  exact hall.sublist (List.filter_sublist.map _)

/-- Cached messages are no longer than a message can be. -/
def LengthInv (p : NativeProxy) : Prop :=
  ∀ κ m, p.cache.lookup κ = some m → m.length ≤ kMaxPayloadBytes

theorem lengthInv_proxyStep (p : NativeProxy) (op : ProxyOp) (h : LengthInv p) :
    LengthInv (proxyStep p op) := by
  intro κ m hm
  rcases lookup_cache_proxyStep p op κ with heq | ⟨l, r, nowMs, -, hs, -, hnew⟩
  · exact h κ m (heq ▸ hm)
  · obtain rfl := Option.some.inj (hnew.symm.trans hm)
    obtain ⟨-, -, hlen, -⟩ := admits_eq_true_iff.mp (admits_of_stored hs).1
    exact hlen

theorem lengthInv_run (c : ℕ) (ops : List ProxyOp) : LengthInv (run proxyStep (init c) ops) :=
  run_keeps lengthInv_proxyStep ops fun κ m hm => by cases hm

/-- A call that a check refuses has changed nothing. -/
theorem allOrNothing_refused (h : records p l sub = false) : AllOrNothing p visit l sub := by
  constructor
  all_goals rw [subscribe_refused h]
  · exact fun h => by cases h
  · exact fun _ => ⟨rfl, fun _ => rfl⟩

/-- A call that records the subscription is all or nothing if and only if the messages fit. -/
theorem allOrNothing_recorded (hcache : CacheInv p) (hlength : LengthInv p)
    (hq : QueueInv c link.queue) (h : records p l sub = true)
    (hl : p.links.lookup l = some link) :
    AllOrNothing p visit l sub ↔ Fits link.queue (wanted p visit sub) := by
  have hnodup : ((wanted p visit sub).map streamKey).Nodup := wanted_nodup hcache
  have hlengths : ∀ m ∈ wanted p visit sub, m.length ≤ kMaxPayloadBytes := fun m hm =>
    (mem_wanted.mp hm).1.elim fun κ => hlength κ m
  have henters := enters_iff hq hnodup hlengths
  have hcall : p.subscribe visit l sub = ((pushAll (wanted p visit sub) link.queue).1,
      { p with links := p.links.insert l (subscribed p visit sub link) }) :=
    subscribe_recorded h hl
  have hresult : (p.subscribe visit l sub).1 = (pushAll (wanted p visit sub) link.queue).1 := by
    rw [hcall]
  have hlink : (p.subscribe visit l sub).2.links.lookup l =
      some (subscribed p visit sub link) := by
    rw [hcall]
    exact AList.lookup_insert _
  constructor
  · intro hboth
    refine henters.mp ?_
    cases hok : (pushAll (wanted p visit sub) link.queue).1 with
    | true =>
      obtain ⟨link', hl', -, hall⟩ := hboth.all (hresult.trans hok)
      obtain rfl := Option.some.inj (hlink.symm.trans hl')
      refine ⟨rfl, fun m hm => ?_⟩
      obtain ⟨⟨κ, hκ⟩, htype, hsource⟩ := mem_wanted.mp hm
      exact hall κ m hκ htype hsource
    | false =>
      -- the queue counts the message that it refused
      have hsame := (hboth.nothing (hresult.trans hok)).2 l
      rw [hlink, hl] at hsame
      have hqueue := congrArg LinkState.queue (Option.some.inj hsame)
      exact absurd hqueue (pushAll_of_refused hq hok)
  · intro hfits
    obtain ⟨hok, hall⟩ := henters.mpr hfits
    constructor
    · refine fun _ => ⟨_, hlink, AList.lookup_insert _, fun κ m hκ htype hsource => ?_⟩
      exact hall m (mem_wanted.mpr ⟨⟨κ, hκ⟩, htype, hsource⟩)
    · intro hno
      rw [hresult, hok] at hno
      cases hno

/-- **When a subscription is all or nothing**, for every proxy that is reached: if a check refuses
it, or if the cached messages that it asks for fit into the queue of the link. -/
theorem all_or_nothing_iff (c : ℕ) (ops : List ProxyOp) (visit : Visit NativeMessage) (l : UInt16)
    (sub : Subscription) :
    AllOrNothing (run proxyStep (init c) ops) visit l sub ↔
      records (run proxyStep (init c) ops) l sub = false ∨
        ∃ link, (run proxyStep (init c) ops).links.lookup l = some link ∧
          Fits link.queue (wanted (run proxyStep (init c) ops) visit sub) := by
  have hcache := cacheInv_run c ops
  have hlength := lengthInv_run c ops
  obtain ⟨-, hqueues⟩ := queuesInv_run c ops
  set p := run proxyStep (init c) ops
  cases hrec : records p l sub with
  | false => exact iff_of_true (allOrNothing_refused hrec) (Or.inl rfl)
  | true =>
    obtain ⟨link, hl⟩ := link_of_records hrec
    rw [allOrNothing_recorded hcache hlength (hqueues l link hl) hrec hl]
    constructor
    · exact fun hfits => Or.inr ⟨link, hl, hfits⟩
    · rintro (hno | ⟨link', hl', hfits⟩)
      · cases hno
      · obtain rfl := Option.some.inj (hl.symm.trans hl')
        exact hfits

/-- A second position that does not find room: the call returns false, but the subscription is
recorded, and the first one is in the queue. -/
theorem half_subscribed : ¬ ∀ (c : ℕ) (ops : List ProxyOp) (visit : Visit NativeMessage)
    (l : UInt16) (sub : Subscription),
    AllOrNothing (run proxyStep (init c) ops) visit l sub := by
  intro h
  let ops : List ProxyOp := [.addLink 1 (testSession 1 2), .addLink 2 (testSession 1 3),
    .ingest 1 (makePosition 2 ⟨42, 1, 0, 2, 1, 0⟩) 0,
    .ingest 1 (makePosition 2 ⟨43, 1, 0, 2, 1, 0⟩) 0]
  have hsame := ((h 1 ops .inOrder 2 { sourceId := 2 }).nothing (by decide +kernel)).2 2
  have hrecorded := congrArg (Option.map fun link => (link.subscriptions.lookup
    MessageType.position.code).isSome) hsame
  revert hrecorded
  decide +kernel

end NewMavlink.Proxy.Subscribing
