import NewMavlink.Lib.Runs
import NewMavlink.Proxy.Queue

/-! # Runs of a queue

What one operation can make of a queue whose capacity is kept (`QueueInv`), which every queue is
that started empty.

* `push_cases`: the seven things that a push can do.
* `popped_pop`: a pop takes messages out until one has not expired; `takes` lists them.
* `queueInv_step`, `queueInv_run`: a queue is bounded, and each of its three containers holds its
  own class of messages, a state message under the key of its stream. -/

namespace NewMavlink.Proxy.QueueRuns

open NewMavlink.Lib.Tables NewMavlink.Lib.Runs NewMavlink.Wire NewMavlink.State.Messages
open NewMavlink.Proxy.Queue NewMavlink.Proxy.Queue.BoundedQosQueue

/-- A message of the critical class: `CriticalReliable` or `CommandReliable`. -/
def IsCritical (m : NativeMessage) : Prop :=
  m.header.qos = .criticalReliable ∨ m.header.qos = .commandReliable

instance : DecidablePred IsCritical := fun m =>
  inferInstanceAs (Decidable (m.header.qos = .criticalReliable ∨ m.header.qos = .commandReliable))

/-- The first check of `push`, which refuses whatever the queue holds. -/
def Refusable (q : BoundedQosQueue) (m : NativeMessage) (nowMs : UInt64) : Prop :=
  q.capacity = 0 ∨ m.length > kMaxPayloadBytes ∨ expired m nowMs = true

variable {q q' : BoundedQosQueue} {m x : NativeMessage} {nowMs : UInt64}

theorem isState_of_isCritical (h : IsCritical m) : isState m = false := by
  unfold isState
  rcases h with h | h <;> simp [h, Qos.stateLatest, Qos.criticalReliable, Qos.commandReliable]

/-! ### Pushing -/

/-- The queue with room for one more message: as it is, or without its oldest event. -/
inductive RoomIn (q : BoundedQosQueue) : BoundedQosQueue → Prop
  | free (h : q.size < q.capacity) : RoomIn q q
  | evicted (h : q.size = q.capacity) (e : NativeMessage) (es : List NativeMessage)
    (he : q.events = e :: es) :
    RoomIn q { q with events := es, metrics := q.metrics.incDroppedLatest }

theorem RoomIn.critical_eq {r : BoundedQosQueue} (h : RoomIn q r) : r.critical = q.critical := by
  cases h <;> rfl

theorem RoomIn.state_eq {r : BoundedQosQueue} (h : RoomIn q r) : r.state = q.state := by
  cases h <;> rfl

theorem RoomIn.capacity_eq {r : BoundedQosQueue} (h : RoomIn q r) : r.capacity = q.capacity := by
  cases h <;> rfl

theorem RoomIn.size_lt {r : BoundedQosQueue} (h : RoomIn q r) : r.size < r.capacity := by
  cases h with
  | free h => exact h
  | evicted h e es he =>
    unfold size at h ⊢
    simp only [he, List.length_cons] at h
    dsimp only
    omega

theorem RoomIn.events_suffix {r : BoundedQosQueue} (h : RoomIn q r) : r.events <:+ q.events := by
  cases h with
  | free => exact List.suffix_rfl
  | evicted h e es he =>
    rw [he]
    exact List.suffix_cons e es

/-- What a push makes of a queue that is within its capacity: its result, and the queue. -/
inductive Pushed (q : BoundedQosQueue) (m : NativeMessage) (nowMs : UInt64) :
    Bool × BoundedQosQueue → Prop
  | late (h : Refusable q m nowMs) :
    Pushed q m nowMs (false, { q with metrics := q.metrics.incExpired })
  | rejected (hfull : q.size = q.capacity) (hcrit : IsCritical m) :
    Pushed q m nowMs (false, { q with metrics := q.metrics.incRejectedCritical })
  | noRoom (hfull : q.size = q.capacity) (hevents : q.events = []) (hcrit : ¬ IsCritical m)
    (hnew : isState m = true → q.state.lookup (streamKey m) = none) :
    Pushed q m nowMs (false, { q with metrics := q.metrics.incDroppedLatest })
  | replaced (old : NativeMessage) (hstate : isState m = true)
    (hold : q.state.lookup (streamKey m) = some old) :
    Pushed q m nowMs (true, { q with
      state := q.state.insert (streamKey m) m
      metrics := q.metrics.incDroppedLatest.incEnqueued })
  | stream (r : BoundedQosQueue) (hroom : RoomIn q r) (hstate : isState m = true)
    (hnew : q.state.lookup (streamKey m) = none) :
    Pushed q m nowMs (true, { r with
      state := r.state.insert (streamKey m) m
      metrics := r.metrics.incEnqueued })
  | critical (hroom : q.size < q.capacity) (hcrit : IsCritical m) :
    Pushed q m nowMs (true, { q with
      critical := q.critical ++ [m]
      metrics := q.metrics.incEnqueued })
  | event (r : BoundedQosQueue) (hroom : RoomIn q r) (hstate : isState m = false)
    (hcrit : ¬ IsCritical m) :
    Pushed q m nowMs (true, { r with
      events := r.events ++ [m]
      metrics := r.metrics.incEnqueued })

theorem makeRoom_of_lt (h : q.size < q.capacity) : q.makeRoom q.events = q := by
  obtain ⟨capacity, critical, events, state, metrics⟩ := q
  cases events with
  | nil => rfl
  | cons e es => exact if_neg (Nat.not_le.mpr h)

theorem makeRoom_events (events es : List NativeMessage) :
    { q with events := events }.makeRoom es = q.makeRoom es := by
  induction es generalizing q with
  | nil => rfl
  | cons e es ih =>
    unfold makeRoom
    have hdropped := ih (q := { q with metrics := q.metrics.incDroppedLatest })
    exact if_congr Iff.rfl hdropped rfl

theorem makeRoom_of_full {e : NativeMessage} {es : List NativeMessage}
    (h : q.size = q.capacity) (he : q.events = e :: es) : q.makeRoom q.events =
      { q with events := es, metrics := q.metrics.incDroppedLatest } := by
  have hroom : RoomIn q _ := .evicted h e es he
  have hrest := makeRoom_of_lt hroom.size_lt
  rw [makeRoom_events (q := { q with metrics := q.metrics.incDroppedLatest })] at hrest
  have hfull : { q with events := e :: es }.size ≥ q.capacity := by
    rw [← he]
    exact h.ge
  rw [he, makeRoom, if_pos hfull]
  exact hrest

/-- **What a push can do** to a queue that is within its capacity. -/
theorem push_cases (hsize : q.size ≤ q.capacity) (m : NativeMessage) (nowMs : UInt64) :
    Pushed q m nowMs (q.push m nowMs) := by
  unfold push
  by_cases hbad : q.capacity = 0 ∨ m.length > kMaxPayloadBytes ∨ expired m nowMs = true
  · rw [if_pos hbad]
    exact .late hbad
  rw [if_neg hbad]
  by_cases hstate : isState m = true
  · rw [if_pos hstate]
    cases hold : q.state.lookup (streamKey m) with
    | some old =>
      simp only [hold]
      exact .replaced old hstate hold
    | none =>
      have hcrit : ¬ IsCritical m := fun h => by simp [isState_of_isCritical h] at hstate
      simp only [hold]
      rcases hsize.lt_or_eq with hlt | hfull
      · rw [makeRoom_of_lt hlt, if_neg (Nat.not_le.mpr hlt)]
        exact .stream q (.free hlt) hstate hold
      · cases he : q.events with
        | nil =>
          have hsame : q.makeRoom [] = q := by rw [makeRoom, ← he]
          rw [hsame, if_pos hfull.ge]
          exact .noRoom hfull he hcrit fun _ => hold
        | cons e es =>
          have hroom : RoomIn q _ := .evicted hfull e es he
          rw [← he, makeRoom_of_full hfull he, if_neg (Nat.not_le.mpr hroom.size_lt)]
          exact .stream _ hroom hstate hold
  · rw [if_neg hstate]
    have hplain : isState m = false := by simpa using hstate
    dsimp only
    by_cases hcrit : m.header.qos = .criticalReliable ∨ m.header.qos = .commandReliable
    · rcases hsize.lt_or_eq with hlt | hfull
      · rw [if_neg (Nat.not_le.mpr hlt), if_pos hcrit]
        exact .critical hlt hcrit
      · rw [if_pos hfull.ge, if_pos hcrit]
        exact .rejected hfull hcrit
    · rcases hsize.lt_or_eq with hlt | hfull
      · rw [if_neg (Nat.not_le.mpr hlt), if_neg hcrit]
        exact .event q (.free hlt) hplain hcrit
      · rw [if_pos hfull.ge, if_neg hcrit]
        cases he : q.events with
        | nil =>
          have hpush : Pushed q m nowMs _ := .noRoom hfull he hcrit fun h => absurd h hstate
          rwa [he] at hpush
        | cons e es => exact .event _ (.evicted hfull e es he) hplain hcrit

/-- The message takes the place of the one of its stream. -/
def replaces (q : BoundedQosQueue) (m : NativeMessage) : Bool :=
  isState m && (q.state.lookup (streamKey m)).isSome

/-- The number of messages that the queue does not drop. -/
def kept (q : BoundedQosQueue) : ℕ := q.critical.length + count q.state

theorem size_eq_kept (q : BoundedQosQueue) : q.size = kept q + q.events.length := rfl

theorem RoomIn.kept_lt {r : BoundedQosQueue} (h : RoomIn q r) : kept q < q.capacity := by
  have hkept := size_eq_kept q
  cases h with
  | free hlt => omega
  | evicted hfull e es he =>
    rw [he, List.length_cons] at hkept
    omega

/-- The message passes the first check, and there is a place for it: that of the one of its stream,
one that is free, or, if it is not critical, one that an event leaves. -/
def HasPlace (q : BoundedQosQueue) (m : NativeMessage) (nowMs : UInt64) : Prop :=
  ¬ Refusable q m nowMs ∧
    (replaces q m = true ∨ if IsCritical m then q.size < q.capacity else kept q < q.capacity)

/-- **When a push succeeds.** -/
theorem push_fst_iff (hsize : q.size ≤ q.capacity) :
    (q.push m nowMs).1 = true ↔ HasPlace q m nowMs := by
  have hkept := size_eq_kept q
  have hpush := push_cases hsize m nowMs
  have hgood : (q.push m nowMs).1 = true → ¬ Refusable q m nowMs := by
    intro hok hbad
    unfold Refusable at hbad
    unfold push at hok
    rw [if_pos hbad] at hok
    cases hok
  unfold HasPlace
  generalize q.push m nowMs = r at hpush hgood
  cases hpush with
  | late hbad => exact iff_of_false Bool.false_ne_true fun h => h.1 hbad
  | rejected hfull hcrit =>
    have hr : replaces q m = false := by simp [replaces, isState_of_isCritical hcrit]
    simp [hr, hcrit, hfull]
  | noRoom hfull hevents hcrit hnew =>
    have hr : replaces q m = false := by
      unfold replaces
      cases hs : isState m with
      | false => rfl
      | true => simp [hnew hs]
    rw [hevents, List.length_nil] at hkept
    refine iff_of_false Bool.false_ne_true ?_
    rw [hr, if_neg hcrit]
    rintro ⟨-, hr | hroom⟩
    · cases hr
    · omega
  | replaced old hstate hold =>
    exact iff_of_true rfl ⟨hgood rfl, Or.inl (by simp [replaces, hstate, hold])⟩
  | stream r hroom hstate hnew =>
    have hcrit : ¬ IsCritical m := fun hc => by simp [isState_of_isCritical hc] at hstate
    refine iff_of_true rfl ⟨hgood rfl, Or.inr ?_⟩
    rw [if_neg hcrit]
    exact hroom.kept_lt
  | critical hroom hcrit =>
    exact iff_of_true rfl ⟨hgood rfl, Or.inr (by rwa [if_pos hcrit])⟩
  | event r hroom hstate hcrit =>
    refine iff_of_true rfl ⟨hgood rfl, Or.inr ?_⟩
    rw [if_neg hcrit]
    exact hroom.kept_lt

/-! ### Popping -/

/-- Where a round of `pop` finds its message. -/
inductive TakenFrom (q : BoundedQosQueue) (m : NativeMessage) : BoundedQosQueue → Prop
  | critical (rest : List NativeMessage) (h : q.critical = m :: rest) :
    TakenFrom q m { q with critical := rest }
  | event (rest : List NativeMessage) (hc : q.critical = []) (h : q.events = m :: rest) :
    TakenFrom q m { q with events := rest }
  | state (κ : UInt64) (hc : q.critical = []) (he : q.events = [])
    (h : q.state.lookup κ = some m) : TakenFrom q m { q with state := q.state.erase κ }

theorem takenFrom_of_takeNext (h : q.takeNext = some (m, q')) : TakenFrom q m q' := by
  unfold takeNext at h
  cases hc : q.critical with
  | cons c rest =>
    simp only [hc, Option.some.injEq, Prod.mk.injEq] at h
    obtain ⟨rfl, rfl⟩ := h
    exact .critical rest hc
  | nil =>
    cases he : q.events with
    | cons e rest =>
      simp only [hc, he, Option.some.injEq, Prod.mk.injEq] at h
      obtain ⟨rfl, rfl⟩ := h
      have hfrom : TakenFrom q e _ := .event rest hc he
      rwa [hc] at hfrom
    | nil =>
      simp only [hc, he, Option.map_eq_some_iff, Prod.mk.injEq] at h
      obtain ⟨e, hfirst, rfl, rfl⟩ := h
      have hfrom : TakenFrom q e.2 _ :=
        .state e.1 hc he (AList.mem_lookup_iff.mpr (mem_firstState hfirst))
      rwa [hc, he] at hfrom

theorem TakenFrom.perm (h : TakenFrom q m q') : q.messages.Perm (m :: q'.messages) := by
  unfold messages
  cases h with
  | critical rest h =>
    rw [h]
    exact .refl _
  | event rest hc h =>
    rw [hc, h]
    exact .refl _
  | state κ hc he h =>
    rw [hc, he]
    exact values_perm_erase h

theorem messages_of_takeNext (h : q.takeNext = none) : q.messages = [] := by
  unfold takeNext at h
  cases hc : q.critical with
  | cons c rest => simp [hc] at h
  | nil =>
    cases he : q.events with
    | cons e rest => simp [hc, he] at h
    | nil =>
      have hnone : q.state.entries = [] := by
        cases hs : q.state.entries with
        | nil => rfl
        | cons e es => simp [hc, he, firstState, hs] at h
      simp [messages, hc, he, values, hnone]

theorem size_eq_length : q.size = q.messages.length := by
  unfold size messages values count
  simp only [List.length_append, List.length_map]
  omega

/-- What a pop does: it takes expired messages out until it finds another, which it returns. -/
inductive Popped (nowMs : UInt64) :
    BoundedQosQueue → List NativeMessage → Option NativeMessage → BoundedQosQueue → Prop
  | empty {q : BoundedQosQueue} (h : q.takeNext = none) : Popped nowMs q [] none q
  | skipped {q q₁ q' : BoundedQosQueue} {m : NativeMessage} {ms : List NativeMessage}
    {r : Option NativeMessage} (h : TakenFrom q m q₁) (hlate : expired m nowMs = true)
    (hrest : Popped nowMs { q₁ with metrics := q₁.metrics.incExpired } ms r q') :
    Popped nowMs q (m :: ms) r q'
  | delivered {q q₁ : BoundedQosQueue} {m : NativeMessage} (h : TakenFrom q m q₁)
    (htime : expired m nowMs = false) :
    Popped nowMs q [m] (some m) { q₁ with metrics := q₁.metrics.incDelivered }

/-- The messages that the rounds of `popLoop` take out. -/
def takeLoop (nowMs : UInt64) : ℕ → BoundedQosQueue → List NativeMessage
  | 0, _ => []
  | fuel + 1, q =>
    match q.takeNext with
    | none => []
    | some (m, q) =>
      if expired m nowMs then
        m :: takeLoop nowMs fuel { q with metrics := q.metrics.incExpired }
      else [m]

/-- The messages that a pop takes out, in their order. -/
def takes (q : BoundedQosQueue) (nowMs : UInt64) : List NativeMessage :=
  takeLoop nowMs (q.size + 1) q

theorem popped_popLoop : ∀ {n : ℕ} {q : BoundedQosQueue}, q.size < n →
    Popped nowMs q (takeLoop nowMs n q) (popLoop nowMs n q).1 (popLoop nowMs n q).2
  | n + 1, q, hn => by
    unfold takeLoop popLoop
    cases hnext : q.takeNext with
    | none => exact .empty hnext
    | some p =>
      obtain ⟨m, q₁⟩ := p
      have hsize := (takeNext_eq_some hnext).2.2
      have hfrom := takenFrom_of_takeNext hnext
      dsimp only
      by_cases hlate : expired m nowMs = true
      · rw [if_pos hlate, if_pos hlate]
        have hless : { q₁ with metrics := q₁.metrics.incExpired }.size < n :=
          Nat.lt_of_lt_of_le (Nat.lt_of_succ_le hsize.le) (Nat.le_of_lt_succ hn)
        exact .skipped hfrom hlate (popped_popLoop hless)
      · rw [if_neg hlate, if_neg hlate]
        exact .delivered hfrom (by simpa using hlate)

/-- **What a pop does**, and what it takes out. -/
theorem popped_pop (q : BoundedQosQueue) (nowMs : UInt64) :
    Popped nowMs q (takes q nowMs) (q.pop nowMs).1 (q.pop nowMs).2 :=
  popped_popLoop (Nat.lt_succ_self _)

/-- A pop returns the last message that it takes out, and what it takes before has expired. -/
theorem takes_eq (q : BoundedQosQueue) (nowMs : UInt64) : ∃ late,
    takes q nowMs = late ++ (q.pop nowMs).1.toList ∧ (∀ x ∈ late, expired x nowMs = true) ∧
      ∀ x ∈ (q.pop nowMs).1, expired x nowMs = false := by
  have hpop := popped_pop q nowMs
  generalize takes q nowMs = ms, (q.pop nowMs).1 = r, (q.pop nowMs).2 = q' at hpop
  induction hpop with
  | empty h => exact ⟨[], rfl, by simp, by simp⟩
  | skipped h hlate hrest ih =>
    obtain ⟨late, hms, hexp, htime⟩ := ih
    refine ⟨_ :: late, by rw [hms]; rfl, ?_, htime⟩
    intro x hx
    rcases List.mem_cons.mp hx with rfl | hx
    · exact hlate
    · exact hexp x hx
  | delivered h htime => exact ⟨[], rfl, by simp, by simpa using htime⟩

/-- **What a pop takes out is what is missing afterwards.** -/
theorem messages_pop (q : BoundedQosQueue) (nowMs : UInt64) :
    q.messages.Perm (takes q nowMs ++ (q.pop nowMs).2.messages) := by
  have hpop := popped_pop q nowMs
  generalize takes q nowMs = ms, (q.pop nowMs).1 = r, (q.pop nowMs).2 = q' at hpop
  induction hpop with
  | empty h => exact .refl _
  | skipped h hlate hrest ih => exact h.perm.trans (ih.cons _)
  | delivered h htime => exact h.perm

/-! ### Operations -/

/-- A call that changes a queue. -/
inductive QueueOp where
  | push (m : NativeMessage) (nowMs : UInt64)
  | pop (nowMs : UInt64)
  | clear

/-- The queue after a call. -/
def queueStep (q : BoundedQosQueue) : QueueOp → BoundedQosQueue
  | .push m nowMs => (q.push m nowMs).2
  | .pop nowMs => (q.pop nowMs).2
  | .clear => q.clear

/-- A new queue. -/
def start (capacity : ℕ) : BoundedQosQueue := { capacity }

/-- A queue is bounded, and each container holds its own class of messages. -/
structure QueueInv (c : ℕ) (q : BoundedQosQueue) : Prop where
  capacity : q.capacity = c
  bounded : q.size ≤ q.capacity
  critical : ∀ x ∈ q.critical, IsCritical x
  events : ∀ x ∈ q.events, isState x = false ∧ ¬ IsCritical x
  state : ∀ κ x, q.state.lookup κ = some x → isState x = true ∧ streamKey x = κ

theorem queueInv_start (c : ℕ) : QueueInv c (start c) where
  capacity := rfl
  bounded := Nat.zero_le _
  critical := by simp [start]
  events := by simp [start]
  state := by simp [start]

variable {c : ℕ}

theorem queueInv_insert {r : BoundedQosQueue} {f : QueueMetrics} (h : QueueInv c r)
    (hstate : isState m = true)
    (hsize : count (r.state.insert (streamKey m) m) ≤ count r.state ∨ r.size < r.capacity) :
    QueueInv c { r with state := r.state.insert (streamKey m) m, metrics := f } where
  capacity := h.capacity
  bounded := by
    have hle := h.bounded
    have hone : count (r.state.insert (streamKey m) m) ≤ count r.state + 1 := by
      by_cases hin : streamKey m ∈ r.state
      · rw [count_insert_of_mem hin]
        omega
      · rw [count_insert_of_notMem hin]
    unfold size at *
    dsimp only
    omega
  critical := h.critical
  events := h.events
  state := by
    intro κ x hx
    rw [lookup_insert_eq] at hx
    split_ifs at hx with hκ
    · obtain rfl := Option.some.inj hx
      exact ⟨hstate, hκ.symm⟩
    · exact h.state κ x hx

theorem RoomIn.inv {r : BoundedQosQueue} (h : RoomIn q r) (hinv : QueueInv c q) :
    QueueInv c r where
  capacity := h.capacity_eq.trans hinv.capacity
  bounded := h.size_lt.le
  critical := by
    rw [h.critical_eq]
    exact hinv.critical
  events := fun x hx => hinv.events x (h.events_suffix.mem hx)
  state := by
    rw [h.state_eq]
    exact hinv.state

theorem queueInv_push (h : QueueInv c q) (m : NativeMessage) (nowMs : UInt64) :
    QueueInv c (q.push m nowMs).2 := by
  have hpush := push_cases h.bounded m nowMs
  generalize q.push m nowMs = r at hpush
  cases hpush with
  | late => exact ⟨h.capacity, h.bounded, h.critical, h.events, h.state⟩
  | rejected => exact ⟨h.capacity, h.bounded, h.critical, h.events, h.state⟩
  | noRoom => exact ⟨h.capacity, h.bounded, h.critical, h.events, h.state⟩
  | replaced old hstate hold =>
    have hin : streamKey m ∈ q.state := AList.lookup_isSome.mp (by rw [hold]; rfl)
    exact queueInv_insert h hstate (Or.inl (count_insert_of_mem hin).le)
  | stream r hroom hstate hnew => exact queueInv_insert (hroom.inv h) hstate (Or.inr hroom.size_lt)
  | critical hroom hcrit =>
    refine ⟨h.capacity, ?_, forall_mem_log h.critical hcrit, h.events, h.state⟩
    unfold size at hroom ⊢
    rw [List.length_append, List.length_singleton]
    dsimp only
    omega
  | event r hroom hstate hcrit =>
    have hr := hroom.inv h
    refine ⟨hr.capacity, ?_, hr.critical, forall_mem_log hr.events ⟨hstate, hcrit⟩, hr.state⟩
    have hlt := hroom.size_lt
    unfold size at hlt ⊢
    rw [List.length_append, List.length_singleton]
    dsimp only
    omega

theorem queueInv_takenFrom (h : QueueInv c q) (f : QueueMetrics) (hfrom : TakenFrom q m q') :
    QueueInv c { q' with metrics := f } := by
  have hsize : q'.size ≤ q.size := by
    rw [size_eq_length, size_eq_length, hfrom.perm.length_eq]
    exact Nat.le_succ _
  have hle : { q' with metrics := f }.size ≤ q.capacity := hsize.trans h.bounded
  cases hfrom with
  | critical rest hc =>
    exact ⟨h.capacity, hle, fun x hx => h.critical x (hc ▸ List.mem_cons_of_mem _ hx), h.events,
      h.state⟩
  | event rest _ he =>
    exact ⟨h.capacity, hle, h.critical, fun x hx => h.events x (he ▸ List.mem_cons_of_mem _ hx),
      h.state⟩
  | state κ =>
    refine ⟨h.capacity, hle, h.critical, h.events, fun κ' x hx => h.state κ' x ?_⟩
    dsimp only at hx
    rw [lookup_erase_eq] at hx
    split_ifs at hx
    exact hx

theorem queueInv_pop (h : QueueInv c q) (nowMs : UInt64) : QueueInv c (q.pop nowMs).2 := by
  have hpop := popped_pop q nowMs
  generalize takes q nowMs = ms, (q.pop nowMs).1 = r, (q.pop nowMs).2 = q' at hpop
  induction hpop with
  | empty => exact h
  | skipped hfrom hlate hrest ih => exact ih (queueInv_takenFrom h _ hfrom)
  | delivered hfrom htime => exact queueInv_takenFrom h _ hfrom

/-- **What every call keeps of a queue.** -/
theorem queueInv_step (q : BoundedQosQueue) (op : QueueOp) (h : QueueInv c q) :
    QueueInv c (queueStep q op) := by
  cases op with
  | push m nowMs => exact queueInv_push h m nowMs
  | pop nowMs => exact queueInv_pop h nowMs
  | clear =>
    refine ⟨h.capacity, Nat.zero_le _, ?_, ?_, ?_⟩
    · simp [queueStep, BoundedQosQueue.clear]
    · simp [queueStep, BoundedQosQueue.clear]
    · simp [queueStep, BoundedQosQueue.clear]

theorem queueInv_run (c : ℕ) (ops : List QueueOp) : QueueInv c (run queueStep (start c) ops) :=
  run_keeps queueInv_step ops (queueInv_start c)

/-! ### The state container -/

/-- **What a push can put into the state container.** -/
theorem lookup_push (h : QueueInv c q) (m : NativeMessage) (nowMs κ : UInt64) :
    (q.push m nowMs).2.state.lookup κ = q.state.lookup κ ∨
      isState m = true ∧ κ = streamKey m ∧ (q.push m nowMs).2.state.lookup κ = some m := by
  have hpush := push_cases h.bounded m nowMs
  generalize q.push m nowMs = r at hpush
  cases hpush with
  | late => exact Or.inl rfl
  | rejected => exact Or.inl rfl
  | noRoom => exact Or.inl rfl
  | replaced old hstate hold =>
    dsimp only
    rw [lookup_insert_eq]
    split_ifs with hκ
    · exact Or.inr ⟨hstate, hκ, rfl⟩
    · exact Or.inl rfl
  | stream r hroom hstate hnew =>
    dsimp only
    rw [lookup_insert_eq, hroom.state_eq]
    split_ifs with hκ
    · exact Or.inr ⟨hstate, hκ, rfl⟩
    · exact Or.inl rfl
  | critical hroom hcrit => exact Or.inl rfl
  | event r hroom hstate hcrit => exact Or.inl (by rw [hroom.state_eq])

theorem lookup_pop (q : BoundedQosQueue) (nowMs κ : UInt64) :
    (q.pop nowMs).2.state.lookup κ = q.state.lookup κ ∨
      (q.pop nowMs).2.state.lookup κ = none := by
  have hpop := popped_pop q nowMs
  generalize takes q nowMs = ms, (q.pop nowMs).1 = r, (q.pop nowMs).2 = q' at hpop
  have hround : ∀ {q q₁ : BoundedQosQueue} {m : NativeMessage}, TakenFrom q m q₁ →
      q₁.state.lookup κ = q.state.lookup κ ∨ q₁.state.lookup κ = none := by
    intro q q₁ m hfrom
    cases hfrom with
    | critical => exact Or.inl rfl
    | event => exact Or.inl rfl
    | state κ' =>
      dsimp only
      rw [lookup_erase_eq]
      split_ifs
      · exact Or.inr rfl
      · exact Or.inl rfl
  induction hpop with
  | empty => exact Or.inl rfl
  | @skipped q q₁ q' m ms r hfrom hlate hrest ih =>
    have hmore : q'.state.lookup κ = q₁.state.lookup κ ∨ q'.state.lookup κ = none := ih
    rcases hmore with heq | hnone
    · rw [heq]
      exact hround hfrom
    · exact Or.inr hnone
  | delivered hfrom htime =>
    have hone := hround hfrom
    exact hone

/-- **A state message that a pop returns** has left the state container. -/
theorem lookup_of_pop (h : QueueInv c q) (hm : (q.pop nowMs).1 = some m)
    (hstate : isState m = true) : q.state.lookup (streamKey m) = some m ∧
      (q.pop nowMs).2.state.lookup (streamKey m) = none := by
  have hpop := popped_pop q nowMs
  generalize takes q nowMs = ms, (q.pop nowMs).1 = r, (q.pop nowMs).2 = q' at hpop hm
  induction hpop with
  | empty => cases hm
  | @skipped q q₁ q' m' ms r hfrom hlate hrest ih =>
    obtain ⟨hlookup, hgone⟩ := ih (queueInv_takenFrom h _ hfrom) hm
    have hin : q₁.state.lookup (streamKey m) = some m := hlookup
    refine ⟨?_, hgone⟩
    cases hfrom with
    | critical => exact hin
    | event => exact hin
    | state κ' =>
      dsimp only at hin
      rw [lookup_erase_eq] at hin
      split_ifs at hin
      exact hin
  | @delivered q q₁ m' hfrom htime =>
    obtain rfl := Option.some.inj hm
    cases hfrom with
    | critical rest hc =>
      have hcrit : IsCritical m' := h.critical m' (hc ▸ List.mem_cons_self)
      simp [isState_of_isCritical hcrit] at hstate
    | event rest hc he =>
      have hplain := (h.events m' (he ▸ List.mem_cons_self)).1
      simp [hplain] at hstate
    | state κ' hc he hκ' =>
      obtain ⟨-, rfl⟩ := h.state κ' m' hκ'
      exact ⟨hκ', AList.lookup_erase _ _⟩

/-- A state message that finds its stream in the container, or room, is stored. -/
theorem lookup_push_of_room (h : QueueInv c q) (hok : ¬ Refusable q m nowMs)
    (hstate : isState m = true) (hroom : (q.state.lookup (streamKey m)).isSome = true ∨
      q.critical.length + count q.state < q.capacity) :
    (q.push m nowMs).2.state.lookup (streamKey m) = some m := by
  have hpush := push_cases h.bounded m nowMs
  generalize q.push m nowMs = r at hpush
  cases hpush with
  | late hlate => exact absurd hlate hok
  | rejected hfull hcrit => simp [isState_of_isCritical hcrit] at hstate
  | noRoom hfull hevents hcrit hnew =>
    exfalso
    rw [hnew hstate] at hroom
    have hless := hroom.resolve_left (by simp)
    unfold size at hfull
    rw [hevents, List.length_nil] at hfull
    omega
  | replaced old hstate' hold => exact AList.lookup_insert _
  | stream r hroom' hstate' hnew => exact AList.lookup_insert _
  | critical hroom' hcrit => simp [isState_of_isCritical hcrit] at hstate
  | event r hroom' hplain hcrit => simp [hplain] at hstate

/-- A state message that has not expired stays, unless a pop returns it. -/
theorem lookup_pop_of_timely (h : QueueInv c q) {κ : UInt64} (hx : q.state.lookup κ = some x)
    (htime : expired x nowMs = false) (hother : (q.pop nowMs).1 ≠ some x) :
    (q.pop nowMs).2.state.lookup κ = some x := by
  obtain ⟨hstate, rfl⟩ := h.state κ x hx
  have hin : x ∈ q.messages := mem_messages.mpr (Or.inr (Or.inr (mem_values_iff.mpr ⟨_, hx⟩)))
  obtain ⟨late, htakes, hlate, -⟩ := takes_eq q nowMs
  rw [(messages_pop q nowMs).mem_iff, htakes, List.append_assoc, List.mem_append,
    List.mem_append, Option.mem_toList] at hin
  have hq := queueInv_pop h nowMs
  rcases hin with hin | hin | hin
  · simp [hlate x hin] at htime
  · exact absurd hin hother
  · rcases mem_messages.mp hin with hin | hin | hin
    · simp [isState_of_isCritical (hq.critical x hin)] at hstate
    · simp [(hq.events x hin).1] at hstate
    · obtain ⟨κ', hκ'⟩ := mem_values_iff.mp hin
      rwa [(hq.state κ' x hκ').2]

end NewMavlink.Proxy.QueueRuns
