import NewMavlink.Proxy.QueueRuns

/-! # What a queue promises

Over every run of a queue.

* `fates`: every message that was pushed is waiting or counted, once.
* `no_silent_loss`: the size stays within the capacity, a push that returns false changes no
  container, and critical messages leave by a pop or a clear only, in their order.
* `lower_gives_way_iff`: when a critical message is refused only by a queue full of critical
  messages. `push` looks for an event to evict only if the new message is not critical, so a full
  queue refuses it whatever it holds (`lower_keeps_critical_out`). -/

namespace NewMavlink.Proxy.QueueLaws

open NewMavlink.Lib.Tables NewMavlink.Lib.Runs NewMavlink.Wire NewMavlink.State.Messages
open NewMavlink.Proxy.Queue NewMavlink.Proxy.Queue.BoundedQosQueue NewMavlink.Proxy.QueueRuns

variable {q q' : BoundedQosQueue} {m x : NativeMessage} {nowMs : UInt64} {c : ℕ}

/-- The message of a push that returns true. -/
def accepted (q : BoundedQosQueue) : QueueOp → List NativeMessage
  | .push m nowMs => if (q.push m nowMs).1 then [m] else []
  | _ => []

/-- The call is a push. -/
def isPush : QueueOp → Bool
  | .push _ _ => true
  | _ => false

/-! ### Every message has one fate -/

/-- The messages that a queue has counted, as a machine word. -/
def settled (c : QueueMetrics) : UInt64 :=
  c.delivered + c.droppedLatest + c.rejectedCritical + c.expired

/-- Every message that has been pushed is waiting or counted. -/
def pushedWord (q : BoundedQosQueue) : UInt64 := settled q.metrics + UInt64.ofNat q.size

theorem pushedWord_roomIn {r : BoundedQosQueue} (h : RoomIn q r) :
    pushedWord r = pushedWord q ∧ r.metrics.enqueued = q.metrics.enqueued := by
  cases h with
  | free => exact ⟨rfl, rfl⟩
  | evicted h e es he =>
    refine ⟨?_, rfl⟩
    have hsize :
        q.size = { q with events := es, metrics := q.metrics.incDroppedLatest }.size + 1 := by
      unfold size
      simp only [he, List.length_cons]
      omega
    unfold pushedWord
    rw [hsize, UInt64.ofNat_add]
    simp only [settled, QueueMetrics.incDroppedLatest]
    ac_rfl

theorem pushedWord_push (h : QueueInv c q) (m : NativeMessage) (nowMs : UInt64) :
    pushedWord (q.push m nowMs).2 = pushedWord q + 1 ∧
      (q.push m nowMs).2.metrics.enqueued =
        q.metrics.enqueued + UInt64.ofNat (accepted q (.push m nowMs)).length := by
  have hpush := push_cases h.bounded m nowMs
  dsimp only [accepted]
  generalize q.push m nowMs = r at hpush
  cases hpush with
  | late =>
    refine ⟨?_, by simp [QueueMetrics.incExpired]⟩
    simp only [pushedWord, settled, QueueMetrics.incExpired, size]
    ac_rfl
  | rejected =>
    refine ⟨?_, by simp [QueueMetrics.incRejectedCritical]⟩
    simp only [pushedWord, settled, QueueMetrics.incRejectedCritical, size]
    ac_rfl
  | noRoom =>
    refine ⟨?_, by simp [QueueMetrics.incDroppedLatest]⟩
    simp only [pushedWord, settled, QueueMetrics.incDroppedLatest, size]
    ac_rfl
  | replaced old hstate hold =>
    have hin : streamKey m ∈ q.state := AList.lookup_isSome.mp (by rw [hold]; rfl)
    refine ⟨?_, rfl⟩
    simp only [pushedWord, settled, QueueMetrics.incDroppedLatest, QueueMetrics.incEnqueued, size,
      count_insert_of_mem hin]
    ac_rfl
  | stream r hroom hstate hnew =>
    have hout : streamKey m ∉ r.state := by
      rw [hroom.state_eq]
      exact AList.lookup_eq_none.mp hnew
    obtain ⟨hword, henq⟩ := pushedWord_roomIn hroom
    rw [← hword, ← henq]
    refine ⟨?_, rfl⟩
    simp only [pushedWord, settled, QueueMetrics.incEnqueued, size, count_insert_of_notMem hout,
      UInt64.ofNat_add]
    ac_rfl
  | critical hroom hcrit =>
    refine ⟨?_, rfl⟩
    simp only [pushedWord, settled, QueueMetrics.incEnqueued, size, List.length_append,
      List.length_singleton, UInt64.ofNat_add]
    ac_rfl
  | event r hroom hstate hcrit =>
    obtain ⟨hword, henq⟩ := pushedWord_roomIn hroom
    rw [← hword, ← henq]
    refine ⟨?_, rfl⟩
    simp only [pushedWord, settled, QueueMetrics.incEnqueued, size, List.length_append,
      List.length_singleton, UInt64.ofNat_add]
    ac_rfl

theorem size_takenFrom (h : TakenFrom q m q') : q.size = q'.size + 1 := by
  rw [size_eq_length, size_eq_length, h.perm.length_eq]
  rfl

theorem pushedWord_pop (q : BoundedQosQueue) (nowMs : UInt64) :
    pushedWord (q.pop nowMs).2 = pushedWord q ∧
      (q.pop nowMs).2.metrics.enqueued = q.metrics.enqueued := by
  have hpop := popped_pop q nowMs
  generalize takes q nowMs = ms, (q.pop nowMs).1 = r, (q.pop nowMs).2 = q' at hpop
  have htaken : ∀ {q q₁ : BoundedQosQueue} {m : NativeMessage}, TakenFrom q m q₁ →
      pushedWord q = pushedWord q₁ + 1 ∧ q₁.metrics = q.metrics := by
    intro q q₁ m h
    have hmetrics : q₁.metrics = q.metrics := by cases h <;> rfl
    refine ⟨?_, hmetrics⟩
    unfold pushedWord
    rw [hmetrics, size_takenFrom h, UInt64.ofNat_add]
    ac_rfl
  induction hpop with
  | empty => exact ⟨rfl, rfl⟩
  | skipped h hlate hrest ih =>
    obtain ⟨hword, hmetrics⟩ := htaken h
    refine ⟨ih.1.trans ?_, ih.2.trans (by simp [QueueMetrics.incExpired, hmetrics])⟩
    rw [hword]
    simp only [pushedWord, settled, QueueMetrics.incExpired, size]
    ac_rfl
  | delivered h htime =>
    obtain ⟨hword, hmetrics⟩ := htaken h
    refine ⟨?_, by simp [QueueMetrics.incDelivered, hmetrics]⟩
    rw [hword]
    simp only [pushedWord, settled, QueueMetrics.incDelivered, size]
    ac_rfl

/-- **Every message has one fate**, in every run of pushes and pops: it was delivered, dropped,
rejected or has expired, or it waits. -/
theorem fates (c : ℕ) (ops : List QueueOp) (h : ∀ op ∈ ops, op ≠ .clear) :
    let q := run queueStep (start c) ops
    UInt64.ofNat (ops.countP isPush) = q.metrics.delivered + q.metrics.droppedLatest +
        q.metrics.rejectedCritical + q.metrics.expired + UInt64.ofNat q.size ∧
      q.metrics.enqueued =
        UInt64.ofNat (outputs queueStep accepted (start c) ops).length := by
  suffices hword : UInt64.ofNat (ops.countP isPush) = pushedWord (run queueStep (start c) ops) ∧
      (run queueStep (start c) ops).metrics.enqueued =
        UInt64.ofNat (outputs queueStep accepted (start c) ops).length from hword
  induction ops using List.reverseRecOn with
  | nil => exact ⟨rfl, rfl⟩
  | append_singleton ops op ih =>
    obtain ⟨hpushed, henq⟩ := ih fun op hop => h op (List.mem_append_left _ hop)
    have hinv := queueInv_run c ops
    rw [run_concat, outputs_concat, List.countP_append, List.length_append, UInt64.ofNat_add,
      UInt64.ofNat_add, hpushed, ← henq]
    cases op with
    | push m nowMs =>
      obtain ⟨hstep, hcount⟩ := pushedWord_push hinv m nowMs
      exact ⟨hstep.symm, hcount⟩
    | pop nowMs =>
      obtain ⟨hstep, hcount⟩ := pushedWord_pop (run queueStep (start c) ops) nowMs
      exact ⟨Eq.trans (by simp [isPush]) hstep.symm, hcount.trans (by simp [accepted])⟩
    | clear => exact absurd rfl (h .clear (by simp))

/-- One message replaces another, which is then delivered. -/
theorem fates_replaced :
    let q := run queueStep (start 1) [.push {} 0, .push {} 0, .pop 0]
    UInt64.ofNat 2 = q.metrics.delivered + q.metrics.droppedLatest +
      q.metrics.rejectedCritical + q.metrics.expired + UInt64.ofNat q.size :=
  (fates 1 [.push {} 0, .push {} 0, .pop 0] (by
    intro op hop
    simp only [List.mem_cons, List.not_mem_nil, or_false] at hop
    rcases hop with rfl | rfl | rfl <;> rintro ⟨⟩)).1

/-! ### Bounded, and no silent loss -/

/-- The messages that a call takes out of a queue, other than to make room. -/
def leaving (q : BoundedQosQueue) : QueueOp → List NativeMessage
  | .push _ _ => []
  | .pop nowMs => takes q nowMs
  | .clear => q.messages

/-- The critical messages, in their order. -/
def criticals (ms : List NativeMessage) : List NativeMessage := ms.filter (IsCritical ·)

/-- All three containers are as they were. -/
def SameContents (q q' : BoundedQosQueue) : Prop :=
  q'.critical = q.critical ∧ q'.events = q.events ∧ q'.state = q.state

/-- The queue has stored the message, and let go of at most one other: the earlier message of the
same state stream, or the oldest event. -/
def Stores (q : BoundedQosQueue) (m : NativeMessage) (q' : BoundedQosQueue) : Prop :=
  m ∈ q'.messages ∧ ∃ gone : Option NativeMessage,
    (m :: q.messages).Perm (gone.toList ++ q'.messages) ∧
    ∀ x ∈ gone, isState m = true ∧ x ∈ values q.state ∧ streamKey x = streamKey m ∨
      q.events.head? = some x

theorem messages_insert (q : BoundedQosQueue) (κ : UInt64) (m : NativeMessage) (f : QueueMetrics) :
    { q with state := q.state.insert κ m, metrics := f }.messages.Perm
      (m :: { q with state := q.state.erase κ }.messages) := by
  unfold messages
  exact ((values_insert_perm q.state κ m).append_left _).trans List.perm_middle

theorem roomIn_perm {r : BoundedQosQueue} (h : RoomIn q r) : ∃ gone : Option NativeMessage,
    q.messages.Perm (gone.toList ++ r.messages) ∧ ∀ x ∈ gone, q.events.head? = some x := by
  cases h with
  | free => exact ⟨none, .refl _, by simp⟩
  | evicted h e es he =>
    refine ⟨some e, ?_, fun x hx => by rw [he]; exact hx⟩
    unfold messages
    rw [he, List.append_assoc, List.append_assoc]
    exact List.perm_middle

theorem stores_of_room {r : BoundedQosQueue} (h : RoomIn q r)
    (hperm : q'.messages.Perm (m :: r.messages)) : Stores q m q' := by
  obtain ⟨gone, hgone, hhead⟩ := roomIn_perm h
  refine ⟨hperm.mem_iff.mpr List.mem_cons_self, gone, ?_, fun x hx => Or.inr (hhead x hx)⟩
  have hboth := (hgone.cons m).trans List.perm_middle.symm
  exact hboth.trans (hperm.symm.append_left _)

/-- **What a push leaves of a queue**: everything if it returns false, and everything but one
message that gives way if it returns true. -/
theorem push_safe (h : QueueInv c q) (m : NativeMessage) (nowMs : UInt64) :
    ((q.push m nowMs).1 = false → SameContents q (q.push m nowMs).2) ∧
      ((q.push m nowMs).1 = true → Stores q m (q.push m nowMs).2) := by
  have hpush := push_cases h.bounded m nowMs
  generalize q.push m nowMs = r at hpush
  cases hpush with
  | late => exact ⟨fun _ => ⟨rfl, rfl, rfl⟩, fun ht => by simp at ht⟩
  | rejected => exact ⟨fun _ => ⟨rfl, rfl, rfl⟩, fun ht => by simp at ht⟩
  | noRoom => exact ⟨fun _ => ⟨rfl, rfl, rfl⟩, fun ht => by simp at ht⟩
  | replaced old hstate hold =>
    refine ⟨fun hf => by simp at hf, fun _ => ?_⟩
    have hins := messages_insert q (streamKey m) m q.metrics.incDroppedLatest.incEnqueued
    have hold' : q.messages.Perm
        (old :: { q with state := q.state.erase (streamKey m) }.messages) :=
      ((values_perm_erase hold).append_left _).trans List.perm_middle
    refine ⟨hins.mem_iff.mpr List.mem_cons_self, some old, ?_, ?_⟩
    · exact ((hold'.cons m).trans (.swap _ _ _)).trans (hins.symm.cons old)
    · rintro x ⟨⟩
      exact Or.inl ⟨hstate, mem_values_iff.mpr ⟨_, hold⟩, (h.state _ _ hold).2⟩
  | stream r hroom hstate hnew =>
    refine ⟨fun hf => by simp at hf, fun _ => stores_of_room hroom ?_⟩
    have hins := messages_insert r (streamKey m) m r.metrics.incEnqueued
    have hout : values (r.state.erase (streamKey m)) = values r.state :=
      values_erase_of_lookup (by rw [hroom.state_eq]; exact hnew)
    unfold messages at hins ⊢
    rwa [hout] at hins
  | critical hroom hcrit =>
    refine ⟨fun hf => by simp at hf, fun _ => stores_of_room (.free hroom) ?_⟩
    unfold messages
    simp only [List.append_assoc, List.singleton_append]
    exact List.perm_middle
  | event r hroom hstate hcrit =>
    refine ⟨fun hf => by simp at hf, fun _ => stores_of_room hroom ?_⟩
    unfold messages
    rw [← List.append_assoc, List.append_assoc, List.singleton_append]
    exact List.perm_middle

@[simp] theorem criticals_nil : criticals [] = [] := rfl

theorem criticals_append (ms ms' : List NativeMessage) :
    criticals (ms ++ ms') = criticals ms ++ criticals ms' := List.filter_append ..

theorem criticals_eq_nil {ms : List NativeMessage} (h : ∀ x ∈ ms, ¬ IsCritical x) :
    criticals ms = [] :=
  List.filter_eq_nil_iff.mpr fun x hx => by simpa using h x hx

theorem criticals_eq_self {ms : List NativeMessage} (h : ∀ x ∈ ms, IsCritical x) :
    criticals ms = ms :=
  List.filter_eq_self.mpr fun x hx => by simpa using h x hx

theorem not_isCritical_of_isState (h : isState m = true) : ¬ IsCritical m := fun hc => by
  simp [isState_of_isCritical hc] at h

theorem criticals_messages (h : QueueInv c q) : criticals q.messages = q.critical := by
  have hevents : criticals q.events = [] := criticals_eq_nil fun x hx => (h.events x hx).2
  have hstate : criticals (values q.state) = [] := criticals_eq_nil fun x hx => by
    obtain ⟨κ, hκ⟩ := mem_values_iff.mp hx
    exact not_isCritical_of_isState (h.state κ x hκ).1
  unfold messages
  rw [criticals_append, criticals_append, hevents, hstate, criticals_eq_self h.critical,
    List.append_nil, List.append_nil]

theorem critical_push (h : QueueInv c q) (m : NativeMessage) (nowMs : UInt64) :
    (q.push m nowMs).2.critical = q.critical ++ criticals (accepted q (.push m nowMs)) := by
  have hpush := push_cases h.bounded m nowMs
  dsimp only [accepted]
  generalize q.push m nowMs = r at hpush
  cases hpush with
  | late => simp [criticals]
  | rejected => simp [criticals]
  | noRoom => simp [criticals]
  | replaced old hstate hold => simp [criticals, not_isCritical_of_isState hstate]
  | stream r hroom hstate hnew =>
    simp [criticals, not_isCritical_of_isState hstate, hroom.critical_eq]
  | critical hroom hcrit => simp [criticals, hcrit]
  | event r hroom hstate hcrit => simp [criticals, hcrit, hroom.critical_eq]

theorem critical_pop (h : QueueInv c q) (nowMs : UInt64) :
    q.critical = criticals (takes q nowMs) ++ (q.pop nowMs).2.critical := by
  have hpop := popped_pop q nowMs
  generalize takes q nowMs = ms, (q.pop nowMs).1 = r, (q.pop nowMs).2 = q' at hpop
  have hround : ∀ {q q₁ : BoundedQosQueue} {m : NativeMessage}, QueueInv c q → TakenFrom q m q₁ →
      q.critical = criticals [m] ++ q₁.critical := by
    intro q q₁ m hq hfrom
    cases hfrom with
    | critical rest hc =>
      have hcrit : IsCritical m := hq.critical m (hc ▸ List.mem_cons_self)
      rw [criticals_eq_self (by simpa using hcrit), hc]
      rfl
    | event rest hc he =>
      have hcrit : ¬ IsCritical m := (hq.events m (he ▸ List.mem_cons_self)).2
      rw [criticals_eq_nil (by simpa using hcrit), List.nil_append]
    | state κ hc he hκ =>
      have hcrit : ¬ IsCritical m := not_isCritical_of_isState (hq.state κ m hκ).1
      rw [criticals_eq_nil (by simpa using hcrit), List.nil_append]
  induction hpop with
  | empty => rfl
  | @skipped q q₁ q' m ms r hfrom hlate hrest ih =>
    have hmore : q₁.critical = criticals ms ++ q'.critical := ih (queueInv_takenFrom h _ hfrom)
    calc q.critical = criticals [m] ++ (criticals ms ++ q'.critical) := by
          rw [← hmore, hround h hfrom]
      _ = criticals (m :: ms) ++ q'.critical := by
          rw [← List.append_assoc, ← criticals_append, List.singleton_append]
  | delivered hfrom htime =>
    have hone := hround h hfrom
    exact hone

/-- What one call promises. -/
structure Safe (q : BoundedQosQueue) (op : QueueOp) : Prop where
  refused : ∀ m nowMs, op = .push m nowMs → (q.push m nowMs).1 = false →
    SameContents q (queueStep q op)
  stored : ∀ m nowMs, op = .push m nowMs → (q.push m nowMs).1 = true → Stores q m (queueStep q op)
  taken : ∀ nowMs, op = .pop nowMs → ∃ late, takes q nowMs = late ++ (q.pop nowMs).1.toList ∧
    ∀ x ∈ late, expired x nowMs = true

/-- **Bounded, with no silent loss of critical messages**, in every run: the size stays within the
capacity, every call is `Safe`, and the critical messages that were accepted are those that a pop
or a clear took out, and behind them those that wait. -/
theorem no_silent_loss (c : ℕ) (ops : List QueueOp) :
    (run queueStep (start c) ops).size ≤ c ∧ Along queueStep Safe (start c) ops ∧
      criticals (outputs queueStep accepted (start c) ops) =
        criticals (outputs queueStep leaving (start c) ops) ++
          (run queueStep (start c) ops).critical := by
  have hinv := queueInv_run c ops
  refine ⟨hinv.bounded.trans hinv.capacity.le, ?_, ?_⟩
  · have hany : Along queueStep (fun _ _ => True) (start c) ops :=
      along_of_forall (fun _ _ => trivial) _ _
    refine along_of_invariant (fun q op h _ => queueInv_step q op h) (fun q op h _ => ?_)
      (queueInv_start c) hany
    refine ⟨?_, ?_, ?_⟩
    · rintro m nowMs rfl
      exact (push_safe h m nowMs).1
    · rintro m nowMs rfl
      exact (push_safe h m nowMs).2
    · rintro nowMs -
      obtain ⟨late, htakes, hlate, -⟩ := takes_eq q nowMs
      exact ⟨late, htakes, hlate⟩
  · clear hinv
    induction ops using List.reverseRecOn with
    | nil => rfl
    | append_singleton ops op ih =>
      have hinv := queueInv_run c ops
      rw [run_concat, outputs_concat, outputs_concat, criticals_append, criticals_append, ih]
      cases op with
      | push m nowMs =>
        have hpush := critical_push hinv m nowMs
        simp only [queueStep, leaving, hpush, List.append_assoc]
        rfl
      | pop nowMs =>
        have hpop := critical_pop hinv nowMs
        simp only [queueStep, leaving, accepted, List.append_assoc, ← hpop, criticals_nil,
          List.append_nil]
      | clear =>
        simp only [queueStep, leaving, accepted, criticals_messages hinv, BoundedQosQueue.clear,
          criticals_nil, List.append_nil]

/-! ### Critical messages under pressure -/

/-- The critical message is refused only if the queue is full of critical messages, so that a
message of a lower class gives way to it. -/
def LowerGivesWay (q : BoundedQosQueue) (m : NativeMessage) (nowMs : UInt64) : Prop :=
  (q.push m nowMs).1 = false → q.size = q.capacity ∧ ∀ x ∈ q.messages, IsCritical x

/-- A critical message that passes the first check is accepted exactly if the queue is not full. -/
theorem push_critical (h : QueueInv c q) (hcrit : IsCritical m) (hok : ¬ Refusable q m nowMs) :
    (q.push m nowMs).1 = true ↔ q.size < q.capacity := by
  have hr : replaces q m = false := by simp [replaces, isState_of_isCritical hcrit]
  simp [push_fst_iff h.bounded, HasPlace, hok, hr, hcrit]

theorem lowerGivesWay_iff (h : QueueInv c q) (hcrit : IsCritical m)
    (hok : ¬ Refusable q m nowMs) :
    LowerGivesWay q m nowMs ↔ q.size < q.capacity ∨ ∀ x ∈ q.messages, IsCritical x := by
  have hpush := push_critical h hcrit hok
  unfold LowerGivesWay
  rcases h.bounded.lt_or_eq with hlt | hfull
  · simp [hpush.mpr hlt, hlt]
  · have hfalse : (q.push m nowMs).1 = false := by
      rw [← Bool.not_eq_true, hpush]
      omega
    simp [hfalse, hfull]

theorem not_refusable (h : QueueInv c q) (hc : 0 < c) (hlen : m.length ≤ kMaxPayloadBytes)
    (htime : expired m nowMs = false) : ¬ Refusable q m nowMs := by
  rintro (hcap | hlong | hlate)
  · have hcapacity := h.capacity
    omega
  · omega
  · simp [htime] at hlate

/-- **When a lower class gives way to a critical message**, in every reachable queue: unless the
queue is full, and a message of a lower class waits in it. -/
theorem lower_gives_way_iff (c : ℕ) (ops : List QueueOp) (m : NativeMessage) (nowMs : UInt64)
    (hc : 0 < c) (hcrit : IsCritical m) (hlen : m.length ≤ kMaxPayloadBytes)
    (htime : expired m nowMs = false) :
    LowerGivesWay (run queueStep (start c) ops) m nowMs ↔
      (run queueStep (start c) ops).size < c ∨
        ∀ x ∈ (run queueStep (start c) ops).messages, IsCritical x := by
  have hinv := queueInv_run c ops
  rw [lowerGivesWay_iff hinv hcrit (not_refusable hinv hc hlen htime), hinv.capacity]

/-- A queue that a critical message fills refuses the next one, and nothing of a lower class waits
in it. -/
theorem lower_gives_way_full :
    let critical : NativeMessage := { header := { type := .safetyEvent, qos := .criticalReliable } }
    let q := run queueStep (start 1) [.push critical 0]
    (q.push critical 0).1 = false ∧ LowerGivesWay q critical 0 := by
  intro critical q
  have hall : ∀ x ∈ q.messages, IsCritical x := by
    intro x hx
    obtain rfl : x = critical := List.mem_singleton.mp hx
    exact Or.inl rfl
  exact ⟨by decide +kernel, (lower_gives_way_iff 1 [.push critical 0] critical 0 Nat.one_pos
    (Or.inl rfl) (Nat.zero_le _) rfl).mpr (Or.inr hall)⟩

/-- A telemetry message that fills the queue keeps a critical message out. -/
theorem lower_keeps_critical_out : ¬ ∀ (c : ℕ) (ops : List QueueOp) (m : NativeMessage)
    (nowMs : UInt64), 0 < c → IsCritical m → m.length ≤ kMaxPayloadBytes →
    expired m nowMs = false → LowerGivesWay (run queueStep (start c) ops) m nowMs := by
  intro h
  let telemetry : NativeMessage :=
    { header := { type := .diagnosticEvent, qos := .telemetryBestEffort } }
  let critical : NativeMessage := { header := { type := .safetyEvent, qos := .criticalReliable } }
  have hinv := queueInv_run 1 [.push telemetry 0]
  have hgives := h 1 [.push telemetry 0] critical 0 Nat.one_pos (Or.inl rfl) (Nat.zero_le _) rfl
  have hok := not_refusable hinv Nat.one_pos (m := critical) (Nat.zero_le _)
    (show expired critical 0 = false from rfl)
  have hevents : (run queueStep (start 1) [.push telemetry 0]).events = [telemetry] := rfl
  rcases (lowerGivesWay_iff hinv (Or.inl rfl) hok).mp hgives with hlt | hall
  · exact absurd hlt (by decide +kernel)
  · have hin : telemetry ∈ (run queueStep (start 1) [.push telemetry 0]).events := by
      rw [hevents]
      exact List.mem_singleton_self _
    have hcrit : IsCritical telemetry := hall telemetry (mem_messages.mpr (Or.inr (Or.inl hin)))
    rcases hcrit with hq | hq <;> exact absurd hq (by decide)

end NewMavlink.Proxy.QueueLaws
