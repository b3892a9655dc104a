import NewMavlink.Proxy.QueueLaws

/-! # The order of a stream in the queue

A pop drains the three containers by class, not by age. What it returns of a stream comes in the
order in which it was accepted, as long as no message of the stream overtakes another in a
container that is drained earlier.

* `stream_in_order`: the order is kept in every run in which no message that is accepted finds an
  earlier one of its stream in a container behind its own.
* `stream_overtaken`: a telemetry message of a state type overtakes a `StateLatest` one. -/

namespace NewMavlink.Proxy.QueueOrder

open NewMavlink.Lib.Tables NewMavlink.Lib.Runs NewMavlink.Wire NewMavlink.State.Messages
open NewMavlink.Proxy.Queue NewMavlink.Proxy.Queue.BoundedQosQueue NewMavlink.Proxy.QueueRuns
open NewMavlink.Proxy.QueueLaws

variable {q q' : BoundedQosQueue} {m x : NativeMessage} {nowMs κ : UInt64} {c : ℕ}

/-- A message with a state type, of the stream `κ`. -/
def InStream (κ : UInt64) (m : NativeMessage) : Prop :=
  stateType m.header.type = true ∧ streamKey m = κ

instance : DecidablePred (InStream κ) := fun m =>
  inferInstanceAs (Decidable (stateType m.header.type = true ∧ streamKey m = κ))

/-- The messages of one stream. -/
def ofStream (κ : UInt64) (ms : List NativeMessage) : List NativeMessage := ms.filter (InStream κ ·)

/-- The message that a pop returns. -/
def returned (q : BoundedQosQueue) : QueueOp → List NativeMessage
  | .pop nowMs => (q.pop nowMs).1.toList
  | _ => []

/-- The container of a message, counted in the order in which a pop drains them. -/
def lane (m : NativeMessage) : ℕ := if IsCritical m then 0 else if isState m then 2 else 1

/-- What a pop returns of each stream, it returns in the order in which it was accepted. -/
def InOrder (c : ℕ) (ops : List QueueOp) : Prop :=
  ∀ κ, (ofStream κ (outputs queueStep returned (start c) ops)).Sublist
    (ofStream κ (outputs queueStep accepted (start c) ops))

/-- A message with a state type that the queue has a place for finds no earlier message of its
stream in a container that is drained after its own. -/
def NoOvertaking (q : BoundedQosQueue) (op : QueueOp) : Prop :=
  ∀ m nowMs, op = .push m nowMs → HasPlace q m nowMs → stateType m.header.type = true →
    ∀ x ∈ q.messages, InStream (streamKey m) x → lane x ≤ lane m

/-! ### One stream -/

theorem ofStream_append (κ : UInt64) (ms ms' : List NativeMessage) :
    ofStream κ (ms ++ ms') = ofStream κ ms ++ ofStream κ ms' := List.filter_append ..

@[simp] theorem ofStream_nil (κ : UInt64) : ofStream κ [] = [] := rfl

theorem ofStream_singleton (κ : UInt64) (m : NativeMessage) :
    ofStream κ [m] = if InStream κ m then [m] else [] := by
  simp [ofStream, List.filter_cons]

theorem ofStream_eq_nil {ms : List NativeMessage} (h : ∀ x ∈ ms, ¬ InStream κ x) :
    ofStream κ ms = [] :=
  List.filter_eq_nil_iff.mpr fun x hx => by simpa using h x hx

/-- The messages of a stream that wait, in the order in which a pop would drain them. -/
def waiting (κ : UInt64) (q : BoundedQosQueue) : List NativeMessage :=
  ofStream κ q.critical ++ ofStream κ q.events ++ (q.state.lookup κ).toList

/-! ### Pops keep the order -/

theorem waiting_takenFrom (h : QueueInv c q) (hfrom : TakenFrom q m q') :
    waiting κ q = ofStream κ [m] ++ waiting κ q' := by
  unfold waiting
  cases hfrom with
  | critical rest hc => rw [hc, ← List.singleton_append, ofStream_append]; simp
  | event rest hc he => rw [hc, he, ← List.singleton_append, ofStream_append]; simp
  | state κ' hc he hκ' =>
    obtain ⟨hstate, hkey⟩ := h.state κ' m hκ'
    have hstream : InStream κ m ↔ κ = κ' := by
      unfold InStream
      rw [hkey, and_iff_right (isState_eq_true_iff.mp hstate).1, eq_comm]
    rw [hc, he, ofStream_singleton]
    dsimp only
    rw [lookup_erase_eq]
    by_cases hκ : κ = κ'
    · subst hκ
      simp [hstream.mpr rfl, hκ']
    · simp [mt hstream.mp hκ, hκ]

theorem waiting_pop (h : QueueInv c q) (nowMs κ : UInt64) :
    waiting κ q = ofStream κ (takes q nowMs) ++ waiting κ (q.pop nowMs).2 := by
  have hpop := popped_pop q nowMs
  generalize takes q nowMs = ms, (q.pop nowMs).1 = r, (q.pop nowMs).2 = q' at hpop
  induction hpop with
  | empty => rfl
  | @skipped q q₁ q' m ms r hfrom hlate hrest ih =>
    have hmore : waiting κ q₁ = ofStream κ ms ++ waiting κ q' :=
      ih (queueInv_takenFrom h _ hfrom)
    calc waiting κ q = ofStream κ [m] ++ (ofStream κ ms ++ waiting κ q') := by
          rw [← hmore, waiting_takenFrom h hfrom]
      _ = ofStream κ (m :: ms) ++ waiting κ q' := by
          rw [← List.append_assoc, ← ofStream_append, List.singleton_append]
  | delivered hfrom htime =>
    have hone := waiting_takenFrom (κ := κ) h hfrom
    exact hone

theorem sublist_pop (h : QueueInv c q) (nowMs κ : UInt64) :
    (ofStream κ (q.pop nowMs).1.toList ++ waiting κ (q.pop nowMs).2).Sublist (waiting κ q) := by
  obtain ⟨late, htakes, -, -⟩ := takes_eq q nowMs
  rw [waiting_pop h nowMs κ, htakes, ofStream_append]
  exact (List.sublist_append_right _ _).append_right _

/-! ### Pushes keep the order, if none overtakes -/

theorem lane_event (h : QueueInv c q) (hx : x ∈ q.events) : lane x = 1 := by
  obtain ⟨hstate, hcrit⟩ := h.events x hx
  simp [lane, hstate, hcrit]

theorem lane_state (h : QueueInv c q) (hx : q.state.lookup κ = some x) : lane x = 2 := by
  have hstate := (h.state κ x hx).1
  simp [lane, hstate, not_isCritical_of_isState hstate]

/-- A message that goes to an earlier container finds none of its stream in the state container. -/
theorem lookup_of_lane (h : QueueInv c q) (hage : ∀ x ∈ q.messages, InStream κ x → lane x ≤ lane m)
    (hm : lane m < 2) : q.state.lookup κ = none := by
  by_contra hne
  obtain ⟨x, hx⟩ := Option.ne_none_iff_exists'.mp hne
  obtain ⟨hstate, hkey⟩ := h.state κ x hx
  have htype : stateType x.header.type = true := (isState_eq_true_iff.mp hstate).1
  have hle := hage x (mem_messages.mpr (Or.inr (Or.inr (mem_values_iff.mpr ⟨κ, hx⟩)))) ⟨htype, hkey⟩
  rw [lane_state h hx] at hle
  omega

/-- A critical message finds none of its stream among the events. -/
theorem ofStream_events_of_lane (h : QueueInv c q)
    (hage : ∀ x ∈ q.messages, InStream κ x → lane x ≤ lane m) (hm : lane m < 1) :
    ofStream κ q.events = [] := ofStream_eq_nil fun x hx hin => by
  have hle := hage x (mem_messages.mpr (Or.inr (Or.inl hx))) hin
  rw [lane_event h hx] at hle
  omega

theorem sublist_insert {r : BoundedQosQueue} (hcrit : r.critical = q.critical)
    (hevents : r.events <:+ q.events) (hlookup : r.state = q.state) (hstate : isState m = true) :
    (ofStream κ r.critical ++ ofStream κ r.events ++
      ((r.state.insert (streamKey m) m).lookup κ).toList).Sublist
        (waiting κ q ++ ofStream κ [m]) := by
  have hstream : InStream κ m ↔ κ = streamKey m := by
    unfold InStream
    rw [and_iff_right (isState_eq_true_iff.mp hstate).1, eq_comm]
  have hfront : (ofStream κ q.critical ++ ofStream κ r.events).Sublist
      (ofStream κ q.critical ++ ofStream κ q.events) :=
    (hevents.sublist.filter _).append_left _
  unfold waiting
  rw [hcrit, hlookup, lookup_insert_eq, ofStream_singleton]
  by_cases hκ : κ = streamKey m
  · rw [if_pos hκ, if_pos (hstream.mpr hκ)]
    exact (hfront.trans (List.sublist_append_left _ _)).append_right _
  · rw [if_neg hκ, if_neg (mt hstream.mp hκ), List.append_nil]
    exact hfront.append_right _

theorem sublist_push (h : QueueInv c q) (hage : NoOvertaking q (.push m nowMs)) (κ : UInt64) :
    (waiting κ (q.push m nowMs).2).Sublist
      (waiting κ q ++ ofStream κ (accepted q (.push m nowMs))) := by
  have hpush := push_cases h.bounded m nowMs
  have hbehind : (q.push m nowMs).1 = true → InStream κ m →
      ∀ x ∈ q.messages, InStream κ x → lane x ≤ lane m := by
    rintro hok ⟨htype, rfl⟩
    exact hage m nowMs rfl ((push_fst_iff h.bounded).mp hok) htype
  dsimp only [accepted]
  generalize q.push m nowMs = r at hpush hbehind
  cases hpush with
  | late => exact List.sublist_append_left _ _
  | rejected => exact List.sublist_append_left _ _
  | noRoom => exact List.sublist_append_left _ _
  | replaced old hstate hold => exact sublist_insert (r := q) rfl List.suffix_rfl rfl hstate
  | stream r hroom hstate hnew =>
    exact sublist_insert hroom.critical_eq hroom.events_suffix hroom.state_eq hstate
  | critical hroom hcrit =>
    simp only [waiting, ofStream_append, if_true]
    by_cases hin : InStream κ m
    · have hage := hbehind rfl hin
      have hlane : lane m < 1 := by simp [lane, hcrit]
      rw [ofStream_events_of_lane h hage hlane, lookup_of_lane h hage (by omega)]
      simp
    · rw [ofStream_singleton, if_neg hin, List.append_nil, List.append_nil]
  | event r hroom hstate hcrit =>
    simp only [waiting, ofStream_append, if_true, hroom.critical_eq, hroom.state_eq]
    have hevents : (ofStream κ r.events).Sublist (ofStream κ q.events) :=
      hroom.events_suffix.sublist.filter _
    by_cases hin : InStream κ m
    · have hage := hbehind rfl hin
      have hlane : lane m < 2 := by simp [lane, hcrit, hstate]
      rw [lookup_of_lane h hage hlane, Option.toList_none, List.append_nil, List.append_nil,
        List.append_assoc]
      exact (hevents.append_right _).append_left _
    · rw [ofStream_singleton, if_neg hin, List.append_nil, List.append_nil]
      exact (hevents.append_left _).append_right _

/-! ### Runs -/

/-- What has been returned of a stream, and what waits of it, comes in the order in which it was
accepted. -/
def OrderInv (c : ℕ) (κ : UInt64) (ops : List QueueOp) : Prop :=
  (ofStream κ (outputs queueStep returned (start c) ops) ++
    waiting κ (run queueStep (start c) ops)).Sublist
      (ofStream κ (outputs queueStep accepted (start c) ops))

theorem orderInv_concat {ops : List QueueOp} {op : QueueOp} (h : OrderInv c κ ops)
    (hage : NoOvertaking (run queueStep (start c) ops) op) : OrderInv c κ (ops ++ [op]) := by
  have hinv := queueInv_run c ops
  unfold OrderInv at h ⊢
  rw [run_concat, outputs_concat, outputs_concat, ofStream_append, ofStream_append,
    List.append_assoc]
  cases op with
  | push m nowMs =>
    have hpush := sublist_push hinv hage κ
    refine (hpush.append_left _).trans ?_
    rw [← List.append_assoc]
    exact h.append_right _
  | pop nowMs =>
    have hpop := sublist_pop hinv nowMs κ
    refine ((hpop.append_left _).trans h).trans ?_
    exact List.sublist_append_left _ _
  | clear =>
    have hnone : waiting κ (queueStep (run queueStep (start c) ops) .clear) = [] := rfl
    rw [hnone]
    refine List.Sublist.trans ?_ (h.trans (List.sublist_append_left _ _))
    simp [returned]

/-- **The order of a stream**, in every run in which no message overtakes an earlier one of its
stream. -/
theorem stream_in_order {c : ℕ} {ops : List QueueOp}
    (h : Along queueStep NoOvertaking (start c) ops) : InOrder c ops := by
  intro κ
  have hinv : OrderInv c κ ops := by
    refine history_invariant ?_ (fun as a has ha => ?_) h
    · exact List.nil_sublist _
    · exact orderInv_concat has ha
  exact (List.sublist_append_left _ _).trans hinv

/-- A `Position` of one byte, as in `qos_test.cpp`, for any QoS. -/
def testPosition (qos : Qos) : NativeMessage where
  header := { type := .position, qos }
  length := 1

/-- A `StateLatest` message overtakes none. -/
theorem stream_in_order_latest :
    InOrder 2 [.push (testPosition .stateLatest) 0, .push (testPosition .stateLatest) 0,
      .pop 0] := by
  have hlane : ∀ x, lane x ≤ lane (testPosition .stateLatest) := by
    intro x
    have hlast : lane (testPosition .stateLatest) = 2 := by decide +kernel
    rw [hlast]
    unfold lane
    split_ifs <;> omega
  refine stream_in_order ⟨?_, ?_, ?_, trivial⟩
  · rintro m nowMs ⟨⟩ - - x - -
    exact hlane x
  · rintro m nowMs ⟨⟩ - - x - -
    exact hlane x
  · rintro m nowMs ⟨⟩

/-- A telemetry message overtakes the `StateLatest` message of its stream. -/
theorem stream_overtaken : ¬ ∀ (c : ℕ) (ops : List QueueOp), InOrder c ops := by
  intro h
  let ops : List QueueOp := [.push (testPosition .stateLatest) 0,
    .push (testPosition .telemetryBestEffort) 0, .pop 0, .pop 0]
  have hsub := (h 2 ops (streamKey (testPosition .stateLatest))).map fun m => m.header.qos
  have hreturned : (ofStream (streamKey (testPosition .stateLatest))
      (outputs queueStep returned (start 2) ops)).map (fun m => m.header.qos) =
        [.telemetryBestEffort, .stateLatest] := by decide +kernel
  have haccepted : (ofStream (streamKey (testPosition .stateLatest))
      (outputs queueStep accepted (start 2) ops)).map (fun m => m.header.qos) =
        [.stateLatest, .telemetryBestEffort] := by decide +kernel
  rw [hreturned, haccepted] at hsub
  revert hsub
  decide

end NewMavlink.Proxy.QueueOrder
