import NewMavlink.Proxy.QueueLaws

/-! # The order in which a queue drains

A pop looks at the critical messages first, then at the events, both in the order in which they
were accepted, then at the states by ascending key of their streams (`ordered`).

* `takeNext_ordered`: a round of the loop takes the first message of that order.
* `popLoop_ordered`: the loop drops the expired messages at its front and returns the next.
* `pop_exact`: so does a pop, in every reachable queue, and it ends. -/

namespace NewMavlink.Proxy.QueueDrain

open NewMavlink.Lib.Tables NewMavlink.Lib.Runs NewMavlink.Wire NewMavlink.State.Messages
open NewMavlink.Proxy.Queue NewMavlink.Proxy.Queue.BoundedQosQueue NewMavlink.Proxy.QueueRuns
open NewMavlink.Proxy.QueueLaws

variable {q q' : BoundedQosQueue} {m x : NativeMessage} {nowMs : UInt64} {c : ℕ}

/-- What a queue holds, in the order in which it drains. -/
def ordered (q : BoundedQosQueue) : List NativeMessage :=
  q.critical ++ q.events ++ ascending UInt64.toNat q.state

theorem ordered_perm (q : BoundedQosQueue) : (ordered q).Perm q.messages :=
  (ascending_perm q.state).append_left _

theorem toNat_injective : Function.Injective UInt64.toNat := fun _ _ h => UInt64.toNat_inj.mp h

/-! ### One round -/

theorem firstState_le {e : Σ _ : UInt64, NativeMessage} (h : q.firstState = some e) :
    ∀ e' ∈ q.state.entries, e.1.toNat ≤ e'.1.toNat := by
  have hfold : ∀ (es : List (Σ _ : UInt64, NativeMessage)) (it : Σ _ : UInt64, NativeMessage),
      ∀ e' ∈ it :: es, (es.foldl (fun it candidate => if candidate.1 < it.1 then candidate else it)
        it).1.toNat ≤ e'.1.toNat := by
    intro es
    induction es with
    | nil =>
      intro it e' he'
      rw [List.mem_singleton.mp he']
      exact le_rfl
    | cons d es ih =>
      intro it e' he'
      rw [List.foldl_cons]
      have hbest := ih (if d.1 < it.1 then d else it)
      have hfirst := hbest _ List.mem_cons_self
      rcases List.mem_cons.mp he' with rfl | he'
      · refine hfirst.trans ?_
        split_ifs with hlt
        · exact (UInt64.lt_iff_toNat_lt.mp hlt).le
        · exact le_rfl
      · rcases List.mem_cons.mp he' with rfl | he'
        · refine hfirst.trans ?_
          split_ifs with hlt
          · exact le_rfl
          · rw [UInt64.lt_iff_toNat_lt] at hlt
            omega
        · exact hbest e' (List.mem_cons_of_mem _ he')
  unfold firstState at h
  cases hes : q.state.entries with
  | nil => simp [hes] at h
  | cons e₀ es =>
    simp only [hes, Option.some.injEq] at h
    exact h ▸ hfold es e₀

/-- **A round takes the first message.** -/
theorem takeNext_ordered (h : q.takeNext = some (m, q')) : ordered q = m :: ordered q' := by
  unfold takeNext at h
  unfold ordered
  cases hc : q.critical with
  | cons d rest =>
    simp only [hc, Option.some.injEq, Prod.mk.injEq] at h
    obtain ⟨rfl, rfl⟩ := h
    rfl
  | nil =>
    cases he : q.events with
    | cons e rest =>
      simp only [hc, he, Option.some.injEq, Prod.mk.injEq] at h
      obtain ⟨rfl, rfl⟩ := h
      rfl
    | nil =>
      simp only [hc, he, Option.map_eq_some_iff, Prod.mk.injEq] at h
      obtain ⟨e, hfirst, rfl, rfl⟩ := h
      have hlookup : q.state.lookup e.1 = some e.2 :=
        AList.mem_lookup_iff.mpr (mem_firstState hfirst)
      exact ascending_eq_cons toNat_injective hlookup (firstState_le hfirst)

/-! ### The loop -/

/-- **What the loop makes of the order**: it drops the expired messages at the front, returns the
next one, and leaves the rest. -/
theorem popLoop_ordered : ∀ {n : ℕ} {q : BoundedQosQueue}, q.size < n →
    (popLoop nowMs n q).1 = ((ordered q).dropWhile (expired · nowMs)).head? ∧
      ordered (popLoop nowMs n q).2 = ((ordered q).dropWhile (expired · nowMs)).tail
  | n + 1, q, hn => by
    unfold popLoop
    cases hnext : q.takeNext with
    | none =>
      have hnil : ordered q = [] :=
        (messages_of_takeNext hnext ▸ ordered_perm q).eq_nil
      simp [hnil]
    | some p =>
      obtain ⟨m, q₁⟩ := p
      have hsize := (takeNext_eq_some hnext).2.2
      have hfirst := takeNext_ordered hnext
      dsimp only
      rw [hfirst]
      by_cases hlate : expired m nowMs = true
      · rw [if_pos hlate, List.dropWhile_cons, if_pos hlate]
        have hless : { q₁ with metrics := q₁.metrics.incExpired }.size < n :=
          Nat.lt_of_lt_of_le (Nat.lt_of_succ_le hsize.le) (Nat.le_of_lt_succ hn)
        exact popLoop_ordered hless
      · rw [if_neg hlate, List.dropWhile_cons, if_neg hlate]
        exact ⟨rfl, rfl⟩

theorem pop_ordered (q : BoundedQosQueue) (nowMs : UInt64) :
    (q.pop nowMs).1 = ((ordered q).dropWhile (expired · nowMs)).head? ∧
      ordered (q.pop nowMs).2 = ((ordered q).dropWhile (expired · nowMs)).tail :=
  popLoop_ordered (Nat.lt_succ_self _)

/-! ### The order of acceptance -/

/-- The messages of the middle class. -/
def eventsOf (ms : List NativeMessage) : List NativeMessage :=
  ms.filter fun m => !isState m && !decide (IsCritical m)

@[simp] theorem eventsOf_nil : eventsOf [] = [] := rfl

theorem eventsOf_append (ms ms' : List NativeMessage) :
    eventsOf (ms ++ ms') = eventsOf ms ++ eventsOf ms' := List.filter_append ..

/-- A push may drop events at the front, and adds its own behind the others. -/
theorem events_push (h : QueueInv c q) (m : NativeMessage) (nowMs : UInt64) :
    ∃ kept, kept <:+ q.events ∧
      (q.push m nowMs).2.events = kept ++ eventsOf (accepted q (.push m nowMs)) := by
  have hpush := push_cases h.bounded m nowMs
  dsimp only [accepted]
  generalize q.push m nowMs = r at hpush
  cases hpush with
  | late => exact ⟨q.events, List.suffix_rfl, by simp⟩
  | rejected => exact ⟨q.events, List.suffix_rfl, by simp⟩
  | noRoom => exact ⟨q.events, List.suffix_rfl, by simp⟩
  | replaced old hstate hold => exact ⟨q.events, List.suffix_rfl, by simp [eventsOf, hstate]⟩
  | stream r hroom hstate hnew => exact ⟨r.events, hroom.events_suffix, by simp [eventsOf, hstate]⟩
  | critical hroom hcrit => exact ⟨q.events, List.suffix_rfl, by simp [eventsOf, hcrit]⟩
  | event r hroom hstate hcrit =>
    exact ⟨r.events, hroom.events_suffix, by simp [eventsOf, hstate, hcrit]⟩

theorem events_pop (q : BoundedQosQueue) (nowMs : UInt64) :
    (q.pop nowMs).2.events <:+ q.events := by
  have hpop := popped_pop q nowMs
  generalize takes q nowMs = ms, (q.pop nowMs).1 = r, (q.pop nowMs).2 = q' at hpop
  have hround : ∀ {q q₁ : BoundedQosQueue} {m : NativeMessage}, TakenFrom q m q₁ →
      q₁.events <:+ q.events := by
    intro q q₁ m hfrom
    cases hfrom with
    | critical => exact List.suffix_rfl
    | event rest _ he =>
      rw [he]
      exact List.suffix_cons m rest
    | state => exact List.suffix_rfl
  induction hpop with
  | empty => exact List.suffix_rfl
  | skipped hfrom hlate hrest ih =>
    have hone := hround hfrom
    exact ih.trans hone
  | delivered hfrom htime =>
    have hone := hround hfrom
    exact hone

/-- **The events that wait** are the last ones accepted, in their order. -/
theorem events_suffix (c : ℕ) (ops : List QueueOp) :
    (run queueStep (start c) ops).events <:+
      eventsOf (outputs queueStep accepted (start c) ops) := by
  induction ops using List.reverseRecOn with
  | nil => exact List.suffix_rfl
  | append_singleton ops op ih =>
    rw [run_concat, outputs_concat, eventsOf_append]
    cases op with
    | push m nowMs =>
      obtain ⟨kept, hkept, hevents⟩ := events_push (queueInv_run c ops) m nowMs
      obtain ⟨gone, hgone⟩ := hkept.trans ih
      rw [queueStep, hevents]
      exact ⟨gone, by rw [← List.append_assoc, hgone]⟩
    | pop nowMs =>
      simp only [accepted, eventsOf_nil, List.append_nil]
      exact (events_pop _ nowMs).trans ih
    | clear =>
      simp only [accepted, eventsOf_nil, List.append_nil]
      exact List.nil_suffix

/-- **The critical messages that wait** are the last ones accepted, in their order. -/
theorem critical_suffix (c : ℕ) (ops : List QueueOp) :
    (run queueStep (start c) ops).critical <:+
      criticals (outputs queueStep accepted (start c) ops) := by
  obtain ⟨-, -, h⟩ := no_silent_loss c ops
  exact ⟨_, h.symm⟩

/-! ### Pops -/

theorem takes_length_le (q : BoundedQosQueue) (nowMs : UInt64) :
    (takes q nowMs).length ≤ q.size := by
  have hlen := (messages_pop q nowMs).length_eq
  rw [List.length_append] at hlen
  rw [size_eq_length]
  omega

/-- What a pop makes of a queue, given its order: the first message that has not expired, and the
queue without it and those before it; or nothing, and an empty queue. -/
structure Exact (q : BoundedQosQueue) (nowMs : UInt64) : Prop where
  found : ∀ late m rest, ordered q = late ++ m :: rest → (∀ x ∈ late, expired x nowMs = true) →
    expired m nowMs = false → (q.pop nowMs).1 = some m ∧ ordered (q.pop nowMs).2 = rest
  drained : (∀ x ∈ q.messages, expired x nowMs = true) →
    (q.pop nowMs).1 = none ∧ (q.pop nowMs).2.messages = []
  ends : (takes q nowMs).length ≤ q.size ∧ ∀ n, q.size < n → popLoop nowMs n q = q.pop nowMs

theorem exact_pop (q : BoundedQosQueue) (nowMs : UInt64) : Exact q nowMs := by
  obtain ⟨hfst, hsnd⟩ := pop_ordered q nowMs
  refine ⟨fun late m rest hq hlate htime => ?_, fun hall => ?_, takes_length_le q nowMs,
    fun n hn => popLoop_congr hn (Nat.lt_succ_self _)⟩
  · have hdrop : (ordered q).dropWhile (expired · nowMs) = m :: rest := by
      rw [hq, List.dropWhile_append_of_pos hlate, List.dropWhile_cons, if_neg (by simp [htime])]
    rw [hfst, hsnd, hdrop]
    exact ⟨rfl, rfl⟩
  · have hlate : ∀ x ∈ ordered q, expired x nowMs = true := fun x hx =>
      hall x ((ordered_perm q).mem_iff.mp hx)
    have hdrop : (ordered q ++ []).dropWhile (expired · nowMs) = [] :=
      List.dropWhile_append_of_pos hlate
    rw [List.append_nil] at hdrop
    rw [hdrop] at hfst hsnd
    exact ⟨hfst, (hsnd ▸ (ordered_perm (q.pop nowMs).2)).nil_eq.symm⟩

/-- **A pop is exact**, in every reachable queue. The messages it holds drain in this order: the
critical ones and then the events, each the last ones accepted of their class, in the order in which
they were accepted, then the states by ascending key of their streams. A pop returns the first of
them that has not expired and leaves those behind it; if there is none it returns nothing and leaves
the queue empty; and its loop ends after at most as many rounds as there are messages. -/
theorem pop_exact (c : ℕ) (ops : List QueueOp) (nowMs : UInt64) :
    let q := run queueStep (start c) ops
    (∃ states, ordered q = q.critical ++ q.events ++ states ∧ states.Perm (values q.state) ∧
      states.Pairwise (streamKey · < streamKey ·)) ∧
    q.critical <:+ criticals (outputs queueStep accepted (start c) ops) ∧
    q.events <:+ eventsOf (outputs queueStep accepted (start c) ops) ∧
    Exact q nowMs := by
  intro q
  have hinv : QueueInv c q := queueInv_run c ops
  have hstates : (ascending UInt64.toNat q.state).Pairwise (streamKey · < streamKey ·) := by
    have hsorted : (ascending UInt64.toNat q.state).Pairwise fun x y =>
        (streamKey x).toNat < (streamKey y).toNat :=
      pairwise_ascending (fun κ x hx => (hinv.state κ x hx).2) toNat_injective
    exact hsorted.imp fun hlt => UInt64.lt_iff_toNat_lt.mpr hlt
  exact ⟨⟨_, rfl, ascending_perm q.state, hstates⟩, critical_suffix c ops, events_suffix c ops,
    exact_pop q nowMs⟩

end NewMavlink.Proxy.QueueDrain
