import NewMavlink.Proxy.DeltaChain

/-! # Events come in order, and at most once

A message without a state type is never cached: it waits among the critical messages of a queue or
among its events, and a full queue may drop the oldest event.

* `sublist_push`, `sublist_pop`: a queue keeps the order of its events.
* `events_in_order`: in every run the events that `next` returns on a link, of the critical class
  and of the rest, are a subsequence of those that `ingest` has accepted. -/

namespace NewMavlink.Proxy.EventOrder

open NewMavlink.Lib.Buffer NewMavlink.Lib.Tables NewMavlink.Lib.Runs NewMavlink.Wire
open NewMavlink.State.Messages NewMavlink.Record.SealOpen
open NewMavlink.Proxy.Queue hiding streamKey
open NewMavlink.Proxy.QueueRuns NewMavlink.Proxy.Links NewMavlink.Proxy.Links.NativeProxy
open NewMavlink.Proxy.Ingest NewMavlink.Proxy.Cache NewMavlink.Proxy.Limits
open NewMavlink.Proxy.DeltaChain (handed mem_handed)

/-- A message without a state type, of the critical class or of the rest. -/
def IsEvent (critical : Bool) (m : NativeMessage) : Prop :=
  stateType m.header.type = false ∧ decide (IsCritical m) = critical

instance (critical : Bool) : DecidablePred (IsEvent critical) := fun m =>
  inferInstanceAs (Decidable (stateType m.header.type = false ∧ _))

/-- The events of a list. -/
def eventsOf (critical : Bool) (ms : List NativeMessage) : List NativeMessage :=
  ms.filter (IsEvent critical ·)

/-- The events that wait, in the order in which a pop takes them out. -/
def waitingEvents (critical : Bool) (q : BoundedQosQueue) : List NativeMessage :=
  eventsOf critical q.critical ++ eventsOf critical q.events

variable {q q' : BoundedQosQueue} {m x : NativeMessage} {nowMs : UInt64} {c : ℕ}
  {p : NativeProxy} {op : ProxyOp} {l : UInt16}

@[simp] theorem eventsOf_nil (critical : Bool) : eventsOf critical [] = [] := rfl

theorem eventsOf_append (critical : Bool) (ms ms' : List NativeMessage) :
    eventsOf critical (ms ++ ms') = eventsOf critical ms ++ eventsOf critical ms' :=
  List.filter_append ..

theorem eventsOf_eq_nil {critical : Bool} {ms : List NativeMessage}
    (h : ∀ x ∈ ms, ¬ IsEvent critical x) : eventsOf critical ms = [] :=
  List.filter_eq_nil_iff.mpr fun x hx => by simpa using h x hx

theorem not_isEvent {critical : Bool} (h : stateType m.header.type = true) :
    ¬ IsEvent critical m := by
  rintro ⟨hnone, -⟩
  rw [h] at hnone
  cases hnone

theorem eventsOf_events (h : QueueInv c q) : eventsOf true q.events = [] :=
  eventsOf_eq_nil fun x hx hevent => (h.events x hx).2 (by simpa using hevent.2)

/-! ### A queue -/

/-- **A push** puts an event behind the others. -/
theorem sublist_push (critical : Bool) (h : QueueInv c q) (m : NativeMessage) (nowMs : UInt64) :
    (waitingEvents critical (q.push m nowMs).2).Sublist
      (waitingEvents critical q ++ eventsOf critical [m]) := by
  have hpush := push_cases h.bounded m nowMs
  generalize q.push m nowMs = r at hpush
  have hsame : (waitingEvents critical q).Sublist
      (waitingEvents critical q ++ eventsOf critical [m]) :=
    List.sublist_append_left _ _
  have hroom : ∀ {r : BoundedQosQueue}, RoomIn q r →
      (waitingEvents critical r).Sublist (waitingEvents critical q) := by
    intro r hr
    unfold waitingEvents
    rw [hr.critical_eq]
    exact (hr.events_suffix.sublist.filter _).append_left _
  cases hpush with
  | late => exact hsame
  | rejected => exact hsame
  | noRoom => exact hsame
  | replaced old hstate hold => exact hsame
  | stream r hr hstate hnew => exact (hroom hr).trans hsame
  | critical hfree hcrit =>
    unfold waitingEvents
    dsimp only
    rw [eventsOf_append]
    cases critical with
    | true => rw [eventsOf_events h, List.append_nil, List.append_nil]
    | false =>
      have hnone : eventsOf false [m] = [] := eventsOf_eq_nil fun x hx hevent => by
        rw [List.mem_singleton.mp hx] at hevent
        simpa [hcrit] using hevent.2
      rw [hnone, List.append_nil, List.append_nil]
  | event r hr hstate hcrit =>
    have hback : waitingEvents critical { r with
        events := r.events ++ [m], metrics := r.metrics.incEnqueued } =
        waitingEvents critical r ++ eventsOf critical [m] := by
      unfold waitingEvents
      dsimp only
      rw [eventsOf_append, List.append_assoc]
    rw [hback]
    exact (hroom hr).append_right _

theorem waitingEvents_takenFrom (critical : Bool) (h : QueueInv c q) (hfrom : TakenFrom q m q') :
    waitingEvents critical q = eventsOf critical [m] ++ waitingEvents critical q' := by
  unfold waitingEvents
  cases hfrom with
  | critical rest hc => rw [hc, ← List.singleton_append, eventsOf_append, List.append_assoc]
  | event rest hc he => rw [hc, he, ← List.singleton_append, eventsOf_append]; rfl
  | state κ hc he hκ =>
    have htype : stateType m.header.type = true := (isState_eq_true_iff.mp (h.state κ m hκ).1).1
    have hnone : eventsOf critical [m] = [] := eventsOf_eq_nil fun x hx => by
      rw [List.mem_singleton.mp hx]
      exact not_isEvent htype
    rw [hnone]
    rfl

/-- **A pop** takes events from the front. -/
theorem sublist_pop (critical : Bool) (h : QueueInv c q) (nowMs : UInt64) :
    (eventsOf critical (q.pop nowMs).1.toList ++ waitingEvents critical (q.pop nowMs).2).Sublist
      (waitingEvents critical q) := by
  have htaken : waitingEvents critical q =
      eventsOf critical (takes q nowMs) ++ waitingEvents critical (q.pop nowMs).2 := by
    have hpop := popped_pop q nowMs
    generalize takes q nowMs = ms, (q.pop nowMs).1 = r, (q.pop nowMs).2 = q' at hpop
    induction hpop with
    | empty => rfl
    | @skipped q q₁ q' m ms r hfrom hlate hrest ih =>
      have hmore : waitingEvents critical q₁ = eventsOf critical ms ++ waitingEvents critical q' :=
        ih (queueInv_takenFrom h _ hfrom)
      rw [waitingEvents_takenFrom critical h hfrom, hmore, ← List.append_assoc, ← eventsOf_append,
        List.singleton_append]
    | delivered hfrom htime =>
      have hone := waitingEvents_takenFrom critical h hfrom
      exact hone
  obtain ⟨late, htakes, -, -⟩ := takes_eq q nowMs
  rw [htaken, htakes, eventsOf_append]
  exact (List.sublist_append_right _ _).append_right _

theorem sublist_replay (critical : Bool) {sub : Subscription} {ms : List NativeMessage}
    (h : QueueInv c q) (hms : ∀ x ∈ ms, stateType x.header.type = true) :
    (waitingEvents critical (replay sub ms q).2).Sublist (waitingEvents critical q) := by
  induction ms generalizing q with
  | nil => exact List.Sublist.refl _
  | cons m ms ih =>
    have hrest := fun x hx => hms x (List.mem_cons_of_mem m hx)
    have hpush := sublist_push critical h m 0
    have hnone : eventsOf critical [m] = [] := eventsOf_eq_nil fun x hx => by
      rw [List.mem_singleton.mp hx]
      exact not_isEvent (hms m List.mem_cons_self)
    rw [hnone, List.append_nil] at hpush
    unfold replay
    split_ifs with hmatch
    · dsimp only
      split_ifs
      · exact (ih (queueInv_push h m 0) hrest).trans hpush
      · exact hpush
    · exact ih h hrest

/-! ### The proxy -/

/-- What the operation ingests and passes on to any link, as it would look on this one. -/
def passes (l : UInt16) (p : NativeProxy) : ProxyOp → List NativeMessage
  | .ingest ingressLink r _ =>
    if disposition p ingressLink r = .passed then [forwarded (messageOf r) l] else []
  | _ => []

/-- The events that wait for the link. -/
def eventsFor (critical : Bool) (l : UInt16) (p : NativeProxy) : List NativeMessage :=
  match p.links.lookup l with
  | none => []
  | some link => waitingEvents critical link.queue

theorem eventsFor_of_lookup {critical : Bool} {link : LinkState}
    (h : p.links.lookup l = some link) :
    eventsFor critical l p = waitingEvents critical link.queue := by
  unfold eventsFor
  rw [h]

theorem sublist_forwardTo (critical : Bool) {ingressLink : UInt16} {r : OpenRecord}
    {link : LinkState} (h : QueueInv c link.queue)
    (hd : disposition p ingressLink r = .stored ∨ disposition p ingressLink r = .passed) :
    (waitingEvents critical (forwardTo ingressLink (messageOf r) nowMs l link).2.queue).Sublist
      (waitingEvents critical link.queue ++
        eventsOf critical (passes l p (.ingest ingressLink r nowMs))) := by
  have hpush := sublist_push critical h (forwarded (messageOf r) l) nowMs
  unfold forwardTo
  split_ifs with hwants
  · dsimp only
    refine hpush.trans (List.Sublist.append_left ?_ _)
    rcases hd with hd | hd
    · have hnone : eventsOf critical [forwarded (messageOf r) l] = [] :=
        eventsOf_eq_nil fun x hx => by
          rw [List.mem_singleton.mp hx]
          exact not_isEvent (admits_of_stored hd).2
      rw [hnone]
      exact List.nil_sublist _
    · rw [passes, if_pos hd]
  · exact List.sublist_append_left _ _

theorem sublist_next (critical : Bool) (hq : QueuesInv c p) (nowMs : UInt64) :
    (eventsOf critical (handed l p (.next l nowMs)) ++
      eventsFor critical l (proxyStep p (.next l nowMs))).Sublist (eventsFor critical l p) := by
  rw [handed, if_pos rfl]
  unfold eventsFor
  simp only [proxyStep, next]
  cases hl : p.links.lookup l with
  | none =>
    dsimp only
    rw [hl]
    exact List.Sublist.refl _
  | some link =>
    dsimp only
    rw [AList.lookup_insert]
    exact sublist_pop critical (hq.2 l link hl) nowMs

theorem sublist_waiting (critical : Bool) (hq : QueuesInv c p) (hcache : CacheInv p)
    {op : ProxyOp} (hnext : ∀ nowMs, op ≠ .next l nowMs) :
    (eventsFor critical l (proxyStep p op)).Sublist
      (eventsFor critical l p ++ eventsOf critical (passes l p op)) := by
  cases hl' : (proxyStep p op).links.lookup l with
  | none =>
    unfold eventsFor
    rw [hl']
    exact List.nil_sublist _
  | some link' =>
    rw [eventsFor_of_lookup hl']
    rcases link_cases hl' with ⟨session, -, rfl⟩ | ⟨link, hl, hstep⟩
    · exact List.nil_sublist _
    · have hkept : (waitingEvents critical link.queue).Sublist
          (eventsFor critical l p ++ eventsOf critical (passes l p op)) := by
        rw [eventsFor_of_lookup hl]
        exact List.sublist_append_left _ _
      cases hstep with
      | kept => exact hkept
      | subscribed visit sub hsub =>
        refine (sublist_replay critical (hq.2 l link hl) fun x hx => ?_).trans hkept
        obtain ⟨κ, hκ⟩ := mem_visit.mp hx
        exact (hcache κ x hκ).1
      | unsubscribed type => exact hkept
      | forwarded k r t hd =>
        rw [eventsFor_of_lookup hl]
        exact sublist_forwardTo critical (hq.2 l link hl) hd
      | popped t => exact absurd rfl (hnext t)
      | session session => exact hkept

/-- **What an operation makes of the events for a link**: what it hands out was at the front, and
what it adds, it passes on. -/
theorem sublist_proxyStep (critical : Bool) (hq : QueuesInv c p) (hcache : CacheInv p)
    (op : ProxyOp) :
    (eventsOf critical (handed l p op) ++ eventsFor critical l (proxyStep p op)).Sublist
      (eventsFor critical l p ++ eventsOf critical (passes l p op)) := by
  by_cases hnext : ∃ t, op = .next l t
  · obtain ⟨t, rfl⟩ := hnext
    have hpasses : passes l p (.next l t) = [] := rfl
    rw [hpasses, eventsOf_nil, List.append_nil]
    exact sublist_next critical hq t
  · have hnone : handed l p op = [] := by
      rw [List.eq_nil_iff_forall_not_mem]
      intro m hm
      cases op with
      | next j t => exact hnext ⟨t, by rw [(mem_handed.mp hm).1]⟩
      | _ => cases hm
    rw [hnone, eventsOf_nil, List.nil_append]
    exact sublist_waiting critical hq hcache fun t ht => hnext ⟨t, ht⟩

/-! ### Runs -/

theorem sublist_run (c : ℕ) (ops : List ProxyOp) (l : UInt16) (critical : Bool) :
    (eventsOf critical (outputs proxyStep (handed l) (init c) ops) ++
      eventsFor critical l (run proxyStep (init c) ops)).Sublist
        (eventsOf critical (outputs proxyStep (passes l) (init c) ops)) := by
  induction ops using List.reverseRecOn with
  | nil => exact List.Sublist.refl _
  | append_singleton ops op ih =>
    have hstep := sublist_proxyStep (l := l) critical (queuesInv_run c ops)
      (cacheInv_run c ops) op
    rw [run_concat, outputs_concat, outputs_concat, eventsOf_append, eventsOf_append,
      List.append_assoc]
    refine (hstep.append_left _).trans ?_
    rw [← List.append_assoc]
    exact ih.append_right _

end NewMavlink.Proxy.EventOrder
