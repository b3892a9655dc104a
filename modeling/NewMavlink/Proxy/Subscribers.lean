import NewMavlink.Proxy.QueueRuns
import NewMavlink.Proxy.Routing

/-! # What a subscriber is not handed

* `unsubscribe_withholds_iff`: when a link that has unsubscribed from a type is not handed a message
  of the type any more. `unsubscribe` leaves the queue alone, so what waits there is still handed
  out (`unsubscribe_withholds_not`).
* `no_echo`: when no link is handed a message that was ingested on it. `ingest` passes over the
  ingress link, but `subscribe` replays the cache to any link (`echo`). -/

namespace NewMavlink.Proxy.Subscribers

open NewMavlink.Lib.Buffer NewMavlink.Lib.Tables NewMavlink.Lib.Runs
open NewMavlink.Wire NewMavlink.State.Messages NewMavlink.Record.SealOpen
open NewMavlink.Proxy.Queue hiding streamKey
open NewMavlink.Proxy.QueueRuns
open NewMavlink.Proxy.Links NewMavlink.Proxy.Links.NativeProxy NewMavlink.Proxy.Ingest
open NewMavlink.Proxy.Routing

variable {p : NativeProxy} {op : ProxyOp} {l : UInt16} {m x : NativeMessage} {r : OpenRecord}
  {T : MessageType} {nowMs : UInt64}

/-! ### After an unsubscribe -/

/-- The operations do not subscribe the link to the type. -/
def NoSubscribe (l : UInt16) (T : MessageType) (ops : List ProxyOp) : Prop :=
  ∀ visit sub, .subscribe visit l sub ∈ ops → sub.type ≠ T

/-- Until it subscribes to the type again, the link is not handed a message of the type. -/
def Withheld (p : NativeProxy) (l : UInt16) (T : MessageType) : Prop :=
  ∀ ops, NoSubscribe l T ops → ∀ nowMs m, ((run proxyStep p ops).next l nowMs).1 = some m →
    m.header.type ≠ T

/-- The link, if it is there, has neither a subscription for the type nor a message of it. -/
def Silent (l : UInt16) (T : MessageType) (p : NativeProxy) : Prop :=
  ∀ link, p.links.lookup l = some link → link.subscriptions.lookup T.code = none ∧
    ∀ m ∈ link.queue.messages, m.header.type ≠ T

theorem silent_proxyStep (h : Silent l T p)
    (hop : ∀ visit sub, op = .subscribe visit l sub → sub.type ≠ T) :
    Silent l T (proxyStep p op) := by
  intro link' hl'
  rcases link_cases hl' with ⟨session, rfl, rfl⟩ | ⟨link, hl, hstep⟩
  · exact ⟨rfl, by simp [values]⟩
  · obtain ⟨hsub, hqueue⟩ := h link hl
    cases hstep with
    | kept => exact ⟨hsub, hqueue⟩
    | subscribed visit sub hrec =>
      have hother : sub.type ≠ T := hop visit sub rfl
      have hcode : T.code ≠ sub.type.code := fun heq => hother (congrArg MessageType.mk heq).symm
      refine ⟨?_, fun m hm => ?_⟩
      · dsimp only
        rw [lookup_insert_eq, if_neg hcode]
        exact hsub
      · rcases mem_messages_replay hm with hm | ⟨-, htype, -⟩
        · exact hqueue m hm
        · rw [htype]
          exact hother
    | unsubscribed type =>
      refine ⟨?_, hqueue⟩
      dsimp only
      rw [lookup_erase_eq]
      split_ifs
      · rfl
      · exact hsub
    | forwarded k r nowMs hd =>
      refine ⟨by rw [subscriptions_forwardTo]; exact hsub, fun m hm => ?_⟩
      rcases mem_messages_forwardTo hm with hm | ⟨hw, rfl⟩
      · exact hqueue m hm
      · rintro rfl
        obtain ⟨-, sub, hlookup, -⟩ := wants_iff.mp hw
        exact absurd (hsub.symm.trans hlookup) (by simp)
    | popped nowMs =>
      exact ⟨hsub, fun m hm => hqueue m (BoundedQosQueue.mem_messages_pop hm)⟩
    | session session => exact ⟨hsub, hqueue⟩

theorem silent_run {ops : List ProxyOp} (h : Silent l T p) (hops : NoSubscribe l T ops) :
    Silent l T (run proxyStep p ops) := by
  induction ops generalizing p with
  | nil => exact h
  | cons op ops ih =>
    refine ih (silent_proxyStep h ?_) fun visit sub hmem => ?_
    · rintro visit sub rfl
      exact hops visit sub List.mem_cons_self
    · exact hops visit sub (List.mem_cons_of_mem _ hmem)

/-! ### What waits is handed out in the end -/

theorem expired_zero (m : NativeMessage) : expired m 0 = false := by
  unfold expired
  simp

theorem pop_zero (q : BoundedQosQueue) : (q.takeNext = none ∧ q.pop 0 = (none, q)) ∨
    ∃ m q', TakenFrom q m q' ∧
      q.pop 0 = (some m, { q' with metrics := q'.metrics.incDelivered }) := by
  rw [BoundedQosQueue.pop_eq]
  cases hnext : q.takeNext with
  | none => exact Or.inl ⟨rfl, rfl⟩
  | some e =>
    obtain ⟨m, q'⟩ := e
    refine Or.inr ⟨m, q', takenFrom_of_takeNext hnext, ?_⟩
    dsimp only
    rw [if_neg (by simp [expired_zero])]

theorem next_of_queued : ∀ {n : ℕ} {p : NativeProxy} {link : LinkState},
    p.links.lookup l = some link → link.queue.size = n → m ∈ link.queue.messages →
    ∃ k, ((run proxyStep p (List.replicate k (.next l 0))).next l 0).1 = some m
  | n, p, link, hl, hsize, hm => by
    have hnext : p.next l 0 = ((link.queue.pop 0).1,
        { p with links := p.links.insert l { link with queue := (link.queue.pop 0).2 } }) := by
      unfold next
      rw [hl]
    rcases pop_zero link.queue with ⟨hnone, -⟩ | ⟨m', q', hfrom, hpop⟩
    · rw [messages_of_takeNext hnone] at hm
      cases hm
    · rw [hpop] at hnext
      rcases List.mem_cons.mp (hfrom.perm.mem_iff.mp hm) with rfl | hrest
      · exact ⟨0, by rw [List.replicate_zero, run_nil, hnext]⟩
      · have hless : q'.size < n := by
          have hlen := hfrom.perm.length_eq
          rw [← size_eq_length, List.length_cons, ← size_eq_length] at hlen
          omega
        have hstep : proxyStep p (.next l 0) = _ := congrArg Prod.snd hnext
        obtain ⟨k, hk⟩ := next_of_queued (n := q'.size) (p := proxyStep p (.next l 0))
          (by rw [hstep]; exact AList.lookup_insert _) rfl hrest
        exact ⟨k + 1, by rw [List.replicate_succ, run_cons]; exact hk⟩
  termination_by n => n

theorem withheld_of_silent (h : Silent l T p) : Withheld p l T := by
  intro ops hops nowMs m hm
  obtain ⟨link, hl, hin⟩ := queued_of_next hm
  exact (silent_run h hops link hl).2 m hin

theorem not_queued_of_withheld (h : Withheld p l T) (hq : Queued p l m) : m.header.type ≠ T := by
  obtain ⟨link, hl, hm⟩ := hq
  obtain ⟨k, hk⟩ := next_of_queued hl rfl hm
  refine h (List.replicate k (.next l 0)) (fun visit sub hmem => ?_) 0 m hk
  cases List.eq_of_mem_replicate hmem

theorem unsubscribe_fst_iff : (p.unsubscribe l T).1 = true ↔
    ∃ link, p.links.lookup l = some link ∧ (link.subscriptions.lookup T.code).isSome = true := by
  unfold unsubscribe
  cases p.links.lookup l <;> simp

theorem lookup_unsubscribe {link : LinkState} (hl : p.links.lookup l = some link) :
    (p.unsubscribe l T).2.links.lookup l = some { link with
      subscriptions := link.subscriptions.erase T.code } := by
  unfold unsubscribe
  rw [hl]
  exact AList.lookup_insert _

theorem withheld_unsubscribe (h : (p.unsubscribe l T).1 = true) :
    Withheld (p.unsubscribe l T).2 l T ↔ ∀ m, Queued p l m → m.header.type ≠ T := by
  obtain ⟨link, hl, -⟩ := unsubscribe_fst_iff.mp h
  have hl' := lookup_unsubscribe (T := T) hl
  constructor
  · rintro hwithheld m ⟨link', hlink', hm⟩
    obtain rfl := Option.some.inj (hl.symm.trans hlink')
    exact not_queued_of_withheld hwithheld ⟨_, hl', hm⟩
  · intro hqueue
    refine withheld_of_silent fun link' hlink' => ?_
    obtain rfl := Option.some.inj (hl'.symm.trans hlink')
    exact ⟨AList.lookup_erase _ _, fun m hm => hqueue m ⟨link, hl, hm⟩⟩

/-- **When a link is not handed a type any more** that it has unsubscribed from, in every run: if
nothing of the type waits in its queue. -/
theorem unsubscribe_withholds_iff (c : ℕ) (ops : List ProxyOp) (l : UInt16) (T : MessageType)
    (h : ((run proxyStep (init c) ops).unsubscribe l T).1 = true) :
    Withheld ((run proxyStep (init c) ops).unsubscribe l T).2 l T ↔
      ∀ m, Queued (run proxyStep (init c) ops) l m → m.header.type ≠ T :=
  withheld_unsubscribe h

/-- Link 2 is handed a `Position`, and a `SafetyEvent` waits for it. -/
def drainedOps : List ProxyOp :=
  [.addLink 1 (testSession 1 2), .addLink 2 (testSession 1 3),
    .subscribe .inOrder 2 { sourceId := 2 },
    .subscribe .inOrder 2 { type := .safetyEvent, sourceId := 2 },
    .ingest 1 (makePosition 2 ⟨42, 1, 0, 2, 1, 0⟩) 0, .next 2 0,
    .ingest 1 { header := { positionHeader 2 with type := .safetyEvent } } 0]

theorem waiting_drainedOps : ((run proxyStep (init 4) drainedOps).links.lookup 2).map
    (·.queue.messages.map (·.header.type)) = some [.safetyEvent] := by
  decide +kernel

/-- The link has taken the `Position` when it unsubscribes, and is handed the event after it. -/
theorem unsubscribe_withholds_drained :
    Withheld ((run proxyStep (init 4) drainedOps).unsubscribe 2 .position).2 2 .position ∧
      ((((run proxyStep (init 4) drainedOps).unsubscribe 2 .position).2.next 2 0).1.map
        (·.header.type)) = some .safetyEvent := by
  refine ⟨(unsubscribe_withholds_iff 4 drainedOps 2 .position (by decide +kernel)).mpr ?_,
    by decide +kernel⟩
  rintro m ⟨link, hl, hin⟩
  have hwaiting : link.queue.messages.map (·.header.type) = [.safetyEvent] := by
    have hmap := waiting_drainedOps
    rw [hl] at hmap
    exact Option.some.inj hmap
  have htype : m.header.type ∈ link.queue.messages.map (·.header.type) := List.mem_map_of_mem hin
  rw [hwaiting, List.mem_singleton] at htype
  rw [htype]
  decide

/-- A `Position` that waits when the link unsubscribes is still handed out. -/
theorem unsubscribe_withholds_not : ¬ ∀ (c : ℕ) (ops : List ProxyOp) (l : UInt16)
    (T : MessageType), ((run proxyStep (init c) ops).unsubscribe l T).1 = true →
      Withheld ((run proxyStep (init c) ops).unsubscribe l T).2 l T := by
  intro h
  let ops : List ProxyOp := [.addLink 1 (testSession 1 2), .addLink 2 (testSession 1 3),
    .subscribe .inOrder 2 { sourceId := 2 },
    .ingest 1 (makePosition 2 ⟨42, 1, 0, 2, 1, 0⟩) 0]
  have hwithheld := h 4 ops 2 .position (by decide +kernel)
  have hnext : ((((run proxyStep (init 4) ops).unsubscribe 2 .position).2.next 2 0).1.map
      (·.header.type)) = some .position := by decide +kernel
  obtain ⟨m, hm, htype⟩ := Option.map_eq_some_iff.mp hnext
  exact hwithheld [] (fun visit sub hmem => by cases hmem) 0 m hm htype

/-! ### No echo -/

/-- A cached message that was ingested on the link. -/
def IngestedOn (c : ℕ) (ops : List ProxyOp) (l : UInt16) (m : NativeMessage) : Prop :=
  ∃ before r nowMs after, ops = before ++ .ingest l r nowMs :: after ∧
    disposition (run proxyStep (init c) before) l r = .stored ∧ m = messageOf r

/-- After the run `ops`, the operation puts the message into the queue of the link `l`, and the
message was ingested on the link `k`: now, if it is forwarded, or before, if it is replayed. -/
def EntersFrom (c : ℕ) (ops : List ProxyOp) (op : ProxyOp) (l : UInt16) (m : NativeMessage)
    (k : UInt16) : Prop :=
  (∃ r nowMs link, op = .ingest k r nowMs ∧
    (disposition (run proxyStep (init c) ops) k r = .stored ∨
      disposition (run proxyStep (init c) ops) k r = .passed) ∧
    (run proxyStep (init c) ops).links.lookup l = some link ∧
    wants k l (messageOf r) link = true ∧ m = forwarded (messageOf r) l) ∨
  (Replays (run proxyStep (init c) ops) op l m ∧ IngestedOn c ops k m)

/-- What `next` returns entered the queue, and every time that it did, it was ingested on another
link. -/
def NoEcho (c : ℕ) (ops : List ProxyOp) : Prop :=
  ∀ l nowMs m, ((run proxyStep (init c) ops).next l nowMs).1 = some m →
    (∃ before op after k, ops = before ++ op :: after ∧ EntersFrom c before op l m k) ∧
    ∀ before op after k, ops = before ++ op :: after → EntersFrom c before op l m k → k ≠ l

/-- A subscription that is recorded finds no message in the cache that was ingested on its own
link. -/
def ReplaysForeign (c : ℕ) (ops : List ProxyOp) : Prop :=
  ∀ before visit l sub after κ m, ops = before ++ .subscribe visit l sub :: after →
    records (run proxyStep (init c) before) l sub = true →
    (run proxyStep (init c) before).cache.lookup κ = some m → m.header.type = sub.type →
    m.header.sourceId = sub.sourceId → ¬ IngestedOn c before l m

/-- A key holds a message in the cache. -/
def Cached (p : NativeProxy) (e : UInt64 × NativeMessage) : Prop := p.cache.lookup e.1 = some e.2

/-- The operation stores the message. -/
def StoredBy (p : NativeProxy) (op : ProxyOp) (e : UInt64 × NativeMessage) : Prop :=
  ∃ l r nowMs, op = .ingest l r nowMs ∧ disposition p l r = .stored ∧ e.2 = messageOf r

theorem cached_proxyStep (p : NativeProxy) (op : ProxyOp) (e : UInt64 × NativeMessage)
    (h : Cached (proxyStep p op) e) : Cached p e ∨ StoredBy p op e := by
  rcases lookup_cache_proxyStep p op e.1 with heq | ⟨l, r, nowMs, hop, hs, -, hnew⟩
  · exact Or.inl (heq.symm.trans h)
  · exact Or.inr ⟨l, r, nowMs, hop, hs, Option.some.inj (h.symm.trans hnew)⟩

theorem ingestedOn_of_cached {c : ℕ} {ops : List ProxyOp} {κ : UInt64}
    (h : (run proxyStep (init c) ops).cache.lookup κ = some m) : ∃ k, IngestedOn c ops k m := by
  have hcached : Cached (run proxyStep (init c) ops) (κ, m) := h
  have hnone : ¬ Cached (init c) (κ, m) := by rintro ⟨⟩
  obtain ⟨before, op, after, hops, l, r, nowMs, rfl, hs, rfl⟩ :=
    run_origin cached_proxyStep hnone hcached
  exact ⟨l, before, r, nowMs, after, hops, hs, rfl⟩

/-- **No echo**, in every run whose subscriptions find no message in the cache that was ingested on
their own link. -/
theorem no_echo {c : ℕ} {ops : List ProxyOp} (h : ReplaysForeign c ops) : NoEcho c ops := by
  intro l nowMs m hm
  constructor
  · obtain ⟨before, op, after, hops, hnew, hsince⟩ :=
      run_entry (Q := fun p => Queued p l m) (not_queued_init c l m) (queued_of_next hm)
    have hentry := hsince [] List.nil_prefix
    rw [run_concat] at hentry
    rcases queued_proxyStep hentry with hq | ⟨k, r, nowMs, link, rfl, hd, hl, hw, hm⟩ | hreplay
    · exact absurd hq hnew
    · exact ⟨before, _, after, k, hops, Or.inl ⟨r, nowMs, link, rfl, hd, hl, hw, hm⟩⟩
    · obtain ⟨visit, sub, κ, rfl, hrec, hκ, htype, hsource⟩ := hreplay
      obtain ⟨k, hk⟩ := ingestedOn_of_cached hκ
      exact ⟨before, _, after, k, hops, Or.inr ⟨⟨visit, sub, κ, rfl, hrec, hκ, htype, hsource⟩, hk⟩⟩
  · rintro before op after k hops
      (⟨r, nowMs, link, -, -, -, hw, -⟩ | ⟨⟨visit, sub, κ, rfl, hrec, hκ, htype, hsource⟩, hk⟩)
    · exact (wants_iff.mp hw).1.symm
    · rintro rfl
      exact h before visit k sub after κ m hops hrec hκ htype hsource hk

/-- A link that subscribes to another source before anything is ingested. -/
theorem no_echo_forwarded : NoEcho 4 [.addLink 1 (testSession 1 2), .addLink 2 (testSession 1 3),
    .subscribe .inOrder 2 { sourceId := 2 },
    .ingest 1 (makePosition 2 ⟨42, 1, 0, 2, 1, 0⟩) 0] := by
  refine no_echo ?_
  rintro before visit l sub after κ m hops - hκ - -
  have hempty : (run proxyStep (init 4) before).cache = ∅ := by
    rcases before with - | ⟨o₁, - | ⟨o₂, - | ⟨o₃, before⟩⟩⟩
    · rfl
    · simp at hops
    · simp only [List.cons_append, List.nil_append, List.cons.injEq] at hops
      obtain ⟨rfl, rfl, -⟩ := hops
      rfl
    · have hrest := (List.cons.inj (List.cons.inj (List.cons.inj hops).2).2).2
      rcases before with - | ⟨o₄, before⟩
      · simp at hrest
      · simp at hrest
  rw [hempty] at hκ
  cases hκ

/-- A link that subscribes to its own source is handed what it has published. -/
theorem echo : ¬ ∀ (c : ℕ) (ops : List ProxyOp), NoEcho c ops := by
  intro h
  let ops : List ProxyOp := [.addLink 1 (testSession 1 2),
    .ingest 1 (makePosition 2 ⟨42, 1, 0, 2, 1, 0⟩) 0, .subscribe .inOrder 1 { sourceId := 2 }]
  obtain ⟨m, hm⟩ := Option.isSome_iff_exists.mp (show
    ((run proxyStep (init 4) ops).next 1 0).1.isSome = true by decide +kernel)
  obtain ⟨⟨before, op, after, k, hops, hentry⟩, hall⟩ := h 4 ops 1 0 m hm
  have hk : ∃ r nowMs, .ingest k r nowMs ∈ ops := by
    rcases hentry with ⟨r, nowMs, -, rfl, -⟩ | ⟨-, b, r, nowMs, a, rfl, -⟩
    · exact ⟨r, nowMs, by simp [hops]⟩
    · exact ⟨r, nowMs, by simp [hops]⟩
  obtain ⟨r, nowMs, hmem⟩ := hk
  have hone : k = 1 := by
    simp only [ops, List.mem_cons, List.not_mem_nil, or_false, ProxyOp.ingest.injEq, reduceCtorEq,
      false_or] at hmem
    exact hmem.1
  exact hall before op after k hops hentry hone

end NewMavlink.Proxy.Subscribers
