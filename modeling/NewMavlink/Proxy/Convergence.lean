import NewMavlink.Proxy.DeltaChain

/-! # A subscriber that is served catches up with the cache

The runs of `DeltaChain`: one publishing link, whose state records have QoS `StateLatest` and never
expire, and a link with room for the streams. Deltas may not fit for a slow subscriber, but nothing
that it needs is lost.

* `agrees_run`: at any time the cached message of a stream that the link follows waits for it, or is
  the last of its stream that it was handed.
* `size_pop_le`: a pop takes a message out, if there is any.
* `converges`: so after as many calls of `next` as the queue can hold messages, the link has been
  handed last, of every stream, what is cached. -/

namespace NewMavlink.Proxy.Convergence

open NewMavlink.Lib.Buffer NewMavlink.Lib.Tables NewMavlink.Lib.Runs NewMavlink.Wire
open NewMavlink.State.Messages NewMavlink.Record.SealOpen
open NewMavlink.Proxy.Queue hiding streamKey
open NewMavlink.Proxy.Queue.BoundedQosQueue NewMavlink.Proxy.QueueRuns NewMavlink.Proxy.QueueOrder
open NewMavlink.Proxy.Links NewMavlink.Proxy.Links.NativeProxy NewMavlink.Proxy.Ingest
open NewMavlink.Proxy.Cache NewMavlink.Proxy.Limits NewMavlink.Proxy.Routing
open NewMavlink.Proxy.Generations NewMavlink.Proxy.DeltaChain

variable {p : NativeProxy} {op : ProxyOp} {k l j : UInt16} {m y : NativeMessage} {r : OpenRecord}
  {nowMs κ : UInt64} {c : ℕ} {ks : List UInt64} {last last' : UInt64 → Option NativeMessage}

/-- The cached message of every stream that the link follows waits for it, or is the last that it
was handed (`last`). -/
def Agrees (k l : UInt16) (p : NativeProxy) (last : UInt64 → Option NativeMessage) : Prop :=
  ∀ κ y, p.cache.lookup κ = some y → Follows k l y.header.type p →
    waits p l κ = some (forwarded y l) ∨
      (waits p l κ = none ∧ last κ = some (forwarded y l))

/-! ### What one operation keeps -/

theorem agrees_ingest (h : FeedInv c ks p) (ha : Agrees k l p last)
    (hop : Feeds k (.ingest k r nowMs)) (hks : ∀ κ, streamOf (.ingest k r nowMs) = some κ → κ ∈ ks)
    (hroom : LeavesRoom l ks.length p (.ingest k r nowMs)) :
    Agrees k l (proxyStep p (.ingest k r nowMs)) last := by
  intro κ y hy hfollows
  rw [follows_proxyStep hop] at hfollows
  have hcache := (lookup_cache_ingest p k r nowMs κ).symm.trans hy
  split_ifs at hcache with hstored
  · -- the record is stored, and waits for the link
    obtain rfl := Option.some.inj hcache
    obtain ⟨hstored, rfl⟩ := hstored
    have hstream := hks _ (if_pos (admits_of_stored hstored).2)
    exact Or.inl (waits_ingest_stored h hop hstream hroom hstored hfollows)
  · rw [waits_ingest_kept h.order.queues fun hno => hstored ⟨hno.1, hno.2.1⟩]
    exact ha κ y hcache hfollows

theorem stream_next (h : FeedInv c ks p)
    (hkept : ∀ κ, (∀ m ∈ handed l p (.next j nowMs), ¬ InStream κ m) → last' κ = last κ)
    (hnew : ∀ m ∈ handed l p (.next j nowMs), stateType m.header.type = true →
      last' (streamKey m) = some m) (κ : UInt64) :
    (waits (proxyStep p (.next j nowMs)) l κ = waits p l κ ∧ last' κ = last κ) ∨
      ∃ m, waits p l κ = some m ∧ waits (proxyStep p (.next j nowMs)) l κ = none ∧
        last' κ = some m := by
  by_cases hout : ∀ m ∈ handed l p (.next j nowMs), ¬ InStream κ m
  · exact Or.inl ⟨waits_next h hout, hkept κ hout⟩
  · push Not at hout
    obtain ⟨m, hm, htype, rfl⟩ := hout
    have hlast := hnew m hm htype
    obtain ⟨rfl, hret⟩ := mem_handed.mp hm
    obtain ⟨hin, hgone⟩ := waits_of_next h.order.queues hret (isState_of_next h.order hret htype)
    exact Or.inr ⟨m, hin, hgone, hlast⟩

theorem agrees_next (h : FeedInv c ks p) (ha : Agrees k l p last)
    (hkept : ∀ κ, (∀ m ∈ handed l p (.next j nowMs), ¬ InStream κ m) → last' κ = last κ)
    (hnew : ∀ m ∈ handed l p (.next j nowMs), stateType m.header.type = true →
      last' (streamKey m) = some m) : Agrees k l (proxyStep p (.next j nowMs)) last' := by
  intro κ y hy hfollows
  have hop : Feeds k (.next j nowMs) := trivial
  rw [follows_proxyStep hop] at hfollows
  rw [cache_proxyStep (by simp)] at hy
  rcases stream_next h hkept hnew κ with ⟨hwaits, hlast⟩ | ⟨m, hin, hgone, hlast⟩
  · rw [hwaits, hlast]
    exact ha κ y hy hfollows
  · refine Or.inr ⟨hgone, ?_⟩
    rcases ha κ y hy hfollows with hwait | ⟨hnone, -⟩
    · rw [hlast, ← hin, hwait]
    · rw [hin] at hnone
      cases hnone

/-! ### Runs -/

/-- What holds after the operations. -/
def OnTrack (c : ℕ) (ks : List UInt64) (k l : UInt16) (s : NativeProxy) (ops : List ProxyOp) :
    Prop :=
  FeedInv c ks (run proxyStep s ops) ∧ Agrees k l (run proxyStep s ops) (lastHanded s ops l)

theorem onTrack_concat {s : NativeProxy} {ops : List ProxyOp} (h : OnTrack c ks k l s ops)
    (hsteady : Steady k l ks (run proxyStep s ops) op) : OnTrack c ks k l s (ops ++ [op]) := by
  obtain ⟨hfeed, hagrees⟩ := h
  obtain ⟨⟨hop, hks⟩, hroom⟩ := hsteady
  unfold OnTrack
  rw [run_concat]
  refine ⟨feedInv_proxyStep hfeed hop hks, ?_⟩
  cases op with
  | ingest j r nowMs =>
    obtain rfl : j = k := hop.1
    have hsame : lastHanded s (ops ++ [.ingest j r nowMs]) l = lastHanded s ops l :=
      funext fun κ => lastHanded_kept fun m hm => by cases hm
    rw [hsame]
    exact agrees_ingest hfeed hagrees hop hks hroom
  | next j nowMs =>
    refine agrees_next hfeed hagrees (fun κ => lastHanded_kept) fun m hm htype => ?_
    obtain ⟨rfl, -⟩ := mem_handed.mp hm
    exact lastHanded_new hm htype
  | _ => exact hop.elim

/-- **At any time** the cached message of a stream waits, or was handed out last. -/
theorem agrees_run {s : NativeProxy} {ops : List ProxyOp} (h : FeedInv c ks s) (hs : Blank s)
    (hops : Along proxyStep (Steady k l ks) s ops) : OnTrack c ks k l s ops := by
  refine history_invariant ⟨h, ?_⟩ (fun ops op => onTrack_concat) hops
  intro κ y hy
  rw [run_nil, hs.1 κ] at hy
  cases hy

/-! ### Draining -/

/-- **A pop takes a message out**, if there is any. -/
theorem size_pop_le (q : BoundedQosQueue) (nowMs : UInt64) : (q.pop nowMs).2.size ≤ q.size - 1 := by
  have hlength := (messages_pop q nowMs).length_eq
  have hpop := popped_pop q nowMs
  rw [List.length_append, ← size_eq_length, ← size_eq_length] at hlength
  generalize takes q nowMs = ms, (q.pop nowMs).1 = out, (q.pop nowMs).2 = q' at hpop hlength
  cases hpop with
  | empty h =>
    have hnone : q.size = 0 := by rw [size_eq_length, messages_of_takeNext h, List.length_nil]
    omega
  | skipped =>
    rw [List.length_cons] at hlength
    omega
  | delivered =>
    rw [List.length_singleton] at hlength
    omega

theorem size_drained : ∀ {clocks : List UInt64} {p : NativeProxy} {link : LinkState},
    (run proxyStep p (clocks.map (.next l ·))).links.lookup l = some link →
      ∃ link₀, p.links.lookup l = some link₀ ∧
        link.queue.size ≤ link₀.queue.size - clocks.length
  | [], p, link, h => ⟨link, h, by simp⟩
  | t :: clocks, p, link, h => by
    obtain ⟨link₁, h₁, hsize⟩ := size_drained (p := proxyStep p (.next l t)) h
    simp only [proxyStep, next] at h₁
    cases hl : p.links.lookup l with
    | none => simp [hl] at h₁
    | some link₀ =>
      simp only [hl, AList.lookup_insert, Option.some.injEq] at h₁
      subst h₁
      have hpop := size_pop_le link₀.queue t
      refine ⟨link₀, rfl, ?_⟩
      rw [List.length_cons]
      dsimp only at hsize
      omega

theorem waits_of_size_eq_zero {link : LinkState} (hl : p.links.lookup l = some link)
    (h : link.queue.size = 0) : waits p l κ = none := by
  by_contra hw
  obtain ⟨x, hx⟩ := Option.ne_none_iff_exists'.mp hw
  rw [waits_of_lookup hl] at hx
  have hmem : x ∈ link.queue.messages :=
    BoundedQosQueue.mem_messages.mpr (Or.inr (Or.inr (mem_values_iff.mpr ⟨κ, hx⟩)))
  rw [size_eq_length, List.length_eq_zero_iff] at h
  rw [h] at hmem
  cases hmem

theorem steady_served {s : NativeProxy} {phase : List ProxyOp} (clocks : List UInt64)
    (hphase : ∀ op ∈ phase, Feeds k op)
    (hroom : Along proxyStep (LeavesRoom l (streams phase).length) s phase) :
    Along proxyStep (Steady k l (streams phase)) s (phase ++ clocks.map (.next l ·)) := by
  have hmoves : Along proxyStep (Steady k l (streams phase)) s phase :=
    along_and (along_of_mem fun op hop => ⟨hphase op hop, fun κ => mem_streams hop⟩) hroom
  refine along_append.mpr ⟨hmoves, ?_⟩
  generalize run proxyStep s phase = s'
  induction clocks generalizing s' with
  | nil => trivial
  | cons t clocks ih => exact ⟨⟨⟨trivial, fun κ hκ => by cases hκ⟩, trivial⟩, ih _⟩

theorem kept_drained (k l : UInt16) (T : MessageType) : ∀ (clocks : List UInt64) (p : NativeProxy),
    (run proxyStep p (clocks.map (.next l ·))).cache = p.cache ∧
      (Follows k l T (run proxyStep p (clocks.map (.next l ·))) ↔ Follows k l T p)
  | [], _ => ⟨rfl, Iff.rfl⟩
  | t :: clocks, p => by
    have hop : Feeds k (.next l t) := trivial
    obtain ⟨hcache, hfollows⟩ := kept_drained k l T clocks (proxyStep p (.next l t))
    exact ⟨hcache.trans (cache_proxyStep (by simp)), hfollows.trans (follows_proxyStep hop)⟩

/-- **After `c` calls of `next` the link has been handed what is cached.** -/
theorem drained_run {s : NativeProxy} {phase : List ProxyOp} {clocks : List UInt64} (hs : Blank s)
    (horder : ProxyInv c s) (hphase : ∀ op ∈ phase, Feeds k op)
    (hroom : Along proxyStep (LeavesRoom l (streams phase).length) s phase)
    (hclocks : c ≤ clocks.length) (hy : (run proxyStep s phase).cache.lookup κ = some y)
    (hfollows : Follows k l y.header.type (run proxyStep s phase)) :
    lastHanded s (phase ++ clocks.map (.next l ·)) l κ = some (forwarded y l) := by
  have hsteady := steady_served clocks hphase hroom
  have hfeed : FeedInv c (streams phase) s := feedInv_blank hs horder
  obtain ⟨hinv, -⟩ := agrees_run hfeed hs (along_append.mp hsteady).1
  obtain ⟨-, hagrees⟩ := agrees_run hfeed hs hsteady
  rw [run_append] at hagrees
  obtain ⟨hcache, hsame⟩ := kept_drained k l y.header.type clocks (run proxyStep s phase)
  -- the queue of the link is empty now
  obtain ⟨-, link, -, -, hl, -⟩ := hsame.mpr hfollows
  obtain ⟨link₀, hl₀, hsize⟩ := size_drained hl
  have hbound : link₀.queue.size ≤ c := by
    have hq := hinv.order.queues.2 l link₀ hl₀
    exact hq.capacity ▸ hq.bounded
  have hnone : waits _ l κ = none := waits_of_size_eq_zero hl (by omega)
  rcases hagrees κ y (hcache ▸ hy) (hsame.mpr hfollows) with hwait | ⟨-, hdone⟩
  · rw [hnone] at hwait
    cases hwait
  · exact hdone

theorem ready_of_setup {setup : List ProxyOp} (c : ℕ) (l : UInt16)
    (hsetup : ∀ op ∈ setup, ∀ j r t, op ≠ .ingest j r t) :
    Blank (run proxyStep (init c) setup) ∧ ProxyInv c (run proxyStep (init c) setup) ∧
      ∀ ops, lastHanded (init c) (setup ++ ops) l =
        lastHanded (run proxyStep (init c) setup) ops l := by
  have hblank : Blank (init c) := ⟨fun κ => rfl, not_queued_init c⟩
  obtain ⟨hs, hsilent⟩ := blank_run (l := l) hblank hsetup
  refine ⟨hs, proxyInv_run (proxyInv_init c) ?_, fun ops => ?_⟩
  · rintro op hop j r t rfl
    exact absurd rfl (hsetup _ hop j r t)
  · unfold lastHanded
    rw [outputs_append, hsilent, List.nil_append]

/-- **A subscriber catches up with the cache**, in every run of two phases, first any calls but
`ingest`, then `next` and one publishing link whose state records have QoS `StateLatest` and no
deadline, if the link's queue has room for the streams beside the critical messages: at any time,
what is cached of a stream that the link follows waits for it or is what it was handed last, and
after `c` more calls of `next` it is what it was handed last. -/
theorem converges (c : ℕ) (k l : UInt16) (setup phase : List ProxyOp) (clocks : List UInt64)
    (κ : UInt64) (y : NativeMessage) (hsetup : ∀ op ∈ setup, ∀ j r t, op ≠ .ingest j r t)
    (hphase : ∀ op ∈ phase, Feeds k op)
    (hroom : Along proxyStep (LeavesRoom l (streams phase).length)
      (run proxyStep (init c) setup) phase)
    (hclocks : c ≤ clocks.length)
    (hy : (run proxyStep (init c) (setup ++ phase)).cache.lookup κ = some y)
    (hfollows : Follows k l y.header.type (run proxyStep (init c) (setup ++ phase))) :
    (waits (run proxyStep (init c) (setup ++ phase)) l κ = some (forwarded y l) ∨
      (waits (run proxyStep (init c) (setup ++ phase)) l κ = none ∧
        lastHanded (init c) (setup ++ phase) l κ = some (forwarded y l))) ∧
    lastHanded (init c) (setup ++ phase ++ clocks.map (.next l ·)) l κ = some (forwarded y l) := by
  obtain ⟨hs, horder, hlast⟩ := ready_of_setup c l hsetup
  rw [List.append_assoc, hlast, hlast]
  rw [run_append] at hy hfollows ⊢
  refine ⟨?_, drained_run hs horder hphase hroom hclocks hy hfollows⟩
  have hsteady := along_append.mp (steady_served [] hphase hroom)
  exact (agrees_run (feedInv_blank hs horder) hs hsteady.1).2 κ y hy hfollows

/-- The stream of the test records. -/
def testKey : UInt64 := streamKey (messageOf (makePosition 2 ⟨42, 1, 0, 2, 1, 0⟩))

/-- A `Position` that took the place of another is what the subscriber is handed last. -/
theorem converges_replaced : ∃ y,
    (run proxyStep (init 4) (testSetup ++ [testIngest 1 0 1, .next 2 0, testIngest 2 1 0,
      testIngest 3 2 0])).cache.lookup testKey = some y ∧ metaOf y = some ⟨42, 3, 2, 2, 0, 0⟩ ∧
    lastHanded (init 4) (testSetup ++ [testIngest 1 0 1, .next 2 0, testIngest 2 1 0,
      testIngest 3 2 0] ++ [0, 0, 0, 0].map (.next 2 ·)) 2 testKey = some (forwarded y 2) := by
  let phase : List ProxyOp := [testIngest 1 0 1, .next 2 0, testIngest 2 1 0, testIngest 3 2 0]
  -- the whole run is evaluated once
  have hrun : (((run proxyStep (init 4) (testSetup ++ phase)).cache.lookup testKey).map
        fun y => (y.header.type, metaOf y)) = some (.position, some ⟨42, 3, 2, 2, 0, 0⟩) ∧
      (((run proxyStep (init 4) (testSetup ++ phase)).links.lookup 2).bind
        fun link => (link.subscriptions.lookup MessageType.position.code).map (·.sourceId)) =
          some 2 ∧
      ((run proxyStep (init 4) (testSetup ++ phase)).links.lookup 1).map
        (·.session.keys.peerId) = some 2 ∧ (streams phase).length = 1 := by
    decide +kernel
  obtain ⟨hcached, hsub, hpeer, hstreams⟩ := hrun
  obtain ⟨y, hy, hboth⟩ := Option.map_eq_some_iff.mp hcached
  obtain ⟨htype, hmeta⟩ := Prod.mk.inj hboth
  obtain ⟨link, hl, hsub⟩ := Option.bind_eq_some_iff.mp hsub
  obtain ⟨sub, hsub, hsource⟩ := Option.map_eq_some_iff.mp hsub
  obtain ⟨ingress, hk, hpeer⟩ := Option.map_eq_some_iff.mp hpeer
  have hfollows : Follows 1 2 y.header.type (run proxyStep (init 4) (testSetup ++ phase)) :=
    ⟨by decide, link, ingress, sub, hl, hk, htype ▸ hsub, hsource.trans hpeer.symm⟩
  have hphase : ∀ op ∈ phase, Feeds 1 op := by
    intro op hop
    simp only [phase, List.mem_cons, List.not_mem_nil, or_false] at hop
    rcases hop with rfl | rfl | rfl | rfl
    · exact feeds_testIngest 1 0 1
    · trivial
    · exact feeds_testIngest 2 1 0
    · exact feeds_testIngest 3 2 0
  have hempty : ∀ p : NativeProxy, ((p.links.lookup 2).map (·.queue.critical.length) = some 0 ∧
      p.queueCapacity = 4) → ∀ link ∈ p.links.lookup 2,
        link.queue.critical.length + (streams phase).length ≤ p.queueCapacity := by
    rintro p ⟨hcritical, hcapacity⟩ link hl
    rw [Option.mem_def.mp hl] at hcritical
    have hzero : link.queue.critical.length = 0 := Option.some.inj hcritical
    rw [hzero, hstreams, hcapacity]
    decide
  exact ⟨y, hy, hmeta, (converges 4 1 2 testSetup phase [0, 0, 0, 0] testKey y testSetup_no_ingest
    hphase ⟨fun _ => hempty _ (by decide +kernel), trivial, fun _ => hempty _ (by decide +kernel),
      fun _ => hempty _ (by decide +kernel), trivial⟩ (by decide) hy hfollows).2⟩

end NewMavlink.Proxy.Convergence
