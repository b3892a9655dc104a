import NewMavlink.Proxy.Generations
import NewMavlink.Proxy.QueueOrder

/-! # The deltas that a slow subscriber gets

A proxy with one publishing link, whose state records have QoS `StateLatest` and never expire, and
a subscriber that is served at its own pace. A state message that comes in while another of its
stream waits takes its place, so what the subscriber gets next need not fit what it got last.

* `waits_ingest_stored`, `waits_ingest_kept`, `waits_next`: what waits for the subscriber after a
  call.
* `onCourse_run`: what was handed out last of a stream is what is cached, or what is cached waits.
* `delta_chain`: a delta that `next` returns fits the last message that it returned of the stream,
  exactly if its stream was cached and nothing of it waited when the delta came in. -/

namespace NewMavlink.Proxy.DeltaChain

open NewMavlink.Lib.Buffer NewMavlink.Lib.Tables NewMavlink.Lib.Runs
open NewMavlink.Wire NewMavlink.State.Messages NewMavlink.Record.SealOpen
open NewMavlink.Proxy.Queue hiding streamKey
open NewMavlink.Proxy.QueueRuns NewMavlink.Proxy.QueueOrder
open NewMavlink.Proxy.Links NewMavlink.Proxy.Links.NativeProxy NewMavlink.Proxy.Ingest
open NewMavlink.Proxy.Cache NewMavlink.Proxy.Limits NewMavlink.Proxy.Routing
open NewMavlink.Proxy.Subscribers NewMavlink.Proxy.Generations

variable {p p' : NativeProxy} {op : ProxyOp} {k l : UInt16} {m x y : NativeMessage}
  {r : OpenRecord} {nowMs κ : UInt64} {T : MessageType} {c : ℕ} {ks : List UInt64}

/-! ### Publishing and being served -/

/-- The operation publishes a record on the link `k`, or serves a link. A state record has QoS
`StateLatest` and no deadline. -/
def Feeds (k : UInt16) : ProxyOp → Prop
  | .ingest ingressLink r _ => ingressLink = k ∧ (stateType r.header.type = true →
      r.header.qos = .stateLatest ∧ r.header.deadlineMs = 0)
  | .next _ _ => True
  | _ => False

/-- A state record that is ingested is accepted. -/
def TakesIn (p : NativeProxy) : ProxyOp → Prop
  | .ingest k r nowMs => stateType r.header.type = true → (p.ingest k r nowMs).1 = true
  | _ => True

/-- The stream of a state record that the operation ingests. -/
def streamOf : ProxyOp → Option UInt64
  | .ingest _ r _ => if stateType r.header.type then some (streamKey (messageOf r)) else none
  | _ => none

/-- The streams of the state records that are ingested, each of them once. -/
def streams (ops : List ProxyOp) : List UInt64 := (ops.filterMap streamOf).dedup

/-- When a state record is ingested, the critical messages that wait for the link leave room for
`n` streams. -/
def LeavesRoom (l : UInt16) (n : ℕ) (p : NativeProxy) : ProxyOp → Prop
  | .ingest _ r _ => stateType r.header.type = true → ∀ link ∈ p.links.lookup l,
      link.queue.critical.length + n ≤ p.queueCapacity
  | _ => True

/-- What `next` returns on the link. -/
def handed (l : UInt16) (p : NativeProxy) : ProxyOp → List NativeMessage
  | .next egressLink nowMs => if egressLink = l then (p.next l nowMs).1.toList else []
  | _ => []

/-- The last message of a stream that `next` has returned on the link. -/
def lastHanded (s : NativeProxy) (ops : List ProxyOp) (l : UInt16) (κ : UInt64) :
    Option NativeMessage :=
  (ofStream κ (outputs proxyStep (handed l) s ops)).getLast?

theorem mem_handed {j : UInt16} :
    m ∈ handed l p (.next j nowMs) ↔ j = l ∧ (p.next l nowMs).1 = some m := by
  dsimp only [handed]
  split_ifs with hj <;> simp [hj]

theorem feeds_ingestsLatest (h : Feeds k op) : IngestsLatest op := by
  rintro l r nowMs rfl hstate
  exact (h.2 hstate).1

theorem mem_streams {ops : List ProxyOp} (hop : op ∈ ops) (h : streamOf op = some κ) :
    κ ∈ streams ops :=
  List.mem_dedup.mpr (List.mem_filterMap.mpr ⟨op, hop, h⟩)

/-! ### The settings of the links -/

/-- What publishing and serving leave alone in a link. -/
def settings (link : LinkState) : Session × Table UInt8 Subscription :=
  (link.session, link.subscriptions)

theorem settings_proxyStep (h : Feeds k op) (j : UInt16) :
    ((proxyStep p op).links.lookup j).map settings = (p.links.lookup j).map settings := by
  cases op with
  | ingest ingressLink r nowMs =>
    simp only [proxyStep]
    rcases links_ingest p ingressLink r nowMs with hkept | ⟨-, hforward⟩
    · rw [hkept]
    · rw [hforward, lookup_mapValues, Option.map_map]
      refine congrFun (congrArg Option.map (funext fun link => ?_)) _
      exact Prod.ext session_forwardTo subscriptions_forwardTo
  | next egressLink nowMs =>
    simp only [proxyStep, next]
    cases hl : p.links.lookup egressLink with
    | none => rfl
    | some link =>
      dsimp only
      rw [lookup_insert_eq]
      split_ifs with hj
      · rw [hj, hl]
        rfl
      · rfl
  | _ => exact h.elim

/-- The link `l` holds a subscription for the type, to the peer of the link `k`. -/
def Follows (k l : UInt16) (T : MessageType) (p : NativeProxy) : Prop :=
  l ≠ k ∧ ∃ link ingress sub, p.links.lookup l = some link ∧ p.links.lookup k = some ingress ∧
    link.subscriptions.lookup T.code = some sub ∧ sub.sourceId = ingress.session.keys.peerId

theorem follows_of_settings (hset : ∀ j, (p'.links.lookup j).map settings =
    (p.links.lookup j).map settings) (h : Follows k l T p) : Follows k l T p' := by
  obtain ⟨hne, link, ingress, sub, hl, hk, hsub, hpeer⟩ := h
  have hl' := hset l
  have hk' := hset k
  rw [hl, Option.map_some, Option.map_eq_some_iff] at hl'
  rw [hk, Option.map_some, Option.map_eq_some_iff] at hk'
  obtain ⟨link', hlink', hsame⟩ := hl'
  obtain ⟨ingress', hingress', hsame'⟩ := hk'
  obtain ⟨-, hsubs⟩ := Prod.mk.inj hsame
  obtain ⟨hsession, -⟩ := Prod.mk.inj hsame'
  exact ⟨hne, link', ingress', sub, hlink', hingress', by rw [hsubs]; exact hsub,
    by rw [hsession]; exact hpeer⟩

theorem follows_proxyStep (h : Feeds k op) :
    Follows k l T (proxyStep p op) ↔ Follows k l T p :=
  ⟨follows_of_settings fun j => (settings_proxyStep h j).symm,
    follows_of_settings (settings_proxyStep h)⟩

theorem wants_iff_follows {link : LinkState} (hadm : admits p k r = true)
    (hl : p.links.lookup l = some link) :
    wants k l (messageOf r) link = true ↔ Follows k l r.header.type p := by
  obtain ⟨ingress, hk, -, -, hpeer, -⟩ := admits_eq_true_iff.mp hadm
  rw [wants_iff]
  constructor
  · rintro ⟨hne, sub, hsub, hsource⟩
    exact ⟨hne, link, ingress, sub, hl, hk, hsub, hsource.trans hpeer⟩
  · rintro ⟨hne, link', ingress', sub, hl', hk', hsub, hsource⟩
    obtain rfl := Option.some.inj (hl.symm.trans hl')
    obtain rfl := Option.some.inj (hk.symm.trans hk')
    exact ⟨hne, sub, hsub, hsource.trans hpeer.symm⟩

/-! ### What waits for the subscriber -/

/-- The proxy while records come in: in order, with cached streams among `ks`, and nothing that
waits can expire. -/
structure FeedInv (c : ℕ) (ks : List UInt64) (p : NativeProxy) : Prop where
  order : ProxyInv c p
  known : ∀ κ y, p.cache.lookup κ = some y → κ ∈ ks
  timeless : ∀ l κ x, waits p l κ = some x → x.header.deadlineMs = 0

theorem feedInv_proxyStep (h : FeedInv c ks p) (hop : Feeds k op)
    (hks : ∀ κ, streamOf op = some κ → κ ∈ ks) : FeedInv c ks (proxyStep p op) := by
  refine ⟨proxyInv_proxyStep p op h.order (feeds_ingestsLatest hop), fun κ y hy => ?_,
    fun l κ x hx => ?_⟩
  · rcases lookup_cache_proxyStep p op κ with heq | ⟨j, r, nowMs, rfl, hstored, rfl, -⟩
    · exact h.known κ y (heq ▸ hy)
    · exact hks _ (if_pos (admits_of_stored hstored).2)
  · rcases waits_cases h.order.queues hx with hx | ⟨j, r, nowMs, rfl, hstored, -, rfl⟩ |
      ⟨visit, sub, rfl, -⟩
    · exact h.timeless l κ x hx
    · exact (hop.2 (admits_of_stored hstored).2).2
    · exact hop.elim

theorem waits_forward (q : NativeProxy) (m : NativeMessage) :
    waits (q.forward k m nowMs) l κ = (q.links.lookup l).bind fun link =>
      (forwardTo k m nowMs l link).2.queue.state.lookup κ := by
  unfold waits
  rw [lookup_forward, Option.bind_map]
  rfl

theorem waits_ingest_kept (hq : QueuesInv c p) (h : ¬ (disposition p k r = .stored ∧
    κ = streamKey (messageOf r) ∧ Follows k l r.header.type p)) :
    waits (proxyStep p (.ingest k r nowMs)) l κ = waits p l κ := by
  unfold waits
  simp only [proxyStep]
  rcases links_ingest p k r nowMs with hkept | ⟨hd, hforward⟩
  · rw [hkept]
  · rw [hforward, lookup_mapValues, Option.bind_map]
    cases hl : p.links.lookup l with
    | none => rfl
    | some link =>
      dsimp only [Option.bind_some, Function.comp]
      unfold forwardTo
      split_ifs with hw
      · rcases lookup_push (hq.2 l link hl) (forwarded (messageOf r) l) nowMs κ with
          heq | ⟨hstate, hκ, -⟩
        · exact heq
        · exfalso
          have htype : stateType r.header.type = true := (isState_eq_true_iff.mp hstate).1
          have hstored := hd.resolve_right fun hpassed => by
            simp [stateType_of_passed hpassed] at htype
          exact h ⟨hstored, hκ, (wants_iff_follows (admits_of_stored hstored).1 hl).mp hw⟩
      · rfl

theorem room_of_leavesRoom {link : LinkState} (h : FeedInv c ks p)
    (hl : p.links.lookup l = some link) (hκ : κ ∈ ks)
    (hroom : link.queue.critical.length + ks.length ≤ p.queueCapacity) :
    (link.queue.state.lookup κ).isSome = true ∨
      link.queue.critical.length + count link.queue.state < link.queue.capacity := by
  cases hin : link.queue.state.lookup κ with
  | some x => exact Or.inl rfl
  | none =>
    have hkeys : ∀ κ' ∈ link.queue.state, κ' ∈ ks := by
      intro κ' hκ'
      obtain ⟨x, hx⟩ := Option.isSome_iff_exists.mp (AList.lookup_isSome.mpr hκ')
      obtain ⟨y, hy, -⟩ := h.order.streams.bounded l κ' x ((waits_of_lookup hl).trans hx)
      exact h.known κ' y hy
    have hless := count_lt_length hkeys hκ (AList.lookup_eq_none.mp hin)
    have hcapacity := (h.order.queues.2 l link hl).capacity
    have hproxy := h.order.queues.1
    exact Or.inr (by omega)

/-- **A record that is stored waits** for the links that follow its type. -/
theorem waits_ingest_stored (h : FeedInv c ks p) (hop : Feeds k (.ingest k r nowMs))
    (hks : streamKey (messageOf r) ∈ ks) (hroom : LeavesRoom l ks.length p (.ingest k r nowMs))
    (hstored : disposition p k r = .stored) (hfollows : Follows k l r.header.type p) :
    waits (proxyStep p (.ingest k r nowMs)) l (streamKey (messageOf r)) =
      some (forwarded (messageOf r) l) := by
  obtain ⟨hadm, htype⟩ := admits_of_stored hstored
  obtain ⟨hqos, hdeadline⟩ := hop.2 htype
  obtain ⟨-, link, -, -, hl, -⟩ := id hfollows
  have hwants := (wants_iff_follows hadm hl).mpr hfollows
  have hleft := room_of_leavesRoom h hl hks (hroom htype link hl)
  have hcapacity : link.queue.capacity ≠ 0 := by
    have hpos := List.length_pos_of_mem hks
    have hle := hroom htype link hl
    have hsame := (h.order.queues.2 l link hl).capacity.trans h.order.queues.1.symm
    omega
  have hok : ¬ Refusable link.queue (forwarded (messageOf r) l) nowMs := by
    rintro (hzero | hlong | hlate)
    · exact hcapacity hzero
    · obtain ⟨-, -, hlen, -⟩ := admits_eq_true_iff.mp hadm
      exact absurd hlong (Nat.not_lt.mpr hlen)
    · rw [expired_of_no_deadline hdeadline] at hlate
      cases hlate
  have hstate : isState (forwarded (messageOf r) l) = true :=
    isState_eq_true_iff.mpr ⟨htype, hqos⟩
  simp only [proxyStep, ingest_eq, hstored]
  have hlinks : (p.store (streamKey (messageOf r)) (messageOf r)).links = p.links := rfl
  rw [waits_forward, hlinks, hl, Option.bind_some]
  unfold forwardTo
  rw [if_pos hwants]
  exact lookup_push_of_room (h.order.queues.2 l link hl) hok hstate hleft

/-- A stream that `next` returns nothing of, waits as before. -/
theorem waits_next {j : UInt16} (h : FeedInv c ks p)
    (hother : ∀ m ∈ handed l p (.next j nowMs), ¬ InStream κ m) :
    waits (proxyStep p (.next j nowMs)) l κ = waits p l κ := by
  simp only [proxyStep, next]
  cases hj : p.links.lookup j with
  | none => rfl
  | some link =>
    unfold waits
    dsimp only
    rw [lookup_insert_eq]
    by_cases hl : l = j
    · subst hl
      rw [if_pos rfl, hj, Option.bind_some, Option.bind_some]
      have hinv := h.order.queues.2 l link hj
      cases hx : link.queue.state.lookup κ with
      | none =>
        rcases lookup_pop link.queue nowMs κ with heq | hnone
        · exact heq.trans hx
        · exact hnone
      | some x =>
        have htime : expired x nowMs = false :=
          expired_of_no_deadline (h.timeless l κ x ((waits_of_lookup hj).trans hx)) nowMs
        refine lookup_pop_of_timely hinv hx htime fun hret => ?_
        obtain ⟨hstate, hκ⟩ := hinv.state κ x hx
        refine hother x (mem_handed.mpr ⟨rfl, ?_⟩) ⟨(isState_eq_true_iff.mp hstate).1, hκ⟩
        unfold next
        rw [hj]
        exact hret
    · rw [if_neg hl]

/-! ### What was handed out last -/

/-- What `next` has returned last of each stream (`last`), against the cache and the queue: it is
what is cached, if nothing waits, and older than what waits. -/
structure ChainInv (k l : UInt16) (p : NativeProxy) (last : UInt64 → Option NativeMessage) :
    Prop where
  fresh : ∀ κ, p.cache.lookup κ = none → waits p l κ = none ∧ last κ = none
  caughtUp : ∀ κ y, p.cache.lookup κ = some y → Follows k l y.header.type p →
    waits p l κ = none → ∃ prev, last κ = some prev ∧ metaOf prev = metaOf y
  newest : ∀ κ y x, p.cache.lookup κ = some y → Follows k l y.header.type p →
    waits p l κ = some x → metaOf x = metaOf y
  behind : ∀ κ x prev, waits p l κ = some x → last κ = some prev →
    generationOf prev < generationOf x

variable {last last' : UInt64 → Option NativeMessage}

theorem generationOf_congr (h : metaOf x = metaOf y) : generationOf x = generationOf y := by
  unfold generationOf
  rw [h]

theorem ChainInv.last_le {prev : NativeMessage} (hc : ChainInv k l p last)
    (hfollows : Follows k l y.header.type p) (hy : p.cache.lookup κ = some y)
    (hprev : last κ = some prev) : generationOf prev ≤ generationOf y := by
  cases hw : waits p l κ with
  | none =>
    obtain ⟨prev', hlast, hsame⟩ := hc.caughtUp κ y hy hfollows hw
    obtain rfl := Option.some.inj (hprev.symm.trans hlast)
    exact (generationOf_congr hsame).le
  | some x =>
    have hless := hc.behind κ x prev hw hprev
    rw [generationOf_congr (hc.newest κ y x hy hfollows hw)] at hless
    exact hless.le

theorem ChainInv.last_lt {prev : NativeMessage} (h : FeedInv c ks p) (hc : ChainInv k l p last)
    (hstored : disposition p k r = .stored) (hfollows : Follows k l r.header.type p)
    (hprev : last (streamKey (messageOf r)) = some prev) :
    generationOf prev < generationOf (messageOf r) := by
  cases hy : p.cache.lookup (streamKey (messageOf r)) with
  | none =>
    rw [(hc.fresh _ hy).2] at hprev
    cases hprev
  | some y =>
    have htype : y.header.type = r.header.type :=
      (streamKey_eq_iff.mp (h.order.cache _ y hy).2.1).1
    have hle := hc.last_le (by rw [htype]; exact hfollows) hy hprev
    exact hle.trans_lt (generationOf_lt ⟨(h.order.cache _ y hy).2.1.symm, stored_over hstored hy⟩)

/-- **What an ingest keeps of the chain**: nothing is handed out. -/
theorem chain_ingest (h : FeedInv c ks p) (hc : ChainInv k l p last)
    (hop : Feeds k (.ingest k r nowMs)) (hks : ∀ κ, streamOf (.ingest k r nowMs) = some κ → κ ∈ ks)
    (hroom : LeavesRoom l ks.length p (.ingest k r nowMs)) :
    ChainInv k l (proxyStep p (.ingest k r nowMs)) last := by
  have hcache := lookup_cache_ingest p k r nowMs
  have hkept : ∀ κ, ¬ (disposition p k r = .stored ∧ κ = streamKey (messageOf r)) →
      waits (proxyStep p (.ingest k r nowMs)) l κ = waits p l κ := fun κ hs =>
    waits_ingest_kept h.order.queues fun hno => hs ⟨hno.1, hno.2.1⟩
  have hfeed : disposition p k r = .stored → Follows k l r.header.type p →
      waits (proxyStep p (.ingest k r nowMs)) l (streamKey (messageOf r)) =
        some (forwarded (messageOf r) l) := fun hstored =>
    waits_ingest_stored h hop (hks _ (if_pos (admits_of_stored hstored).2)) hroom hstored
  -- an entry is the record, which then waits, or was there before
  have hentry : ∀ κ y, (proxyStep p (.ingest k r nowMs)).cache.lookup κ = some y →
      Follows k l y.header.type (proxyStep p (.ingest k r nowMs)) →
      (y = messageOf r ∧
        waits (proxyStep p (.ingest k r nowMs)) l κ = some (forwarded (messageOf r) l)) ∨
      (p.cache.lookup κ = some y ∧ Follows k l y.header.type p ∧
        waits (proxyStep p (.ingest k r nowMs)) l κ = waits p l κ) := by
    intro κ y hy hfollows
    rw [follows_proxyStep hop] at hfollows
    have hlook := (hcache κ).symm.trans hy
    split_ifs at hlook with hs
    · obtain rfl := Option.some.inj hlook
      rw [hs.2]
      exact Or.inl ⟨rfl, hfeed hs.1 hfollows⟩
    · exact Or.inr ⟨hlook, hfollows, hkept κ hs⟩
  refine ⟨fun κ hnone => ?_, fun κ y hy hfollows hw => ?_, fun κ y x hy hfollows hw => ?_,
    fun κ x prev hw hprev => ?_⟩
  · have hlook := (hcache κ).symm.trans hnone
    split_ifs at hlook with hs
    rw [hkept κ hs]
    exact hc.fresh κ hlook
  · rcases hentry κ y hy hfollows with ⟨-, hsome⟩ | ⟨hold, hfollows', hsame⟩
    · rw [hsome] at hw
      cases hw
    · exact hc.caughtUp κ y hold hfollows' (hsame.symm.trans hw)
  · rcases hentry κ y hy hfollows with ⟨rfl, hsome⟩ | ⟨hold, hfollows', hsame⟩
    · obtain rfl := Option.some.inj (hsome.symm.trans hw)
      rfl
    · exact hc.newest κ y x hold hfollows' (hsame.symm.trans hw)
  · by_cases hs : disposition p k r = .stored ∧ κ = streamKey (messageOf r) ∧
        Follows k l r.header.type p
    · obtain ⟨hstored, rfl, hfollows⟩ := hs
      obtain rfl := Option.some.inj ((hfeed hstored hfollows).symm.trans hw)
      exact hc.last_lt h hstored hfollows hprev
    · rw [waits_ingest_kept h.order.queues hs] at hw
      exact hc.behind κ x prev hw hprev

/-- **What serving a link keeps of the chain**, if `last'` is what was handed out last after it. -/
theorem chain_next {j : UInt16} (h : FeedInv c ks p) (hc : ChainInv k l p last)
    (hkept : ∀ κ, (∀ m ∈ handed l p (.next j nowMs), ¬ InStream κ m) → last' κ = last κ)
    (hnew : ∀ m ∈ handed l p (.next j nowMs), stateType m.header.type = true →
      last' (streamKey m) = some m) : ChainInv k l (proxyStep p (.next j nowMs)) last' := by
  have hcache : (proxyStep p (.next j nowMs)).cache = p.cache := cache_proxyStep (by simp)
  have hop : Feeds k (.next j nowMs) := trivial
  have hfollows : ∀ T, Follows k l T (proxyStep p (.next j nowMs)) → Follows k l T p := fun T =>
    (follows_proxyStep hop).mp
  -- a stream keeps what waits and what was last, or is handed what waits
  have hstream : ∀ κ, (waits (proxyStep p (.next j nowMs)) l κ = waits p l κ ∧
      last' κ = last κ) ∨ ∃ m, waits p l κ = some m ∧
        waits (proxyStep p (.next j nowMs)) l κ = none ∧ last' κ = some m := by
    intro κ
    by_cases hout : ∀ m ∈ handed l p (.next j nowMs), ¬ InStream κ m
    · exact Or.inl ⟨waits_next h hout, hkept κ hout⟩
    · push Not at hout
      obtain ⟨m, hm, htype, rfl⟩ := hout
      have hlast := hnew m hm htype
      obtain ⟨rfl, hret⟩ := mem_handed.mp hm
      obtain ⟨hin, hgone⟩ := waits_of_next h.order.queues hret
        (isState_of_next h.order hret htype)
      exact Or.inr ⟨m, hin, hgone, hlast⟩
  refine ⟨fun κ hnone => ?_, fun κ y hy hf hw => ?_, fun κ y x hy hf hw => ?_,
    fun κ x prev hw hprev => ?_⟩
  · rw [hcache] at hnone
    obtain ⟨hnowait, hnolast⟩ := hc.fresh κ hnone
    rcases hstream κ with ⟨hsame, hlast⟩ | ⟨m, hin, -⟩
    · exact ⟨hsame.trans hnowait, hlast.trans hnolast⟩
    · rw [hin] at hnowait
      cases hnowait
  · rw [hcache] at hy
    rcases hstream κ with ⟨hsame, hlast⟩ | ⟨m, hin, -, hlast⟩
    · rw [hlast]
      exact hc.caughtUp κ y hy (hfollows _ hf) (hsame.symm.trans hw)
    · exact ⟨m, hlast, hc.newest κ y m hy (hfollows _ hf) hin⟩
  · rw [hcache] at hy
    rcases hstream κ with ⟨hsame, -⟩ | ⟨m, -, hgone, -⟩
    · exact hc.newest κ y x hy (hfollows _ hf) (hsame.symm.trans hw)
    · rw [hgone] at hw
      cases hw
  · rcases hstream κ with ⟨hsame, hlast⟩ | ⟨m, -, hgone, -⟩
    · exact hc.behind κ x prev (hsame.symm.trans hw) (hlast.symm.trans hprev)
    · rw [hgone] at hw
      cases hw

/-! ### Whole runs -/

theorem lastHanded_kept {s : NativeProxy} {ops : List ProxyOp}
    (h : ∀ m ∈ handed l (run proxyStep s ops) op, ¬ InStream κ m) :
    lastHanded s (ops ++ [op]) l κ = lastHanded s ops l κ := by
  unfold lastHanded
  rw [outputs_concat, ofStream_append, ofStream_eq_nil h, List.append_nil]

theorem lastHanded_new {s : NativeProxy} {ops : List ProxyOp}
    (hm : m ∈ handed l (run proxyStep s ops) (.next l nowMs))
    (htype : stateType m.header.type = true) :
    lastHanded s (ops ++ [.next l nowMs]) l (streamKey m) = some m := by
  have hone : handed l (run proxyStep s ops) (.next l nowMs) = [m] := by
    dsimp only [handed]
    rw [if_pos rfl, (mem_handed.mp hm).2]
    rfl
  unfold lastHanded
  rw [outputs_concat, ofStream_append, hone, ofStream_singleton, if_pos ⟨htype, rfl⟩,
    List.getLast?_concat]

/-- Nothing is cached, and nothing waits. -/
def Blank (p : NativeProxy) : Prop :=
  (∀ κ, p.cache.lookup κ = none) ∧ ∀ l m, ¬ Queued p l m

theorem blank_proxyStep (h : Blank p) (hop : ∀ j r t, op ≠ .ingest j r t) :
    Blank (proxyStep p op) := by
  refine ⟨fun κ => ?_, fun l m hm => ?_⟩
  · rw [cache_proxyStep hop]
    exact h.1 κ
  · rcases queued_proxyStep hm with hm | ⟨j, r, t, link, rfl, -⟩ | ⟨visit, sub, κ, -, -, hκ, -⟩
    · exact h.2 l m hm
    · exact hop j r t rfl
    · rw [h.1 κ] at hκ
      cases hκ

theorem blank_run : ∀ {p : NativeProxy} {setup : List ProxyOp}, Blank p →
    (∀ op ∈ setup, ∀ j r t, op ≠ .ingest j r t) →
    Blank (run proxyStep p setup) ∧ outputs proxyStep (handed l) p setup = []
  | _, [], h, _ => ⟨h, rfl⟩
  | p, op :: setup, h, hsetup => by
    obtain ⟨hblank, hnone⟩ := blank_run (blank_proxyStep h (hsetup op List.mem_cons_self))
      fun op' hop' => hsetup op' (List.mem_cons_of_mem _ hop')
    refine ⟨hblank, ?_⟩
    have hop : handed l p op = [] := by
      rw [List.eq_nil_iff_forall_not_mem]
      intro m hm
      cases op with
      | next j nowMs => exact h.2 l m (queued_of_next (mem_handed.mp hm).2)
      | _ => cases hm
    rw [outputs, hop, hnone]
    rfl

theorem waits_blank (h : Blank p) (l : UInt16) (κ : UInt64) : waits p l κ = none := by
  by_contra hw
  obtain ⟨x, hx⟩ := Option.ne_none_iff_exists'.mp hw
  obtain ⟨link, hl, hin⟩ := waits_eq_some_iff.mp hx
  refine h.2 l x ⟨link, hl, ?_⟩
  exact BoundedQosQueue.mem_messages.mpr (Or.inr (Or.inr (mem_values_iff.mpr ⟨κ, hin⟩)))

theorem chainInv_blank (h : Blank p) : ChainInv k l p (lastHanded p [] l) where
  fresh κ _ := ⟨waits_blank h l κ, rfl⟩
  caughtUp κ y hy := by
    rw [h.1 κ] at hy
    cases hy
  newest κ y x hy := by
    rw [h.1 κ] at hy
    cases hy
  behind κ x prev hw := by
    rw [waits_blank h l κ] at hw
    cases hw

theorem feedInv_blank (h : Blank p) (horder : ProxyInv c p) : FeedInv c ks p where
  order := horder
  known κ y hy := by
    rw [h.1 κ] at hy
    cases hy
  timeless l κ x hx := by
    rw [waits_blank h l κ] at hx
    cases hx

/-- What is asked of an operation in the run: it feeds the proxy, with streams among `ks`, and finds
room for them. -/
def Steady (k l : UInt16) (ks : List UInt64) (p : NativeProxy) (op : ProxyOp) : Prop :=
  (Feeds k op ∧ ∀ κ, streamOf op = some κ → κ ∈ ks) ∧ LeavesRoom l ks.length p op

/-- What holds after the operations. -/
def OnCourse (c : ℕ) (ks : List UInt64) (k l : UInt16) (s : NativeProxy) (ops : List ProxyOp) :
    Prop :=
  FeedInv c ks (run proxyStep s ops) ∧ ChainInv k l (run proxyStep s ops) (lastHanded s ops l)

theorem onCourse_concat {s : NativeProxy} {ops : List ProxyOp} (h : OnCourse c ks k l s ops)
    (hsteady : Steady k l ks (run proxyStep s ops) op) : OnCourse c ks k l s (ops ++ [op]) := by
  obtain ⟨hfeed, hchain⟩ := h
  obtain ⟨⟨hop, hks⟩, hroom⟩ := hsteady
  unfold OnCourse
  rw [run_concat]
  refine ⟨feedInv_proxyStep hfeed hop hks, ?_⟩
  cases op with
  | ingest j r nowMs =>
    obtain rfl : j = k := hop.1
    have hsame : lastHanded s (ops ++ [.ingest j r nowMs]) l = lastHanded s ops l :=
      funext fun κ => lastHanded_kept fun m hm => by cases hm
    rw [hsame]
    exact chain_ingest hfeed hchain hop hks hroom
  | next j nowMs =>
    refine chain_next hfeed hchain (fun κ => lastHanded_kept) fun m hm htype => ?_
    obtain ⟨rfl, -⟩ := mem_handed.mp hm
    exact lastHanded_new hm htype
  | _ => exact hop.elim

theorem onCourse_run {s : NativeProxy} {ops : List ProxyOp} (h : FeedInv c ks s) (hs : Blank s)
    (hops : Along proxyStep (Steady k l ks) s ops) : OnCourse c ks k l s ops := by
  refine history_invariant ?_ (fun ops op => onCourse_concat) hops
  exact ⟨h, chainInv_blank hs⟩

theorem lastHanded_of_waits {s : NativeProxy} {before after : List ProxyOp} (h : FeedInv c ks s)
    (hs : Blank s) (hops : Along proxyStep (Steady k l ks) s (before ++ after))
    (hw : ∀ mid, mid <+: after → waits (run proxyStep s (before ++ mid)) l κ = some x) :
    lastHanded s (before ++ after) l κ = lastHanded s before l κ := by
  induction after using List.reverseRecOn with
  | nil => rw [List.append_nil]
  | append_singleton after op ih =>
    rw [← List.append_assoc] at hops ⊢
    have hbefore := (along_append.mp hops).1
    rw [← ih hbefore fun mid hmid => hw mid (hmid.trans (List.prefix_append _ _))]
    refine lastHanded_kept fun m hm hin => ?_
    have hop := ((along_append.mp hops).2.1).1.1
    cases op with
    | next j nowMs =>
      obtain ⟨rfl, hret⟩ := mem_handed.mp hm
      obtain ⟨htype, rfl⟩ := hin
      have hinv := (onCourse_run h hs hbefore).1.order
      have hgone := (waits_of_next hinv.queues hret (isState_of_next hinv hret htype)).2
      have hstays := hw _ List.prefix_rfl
      rw [← List.append_assoc, run_concat] at hstays
      cases hgone.symm.trans hstays
    | ingest j r nowMs => cases hm
    | _ => exact hop.elim

/-- A delta fits the message that was handed out last: that is there, and has its base
generation. -/
def Fits (sm : StateMeta) (prev : Option NativeMessage) : Prop :=
  ∃ m pm, prev = some m ∧ metaOf m = some pm ∧ sm.baseGeneration = pm.generation

theorem fits_iff {sm : StateMeta} (h : FeedInv c ks p) (hc : ChainInv k l p last)
    (hstored : disposition p k r = .stored) (hfollows : Follows k l r.header.type p)
    (hmeta : metaOf (messageOf r) = some sm) (hdelta : sm.snapshot = 0) :
    Fits sm (last (streamKey (messageOf r))) ↔
      (p.cache.lookup (streamKey (messageOf r))).isSome = true ∧
        waits p l (streamKey (messageOf r)) = none := by
  cases hy : p.cache.lookup (streamKey (messageOf r)) with
  | none =>
    rw [(hc.fresh _ hy).2]
    simp [Fits]
  | some y =>
    have htype : Follows k l y.header.type p := by
      rw [(streamKey_eq_iff.mp (h.order.cache _ y hy).2.1).1]
      exact hfollows
    obtain ⟨oldMeta, newMeta, hold, hnew, -, hbase⟩ := stored_over hstored hy
    obtain rfl := Option.some.inj (hmeta.symm.trans hnew)
    replace hbase := hbase.resolve_left (by simp [hdelta])
    refine ⟨?_, ?_⟩
    · rintro ⟨prev, pm, hprev, hpm, heq⟩
      refine ⟨rfl, ?_⟩
      -- what waits would be newer than what was last, and as new as what is cached
      by_contra hsome
      obtain ⟨x, hx⟩ := Option.ne_none_iff_exists'.mp hsome
      have hless := hc.behind _ x prev hx hprev
      rw [generationOf_congr (hc.newest _ y x hy htype hx), generationOf_of_metaOf hpm,
        generationOf_of_metaOf hold, ← heq, hbase] at hless
      exact lt_irrefl _ hless
    · rintro ⟨-, hnone⟩
      obtain ⟨prev, hprev, hsame⟩ := hc.caughtUp _ y hy htype hnone
      exact ⟨prev, oldMeta, hprev, hsame.trans hold, hbase⟩

/-- What `next` returns after the operations: when it came in, and what it fits. -/
theorem chain_of_next {s : NativeProxy} {phase : List ProxyOp} {sm : StateMeta}
    (hfeed : FeedInv c ks s) (hs : Blank s) (hsteady : Along proxyStep (Steady k l ks) s phase)
    (hm : ((run proxyStep s phase).next l nowMs).1 = some m)
    (htype : stateType m.header.type = true) (hmeta : metaOf m = some sm)
    (hdelta : sm.snapshot = 0) :
    ∃ before r t after, phase = before ++ .ingest k r t :: after ∧
      disposition (run proxyStep s before) k r = .stored ∧ m = forwarded (messageOf r) l ∧
      (Fits sm (lastHanded s phase l (streamKey m)) ↔
        ((run proxyStep s before).cache.lookup (streamKey m)).isSome = true ∧
          waits (run proxyStep s before) l (streamKey m) = none) := by
  have hin : waits (run proxyStep s phase) l (streamKey m) = some m := by
    have hinv := (onCourse_run hfeed hs hsteady).1.order
    exact (waits_of_next hinv.queues hm (isState_of_next hinv hm htype)).1
  have hout : ¬ waits s l (streamKey m) = some m := by
    rw [waits_blank hs]
    simp
  obtain ⟨before, op, after, hsplit, hnew, hsince⟩ :=
    run_entry (Q := fun p => waits p l (streamKey m) = some m) hout hin
  rw [hsplit] at hsteady
  obtain ⟨hbefore, ⟨⟨hop, -⟩, -⟩, -⟩ := along_append.mp hsteady
  obtain ⟨hinv, hchain⟩ := onCourse_run hfeed hs hbefore
  have hentry := hsince [] List.nil_prefix
  rw [run_concat] at hentry
  rcases waits_cases hinv.order.queues hentry with hw | ⟨j, r, t, rfl, hstored, hκ, hform⟩ |
    ⟨visit, sub, rfl, -⟩
  · exact absurd hw hnew
  · obtain rfl : j = k := hop.1
    have hfollows : Follows j l r.header.type (run proxyStep s before) := by
      by_contra hno
      rw [waits_ingest_kept hinv.order.queues fun hyes => hno hyes.2.2] at hentry
      exact hnew hentry
    -- from then on the message waits, so nothing else of its stream is handed out
    have hkeep : lastHanded s phase l (streamKey m) = lastHanded s before l (streamKey m) := by
      rw [List.append_cons] at hsteady
      have hwait : ∀ mid, mid <+: after →
          waits (run proxyStep s (before ++ [.ingest j r t] ++ mid)) l (streamKey m) = some m := by
        intro mid hmid
        rw [← List.append_cons]
        exact hsince mid hmid
      rw [hsplit, List.append_cons, lastHanded_of_waits hfeed hs hsteady hwait]
      exact lastHanded_kept fun x hx => by cases hx
    refine ⟨before, r, t, after, hsplit, hstored, hform, ?_⟩
    rw [hkeep, hκ]
    subst hform
    exact fits_iff hinv hchain hstored hfollows hmeta hdelta
  · exact hop.elim

/-- **The deltas that a subscriber gets**, in every run with one publishing link whose state records
have QoS `StateLatest` and no deadline, if the link's queue has room for the streams beside the
critical messages: a delta that `next` returns fits the message of its stream that `next` returned
before, exactly if it came in when the stream was cached and nothing of it waited for the link. -/
theorem delta_chain (c : ℕ) (k l : UInt16) (setup phase : List ProxyOp) (nowMs : UInt64)
    (m : NativeMessage) (sm : StateMeta) (hsetup : ∀ op ∈ setup, ∀ j r t, op ≠ .ingest j r t)
    (hphase : ∀ op ∈ phase, Feeds k op)
    (hroom : Along proxyStep (LeavesRoom l (streams phase).length)
      (run proxyStep (init c) setup) phase)
    (hm : ((run proxyStep (init c) (setup ++ phase)).next l nowMs).1 = some m)
    (htype : stateType m.header.type = true) (hmeta : metaOf m = some sm)
    (hdelta : sm.snapshot = 0) :
    ∃ before r t after, phase = before ++ .ingest k r t :: after ∧
      disposition (run proxyStep (init c) (setup ++ before)) k r = .stored ∧
      m = forwarded (messageOf r) l ∧
      (Fits sm (lastHanded (init c) (setup ++ phase) l (streamKey m)) ↔
        ((run proxyStep (init c) (setup ++ before)).cache.lookup (streamKey m)).isSome = true ∧
          waits (run proxyStep (init c) (setup ++ before)) l (streamKey m) = none) := by
  have hblank : Blank (init c) := ⟨fun κ => rfl, not_queued_init c⟩
  obtain ⟨hs, hsilent⟩ := blank_run (l := l) hblank hsetup
  have horder : ProxyInv c (run proxyStep (init c) setup) := by
    refine proxyInv_run (proxyInv_init c) ?_
    rintro op hop j r t rfl
    exact absurd rfl (hsetup _ hop j r t)
  have hlast : lastHanded (init c) (setup ++ phase) l =
      lastHanded (run proxyStep (init c) setup) phase l := by
    unfold lastHanded
    rw [outputs_append, hsilent, List.nil_append]
  have hsteady :
      Along proxyStep (Steady k l (streams phase)) (run proxyStep (init c) setup) phase :=
    along_and (along_of_mem fun op hop => ⟨hphase op hop, fun κ => mem_streams hop⟩) hroom
  rw [hlast]
  simp only [run_append] at hm ⊢
  exact chain_of_next (feedInv_blank hs horder) hs hsteady hm htype hmeta hdelta

/-- A publisher on link 1, and a subscriber on link 2. -/
def testSetup : List ProxyOp := [.addLink 1 (testSession 1 2), .addLink 2 (testSession 1 3),
  .subscribe .inOrder 2 { sourceId := 2 }]

/-- A `Position` that is ingested. -/
def testIngest (generation base : UInt32) (snapshot : UInt8) : ProxyOp :=
  .ingest 1 (makePosition 2 ⟨42, generation, base, 2, snapshot, 0⟩) 0

theorem testSetup_no_ingest : ∀ op ∈ testSetup, ∀ j r t, op ≠ .ingest j r t := by
  simp [testSetup]

theorem feeds_testIngest (g b : UInt32) (snapshot : UInt8) : Feeds 1 (testIngest g b snapshot) :=
  ⟨rfl, fun _ => ⟨rfl, rfl⟩⟩

/-- A critical message that is ingested. -/
def testAlarm : ProxyOp := .ingest 1 { header := { positionHeader 2 with
  type := .safetyEvent, qos := .criticalReliable } } 0

/-- A subscriber that is served before the delta comes in. -/
theorem delta_chain_served : ∃ m sm,
    ((run proxyStep (init 4) (testSetup ++ [testIngest 1 0 1, .next 2 0, testIngest 2 1 0])).next
      2 0).1 = some m ∧ metaOf m = some sm ∧
    ∃ before r t after, [testIngest 1 0 1, .next 2 0, testIngest 2 1 0] =
        before ++ .ingest 1 r t :: after ∧
      disposition (run proxyStep (init 4) (testSetup ++ before)) 1 r = .stored ∧
      m = forwarded (messageOf r) 2 ∧
      (Fits sm (lastHanded (init 4) (testSetup ++ [testIngest 1 0 1, .next 2 0, testIngest 2 1 0]) 2
          (streamKey m)) ↔
        ((run proxyStep (init 4) (testSetup ++ before)).cache.lookup (streamKey m)).isSome = true ∧
          waits (run proxyStep (init 4) (testSetup ++ before)) 2 (streamKey m) = none) := by
  let phase : List ProxyOp := [testIngest 1 0 1, .next 2 0, testIngest 2 1 0]
  have hret : ((run proxyStep (init 4) (testSetup ++ phase)).next 2 0).1.map
      (fun m => (m.header.type, metaOf m)) = some (.position, some ⟨42, 2, 1, 2, 0, 0⟩) := by
    decide +kernel
  obtain ⟨m, hm, hboth⟩ := Option.map_eq_some_iff.mp hret
  obtain ⟨htype, hmeta⟩ := Prod.mk.inj hboth
  have hphase : ∀ op ∈ phase, Feeds 1 op := by
    intro op hop
    simp only [phase, List.mem_cons, List.not_mem_nil, or_false] at hop
    rcases hop with rfl | rfl | rfl
    · exact feeds_testIngest 1 0 1
    · trivial
    · exact feeds_testIngest 2 1 0
  have hstreams : (streams phase).length = 1 := by decide +kernel
  have hempty : ∀ p : NativeProxy, ((p.links.lookup 2).map (·.queue.critical.length) = some 0 ∧
      p.queueCapacity = 4) → ∀ link ∈ p.links.lookup 2,
        link.queue.critical.length + (streams phase).length ≤ p.queueCapacity := by
    rintro p ⟨hcritical, hcapacity⟩ link hl
    rw [Option.mem_def.mp hl] at hcritical
    have hzero : link.queue.critical.length = 0 := Option.some.inj hcritical
    rw [hzero, hstreams, hcapacity]
    decide
  refine ⟨m, _, hm, hmeta, delta_chain 4 1 2 testSetup phase 0 m _ testSetup_no_ingest hphase
    ⟨fun _ => hempty _ (by decide +kernel), trivial, fun _ => hempty _ (by decide +kernel), trivial⟩
    hm (by rw [htype]; rfl) hmeta rfl⟩

/-- A delta that takes the place of another does not fit what the subscriber has got. -/
theorem delta_chain_replaced : ¬ ∀ (c : ℕ) (k l : UInt16) (setup phase : List ProxyOp)
    (nowMs : UInt64) (m prev : NativeMessage) (sm pm : StateMeta),
    (∀ op ∈ setup, ∀ j r t, op ≠ .ingest j r t) →
    (∃ visit sub, .subscribe visit l sub ∈ setup) → (∀ op ∈ phase, Feeds k op) →
    Along proxyStep TakesIn (run proxyStep (init c) setup) phase → (streams phase).length < c →
    ((run proxyStep (init c) (setup ++ phase)).next l nowMs).1 = some m →
    stateType m.header.type = true → metaOf m = some sm → sm.snapshot = 0 →
    lastHanded (init c) (setup ++ phase) l (streamKey m) = some prev → metaOf prev = some pm →
    sm.baseGeneration = pm.generation := by
  intro h
  let start : NativeProxy := run proxyStep (init 4) testSetup
  let phase : List ProxyOp :=
    [testIngest 1 0 1, .next 2 0, testIngest 2 1 0, testIngest 3 2 0]
  -- the whole run is evaluated once
  have hrun : ((run proxyStep start phase).next 2 0).1.map
        (fun m => (m.header.type, metaOf m, (lastHanded (init 4) (testSetup ++ phase) 2
          (streamKey m)).map metaOf)) = some (.position, some ⟨42, 3, 2, 2, 0, 0⟩,
            some (some ⟨42, 1, 0, 2, 1, 0⟩)) ∧
      (start.ingest 1 (makePosition 2 ⟨42, 1, 0, 2, 1, 0⟩) 0).1 = true ∧
      ((run proxyStep start [testIngest 1 0 1, .next 2 0]).ingest 1
        (makePosition 2 ⟨42, 2, 1, 2, 0, 0⟩) 0).1 = true ∧
      ((run proxyStep start [testIngest 1 0 1, .next 2 0, testIngest 2 1 0]).ingest 1
        (makePosition 2 ⟨42, 3, 2, 2, 0, 0⟩) 0).1 = true ∧ (streams phase).length < 4 := by
    decide +kernel
  obtain ⟨hret, hfirst, hsecond, hthird, hstreams⟩ := hrun
  rw [← run_append] at hret
  obtain ⟨m, hm, hall⟩ := Option.map_eq_some_iff.mp hret
  obtain ⟨htype, hrest⟩ := Prod.mk.inj hall
  obtain ⟨hmeta, hlast⟩ := Prod.mk.inj hrest
  obtain ⟨prev, hprev, hpm⟩ := Option.map_eq_some_iff.mp hlast
  have hphase : ∀ op ∈ phase, Feeds 1 op := by
    intro op hop
    simp only [phase, List.mem_cons, List.not_mem_nil, or_false] at hop
    rcases hop with rfl | rfl | rfl | rfl
    · exact feeds_testIngest 1 0 1
    · trivial
    · exact feeds_testIngest 2 1 0
    · exact feeds_testIngest 3 2 0
  have hbase := h 4 1 2 testSetup phase 0 m prev _ _ testSetup_no_ingest
    ⟨.inOrder, { sourceId := 2 }, by simp [testSetup]⟩ hphase
    ⟨fun _ => hfirst, trivial, fun _ => hsecond, fun _ => hthird, trivial⟩ hstreams hm
    (by rw [htype]; rfl) hmeta rfl hprev hpm
  cases hbase

-- Room is needed as well: the queue refuses a delta, and the next one does not fit.
example : ((outputs proxyStep (handed 2) (init 2) (testSetup ++
    [.subscribe .inOrder 2 { type := .safetyEvent, sourceId := 2 }, testIngest 1 0 1, .next 2 0,
      testAlarm, testAlarm, testIngest 2 1 0, .next 2 0, .next 2 0, testIngest 3 2 0,
      .next 2 0])).filterMap metaOf).map (fun sm => (sm.generation, sm.baseGeneration)) =
    [(1, 0), (3, 2)] := by decide +kernel

end NewMavlink.Proxy.DeltaChain
