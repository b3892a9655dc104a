import NewMavlink.Codecs
import NewMavlink.Proxy.Ingest
import NewMavlink.Proxy.QueueRuns

/-! # The resource limits of the proxy

What bounds the memory of a proxy with queue capacity `c`, in every run, and what does not.

* `queue_linkStep`: whatever happens to a link, its queue has been pushed to, popped or left alone,
  so that what every call keeps of a queue holds of the queue of every link.
* `limits`: at most 16 links, at most 64 subscriptions in all, at most `c` messages in each queue
  and at most `c` pending requests, each of which has an encoding.
* `count_cache`: the cache holds a message of every stream that a record named, so that it is the
  peers that bound it (`cache_bounded_iff`, `cache_grows`). -/

namespace NewMavlink.Proxy.Limits

open NewMavlink.Lib.Buffer NewMavlink.Lib.Tables NewMavlink.Lib.Runs
open NewMavlink.Wire NewMavlink.State.Messages NewMavlink.Codecs NewMavlink.Record.SealOpen
open NewMavlink.Proxy.Queue hiding streamKey
open NewMavlink.Proxy.QueueRuns
open NewMavlink.Proxy.Links NewMavlink.Proxy.Links.NativeProxy NewMavlink.Proxy.Ingest

variable {p : NativeProxy} {op : ProxyOp} {l : UInt16} {link link' : LinkState} {r : OpenRecord}
  {nowMs : UInt64} {c : ℕ}

/-! ### The queues of the links -/

theorem queue_replay (sub : Subscription) (ms : List NativeMessage) (q : BoundedQosQueue) :
    ∃ calls, (replay sub ms q).2 = run queueStep q calls := by
  induction ms generalizing q with
  | nil => exact ⟨[], rfl⟩
  | cons m ms ih =>
    unfold replay
    split_ifs
    · dsimp only
      split_ifs
      · obtain ⟨calls, hcalls⟩ := ih (q.push m 0).2
        exact ⟨.push m 0 :: calls, hcalls⟩
      · exact ⟨[.push m 0], rfl⟩
    · exact ih q

/-- **What happens to the queue of a link**: it is pushed to, popped or left alone. -/
theorem queue_linkStep (h : LinkStep p l link op link') :
    ∃ calls, link'.queue = run queueStep link.queue calls := by
  cases h with
  | kept => exact ⟨[], rfl⟩
  | subscribed visit sub hsub => exact queue_replay _ _ _
  | unsubscribed type => exact ⟨[], rfl⟩
  | forwarded ingressLink r nowMs hd =>
    unfold forwardTo
    split_ifs
    · exact ⟨[.push (forwarded (messageOf r) l) nowMs], rfl⟩
    · exact ⟨[], rfl⟩
  | popped nowMs => exact ⟨[.pop nowMs], rfl⟩
  | session session => exact ⟨[], rfl⟩

/-- Every queue is within the capacity of the proxy, and ordered by class. -/
def QueuesInv (c : ℕ) (p : NativeProxy) : Prop :=
  p.queueCapacity = c ∧ ∀ l link, p.links.lookup l = some link → QueueInv c link.queue

theorem queueCapacity_proxyStep (p : NativeProxy) (op : ProxyOp) :
    (proxyStep p op).queueCapacity = p.queueCapacity := by
  by_cases hi : ∃ l r nowMs, op = .ingest l r nowMs
  · obtain ⟨l, r, nowMs, rfl⟩ := hi
    simp only [proxyStep, ingest_eq]
    cases disposition p l r with
    | gap request =>
      dsimp only
      unfold requestResync
      split_ifs <;> rfl
    | rejected => rfl
    | old => rfl
    | stored => rfl
    | passed => rfl
  · push Not at hi
    by_cases hr : op = .nextResync
    · rw [hr, proxyStep_nextResync]
    · obtain ⟨links, heq⟩ := proxyStep_links (p := p) hi hr
      rw [heq]

theorem queuesInv_proxyStep (p : NativeProxy) (op : ProxyOp) (h : QueuesInv c p) :
    QueuesInv c (proxyStep p op) := by
  refine ⟨(queueCapacity_proxyStep p op).trans h.1, fun l link' hl' => ?_⟩
  rcases link_cases hl' with ⟨session, -, rfl⟩ | ⟨link, hl, hstep⟩
  · rw [h.1]
    exact queueInv_start c
  · obtain ⟨calls, hcalls⟩ := queue_linkStep hstep
    rw [hcalls]
    exact run_keeps queueInv_step calls (h.2 l link hl)

theorem queuesInv_init (c : ℕ) : QueuesInv c (init c) := by
  refine ⟨rfl, fun l link hl => ?_⟩
  cases hl

theorem queuesInv_run (c : ℕ) (ops : List ProxyOp) : QueuesInv c (run proxyStep (init c) ops) :=
  run_keeps queuesInv_proxyStep ops (queuesInv_init c)

/-! ### Links and subscriptions -/

/-- At most 16 links, and at most 64 subscriptions in all. -/
def LinksInv (p : NativeProxy) : Prop :=
  count p.links ≤ 16 ∧ total (fun link => count link.subscriptions) p.links ≤ kMaxProxySubscriptions

theorem linksInv_insert {q : NativeProxy} (h : LinksInv p) (hl : p.links.lookup l = some link)
    (hq : q.links = p.links.insert l link')
    (hsub : count link'.subscriptions ≤ count link.subscriptions ∨
      count link'.subscriptions ≤ count link.subscriptions + 1 ∧
        p.subscriptionCount < kMaxProxySubscriptions) : LinksInv q := by
  have hin : l ∈ p.links := AList.lookup_isSome.mp (by rw [hl]; rfl)
  have hold := total_erase (fun link => count link.subscriptions) hl
  have hcount : p.subscriptionCount = total (fun link => count link.subscriptions) p.links := rfl
  obtain ⟨hlinks, htotal⟩ := h
  unfold LinksInv
  rw [hq, count_insert_of_mem hin, total_insert]
  refine ⟨hlinks, ?_⟩
  omega

theorem linksInv_mapValues {q : NativeProxy} (h : LinksInv p) {g : UInt16 → LinkState → LinkState}
    (hq : q.links = mapValues g p.links)
    (hg : ∀ l link, (g l link).subscriptions = link.subscriptions) : LinksInv q := by
  unfold LinksInv
  rw [hq, count_mapValues, total_mapValues fun l link => by rw [hg]]
  exact h

theorem linksInv_addLink (h : LinksInv p) (l : UInt16) (session : Session) :
    LinksInv (p.addLink l session).2 := by
  unfold addLink
  split_ifs with hbad
  · exact h
  · push Not at hbad
    have hnone : p.links.lookup l = none := by simpa using hbad.2.1
    have hout : l ∉ p.links := AList.lookup_eq_none.mp hnone
    obtain ⟨-, htotal⟩ := h
    unfold LinksInv
    rw [count_insert_of_notMem hout, total_insert, total_erase_of_lookup _ hnone]
    exact ⟨hbad.2.2, (Nat.zero_add _).trans_le htotal⟩

theorem linksInv_removeLink (h : LinksInv p) (l : UInt16) : LinksInv (p.removeLink l).2 := by
  obtain ⟨hlinks, htotal⟩ := h
  unfold removeLink
  cases hl : p.links.lookup l with
  | none =>
    refine ⟨?_, (total_erase_of_lookup _ hl).trans_le htotal⟩
    rw [count_erase_of_notMem (AList.lookup_eq_none.mp hl)]
    exact hlinks
  | some link =>
    have hin : l ∈ p.links := AList.lookup_isSome.mp (by rw [hl]; rfl)
    have hcount := count_erase hin
    have hold := total_erase (fun link => count link.subscriptions) hl
    exact ⟨by dsimp only; omega, by dsimp only; omega⟩

theorem linksInv_subscribe (h : LinksInv p) (visit : Visit NativeMessage) (l : UInt16)
    (sub : Subscription) : LinksInv (p.subscribe visit l sub).2 := by
  unfold subscribe
  cases hl : p.links.lookup l with
  | none => exact h
  | some link =>
    dsimp only
    split_ifs with hbad hfull
    · exact h
    · exact h
    · refine linksInv_insert h hl rfl ?_
      dsimp only
      cases hkey : link.subscriptions.lookup sub.type.code with
      | some old =>
        have hin : sub.type.code ∈ link.subscriptions :=
          AList.lookup_isSome.mp (by rw [hkey]; rfl)
        exact Or.inl (count_insert_of_mem hin).le
      | none =>
        have hout : sub.type.code ∉ link.subscriptions := AList.lookup_eq_none.mp hkey
        refine Or.inr ⟨(count_insert_of_notMem hout).le, ?_⟩
        simpa [hkey] using hfull

theorem linksInv_unsubscribe (h : LinksInv p) (l : UInt16) (type : MessageType) :
    LinksInv (p.unsubscribe l type).2 := by
  unfold unsubscribe
  cases hl : p.links.lookup l with
  | none => exact h
  | some link =>
    refine linksInv_insert h hl rfl (Or.inl ?_)
    dsimp only
    by_cases hin : type.code ∈ link.subscriptions
    · have hcount := count_erase hin
      omega
    · rw [count_erase_of_notMem hin]

theorem linksInv_proxyStep (p : NativeProxy) (op : ProxyOp) (h : LinksInv p) :
    LinksInv (proxyStep p op) := by
  cases op with
  | addLink l session => exact linksInv_addLink h l session
  | removeLink l => exact linksInv_removeLink h l
  | subscribe visit l sub => exact linksInv_subscribe h visit l sub
  | unsubscribe l type => exact linksInv_unsubscribe h l type
  | ingest l r nowMs =>
    rcases links_ingest p l r nowMs with hkept | ⟨-, hforward⟩
    · unfold LinksInv
      rw [proxyStep, hkept]
      exact h
    · exact linksInv_mapValues h hforward fun _ _ => subscriptions_forwardTo
  | next l nowMs =>
    simp only [proxyStep, next]
    cases hl : p.links.lookup l with
    | none => exact h
    | some link => exact linksInv_insert h hl rfl (Or.inl le_rfl)
  | nextResync =>
    simp only [proxyStep, nextResync]
    cases p.resync <;> exact h
  | owner l session =>
    simp only [proxyStep, changeSession]
    cases hl : p.links.lookup l with
    | none => exact h
    | some link => exact linksInv_insert h hl rfl (Or.inl le_rfl)

theorem linksInv_run (c : ℕ) (ops : List ProxyOp) : LinksInv (run proxyStep (init c) ops) :=
  run_keeps linksInv_proxyStep ops ⟨Nat.zero_le _, Nat.zero_le _⟩

/-! ### Pending requests -/

/-- The pending requests are within the capacity of the proxy, and each names a stream. -/
def ResyncInv (p : NativeProxy) : Prop :=
  p.resync.length ≤ p.queueCapacity ∧ ∀ request ∈ p.resync, request.Valid

theorem valid_of_gap {request : ResyncRequest} (h : disposition p l r = .gap request) :
    request.Valid := by
  obtain ⟨-, hstate, old, oldMeta, newMeta, -, -, hnew, -, -, rfl⟩ := disposition_eq_gap_iff.mp h
  have hvalid := valid_of_decodeStateMeta (metaOf_eq_some_iff.mp hnew).2
  exact ⟨hstate, hvalid.source, hvalid.resource⟩

theorem resync_proxyStep (p : NativeProxy) (op : ProxyOp) :
    (proxyStep p op).resync <:+ p.resync ∨
      ∃ l r nowMs request, op = .ingest l r nowMs ∧ disposition p l r = .gap request ∧
        p.resync.length < p.queueCapacity ∧ (proxyStep p op).resync = p.resync ++ [request] := by
  by_cases hi : ∃ l r nowMs, op = .ingest l r nowMs
  · obtain ⟨l, r, nowMs, rfl⟩ := hi
    simp only [proxyStep, ingest_eq]
    cases hd : disposition p l r with
    | gap request =>
      dsimp only
      unfold requestResync
      split_ifs with hroom
      · exact Or.inr ⟨l, r, nowMs, request, rfl, hd, hroom, rfl⟩
      · exact Or.inl List.suffix_rfl
    | rejected => exact Or.inl List.suffix_rfl
    | old => exact Or.inl List.suffix_rfl
    | stored => exact Or.inl List.suffix_rfl
    | passed => exact Or.inl List.suffix_rfl
  · push Not at hi
    left
    by_cases hr : op = .nextResync
    · rw [hr, proxyStep_nextResync]
      exact List.tail_suffix _
    · obtain ⟨links, heq⟩ := proxyStep_links (p := p) hi hr
      rw [heq]

theorem resyncInv_proxyStep (p : NativeProxy) (op : ProxyOp) (h : ResyncInv p) :
    ResyncInv (proxyStep p op) := by
  obtain ⟨hlen, hvalid⟩ := h
  unfold ResyncInv
  rw [queueCapacity_proxyStep]
  rcases resync_proxyStep p op with hsuffix | ⟨l, r, nowMs, request, -, hgap, hroom, heq⟩
  · exact ⟨hsuffix.length_le.trans hlen, fun request hr => hvalid request (hsuffix.mem hr)⟩
  · rw [heq, List.length_append, List.length_singleton]
    exact ⟨hroom, forall_mem_log hvalid (valid_of_gap hgap)⟩

theorem resyncInv_run (c : ℕ) (ops : List ProxyOp) : ResyncInv (run proxyStep (init c) ops) := by
  refine run_keeps resyncInv_proxyStep ops ⟨Nat.zero_le _, ?_⟩
  simp [init]

/-- **The resource limits**, in every run. -/
theorem limits (c : ℕ) (ops : List ProxyOp) :
    let p := run proxyStep (init c) ops
    count p.links ≤ 16 ∧ p.subscriptionCount ≤ 64 ∧
      (∀ l link, p.links.lookup l = some link → link.queue.size ≤ c) ∧ p.resync.length ≤ c ∧
      ∀ request ∈ p.resync, ∀ out : List UInt8, kResyncBytes ≤ out.length →
        ∃ bytes, encodeResync request (.data out) = some (bytes, kResyncBytes) ∧
          decodeResync (.data (bytes.take kResyncBytes)) = some request := by
  obtain ⟨hlinks, hsubs⟩ := linksInv_run c ops
  obtain ⟨hcapacity, hqueues⟩ := queuesInv_run c ops
  obtain ⟨hpending, hvalid⟩ := resyncInv_run c ops
  refine ⟨hlinks, hsubs, ?_, hpending.trans hcapacity.le, ?_⟩
  · intro l link hl
    have hinv := hqueues l link hl
    exact hinv.bounded.trans hinv.capacity.le
  · intro request hrequest out hout
    exact decode_encodeResync (hvalid request hrequest) hout

/-! ### The cache -/

/-- The stream that a state record names, if it is admitted. -/
def stream (p : NativeProxy) : ProxyOp → List UInt64
  | .ingest l r _ =>
    if admits p l r && stateType r.header.type then [streamKey (messageOf r)] else []
  | _ => []

/-- The streams that the state records of a run named. -/
def streams (c : ℕ) (ops : List ProxyOp) : Finset UInt64 :=
  (outputs proxyStep stream (init c) ops).toFinset

theorem mem_cache_iff {κ : UInt64} : κ ∈ p.cache ↔ (p.cache.lookup κ).isSome = true :=
  AList.lookup_isSome.symm

/-- **A stream is cached from its first record on.** -/
theorem mem_cache_proxyStep (p : NativeProxy) (op : ProxyOp) (κ : UInt64) :
    κ ∈ (proxyStep p op).cache ↔ κ ∈ p.cache ∨ κ ∈ stream p op := by
  by_cases hi : ∃ l r nowMs, op = .ingest l r nowMs
  · obtain ⟨l, r, nowMs, rfl⟩ := hi
    have hstream : κ ∈ stream p (.ingest l r nowMs) ↔
        (admits p l r = true ∧ stateType r.header.type = true) ∧ κ = streamKey (messageOf r) := by
      unfold stream
      dsimp only
      rw [← Bool.and_eq_true]
      by_cases h : (admits p l r && stateType r.header.type) = true
      · rw [if_pos h, List.mem_singleton, and_iff_right h]
      · rw [if_neg h]
        exact iff_of_false List.not_mem_nil fun hc => h hc.1
    rw [mem_cache_iff, mem_cache_iff, hstream, proxyStep, lookup_cache_ingest]
    by_cases hs : disposition p l r = .stored ∧ κ = streamKey (messageOf r)
    · rw [if_pos hs]
      exact iff_of_true rfl (Or.inr ⟨admits_of_stored hs.1, hs.2⟩)
    · rw [if_neg hs]
      refine (or_iff_left_of_imp ?_).symm
      rintro ⟨⟨hadm, hstate⟩, rfl⟩
      -- the first record of a stream would be stored
      rw [disposition_of_state hadm hstate] at hs
      cases hc : p.cache.lookup (streamKey (messageOf r)) with
      | none =>
        rw [hc] at hs
        exact absurd ⟨rfl, rfl⟩ hs
      | some old => rfl
  · push Not at hi
    have hstream : stream p op = [] := by
      cases op with
      | ingest l r nowMs => exact absurd rfl (hi l r nowMs)
      | _ => rfl
    rw [cache_proxyStep hi, hstream]
    simp

theorem mem_cache_run (c : ℕ) (ops : List ProxyOp) (κ : UInt64) :
    κ ∈ (run proxyStep (init c) ops).cache ↔ κ ∈ streams c ops := by
  unfold streams
  rw [List.mem_toFinset]
  induction ops using List.reverseRecOn with
  | nil => exact iff_of_false (AList.notMem_empty κ) List.not_mem_nil
  | append_singleton ops op ih =>
    rw [run_concat, outputs_concat, mem_cache_proxyStep, ih, List.mem_append]

/-- **The size of the cache** is the number of streams that were named. -/
theorem count_cache (c : ℕ) (ops : List ProxyOp) :
    count (run proxyStep (init c) ops).cache = (streams c ops).card := by
  have hkeys : (run proxyStep (init c) ops).cache.keys.toFinset = streams c ops := by
    ext κ
    rw [List.mem_toFinset, ← AList.mem_keys, mem_cache_run]
  rw [← hkeys, List.toFinset_card_of_nodup (AList.keys_nodup _), AList.keys, List.keys,
    List.length_map, count]

/-- **When the cache is bounded**: as long as the records of a run name no more streams than there
is room for in the queues of 16 links. -/
theorem cache_bounded_iff (c : ℕ) (ops : List ProxyOp) :
    (∀ before, before <+: ops → count (run proxyStep (init c) before).cache ≤ 16 * c) ↔
      (streams c ops).card ≤ 16 * c := by
  constructor
  · intro h
    rw [← count_cache]
    exact h ops List.prefix_rfl
  · rintro h before ⟨after, rfl⟩
    rw [count_cache]
    refine (Finset.card_le_card fun κ hκ => ?_).trans h
    unfold streams at hκ ⊢
    rw [List.mem_toFinset] at hκ ⊢
    rw [outputs_append]
    exact List.mem_append_left _ hκ

/-- One peer fills the cache of a proxy with queues of one message with 17 resources. -/
theorem cache_grows : ¬ ∀ (c : ℕ) (ops : List ProxyOp),
    count (run proxyStep (init c) ops).cache ≤ 16 * c := by
  intro h
  have hbound := h 1 (.addLink 1 (testSession 1 2) :: (List.range 17).map fun i =>
    .ingest 1 (makePosition 2 ⟨UInt32.ofNat (i + 1), 1, 0, 2, 1, 0⟩) 0)
  revert hbound
  decide +kernel

end NewMavlink.Proxy.Limits
