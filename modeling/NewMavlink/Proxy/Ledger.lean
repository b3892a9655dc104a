import NewMavlink.Proxy.Cache

/-! # What a proxy says of its past

The cache, the list of resync requests and the metrics of a proxy, against what its calls have done.
The accounts of a run are the records that `ingest` has stored, accepted and refused, the messages
that the queues of the links have taken, and the requests that were noted and handed out.

* `lookup_cache_run`, `metrics_step`, `resync_step`: what each of them is, in terms of the accounts.
* `cached_exact`: `cached` returns the newest record stored of some stream of the type, and nothing
  exactly if no record of the type has been stored.
* `accounts_exact`: each of the metrics counts its account, and the requests are handed out once, in
  the order in which they were noted. -/

namespace NewMavlink.Proxy.Ledger

open NewMavlink.Lib.Tables NewMavlink.Lib.Runs NewMavlink.Wire NewMavlink.State.Messages
open NewMavlink.Record.SealOpen
open NewMavlink.Proxy.Queue hiding streamKey
open NewMavlink.Proxy.Links NewMavlink.Proxy.Links.NativeProxy NewMavlink.Proxy.Ingest
open NewMavlink.Proxy.Cache

/-! ### The accounts -/

/-- The record that a call ingests, if `ingest` does one of `ds` with it. -/
def ingested (ds : Disposition → Bool) (p : NativeProxy) : ProxyOp → List OpenRecord
  | .ingest l r _ => if ds (disposition p l r) then [r] else []
  | _ => []

/-- The record that a call stores. -/
def stored : NativeProxy → ProxyOp → List OpenRecord := ingested (· = .stored)

/-- The record that a call accepts: it is stored, or is not a state message. -/
def accepted : NativeProxy → ProxyOp → List OpenRecord :=
  ingested fun d => d = .stored ∨ d = .passed

/-- The record that a call refuses. -/
def rejected : NativeProxy → ProxyOp → List OpenRecord := ingested (· = .rejected)

/-- The messages that the queues of the links take in a call of `ingest`, with their links. -/
def taken (p : NativeProxy) : ProxyOp → List (UInt16 × NativeMessage)
  | .ingest l r nowMs =>
    if disposition p l r = .stored ∨ disposition p l r = .passed then
      (p.links.entries.filter fun e => (forwardTo l (messageOf r) nowMs e.1 e.2).1).map fun e =>
        (e.1, forwarded (messageOf r) e.1)
    else []
  | _ => []

/-- The request that a call notes: `ingest` meets a gap, and there is room. -/
def noted (p : NativeProxy) : ProxyOp → List ResyncRequest
  | .ingest l r _ =>
    match disposition p l r with
    | .gap request => if p.resync.length < p.queueCapacity then [request] else []
    | _ => []
  | _ => []

/-- The request that a call hands out. -/
def handedOut (p : NativeProxy) : ProxyOp → List ResyncRequest
  | .nextResync => p.nextResync.1.toList
  | _ => []

/-- The record belongs to the stream. -/
def ofStream (κ : UInt64) (r : OpenRecord) : Bool := streamKey (messageOf r) = κ

variable {p : NativeProxy} {op : ProxyOp} {κ : UInt64} {l : UInt16} {r : OpenRecord}
  {m : NativeMessage} {visit : Visit NativeMessage} {type : MessageType}

/-- **What a call stores**: nothing, or the record that it ingests. -/
theorem stored_cases (p : NativeProxy) (op : ProxyOp) : stored p op = [] ∨
    ∃ l r nowMs, op = .ingest l r nowMs ∧ disposition p l r = .stored ∧ stored p op = [r] := by
  cases op with
  | ingest l r nowMs =>
    by_cases hs : disposition p l r = .stored
    · exact Or.inr ⟨l, r, nowMs, rfl, hs, if_pos (decide_eq_true hs)⟩
    · exact Or.inl (if_neg (by simpa using hs))
  | _ => exact Or.inl rfl

/-! ### The cache -/

theorem lookup_cache_step (κ : UInt64) (p : NativeProxy) (op : ProxyOp) :
    (proxyStep p op).cache.lookup κ =
      (((stored p op).filter (ofStream κ)).getLast?.map messageOf).or (p.cache.lookup κ) := by
  by_cases hop : ∃ l r nowMs, op = .ingest l r nowMs
  · obtain ⟨l, r, nowMs, rfl⟩ := hop
    rw [proxyStep, lookup_cache_ingest]
    by_cases hs : disposition p l r = .stored
    · by_cases hκ : κ = streamKey (messageOf r)
      · simp [stored, ingested, hs, ofStream, ← hκ]
      · simp [stored, ingested, hs, ofStream, hκ, Ne.symm hκ]
    · simp [stored, ingested, hs]
  · push Not at hop
    rw [cache_proxyStep hop]
    cases op with
    | ingest l r nowMs => exact absurd rfl (hop l r nowMs)
    | _ => simp [stored, ingested]

/-- **The cache after a run**: of each stream the record that was stored last. -/
theorem lookup_cache_run (c : ℕ) (ops : List ProxyOp) (κ : UInt64) :
    (run proxyStep (init c) ops).cache.lookup κ =
      (((outputs proxyStep stored (init c) ops).filter (ofStream κ)).getLast?.map messageOf) := by
  have h := run_last (f := fun p : NativeProxy => p.cache.lookup κ) (lookup_cache_step κ) (init c)
    ops
  rw [outputs_filter] at h
  exact h.trans Option.or_none

/-- **The records stored of a stream**: each supersedes the one before. -/
theorem stored_chain (c : ℕ) (ops : List ProxyOp) (κ : UInt64) :
    ((outputs proxyStep stored (init c) ops).filter (ofStream κ)).IsChain
      fun r r' => Supersedes (messageOf r') (messageOf r) := by
  induction ops using List.reverseRecOn with
  | nil => exact List.isChain_nil
  | append_singleton ops op ih =>
    rw [outputs_concat, List.filter_append]
    rcases stored_cases (run proxyStep (init c) ops) op with
      hnone | ⟨l, r, nowMs, -, hs, hone⟩
    · rw [hnone, List.filter_nil, List.append_nil]
      exact ih
    rw [hone]
    by_cases hin : ofStream κ r = true
    · have hκ : streamKey (messageOf r) = κ := of_decide_eq_true hin
      rw [List.filter_cons_of_pos hin, List.filter_nil]
      refine List.isChain_append.mpr ⟨ih, List.isChain_singleton r, fun old hold r' hr' => ?_⟩
      obtain rfl : r = r' := Option.some.inj hr'
      have hcached : (run proxyStep (init c) ops).cache.lookup κ = some (messageOf old) := by
        rw [lookup_cache_run, Option.mem_def.mp hold]
        rfl
      have hstream : streamKey (messageOf old) = κ :=
        of_decide_eq_true (List.mem_filter.mp (List.mem_of_mem_getLast? hold)).2
      exact ⟨hκ.trans hstream.symm, stored_over hs (hκ ▸ hcached)⟩
    · rw [List.filter_cons_of_neg hin, List.filter_nil, List.append_nil]
      exact ih

theorem cached_eq_none : p.cached visit type = none ↔
    ∀ κ m, p.cache.lookup κ = some m → m.header.type ≠ type := by
  unfold cached
  rw [List.find?_eq_none]
  constructor
  · intro h κ m hm
    simpa using h m (mem_visit.mpr ⟨κ, hm⟩)
  · intro h m hm
    obtain ⟨κ, hm⟩ := mem_visit.mp hm
    simpa using h κ m hm

theorem exists_cached : (∃ visit, p.cached visit type = some m) ↔
    m.header.type = type ∧ ∃ κ, p.cache.lookup κ = some m := by
  constructor
  · rintro ⟨visit, h⟩
    exact ⟨by simpa using List.find?_some h, mem_visit.mp (List.mem_of_find?_eq_some h)⟩
  · rintro ⟨htype, hκ⟩
    refine ⟨Visit.first m, ?_⟩
    have hm : m ∈ values p.cache := mem_values_iff.mpr hκ
    unfold cached Visit.first
    dsimp only
    rw [if_pos hm, List.find?_cons_of_pos (by simpa using htype)]

/-- **The cached message of a type.** In every run `cached` may return a message exactly if it is
that of the record which was stored last of its stream, and each record that was stored of a stream
supersedes the one stored before it; `cached` returns nothing exactly if no record of the type has
been stored. -/
theorem cached_exact (c : ℕ) (ops : List ProxyOp) (type : MessageType) :
    (∀ m, (∃ visit, (run proxyStep (init c) ops).cached visit type = some m) ↔
      ∃ κ r, ((outputs proxyStep stored (init c) ops).filter (ofStream κ)).getLast? = some r ∧
        r.header.type = type ∧ messageOf r = m) ∧
    (∀ visit, (run proxyStep (init c) ops).cached visit type = none ↔
      ∀ r ∈ outputs proxyStep stored (init c) ops, r.header.type ≠ type) ∧
    ∀ κ, ((outputs proxyStep stored (init c) ops).filter (ofStream κ)).IsChain
      fun r r' => Supersedes (messageOf r') (messageOf r) := by
  refine ⟨fun m => ?_, fun visit => ?_, stored_chain c ops⟩
  · rw [exists_cached]
    simp only [lookup_cache_run, Option.map_eq_some_iff]
    constructor
    · rintro ⟨rfl, κ, r, hlast, rfl⟩
      exact ⟨κ, r, hlast, rfl, rfl⟩
    · rintro ⟨κ, r, hlast, rfl, rfl⟩
      exact ⟨rfl, κ, r, hlast, rfl⟩
  · rw [cached_eq_none]
    simp only [lookup_cache_run, Option.map_eq_some_iff]
    constructor
    · intro h r hr htype
      have hstream : r ∈ (outputs proxyStep stored (init c) ops).filter
          (ofStream (streamKey (messageOf r))) :=
        List.mem_filter.mpr ⟨hr, decide_eq_true rfl⟩
      obtain ⟨last, hlast⟩ := Option.isSome_iff_exists.mp
        (List.getLast?_isSome.mpr (List.ne_nil_of_mem hstream))
      have hkey : streamKey (messageOf last) = streamKey (messageOf r) :=
        of_decide_eq_true (List.mem_filter.mp (List.mem_of_getLast? hlast)).2
      exact h _ _ ⟨last, hlast, rfl⟩ ((packKey_eq_iff.mp hkey).1.trans htype)
    · rintro h κ m ⟨r, hlast, rfl⟩
      exact h r (List.mem_filter.mp (List.mem_of_getLast? hlast)).1

/-! ### The metrics and the requests -/

/-- The metrics after a call. -/
def counted (p : NativeProxy) (op : ProxyOp) : ProxyMetrics where
  ingressAccepted := p.metrics.ingressAccepted + UInt64.ofNat (accepted p op).length
  ingressRejected := p.metrics.ingressRejected + UInt64.ofNat (rejected p op).length
  forwarded := p.metrics.forwarded + UInt64.ofNat (taken p op).length
  cacheUpdates := p.metrics.cacheUpdates + UInt64.ofNat (stored p op).length
  resyncRequests := p.metrics.resyncRequests + UInt64.ofNat (noted p op).length

theorem counted_of_not_ingest (h : ∀ l r nowMs, op ≠ .ingest l r nowMs) :
    counted p op = p.metrics ∧ noted p op = [] := by
  cases op with
  | ingest l r nowMs => exact absurd rfl (h l r nowMs)
  | _ => simp [counted, accepted, rejected, stored, ingested, taken, noted]

/-- **What a call counts.** -/
theorem metrics_step (p : NativeProxy) (op : ProxyOp) :
    (proxyStep p op).metrics = counted p op := by
  by_cases hop : ∃ l r nowMs, op = .ingest l r nowMs
  · obtain ⟨l, r, nowMs, rfl⟩ := hop
    rw [proxyStep, ingest_eq]
    cases hd : disposition p l r with
    | rejected => simp [counted, accepted, rejected, stored, ingested, taken, noted, hd, reject]
    | gap request =>
      simp only [counted, accepted, rejected, stored, ingested, taken, noted, hd, requestResync]
      split <;> simp
    | old => simp [counted, accepted, rejected, stored, ingested, taken, noted, hd]
    | stored =>
      simp [counted, accepted, rejected, stored, ingested, taken, noted, hd, store, forward,
        List.countP_eq_length_filter]
    | passed =>
      simp [counted, accepted, rejected, stored, ingested, taken, noted, hd, forward,
        List.countP_eq_length_filter]
  · push Not at hop
    rw [(counted_of_not_ingest hop).1]
    by_cases hr : op = .nextResync
    · rw [hr, proxyStep_nextResync]
    · obtain ⟨links, heq⟩ := proxyStep_links (p := p) hop hr
      rw [heq]

/-- **What a call does to the requests**: what it hands out comes off the front, what it notes goes
to the end. -/
theorem resync_step (p : NativeProxy) (op : ProxyOp) :
    handedOut p op ++ (proxyStep p op).resync = p.resync ++ noted p op := by
  by_cases hop : ∃ l r nowMs, op = .ingest l r nowMs
  · obtain ⟨l, r, nowMs, rfl⟩ := hop
    have hnone : handedOut p (.ingest l r nowMs) = [] := rfl
    rw [hnone, List.nil_append, proxyStep, ingest_eq]
    cases hd : disposition p l r with
    | gap request =>
      simp only [noted, hd, requestResync]
      split <;> simp
    | rejected => simp [noted, hd, reject]
    | old => simp [noted, hd]
    | stored => simp [noted, hd, store, forward]
    | passed => simp [noted, hd, forward]
  · push Not at hop
    rw [(counted_of_not_ingest hop).2, List.append_nil]
    by_cases hr : op = .nextResync
    · subst hr
      rw [proxyStep_nextResync, handedOut, nextResync]
      cases p.resync <;> rfl
    · obtain ⟨links, heq⟩ := proxyStep_links (p := p) hop hr
      rw [heq]
      cases op with
      | nextResync => exact absurd rfl hr
      | _ => rfl

/-- **The accounts of a run.** In every run the metrics count, up to the overflow of the counters,
the records accepted, refused and stored, the messages that queues have taken and the requests
noted; and the requests are handed out once, in the order in which they were noted, those that have
not been handed out yet waiting in that order. -/
theorem accounts_exact (c : ℕ) (ops : List ProxyOp) :
    (run proxyStep (init c) ops).metrics = {
      ingressAccepted := UInt64.ofNat (outputs proxyStep accepted (init c) ops).length
      ingressRejected := UInt64.ofNat (outputs proxyStep rejected (init c) ops).length
      forwarded := UInt64.ofNat (outputs proxyStep taken (init c) ops).length
      cacheUpdates := UInt64.ofNat (outputs proxyStep stored (init c) ops).length
      resyncRequests := UInt64.ofNat (outputs proxyStep noted (init c) ops).length } ∧
    outputs proxyStep handedOut (init c) ops ++ (run proxyStep (init c) ops).resync =
      outputs proxyStep noted (init c) ops := by
  have haccepted := run_counter (f := fun p : NativeProxy => p.metrics.ingressAccepted)
    (fun p op => congrArg ProxyMetrics.ingressAccepted (metrics_step p op)) (init c) ops
  have hrejected := run_counter (f := fun p : NativeProxy => p.metrics.ingressRejected)
    (fun p op => congrArg ProxyMetrics.ingressRejected (metrics_step p op)) (init c) ops
  have hforwarded := run_counter (f := fun p : NativeProxy => p.metrics.forwarded)
    (fun p op => congrArg ProxyMetrics.forwarded (metrics_step p op)) (init c) ops
  have hstored := run_counter (f := fun p : NativeProxy => p.metrics.cacheUpdates)
    (fun p op => congrArg ProxyMetrics.cacheUpdates (metrics_step p op)) (init c) ops
  have hnoted := run_counter (f := fun p : NativeProxy => p.metrics.resyncRequests)
    (fun p op => congrArg ProxyMetrics.resyncRequests (metrics_step p op)) (init c) ops
  refine ⟨?_, run_fifo (f := NativeProxy.resync) resync_step (init c) ops⟩
  rw [ProxyMetrics.mk.injEq]
  simp only [init, UInt64.zero_add] at haccepted hrejected hforwarded hstored hnoted ⊢
  exact ⟨haccepted, hrejected, hforwarded, hstored, hnoted⟩

end NewMavlink.Proxy.Ledger
