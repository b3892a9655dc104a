import NewMavlink.Lib.Replica
import NewMavlink.Lib.Runs
import NewMavlink.Proxy.Links

/-! # What ingest does with a record

`ingest` decides by the record, the ingress link and the cached message of the record's stream, and
does one of five things (`Disposition`): it refuses the record, reports a gap, ignores the record as
old, stores and forwards it, or only forwards it because its type is not a state type. For a record
with a meta, the cache entry of its stream is a replica of the stream, and the meta is an update of
it.

* `ingest_eq`: the disposition decides the result and the proxy after the call.
* `admits_eq_true_iff`, `disposition_eq_gap_iff`, `stored_over`: when it is which.
* `disposition_eq_verdict`, `held_ingest_of_key`: the cache entry of a stream is a replica that is
  offered the records of the stream.
* `lookup_cache_proxyStep`: the cache changes by ingest only, and only in the entry of the stream.
* `links_ingest`: the links are kept, or the record is forwarded to all that want it.
* `link_cases`: what one operation can make of a link. -/

namespace NewMavlink.Proxy.Ingest

open NewMavlink.Lib.Buffer NewMavlink.Lib.Tables NewMavlink.Lib.Replica NewMavlink.Lib.Runs
open NewMavlink.Wire NewMavlink.State.Messages NewMavlink.Record.SealOpen
open NewMavlink.Proxy.Queue hiding streamKey
open NewMavlink.Proxy.Links NewMavlink.Proxy.Links.NativeProxy

/-- What `ingest` makes of a record: it is refused, shows a gap, is older than what is cached, is
stored and forwarded, or is forwarded only. -/
inductive Disposition where
  | rejected
  | gap (request : ResyncRequest)
  | old
  | stored
  | passed
deriving DecidableEq

/-- What a meta says of its message, as an update of the stream. -/
def updateOf (sm : StateMeta) : Update ℕ where
  generation := sm.generation.toNat
  base := if sm.snapshot = 0 then some sm.baseGeneration.toNat else none

/-- What `ingest` asks of a record before it looks at the cache. -/
def admits (p : NativeProxy) (l : UInt16) (r : OpenRecord) : Bool :=
  match p.links.lookup l with
  | none => false
  | some ingress => r.length ≤ kMaxPayloadBytes && knownType r.header.type &&
      r.header.sourceId == ingress.session.keys.peerId &&
      r.header.destinationId == ingress.session.keys.localId && !badPosition (messageOf r)

/-- What the cache says of a message with a state type. -/
def cacheDisposition (cached : Option NativeMessage) (m : NativeMessage) : Disposition :=
  match cached with
  | none => .stored
  | some old =>
    match metaOf old, metaOf m with
    | some oldMeta, some newMeta =>
      match verdict (some oldMeta.generation.toNat) (updateOf newMeta) with
      | .gap => .gap ⟨m.header.type, newMeta.sourceId, newMeta.resourceId⟩
      | .old => .old
      | .stored => .stored
    | _, _ => .rejected

/-- What `ingest` does with a record. -/
def disposition (p : NativeProxy) (l : UInt16) (r : OpenRecord) : Disposition :=
  if !admits p l r then .rejected
  else if !stateType r.header.type then .passed
  else cacheDisposition (p.cache.lookup (streamKey (messageOf r))) (messageOf r)

variable {p : NativeProxy} {l : UInt16} {r : OpenRecord} {nowMs : UInt64}

@[simp] theorem header_messageOf (r : OpenRecord) : (messageOf r).header = r.header := rfl

@[simp] theorem length_messageOf (r : OpenRecord) : (messageOf r).length = r.length := rfl

theorem bytes_messageOf (h : r.length ≤ kMaxPayloadBytes) : (messageOf r).bytes = r.bytes := by
  have hlen : r.bytes.length = r.length := by
    simp [OpenRecord.bytes, Nat.min_eq_left h]
  have hblit : (blit (List.replicate kMaxPayloadBytes 0) 0 r.bytes).take r.bytes.length = r.bytes :=
    take_blit_zero (by rwa [hlen, List.length_replicate])
  unfold NativeMessage.bytes
  rw [length_messageOf, ← hlen]
  exact hblit

theorem admits_eq_true_iff : admits p l r = true ↔ ∃ link, p.links.lookup l = some link ∧
    r.length ≤ kMaxPayloadBytes ∧ knownType r.header.type = true ∧
      r.header.sourceId = link.session.keys.peerId ∧
      r.header.destinationId = link.session.keys.localId ∧ badPosition (messageOf r) = false := by
  unfold admits
  cases p.links.lookup l <;> simp [and_assoc]

theorem disposition_of_not_admits (h : ¬ admits p l r = true) : disposition p l r = .rejected := by
  unfold disposition
  rw [if_pos (by simpa using h)]

theorem disposition_of_admits (h : admits p l r = true) : disposition p l r =
    if stateType r.header.type then
      cacheDisposition (p.cache.lookup (streamKey (messageOf r))) (messageOf r)
    else .passed := by
  unfold disposition
  rw [if_neg (by simp [h])]
  cases stateType r.header.type <;> rfl

/-- The comparisons of `ingest` are those of a replica. -/
theorem verdict_updateOf (g : UInt32) (sm : StateMeta) :
    verdict (some g.toNat) (updateOf sm) =
      if sm.snapshot = 0 ∧ sm.baseGeneration ≠ g then .gap
      else if sm.generation ≤ g then .old else .stored := by
  have hbase : (updateOf sm).Fits g.toNat ↔ ¬ (sm.snapshot = 0 ∧ sm.baseGeneration ≠ g) := by
    by_cases hs : sm.snapshot = 0
    · rw [Update.fits_iff (b := sm.baseGeneration.toNat) (by simp [updateOf, hs]), UInt32.toNat_inj]
      simp [hs]
    · have hfull : (updateOf sm).base = none := by simp [updateOf, hs]
      simp [hs, Update.fits_of_full hfull]
  unfold verdict
  by_cases hf : (updateOf sm).Fits g.toNat
  · simp only [if_pos hf, if_neg (hbase.mp hf)]
    exact if_congr UInt32.le_iff_toNat_le.symm rfl rfl
  · simp only [if_neg hf, if_pos (not_not.mp (fun h => hf (hbase.mpr h)))]

/-- **The disposition decides** the result and the proxy after the call. -/
theorem ingest_eq (p : NativeProxy) (l : UInt16) (r : OpenRecord) (nowMs : UInt64) :
    p.ingest l r nowMs =
      match disposition p l r with
      | .rejected => (false, p.reject)
      | .gap request => (false, p.requestResync request)
      | .old => (true, p)
      | .stored =>
        (true, (p.store (streamKey (messageOf r)) (messageOf r)).forward l (messageOf r) nowMs)
      | .passed => (true, p.forward l (messageOf r) nowMs) := by
  by_cases hadm : admits p l r = true
  · obtain ⟨link, hl, hlen, hknown, hsrc, hdst, hpos⟩ := admits_eq_true_iff.mp hadm
    rw [disposition_of_admits hadm]
    unfold ingest
    rw [hl]
    dsimp only
    rw [if_neg (by simp [hlen, hknown, hsrc, hdst]), if_neg (by simp [hpos])]
    by_cases hstate : stateType (messageOf r).header.type = true
    · rw [if_pos hstate, if_pos (show stateType r.header.type = true from hstate)]
      unfold cacheDisposition
      cases p.cache.lookup (streamKey (messageOf r)) with
      | none => rfl
      | some old =>
        dsimp only
        cases metaOf old with
        | none => rfl
        | some oldMeta =>
          cases metaOf (messageOf r) with
          | none => rfl
          | some newMeta =>
            dsimp only
            rw [if_neg (by simp [hpos]), verdict_updateOf]
            by_cases hgap : newMeta.snapshot = 0 ∧ newMeta.baseGeneration ≠ oldMeta.generation
            · rw [if_pos hgap, if_pos hgap]
            · rw [if_neg hgap, if_neg hgap]
              by_cases hold : newMeta.generation ≤ oldMeta.generation
              · rw [if_pos hold, if_pos hold]
              · rw [if_neg hold, if_neg hold]
    · rw [if_neg hstate, if_neg (show ¬ stateType r.header.type = true from hstate)]
  · rw [disposition_of_not_admits hadm]
    unfold ingest
    cases hl : p.links.lookup l with
    | none => rfl
    | some ingress =>
      dsimp only
      split_ifs with hc hpos
      · rfl
      · rfl
      all_goals
        push Not at hc
        refine absurd (admits_eq_true_iff.mpr ⟨ingress, hl, hc.1, ?_, hc.2.2.1, hc.2.2.2, ?_⟩) hadm
        · simpa using hc.2.1
        · simpa using hpos

/-! ### When it is which -/

/-- What the cache says of a message when both metas decode. -/
theorem cacheDisposition_of_meta {old m : NativeMessage} {oldMeta newMeta : StateMeta}
    (hold : metaOf old = some oldMeta) (hnew : metaOf m = some newMeta) :
    cacheDisposition (some old) m =
      if newMeta.snapshot = 0 ∧ newMeta.baseGeneration ≠ oldMeta.generation then
        .gap ⟨m.header.type, newMeta.sourceId, newMeta.resourceId⟩
      else if newMeta.generation ≤ oldMeta.generation then .old else .stored := by
  unfold cacheDisposition
  dsimp only
  rw [hold, hnew]
  dsimp only
  rw [verdict_updateOf]
  split_ifs <;> rfl

theorem cacheDisposition_eq_stored_iff {old m : NativeMessage} {oldMeta newMeta : StateMeta}
    (hold : metaOf old = some oldMeta) (hnew : metaOf m = some newMeta) :
    cacheDisposition (some old) m = .stored ↔
      verdict (some oldMeta.generation.toNat) (updateOf newMeta) = .stored := by
  unfold cacheDisposition
  dsimp only
  rw [hold, hnew]
  dsimp only
  cases verdict (some oldMeta.generation.toNat) (updateOf newMeta) <;> simp

/-- A message whose meta or whose predecessor's meta does not decode is refused. -/
theorem cacheDisposition_of_none {old m : NativeMessage}
    (h : metaOf old = none ∨ metaOf m = none) : cacheDisposition (some old) m = .rejected := by
  unfold cacheDisposition
  dsimp only
  rcases h with h | h
  · rw [h]
  · rw [h]
    cases metaOf old <;> rfl

theorem cacheDisposition_ne_passed (cached : Option NativeMessage) (m : NativeMessage) :
    cacheDisposition cached m ≠ .passed := by
  unfold cacheDisposition
  cases cached with
  | none => simp
  | some old =>
    dsimp only
    split
    · split <;> simp
    · simp

theorem metas_of_cacheDisposition {old m : NativeMessage}
    (h : cacheDisposition (some old) m ≠ .rejected) :
    ∃ oldMeta newMeta, metaOf old = some oldMeta ∧ metaOf m = some newMeta := by
  cases hold : metaOf old with
  | none => exact absurd (cacheDisposition_of_none (Or.inl hold)) h
  | some oldMeta =>
    cases hnew : metaOf m with
    | none => exact absurd (cacheDisposition_of_none (Or.inr hnew)) h
    | some newMeta => exact ⟨oldMeta, newMeta, rfl, rfl⟩

/-- A disposition that is not a refusal nor that of another type comes from the cache. -/
theorem disposition_eq_cache (h : disposition p l r ≠ .rejected)
    (h' : disposition p l r ≠ .passed) :
    admits p l r = true ∧ stateType r.header.type = true ∧ disposition p l r =
      cacheDisposition (p.cache.lookup (streamKey (messageOf r))) (messageOf r) := by
  by_cases hadm : admits p l r = true
  · rw [disposition_of_admits hadm] at h' ⊢
    by_cases hstate : stateType r.header.type = true
    · exact ⟨hadm, hstate, if_pos hstate⟩
    · exact absurd (if_neg hstate) h'
  · exact absurd (disposition_of_not_admits hadm) h

theorem disposition_of_state (hadm : admits p l r = true)
    (hstate : stateType r.header.type = true) : disposition p l r =
      cacheDisposition (p.cache.lookup (streamKey (messageOf r))) (messageOf r) := by
  rw [disposition_of_admits hadm, if_pos hstate]

theorem admits_of_stored (h : disposition p l r = .stored) :
    admits p l r = true ∧ stateType r.header.type = true := by
  obtain ⟨hadm, hstate, -⟩ := disposition_eq_cache (p := p) (l := l) (r := r) (by simp [h])
    (by simp [h])
  exact ⟨hadm, hstate⟩

theorem stateType_of_passed (h : disposition p l r = .passed) :
    stateType r.header.type = false := by
  by_contra hne
  have hstate : stateType r.header.type = true := by simpa using hne
  by_cases hadm : admits p l r = true
  · rw [disposition_of_state hadm hstate] at h
    exact cacheDisposition_ne_passed _ _ h
  · simp [disposition_of_not_admits hadm] at h

theorem decodePosition_of_admits (h : admits p l r = true) (ht : r.header.type = .position) :
    (decodePosition (.data (messageOf r).bytes)).isSome = true := by
  obtain ⟨-, -, -, -, -, -, hpos⟩ := admits_eq_true_iff.mp h
  unfold badPosition at hpos
  rw [header_messageOf, ht] at hpos
  simpa using hpos

/-- **When a record is a gap**: a difference whose base is not the cached generation. -/
theorem disposition_eq_gap_iff {request : ResyncRequest} : disposition p l r = .gap request ↔
    admits p l r = true ∧ stateType r.header.type = true ∧
      ∃ old oldMeta newMeta, p.cache.lookup (streamKey (messageOf r)) = some old ∧
        metaOf old = some oldMeta ∧ metaOf (messageOf r) = some newMeta ∧
        newMeta.snapshot = 0 ∧ newMeta.baseGeneration ≠ oldMeta.generation ∧
        request = ⟨r.header.type, newMeta.sourceId, newMeta.resourceId⟩ := by
  constructor
  · intro h
    obtain ⟨hadm, hstate, heq⟩ := disposition_eq_cache (p := p) (l := l) (r := r) (by simp [h])
      (by simp [h])
    rw [h] at heq
    refine ⟨hadm, hstate, ?_⟩
    cases hc : p.cache.lookup (streamKey (messageOf r)) with
    | none =>
      rw [hc] at heq
      cases heq
    | some old =>
      rw [hc] at heq
      obtain ⟨oldMeta, newMeta, hold, hnew⟩ := metas_of_cacheDisposition (by rw [← heq]; simp)
      rw [cacheDisposition_of_meta hold hnew] at heq
      split_ifs at heq with hgap
      exact ⟨old, oldMeta, newMeta, rfl, hold, hnew, hgap.1, hgap.2, Disposition.gap.inj heq⟩
  · rintro ⟨hadm, hstate, old, oldMeta, newMeta, hc, hold, hnew, hs, hb, rfl⟩
    rw [disposition_of_state hadm hstate, hc, cacheDisposition_of_meta hold hnew, if_pos ⟨hs, hb⟩]
    rfl

/-- **When a record is stored** over a cached message: it is newer, and a snapshot or based on
it. -/
theorem stored_over {old : NativeMessage} (h : disposition p l r = .stored)
    (hc : p.cache.lookup (streamKey (messageOf r)) = some old) :
    ∃ oldMeta newMeta, metaOf old = some oldMeta ∧ metaOf (messageOf r) = some newMeta ∧
      oldMeta.generation < newMeta.generation ∧
      (newMeta.snapshot ≠ 0 ∨ newMeta.baseGeneration = oldMeta.generation) := by
  obtain ⟨-, -, heq⟩ := disposition_eq_cache (p := p) (l := l) (r := r) (by simp [h]) (by simp [h])
  rw [h, hc] at heq
  obtain ⟨oldMeta, newMeta, hold, hnew⟩ := metas_of_cacheDisposition (by rw [← heq]; simp)
  rw [cacheDisposition_of_meta hold hnew] at heq
  split_ifs at heq with hgap hle
  have hfits : newMeta.snapshot ≠ 0 ∨ newMeta.baseGeneration = oldMeta.generation := by
    by_cases hs : newMeta.snapshot = 0
    · exact Or.inr (not_not.mp fun hb => hgap ⟨hs, hb⟩)
    · exact Or.inl hs
  exact ⟨oldMeta, newMeta, hold, hnew, UInt32.not_le.mp hle, hfits⟩

/-! ### What changes -/

@[simp] theorem cache_reject : p.reject.cache = p.cache := rfl
@[simp] theorem links_reject : p.reject.links = p.links := rfl
@[simp] theorem resync_reject : p.reject.resync = p.resync := rfl

@[simp] theorem cache_requestResync (q : ResyncRequest) : (p.requestResync q).cache = p.cache := by
  unfold requestResync
  split_ifs <;> rfl

@[simp] theorem links_requestResync (q : ResyncRequest) : (p.requestResync q).links = p.links := by
  unfold requestResync
  split_ifs <;> rfl

@[simp] theorem admits_requestResync (q : ResyncRequest) :
    admits (p.requestResync q) l r = admits p l r := by
  unfold admits
  rw [links_requestResync]

/-- **What the cache holds after a record.** -/
theorem lookup_cache_ingest (p : NativeProxy) (l : UInt16) (r : OpenRecord) (nowMs κ : UInt64) :
    (p.ingest l r nowMs).2.cache.lookup κ =
      if disposition p l r = .stored ∧ κ = streamKey (messageOf r) then some (messageOf r)
      else p.cache.lookup κ := by
  rw [ingest_eq]
  cases disposition p l r with
  | stored =>
    have hins := lookup_insert_eq p.cache (streamKey (messageOf r)) κ (messageOf r)
    simpa [forward, store] using hins
  | rejected => simp
  | gap request => simp
  | old => simp
  | passed => simp [forward]

/-- **What a record does to the links**: nothing, or it is forwarded to all that want it. -/
theorem links_ingest (p : NativeProxy) (l : UInt16) (r : OpenRecord) (nowMs : UInt64) :
    (p.ingest l r nowMs).2.links = p.links ∨
      (disposition p l r = .stored ∨ disposition p l r = .passed) ∧
        (p.ingest l r nowMs).2.links =
          mapValues (fun k link => (forwardTo l (messageOf r) nowMs k link).2) p.links := by
  rw [ingest_eq]
  cases disposition p l r with
  | rejected => exact Or.inl rfl
  | gap request => exact Or.inl (links_requestResync request)
  | old => exact Or.inl rfl
  | stored => exact Or.inr ⟨Or.inl rfl, rfl⟩
  | passed => exact Or.inr ⟨Or.inr rfl, rfl⟩

theorem proxyStep_links {op : ProxyOp} (h : ∀ l r nowMs, op ≠ .ingest l r nowMs)
    (hr : op ≠ .nextResync) : ∃ links, proxyStep p op = { p with links } := by
  cases op with
  | ingest l r nowMs => exact absurd rfl (h l r nowMs)
  | nextResync => exact absurd rfl hr
  | addLink linkId session =>
    simp only [proxyStep, addLink]
    split_ifs
    · exact ⟨p.links, rfl⟩
    · exact ⟨_, rfl⟩
  | removeLink linkId => exact ⟨_, rfl⟩
  | subscribe visit linkId sub =>
    simp only [proxyStep, subscribe]
    cases p.links.lookup linkId with
    | none => exact ⟨p.links, rfl⟩
    | some link =>
      dsimp only
      split_ifs
      · exact ⟨p.links, rfl⟩
      · exact ⟨p.links, rfl⟩
      · exact ⟨_, rfl⟩
  | unsubscribe linkId type =>
    simp only [proxyStep, unsubscribe]
    cases p.links.lookup linkId
    · exact ⟨p.links, rfl⟩
    · exact ⟨_, rfl⟩
  | next linkId nowMs =>
    simp only [proxyStep, next]
    cases p.links.lookup linkId
    · exact ⟨p.links, rfl⟩
    · exact ⟨_, rfl⟩
  | owner linkId session =>
    simp only [proxyStep, changeSession]
    cases p.links.lookup linkId
    · exact ⟨p.links, rfl⟩
    · exact ⟨_, rfl⟩

theorem proxyStep_nextResync : proxyStep p .nextResync = { p with resync := p.resync.tail } := by
  obtain ⟨queueCapacity, links, cache, resync, metrics⟩ := p
  cases resync <;> rfl

theorem cache_proxyStep {op : ProxyOp} (h : ∀ l r nowMs, op ≠ .ingest l r nowMs) :
    (proxyStep p op).cache = p.cache := by
  by_cases hr : op = .nextResync
  · rw [hr, proxyStep_nextResync]
  · obtain ⟨links, heq⟩ := proxyStep_links (p := p) h hr
    rw [heq]

/-- **The cache changes by ingest only**, and only in the entry of the record's stream. -/
theorem lookup_cache_proxyStep (p : NativeProxy) (op : ProxyOp) (κ : UInt64) :
    (proxyStep p op).cache.lookup κ = p.cache.lookup κ ∨
      ∃ l r nowMs, op = .ingest l r nowMs ∧ disposition p l r = .stored ∧
        κ = streamKey (messageOf r) ∧
        (proxyStep p op).cache.lookup κ = some (messageOf r) := by
  by_cases hop : ∃ l r nowMs, op = .ingest l r nowMs
  · obtain ⟨l, r, nowMs, rfl⟩ := hop
    have hlook := lookup_cache_ingest p l r nowMs κ
    by_cases hs : disposition p l r = .stored ∧ κ = streamKey (messageOf r)
    · rw [if_pos hs] at hlook
      exact Or.inr ⟨l, r, nowMs, rfl, hs.1, hs.2, hlook⟩
    · rw [if_neg hs] at hlook
      exact Or.inl hlook
  · push Not at hop
    rw [cache_proxyStep hop]
    exact Or.inl rfl

/-- A subscription that gets past the checks of `subscribe` is recorded. -/
def records (p : NativeProxy) (l : UInt16) (sub : Subscription) : Bool :=
  match p.links.lookup l with
  | none => false
  | some link => subscribable sub && !decide ((link.subscriptions.lookup sub.type.code).isNone ∧
      p.subscriptionCount ≥ kMaxProxySubscriptions)

theorem subscribable_of_records {sub : Subscription} (h : records p l sub = true) :
    subscribable sub = true := by
  unfold records at h
  cases hl : p.links.lookup l with
  | none => simp [hl] at h
  | some link =>
    simp only [hl, Bool.and_eq_true] at h
    exact h.1

/-- What one operation can make of a link that is there before and after. -/
inductive LinkStep (p : NativeProxy) (l : UInt16) (link : LinkState) : ProxyOp → LinkState → Prop
  | kept (op : ProxyOp) : LinkStep p l link op link
  | subscribed (visit : Visit NativeMessage) (sub : Subscription) (hsub : records p l sub = true) :
    LinkStep p l link (.subscribe visit l sub) { link with
      queue := (replay sub (visit.order (values p.cache)) link.queue).2
      subscriptions := link.subscriptions.insert sub.type.code sub }
  | unsubscribed (type : MessageType) : LinkStep p l link (.unsubscribe l type)
      { link with subscriptions := link.subscriptions.erase type.code }
  | forwarded (ingressLink : UInt16) (r : OpenRecord) (nowMs : UInt64)
    (hd : disposition p ingressLink r = .stored ∨ disposition p ingressLink r = .passed) :
    LinkStep p l link (.ingest ingressLink r nowMs)
      (forwardTo ingressLink (messageOf r) nowMs l link).2
  | popped (nowMs : UInt64) :
    LinkStep p l link (.next l nowMs) { link with queue := (link.queue.pop nowMs).2 }
  | session (session : Session) : LinkStep p l link (.owner l session) { link with session }

theorem linkStep_insert {k l : UInt16} {link link' link₁ : LinkState} {op : ProxyOp}
    (hk : p.links.lookup k = some link₁) (hstep : LinkStep p k link₁ op link)
    (h : (p.links.insert k link).lookup l = some link') :
    ∃ link₀, p.links.lookup l = some link₀ ∧ LinkStep p l link₀ op link' := by
  rw [lookup_insert_eq] at h
  by_cases hl : l = k
  · subst hl
    rw [if_pos rfl] at h
    obtain rfl := Option.some.inj h
    exact ⟨link₁, hk, hstep⟩
  · rw [if_neg hl] at h
    exact ⟨link', h, .kept op⟩

/-- **What one operation can make of the links**: a new one is empty, the others take a step. -/
theorem link_cases {l : UInt16} {link' : LinkState} {op : ProxyOp}
    (h : (proxyStep p op).links.lookup l = some link') :
    (∃ session, op = .addLink l session ∧
      link' = { session, queue := { capacity := p.queueCapacity } }) ∨
    ∃ link, p.links.lookup l = some link ∧ LinkStep p l link op link' := by
  cases op with
  | addLink k session =>
    simp only [proxyStep, addLink] at h
    split_ifs at h
    · exact Or.inr ⟨link', h, .kept _⟩
    · dsimp only at h
      rw [lookup_insert_eq] at h
      split_ifs at h with hl
      · obtain rfl := Option.some.inj h
        exact Or.inl ⟨session, by rw [hl], rfl⟩
      · exact Or.inr ⟨link', h, .kept _⟩
  | removeLink k =>
    simp only [proxyStep, removeLink] at h
    rw [lookup_erase_eq] at h
    split_ifs at h
    exact Or.inr ⟨link', h, .kept _⟩
  | subscribe visit k sub =>
    simp only [proxyStep, subscribe] at h
    cases hk : p.links.lookup k with
    | none =>
      simp only [hk] at h
      exact Or.inr ⟨link', h, .kept _⟩
    | some link =>
      simp only [hk] at h
      split_ifs at h with hsub hfull
      · exact Or.inr ⟨link', h, .kept _⟩
      · exact Or.inr ⟨link', h, .kept _⟩
      · have hrec : records p k sub = true := by
          have hok : subscribable sub = true := by simpa using hsub
          unfold records
          rw [hk]
          dsimp only
          rw [hok, decide_eq_false hfull]
          rfl
        exact Or.inr (linkStep_insert hk (.subscribed visit sub hrec) h)
  | unsubscribe k type =>
    simp only [proxyStep, unsubscribe] at h
    cases hk : p.links.lookup k with
    | none =>
      simp only [hk] at h
      exact Or.inr ⟨link', h, .kept _⟩
    | some link =>
      simp only [hk] at h
      exact Or.inr (linkStep_insert hk (.unsubscribed type) h)
  | ingest k r nowMs =>
    simp only [proxyStep] at h
    rcases links_ingest p k r nowMs with hkept | ⟨hd, hforward⟩
    · rw [hkept] at h
      exact Or.inr ⟨link', h, .kept _⟩
    · rw [hforward, lookup_mapValues] at h
      obtain ⟨link, hl, rfl⟩ := Option.map_eq_some_iff.mp h
      exact Or.inr ⟨link, hl, .forwarded k r nowMs hd⟩
  | next k nowMs =>
    simp only [proxyStep, next] at h
    cases hk : p.links.lookup k with
    | none =>
      simp only [hk] at h
      exact Or.inr ⟨link', h, .kept _⟩
    | some link =>
      simp only [hk] at h
      exact Or.inr (linkStep_insert hk (.popped nowMs) h)
  | nextResync =>
    have hlinks : (proxyStep p .nextResync).links = p.links := by
      simp only [proxyStep, nextResync]
      cases p.resync <;> rfl
    rw [hlinks] at h
    exact Or.inr ⟨link', h, .kept _⟩
  | owner k session =>
    simp only [proxyStep, changeSession] at h
    cases hk : p.links.lookup k with
    | none =>
      simp only [hk] at h
      exact Or.inr ⟨link', h, .kept _⟩
    | some link =>
      simp only [hk] at h
      exact Or.inr (linkStep_insert hk (.session session) h)

/-! ### The cache entry of a stream as a replica -/

/-- A cached message with its generation, if its meta decodes. -/
def heldOf (cached : Option NativeMessage) : Option (ℕ × NativeMessage) :=
  cached.bind fun m => (metaOf m).map fun sm => (sm.generation.toNat, m)

/-- What the cache holds of a stream. -/
def held (p : NativeProxy) (κ : UInt64) : Option (ℕ × NativeMessage) := heldOf (p.cache.lookup κ)

theorem held_eq_some_iff {κ : UInt64} {g : ℕ} {m : NativeMessage} : held p κ = some (g, m) ↔
    p.cache.lookup κ = some m ∧ ∃ sm, metaOf m = some sm ∧ sm.generation.toNat = g := by
  unfold held heldOf
  rw [Option.bind_eq_some_iff]
  constructor
  · rintro ⟨m', hm, hg⟩
    obtain ⟨sm, hsm, heq⟩ := Option.map_eq_some_iff.mp hg
    obtain ⟨rfl, rfl⟩ := Prod.mk.inj heq
    exact ⟨hm, sm, hsm, rfl⟩
  · rintro ⟨hm, sm, hsm, rfl⟩
    exact ⟨m, hm, by rw [hsm]; rfl⟩

/-- **The disposition is the verdict of the replica.** -/
theorem disposition_eq_verdict {sm : StateMeta} (hadm : admits p l r = true)
    (hstate : stateType r.header.type = true) (hnew : metaOf (messageOf r) = some sm)
    (hold : ∀ old ∈ p.cache.lookup (streamKey (messageOf r)), (metaOf old).isSome = true) :
    disposition p l r =
      match verdict ((held p (streamKey (messageOf r))).map Prod.fst) (updateOf sm) with
      | .gap => .gap ⟨r.header.type, sm.sourceId, sm.resourceId⟩
      | .old => .old
      | .stored => .stored := by
  rw [disposition_of_state hadm hstate]
  unfold held heldOf cacheDisposition
  cases hc : p.cache.lookup (streamKey (messageOf r)) with
  | none => rfl
  | some old =>
    obtain ⟨oldMeta, hom⟩ := Option.isSome_iff_exists.mp (hold old hc)
    dsimp only
    rw [hom, hnew, Option.bind_some, hom]
    rfl

/-- **A stream's cache entry is offered the records of the stream.** -/
theorem held_ingest_of_key {sm : StateMeta} (hadm : admits p l r = true)
    (hstate : stateType r.header.type = true) (hnew : metaOf (messageOf r) = some sm)
    (hold : ∀ old ∈ p.cache.lookup (streamKey (messageOf r)), (metaOf old).isSome = true) :
    held (p.ingest l r nowMs).2 (streamKey (messageOf r)) =
      offer (held p (streamKey (messageOf r))) (updateOf sm) (messageOf r) := by
  have hd := disposition_eq_verdict hadm hstate hnew hold
  have hlook := lookup_cache_ingest p l r nowMs (streamKey (messageOf r))
  by_cases hv : verdict ((held p (streamKey (messageOf r))).map Prod.fst) (updateOf sm) = .stored
  · rw [hv] at hd
    rw [if_pos ⟨hd, rfl⟩] at hlook
    rw [offer_of_stored hv]
    exact held_eq_some_iff.mpr ⟨hlook, sm, hnew, rfl⟩
  · have hne : disposition p l r ≠ .stored := by
      rw [hd]
      cases hverdict : verdict ((held p (streamKey (messageOf r))).map Prod.fst) (updateOf sm)
      · exact absurd hverdict hv
      · simp
      · simp
    rw [if_neg fun hs => hne hs.1] at hlook
    rw [offer_of_ne_stored hv]
    unfold held
    rw [hlook]

theorem held_proxyStep_of_ne_key {κ : UInt64} {op : ProxyOp}
    (h : ∀ l r nowMs, op = .ingest l r nowMs → disposition p l r = .stored →
      κ ≠ streamKey (messageOf r)) : held (proxyStep p op) κ = held p κ := by
  rcases lookup_cache_proxyStep p op κ with heq | ⟨l, r, nowMs, hop, hs, hκ, -⟩
  · unfold held
    rw [heq]
  · exact absurd hκ (h l r nowMs hop hs)

/-! ### The records of `messaging_advanced_test.cpp` -/

/-- A session with these ids. -/
def testSession (localId peerId : UInt16) : Session :=
  { keys := ⟨⟨9, 1⟩, localId, peerId, List.Vector.replicate 16 3, List.Vector.replicate 16 4⟩ }

/-- The header of `make_position`, for any source. -/
def positionHeader (source : UInt16) : RecordHeader where
  type := .position
  qos := .stateLatest
  sourceId := source
  destinationId := 1
  sessionId := 9
  epoch := 1

/-- `make_position`, for any header source and any meta. -/
def makePosition (source : UInt16) (m : StateMeta) : OpenRecord where
  header := positionHeader source
  payload := ⟨stateBytes .position ⟨m, 473977400, 85455900, 500000⟩ ++ List.replicate 740 0, by
    rw [List.length_append, length_stateBytes, List.length_replicate, Kind.bytes]⟩
  length := kPositionBytes

end NewMavlink.Proxy.Ingest
