import NewMavlink.Proxy.Ingest

/-! # The cache over whole runs

What `ingest` promises of cached state, in every run of a proxy.

* `cacheInv_run`, `cache_only_advances`: an entry is a state message under its own key, never
  disappears, and is only replaced by a newer message of its stream that is a snapshot or based on
  it.
* `stale_ignored_iff`: a record that is not newer than the cached message is ignored, unless it is a
  difference from another generation. The code compares the base before it looks at the generation,
  so a difference that arrives twice counts as a gap (`stale_not_ignored`).
* `delta_enters_iff`: a difference enters the proxy only on top of its base, unless nothing of its
  stream is cached. The code compares the base only with a cached message, so the first record of a
  stream enters whatever its base (`delta_enters_without_base`).
* `gap_leaves_request_iff`: a gap leaves a request for its stream if there is room for one. -/

namespace NewMavlink.Proxy.Cache

open NewMavlink.Lib.Buffer NewMavlink.Lib.Tables NewMavlink.Lib.Runs
open NewMavlink.Wire NewMavlink.State.Messages NewMavlink.Record.SealOpen
open NewMavlink.Proxy.Queue hiding streamKey
open NewMavlink.Proxy.Links NewMavlink.Proxy.Links.NativeProxy NewMavlink.Proxy.Ingest

variable {p : NativeProxy} {l : UInt16} {r : OpenRecord} {nowMs : UInt64}

/-! ### The entries -/

/-- Every entry is a state message under its own key, and a `Position` decodes. -/
def CacheInv (p : NativeProxy) : Prop :=
  ∀ κ m, p.cache.lookup κ = some m → stateType m.header.type = true ∧ streamKey m = κ ∧
    (m.header.type = .position → (decodePosition (.data m.bytes)).isSome = true)

/-- A message may take the place of a cached one: it is a newer one of the same stream, and a
snapshot or based on it. -/
def Supersedes (m' m : NativeMessage) : Prop :=
  streamKey m' = streamKey m ∧ ∃ oldMeta newMeta, metaOf m = some oldMeta ∧
    metaOf m' = some newMeta ∧ oldMeta.generation < newMeta.generation ∧
    (newMeta.snapshot ≠ 0 ∨ newMeta.baseGeneration = oldMeta.generation)

/-- No entry disappears, and each is kept or superseded. -/
def CacheAdvances (p p' : NativeProxy) : Prop :=
  ∀ κ m, p.cache.lookup κ = some m →
    ∃ m', p'.cache.lookup κ = some m' ∧ (m' = m ∨ Supersedes m' m)

theorem cacheInv_proxyStep (p : NativeProxy) (op : ProxyOp) (h : CacheInv p) :
    CacheInv (proxyStep p op) := by
  intro κ m hm
  rcases lookup_cache_proxyStep p op κ with heq | ⟨l, r, nowMs, -, hs, hκ, hnew⟩
  · exact h κ m (heq ▸ hm)
  · obtain rfl : messageOf r = m := Option.some.inj (hnew.symm.trans hm)
    obtain ⟨hadm, hstate⟩ := admits_of_stored hs
    exact ⟨hstate, hκ.symm, decodePosition_of_admits hadm⟩

theorem cacheAdvances_proxyStep (p : NativeProxy) (op : ProxyOp) (h : CacheInv p) :
    CacheAdvances p (proxyStep p op) := by
  intro κ m hm
  rcases lookup_cache_proxyStep p op κ with heq | ⟨l, r, nowMs, -, hs, hκ, hnew⟩
  · exact ⟨m, heq.trans hm, Or.inl rfl⟩
  · refine ⟨messageOf r, hnew, Or.inr ⟨?_, stored_over hs (hκ ▸ hm)⟩⟩
    rw [(h κ m hm).2.1, hκ]

theorem cacheInv_init (c : ℕ) : CacheInv (init c) := by
  intro κ m hm
  cases hm

theorem cacheInv_run (c : ℕ) (ops : List ProxyOp) : CacheInv (run proxyStep (init c) ops) :=
  run_keeps cacheInv_proxyStep ops (cacheInv_init c)

/-- **The cache only advances**, in every run. -/
theorem cache_only_advances (c : ℕ) (ops : List ProxyOp) :
    CacheInv (run proxyStep (init c) ops) ∧
      Along proxyStep (fun p op => CacheAdvances p (proxyStep p op)) (init c) ops := by
  refine ⟨cacheInv_run c ops, ?_⟩
  have hany : Along proxyStep (fun _ _ => True) (init c) ops :=
    along_of_forall (fun _ _ => trivial) _ _
  exact along_of_invariant (fun p op h _ => cacheInv_proxyStep p op h)
    (fun p op h _ => cacheAdvances_proxyStep p op h) (cacheInv_init c) hany

/-! ### Stale records -/

/-- The record is not newer than the cached message of its stream. -/
structure Stale (p : NativeProxy) (r : OpenRecord) (oldMeta newMeta : StateMeta) : Prop where
  state : stateType r.header.type = true
  decodes : metaOf (messageOf r) = some newMeta
  cached : ∃ old, p.cache.lookup (streamKey (messageOf r)) = some old ∧ metaOf old = some oldMeta
  notNewer : newMeta.generation ≤ oldMeta.generation

/-- The cache, the links with their queues and the pending requests are as they were. -/
def Ignored (p p' : NativeProxy) : Prop :=
  p'.cache = p.cache ∧ p'.links = p.links ∧ p'.resync = p.resync

theorem requestResync_ignored_iff (q : ResyncRequest) :
    Ignored p (p.requestResync q) ↔ p.queueCapacity ≤ p.resync.length := by
  unfold Ignored
  rw [cache_requestResync, links_requestResync]
  unfold requestResync
  by_cases h : p.resync.length < p.queueCapacity
  · rw [if_pos h]
    simpa using h
  · rw [if_neg h]
    simpa using h

/-- What becomes of a stale record. -/
theorem ingest_stale {oldMeta newMeta : StateMeta} (h : Stale p r oldMeta newMeta) :
    Ignored p (p.ingest l r nowMs).2 ↔ newMeta.snapshot ≠ 0 ∨
      newMeta.baseGeneration = oldMeta.generation ∨ p.queueCapacity ≤ p.resync.length ∨
      admits p l r = false := by
  obtain ⟨hstate, hnew, ⟨old, hc, hold⟩, hle⟩ := h
  rw [ingest_eq]
  by_cases hadm : admits p l r = true
  · rw [disposition_of_state hadm hstate, hc, cacheDisposition_of_meta hold hnew]
    by_cases hgap : newMeta.snapshot = 0 ∧ newMeta.baseGeneration ≠ oldMeta.generation
    · rw [if_pos hgap]
      dsimp only
      rw [requestResync_ignored_iff]
      simp [hgap.1, hgap.2, hadm]
    · rw [if_neg hgap, if_pos hle]
      have hfits : newMeta.snapshot ≠ 0 ∨ newMeta.baseGeneration = oldMeta.generation := by
        by_contra hcon
        push Not at hcon
        exact hgap hcon
      refine iff_of_true ⟨rfl, rfl, rfl⟩ ?_
      rcases hfits with hs | hb
      · exact Or.inl hs
      · exact Or.inr (Or.inl hb)
  · rw [disposition_of_not_admits hadm]
    refine iff_of_true ⟨rfl, rfl, rfl⟩ (Or.inr (Or.inr (Or.inr ?_)))
    simpa using hadm

/-- **When a stale record is ignored**, in every run: unless it is a difference from a generation
that is not the cached one, and there is room for a request. -/
theorem stale_ignored_iff (c : ℕ) (ops : List ProxyOp) :
    Along proxyStep (fun p op => ∀ l r nowMs oldMeta newMeta, op = .ingest l r nowMs →
      Stale p r oldMeta newMeta →
        (Ignored p (proxyStep p op) ↔ newMeta.snapshot ≠ 0 ∨
          newMeta.baseGeneration = oldMeta.generation ∨ p.queueCapacity ≤ p.resync.length ∨
          admits p l r = false)) (init c) ops := by
  refine along_of_forall (fun p op => ?_) _ _
  rintro l r nowMs oldMeta newMeta rfl hstale
  exact ingest_stale hstale

/-- A difference that arrives twice counts as a gap. -/
theorem stale_not_ignored : ¬ ∀ (c : ℕ) (ops : List ProxyOp) (l : UInt16) (r : OpenRecord)
    (nowMs : UInt64) (oldMeta newMeta : StateMeta),
    Stale (run proxyStep (init c) ops) r oldMeta newMeta →
      Ignored (run proxyStep (init c) ops) ((run proxyStep (init c) ops).ingest l r nowMs).2 := by
  intro h
  let delta := makePosition 2 ⟨42, 2, 1, 2, 0, 0⟩
  let ops : List ProxyOp := [.addLink 1 (testSession 1 2), .ingest 1 delta 0]
  have hstale : Stale (run proxyStep (init 4) ops) delta ⟨42, 2, 1, 2, 0, 0⟩
      ⟨42, 2, 1, 2, 0, 0⟩ :=
    ⟨by decide +kernel, by decide +kernel, Option.bind_eq_some_iff.mp (by decide +kernel),
      by decide⟩
  have hcond := (ingest_stale hstale).mp (h 4 ops 1 delta 0 _ _ hstale)
  revert hcond
  decide +kernel

/-! ### Differences without their base -/

/-- The proxy holds the generation `base` of a stream; nothing counts as generation zero. -/
def HoldsBase (p : NativeProxy) (κ : UInt64) (base : UInt32) : Prop :=
  (∃ old oldMeta, p.cache.lookup κ = some old ∧ metaOf old = some oldMeta ∧
    oldMeta.generation = base) ∨ p.cache.lookup κ = none ∧ base = 0

/-- A record has entered the cache or a queue. -/
def Entered (p p' : NativeProxy) : Prop := p'.cache ≠ p.cache ∨ p'.links ≠ p.links

theorem not_entered_of_not_stored (h : disposition p l r ≠ .stored)
    (hstate : stateType r.header.type = true) : ¬ Entered p (p.ingest l r nowMs).2 := by
  have hpassed : disposition p l r ≠ .passed := fun hpassed => by
    simp [stateType_of_passed hpassed] at hstate
  rw [ingest_eq]
  unfold Entered
  cases hd : disposition p l r with
  | stored => exact absurd hd h
  | passed => exact absurd hd hpassed
  | rejected => simp
  | gap q => simp
  | old => simp

/-- What becomes of a difference. -/
theorem ingest_delta {newMeta : StateMeta} (hstate : stateType r.header.type = true)
    (hnew : metaOf (messageOf r) = some newMeta) (hdelta : newMeta.snapshot = 0) :
    (Entered p (p.ingest l r nowMs).2 →
        HoldsBase p (streamKey (messageOf r)) newMeta.baseGeneration) ↔
      (p.cache.lookup (streamKey (messageOf r))).isSome = true ∨ newMeta.baseGeneration = 0 ∨
        admits p l r = false := by
  cases hc : p.cache.lookup (streamKey (messageOf r)) with
  | some old =>
    refine iff_of_true (fun hent => ?_) (Or.inl rfl)
    have hs : disposition p l r = .stored := by
      by_contra hs
      exact not_entered_of_not_stored hs hstate hent
    obtain ⟨oldMeta, newMeta', hold, hnew', -, hfits⟩ := stored_over hs hc
    obtain rfl : newMeta = newMeta' := Option.some.inj (hnew.symm.trans hnew')
    exact Or.inl ⟨old, oldMeta, hc, hold, (hfits.resolve_left (not_not.mpr hdelta)).symm⟩
  | none =>
    have hbase : HoldsBase p (streamKey (messageOf r)) newMeta.baseGeneration ↔
        newMeta.baseGeneration = 0 := by
      unfold HoldsBase
      rw [hc]
      simp
    rw [hbase]
    by_cases hadm : admits p l r = true
    · have hs : disposition p l r = .stored := by
        rw [disposition_of_state hadm hstate, hc]
        rfl
      have hent : Entered p (p.ingest l r nowMs).2 := by
        refine Or.inl fun heq => ?_
        have hlook := lookup_cache_ingest p l r nowMs (streamKey (messageOf r))
        rw [heq, if_pos ⟨hs, rfl⟩, hc] at hlook
        cases hlook
      simp [hent, hadm]
    · have hent : ¬ Entered p (p.ingest l r nowMs).2 :=
        not_entered_of_not_stored (by simp [disposition_of_not_admits hadm]) hstate
      have hrej : admits p l r = false := by simpa using hadm
      exact iff_of_true (fun h => absurd h hent) (Or.inr (Or.inr hrej))

/-- **When a difference enters only on top of its base**, in every run: unless nothing of its stream
is cached. -/
theorem delta_enters_iff (c : ℕ) (ops : List ProxyOp) :
    Along proxyStep (fun p op => ∀ l r nowMs newMeta, op = .ingest l r nowMs →
      stateType r.header.type = true → metaOf (messageOf r) = some newMeta →
      newMeta.snapshot = 0 →
        ((Entered p (proxyStep p op) →
            HoldsBase p (streamKey (messageOf r)) newMeta.baseGeneration) ↔
          (p.cache.lookup (streamKey (messageOf r))).isSome = true ∨
            newMeta.baseGeneration = 0 ∨ admits p l r = false)) (init c) ops := by
  refine along_of_forall (fun p op => ?_) _ _
  rintro l r nowMs newMeta rfl hstate hnew hdelta
  exact ingest_delta hstate hnew hdelta

/-- The first record of a stream enters whatever its base. -/
theorem delta_enters_without_base : ¬ ∀ (c : ℕ) (ops : List ProxyOp) (l : UInt16)
    (r : OpenRecord) (nowMs : UInt64) (newMeta : StateMeta), stateType r.header.type = true →
    metaOf (messageOf r) = some newMeta → newMeta.snapshot = 0 →
      Entered (run proxyStep (init c) ops) ((run proxyStep (init c) ops).ingest l r nowMs).2 →
        HoldsBase (run proxyStep (init c) ops) (streamKey (messageOf r))
          newMeta.baseGeneration := by
  intro h
  let ops : List ProxyOp := [.addLink 1 (testSession 1 2)]
  let delta := makePosition 2 ⟨42, 5, 4, 2, 0, 0⟩
  have hnew : metaOf (messageOf delta) = some ⟨42, 5, 4, 2, 0, 0⟩ := by decide +kernel
  have hcond := (ingest_delta (by decide +kernel) hnew rfl).mp
    (h 4 ops 1 delta 0 _ (by decide +kernel) hnew rfl)
  revert hcond
  decide +kernel

/-! ### Resync requests -/

/-- `ingest` finds that a difference is not based on the cached message of its stream. -/
structure BaseMismatch (p : NativeProxy) (l : UInt16) (r : OpenRecord)
    (oldMeta newMeta : StateMeta) : Prop where
  admitted : admits p l r = true
  state : stateType r.header.type = true
  cached : ∃ old, p.cache.lookup (streamKey (messageOf r)) = some old ∧ metaOf old = some oldMeta
  decodes : metaOf (messageOf r) = some newMeta
  delta : newMeta.snapshot = 0
  differs : newMeta.baseGeneration ≠ oldMeta.generation

/-- The request that names the stream of a record. -/
def requestFor (r : OpenRecord) (newMeta : StateMeta) : ResyncRequest :=
  ⟨r.header.type, newMeta.sourceId, newMeta.resourceId⟩

theorem BaseMismatch.disposition_eq {oldMeta newMeta : StateMeta}
    (h : BaseMismatch p l r oldMeta newMeta) :
    disposition p l r = .gap (requestFor r newMeta) := by
  obtain ⟨hadm, hstate, ⟨old, hc, hold⟩, hnew, hdelta, hne⟩ := h
  exact disposition_eq_gap_iff.mpr
    ⟨hadm, hstate, old, oldMeta, newMeta, hc, hold, hnew, hdelta, hne, rfl⟩

/-- What a gap leaves behind. -/
theorem ingest_gap {oldMeta newMeta : StateMeta} (h : BaseMismatch p l r oldMeta newMeta) :
    (p.ingest l r nowMs).1 = false ∧
      (requestFor r newMeta ∈ (p.ingest l r nowMs).2.resync ↔
        requestFor r newMeta ∈ p.resync ∨ p.resync.length < p.queueCapacity) := by
  rw [ingest_eq, h.disposition_eq]
  refine ⟨rfl, ?_⟩
  dsimp only
  unfold requestResync
  by_cases hroom : p.resync.length < p.queueCapacity
  · rw [if_pos hroom]
    simp [hroom]
  · rw [if_neg hroom]
    simp [hroom]

/-- **When a gap leaves a request for its stream**, in every run: if one is pending already or there
is room for one. -/
theorem gap_leaves_request_iff (c : ℕ) (ops : List ProxyOp) :
    Along proxyStep (fun p op => ∀ l r nowMs oldMeta newMeta, op = .ingest l r nowMs →
      BaseMismatch p l r oldMeta newMeta →
        (p.ingest l r nowMs).1 = false ∧
          (requestFor r newMeta ∈ (proxyStep p op).resync ↔
            requestFor r newMeta ∈ p.resync ∨ p.resync.length < p.queueCapacity))
      (init c) ops := by
  refine along_of_forall (fun p op => ?_) _ _
  rintro l r nowMs oldMeta newMeta rfl hgap
  exact ingest_gap hgap

/-- The requests are bounded: a gap on one stream can find the place taken by another. -/
theorem gap_leaves_no_request : ¬ ∀ (c : ℕ) (ops : List ProxyOp) (l : UInt16) (r : OpenRecord)
    (nowMs : UInt64) (oldMeta newMeta : StateMeta), 1 ≤ c →
    BaseMismatch (run proxyStep (init c) ops) l r oldMeta newMeta →
      requestFor r newMeta ∈ ((run proxyStep (init c) ops).ingest l r nowMs).2.resync := by
  intro h
  let first : List ProxyOp := [.addLink 1 (testSession 1 2),
    .ingest 1 (makePosition 2 ⟨42, 1, 0, 2, 1, 0⟩) 0,
    .ingest 1 (makePosition 2 ⟨43, 1, 0, 2, 1, 0⟩) 0]
  let early := makePosition 2 ⟨42, 4, 3, 2, 0, 0⟩
  let late := makePosition 2 ⟨43, 4, 3, 2, 0, 0⟩
  have hearly : BaseMismatch (run proxyStep (init 1) first) 1 early ⟨42, 1, 0, 2, 1, 0⟩
      ⟨42, 4, 3, 2, 0, 0⟩ :=
    ⟨by decide +kernel, by decide +kernel, Option.bind_eq_some_iff.mp (by decide +kernel),
      by decide +kernel, rfl, by decide⟩
  -- the first gap takes the only place
  have hrun : run proxyStep (init 1) (first ++ [.ingest 1 early 0]) =
      (run proxyStep (init 1) first).requestResync (requestFor early ⟨42, 4, 3, 2, 0, 0⟩) := by
    rw [run_append]
    show ((run proxyStep (init 1) first).ingest 1 early 0).2 = _
    rw [ingest_eq, hearly.disposition_eq]
  have hresync : (run proxyStep (init 1) first).resync = [] := by decide +kernel
  have hcapacity : (run proxyStep (init 1) first).queueCapacity = 1 := by decide +kernel
  have hlate : BaseMismatch (run proxyStep (init 1) (first ++ [.ingest 1 early 0])) 1 late
      ⟨43, 1, 0, 2, 1, 0⟩ ⟨43, 4, 3, 2, 0, 0⟩ := by
    rw [hrun]
    refine ⟨?_, by decide +kernel, ?_, by decide +kernel, rfl, by decide⟩
    · rw [admits_requestResync]
      decide +kernel
    · rw [cache_requestResync]
      exact Option.bind_eq_some_iff.mp (by decide +kernel)
  have hmem := (ingest_gap hlate).2.mp (h 1 _ 1 late 0 _ _ le_rfl hlate)
  rw [hrun] at hmem
  unfold requestResync at hmem
  rw [hresync, hcapacity, if_pos (by decide)] at hmem
  revert hmem
  decide +kernel

end NewMavlink.Proxy.Cache
