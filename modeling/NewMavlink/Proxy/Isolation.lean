import NewMavlink.Proxy.Ingest

/-! # Isolation of the peers

What one peer sends must not touch what another peer has sent. A link is authenticated by the source
in the header of a record; the stream that a state record belongs to is named by the source in its
payload, which `ingest` does not compare with the header.

* `sameOn_run`: two proxies with the same links that agree under some keys of the cache go on to
  agree under them, whatever the same operations do to the rest.
* `isolated_iff`: an ingest leaves the other peer alone, now and later, exactly if it does not store
  a record that names its stream in its payload.
* `not_isolated`: one peer takes over a stream of another. -/

namespace NewMavlink.Proxy.Isolation

open NewMavlink.Lib.Tables NewMavlink.Lib.Runs
open NewMavlink.Wire NewMavlink.State.Messages NewMavlink.Record.SealOpen
open NewMavlink.Proxy.Queue hiding streamKey
open NewMavlink.Proxy.Links NewMavlink.Proxy.Links.NativeProxy NewMavlink.Proxy.Ingest

variable {p p' : NativeProxy} {l : UInt16} {r : OpenRecord} {nowMs : UInt64}

/-! ### The same links -/

/-- The same links, each with the same session. -/
structure SameLinks (t t' : Table UInt16 LinkState) : Prop where
  number : count t = count t'
  session : ∀ l, (t.lookup l).map LinkState.session = (t'.lookup l).map LinkState.session

namespace SameLinks

variable {t t' t'' : Table UInt16 LinkState} {link link' : LinkState}

theorem refl (t : Table UInt16 LinkState) : SameLinks t t := ⟨rfl, fun _ => rfl⟩

theorem symm (h : SameLinks t t') : SameLinks t' t :=
  ⟨h.number.symm, fun l => (h.session l).symm⟩

theorem trans (h : SameLinks t t') (h' : SameLinks t' t'') : SameLinks t t'' :=
  ⟨h.number.trans h'.number, fun l => (h.session l).trans (h'.session l)⟩

theorem isSome_eq (h : SameLinks t t') (l : UInt16) :
    (t.lookup l).isSome = (t'.lookup l).isSome := by
  have hs := congrArg Option.isSome (h.session l)
  rwa [Option.isSome_map, Option.isSome_map] at hs

theorem mem_iff (h : SameLinks t t') (l : UInt16) : l ∈ t ↔ l ∈ t' := by
  rw [← AList.lookup_isSome, ← AList.lookup_isSome, h.isSome_eq]

theorem insert_self (hl : t.lookup l = some link) (hs : link'.session = link.session) :
    SameLinks t (t.insert l link') := by
  have hmem : l ∈ t := AList.lookup_isSome.mp (by rw [hl]; rfl)
  refine ⟨(count_insert_of_mem hmem).symm, fun k => ?_⟩
  rw [lookup_insert_eq]
  by_cases hk : k = l
  · subst hk
    rw [if_pos rfl, hl, Option.map_some, Option.map_some, hs]
  · rw [if_neg hk]

theorem insert (h : SameLinks t t') (hs : link.session = link'.session) :
    SameLinks (t.insert l link) (t'.insert l link') := by
  refine ⟨?_, fun k => ?_⟩
  · by_cases hmem : l ∈ t
    · rw [count_insert_of_mem hmem, count_insert_of_mem ((h.mem_iff l).mp hmem), h.number]
    · have hmem' : l ∉ t' := fun h' => hmem ((h.mem_iff l).mpr h')
      rw [count_insert_of_notMem hmem, count_insert_of_notMem hmem', h.number]
  · rw [lookup_insert_eq, lookup_insert_eq]
    by_cases hk : k = l
    · rw [if_pos hk, if_pos hk, Option.map_some, Option.map_some, hs]
    · rw [if_neg hk, if_neg hk]
      exact h.session k

theorem erase (h : SameLinks t t') (l : UInt16) : SameLinks (t.erase l) (t'.erase l) := by
  refine ⟨?_, fun k => ?_⟩
  · by_cases hmem : l ∈ t
    · have hcount := count_erase hmem
      have hcount' := count_erase ((h.mem_iff l).mp hmem)
      have hnum := h.number
      omega
    · rw [count_erase_of_notMem hmem, count_erase_of_notMem (fun h' => hmem ((h.mem_iff l).mpr h')),
        h.number]
  · rw [lookup_erase_eq, lookup_erase_eq]
    by_cases hk : k = l
    · rw [if_pos hk, if_pos hk]
    · rw [if_neg hk, if_neg hk]
      exact h.session k

theorem mapValues {f : UInt16 → LinkState → LinkState}
    (hf : ∀ l link, (f l link).session = link.session) (t : Table UInt16 LinkState) :
    SameLinks t (mapValues f t) := by
  refine ⟨(count_mapValues f t).symm, fun k => ?_⟩
  rw [lookup_mapValues]
  cases t.lookup k with
  | none => rfl
  | some link => rw [Option.map_some, Option.map_some, Option.map_some, hf]

end SameLinks

theorem admits_congr (h : SameLinks p.links p'.links) (l : UInt16) (r : OpenRecord) :
    admits p l r = admits p' l r := by
  have hs := h.session l
  unfold admits
  cases hl : p.links.lookup l <;> cases hl' : p'.links.lookup l <;>
    simp only [hl, hl', Option.map_none, Option.map_some, Option.some.injEq, reduceCtorEq] at hs ⊢
  rw [hs]

theorem sameLinks_ingest (p : NativeProxy) (l : UInt16) (r : OpenRecord) (nowMs : UInt64) :
    SameLinks p.links (p.ingest l r nowMs).2.links := by
  rcases links_ingest p l r nowMs with hkept | ⟨-, hforward⟩
  · rw [hkept]
    exact SameLinks.refl _
  · rw [hforward]
    exact SameLinks.mapValues (fun _ _ => session_forwardTo) p.links

theorem sameLinks_subscribe (p : NativeProxy) (visit : Visit NativeMessage) (linkId : UInt16)
    (sub : Subscription) : SameLinks p.links (p.subscribe visit linkId sub).2.links := by
  unfold subscribe
  cases hl : p.links.lookup linkId with
  | none => exact SameLinks.refl _
  | some link =>
    dsimp only
    split_ifs
    · exact SameLinks.refl _
    · exact SameLinks.refl _
    · exact SameLinks.insert_self hl rfl

theorem sameLinks_unsubscribe (p : NativeProxy) (linkId : UInt16) (type : MessageType) :
    SameLinks p.links (p.unsubscribe linkId type).2.links := by
  unfold unsubscribe
  cases hl : p.links.lookup linkId with
  | none => exact SameLinks.refl _
  | some link => exact SameLinks.insert_self hl rfl

theorem sameLinks_next (p : NativeProxy) (linkId : UInt16) (nowMs : UInt64) :
    SameLinks p.links (p.next linkId nowMs).2.links := by
  unfold next
  cases hl : p.links.lookup linkId with
  | none => exact SameLinks.refl _
  | some link => exact SameLinks.insert_self hl rfl

theorem sameLinks_nextResync (p : NativeProxy) : SameLinks p.links p.nextResync.2.links := by
  unfold nextResync
  cases p.resync with
  | nil => exact SameLinks.refl _
  | cons request rest => exact SameLinks.refl _

theorem sameLinks_proxyStep (op : ProxyOp) (h : SameLinks p.links p'.links) :
    SameLinks (proxyStep p op).links (proxyStep p' op).links := by
  -- what an operation does to one proxy only keeps its links
  have hkeep : ∀ {t t'}, SameLinks p.links t → SameLinks p'.links t' → SameLinks t t' :=
    fun ht ht' => (ht.symm.trans h).trans ht'
  cases op with
  | addLink linkId session =>
    simp only [proxyStep, addLink, ← h.number, ← h.isSome_eq]
    split_ifs
    · exact h
    · exact h.insert rfl
  | removeLink linkId => exact h.erase linkId
  | subscribe visit linkId sub =>
    exact hkeep (sameLinks_subscribe p visit linkId sub) (sameLinks_subscribe p' visit linkId sub)
  | unsubscribe linkId type =>
    exact hkeep (sameLinks_unsubscribe p linkId type) (sameLinks_unsubscribe p' linkId type)
  | ingest l r nowMs => exact hkeep (sameLinks_ingest p l r nowMs) (sameLinks_ingest p' l r nowMs)
  | next linkId nowMs =>
    exact hkeep (sameLinks_next p linkId nowMs) (sameLinks_next p' linkId nowMs)
  | nextResync => exact hkeep (sameLinks_nextResync p) (sameLinks_nextResync p')
  | owner linkId session =>
    simp only [proxyStep, changeSession]
    have hs := h.isSome_eq linkId
    cases hl : p.links.lookup linkId <;> cases hl' : p'.links.lookup linkId <;>
      simp only [hl, hl', Option.isSome_none, Option.isSome_some, reduceCtorEq] at hs ⊢
    · exact h
    · exact h.insert rfl

/-! ### The same cache entries -/

/-- The proxies have the same links and the same cache entries under the keys `K`. -/
structure SameOn (K : Set UInt64) (p p' : NativeProxy) : Prop where
  links : SameLinks p.links p'.links
  entries : ∀ κ ∈ K, p.cache.lookup κ = p'.cache.lookup κ

variable {K : Set UInt64}

theorem SameOn.disposition_eq (h : SameOn K p p') (l : UInt16)
    (hr : streamKey (messageOf r) ∈ K) : disposition p l r = disposition p' l r := by
  unfold disposition
  rw [admits_congr h.links, h.entries _ hr]

/-- The same operation leaves the same entries: a record meets only the entry that it may change. -/
theorem SameOn.proxyStep (op : ProxyOp) (h : SameOn K p p') :
    SameOn K (proxyStep p op) (proxyStep p' op) := by
  refine ⟨sameLinks_proxyStep op h.links, fun κ hκ => ?_⟩
  by_cases hop : ∃ l r nowMs, op = .ingest l r nowMs
  · obtain ⟨l, r, nowMs, rfl⟩ := hop
    have hlook := lookup_cache_ingest p l r nowMs κ
    have hlook' := lookup_cache_ingest p' l r nowMs κ
    refine hlook.trans (Eq.trans ?_ hlook'.symm)
    by_cases hkey : κ = streamKey (messageOf r)
    · rw [h.disposition_eq l (hkey ▸ hκ), h.entries κ hκ]
    · rw [if_neg fun h => hkey h.2, if_neg fun h => hkey h.2, h.entries κ hκ]
  · push Not at hop
    rw [cache_proxyStep hop, cache_proxyStep hop]
    exact h.entries κ hκ

/-- **Two proxies go on to agree** under the keys, whatever the same operations do to the rest. -/
theorem sameOn_run (ops : List ProxyOp) (h : SameOn K p p') :
    SameOn K (run Links.proxyStep p ops) (run Links.proxyStep p' ops) :=
  run_rel (fun _ _ op h => h.proxyStep op) ops h

/-! ### Isolation -/

/-- An ingest leaves another peer alone: the cached messages that came from it stay, and what a
later record meets that it sends, or that is of a stream of its, in any run, is as if the ingest
had not been. -/
def Isolated (p : NativeProxy) (l : UInt16) (r : OpenRecord) (nowMs : UInt64) (other : UInt16) :
    Prop :=
  (∀ κ m, p.cache.lookup κ = some m → m.header.sourceId = other →
    (p.ingest l r nowMs).2.cache.lookup κ = some m) ∧
  ∀ (later : List ProxyOp) (l' : UInt16) (r' : OpenRecord),
    r'.header.sourceId = other ∨ streamSource (messageOf r') = other →
      disposition (run proxyStep (p.ingest l r nowMs).2 later) l' r' =
        disposition (run proxyStep p later) l' r'

/-- The record is stored, and its stream is named by its payload: any peer may name it. -/
def Interferes (p : NativeProxy) (l : UInt16) (r : OpenRecord) : Prop :=
  disposition p l r = .stored ∧ metaOf (messageOf r) ≠ none

/-- Without a meta, a record that is stored is the first of its stream. -/
theorem lookup_of_no_meta (hs : disposition p l r = .stored) (hmeta : metaOf (messageOf r) = none) :
    p.cache.lookup (streamKey (messageOf r)) = none := by
  cases hc : p.cache.lookup (streamKey (messageOf r)) with
  | none => rfl
  | some old =>
    obtain ⟨_, _, -, hnew, -⟩ := stored_over hs hc
    rw [hmeta] at hnew
    cases hnew

theorem source_of_no_meta {m m' : NativeMessage} (hmeta : metaOf m = none)
    (hkey : streamKey m' = streamKey m) : streamSource m' = m.header.sourceId ∧
      m'.header.sourceId = m.header.sourceId := by
  obtain ⟨-, hsource, hresource⟩ := streamKey_eq_iff.mp hkey
  have hzero := streamResource_eq_zero_iff.mpr hmeta
  have hmeta' := streamResource_eq_zero_iff.mp (hresource.trans hzero)
  have hstream := hsource.trans (stream_of_no_meta hmeta).1
  exact ⟨hstream, (stream_of_no_meta hmeta').1.symm.trans hstream⟩

/-- **What does not interfere** leaves every peer alone but the one that has sent it. -/
theorem isolated_of_not_interferes {other : UInt16}
    (hsent : disposition p l r = .stored → r.header.sourceId ≠ other) (h : ¬ Interferes p l r) :
    Isolated p l r nowMs other := by
  by_cases hs : disposition p l r = .stored
  · have hmeta : metaOf (messageOf r) = none := not_not.mp fun hne => h ⟨hs, hne⟩
    have hfirst := lookup_of_no_meta hs hmeta
    constructor
    · intro κ m hm _
      rw [lookup_cache_ingest, if_neg, hm]
      rintro ⟨-, rfl⟩
      rw [hfirst] at hm
      cases hm
    · intro later l' r' hr'
      have hsame : SameOn {κ | κ ≠ streamKey (messageOf r)} (p.ingest l r nowMs).2 p := by
        refine ⟨(sameLinks_ingest p l r nowMs).symm, fun κ hκ => ?_⟩
        rw [lookup_cache_ingest, if_neg fun hkey => hκ hkey.2]
      refine (sameOn_run later hsame).disposition_eq l' fun hkey => hsent hs ?_
      obtain ⟨hstream, hheader⟩ := source_of_no_meta hmeta hkey
      rcases hr' with hr' | hr'
      · exact hheader.symm.trans hr'
      · exact hstream.symm.trans hr'
  · have hkept : ∀ κ, (p.ingest l r nowMs).2.cache.lookup κ = p.cache.lookup κ := fun κ => by
      rw [lookup_cache_ingest, if_neg fun hkey => hs hkey.1]
    refine ⟨fun κ m hm _ => (hkept κ).trans hm, fun later l' r' _ => ?_⟩
    have hsame : SameOn Set.univ (p.ingest l r nowMs).2 p :=
      ⟨(sameLinks_ingest p l r nowMs).symm, fun κ _ => hkept κ⟩
    exact (sameOn_run later hsame).disposition_eq l' (Set.mem_univ _)

/-- The record, sent by the peer of another link. -/
def sentBy (link : LinkState) (r : OpenRecord) : OpenRecord :=
  { r with header := { r.header with
      sourceId := link.session.keys.peerId
      destinationId := link.session.keys.localId } }

/-- The other peer sends the record that was stored: it meets itself in the cache. -/
theorem disposition_sentBy (nowMs : UInt64) {link : LinkState} {l' : UInt16}
    (h : Interferes p l r) (hl' : p.links.lookup l' = some link) :
    disposition p l' (sentBy link r) = .stored ∧
      disposition (p.ingest l r nowMs).2 l' (sentBy link r) ≠ .stored := by
  obtain ⟨hs, hmeta⟩ := h
  obtain ⟨sm, hsm⟩ := Option.ne_none_iff_exists'.mp hmeta
  obtain ⟨hadm, hstate⟩ := admits_of_stored hs
  obtain ⟨-, -, hlen, hknown, -, -, hpos⟩ := admits_eq_true_iff.mp hadm
  have hadm' : admits p l' (sentBy link r) = true :=
    admits_eq_true_iff.mpr ⟨link, hl', hlen, hknown, rfl, rfl, hpos⟩
  have hsm' : metaOf (messageOf (sentBy link r)) = some sm := hsm
  have hkey : streamKey (messageOf (sentBy link r)) = streamKey (messageOf r) := by
    unfold streamKey streamSource streamResource
    rw [hsm', hsm]
    rfl
  constructor
  · rw [disposition_of_state hadm hstate] at hs
    rw [disposition_of_state hadm' hstate, hkey]
    cases hc : p.cache.lookup (streamKey (messageOf r)) with
    | none => rfl
    | some old =>
      rw [hc] at hs
      obtain ⟨oldMeta, -, hold, -⟩ := metas_of_cacheDisposition (by rw [hs]; simp)
      rw [cacheDisposition_eq_stored_iff hold hsm] at hs
      exact (cacheDisposition_eq_stored_iff hold hsm').mpr hs
  · have hadm'' : admits (p.ingest l r nowMs).2 l' (sentBy link r) = true := by
      rw [← admits_congr (sameLinks_ingest p l r nowMs), hadm']
    rw [disposition_of_state hadm'' hstate, hkey, lookup_cache_ingest, if_pos ⟨hs, rfl⟩,
      cacheDisposition_of_meta hsm hsm']
    split_ifs
    · simp
    · simp
    · exact absurd (UInt32.le_refl _) ‹_›

/-- **When an ingest leaves the other peer alone**: exactly if it does not interfere. -/
theorem isolated_iff_not_interferes {l' : UInt16} {link link' : LinkState}
    (hl : p.links.lookup l = some link) (hl' : p.links.lookup l' = some link')
    (hne : link.session.keys.peerId ≠ link'.session.keys.peerId) :
    Isolated p l r nowMs link'.session.keys.peerId ↔ ¬ Interferes p l r := by
  constructor
  · intro h hinterferes
    obtain ⟨hbefore, hafter⟩ := disposition_sentBy nowMs hinterferes hl'
    have heq := h.2 [] l' (sentBy link' r) (Or.inl rfl)
    rw [run_nil, run_nil, hbefore] at heq
    exact hafter heq
  · refine isolated_of_not_interferes fun hs => ?_
    obtain ⟨link₁, hl₁, -, -, hsource, -⟩ := admits_eq_true_iff.mp (admits_of_stored hs).1
    obtain rfl : link = link₁ := Option.some.inj (hl.symm.trans hl₁)
    exact hsource ▸ hne

/-- **When the peers are isolated**, in every run: an ingest leaves the peer of another link alone,
exactly if it does not store a record that names its stream in its payload. -/
theorem isolated_iff (c : ℕ) (ops : List ProxyOp) :
    Along proxyStep (fun p op => ∀ l r nowMs l' link link', op = .ingest l r nowMs →
      p.links.lookup l = some link → p.links.lookup l' = some link' →
      link.session.keys.peerId ≠ link'.session.keys.peerId →
        (Isolated p l r nowMs link'.session.keys.peerId ↔ ¬ Interferes p l r)) (init c) ops := by
  refine along_of_forall (fun p op => ?_) _ _
  rintro l r nowMs l' link link' - hl hl' hne
  exact isolated_iff_not_interferes hl hl' hne

/-- One peer takes over a stream of another. -/
theorem not_isolated : ¬ ∀ (c : ℕ) (ops : List ProxyOp) (l : UInt16) (r : OpenRecord)
    (nowMs : UInt64) (l' : UInt16) (link link' : LinkState),
    (run proxyStep (init c) ops).links.lookup l = some link →
    (run proxyStep (init c) ops).links.lookup l' = some link' →
    link.session.keys.peerId ≠ link'.session.keys.peerId →
      Isolated (run proxyStep (init c) ops) l r nowMs link'.session.keys.peerId := by
  intro h
  let ops : List ProxyOp := [.addLink 1 (testSession 1 2), .addLink 2 (testSession 1 3)]
  let intruder := makePosition 2 ⟨42, 7, 0, 3, 1, 0⟩
  have hinterferes : Interferes (run proxyStep (init 4) ops) 1 intruder :=
    ⟨by decide +kernel, by decide +kernel⟩
  let link (peer : UInt16) : LinkState :=
    { session := testSession 1 peer, queue := { capacity := 4 } }
  have hl : (run proxyStep (init 4) ops).links.lookup 1 = some (link 2) := rfl
  have hl' : (run proxyStep (init 4) ops).links.lookup 2 = some (link 3) := rfl
  have hne : (link 2).session.keys.peerId ≠ (link 3).session.keys.peerId := by decide
  have hisolated := h 4 ops 1 intruder 0 2 _ _ hl hl' hne
  exact (isolated_iff_not_interferes hl hl' hne).mp hisolated hinterferes

end NewMavlink.Proxy.Isolation
