import NewMavlink.Proxy.Cache
import NewMavlink.Proxy.Limits
import NewMavlink.Proxy.Subscribers

/-! # A subscriber never goes back in time

If every state record that comes in has QoS `StateLatest`, the messages of a stream wait in the
state containers only, one for each link, and none is newer than the cached message.

* `waits_cases`: how a message of a stream comes to wait for a link.
* `streamInv_proxyStep`, `proxyInv_run`: the cached message bounds what waits.
* `never_back`: what `next` returns of a stream on one link never gets older, and gets newer as long
  as the link does not subscribe again. -/

namespace NewMavlink.Proxy.Generations

open NewMavlink.Lib.Buffer NewMavlink.Lib.Tables NewMavlink.Lib.Runs
open NewMavlink.Wire NewMavlink.State.Messages NewMavlink.Record.SealOpen
open NewMavlink.Proxy.Queue hiding streamKey
open NewMavlink.Proxy.QueueRuns
open NewMavlink.Proxy.Links NewMavlink.Proxy.Links.NativeProxy NewMavlink.Proxy.Ingest
open NewMavlink.Proxy.Cache NewMavlink.Proxy.Limits NewMavlink.Proxy.Routing
open NewMavlink.Proxy.Subscribers

variable {p : NativeProxy} {op : ProxyOp} {l : UInt16} {m x y : NativeMessage} {r : OpenRecord}
  {nowMs κ : UInt64} {c : ℕ}

/-! ### The waiting message of a stream -/

/-- The message of a stream that waits in the state container of a link. -/
def waits (p : NativeProxy) (l : UInt16) (κ : UInt64) : Option NativeMessage :=
  (p.links.lookup l).bind fun link => link.queue.state.lookup κ

theorem waits_eq_some_iff : waits p l κ = some x ↔
    ∃ link, p.links.lookup l = some link ∧ link.queue.state.lookup κ = some x :=
  Option.bind_eq_some_iff

theorem waits_of_lookup {link : LinkState} (h : p.links.lookup l = some link) :
    waits p l κ = link.queue.state.lookup κ := by
  unfold waits
  rw [h]
  rfl

theorem lookup_replay {sub : Subscription} {ms : List NativeMessage} {q : BoundedQosQueue}
    (h : QueueInv c q) (hx : (replay sub ms q).2.state.lookup κ = some x) :
    q.state.lookup κ = some x ∨ x ∈ ms ∧ x.header.type = sub.type ∧ κ = streamKey x := by
  induction ms generalizing q with
  | nil => exact Or.inl hx
  | cons y ms ih =>
    unfold replay at hx
    by_cases hy : y.header.type.code = sub.type.code ∧ y.header.sourceId = sub.sourceId
    · have hpush : (q.push y 0).2.state.lookup κ = some x → q.state.lookup κ = some x ∨
          x ∈ y :: ms ∧ x.header.type = sub.type ∧ κ = streamKey x := fun hx => by
        rcases lookup_push h y 0 κ with heq | ⟨-, hκ, hnew⟩
        · exact Or.inl (heq ▸ hx)
        · obtain rfl := Option.some.inj (hnew.symm.trans hx)
          exact Or.inr ⟨List.mem_cons_self, congrArg MessageType.mk hy.1, hκ⟩
      rw [if_pos hy] at hx
      dsimp only at hx
      split_ifs at hx
      · rcases ih (queueInv_push h y 0) hx with hx | ⟨hin, hrest⟩
        · exact hpush hx
        · exact Or.inr ⟨List.mem_cons_of_mem _ hin, hrest⟩
      · exact hpush hx
    · rw [if_neg hy] at hx
      exact (ih h hx).imp_right fun hin => ⟨List.mem_cons_of_mem _ hin.1, hin.2⟩

/-- **How a message of a stream comes to wait**: it is there already, `ingest` stores and forwards
it, or `subscribe` replays it from the cache. -/
theorem waits_cases (hq : QueuesInv c p) (h : waits (proxyStep p op) l κ = some x) :
    waits p l κ = some x ∨
      (∃ k r nowMs, op = .ingest k r nowMs ∧ disposition p k r = .stored ∧
        κ = streamKey (messageOf r) ∧ x = forwarded (messageOf r) l) ∨
      ∃ visit sub, op = .subscribe visit l sub ∧ x.header.type = sub.type ∧ κ = streamKey x ∧
        ∃ κ', p.cache.lookup κ' = some x := by
  obtain ⟨link', hl', hx⟩ := waits_eq_some_iff.mp h
  rcases link_cases hl' with ⟨session, rfl, rfl⟩ | ⟨link, hl, hstep⟩
  · cases hx
  · have hinv := hq.2 l link hl
    have hold : link.queue.state.lookup κ = some x → waits p l κ = some x :=
      (waits_of_lookup hl).trans
    cases hstep with
    | kept => exact Or.inl (hold hx)
    | subscribed visit sub hsub =>
      rcases lookup_replay hinv hx with hx | ⟨hin, htype, hκ⟩
      · exact Or.inl (hold hx)
      · exact Or.inr (Or.inr ⟨visit, sub, rfl, htype, hκ, mem_visit.mp hin⟩)
    | unsubscribed type => exact Or.inl (hold hx)
    | forwarded k r nowMs hd =>
      unfold forwardTo at hx
      split_ifs at hx
      · dsimp only at hx
        rcases lookup_push hinv (forwarded (messageOf r) l) nowMs κ with heq | ⟨hstate, hκ, hnew⟩
        · exact Or.inl (hold (heq ▸ hx))
        · obtain rfl := Option.some.inj (hnew.symm.trans hx)
          refine Or.inr (Or.inl ⟨k, r, nowMs, rfl, hd.resolve_right fun hpassed => ?_, hκ, rfl⟩)
          have hplain := stateType_of_passed hpassed
          exact Bool.false_ne_true (hplain.symm.trans (isState_eq_true_iff.mp hstate).1)
      · exact Or.inl (hold hx)
    | popped nowMs =>
      dsimp only at hx
      rcases lookup_pop link.queue nowMs κ with heq | hnone
      · exact Or.inl (hold (heq ▸ hx))
      · rw [hnone] at hx
        cases hx
    | session session => exact Or.inl (hold hx)

theorem waits_of_next (hq : QueuesInv c p) (h : (p.next l nowMs).1 = some m)
    (hstate : isState m = true) : waits p l (streamKey m) = some m ∧
      waits (proxyStep p (.next l nowMs)) l (streamKey m) = none := by
  have hnext : proxyStep p (.next l nowMs) = (p.next l nowMs).2 := rfl
  rw [hnext]
  unfold next at h ⊢
  cases hl : p.links.lookup l with
  | none => simp [hl] at h
  | some link =>
    simp only [hl] at h ⊢
    obtain ⟨hin, hout⟩ := lookup_of_pop (hq.2 l link hl) h hstate
    rw [waits_of_lookup hl, waits_of_lookup (AList.lookup_insert _)]
    exact ⟨hin, hout⟩

/-! ### The cached message bounds what waits -/

/-- The generation of a message; zero if its meta does not decode. -/
def generationOf (m : NativeMessage) : ℕ :=
  match metaOf m with
  | some sm => sm.generation.toNat
  | none => 0

theorem generationOf_of_metaOf {sm : StateMeta} (h : metaOf m = some sm) :
    generationOf m = sm.generation.toNat := by
  unfold generationOf
  rw [h]

theorem generationOf_lt (h : Supersedes y x) : generationOf x < generationOf y := by
  obtain ⟨-, oldMeta, newMeta, hold, hnew, hlt, -⟩ := h
  rw [generationOf_of_metaOf hold, generationOf_of_metaOf hnew]
  exact UInt32.lt_iff_toNat_lt.mp hlt

theorem cached_proxyStep_ge (hc : CacheInv p) (op : ProxyOp) (h : p.cache.lookup κ = some y) :
    ∃ y', (proxyStep p op).cache.lookup κ = some y' ∧ generationOf y ≤ generationOf y' := by
  obtain ⟨y', hy', hadv⟩ := cacheAdvances_proxyStep p op hc κ y h
  refine ⟨y', hy', ?_⟩
  rcases hadv with rfl | hsup
  · exact le_rfl
  · exact (generationOf_lt hsup).le

/-- A state record that the operation ingests has QoS `StateLatest`. -/
def IngestsLatest (op : ProxyOp) : Prop :=
  ∀ l r nowMs, op = .ingest l r nowMs → stateType r.header.type = true →
    r.header.qos = .stateLatest

/-- State messages have QoS `StateLatest`, and the cached message of a stream is at least as new as
the one that waits. -/
structure StreamInv (p : NativeProxy) : Prop where
  cached : ∀ κ y, p.cache.lookup κ = some y → y.header.qos = .stateLatest
  queued : ∀ l x, Queued p l x → stateType x.header.type = true → x.header.qos = .stateLatest
  bounded : ∀ l κ x, waits p l κ = some x →
    ∃ y, p.cache.lookup κ = some y ∧ generationOf x ≤ generationOf y

/-- The proxy is in order: queues, cache and streams. -/
structure ProxyInv (c : ℕ) (p : NativeProxy) : Prop where
  queues : QueuesInv c p
  cache : CacheInv p
  streams : StreamInv p

theorem streamInv_proxyStep (h : ProxyInv c p) (hop : IngestsLatest op) :
    StreamInv (proxyStep p op) := by
  obtain ⟨hq, hc, hs⟩ := h
  refine ⟨fun κ y hy => ?_, fun l x hx htype => ?_, fun l κ x hx => ?_⟩
  · rcases lookup_cache_proxyStep p op κ with heq | ⟨k, r, nowMs, rfl, hstored, -, hnew⟩
    · exact hs.cached κ y (heq ▸ hy)
    · obtain rfl := Option.some.inj (hnew.symm.trans hy)
      exact hop k r nowMs rfl (admits_of_stored hstored).2
  · rcases queued_proxyStep hx with hx | ⟨k, r, nowMs, link, rfl, -, -, -, rfl⟩ |
      ⟨visit, sub, κ, -, -, hκ, -, -⟩
    · exact hs.queued l x hx htype
    · exact hop k r nowMs rfl htype
    · exact hs.cached κ x hκ
  · rcases waits_cases hq hx with hx | ⟨k, r, nowMs, rfl, hstored, rfl, rfl⟩ |
      ⟨visit, sub, rfl, -, rfl, κ', hκ'⟩
    · obtain ⟨y, hy, hle⟩ := hs.bounded l κ x hx
      obtain ⟨y', hy', hle'⟩ := cached_proxyStep_ge hc op hy
      exact ⟨y', hy', hle.trans hle'⟩
    · have hlook := lookup_cache_ingest p k r nowMs (streamKey (messageOf r))
      rw [if_pos ⟨hstored, rfl⟩] at hlook
      exact ⟨messageOf r, hlook, le_rfl⟩
    · obtain rfl := (hc κ' x hκ').2.1
      exact cached_proxyStep_ge hc _ hκ'

theorem proxyInv_proxyStep (p : NativeProxy) (op : ProxyOp) (h : ProxyInv c p)
    (hop : IngestsLatest op) : ProxyInv c (proxyStep p op) :=
  ⟨queuesInv_proxyStep p op h.queues, cacheInv_proxyStep p op h.cache, streamInv_proxyStep h hop⟩

theorem proxyInv_init (c : ℕ) : ProxyInv c (init c) := by
  refine ⟨queuesInv_init c, cacheInv_init c, ⟨?_, ?_, ?_⟩⟩
  · intro κ y hy
    cases hy
  · intro l x hx
    exact absurd hx (not_queued_init c l x)
  · intro l κ x hx
    cases hx

theorem proxyInv_run {ops : List ProxyOp} (h : ProxyInv c p)
    (hops : ∀ op ∈ ops, IngestsLatest op) : ProxyInv c (run proxyStep p ops) := by
  induction ops generalizing p with
  | nil => exact h
  | cons op ops ih =>
    exact ih (proxyInv_proxyStep p op h (hops op List.mem_cons_self))
      fun op' hop' => hops op' (List.mem_cons_of_mem _ hop')

theorem isState_of_next (h : ProxyInv c p) (hm : (p.next l nowMs).1 = some m)
    (htype : stateType m.header.type = true) : isState m = true :=
  isState_eq_true_iff.mpr ⟨htype, h.streams.queued l m (queued_of_next hm) htype⟩

/-! ### Two messages of one stream -/

/-- A message of generation `g` has been handed out: the cached message of the stream is not older,
and the one that waits has at least generation `b`. -/
def Ahead (l : UInt16) (κ : UInt64) (g b : ℕ) (p : NativeProxy) : Prop :=
  (∃ y, p.cache.lookup κ = some y ∧ g ≤ generationOf y) ∧
    ∀ x, waits p l κ = some x → b ≤ generationOf x

theorem ahead_proxyStep {g b : ℕ} (h : ProxyInv c p) (ha : Ahead l (streamKey m) g b p)
    (hb : b ≤ g + 1) (hsub : b ≤ g ∨ ∀ visit sub, op = .subscribe visit l sub →
      sub.type ≠ m.header.type) : Ahead l (streamKey m) g b (proxyStep p op) := by
  obtain ⟨⟨y, hy, hg⟩, hwaits⟩ := ha
  constructor
  · obtain ⟨y', hy', hle⟩ := cached_proxyStep_ge h.cache op hy
    exact ⟨y', hy', hg.trans hle⟩
  · intro x hx
    rcases waits_cases h.queues hx with hx | ⟨k, r, nowMs, rfl, hstored, hκ, rfl⟩ |
      ⟨visit, sub, rfl, htype, hκ, κ', hκ'⟩
    · exact hwaits x hx
    · -- what is stored is newer than what was cached
      obtain ⟨oldMeta, newMeta, hold, hnew, hlt, -⟩ := stored_over hstored (hκ ▸ hy)
      have hgen : generationOf (forwarded (messageOf r) l) = newMeta.generation.toNat :=
        generationOf_of_metaOf hnew
      rw [generationOf_of_metaOf hold] at hg
      have hlt' := UInt32.lt_iff_toNat_lt.mp hlt
      omega
    · -- what is replayed is what was cached
      obtain rfl := (h.cache κ' x hκ').2.1
      rw [hκ] at hy
      obtain rfl := Option.some.inj (hκ'.symm.trans hy)
      refine (hsub.resolve_right fun hnot => ?_).trans hg
      have hsame := (streamKey_eq_iff.mp hκ).1
      exact hnot visit sub rfl (htype.symm.trans hsame.symm)

theorem ahead_run {g b : ℕ} {ops : List ProxyOp} (h : ProxyInv c p)
    (hops : ∀ op ∈ ops, IngestsLatest op) (ha : Ahead l (streamKey m) g b p) (hb : b ≤ g + 1)
    (hsub : b ≤ g ∨ NoSubscribe l m.header.type ops) :
    Ahead l (streamKey m) g b (run proxyStep p ops) := by
  induction ops generalizing p with
  | nil => exact ha
  | cons op ops ih =>
    refine ih (proxyInv_proxyStep p op h (hops op List.mem_cons_self))
      (fun op' hop' => hops op' (List.mem_cons_of_mem _ hop')) (ahead_proxyStep h ha hb ?_) ?_
    · refine hsub.imp_right fun hnot visit sub hop => ?_
      exact hnot visit sub (hop ▸ List.mem_cons_self)
    · exact hsub.imp_right fun hnot visit sub hmem => hnot visit sub (List.mem_cons_of_mem _ hmem)

theorem ahead_of_next (h : ProxyInv c p) (hm : (p.next l nowMs).1 = some m)
    (htype : stateType m.header.type = true) (b : ℕ) :
    Ahead l (streamKey m) (generationOf m) b (proxyStep p (.next l nowMs)) := by
  obtain ⟨hin, hout⟩ := waits_of_next h.queues hm (isState_of_next h hm htype)
  constructor
  · obtain ⟨y, hy, hle⟩ := h.streams.bounded l _ m hin
    obtain ⟨y', hy', hle'⟩ := cached_proxyStep_ge h.cache (.next l nowMs) hy
    exact ⟨y', hy', hle.trans hle'⟩
  · intro x hx
    rw [hout] at hx
    cases hx

/-- **A subscriber never goes back in time**, in every run whose state records have QoS
`StateLatest`: of two messages of a stream that `next` returns on a link, the later one is not
older, and newer unless the link has subscribed to the type in between. -/
theorem never_back (c : ℕ) (before mid : List ProxyOp) (l : UInt16) (nowMs nowMs' : UInt64)
    (m m' : NativeMessage) (sm sm' : StateMeta) (hops : ∀ op ∈ before ++ mid, IngestsLatest op)
    (hm : ((run proxyStep (init c) before).next l nowMs).1 = some m)
    (hm' : ((run proxyStep (init c) (before ++ .next l nowMs :: mid)).next l nowMs').1 = some m')
    (htype : stateType m.header.type = true) (hmeta : metaOf m = some sm)
    (hmeta' : metaOf m' = some sm') (hsame : m'.header.type = m.header.type ∧
      sm'.sourceId = sm.sourceId ∧ sm'.resourceId = sm.resourceId) :
    sm.generation ≤ sm'.generation ∧
      (NoSubscribe l m.header.type mid → sm.generation < sm'.generation) := by
  have hbefore : ProxyInv c (run proxyStep (init c) before) :=
    proxyInv_run (proxyInv_init c) fun op hop => hops op (List.mem_append_left _ hop)
  have hnext : ProxyInv c (proxyStep (run proxyStep (init c) before) (.next l nowMs)) :=
    proxyInv_proxyStep _ _ hbefore (by rintro k r t ⟨⟩)
  have hmid : ∀ op ∈ mid, IngestsLatest op := fun op hop =>
    hops op (List.mem_append_right _ hop)
  rw [run_append, run_cons] at hm'
  have hlast := proxyInv_run hnext hmid
  have htype' : stateType m'.header.type = true := by rw [hsame.1]; exact htype
  have hkey : streamKey m' = streamKey m := by
    have hkeys := packKey_eq_iff.mpr hsame
    rw [← streamKey_of_metaOf hmeta, ← streamKey_of_metaOf hmeta'] at hkeys
    exact hkeys
  have hin := (waits_of_next hlast.queues hm' (isState_of_next hlast hm' htype')).1
  rw [hkey] at hin
  have hbound : ∀ b ≤ generationOf m + 1, b ≤ generationOf m ∨ NoSubscribe l m.header.type mid →
      b ≤ generationOf m' := fun b hb hsub =>
    (ahead_run hnext hmid (ahead_of_next hbefore hm htype b) hb hsub).2 m' hin
  rw [generationOf_of_metaOf hmeta, generationOf_of_metaOf hmeta'] at hbound
  rw [UInt32.le_iff_toNat_le, UInt32.lt_iff_toNat_lt]
  exact ⟨hbound _ (Nat.le_succ _) (Or.inl le_rfl), fun hno => hbound _ le_rfl (Or.inr hno)⟩

/-- A link that subscribes again is handed the cached message again. -/
theorem never_back_again : ∃ m m' sm sm', metaOf m = some sm ∧ metaOf m' = some sm' ∧
    ((run proxyStep (init 4) [.addLink 1 (testSession 1 2), .addLink 2 (testSession 1 3),
      .subscribe .inOrder 2 { sourceId := 2 },
      .ingest 1 (makePosition 2 ⟨42, 1, 0, 2, 1, 0⟩) 0]).next 2 0).1 = some m ∧
    ((run proxyStep (init 4) ([.addLink 1 (testSession 1 2), .addLink 2 (testSession 1 3),
      .subscribe .inOrder 2 { sourceId := 2 },
      .ingest 1 (makePosition 2 ⟨42, 1, 0, 2, 1, 0⟩) 0] ++
      .next 2 0 :: [.subscribe .inOrder 2 { sourceId := 2 }])).next 2 0).1 = some m' ∧
    sm.generation ≤ sm'.generation := by
  let before : List ProxyOp := [.addLink 1 (testSession 1 2), .addLink 2 (testSession 1 3),
    .subscribe .inOrder 2 { sourceId := 2 }, .ingest 1 (makePosition 2 ⟨42, 1, 0, 2, 1, 0⟩) 0]
  let mid : List ProxyOp := [.subscribe .inOrder 2 { sourceId := 2 }]
  have hfirst : ((run proxyStep (init 4) before).next 2 0).1.map
      (fun m => (m.header.type, metaOf m)) = some (.position, some ⟨42, 1, 0, 2, 1, 0⟩) := by
    decide +kernel
  have hagain : ((run proxyStep (init 4) (before ++ .next 2 0 :: mid)).next 2 0).1.map
      (fun m => (m.header.type, metaOf m)) = some (.position, some ⟨42, 1, 0, 2, 1, 0⟩) := by
    decide +kernel
  obtain ⟨m, hm, hboth⟩ := Option.map_eq_some_iff.mp hfirst
  obtain ⟨m', hm', hboth'⟩ := Option.map_eq_some_iff.mp hagain
  obtain ⟨htype, hmeta⟩ := Prod.mk.inj hboth
  obtain ⟨htype', hmeta'⟩ := Prod.mk.inj hboth'
  have hops : ∀ op ∈ before ++ mid, IngestsLatest op := by
    intro op hop l r nowMs heq _
    subst heq
    simp only [before, mid, List.cons_append, List.nil_append, List.mem_cons, List.not_mem_nil,
      or_false, ProxyOp.ingest.injEq, reduceCtorEq, false_or] at hop
    rw [hop.2.1]
    rfl
  have hback := never_back 4 before mid 2 0 0 m m' _ _ hops hm hm' (by rw [htype]; rfl) hmeta hmeta'
    ⟨htype'.trans htype.symm, rfl, rfl⟩
  exact ⟨m, m', _, _, hmeta, hmeta', hm, hm', hback.1⟩

end NewMavlink.Proxy.Generations
