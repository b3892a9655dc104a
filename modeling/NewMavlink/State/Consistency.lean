import NewMavlink.Proxy.Convergence
import NewMavlink.State.Agreement

/-! # From the publisher to the subscribers

The runs of `Agreement`, seen from a link that subscribes: a publisher is updated and polled, its
messages get lost, duplicated, delayed and reordered, and the proxy ingests and hands out what comes
in.

* `handed_given`: every state message that `next` returns decodes to what the publisher was given at
  that generation.
* `catches_up`: after a snapshot of the current generation and enough calls of `next`, the link has
  been handed last, of the stream, the publisher's current value, whatever was lost before. -/

namespace NewMavlink.State.Consistency

open NewMavlink.Lib.Buffer NewMavlink.Lib.Tables NewMavlink.Lib.Replica NewMavlink.Lib.Runs
open NewMavlink.Wire NewMavlink.State.Messages NewMavlink.State.Publisher
open NewMavlink.State.Agreement NewMavlink.Record.SealOpen
open NewMavlink.Proxy.Queue hiding streamKey
open NewMavlink.Proxy.QueueOrder NewMavlink.Proxy.Links NewMavlink.Proxy.Links.NativeProxy
open NewMavlink.Proxy.Ingest NewMavlink.Proxy.Cache NewMavlink.Proxy.Limits
open NewMavlink.Proxy.Routing NewMavlink.Proxy.Generations NewMavlink.Proxy.DeltaChain
open NewMavlink.Proxy.Convergence

variable {s s' : System} {k : Kind} {κ : UInt64} {m : NativeMessage} {r : OpenRecord}
  {op : SystemOp} {j l : UInt16} {nowMs : UInt64}

/-- The calls of the proxy. -/
def calls : SystemOp → List ProxyOp
  | .proxy op => [op]
  | _ => []

/-- What `next` returns on the link. -/
def handedBy (l : UInt16) (s : System) (op : SystemOp) : List NativeMessage :=
  outputs proxyStep (handed l) s.proxy (calls op)

theorem proxy_systemStep (s : System) (op : SystemOp) :
    (systemStep s op).proxy = run proxyStep s.proxy (calls op) := by
  cases op <;> rfl

/-! ### What is handed out was given -/

/-- The message carries what the publisher was given at its generation. -/
def Given (s : System) (m : NativeMessage) : Prop :=
  ∃ sm, metaOf m = some sm ∧ Had s (streamKey m) sm.generation.toNat m

theorem Given.mono (h : Extends s s') (hm : Given s m) : Given s' m := by
  obtain ⟨sm, hmeta, hhad⟩ := hm
  exact ⟨sm, hmeta, hhad.mono h⟩

theorem Given.forwarded (h : Given s m) (l : UInt16) : Given s (forwarded m l) := by
  obtain ⟨sm, hmeta, hκ, k, v, hv⟩ := h
  exact ⟨sm, hmeta, hκ, k, v, hv⟩

theorem extends_run (s : System) (ops : List SystemOp) : Extends s (run systemStep s ops) := by
  have hstep : ∀ s' op, Extends s s' → Extends s (systemStep s' op) := by
    intro s' op h
    obtain ⟨hsource, hdestination, hgiven⟩ := extends_systemStep s' op
    exact ⟨hsource.trans h.1, hdestination.trans h.2.1, fun k => (h.2.2 k).trans (hgiven k)⟩
  exact run_keeps hstep ops ⟨rfl, rfl, fun k => List.prefix_rfl⟩

/-- Every state message of the stream that waits for a link was given. -/
def QueuesGiven (κ : UInt64) (s : System) : Prop :=
  ∀ l m, Queued s.proxy l m → InStream κ m → Given s m

theorem given_of_cached (hinv : Agreement.Inv κ s) (hm : s.proxy.cache.lookup κ = some m) :
    Given s m := by
  obtain ⟨sm, hmeta⟩ := Option.isSome_iff_exists.mp (hinv.decodes m hm)
  have hhad : Had s κ sm.generation.toNat m :=
    hinv.honest (sm.generation.toNat, m) (held_eq_some_iff.mpr ⟨hm, sm, hmeta, rfl⟩)
  obtain ⟨rfl, hrest⟩ := id hhad
  exact ⟨sm, hmeta, hhad⟩

/-- **Every call keeps it.** -/
theorem queuesGiven_systemStep (hinv : Agreement.Inv κ s) (hcache : CacheInv s.proxy)
    (h : QueuesGiven κ s) (hop : Faithful κ s op) : QueuesGiven κ (systemStep s op) := by
  intro l m hm hin
  have hext := extends_systemStep s op
  cases op with
  | update k value nowMs => exact (h l m hm hin).mono hext
  | poll nowMs capacity => exact (h l m hm hin).mono hext
  | proxy op =>
    rcases queued_proxyStep hm with hm | ⟨j, r, t, link, rfl, hd, -, -, rfl⟩ |
      ⟨visit, sub, κ', rfl, -, hκ', -⟩
    · exact (h l m hm hin).mono hext
    · obtain ⟨m₀, hm₀, hcarries⟩ := hop.alone j r t rfl hin.2
      obtain ⟨sm, hmeta, hhad⟩ := hcarries.had (hinv.sent m₀ hm₀)
      exact (Given.forwarded ⟨sm, hmeta, hhad⟩ l).mono hext
    · obtain rfl : κ' = κ := (hcache κ' m hκ').2.1.symm.trans hin.2
      exact (given_of_cached hinv hκ').mono hext

section Runs
variable {sourceId destinationId : UInt16} {period : UInt64} {c : ℕ}

theorem proxy_run (s : System) (ops : List SystemOp) :
    (run systemStep s ops).proxy = run proxyStep s.proxy (ops.flatMap calls) := by
  induction ops generalizing s with
  | nil => rfl
  | cons op ops ih =>
    rw [run_cons, ih, proxy_systemStep, List.flatMap_cons, run_append]

theorem handedBy_run (l : UInt16) (s : System) (ops : List SystemOp) :
    outputs systemStep (handedBy l) s ops =
      outputs proxyStep (handed l) s.proxy (ops.flatMap calls) := by
  induction ops generalizing s with
  | nil => rfl
  | cons op ops ih =>
    rw [outputs, ih, proxy_systemStep, List.flatMap_cons, outputs_append, handedBy]

/-- **What a run keeps.** -/
theorem inv_run {ops : List SystemOp}
    (h : Along systemStep (Faithful κ) (.init sourceId destinationId period c) ops) :
    let s := run systemStep (.init sourceId destinationId period c) ops
    Agreement.Inv κ s ∧ CacheInv s.proxy ∧ QueuesGiven κ s := by
  have hstep : ∀ (s : System) (op : SystemOp),
      Agreement.Inv κ s ∧ CacheInv s.proxy ∧ QueuesGiven κ s → Faithful κ s op →
      Agreement.Inv κ (systemStep s op) ∧ CacheInv (systemStep s op).proxy ∧
        QueuesGiven κ (systemStep s op) := by
    rintro s op ⟨hinv, hcache, hqueues⟩ hop
    refine ⟨inv_systemStep s op hinv hop, ?_, queuesGiven_systemStep hinv hcache hqueues hop⟩
    rw [proxy_systemStep]
    exact run_keeps cacheInv_proxyStep _ hcache
  refine run_invariant hstep ⟨inv_init κ _ _ _ _, cacheInv_init c, ?_⟩ h
  intro l m hm
  exact absurd hm (not_queued_init c l m)

/-- **Every state message that a subscriber gets was given to the publisher**, in every run in which
the publisher is alone on the stream and the generations suffice (`Faithful`), however messages are
lost, duplicated, delayed and reordered: it decodes to what the publisher was given of its type,
source and resource at the generation it carries. -/
theorem handed_given {ops : List SystemOp}
    (h : Along systemStep (Faithful κ) (.init sourceId destinationId period c) ops) (l : UInt16)
    (m : NativeMessage)
    (hm : m ∈ outputs systemStep (handedBy l) (.init sourceId destinationId period c) ops)
    (hin : InStream κ m) :
    ∃ k v, m.header.type = k.type ∧ k.decode (.data m.bytes) = some v ∧
      κ = packKey k.type (k.stateMeta v).sourceId (k.stateMeta v).resourceId ∧
      Gave (run systemStep (.init sourceId destinationId period c) ops) k v := by
  obtain ⟨before, op, after, rfl, hout⟩ := mem_outputs hm
  obtain ⟨-, -, hqueues⟩ := inv_run (along_append.mp h).1
  have hqueued :
      Queued (run systemStep (.init sourceId destinationId period c) before).proxy l m := by
    cases op with
    | proxy op =>
      rw [handedBy, calls, outputs, outputs_nil, List.append_nil] at hout
      cases op with
      | next j t =>
        obtain ⟨rfl, hret⟩ := mem_handed.mp hout
        exact queued_of_next hret
      | _ => cases hout
    | _ => cases hout
  have hgiven := hqueues l m hqueued hin
  rw [run_append]
  obtain ⟨sm, -, -, k, v, htype, hdecode, -, hgave⟩ := hgiven.mono (extends_run _ (op :: after))
  refine ⟨k, v, htype, hdecode, ?_, hgave⟩
  rw [← htype, ← hin.2]
  exact streamKey_of_metaOf (metaOf_of_decode hdecode)

theorem publisher_run (s : System) (ops : List ProxyOp) :
    (run systemStep s (ops.map .proxy)).publisher = s.publisher := by
  induction ops generalizing s with
  | nil => rfl
  | cons op ops ih => exact ih _

theorem flatMap_calls (ops : List ProxyOp) : (ops.map SystemOp.proxy).flatMap calls = ops := by
  induction ops with
  | nil => rfl
  | cons op ops ih => exact congrArg _ ih

/-- **A subscriber catches up with the publisher**, whatever was lost before: in a `Faithful` run of
two phases, first the calls by which links and subscriptions are made, then `next` and what one link
`j` publishes, after a snapshot of the current generation has come in and `c` calls of `next` on a
link `l` that follows it, with room in its queue, the link has been handed last of the stream what
decodes to the publisher's current value. -/
theorem catches_up {setup phase : List SystemOp} {clocks : List UInt64}
    (h : Along systemStep (Faithful κ) (.init sourceId destinationId period c) (setup ++ phase))
    (hsetup : ∀ op ∈ setup.flatMap calls, ∀ j r t, op ≠ .ingest j r t)
    (hphase : ∀ op ∈ phase.flatMap calls ++ [ProxyOp.ingest j r nowMs], Feeds j op)
    (hroom : Along proxyStep
      (LeavesRoom l (streams (phase.flatMap calls ++ [ProxyOp.ingest j r nowMs])).length)
      (run proxyStep (.init c) (setup.flatMap calls))
      (phase.flatMap calls ++ [ProxyOp.ingest j r nowMs]))
    (hbrings :
      Brings (run systemStep (.init sourceId destinationId period c) (setup ++ phase)) k j r)
    (hκ : streamKey (messageOf r) = κ)
    (hfollows : Follows j l k.type
      (run systemStep (.init sourceId destinationId period c) (setup ++ phase)).proxy)
    (hclocks : c ≤ clocks.length) :
    let ops := setup ++ phase ++
      (ProxyOp.ingest j r nowMs :: clocks.map (ProxyOp.next l ·)).map .proxy
    ∃ m v, (ofStream κ (outputs systemStep (handedBy l)
        (.init sourceId destinationId period c) ops)).getLast? = some m ∧
      m.header.type = k.type ∧ k.decode (.data m.bytes) = some v ∧
      SameValue k v ((run systemStep (.init sourceId destinationId period c) ops).publisher.streams
        k).value := by
  intro ops
  obtain ⟨y, v, hy, htype, hdecode, hsame⟩ :=
    recovers_of_inv (inv_run h).1 k j r nowMs hbrings hκ
  have hproxy : (run systemStep (.init sourceId destinationId period c) (setup ++ phase)).proxy =
      run proxyStep (run proxyStep (.init c) (setup.flatMap calls)) (phase.flatMap calls) := by
    rw [proxy_run, List.flatMap_append, run_append]
    rfl
  rw [hproxy] at hy hfollows
  have hcached : (run proxyStep (run proxyStep (.init c) (setup.flatMap calls))
      (phase.flatMap calls ++ [ProxyOp.ingest j r nowMs])).cache.lookup κ = some y := by
    rw [run_concat]
    exact hy
  have hstill : Follows j l y.header.type (run proxyStep
      (run proxyStep (.init c) (setup.flatMap calls))
      (phase.flatMap calls ++ [ProxyOp.ingest j r nowMs])) := by
    rw [run_concat, htype]
    exact (follows_proxyStep (hphase _ (by simp))).mpr hfollows
  obtain ⟨hblank, horder, hlast⟩ := ready_of_setup c l hsetup
  have hdone := drained_run hblank horder hphase hroom hclocks hcached hstill
  refine ⟨forwarded y l, v, ?_, htype, hdecode, ?_⟩
  · rw [← hlast] at hdone
    rw [handedBy_run, List.flatMap_append, List.flatMap_append, flatMap_calls]
    rw [List.append_assoc, List.singleton_append] at hdone
    rw [List.append_assoc]
    exact hdone
  · rw [run_append, publisher_run]
    exact hsame

end Runs

/-! ### A run -/

/-- Link 2 follows the positions of link 1. Two are published, and the first is lost. -/
def testSetup : List SystemOp :=
  [.proxy (.addLink 1 (testSession 1 2)), .proxy (.addLink 2 (testSession 1 3)),
    .proxy (.subscribe .inOrder 2 { sourceId := 2 }),
    .update .position ⟨{ resourceId := 42, sourceId := 2 }, 473977400, 85455900, 500000⟩ 0,
    .poll 0 3,
    .update .position ⟨{ resourceId := 42, sourceId := 2 }, 473977410, 85455900, 500000⟩ 3000,
    .poll 10000 3]

/-- The system at that point. -/
def testSystem : System := run systemStep (.init 2 1 0 4) testSetup

theorem faithful_testSetup (κ : UInt64) :
    Along systemStep (Faithful κ) (.init 2 1 0 4) testSetup := by
  refine ⟨?_, ?_, ?_, ?_, ?_, ?_, ?_, trivial⟩
  all_goals
    refine ⟨fun k => by cases k <;> decide +kernel, ?_⟩
    rintro l r nowMs ⟨⟩

theorem testSystem_sent : ∃ m, testSystem.sent[1]? = some m ∧ m.header.type = .position ∧
    m.header.qos = .stateLatest ∧ m.header.deadlineMs = 0 ∧
    streamKey (messageOf (relay m)) = packKey .position 2 42 ∧
    metaOf (messageOf (relay m)) = some ⟨42, 2, 0, 2, 1, 0⟩ := by
  have hsent : (testSystem.sent[1]?.map fun m => (m.header.type, m.header.qos, m.header.deadlineMs,
      streamKey (messageOf (relay m)), metaOf (messageOf (relay m)))) =
      some (.position, .stateLatest, 0, packKey .position 2 42, some ⟨42, 2, 0, 2, 1, 0⟩) := by
    decide +kernel
  obtain ⟨m, hm, heq⟩ := Option.map_eq_some_iff.mp hsent
  simp only [Prod.mk.injEq] at heq
  exact ⟨m, hm, heq⟩

theorem testSystem_links :
    (testSystem.proxy.links.lookup 1).map (fun link =>
      (link.session.keys.peerId, link.session.keys.localId)) = some (2, 1) ∧
    (testSystem.proxy.links.lookup 2).map (fun link => (link.queue.critical.length,
      (link.subscriptions.lookup MessageType.position.code).map (·.sourceId))) =
        some (0, some 2) ∧ testSystem.proxy.queueCapacity = 4 := by
  decide +kernel

/-- The second position, as it comes in and is handed out. -/
def testReplay (m₀ : NativeMessage) : List SystemOp :=
  testSetup ++ [.proxy (.ingest 1 (relay m₀) 0), .proxy (.next 2 0)]

/-- What the subscriber is handed, if the second position comes in: one message, that was given. -/
theorem handed_given_after_loss : ∃ m₀ ∈ testSystem.sent, ∃ m k v,
    ofStream (packKey .position 2 42)
      (outputs systemStep (handedBy 2) (.init 2 1 0 4) (testReplay m₀)) = [m] ∧
    m.header.type = Kind.type k ∧ k.decode (.data m.bytes) = some v ∧
    Gave (run systemStep (.init 2 1 0 4) (testReplay m₀)) k v := by
  have hone : (testSystem.sent[1]?.map fun m₀ => (ofStream (packKey .position 2 42)
      (outputs systemStep (handedBy 2) (.init 2 1 0 4) (testReplay m₀))).length) = some 1 := by
    decide +kernel
  obtain ⟨m₀, hm₀, hlength⟩ := Option.map_eq_some_iff.mp hone
  obtain ⟨m, hstream⟩ := List.length_eq_one_iff.mp hlength
  have hmem := List.mem_of_getElem? hm₀
  have hfew : ∀ k, (testSystem.given k).length < 2 ^ 32 - 1 :=
    fun k => by cases k <;> decide +kernel
  have hrest : ∀ s : System, m₀ ∈ s.sent → (∀ k, (s.given k).length < 2 ^ 32 - 1) →
      Along systemStep (Faithful (packKey .position 2 42)) s
        [.proxy (.ingest 1 (relay m₀) 0), .proxy (.next 2 0)] := by
    intro s hmem hfew
    refine ⟨⟨hfew, ?_⟩, ⟨hfew, ?_⟩, trivial⟩
    · rintro l r nowMs heq -
      cases heq
      exact ⟨m₀, hmem, carries_relay m₀⟩
    · rintro l r nowMs ⟨⟩
  have hfaithful := along_append.mpr ⟨faithful_testSetup _, hrest testSystem hmem hfew⟩
  obtain ⟨hm, hin⟩ := List.mem_filter.mp (hstream.symm ▸ List.mem_singleton_self m)
  obtain ⟨k, v, htype, hdecode, -, hgave⟩ :=
    handed_given hfaithful 2 m hm (of_decide_eq_true hin)
  exact ⟨m₀, hmem, m, k, v, hstream, htype, hdecode, hgave⟩

/-- The second position comes in, and the subscriber's queue is emptied. -/
def testRecovery (m₀ : NativeMessage) : List SystemOp :=
  testSetup ++ [] ++
    (ProxyOp.ingest 1 (relay m₀) 0 :: [0, 0, 0, 0].map (ProxyOp.next 2 ·)).map .proxy

/-- The subscriber has been handed the second position, which is the publisher's value. -/
theorem catches_up_after_loss : ∃ m₀ ∈ testSystem.sent, ∃ m v,
    (ofStream (packKey .position 2 42)
      (outputs systemStep (handedBy 2) (.init 2 1 0 4) (testRecovery m₀))).getLast? = some m ∧
    m.header.type = .position ∧ Kind.position.decode (.data m.bytes) = some v ∧
    SameValue .position v ((run systemStep (.init 2 1 0 4) (testRecovery m₀)).publisher.streams
      .position).value := by
  obtain ⟨m₀, hm₀, htype, hqos, hdeadline, hkey, hmeta⟩ := testSystem_sent
  obtain ⟨hfirst, hsecond, hcapacity⟩ := testSystem_links
  obtain ⟨ingress, hingress, hkeys⟩ := Option.map_eq_some_iff.mp hfirst
  obtain ⟨hpeer, hlocal⟩ := Prod.mk.inj hkeys
  obtain ⟨link, hlink, hqueue⟩ := Option.map_eq_some_iff.mp hsecond
  obtain ⟨hcritical, hsub⟩ := Prod.mk.inj hqueue
  obtain ⟨sub, hsub, hsource⟩ := Option.map_eq_some_iff.mp hsub
  have hmem := List.mem_of_getElem? hm₀
  have hbrings : Brings testSystem .position 1 (relay m₀) := by
    refine ⟨⟨ingress, hingress, ?_, ?_⟩, ⟨m₀, hmem, htype, carries_relay m₀⟩, _, hmeta, by decide,
      by decide +kernel⟩
    · rw [hpeer]
      decide +kernel
    · rw [hlocal]
      decide +kernel
  have hstreams : (streams [ProxyOp.ingest 1 (relay m₀) 0]).length ≤ 1 :=
    (List.dedup_sublist _).length_le.trans (List.length_filterMap_le _ _)
  have hroom : Along proxyStep (LeavesRoom 2 (streams [ProxyOp.ingest 1 (relay m₀) 0]).length)
      testSystem.proxy [ProxyOp.ingest 1 (relay m₀) 0] := by
    refine ⟨fun _ link' hl' => ?_, trivial⟩
    obtain rfl := Option.some.inj (hlink.symm.trans hl')
    rw [hcritical, hcapacity]
    omega
  have hphase : ∀ op ∈ ([] : List SystemOp).flatMap calls ++ [ProxyOp.ingest 1 (relay m₀) 0],
      Feeds 1 op := by
    intro op hop
    rw [List.mem_singleton.mp hop]
    exact ⟨rfl, fun _ => ⟨hqos, hdeadline⟩⟩
  have hfollows : Follows 1 2 .position testSystem.proxy :=
    ⟨by decide, link, ingress, sub, hlink, hingress, hsub, hsource.trans hpeer.symm⟩
  have hclocks : 4 ≤ [(0 : UInt64), 0, 0, 0].length := le_rfl
  have hsetup : ∀ op ∈ testSetup.flatMap calls, ∀ j r t, op ≠ .ingest j r t := by
    simp [testSetup, calls]
  have hproxy : testSystem.proxy = run proxyStep (.init 4) (testSetup.flatMap calls) :=
    proxy_run _ _
  rw [hproxy] at hroom
  have hcaught := catches_up (faithful_testSetup _) hsetup hphase hroom hbrings hkey hfollows
    hclocks
  refine ⟨m₀, hmem, ?_⟩
  unfold testRecovery
  exact hcaught

end NewMavlink.State.Consistency
