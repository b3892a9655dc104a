import NewMavlink.Parties
import NewMavlink.Proxy.EventOrder

/-! # A proxy on a network of sessions

The parties of `Parties`, some of which are the sessions that the links of a proxy stand for: what
such a session delivers, the proxy ingests on its link. Everything else is as free as before: the
network, the other parties, rekeys, and all other calls of the proxy, in any order.

* `ingested_sublist`: what the proxy ingests on a link, the session of the link has delivered, each
  record once.
* `hub_safe`: so every message that `next` returns was sealed by a party at the other end of the
  session of a link, header and payload, up to the destination; and the events of a party that
  `next` returns on a link are, with their multiplicities, among what that party has sealed. -/

namespace NewMavlink.Proxy.Hub

open NewMavlink.Lib.Buffer NewMavlink.Lib.Runs NewMavlink.Wire NewMavlink.Crypto
open NewMavlink.State.Messages NewMavlink.Record.Header NewMavlink.Record.SealOpen
open NewMavlink.Record.RoundTrip NewMavlink.Record.OpenCommit NewMavlink.Record.SendLog
open NewMavlink.Transport NewMavlink.Channel NewMavlink.Endpoints.Hops NewMavlink.Parties
open NewMavlink.Proxy.Queue hiding streamKey
open NewMavlink.Proxy.Links NewMavlink.Proxy.Links.NativeProxy NewMavlink.Proxy.Ingest
open NewMavlink.Proxy.Routing NewMavlink.Proxy.EventOrder
open NewMavlink.Proxy.DeltaChain (handed mem_handed)

/-- The parties, and the proxy that some of them belong to. -/
structure System (ι : Type) where
  parties : ι → Party
  proxy : NativeProxy

/-- What can happen on the network. -/
inductive HubOp (ι : Type) where
  /-- A party makes a call. -/
  | party (i : ι) (op : PartyOp)
  /-- A datagram arrives for the session of the link, and the proxy ingests what that delivers. -/
  | arrive (l : UInt16) (datagram : Option (List UInt8)) (nowMs : UInt32) (clock : UInt64)
  /-- The proxy is called. -/
  | proxy (op : ProxyOp)

variable {ι : Type} {P : Aead} {home : UInt16 → ι} {keys : ι → DirectionalKeys Block} {x : Party}
  {k l : UInt16} {c : ℕ} {m : NativeMessage} {r : OpenRecord}

/-- What the session of a party makes of a datagram. -/
def opened (P : Aead) (x : Party) (datagram : Option (List UInt8)) (nowMs : UInt32) :
    Option OpenRecord :=
  (NativeEndpoint.receive P ⟨x.session⟩ datagram nowMs).1.toOption

/-- The move of a party; `home` is the session that a link stands for. -/
def moves (home : UInt16 → ι) : HubOp ι → List (ι × PartyOp)
  | .party i op => [(i, op)]
  | .arrive l datagram nowMs _ => [(home l, .receive datagram nowMs)]
  | .proxy _ => []

/-- The calls of the proxy. -/
def calls (P : Aead) (home : UInt16 → ι) (x : System ι) : HubOp ι → List ProxyOp
  | .party _ _ => []
  | .arrive l datagram nowMs clock =>
    ((opened P (x.parties (home l)) datagram nowMs).map (.ingest l · clock)).toList
  | .proxy op => [op]

/-- The parties and the proxy after a step. -/
def hubStep [DecidableEq ι] (P : Aead) (home : UInt16 → ι) (x : System ι) (op : HubOp ι) :
    System ι where
  parties := run (partiesStep P) x.parties (moves home op)
  proxy := run proxyStep x.proxy (calls P home x op)

/-- Sessions as they are constructed, and a proxy without links. -/
def start (c : ℕ) (keys : ι → DirectionalKeys Block) : System ι where
  parties := Parties.start keys
  proxy := init c

/-- The AEAD is ideal, and the proxy ingests only what a session of its links has delivered. -/
def Sound [DecidableEq ι] (P : Aead) (home : UInt16 → ι) (x : System ι) (op : HubOp ι) : Prop :=
  Along (partiesStep P) (Unforged P) x.parties (moves home op) ∧
    ∀ j r t, op ≠ .proxy (.ingest j r t)

/-- All calls of the proxy in a run. -/
def callsIn [DecidableEq ι] (P : Aead) (home : UInt16 → ι) (x : System ι) (ops : List (HubOp ι)) :
    List ProxyOp :=
  outputs (hubStep P home) (calls P home) x ops

/-- What `next` returns on the link. -/
def handedBy [DecidableEq ι] (P : Aead) (home : UInt16 → ι) (l : UInt16) (x : System ι)
    (op : HubOp ι) : List NativeMessage :=
  outputs proxyStep (handed l) x.proxy (calls P home x op)

/-! ### What is ingested -/

/-- The record that is ingested on the link. -/
def ingestedOn (k : UInt16) : ProxyOp → Option OpenRecord
  | .ingest ingressLink r _ => if ingressLink = k then some r else none
  | _ => none

theorem ingestedOn_eq_some {op : ProxyOp} :
    ingestedOn k op = some r ↔ ∃ t, op = .ingest k r t := by
  cases op with
  | ingest j s t =>
    simp only [ingestedOn, Option.ite_none_right_eq_some, Option.some.injEq,
      ProxyOp.ingest.injEq]
    constructor
    · rintro ⟨rfl, rfl⟩
      exact ⟨t, rfl, rfl, rfl⟩
    · rintro ⟨_, rfl, rfl, -⟩
      exact ⟨rfl, rfl⟩
  | _ => simp [ingestedOn]

theorem delivered_receive (P : Aead) (x : Party) (datagram : Option (List UInt8)) (nowMs : UInt32) :
    (partyStep P x (.receive datagram nowMs)).delivered =
      x.delivered ++ (opened P x datagram nowMs).toList := by
  unfold partyStep opened
  dsimp only
  rcases receive_cases P ⟨x.session⟩ datagram nowMs with ⟨error, he⟩ | ⟨bytes, new, -, -, he⟩
  · rw [he]
    exact (List.append_nil _).symm
  · rw [he]
    rfl

theorem delivered_partiesStep [DecidableEq ι] (P : Aead) (x : ι → Party) (move : ι × PartyOp)
    (i : ι) : (x i).delivered <+: (partiesStep P x move i).delivered := by
  obtain ⟨j, op⟩ := move
  by_cases hi : i = j
  · subst hi
    rw [partiesStep_self]
    cases op with
    | send op => exact List.prefix_rfl
    | receive datagram nowMs =>
      rw [delivered_receive]
      exact List.prefix_append _ _
  · rw [partiesStep_of_ne P x hi]

theorem filterMap_ingestedOn (o : Option OpenRecord) (clock : UInt64) :
    (o.map (ProxyOp.ingest l · clock)).toList.filterMap (ingestedOn k) =
      if l = k then o.toList else [] := by
  cases o with
  | none => exact (ite_self _).symm
  | some r =>
    simp only [Option.map_some, Option.toList_some, List.filterMap_cons, ingestedOn,
      List.filterMap_nil]
    split_ifs <;> rfl

theorem ingested_step [DecidableEq ι] {x : System ι} {op : HubOp ι}
    (hno : ∀ j r t, op ≠ .proxy (.ingest j r t)) (k : UInt16) :
    ((x.parties (home k)).delivered ++ (calls P home x op).filterMap (ingestedOn k)).Sublist
      ((hubStep P home x op).parties (home k)).delivered := by
  cases op with
  | party i op =>
    rw [calls, List.filterMap_nil, List.append_nil]
    exact (delivered_partiesStep P x.parties (i, op) (home k)).sublist
  | arrive l d t clock =>
    have hparties : (hubStep P home x (.arrive l d t clock)).parties =
        partiesStep P x.parties (home l, .receive d t) := rfl
    rw [calls, filterMap_ingestedOn, hparties]
    split_ifs with hl
    · rw [hl, partiesStep_self, delivered_receive]
    · rw [List.append_nil]
      exact (delivered_partiesStep P x.parties _ (home k)).sublist
  | proxy op =>
    have hnone : ingestedOn k op = none := by
      cases op with
      | ingest j r t => exact absurd rfl (hno j r t)
      | _ => rfl
    rw [calls, List.filterMap_cons_none hnone, List.filterMap_nil, List.append_nil]
    exact List.Sublist.refl _

/-- **What is ingested on a link, its session has delivered**, each record once. -/
theorem ingested_sublist [DecidableEq ι] {ops : List (HubOp ι)}
    (hsound : Along (hubStep P home) (Sound P home) (start c keys) ops) (k : UInt16) :
    ((callsIn P home (start c keys) ops).filterMap (ingestedOn k)).Sublist
      ((run (hubStep P home) (start c keys) ops).parties (home k)).delivered := by
  unfold callsIn
  induction ops using List.reverseRecOn with
  | nil => exact List.nil_sublist _
  | append_singleton ops op ih =>
    obtain ⟨hbefore, ⟨-, hno⟩, -⟩ := along_append.mp hsound
    rw [run_concat, outputs_concat, List.filterMap_append]
    exact ((ih hbefore).append_right _).trans (ingested_step hno k)

/-! ### What is handed out -/

/-- The message is what the party sealed, up to the destination. -/
def Relays (a : Sent) (m : NativeMessage) : Prop :=
  { m.header with destinationId := a.header.destinationId } = a.header ∧ m.bytes = a.plaintext

theorem ingested_of_handed {ops : List ProxyOp}
    (hm : m ∈ outputs proxyStep (handed l) (init c) ops) :
    ∃ k r, r ∈ ops.filterMap (ingestedOn k) ∧ r.length ≤ kMaxPayloadBytes ∧
      forwarded (messageOf r) 0 = forwarded m 0 := by
  obtain ⟨before, op, after, rfl, hout⟩ := mem_outputs hm
  have hqueued : Queued (run proxyStep (init c) before) l m := by
    cases op with
    | next j t =>
      obtain ⟨rfl, hret⟩ := mem_handed.mp hout
      exact queued_of_next hret
    | _ => cases hout
  have hnone : ¬ Holds (init c) (forwarded m 0) := by
    rintro (⟨κ, x, hx, -⟩ | ⟨j, x, hx, -⟩)
    · cases hx
    · exact not_queued_init c j x hx
  obtain ⟨first, op', rest, rfl, k, r, t, rfl, hd, hsame⟩ :=
    run_origin holds_proxyStep hnone (Or.inr ⟨l, m, hqueued, rfl⟩)
  refine ⟨k, r, ?_, (accepts_of_disposition t hd).2, hsame⟩
  exact List.mem_filterMap.mpr ⟨.ingest k r t, by simp, ingestedOn_eq_some.mpr ⟨t, rfl⟩⟩

theorem relays_of_delivers {a : Sent} (hdelivers : Delivers a r)
    (hlen : r.length ≤ kMaxPayloadBytes) (hsame : forwarded (messageOf r) 0 = forwarded m 0) :
    Relays a m := by
  obtain ⟨hheader, -, hbytes⟩ := hdelivers
  have hcarries := carriesRecord_of_forwarded hlen hsame
  refine ⟨?_, hcarries.bytes.trans hbytes⟩
  have hm : { (forwarded m 0).header with destinationId := a.header.destinationId } =
      { m.header with destinationId := a.header.destinationId } := rfl
  have hr : { (forwarded (messageOf r) 0).header with destinationId := a.header.destinationId } =
      { r.header with destinationId := a.header.destinationId } := rfl
  rw [← hm, ← hsame, hr, hheader]

/-- The header names the party with these keys as its source, in its session. -/
def ComesFrom (k : DirectionalKeys Block) (h : RecordHeader) : Prop :=
  h.sourceId = k.localId ∧ h.sessionId = k.session.value

instance (k : DirectionalKeys Block) (h : RecordHeader) : Decidable (ComesFrom k h) :=
  inferInstanceAs (Decidable (_ ∧ _))

/-- The messages that come from the party with these keys, as it has sealed them. -/
def contentsFrom (k : DirectionalKeys Block) (ms : List NativeMessage) :
    List (MessageType × List UInt8) :=
  (ms.filter (ComesFrom k ·.header)).map fun m => (m.header.type, m.bytes)

theorem contentsFrom_append (k : DirectionalKeys Block) (ms ms' : List NativeMessage) :
    contentsFrom k (ms ++ ms') = contentsFrom k ms ++ contentsFrom k ms' := by
  unfold contentsFrom
  rw [List.filter_append, List.map_append]

theorem contentsFrom_forwarded (k : DirectionalKeys Block) (hlen : r.length ≤ kMaxPayloadBytes) :
    contentsFrom k [forwarded (messageOf r) l] =
      if ComesFrom k r.header then [content r] else [] := by
  have hbytes : (forwarded (messageOf r) l).bytes = r.bytes := bytes_messageOf hlen
  have hsame : ComesFrom k (forwarded (messageOf r) l).header ↔ ComesFrom k r.header := Iff.rfl
  unfold contentsFrom
  split_ifs with hfrom
  · rw [List.filter_cons_of_pos (by simpa using hsame.mpr hfrom), List.filter_nil,
      List.map_singleton, hbytes]
    rfl
  · rw [List.filter_cons_of_neg (by simpa using fun h => hfrom (hsame.mp h)), List.filter_nil,
      List.map_nil]

theorem contents_passed {keys : DirectionalKeys Block} {p : NativeProxy} {op : ProxyOp}
    (honly : ∀ j, ∀ r ∈ ingestedOn j op, ComesFrom keys r.header → j = k) :
    (contentsFrom keys (passes l p op)).Sublist ((ingestedOn k op).toList.map content) := by
  cases op with
  | ingest j r t =>
    have hj : ingestedOn j (.ingest j r t) = some r := ingestedOn_eq_some.mpr ⟨t, rfl⟩
    dsimp only [passes]
    split_ifs with hd
    · rw [contentsFrom_forwarded keys (accepts_of_disposition t (Or.inr hd)).2]
      split_ifs with hfrom
      · obtain rfl : j = k := honly j r hj hfrom
        rw [hj]
        exact List.Sublist.refl _
      · exact List.nil_sublist _
    · exact List.nil_sublist _
  | _ => exact List.nil_sublist _

/-- **What is passed on of a party**, was ingested on its link. -/
theorem contents_passes {keys : DirectionalKeys Block} : ∀ (p : NativeProxy) (ops : List ProxyOp),
    (∀ j, ∀ r ∈ ops.filterMap (ingestedOn j), ComesFrom keys r.header → j = k) →
    (contentsFrom keys (outputs proxyStep (passes l) p ops)).Sublist
      ((ops.filterMap (ingestedOn k)).map content)
  | _, [], _ => List.Sublist.refl _
  | p, op :: ops, honly => by
    have hsplit : ∀ j, (op :: ops).filterMap (ingestedOn j) =
        (ingestedOn j op).toList ++ ops.filterMap (ingestedOn j) := by
      intro j
      rw [List.filterMap_cons]
      cases ingestedOn j op <;> rfl
    simp only [hsplit, List.mem_append, Option.mem_toList] at honly
    rw [hsplit, List.map_append, outputs, contentsFrom_append]
    exact (contents_passed fun j r hr => honly j r (Or.inl hr)).append
      (contents_passes (proxyStep p op) ops fun j r hr => honly j r (Or.inr hr))

/-! ### Runs -/

/-- A party is the only one with its id in its session. -/
def Unique (keys : ι → DirectionalKeys Block) (j : ι) : Prop :=
  ∀ i, (keys i).localId = (keys j).localId →
    (keys i).session.value = (keys j).session.value → i = j

/-- Such a party is the only peer of its link. -/
theorem peer_of_unique {i j j' : ι} (hunique : Unique keys j) (hj : Peers keys i j)
    (hj' : Peers keys i j') : j' = j := by
  have hsame : channelOf (keys j') = channelOf (keys j) := hj'.trans hj.symm
  simp only [channelOf, Prod.mk.injEq] at hsame
  exact hunique j' hsame.1 hsame.2.2

section Runs
variable [DecidableEq ι] {ops : List (HubOp ι)}

theorem parties_inv (hsound : Along (hubStep P home) (Sound P home) (start c keys) ops) :
    Parties.Inv P keys (run (hubStep P home) (start c keys) ops).parties := by
  have hstep : ∀ (x : System ι) (op : HubOp ι), (hubStep P home x op).parties =
      run (partiesStep P) x.parties (moves home op) := fun x op => rfl
  have hideal : Along (partiesStep P) (Unforged P) (Parties.start keys)
      (outputs (hubStep P home) (fun _ => moves home) (start c keys) ops) :=
    along_component hstep (fun x op h => h.1) hsound
  rw [run_component hstep]
  exact run_invariant inv_partiesStep (inv_start P keys) hideal

theorem handedBy_run (P : Aead) (home : UInt16 → ι) (l : UInt16) :
    outputs (hubStep P home) (handedBy P home l) (start c keys) ops =
      outputs proxyStep (handed l) (init c) (callsIn P home (start c keys) ops) :=
  outputs_component (f := System.proxy) (fun _ _ => rfl) (start c keys) ops

theorem sealed_of_ingested (hsound : Along (hubStep P home) (Sound P home) (start c keys) ops)
    (hr : r ∈ (callsIn P home (start c keys) ops).filterMap (ingestedOn k)) :
    ∃ j, j ≠ home k ∧ Peers keys (home k) j ∧
      ∃ a ∈ ((run (hubStep P home) (start c keys) ops).parties j).sealed, Delivers a r :=
  (parties_inv hsound).sealed_by_peer ((ingested_sublist hsound k).subset hr)

theorem link_of_comesFrom {j : ι}
    (hsound : Along (hubStep P home) (Sound P home) (start c keys) ops) (hunique : Unique keys j)
    (hlink : ∀ k', Peers keys (home k') j → k' = k) {k' : UInt16}
    (hr : r ∈ (callsIn P home (start c keys) ops).filterMap (ingestedOn k'))
    (hfrom : ComesFrom (keys j) r.header) : k' = k := by
  obtain ⟨hsource, hsession⟩ := hfrom
  obtain ⟨i, -, hi, a, ha, hdelivers⟩ := sealed_of_ingested hsound hr
  have hsealed := ((parties_inv hsound).party i).sealed a ha
  rw [← hdelivers.1] at hsealed
  simp only [channelOf, Prod.mk.injEq] at hsealed
  obtain ⟨hlocal, -, hvalue⟩ := hsealed
  obtain rfl : i = j := hunique i (hlocal.symm.trans hsource) (hvalue.symm.trans hsession)
  exact hlink k' hi

/-- **A proxy on a network of sessions is safe**, in every run in which the AEAD is ideal and the
proxy ingests only what the sessions of its links deliver: a message that `next` returns was sealed
by a party at the other end of the session of a link, header and payload, up to the destination; and
if a party is the only one with its id in its session, and there is one link to it, then the events
of the party that `next` returns on a link are, with their multiplicities, among what it has
sealed. -/
theorem hub_safe (hsound : Along (hubStep P home) (Sound P home) (start c keys) ops) :
    let x := run (hubStep P home) (start c keys) ops
    let handedOn := fun l => outputs (hubStep P home) (handedBy P home l) (start c keys) ops
    (∀ l, ∀ m ∈ handedOn l, ∃ k j, j ≠ home k ∧ Peers keys (home k) j ∧
      ∃ a ∈ (x.parties j).sealed, Relays a m) ∧
    ∀ j k, Unique keys j → Peers keys (home k) j → (∀ k', Peers keys (home k') j → k' = k) →
      ∀ l critical, (contentsFrom (keys j) (eventsOf critical (handedOn l))).Subperm
        ((x.parties j).sealed.map sealedContent) := by
  intro x handedOn
  refine ⟨fun l m hm => ?_, fun j k hunique hpeers hlink l critical => ?_⟩
  · dsimp only [handedOn] at hm
    rw [handedBy_run] at hm
    obtain ⟨k, r, hr, hlen, hsame⟩ := ingested_of_handed hm
    obtain ⟨j, hne, hpeers, a, ha, hdelivers⟩ := sealed_of_ingested hsound hr
    exact ⟨k, j, hne, hpeers, a, ha, relays_of_delivers hdelivers hlen hsame⟩
  · -- what is handed out was passed on, ingested on the link, and delivered by its session
    have hevents : (eventsOf critical (handedOn l)).Sublist
        (outputs proxyStep (passes l) (init c) (callsIn P home (start c keys) ops)) := by
      dsimp only [handedOn]
      rw [handedBy_run]
      exact ((List.sublist_append_left _ _).trans (sublist_run c _ l critical)).trans
        List.filter_sublist
    have hcontents : (contentsFrom (keys j) (eventsOf critical (handedOn l))).Sublist
        ((x.parties (home k)).delivered.map content) :=
      ((hevents.filter _).map _).trans
        ((contents_passes (init c) _ fun k' r => link_of_comesFrom hsound hunique hlink).trans
          ((ingested_sublist hsound k).map content))
    exact hcontents.subperm.trans
      ((parties_inv hsound).contents_subperm fun j' => peer_of_unique hunique hpeers)

end Runs

/-! ### A run -/

/-- A vehicle, and the two sessions of a proxy: to the vehicle, and to a ground station. -/
def testHubKeys : Fin 3 → DirectionalKeys Block
  | 0 => testKeys 3 1 2
  | 1 => (testKeys 3 1 2).mirror
  | 2 => { testKeys 3 4 5 with localId := 2, peerId := 3 }

/-- Link 1 goes to the vehicle. -/
def testHome (l : UInt16) : Fin 3 := if l = 1 then 1 else 2

/-- A safety event of the vehicle. -/
def testEvent : RecordHeader := { testHeader 3 4 with type := .safetyEvent }

/-- The record that `paddingAead` makes of it. -/
def testEventRecord : List UInt8 :=
  headerBytes (sealedHeader testEvent (Span.data testPlain).length) ++
    (testPlain ++ List.replicate kTagBytes 0)

/-- The vehicle seals the event. -/
def testSealEvent : PartyOp :=
  .send (.seal testEvent (.data testPlain) (List.Vector.replicate _ 0))

/-- Two links, a subscription to the event on link 2, the event on link 1, and a `next`. -/
def testHubOps : List (HubOp (Fin 3)) :=
  [.proxy (.addLink 1 { keys := testHubKeys 1 }), .proxy (.addLink 2 { keys := testHubKeys 2 }),
    .proxy (.subscribe .inOrder 2 { type := .safetyEvent, sourceId := 1 }),
    .party 0 testSealEvent, .arrive 1 (some testEventRecord) 0 0, .proxy (.next 2 0)]

theorem sealable_testEvent :
    Sealable { keys := testHubKeys 0 } testEvent (.data testPlain) := by
  constructor <;> decide

theorem sealCipher_testEvent :
    sealCipher paddingAead { keys := testHubKeys 0 } testEvent (.data testPlain) =
      some (testPlain ++ List.replicate kTagBytes 0) :=
  aeadSeal_paddingAead rfl rfl (by decide) (by decide)

theorem opened_testEvent : opened paddingAead { session := { keys := testHubKeys 1 } }
    (some testEventRecord) 0 = some (openRecord (sealedHeader testEvent 6) testPlain) := by
  have hmirrors : Mirrors { keys := testHubKeys 0 } { keys := testHubKeys 1 } :=
    mirrors_mirror sealable_testEvent.keys rfl
  have hdeadline : testEvent.deadlineMs = 0 ∨ (0 : UInt32).toNat ≤ testEvent.deadlineMs.toNat :=
    Or.inl rfl
  have hreceive := receive_sealed (e := ⟨{ keys := testHubKeys 1 }⟩) correct_paddingAead
    sealable_testEvent sealCipher_testEvent hmirrors (by decide) hdeadline
  rw [opened, testEventRecord, hreceive]
  rfl

theorem callsIn_test : callsIn paddingAead testHome (start 4 testHubKeys) testHubOps =
    [.addLink 1 { keys := testHubKeys 1 }, .addLink 2 { keys := testHubKeys 2 },
      .subscribe .inOrder 2 { type := .safetyEvent, sourceId := 1 },
      .ingest 1 (openRecord (sealedHeader testEvent 6) testPlain) 0, .next 2 0] := by
  have harrive : ∀ x : System (Fin 3),
      x.parties = partiesStep paddingAead (Parties.start testHubKeys) (0, testSealEvent) →
      calls paddingAead testHome x (.arrive 1 (some testEventRecord) 0 0) =
        [.ingest 1 (openRecord (sealedHeader testEvent 6) testPlain) 0] := by
    intro x hx
    have hpeer : x.parties (testHome 1) = { session := { keys := testHubKeys 1 } } := by
      rw [hx]
      exact partiesStep_of_ne _ _ (by decide) _
    dsimp only [calls]
    rw [hpeer, opened_testEvent]
    rfl
  rw [callsIn, testHubOps, outputs, outputs, outputs, outputs, outputs, outputs, outputs_nil,
    harrive _ rfl]
  rfl

theorem sound_test : Along (hubStep paddingAead testHome) (Sound paddingAead testHome)
    (start 4 testHubKeys) testHubOps := by
  have hunforged : ∀ x : System (Fin 3),
      x.parties = partiesStep paddingAead (Parties.start testHubKeys) (0, testSealEvent) →
      Parties.Unforged paddingAead x.parties (1, .receive (some testEventRecord) 0) := by
    intro x hx
    have hstep : partyStep paddingAead (Parties.start testHubKeys 0) testSealEvent = _ :=
      partyStep_seal (p := Parties.start testHubKeys 0) sealable_testEvent sealCipher_testEvent _
    rw [testEventRecord]
    refine unforged_of_sealed correct_paddingAead sealable_testEvent sealCipher_testEvent
      (j := 0) ?_ ?_
    · rw [hx, partiesStep_self, hstep]
      exact List.mem_singleton_self _
    · rw [hx, partiesStep_of_ne _ _ (by decide)]
      rfl
  exact ⟨⟨trivial, by simp⟩, ⟨trivial, by simp⟩, ⟨trivial, by simp⟩, ⟨⟨trivial, trivial⟩, by simp⟩,
    ⟨⟨hunforged _ rfl, trivial⟩, by simp⟩, ⟨trivial, by simp⟩, trivial⟩

/-- The event that the vehicle has sealed is handed out on link 2. -/
theorem hub_safe_test :
    let x := run (hubStep paddingAead testHome) (start 4 testHubKeys) testHubOps
    let handedOn := fun l =>
      outputs (hubStep paddingAead testHome) (handedBy paddingAead testHome l)
        (start 4 testHubKeys) testHubOps
    (handedOn 2).length = 1 ∧
    (∀ l, ∀ m ∈ handedOn l, ∃ k j, j ≠ testHome k ∧ Peers testHubKeys (testHome k) j ∧
      ∃ a ∈ (x.parties j).sealed, Relays a m) ∧
    ∀ l critical, (contentsFrom (testHubKeys 0) (eventsOf critical (handedOn l))).Subperm
      ((x.parties 0).sealed.map sealedContent) := by
  have hsafe := hub_safe sound_test
  have hunique : Unique testHubKeys 0 := by
    unfold Unique
    decide
  refine ⟨?_, hsafe.1, hsafe.2 0 1 hunique rfl ?_⟩
  · dsimp only
    rw [handedBy_run, callsIn_test]
    decide +kernel
  · intro k' hpeers
    by_contra hne
    rw [testHome, if_neg hne] at hpeers
    exact absurd (congrArg Prod.fst hpeers) (by decide)

end NewMavlink.Proxy.Hub
