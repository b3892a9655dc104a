import NewMavlink.ProxyService
import NewMavlink.Record.OpenCommit

/-! # What the proxy service relays

The whole of what the loop of `proxy_service.cpp` sends, against the whole of what it commits. The
commit of a record, its new header and its seal are one round of the loop, and every round that does
not get through them ends the loop or leaves both endpoints alone.

* `round_cases`: what a round can do.
* `tied_serviceStep`: as long as the service runs, the egress sequence counts the records committed
  and the records sent.
* `relay_exact`: the i-th record sent is the i-th record committed, under the number i. -/

namespace NewMavlink.ProxyRelay

open NewMavlink.Lib.Buffer NewMavlink.Lib.Runs NewMavlink.Wire NewMavlink.Crypto
open NewMavlink.State.Messages NewMavlink.Record.SealOpen NewMavlink.Record.RoundTrip
open NewMavlink.Record.OpenCommit NewMavlink.Transport NewMavlink.ProxyService

/-- The datagram that a round sends, if any. -/
def sent (P : Aead) (durationMs : UInt64) : Status → Round → List (List UInt8)
  | .running s, r => (ProxyService.round P durationMs s r).1.toList
  | .exited _, _ => []

/-- The record that a round commits at the ingress, if any. -/
def committed (P : Aead) : Status → Round → List OpenRecord
  | .running s, r =>
    match s.ingress.receiveUncommitted P r.datagram r.elapsed.toUInt32 with
    | .error _ => []
    | .ok opened =>
      if schemaRejects opened then []
      else
        match s.ingress.commit opened with
        | (.error _, _) => []
        | (.ok _, _) => [opened]
  | .exited _, _ => []

/-- The datagrams that a run of the loop sends. -/
def sends (P : Aead) (durationMs : UInt64) (status : Status) (rounds : List Round) :
    List (List UInt8) :=
  outputs (serviceStep P durationMs) (sent P durationMs) status rounds

/-- The records that a run of the loop commits. -/
def commits (P : Aead) (durationMs : UInt64) (status : Status) (rounds : List Round) :
    List OpenRecord :=
  outputs (serviceStep P durationMs) (committed P) status rounds

/-- The keys of the ground station, `gcs_unused` of `main`. -/
def groundKeys (auth : Auth Block) : Option (DirectionalKeys Block) :=
  (deriveDirectionalKeys auth psk ⟨1, 1⟩ 3 2).map Prod.snd

/-- `o` is the record `c` as the relay passes it on, under the number `i`. -/
structure Carries (i : ℕ) (c o : OpenRecord) : Prop where
  sequence : o.header.sequence.toNat = i
  source : o.header.sourceId = 3
  destination : o.header.destinationId = 2
  type : o.header.type = c.header.type
  flags : o.header.flags = c.header.flags
  qos : o.header.qos = c.header.qos
  deadline : o.header.deadlineMs = c.header.deadlineMs
  payload : o.bytes = c.bytes

/-- A session with the keys `gcs` opens the datagram and gets `c` under the number `i`, within the
deadline of `c` and unless the session has committed `i` or is far beyond it. -/
def Delivers (P : Aead) (gcs : DirectionalKeys Block) (i : ℕ) (c : OpenRecord)
    (datagram : List UInt8) : Prop :=
  ∀ (ground : Session) (nowMs : UInt32), ground.keys = gcs →
    ground.replay.accepted (UInt64.ofNat i) = true →
    (c.header.deadlineMs = 0 ∨ nowMs.toNat ≤ c.header.deadlineMs.toNat) →
    ∃ o, ground.openUncommitted P (.data datagram) nowMs = .ok o ∧ Carries i c o

/-- `c` is what the service opens in the round: it is authenticated, new to the replay window, and
decodes as what its type says. -/
structure Admitted (P : Aead) (s : Service) (r : Round) (c : OpenRecord) : Prop where
  opened : s.ingress.receiveUncommitted P r.datagram r.elapsed.toUInt32 = .ok c
  authentic : ∃ record, udpReceive r.datagram = some record ∧
    openPlaintext P s.ingress.session record c.header = some c.bytes
  fresh : s.ingress.session.replay.accepted c.header.sequence = true
  epoch : c.header.epoch = s.ingress.session.keys.session.epoch
  position : c.header.type = .position → (decodePosition (.data c.bytes)).isSome = true
  attitude : c.header.type = .attitude → (decodeAttitude (.data c.bytes)).isSome = true
  battery : c.header.type = .battery → (decodeBattery (.data c.bytes)).isSome = true

variable {P : Aead} {auth : Auth Block} {durationMs : UInt64} {s : Service} {r : Round}
  {c : OpenRecord} {status : Status}

/-! ### One round -/

theorem admitted_of_receive
    (hreceive : s.ingress.receiveUncommitted P r.datagram r.elapsed.toUInt32 = .ok c)
    (hpasses : schemaRejects c = false) : Admitted P s r c := by
  have hopen := hreceive
  unfold NativeEndpoint.receiveUncommitted at hopen
  cases hdatagram : udpReceive r.datagram with
  | none => simp [hdatagram] at hopen
  | some record =>
    rw [hdatagram] at hopen
    unfold schemaRejects at hpasses
    rw [Bool.or_eq_false_iff] at hpasses
    obtain ⟨-, hdecodes⟩ := hpasses
    refine ⟨hreceive, ⟨record, hdatagram, authentic_of_open hopen⟩, accepted_of_open hopen,
      epoch_of_open hopen, ?_, ?_, ?_⟩
    · intro ht
      simpa [ht] using hdecodes
    · intro ht
      rw [ht, if_neg (by decide), if_pos rfl] at hdecodes
      simpa using hdecodes
    · intro ht
      rw [ht, if_neg (by decide), if_neg (by decide), if_pos rfl] at hdecodes
      simpa using hdecodes

/-- **What a round can do**: commit nothing and leave the endpoints alone, commit a record that it
cannot send, or commit a record and send it. -/
theorem round_cases (P : Aead) (durationMs : UInt64) (s : Service) (r : Round) :
    (committed P (.running s) r = [] ∧ (ProxyService.round P durationMs s r).1 = none ∧
      ∀ s', (ProxyService.round P durationMs s r).2 = .running s' →
        ∃ b, s' = { s with receivedAny := b }) ∨
    (∃ c, Admitted P s r c ∧ committed P (.running s) r = [c] ∧
      ProxyService.round P durationMs s r = (none, .exited 5)) ∨
    ∃ c record, Admitted P s r c ∧ committed P (.running s) r = [c] ∧
      s.egress.send P (outHeader c s.egressSequence) (.data c.bytes) r.sendTo =
        (some record, (relayed P s r c).egress) ∧
      (ProxyService.round P durationMs s r).1 = some record ∧
      ∀ s', (ProxyService.round P durationMs s r).2 = .running s' → s' = relayed P s r c := by
  unfold committed ProxyService.round
  dsimp only
  cases hreceive : s.ingress.receiveUncommitted P r.datagram r.elapsed.toUInt32 with
  | error error =>
    refine Or.inl ⟨rfl, ?_, ?_⟩
    · dsimp only
      split_ifs <;> rfl
    · intro s' h
      dsimp only at h
      split_ifs at h
      · simp [finish] at h
      · exact ⟨s.receivedAny, (Status.running.inj h).symm⟩
  | ok c =>
    dsimp only
    cases hrejects : schemaRejects c with
    | true =>
      refine Or.inl ⟨rfl, rfl, fun s' h => ⟨true, (Status.running.inj h).symm⟩⟩
    | false =>
      have hadmitted := admitted_of_receive hreceive hrejects
      have hcommit : s.ingress.commit c = (.ok (), (s.ingress.commit c).2) :=
        Prod.ext (commit_of_receiveUncommitted hreceive) rfl
      rw [hcommit]
      right
      rcases hsend : s.egress.send P (outHeader c s.egressSequence) (.data c.bytes) r.sendTo with
        ⟨_ | record, egress⟩
      · exact Or.inl ⟨c, hadmitted, rfl, by simp⟩
      · refine Or.inr ⟨c, record, hadmitted, rfl, by simp [hsend, relayed], by simp, ?_⟩
        intro s' h
        simp only [Bool.false_eq_true, if_false] at h
        split_ifs at h
        · simp [finish] at h
        · simp [finish] at h
        · rw [← Status.running.inj h, relayed, hsend]

theorem delivers_of_send {egress : NativeEndpoint} {record : List UInt8} (hP : P.Correct)
    (hsend : s.egress.send P (outHeader c s.egressSequence) (.data c.bytes) r.sendTo =
      (some record, egress)) :
    Delivers P s.egress.session.keys.mirror s.egressSequence.toNat c record := by
  obtain ⟨-, hseal⟩ := send_eq_some.mp hsend
  obtain ⟨hsealable, -⟩ := seal_eq_ok.mp hseal
  intro ground nowMs hkeys hnew hdeadline
  rw [UInt64.ofNat_toNat] at hnew
  obtain ⟨o, hopen, hbytes, -, hheader⟩ := (open_of_seal hseal).1 hP ground nowMs
    (mirrors_mirror hsealable.keys hkeys) hnew hdeadline
  refine ⟨o, hopen, ?_⟩
  constructor <;> first | exact hbytes | (rw [hheader]; rfl)

/-! ### The invariant -/

/-- How the state of the service goes with what it has sent and committed. -/
structure Synced (auth : Auth Block) (datagrams : List (List UInt8)) (records : List OpenRecord)
    (s : Service) : Prop where
  length : records.length = datagrams.length
  sequence : s.egressSequence.toNat = datagrams.length
  ground : ∀ gcs ∈ groundKeys auth, gcs = s.egress.session.keys.mirror
  ingress : Inv { session := s.ingress.session, committed := records }

/-- **What holds after every round**: the datagrams deliver the records, none of which was committed
before. -/
structure Tied (P : Aead) (auth : Auth Block) (datagrams : List (List UInt8))
    (records : List OpenRecord) (status : Status) : Prop where
  delivers : ∀ i datagram, datagrams[i]? = some datagram →
    ∃ c, records[i]? = some c ∧ ∀ gcs ∈ groundKeys auth, Delivers P gcs i c datagram
  nodup : (records.map slot).Nodup
  length : status ≠ .exited 5 → records.length = datagrams.length
  synced : ∀ s, status = .running s → Synced auth datagrams records s

theorem Synced.idle {datagrams : List (List UInt8)} {records : List OpenRecord}
    (h : Synced auth datagrams records s) (b : Bool) :
    Synced auth datagrams records { s with receivedAny := b } :=
  ⟨h.length, h.sequence, h.ground, h.ingress⟩

/-- A record that is admitted was not committed before, and the ingress has it from now on. -/
theorem Synced.inv_commit {datagrams : List (List UInt8)} {records : List OpenRecord}
    (h : Synced auth datagrams records s) (hc : Admitted P s r c) :
    Inv { session := (relayed P s r c).ingress.session, committed := records ++ [c] } :=
  Record.OpenCommit.inv_commit h.ingress hc.epoch hc.fresh

theorem Synced.relayed {datagrams : List (List UInt8)} {records : List OpenRecord}
    {record : List UInt8} (h : Synced auth datagrams records s) (hc : Admitted P s r c)
    (hsend : s.egress.send P (outHeader c s.egressSequence) (.data c.bytes) r.sendTo =
      (some record, (relayed P s r c).egress)) :
    Synced auth (datagrams ++ [record]) (records ++ [c]) (relayed P s r c) := by
  obtain ⟨-, hseal⟩ := send_eq_some.mp hsend
  obtain ⟨hsealable, cipher, -, -, hsession⟩ := seal_eq_ok.mp hseal
  refine ⟨by simp [h.length], ?_, ?_, h.inv_commit hc⟩
  · -- the last number is never sealed, so the counter does not start again
    have hmax : s.egressSequence.toNat ≠ kUint64Max.toNat := fun heq =>
      hsealable.sequence (UInt64.toNat_inj.mp heq)
    have hbound : s.egressSequence.toNat < 2 ^ 64 := s.egressSequence.toNat_lt
    have hlast : kUint64Max.toNat = 2 ^ 64 - 1 := rfl
    show (s.egressSequence + 1).toNat = _
    rw [UInt64.toNat_add, List.length_append, List.length_singleton, ← h.sequence]
    exact Nat.mod_eq_of_lt (by show s.egressSequence.toNat + 1 < 2 ^ 64; omega)
  · intro gcs hgcs
    rw [hsession]
    exact h.ground gcs hgcs

/-- **Every round keeps datagrams and records tied.** -/
theorem tied_serviceStep {datagrams : List (List UInt8)} {records : List OpenRecord}
    (hP : P.Correct) (h : Tied P auth datagrams records status) (r : Round) :
    Tied P auth (datagrams ++ sent P durationMs status r) (records ++ committed P status r)
      (serviceStep P durationMs status r) := by
  cases status with
  | exited code =>
    rw [sent, committed, List.append_nil, List.append_nil]
    exact h
  | running s =>
    have hs := h.synced s rfl
    rcases round_cases P durationMs s r with ⟨hcommitted, hnone, hnext⟩ |
      ⟨c, hc, hcommitted, hround⟩ | ⟨c, record, hc, hcommitted, hsend, hsome, hnext⟩
    · have hsent : sent P durationMs (.running s) r = [] := congrArg Option.toList hnone
      rw [hcommitted, hsent, List.append_nil, List.append_nil]
      refine ⟨h.delivers, h.nodup, fun _ => hs.length, fun s' hs' => ?_⟩
      obtain ⟨b, rfl⟩ := hnext s' hs'
      exact hs.idle b
    · have hsent : sent P durationMs (.running s) r = [] := by rw [sent, hround]; rfl
      have hstep : serviceStep P durationMs (.running s) r = .exited 5 := congrArg Prod.snd hround
      rw [hcommitted, hsent, hstep, List.append_nil]
      refine ⟨fun i d hi => ?_, (hs.inv_commit hc).nodup, fun hne => absurd rfl hne, by simp⟩
      obtain ⟨c', hc', hdelivers⟩ := h.delivers i d hi
      exact ⟨c', List.getElem?_append_left (List.getElem?_eq_some_iff.mp hc').1 ▸ hc', hdelivers⟩
    · have hsent : sent P durationMs (.running s) r = [record] := by rw [sent, hsome]; rfl
      rw [hcommitted, hsent]
      refine ⟨paired_log h.delivers hs.length ?_, (hs.inv_commit hc).nodup,
        fun _ => by simp [hs.length], fun s' hs' => ?_⟩
      · intro gcs hgcs
        rw [hs.ground gcs hgcs, ← hs.sequence]
        exact delivers_of_send hP hsend
      · rw [hnext s' hs']
        exact hs.relayed hc hsend

/-! ### Runs -/

theorem tied_start (P : Aead) (auth : Auth Block) (bound : Bool) :
    Tied P auth [] [] (start auth bound) := by
  have hlists : ∀ {status}, (∀ s, status = .running s → Synced auth [] [] s) →
      Tied P auth [] [] status :=
    fun hs => ⟨by simp, List.nodup_nil, fun _ => rfl, hs⟩
  unfold start
  split
  · rename_i proxyEgress gcs _ hegress
    cases bound with
    | false => exact hlists (by simp)
    | true =>
      refine hlists fun s hs => ?_
      obtain rfl := Status.running.inj hs
      refine ⟨rfl, rfl, ?_, inv_fresh _⟩
      intro gcs' hgcs
      rw [groundKeys, hegress] at hgcs
      obtain rfl := Option.some.inj hgcs
      exact (deriveDirectionalKeys_eq_some hegress).1
  · exact hlists (by simp)

/-- **What a whole run sends and commits is tied.** -/
theorem tied_run (hP : P.Correct) (auth : Auth Block) (bound : Bool) (durationMs : UInt64)
    (rounds : List Round) :
    Tied P auth (sends P durationMs (start auth bound) rounds)
      (commits P durationMs (start auth bound) rounds)
      (run (serviceStep P durationMs) (start auth bound) rounds) := by
  induction rounds using List.reverseRecOn with
  | nil => exact tied_start P auth bound
  | append_singleton rounds r ih =>
    unfold sends commits at ih ⊢
    rw [outputs_concat, outputs_concat, run_concat]
    exact tied_serviceStep hP ih r

theorem admitted_of_committed (h : c ∈ committed P status r) :
    ∃ s, status = .running s ∧ Admitted P s r c := by
  cases status with
  | exited code => cases h
  | running s =>
    refine ⟨s, rfl, ?_⟩
    rcases round_cases P 0 s r with ⟨hnone, -⟩ | ⟨c', hc, hsome, -⟩ | ⟨c', record, hc, hsome, -⟩
    · rw [hnone] at h
      cases h
    · rw [hsome] at h
      rwa [List.mem_singleton.mp h]
    · rw [hsome] at h
      rwa [List.mem_singleton.mp h]

/-- **The relay is exact.** Whatever arrives in whatever rounds, the i-th record that is sent
reaches the ground station with the number i, from 3 to 2, and otherwise as the i-th record that was
committed; unless the service ended because it could not send one, all that were committed are sent;
no (epoch, sequence) is committed twice; and each record that was committed had been authenticated,
was new to the replay window and decodes, in the round in which it arrived. Of the AEAD only that
decryption undoes encryption is assumed. -/
theorem relay_exact (hP : P.Correct) (auth : Auth Block) (bound : Bool) (durationMs : UInt64)
    (rounds : List Round) :
    let datagrams := sends P durationMs (start auth bound) rounds
    let records := commits P durationMs (start auth bound) rounds
    (∀ i datagram, datagrams[i]? = some datagram →
      ∃ c, records[i]? = some c ∧ ∀ gcs ∈ groundKeys auth, Delivers P gcs i c datagram) ∧
    (run (serviceStep P durationMs) (start auth bound) rounds ≠ .exited 5 →
      records.length = datagrams.length) ∧
    (records.map slot).Nodup ∧
    ∀ c ∈ records, ∃ before r after s, rounds = before ++ r :: after ∧
      run (serviceStep P durationMs) (start auth bound) before = .running s ∧
      Admitted P s r c := by
  intro datagrams records
  have htied := tied_run hP auth bound durationMs rounds
  refine ⟨htied.delivers, htied.length, htied.nodup, fun c hc => ?_⟩
  obtain ⟨before, r, after, hrounds, hcommitted⟩ := mem_outputs hc
  obtain ⟨s, hs, hadmitted⟩ := admitted_of_committed hcommitted
  exact ⟨before, r, after, s, hrounds, hs, hadmitted⟩

/-- A record of the vehicle arrives, and the ground station opens it as the first of the relay. -/
theorem relay_exact_vehicle :
    let rounds : List Round := [{ elapsed := 5, datagram := some vehicleRecord }]
    ∃ datagram, sends paddingAead 1000 (start labelAuth true) rounds = [datagram] ∧
      ∃ o, Session.openUncommitted paddingAead { keys := testEgressKeys.mirror } (.data datagram)
        0 = .ok o ∧ Carries 0 (openRecord (sealedHeader vehicleHeader 6) testPlain) o := by
  intro rounds
  obtain ⟨hdelivers, -, -, hadmitted⟩ :=
    relay_exact correct_paddingAead labelAuth true 1000 rounds
  have hforwarded : ∃ datagram, sends paddingAead 1000 (start labelAuth true) rounds =
      [datagram] := by
    obtain ⟨record, hround⟩ := round_vehicleRound
    rw [vehicleRound] at hround
    rw [start_labelAuth]
    exact ⟨record, by simp [sends, rounds, outputs, sent, hround]⟩
  obtain ⟨datagram, hdatagram⟩ := hforwarded
  obtain ⟨c, hc, hgcs⟩ := hdelivers 0 datagram (by rw [hdatagram]; rfl)
  obtain ⟨before, r, after, s, hrounds, hs, hopened⟩ := hadmitted c (List.mem_of_getElem? hc)
  obtain ⟨rfl, rfl, rfl⟩ : before = [] ∧ r = vehicleRound ∧ after = [] := by
    have hlength := congrArg List.length hrounds
    simp only [rounds, List.length_append, List.length_cons, List.length_nil] at hlength
    obtain rfl : before = [] := List.length_eq_zero_iff.mp (by omega)
    obtain rfl : after = [] := List.length_eq_zero_iff.mp (by omega)
    exact ⟨rfl, (List.singleton_inj.mp hrounds).symm, rfl⟩
  rw [run_nil, start_labelAuth] at hs
  obtain rfl := Status.running.inj hs
  obtain rfl := Except.ok.inj (receive_vehicleRecord.symm.trans hopened.opened)
  have hkeys : testEgressKeys.mirror ∈ groundKeys labelAuth := by decide +kernel
  exact ⟨datagram, hdatagram, hgcs _ hkeys _ 0 rfl (by decide) (Or.inl rfl)⟩

end NewMavlink.ProxyRelay
