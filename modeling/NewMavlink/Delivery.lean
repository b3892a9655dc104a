import NewMavlink.Channel

/-! # Exactly once

The two sessions of one derivation, one of which seals, and a network that loses, repeats and
reorders what was sealed, but hands over nothing that is past its deadline or lags 64 sequences or
more behind what was delivered.

* `hand_again`, `hand_first`: a record that was handed over before is refused, and every other one
  is delivered.
* `exactly_once`: so what is delivered is what was handed over, each record at its first time. -/

namespace NewMavlink.Delivery

open NewMavlink.Lib.Buffer NewMavlink.Lib.Runs NewMavlink.Lib.SlidingWindow NewMavlink.Wire
open NewMavlink.Crypto NewMavlink.Record.Header NewMavlink.Record.Replay
open NewMavlink.Record.SealOpen NewMavlink.Record.SendLog NewMavlink.Record.OpenCommit
open NewMavlink.Record.RoundTrip NewMavlink.Transport NewMavlink.Channel

/-- The two sessions, and the records that were handed over. -/
structure Net where
  link : Link
  handed : List Sent := []

/-- The sender seals, or the network hands over the i-th record that was sealed. -/
inductive NetOp where
  | seal (input : RecordHeader) (plaintext : Span UInt8) (output : RecordBuffer)
  | hand (i : ℕ) (nowMs : UInt32)

/-- The datagram of a record that was sealed. -/
def datagram (a : Sent) : List UInt8 := headerBytes a.header ++ a.ciphertext

/-- The sessions after a call, with what has been handed over. -/
def netStep (P : Aead) (x : Net) : NetOp → Net
  | .seal input plaintext output =>
    { x with link := linkStep P x.link (.send (.seal input plaintext output)) }
  | .hand i nowMs =>
    match x.link.sender.2[i]? with
    | none => x
    | some a =>
      { link := linkStep P x.link (.receive (some (datagram a)) nowMs), handed := x.handed ++ [a] }

/-- The record is not past its deadline, nor behind the replay window. -/
structure Timely (nowMs : UInt32) (delivered : List OpenRecord) (a : Sent) : Prop where
  deadline : a.header.deadlineMs = 0 ∨ nowMs.toNat ≤ a.header.deadlineMs.toNat
  lag : ∀ r ∈ delivered, r.header.sequence.toNat < a.header.sequence.toNat + 64

/-- Nothing is handed over too late. -/
def InTime (x : Net) : NetOp → Prop
  | .seal _ _ _ => True
  | .hand i nowMs => ∀ a ∈ x.link.sender.2[i]?, Timely nowMs x.link.delivered a

/-- The two sides of one derivation, before the first call. -/
def start (k : DirectionalKeys Block) : Net := { link := Channel.start k k.mirror }

/-- The header and the payload of a record that was sealed. -/
def sealedWhole (a : Sent) : RecordHeader × List UInt8 := (a.header, a.plaintext)

/-- And of one that was opened. -/
def openedWhole (r : OpenRecord) : RecordHeader × List UInt8 := (r.header, r.bytes)

/-- The record is what a session with the keys `k` seals. -/
def Genuine (P : Aead) (k : DirectionalKeys Block) (a : Sent) : Prop :=
  ∃ s input plaintext cipher, s.keys = k ∧ Sealable s input plaintext ∧
    sealCipher P s input plaintext = some cipher ∧ a = sentBy s input plaintext cipher

variable {P : Aead} {k : DirectionalKeys Block} {x : Net} {a : Sent} {nowMs : UInt32}

/-- **What holds after every call.** -/
structure Inv (P : Aead) (k : DirectionalKeys Block) (x : Net) : Prop where
  senderKeys : x.link.sender.1.keys = k
  receiverKeys : x.link.receiver.session.keys = k.mirror
  sender : Record.SendLog.Inv P x.link.sender
  receiver : Record.OpenCommit.Inv x.link.committing
  genuine : ∀ a ∈ x.link.sender.2, Genuine P k a
  handed : ∀ a ∈ x.handed, a ∈ x.link.sender.2
  delivered : x.link.delivered.map openedWhole = (x.handed.map sealedWhole).eraseDups

theorem Genuine.epoch (h : Genuine P k a) : a.header.epoch = k.session.epoch := by
  obtain ⟨s, input, plaintext, cipher, rfl, hsealable, -, rfl⟩ := h
  exact hsealable.epoch

theorem Inv.eq_of_sequence (h : Inv P k x) {b : Sent} (ha : a ∈ x.link.sender.2)
    (hb : b ∈ x.link.sender.2) (hsequence : a.header.sequence = b.header.sequence) : a = b := by
  have hnodup : (x.link.sender.2.map fun a => (a.header.epoch, a.header.sequence)).Nodup := by
    rw [List.Nodup, List.pairwise_map]
    refine h.sender.sorted.imp fun {a b} hab heq => ?_
    obtain ⟨hepoch, hsame⟩ := Prod.mk.inj heq
    rcases hab with hlt | ⟨-, hlt⟩
    · exact UInt64.ne_of_lt hlt hepoch
    · exact UInt64.ne_of_lt hlt hsame
  refine List.inj_on_of_nodup_map hnodup ha hb (Prod.ext ?_ hsequence)
  exact (h.genuine a ha).epoch.trans (h.genuine b hb).epoch.symm

theorem Inv.handed_of_delivered (h : Inv P k x) {r : OpenRecord} (hr : r ∈ x.link.delivered) :
    ∃ a ∈ x.handed, openedWhole r = sealedWhole a := by
  have hmem : openedWhole r ∈ (x.handed.map sealedWhole).eraseDups := by
    rw [← h.delivered]
    exact List.mem_map_of_mem hr
  obtain ⟨a, ha, heq⟩ := List.mem_map.mp (List.mem_eraseDups.mp hmem)
  exact ⟨a, ha, heq.symm⟩

theorem Inv.delivered_of_handed (h : Inv P k x) (ha : sealedWhole a ∈ x.handed.map sealedWhole) :
    ∃ r ∈ x.link.delivered, openedWhole r = sealedWhole a := by
  have hmem : sealedWhole a ∈ x.link.delivered.map openedWhole := by
    rw [h.delivered]
    exact List.mem_eraseDups.mpr ha
  exact List.mem_map.mp hmem

theorem Inv.sequencesOf_eq (h : Inv P k x) :
    sequencesOf x.link.receiver.session.keys.session.epoch x.link.delivered =
      x.link.delivered.map fun r => r.header.sequence := by
  unfold sequencesOf
  refine congrArg _ (List.filter_eq_self.mpr fun r hr => ?_)
  obtain ⟨a, ha, heq⟩ := h.handed_of_delivered hr
  have hheader : r.header = a.header := congrArg Prod.fst heq
  rw [hheader, (h.genuine a (h.handed a ha)).epoch, h.receiverKeys]
  exact decide_eq_true rfl

theorem Inv.not_taken (h : Inv P k x) (ha : a ∈ x.link.sender.2)
    (hfirst : sealedWhole a ∉ x.handed.map sealedWhole) {r : OpenRecord}
    (hr : r ∈ x.link.delivered) : r.header.sequence ≠ a.header.sequence := by
  intro hsequence
  obtain ⟨b, hb, heq⟩ := h.handed_of_delivered hr
  have hheader : r.header = b.header := congrArg Prod.fst heq
  rw [hheader] at hsequence
  obtain rfl := h.eq_of_sequence (h.handed b hb) ha hsequence
  exact hfirst (List.mem_map_of_mem hb)

/-! ### Handing over -/

theorem udpReceive_datagram (h : Genuine P k a) :
    udpReceive (some (datagram a)) = some (datagram a) := by
  obtain ⟨s, input, plaintext, cipher, -, hsealable, hcipher, rfl⟩ := h
  exact udpReceive_sealed hsealable hcipher

/-- The window admits the record exactly if its sequence is not taken and not behind. -/
theorem Inv.accepted_iff (h : Inv P k x) : x.link.receiver.session.replay.accepted
      a.header.sequence = true ↔
    Admits 64 (seqSet (x.link.delivered.map fun r => r.header.sequence))
      a.header.sequence.toNat := by
  rw [← h.sequencesOf_eq]
  exact h.receiver.refines.accepted_iff

/-- **A record that was handed over before** is refused. -/
theorem hand_again (h : Inv P k x) (ha : a ∈ x.link.sender.2)
    (hagain : sealedWhole a ∈ x.handed.map sealedWhole) :
    linkStep P x.link (.receive (some (datagram a)) nowMs) = x.link := by
  rw [linkStep]
  rcases receive_cases P x.link.receiver (some (datagram a)) nowMs with
    ⟨error, he⟩ | ⟨bytes, r, hbytes, hopen, -⟩
  · rw [he]
    rfl
  · -- it would have to be accepted, but its sequence is taken
    exfalso
    rw [udpReceive_datagram (h.genuine a ha)] at hbytes
    obtain rfl := Option.some.inj hbytes
    obtain ⟨_, header, plaintext, hdata, hdecode, -, -, rfl⟩ := openUncommitted_eq_ok.mp hopen
    cases hdata
    have hheader : header = a.header := by
      rw [decodeHeader_eq_some hdecode, Span.elems_data, datagram, readHeader_headerBytes]
    have haccepted := accepted_of_open hopen
    rw [header_openRecord, hheader, h.accepted_iff] at haccepted
    obtain ⟨r, hr, heq⟩ := h.delivered_of_handed hagain
    refine not_mem_of_admits haccepted (mem_seqSet.mpr (List.mem_map.mpr ⟨r, hr, ?_⟩))
    exact congrArg (fun y => y.1.sequence) heq

/-- **A record that is handed over for the first time**, in time, is delivered. -/
theorem hand_first (hP : P.Correct) (h : Inv P k x) (ha : a ∈ x.link.sender.2)
    (htimely : Timely nowMs x.link.delivered a)
    (hfirst : sealedWhole a ∉ x.handed.map sealedWhole) :
    ∃ r, openedWhole r = sealedWhole a ∧
      linkStep P x.link (.receive (some (datagram a)) nowMs) =
        { x.link with
          receiver := Transport.delivered x.link.receiver r
          delivered := x.link.delivered ++ [r] } ∧
      r.header.epoch = x.link.receiver.session.keys.session.epoch ∧
      x.link.receiver.session.replay.accepted r.header.sequence = true := by
  have haccepted : x.link.receiver.session.replay.accepted a.header.sequence = true := by
    rw [h.accepted_iff]
    have hbehind : (seqSet (x.link.delivered.map fun r => r.header.sequence)).sup id <
        a.header.sequence.toNat + 64 := by
      rw [Finset.sup_lt_iff (by show 0 < _; omega)]
      intro n hn
      simp only [seqSet, List.map_map, List.mem_toFinset, List.mem_map] at hn
      obtain ⟨r, hr, rfl⟩ := hn
      exact htimely.lag r hr
    refine Or.inr ?_
    by_cases hlt : (seqSet (x.link.delivered.map fun r => r.header.sequence)).sup id <
        a.header.sequence.toNat
    · exact Or.inl hlt
    · refine Or.inr ⟨by omega, fun hmem => ?_⟩
      obtain ⟨r, hr, hsequence⟩ := List.mem_map.mp (mem_seqSet.mp hmem)
      exact h.not_taken ha hfirst hr hsequence
  obtain ⟨s, input, plaintext, cipher, hkeys, hsealable, hcipher, rfl⟩ := h.genuine a ha
  have hmirrors : Mirrors s x.link.receiver.session :=
    mirrors_mirror hsealable.keys (by rw [h.receiverKeys, hkeys])
  have hreceive := receive_sealed hP hsealable hcipher hmirrors haccepted htimely.deadline
  refine ⟨openRecord (sealedHeader input plaintext.length) plaintext.elems, ?_, ?_,
    hsealable.epoch.trans ?_, haccepted⟩
  · show (_, OpenRecord.bytes _) = _
    rw [bytes_openRecord _ ((Span.length_elems hsealable.notNull).trans_le hsealable.length)]
    rfl
  · rw [linkStep]
    exact congrArg (logDelivery x.link) hreceive
  · rw [h.receiverKeys, hkeys]
    rfl

/-! ### Runs -/

theorem eraseDups_concat {α : Type} [BEq α] [LawfulBEq α] (l : List α) (y : α) :
    (y ∈ l → (l ++ [y]).eraseDups = l.eraseDups) ∧
      (y ∉ l → (l ++ [y]).eraseDups = l.eraseDups ++ [y]) := by
  rw [List.eraseDups_append]
  exact ⟨fun h => by simp [List.removeAll, h], fun h => by simp [List.removeAll, h,
    List.eraseDups_cons]⟩

theorem inv_start (P : Aead) (k : DirectionalKeys Block) : Inv P k (start k) where
  senderKeys := rfl
  receiverKeys := rfl
  sender := Record.SendLog.inv_start P _
  receiver := inv_fresh _
  genuine := by simp [start, Channel.start]
  handed := by simp [start]
  delivered := rfl

theorem inv_seal (h : Inv P k x) (input : RecordHeader) (plaintext : Span UInt8)
    (output : RecordBuffer) : Inv P k (netStep P x (.seal input plaintext output)) := by
  have hsender := inv_sendStep P x.link.sender (.seal input plaintext output) h.sender
  unfold netStep linkStep
  dsimp only
  rcases seal_cases P x.link.sender.1 input plaintext output with
    ⟨error, hrefused⟩ | ⟨cipher, hsealable, hcipher, -⟩
  · rw [sendStep, hrefused, logSeal]
    exact h
  · rw [sendStep_of_sealable hsealable hcipher output] at hsender ⊢
    refine { h with senderKeys := h.senderKeys, sender := hsender, genuine := ?_, handed := ?_ }
    · exact forall_mem_log h.genuine
        ⟨x.link.sender.1, input, plaintext, cipher, h.senderKeys, hsealable, hcipher, rfl⟩
    · exact fun a ha => List.mem_append_left _ (h.handed a ha)

/-- **Every call keeps the invariant.** -/
theorem inv_netStep (hP : P.Correct) (x : Net) (op : NetOp) (h : Inv P k x) (htime : InTime x op) :
    Inv P k (netStep P x op) := by
  cases op with
  | «seal» input plaintext output => exact inv_seal h input plaintext output
  | hand i nowMs =>
    unfold netStep
    dsimp only
    cases hi : x.link.sender.2[i]? with
    | none => exact h
    | some a =>
      have ha : a ∈ x.link.sender.2 := List.mem_of_getElem? hi
      obtain ⟨hagain, hfirst⟩ := eraseDups_concat (x.handed.map sealedWhole) (sealedWhole a)
      have hhanded : ∀ b ∈ x.handed ++ [a], b ∈ x.link.sender.2 := forall_mem_log h.handed ha
      by_cases hmem : sealedWhole a ∈ x.handed.map sealedWhole
      · dsimp only
        rw [hand_again h ha hmem]
        refine { h with handed := hhanded, delivered := ?_ }
        rw [h.delivered, List.map_append, List.map_singleton, hagain hmem]
      · obtain ⟨r, hwhole, hstep, hepoch, haccepted⟩ := hand_first hP h ha (htime a hi) hmem
        dsimp only
        rw [hstep]
        refine { h with receiver := ?_, handed := hhanded, delivered := ?_ }
        · exact inv_commit h.receiver hepoch haccepted
        · rw [List.map_append, List.map_append, List.map_singleton, List.map_singleton,
            h.delivered, hfirst hmem, hwhole]

/-- **Exactly once.** In every run of the two sessions of one derivation, with a correct AEAD and a
network that may lose, repeat and reorder what was sealed: if nothing is handed over past its
deadline, or 64 sequences or more behind what was delivered, then the records delivered, header and
payload, are those that were handed over, each when it was handed over first, in that order. -/
theorem exactly_once (hP : P.Correct) {ops : List NetOp}
    (htime : Along (netStep P) InTime (start k) ops) :
    let x := run (netStep P) (start k) ops
    x.link.delivered.map openedWhole = (x.handed.map sealedWhole).eraseDups ∧
      ∀ a ∈ x.handed, a ∈ x.link.sender.2 := by
  intro x
  have h : Inv P k x := run_invariant (inv_netStep hP) (inv_start P k) htime
  exact ⟨h.delivered, h.handed⟩

/-- The sender seals the record of `security_test.cpp`, and one more. -/
def testSeals : List NetOp :=
  [.seal (testHeader 3 4) (.data testPlain) (List.Vector.replicate _ 0),
    .seal (testHeader 3 5) (.data testPlain) (List.Vector.replicate _ 0)]

/-- The second record arrives before the first, and then once more. -/
def testOps : List NetOp := testSeals ++ [.hand 1 0, .hand 0 0, .hand 1 0]

/-- What is sealed under the sequence. -/
def testSent (sequence : UInt64) : Sent :=
  sentBy { keys := testKeys 3 1 2 } (testHeader 3 sequence) (.data testPlain)
    (testPlain ++ List.replicate kTagBytes 0)

/-- The two sessions when both records are sealed. -/
def testNet : Net where
  link := { testLink with
    sender := (testLink.sender.1.sent 5, [testSent 4, testSent 5]) }

theorem seals_test : run (netStep paddingAead) (start (testKeys 3 1 2)) testSeals = testNet := by
  have hsealable : Sealable testLink.sender.1 (testHeader 3 5) (.data testPlain) := by
    constructor <;> decide
  have hfirst : netStep paddingAead (start (testKeys 3 1 2))
      (.seal (testHeader 3 4) (.data testPlain) (List.Vector.replicate _ 0)) =
        { link := testLink } := by
    rw [netStep, start, linkStep_test]
  rw [testSeals, run_cons, run_cons, run_nil, hfirst, netStep, linkStep,
    sendStep_of_sealable hsealable (sealCipher_testPlain _ 3 5)]
  rfl

theorem hand_test {x : Net} {i : ℕ} {sequence : UInt64}
    (hi : x.link.sender.2[i]? = some (testSent sequence))
    (hkeys : x.link.receiver.session.keys = (testKeys 3 1 2).mirror)
    (hs : Sealable { keys := testKeys 3 1 2 } (testHeader 3 sequence) (.data testPlain))
    (ha : x.link.receiver.session.replay.accepted sequence = true) :
    netStep paddingAead x (.hand i 0) = {
      link := { x.link with
        receiver := Transport.delivered x.link.receiver (testOpened sequence)
        delivered := x.link.delivered ++ [testOpened sequence] }
      handed := x.handed ++ [testSent sequence] } := by
  have hdatagram : datagram (testSent sequence) = testRecord 3 sequence := rfl
  rw [netStep, hi]
  dsimp only
  rw [linkStep, hdatagram, receive_test hkeys hs ha]
  rfl

/-- The sessions when the second record has arrived. -/
def testSecond : Net := netStep paddingAead testNet (.hand 1 0)

/-- And when the first has too. -/
def testBoth : Net := netStep paddingAead testSecond (.hand 0 0)

theorem testSecond_eq : testSecond = {
    link := { testNet.link with
      receiver := Transport.delivered testNet.link.receiver (testOpened 5)
      delivered := [testOpened 5] }
    handed := [testSent 5] } :=
  hand_test rfl rfl (by constructor <;> decide) (by decide)

theorem testBoth_eq : testBoth = {
    link := { testSecond.link with
      receiver := Transport.delivered testSecond.link.receiver (testOpened 4)
      delivered := [testOpened 5, testOpened 4] }
    handed := [testSent 5, testSent 4] } := by
  have hi : testSecond.link.sender.2[0]? = some (testSent 4) := by rw [testSecond_eq]; rfl
  have hkeys : testSecond.link.receiver.session.keys = (testKeys 3 1 2).mirror := by
    rw [testSecond_eq]
    rfl
  have haccepted : testSecond.link.receiver.session.replay.accepted 4 = true := by
    rw [testSecond_eq]
    decide
  rw [testBoth, hand_test hi hkeys sealable_test haccepted, testSecond_eq]
  rfl

theorem inTime_test : Along (netStep paddingAead) InTime (start (testKeys 3 1 2)) testOps := by
  have hlate : ∀ {x : Net} {i : ℕ} (sequence : UInt64),
      x.link.sender.2[i]? = some (testSent sequence) →
      (∀ r ∈ x.link.delivered, r.header.sequence.toNat < sequence.toNat + 64) →
      InTime x (.hand i 0) := by
    intro x i sequence hi hlag a ha
    obtain rfl := Option.some.inj (hi.symm.trans ha)
    exact ⟨Or.inl rfl, hlag⟩
  rw [testOps, along_append, seals_test]
  refine ⟨⟨trivial, trivial, trivial⟩, hlate 5 rfl ?_, ?_, ?_, trivial⟩
  · exact fun r hr => absurd hr List.not_mem_nil
  · rw [← testSecond, testSecond_eq]
    exact hlate 4 rfl (by decide)
  · rw [← testSecond, ← testBoth, testBoth_eq, testSecond_eq]
    exact hlate 5 rfl (by decide)

/-- The records are delivered in the order of their arrival, the second one once. -/
theorem exactly_once_test :
    let x := run (netStep paddingAead) (start (testKeys 3 1 2)) testOps
    x.handed = [testSent 5, testSent 4, testSent 5] ∧
      x.link.delivered.map openedWhole = (x.handed.map sealedWhole).eraseDups ∧
      x.link.delivered.length = 2 := by
  dsimp only
  obtain ⟨hdelivered, -⟩ := exactly_once correct_paddingAead inTime_test
  have hhanded : (run (netStep paddingAead) (start (testKeys 3 1 2)) testOps).handed =
      [testSent 5, testSent 4, testSent 5] := by
    have hi : testBoth.link.sender.2[1]? = some (testSent 5) := by
      rw [testBoth_eq, testSecond_eq]
      rfl
    rw [testOps, run_append, seals_test, run_cons, run_cons, run_cons, run_nil, ← testSecond,
      ← testBoth, netStep, hi, testBoth_eq]
    rfl
  have htwo : ([testSent 5, testSent 4, testSent 5].map sealedWhole).eraseDups.length = 2 := by
    decide +kernel
  refine ⟨hhanded, hdelivered, ?_⟩
  rw [← List.length_map openedWhole, hdelivered, hhanded, htwo]

end NewMavlink.Delivery
