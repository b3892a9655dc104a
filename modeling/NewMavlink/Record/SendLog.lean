import NewMavlink.Lib.Runs
import NewMavlink.Record.SealOpen

/-! # What a session sends

Runs of `seal` and `rekey` on one session, with a log of the records that were sealed and of the
key, nonce and texts of their AEAD calls.

* `inv_sendStep`: the log is increasing in (epoch, sequence) and ends below the session's present
  epoch and send high water.
* `sends_increasing`: over every run, sequences increase within an epoch and epochs along the run,
  the nonces of one epoch are distinct, the last sequence is never used, and failures change
  nothing.
* `sends_reuse_iff`: two seals share key and nonce exactly if they belong to epochs with the same
  key and agree in epoch XOR sequence; `sends_reuse_across_rekey` is such a run. -/

namespace NewMavlink.Record.SendLog

open NewMavlink.Lib.Buffer NewMavlink.Lib.Runs NewMavlink.Wire NewMavlink.Crypto
open NewMavlink.Record.Header NewMavlink.Record.SealOpen

/-- A call on a session that sends. -/
inductive SendOp where
  | seal (input : RecordHeader) (plaintext : Span UInt8) (output : RecordBuffer)
  | rekey (nextKeys : DirectionalKeys Block)

/-- A sealed record: the header it carries, and the AEAD call that made it. -/
structure Sent where
  header : RecordHeader
  key : Block
  nonce : Block
  plaintext : List UInt8
  ciphertext : List UInt8

/-- The session after a seal, and the log with the record it returned. -/
def logSeal (x : Session × List Sent) (input : RecordHeader) (plaintext : Span UInt8) :
    Except RecordError (List UInt8) × Session → Session × List Sent
  | (.ok record, s) =>
    (s, x.2 ++ [⟨readHeader record, x.1.keys.tx, makeNonce x.1.keys.session input.sequence,
      plaintext.elems, record.drop kHeaderBytes⟩])
  | (.error _, s) => (s, x.2)

/-- One call, with the records sealed so far. -/
def sendStep (P : Aead) (x : Session × List Sent) : SendOp → Session × List Sent
  | .seal input plaintext output =>
    logSeal x input plaintext (x.1.seal P input plaintext output)
  | .rekey nextKeys => ((x.1.rekey nextKeys).2, x.2)

/-- The session after a list of calls, and the records sealed. -/
def sends (P : Aead) (s : Session) (ops : List SendOp) : Session × List Sent :=
  run (sendStep P) (s, []) ops

/-- The log entry of a seal. -/
def sentBy (s : Session) (input : RecordHeader) (plaintext : Span UInt8) (cipher : List UInt8) :
    Sent :=
  ⟨sealedHeader input plaintext.length, s.keys.tx, makeNonce s.keys.session input.sequence,
    plaintext.elems, cipher⟩

theorem logSeal_sealed (x : Session × List Sent) (input : RecordHeader) (plaintext : Span UInt8)
    (cipher : List UInt8) (s' : Session) :
    logSeal x input plaintext
        (.ok (headerBytes (sealedHeader input plaintext.length) ++ cipher), s') =
      (s', x.2 ++ [sentBy x.1 input plaintext cipher]) := by
  rw [logSeal, readHeader_headerBytes, List.drop_left' (length_headerBytes _), sentBy]

theorem sendStep_of_sealable {P : Aead} {x : Session × List Sent} {input : RecordHeader}
    {plaintext : Span UInt8} {cipher : List UInt8} (hs : Sealable x.1 input plaintext)
    (hc : sealCipher P x.1 input plaintext = some cipher) (output : RecordBuffer) :
    sendStep P x (.seal input plaintext output) =
      (x.1.sent input.sequence, x.2 ++ [sentBy x.1 input plaintext cipher]) := by
  rw [sendStep, seal_eq_ok.mpr ⟨hs, cipher, hc, rfl, rfl⟩, logSeal_sealed]

/-- **What one call can do.** -/
theorem sendStep_cases (P : Aead) (x : Session × List Sent) (op : SendOp) :
    sendStep P x op = x ∨
      (∃ input plaintext cipher, Sealable x.1 input plaintext ∧
        sealCipher P x.1 input plaintext = some cipher ∧
        sendStep P x op = (x.1.sent input.sequence, x.2 ++ [sentBy x.1 input plaintext cipher])) ∨
      ∃ nextKeys, Rekeyable x.1 nextKeys ∧ sendStep P x op = ({ keys := nextKeys }, x.2) := by
  cases op with
  | «seal» input plaintext output =>
    rcases seal_cases P x.1 input plaintext output with ⟨e, he⟩ | ⟨cipher, hs, hc, he⟩
    · exact Or.inl (by rw [sendStep, he, logSeal])
    · refine Or.inr (Or.inl ⟨input, plaintext, cipher, hs, hc, ?_⟩)
      exact sendStep_of_sealable hs hc output
  | rekey nextKeys =>
    rcases rekey_cases x.1 nextKeys with he | ⟨hr, he⟩
    · exact Or.inl (by rw [sendStep, he])
    · exact Or.inr (Or.inr ⟨nextKeys, hr, by rw [sendStep, he]⟩)

theorem mem_sendStep {P : Aead} {x : Session × List Sent} {op : SendOp} {a : Sent} (ha : a ∈ x.2) :
    a ∈ (sendStep P x op).2 := by
  rcases sendStep_cases P x op with he | ⟨_, _, _, -, -, he⟩ | ⟨_, -, he⟩
  · rw [he]; exact ha
  · rw [he]; exact List.mem_append_left _ ha
  · rw [he]; exact ha

/-! ### The invariant -/

/-- `a` has a smaller (epoch, sequence) than `b`. -/
def Before (a b : Sent) : Prop :=
  a.header.epoch < b.header.epoch ∨
    (a.header.epoch = b.header.epoch ∧ a.header.sequence < b.header.sequence)

/-- Sealed in the session's present epoch, up to its high water. -/
structure Current (s : Session) (a : Sent) : Prop where
  epoch : a.header.epoch = s.keys.session.epoch
  key : a.key = s.keys.tx
  initialized : s.sendInitialized = true
  sequence : a.header.sequence ≤ s.sendHighWater

/-- **What holds after every call.** -/
structure Inv (P : Aead) (x : Session × List Sent) : Prop where
  sorted : x.2.Pairwise Before
  below : ∀ a ∈ x.2, a.header.epoch < x.1.keys.session.epoch ∨ Current x.1 a
  notMax : ∀ a ∈ x.2, a.header.sequence ≠ kUint64Max
  call : ∀ a ∈ x.2, P.encrypt a.plaintext (headerBytes a.header) a.nonce a.key = some a.ciphertext
  nonce : ∀ a ∈ x.2,
    a.nonce = makeNonce ⟨x.1.keys.session.value, a.header.epoch⟩ a.header.sequence
  sameKey : ∀ a ∈ x.2, ∀ b ∈ x.2, a.header.epoch = b.header.epoch → a.key = b.key

theorem inv_start (P : Aead) (s : Session) : Inv P (s, []) := by
  constructor <;> simp

variable {P : Aead} {s : Session} {log : List Sent} {x : Session × List Sent} {a b : Sent}

theorem inv_rekey {nextKeys : DirectionalKeys Block} (h : Inv P (s, log))
    (hr : Rekeyable s nextKeys) : Inv P ({ keys := nextKeys }, log) where
  sorted := h.sorted
  below a ha := Or.inl <| by
    rcases h.below a ha with hb | hb
    · exact UInt64.lt_trans hb hr.epoch
    · exact hb.epoch ▸ hr.epoch
  notMax := h.notMax
  call := h.call
  nonce a ha := by
    have := h.nonce a ha
    rwa [← hr.session] at this
  sameKey := h.sameKey

theorem Inv.key_of_epoch (h : Inv P (s, log)) (ha : a ∈ log)
    (he : a.header.epoch = s.keys.session.epoch) : a.key = s.keys.tx := by
  rcases h.below a ha with hlt | hc
  · exact absurd he (UInt64.ne_of_lt hlt)
  · exact hc.key

theorem inv_seal {input : RecordHeader} {plaintext : Span UInt8} {cipher : List UInt8}
    (h : Inv P (s, log)) (hs : Sealable s input plaintext)
    (hc : sealCipher P s input plaintext = some cipher) :
    Inv P (s.sent input.sequence, log ++ [sentBy s input plaintext cipher]) := by
  have hseq : ∀ a ∈ log, Current s a → a.header.sequence < input.sequence := by
    intro a _ ha
    exact UInt64.lt_of_le_of_lt ha.sequence (hs.fresh ha.initialized)
  have hbefore : ∀ a ∈ log, Before a (sentBy s input plaintext cipher) := by
    intro a ha
    rcases h.below a ha with hlt | hcur
    · exact Or.inl (hs.epoch ▸ hlt)
    · exact Or.inr ⟨hcur.epoch.trans hs.epoch.symm, hseq a ha hcur⟩
  constructor
  · refine List.pairwise_append.mpr ⟨h.sorted, List.pairwise_singleton _ _, ?_⟩
    intro a ha b hb
    rw [List.mem_singleton.mp hb]
    exact hbefore a ha
  · refine forall_mem_log (fun a ha => ?_) ?_
    · rcases h.below a ha with hlt | hcur
      · exact Or.inl hlt
      · exact Or.inr ⟨hcur.epoch, hcur.key, rfl, UInt64.le_of_lt (hseq a ha hcur)⟩
    · exact Or.inr ⟨hs.epoch, rfl, rfl, UInt64.le_refl _⟩
  · exact forall_mem_log h.notMax hs.sequence
  · obtain ⟨-, -, -, -, he, -⟩ := aeadSeal_eq_some.mp hc
    exact forall_mem_log h.call he
  · have he : s.keys.session = ⟨s.keys.session.value, input.epoch⟩ := by rw [hs.epoch]
    exact forall_mem_log h.nonce (congrArg (makeNonce · input.sequence) he)
  · -- two entries of one epoch: both old, or the new one and one of the present epoch
    refine forall_mem_log (fun a ha => forall_mem_log (h.sameKey a ha) ?_)
      (forall_mem_log (fun b hb => ?_) fun _ => rfl)
    · intro he
      exact h.key_of_epoch ha (he.trans hs.epoch)
    · intro he
      exact (h.key_of_epoch hb (he.symm.trans hs.epoch)).symm

/-- **Every call keeps the invariant.** -/
theorem inv_sendStep (P : Aead) (x : Session × List Sent) (op : SendOp) (h : Inv P x) :
    Inv P (sendStep P x op) := by
  obtain ⟨s, log⟩ := x
  rcases sendStep_cases P (s, log) op with he | ⟨input, plaintext, cipher, hs, hc, he⟩ |
    ⟨nextKeys, hr, he⟩
  · rw [he]; exact h
  · rw [he]; exact inv_seal h hs hc
  · rw [he]; exact inv_rekey h hr

theorem inv_sends (P : Aead) (s : Session) (ops : List SendOp) : Inv P (sends P s ops) :=
  run_keeps (inv_sendStep P) ops (inv_start P s)

/-! ### Runs -/

/-- Two nonces of the log agree exactly if epoch XOR sequence does. -/
theorem Inv.nonce_eq_iff (h : Inv P x) (ha : a ∈ x.2) (hb : b ∈ x.2) : a.nonce = b.nonce ↔
    a.header.epoch ^^^ a.header.sequence = b.header.epoch ^^^ b.header.sequence := by
  rw [h.nonce a ha, h.nonce b hb, makeNonce_inj]
  exact and_iff_right rfl

theorem Inv.nonce_ne (h : Inv P x) (ha : a ∈ x.2) (hb : b ∈ x.2) (hab : Before a b)
    (he : a.header.epoch = b.header.epoch) : a.nonce ≠ b.nonce := by
  rw [Ne, h.nonce_eq_iff ha hb, he, UInt64.xor_right_inj]
  rcases hab with hlt | ⟨-, hlt⟩
  · exact absurd he (UInt64.ne_of_lt hlt)
  · exact UInt64.ne_of_lt hlt

/-- **Sequences increase.** Over any run of seals and rekeys the pairs (epoch, sequence) of the
sealed records strictly increase, the nonces of one epoch are distinct, no record carries the last
sequence, and a call that fails changes nothing. -/
theorem sends_increasing (P : Aead) (s : Session) (ops : List SendOp) :
    (sends P s ops).2.Pairwise Before ∧
    (∀ epoch, (((sends P s ops).2.filter (·.header.epoch = epoch)).map Sent.nonce).Nodup) ∧
    (∀ a ∈ (sends P s ops).2, a.header.sequence ≠ kUint64Max) ∧
    (∀ input plaintext output e s',
      (sends P s ops).1.seal P input plaintext output = (.error e, s') →
      s' = (sends P s ops).1) ∧
    (∀ nextKeys e s', (sends P s ops).1.rekey nextKeys = (.error e, s') →
      s' = (sends P s ops).1) := by
  have h := inv_sends P s ops
  refine ⟨h.sorted, ?_, h.notMax, ?_, ?_⟩
  · intro epoch
    rw [List.Nodup, List.pairwise_map]
    refine List.Pairwise.imp_of_mem (fun {a b} ha hb hab => ?_) (h.sorted.filter _)
    simp only [List.mem_filter, decide_eq_true_eq] at ha hb
    exact h.nonce_ne ha.1 hb.1 hab (ha.2.trans hb.2.symm)
  · intro input plaintext output e s' he
    rcases seal_cases P (sends P s ops).1 input plaintext output with ⟨e', hc⟩ | ⟨_, -, -, hc⟩
    · exact (Prod.mk.inj (hc.symm.trans he)).2.symm
    · simp [hc] at he
  · intro nextKeys e s' he
    rcases rekey_cases (sends P s ops).1 nextKeys with hc | ⟨-, hc⟩
    · exact (Prod.mk.inj (hc.symm.trans he)).2.symm
    · simp [hc] at he

/-- **When two seals use the same key and nonce.** Over any run of seals and rekeys an earlier and
a later seal encrypt under the same key and the same nonce exactly if they belong to different
epochs with the same key, and agree in epoch XOR sequence. -/
theorem sends_reuse_iff (P : Aead) (s : Session) (ops : List SendOp) :
    (∀ a ∈ (sends P s ops).2,
      P.encrypt a.plaintext (headerBytes a.header) a.nonce a.key = some a.ciphertext) ∧
    (sends P s ops).2.Pairwise fun a b =>
      (a.key = b.key ∧ a.nonce = b.nonce ↔
        a.header.epoch < b.header.epoch ∧ a.key = b.key ∧
          a.header.epoch ^^^ a.header.sequence = b.header.epoch ^^^ b.header.sequence) := by
  have h := inv_sends P s ops
  refine ⟨h.call, List.Pairwise.imp_of_mem (fun {a b} ha hb hab => ?_) h.sorted⟩
  rw [← h.nonce_eq_iff ha hb]
  constructor
  · rintro ⟨hk, hn⟩
    refine ⟨?_, hk, hn⟩
    rcases hab with hlt | ⟨he, hlt⟩
    · exact hlt
    · exact absurd hn (h.nonce_ne ha hb (Or.inr ⟨he, hlt⟩) he)
  · rintro ⟨-, hk, hn⟩
    exact ⟨hk, hn⟩

/-- A seal of sequence 0 in epoch 1, a rekey to epoch 2 that keeps the keys, and a seal of
sequence 3: both nonces are `77, 1`. -/
theorem sends_reuse_across_rekey :
    ¬ (sends paddingAead { keys := testKeys 1 1 2 }
      [.seal (testHeader 1 0) (.data testPlain) (List.Vector.replicate _ 0),
        .rekey (testKeys 2 1 2),
        .seal (testHeader 2 3) (.data testPlain) (List.Vector.replicate _ 0)]).2.Pairwise
      fun a b => ¬ (a.key = b.key ∧ a.nonce = b.nonce) := by
  have h1 : Sealable { keys := testKeys 1 1 2 } (testHeader 1 0) (.data testPlain) := by
    constructor <;> decide
  have h2 : Sealable { keys := testKeys 2 1 2 } (testHeader 2 3) (.data testPlain) := by
    constructor <;> decide
  have hr : (Session.sent { keys := testKeys 1 1 2 } 0).rekey (testKeys 2 1 2) =
      (.ok (), { keys := testKeys 2 1 2 }) := by decide
  simp only [sends, run_cons, run_nil, sendStep, seal_test _ h1, logSeal, hr, seal_test _ h2,
    List.nil_append, List.singleton_append, List.pairwise_pair, not_not]
  exact ⟨rfl, makeNonce_inj.mpr ⟨rfl, by decide⟩⟩

end NewMavlink.Record.SendLog
