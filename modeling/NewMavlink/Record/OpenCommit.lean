import NewMavlink.Record.RoundTrip

/-! # Opening and committing across rekeys

Runs of `open_uncommitted`, `commit_replay` and `rekey` on one session, with the records it has
opened (the caller holds them as long as it likes) and those it has committed.
`open_uncommitted` checks the epoch of a record against the session's; `commit_replay` looks at the
sequence only, so a record opened before a rekey still goes into the window of the new epoch.

* `inv_receiveStep`: as long as each commit is of the present epoch or refused by the window, the
  window refines the set of sequences committed in the present epoch.
* `receives_safe_iff`: exactly then no (epoch, sequence) is committed twice and only records of the
  present epoch change the window; `receives_commit_twice` is a run in which a record is held
  across a rekey. -/

namespace NewMavlink.Record.OpenCommit

open NewMavlink.Lib.Buffer NewMavlink.Lib.Runs NewMavlink.Lib.SlidingWindow NewMavlink.Wire
open NewMavlink.Crypto NewMavlink.Record.Replay NewMavlink.Record.SealOpen
open NewMavlink.Record.RoundTrip

/-- A call on a session that receives. -/
inductive ReceiveOp where
  | open (record : Span UInt8) (nowMs : UInt32)
  | commit (record : OpenRecord)
  | rekey (nextKeys : DirectionalKeys Block)

/-- A session with the records it has opened and those it has committed. -/
structure Receiver where
  session : Session
  opened : List OpenRecord := []
  committed : List OpenRecord := []

/-- A session as it is constructed. -/
def Receiver.fresh (keys : DirectionalKeys Block) : Receiver := { session := { keys := keys } }

/-- The receiver after an open: the record is logged, if it was opened. -/
def logOpen (x : Receiver) : Except RecordError OpenRecord → Receiver
  | .ok r => { x with opened := x.opened ++ [r] }
  | .error _ => x

/-- The receiver after a commit: the record is logged, if it was committed. -/
def logCommit (x : Receiver) (r : OpenRecord) : Except RecordError Unit × Session → Receiver
  | (.ok _, s) => { x with session := s, committed := x.committed ++ [r] }
  | (.error _, s) => { x with session := s }

/-- One call. -/
def receiveStep (P : Aead) (x : Receiver) : ReceiveOp → Receiver
  | .open record nowMs => logOpen x (x.session.openUncommitted P record nowMs)
  | .commit r => logCommit x r (x.session.commitReplay r)
  | .rekey nextKeys => { x with session := (x.session.rekey nextKeys).2 }

/-- The receiver after a list of calls. -/
def receives (P : Aead) (keys : DirectionalKeys Block) (ops : List ReceiveOp) : Receiver :=
  run (receiveStep P) (.fresh keys) ops

/-! ### What is asked and promised of a call -/

/-- Only records that the session has opened are committed. -/
def Held (x : Receiver) : ReceiveOp → Prop
  | .commit r => r ∈ x.opened
  | _ => True

/-- A commit is of the present epoch, or the window refuses it. -/
def Guarded (x : Receiver) : ReceiveOp → Prop
  | .commit r => r.header.epoch = x.session.keys.session.epoch ∨
      x.session.replay.accepted r.header.sequence = false
  | _ => True

/-- A commit that changes the replay window is of the present epoch. -/
def ByEpoch (x : Receiver) : ReceiveOp → Prop
  | .commit r => (x.session.commitReplay r).2.replay ≠ x.session.replay →
      r.header.epoch = x.session.keys.session.epoch
  | _ => True

/-- The pair (epoch, sequence) of a record. -/
def slot (r : OpenRecord) : UInt64 × UInt64 := (r.header.epoch, r.header.sequence)

/-- No (epoch, sequence) is committed twice, and only records of the present epoch change the
window. -/
def Safe (P : Aead) (keys : DirectionalKeys Block) (ops : List ReceiveOp) : Prop :=
  ((receives P keys ops).committed.map slot).Nodup ∧
    Along (receiveStep P) ByEpoch (.fresh keys) ops

variable {P : Aead} {x : Receiver} {r : OpenRecord} {op : ReceiveOp}

theorem commit_of_refused (h : x.session.replay.accepted r.header.sequence = false) :
    receiveStep P x (.commit r) = x := by
  have hs : x.session.commitReplay r = (.error .replay, x.session) := by
    refine Prod.ext ?_ ?_
    · rw [commitReplay_fst, if_neg (by simp [h])]
    · rw [commitReplay_snd, ReplayWindow.commit_of_not_accepted h]
  rw [receiveStep, hs, logCommit]

theorem commit_of_accepted (h : x.session.replay.accepted r.header.sequence = true) :
    receiveStep P x (.commit r) =
      { x with
        session := { x.session with replay := (x.session.replay.commit r.header.sequence).2 }
        committed := x.committed ++ [r] } := by
  have hs : x.session.commitReplay r = (.ok (),
      { x.session with replay := (x.session.replay.commit r.header.sequence).2 }) := by
    refine Prod.ext ?_ rfl
    rw [commitReplay_fst, if_pos h]
  rw [receiveStep, hs, logCommit]

/-! ### The invariant -/

/-- The sequences committed in an epoch. -/
def sequencesOf (epoch : UInt64) (committed : List OpenRecord) : List UInt64 :=
  (committed.filter (·.header.epoch = epoch)).map (·.header.sequence)

theorem mem_sequencesOf {l : List OpenRecord} (h : slot r ∈ l.map slot) :
    r.header.sequence ∈ sequencesOf r.header.epoch l := by
  obtain ⟨c, hc, hs⟩ := List.mem_map.mp h
  obtain ⟨he, hq⟩ := Prod.mk.inj hs
  exact List.mem_map.mpr ⟨c, List.mem_filter.mpr ⟨hc, by simpa using he⟩, hq⟩

/-- **What holds after every guarded call.** -/
structure Inv (x : Receiver) : Prop where
  refines : Refines x.session.replay
    (seqSet (sequencesOf x.session.keys.session.epoch x.committed))
  past : ∀ r ∈ x.committed, r.header.epoch ≤ x.session.keys.session.epoch
  nodup : (x.committed.map slot).Nodup

theorem inv_fresh (keys : DirectionalKeys Block) : Inv (.fresh keys) :=
  ⟨Refines.fresh, by simp [Receiver.fresh], List.nodup_nil⟩

theorem inv_commit (h : Inv x) (he : r.header.epoch = x.session.keys.session.epoch)
    (ha : x.session.replay.accepted r.header.sequence = true) :
    Inv { x with
      session := { x.session with replay := (x.session.replay.commit r.header.sequence).2 }
      committed := x.committed ++ [r] } where
  refines := by
    have hnew : sequencesOf x.session.keys.session.epoch (x.committed ++ [r]) =
        sequencesOf x.session.keys.session.epoch x.committed ++ [r.header.sequence] := by
      simp [sequencesOf, List.filter_append, he]
    show Refines _ (seqSet (sequencesOf x.session.keys.session.epoch (x.committed ++ [r])))
    rw [hnew, seqSet_append]
    exact h.refines.commit ha
  past := by
    have hr : r.header.epoch ≤ x.session.keys.session.epoch := by rw [he]; exact UInt64.le_refl _
    exact forall_mem_log h.past hr
  nodup := by
    have hnot : slot r ∉ x.committed.map slot := by
      intro hr
      have hmem := mem_sequencesOf hr
      rw [he] at hmem
      exact not_mem_of_admits (h.refines.accepted_iff.mp ha) (mem_seqSet.mpr hmem)
    rw [List.map_append, List.map_singleton]
    exact nodup_log h.nodup hnot

theorem inv_rekey (h : Inv x) {nextKeys : DirectionalKeys Block}
    (hr : Rekeyable x.session nextKeys) :
    Inv { x with session := { keys := nextKeys } } where
  refines := by
    have hpast : ∀ c ∈ x.committed, c.header.epoch < nextKeys.session.epoch := by
      intro c hc
      exact UInt64.lt_of_le_of_lt (h.past c hc) hr.epoch
    have hnil : sequencesOf nextKeys.session.epoch x.committed = [] := by
      rw [sequencesOf, List.map_eq_nil_iff, List.filter_eq_nil_iff]
      intro c hc
      simpa using UInt64.ne_of_lt (hpast c hc)
    show Refines {} (seqSet (sequencesOf nextKeys.session.epoch x.committed))
    rw [hnil]
    exact Refines.fresh
  past c hc := UInt64.le_of_lt (UInt64.lt_of_le_of_lt (h.past c hc) hr.epoch)
  nodup := h.nodup

/-- **Every guarded call keeps the invariant.** -/
theorem inv_receiveStep (x : Receiver) (op : ReceiveOp) (h : Inv x) (hg : Guarded x op) :
    Inv (receiveStep P x op) := by
  cases op with
  | «open» record nowMs =>
    rw [receiveStep]
    cases x.session.openUncommitted P record nowMs with
    | error e => exact h
    | ok r => exact ⟨h.refines, h.past, h.nodup⟩
  | commit r =>
    cases ha : x.session.replay.accepted r.header.sequence with
    | false => rw [commit_of_refused ha]; exact h
    | true =>
      rw [commit_of_accepted ha]
      exact inv_commit h (hg.resolve_right (by simp [ha])) ha
  | rekey nextKeys =>
    rw [receiveStep]
    rcases rekey_cases x.session nextKeys with he | ⟨hr, he⟩
    · rw [he]; exact h
    · rw [he]; exact inv_rekey h hr

/-! ### Runs -/

/-- The window is one that commits have made. -/
def Tracked (x : Receiver) : Prop := ∃ C, Refines x.session.replay C

theorem tracked_receiveStep (x : Receiver) (op : ReceiveOp) (h : Tracked x) :
    Tracked (receiveStep P x op) := by
  obtain ⟨C, hC⟩ := h
  cases op with
  | «open» record nowMs =>
    rw [receiveStep]
    cases x.session.openUncommitted P record nowMs <;> exact ⟨C, hC⟩
  | commit r =>
    cases ha : x.session.replay.accepted r.header.sequence with
    | false => rw [commit_of_refused ha]; exact ⟨C, hC⟩
    | true => rw [commit_of_accepted ha]; exact ⟨_, hC.commit ha⟩
  | rekey nextKeys =>
    rw [receiveStep]
    rcases rekey_cases x.session nextKeys with he | ⟨-, he⟩
    · rw [he]; exact ⟨C, hC⟩
    · rw [he]; exact ⟨∅, Refines.fresh⟩

theorem guarded_iff_byEpoch (h : Tracked x) : Guarded x op ↔ ByEpoch x op := by
  obtain ⟨C, hC⟩ := h
  cases op with
  | «open» => exact Iff.rfl
  | rekey => exact Iff.rfl
  | commit r =>
    simp only [Guarded, ByEpoch, commitReplay_snd]
    cases ha : x.session.replay.accepted r.header.sequence with
    | false => simp [ReplayWindow.commit_of_not_accepted ha]
    | true => simp [hC.commit_ne ha]

/-- **When commits are safe.** Over any run of opens, commits and rekeys no (epoch, sequence) is
committed twice and only records of the present epoch change the window, if and only if each commit
is of the present epoch or refused by the window as it then is. -/
theorem receives_safe_iff (P : Aead) (keys : DirectionalKeys Block) (ops : List ReceiveOp) :
    Safe P keys ops ↔ Along (receiveStep P) Guarded (.fresh keys) ops := by
  have htracked : Tracked (.fresh keys) := ⟨∅, Refines.fresh⟩
  have hiff : Along (receiveStep P) Guarded (.fresh keys) ops ↔
      Along (receiveStep P) ByEpoch (.fresh keys) ops := by
    constructor
    · exact along_of_invariant (fun x op h _ => tracked_receiveStep x op h)
        (fun x op h hg => (guarded_iff_byEpoch h).mp hg) htracked
    · exact along_of_invariant (fun x op h _ => tracked_receiveStep x op h)
        (fun x op h hby => (guarded_iff_byEpoch h).mpr hby) htracked
  constructor
  · rintro ⟨-, hby⟩
    exact hiff.mpr hby
  · intro hg
    have h : Inv (receives P keys ops) := run_invariant inv_receiveStep (inv_fresh keys) hg
    exact ⟨h.nodup, hiff.mp hg⟩

/-- The record of epoch 1 is opened and committed, and after a rekey to epoch 2 committed again. -/
theorem receives_commit_twice :
    let record := openRecord (sealedHeader (testHeader 1 4) 6) testPlain
    let ops : List ReceiveOp := [.open (.data (testRecord 1 4)) 0, .commit record,
      .rekey (testKeys 2 1 2).mirror, .commit record]
    Along (receiveStep paddingAead) Held (.fresh (testKeys 1 1 2).mirror) ops ∧
      ¬ Safe paddingAead (testKeys 1 1 2).mirror ops := by
  intro record ops
  have hopen : Session.openUncommitted paddingAead { keys := (testKeys 1 1 2).mirror }
      (.data (testRecord 1 4)) 0 = .ok record :=
    open_test (s := { keys := testKeys 1 1 2 }) (by constructor <;> decide)
      (by constructor <;> decide) rfl
  have hseq : record.header.sequence = 4 := rfl
  have hfresh : ∀ k, Session.commitReplay { keys := k } record =
      (.ok (), { keys := k, replay := ⟨4, 1, true⟩ }) := fun k => by
    rw [Session.commitReplay, hseq]; rfl
  have hrekey : Session.rekey { keys := (testKeys 1 1 2).mirror, replay := ⟨4, 1, true⟩ }
      (testKeys 2 1 2).mirror = (.ok (), { keys := (testKeys 2 1 2).mirror }) := by decide
  unfold Safe receives
  simp only [ops, along_cons, along_nil, run_cons, run_nil, receiveStep, Receiver.fresh, hopen,
    logOpen, hfresh, logCommit, hrekey, Held, ByEpoch, List.nil_append]
  simp

end NewMavlink.Record.OpenCommit
