import NewMavlink.State.PublisherRuns

/-! # The spacing of snapshots

The first update that changes something schedules a snapshot one period later, and a poll at which
one is due schedules the next. Both times are 64-bit numbers, and zero is the mark of a publisher
that has none scheduled.

* `toNat_scheduleNextSnapshot`: a poll cuts the next time off at the end of the clock; an update
  adds without a look at it.
* `scheduled_run`: where the next snapshot is, after any run of a clock that does not go back.
* `snapshots_spaced`: snapshots are a full period apart, as long as no scheduled time is past the
  end of the clock; an update before that wraps it around (`snapshot_too_soon`). -/

namespace NewMavlink.State.Snapshots

open NewMavlink.Lib.Runs NewMavlink.Wire NewMavlink.State.Messages
open NewMavlink.State.Publisher NewMavlink.State.Publisher.StatePublisher
open NewMavlink.State.PublisherRuns

/-! ### The history of a run -/

/-- The clock reading of an operation. -/
def nowOf : PublisherOp → UInt64
  | .update _ _ nowMs => nowMs
  | .poll nowMs _ => nowMs

/-- The clock did not go back. -/
def Forward (ops : List PublisherOp) : Prop := (ops.map nowOf).Pairwise (· ≤ ·)

instance (ops : List PublisherOp) : Decidable (Forward ops) :=
  inferInstanceAs (Decidable ((ops.map nowOf).Pairwise (· ≤ ·)))

/-- When an update changed something. -/
def changedAt (p : StatePublisher) : PublisherOp → List UInt64
  | .update k v nowMs => if p.changed k v then [nowMs] else []
  | .poll _ _ => []

/-- When a poll found that a snapshot was due. -/
def dueAt (p : StatePublisher) : PublisherOp → List UInt64
  | .update _ _ _ => []
  | .poll nowMs capacity => if capacity ≠ 0 ∧ p.due nowMs = true then [nowMs] else []

/-- The poll returns a snapshot. -/
def returnsSnapshot (p : StatePublisher) (nowMs : UInt64) (capacity : ℕ) : Bool :=
  (p.poll nowMs capacity).1.any (·.kind = .helpfulSnapshot)

/-- When a poll returned snapshots. -/
def snapshotAt (p : StatePublisher) : PublisherOp → List UInt64
  | .update _ _ _ => []
  | .poll nowMs capacity => if returnsSnapshot p nowMs capacity then [nowMs] else []

/-- If the poll after these operations returns snapshots, it is a full period after the first update
that changed something and after the last poll that returned snapshots. -/
def Spaced (p₀ : StatePublisher) (ops : List PublisherOp) (nowMs : UInt64) (capacity : ℕ) : Prop :=
  returnsSnapshot (run publisherStep p₀ ops) nowMs capacity = true →
    (∃ t₀ ∈ (outputs publisherStep changedAt p₀ ops).head?,
      t₀.toNat + p₀.snapshotPeriodMs.toNat ≤ nowMs.toNat) ∧
    ∀ ts ∈ (outputs publisherStep snapshotAt p₀ ops).getLast?,
      ts.toNat + p₀.snapshotPeriodMs.toNat ≤ nowMs.toNat

/-- The times that are scheduled are on the clock: an update that schedules the first snapshot is
made one period before the end of the clock, and a poll at the very end of the clock is made one
period after the last one at which a snapshot was due. -/
def OnClock (p₀ : StatePublisher) (before : List PublisherOp) : PublisherOp → Prop
  | .update k v nowMs =>
    let p := run publisherStep p₀ before
    p.changed k v = true → p.nextSnapshotMs = 0 →
      nowMs.toNat + p₀.snapshotPeriodMs.toNat ≤ 2 ^ 64
  | .poll nowMs _ => nowMs = kUint64Max →
    ∀ td ∈ (outputs publisherStep dueAt p₀ before).getLast?,
      td.toNat + p₀.snapshotPeriodMs.toNat ≤ nowMs.toNat

variable {p p₀ : StatePublisher} {op : PublisherOp} {ops : List PublisherOp} {k : Kind}
  {v : k.Value} {nowMs t : UInt64} {capacity : ℕ}

theorem forward_concat : Forward (ops ++ [op]) ↔
    Forward ops ∧ ∀ o ∈ ops, nowOf o ≤ nowOf op := by
  simp [Forward, List.pairwise_append]

theorem nowOf_of_mem_outputs {out : StatePublisher → PublisherOp → List UInt64}
    (hout : ∀ p op, ∀ t ∈ out p op, t = nowOf op) (h : t ∈ outputs publisherStep out p ops) :
    ∃ o ∈ ops, t = nowOf o := by
  induction ops generalizing p with
  | nil => cases h
  | cons o ops ih =>
    rcases List.mem_append.mp h with h | h
    · exact ⟨o, List.mem_cons_self, hout _ _ _ h⟩
    · obtain ⟨o', ho', ht⟩ := ih h
      exact ⟨o', List.mem_cons_of_mem _ ho', ht⟩

theorem eq_nowOf_of_mem_changedAt (p : StatePublisher) (op : PublisherOp) :
    ∀ t ∈ changedAt p op, t = nowOf op := by
  intro t h
  cases op with
  | update k v nowMs =>
    change t ∈ (if p.changed k v = true then [nowMs] else []) at h
    split_ifs at h
    · exact List.mem_singleton.mp h
    · cases h
  | poll nowMs capacity => cases h

theorem eq_nowOf_of_mem_snapshotAt (p : StatePublisher) (op : PublisherOp) :
    ∀ t ∈ snapshotAt p op, t = nowOf op := by
  intro t h
  cases op with
  | update k v nowMs => cases h
  | poll nowMs capacity =>
    change t ∈ (if returnsSnapshot p nowMs capacity = true then [nowMs] else []) at h
    split_ifs at h
    · exact List.mem_singleton.mp h
    · cases h

/-! ### The next snapshot -/

/-- A poll cuts the next time off at the end of the clock. -/
theorem toNat_scheduleNextSnapshot (p : StatePublisher) (nowMs : UInt64) :
    (p.scheduleNextSnapshot nowMs).toNat =
      min (nowMs.toNat + p.snapshotPeriodMs.toNat) (2 ^ 64 - 1) := by
  have hnow : nowMs.toNat < 2 ^ 64 := UInt64.toNat_lt nowMs
  have hperiod : p.snapshotPeriodMs.toNat < 2 ^ 64 := UInt64.toNat_lt _
  have hmax : kUint64Max.toNat = 2 ^ 64 - 1 := rfl
  have hsub : (kUint64Max - p.snapshotPeriodMs).toNat =
      2 ^ 64 - 1 - p.snapshotPeriodMs.toNat := by
    rw [UInt64.toNat_sub_of_le _ _ (UInt64.le_iff_toNat_le.mpr (by omega)), hmax]
  unfold scheduleNextSnapshot
  by_cases h : nowMs > kUint64Max - p.snapshotPeriodMs
  · rw [if_pos h, hmax]
    rw [gt_iff_lt, UInt64.lt_iff_toNat_lt, hsub] at h
    omega
  · rw [if_neg h, UInt64.toNat_add]
    rw [gt_iff_lt, UInt64.lt_iff_toNat_lt, hsub] at h
    rw [Nat.mod_eq_of_lt (by omega)]
    omega

theorem nextSnapshotMs_deltas {ks : List Kind} {out : List PublishedMessage} :
    (deltas capacity ks out p).2.nextSnapshotMs = p.nextSnapshotMs ∧
      (deltas capacity ks out p).2.snapshotPeriodMs = p.snapshotPeriodMs := by
  induction ks generalizing out p with
  | nil => exact ⟨rfl, rfl⟩
  | cons k ks ih =>
    rcases deltas_cases capacity k ks out p with ⟨-, hskip⟩ | ⟨m, -, -, -, hpublish⟩
    · rw [hskip]
      exact ih
    · rw [hpublish]
      exact ih

theorem nextSnapshotMs_poll (p : StatePublisher) (nowMs : UInt64) (capacity : ℕ) :
    (p.poll nowMs capacity).2.nextSnapshotMs =
      if capacity ≠ 0 ∧ p.due nowMs = true then p.scheduleNextSnapshot nowMs
      else p.nextSnapshotMs := by
  unfold poll
  by_cases hzero : capacity = 0
  · rw [if_pos hzero, if_neg fun h => h.1 hzero]
  · by_cases hdue : p.due nowMs = true
    · rw [if_neg hzero, if_pos hdue, if_pos ⟨hzero, hdue⟩]
    · rw [if_neg hzero, if_neg hdue, if_neg fun h => hdue h.2, nextSnapshotMs_deltas.1]

theorem nextSnapshotMs_update (h : p.changed k v = true) :
    (p.update k v nowMs).2.nextSnapshotMs =
      if p.nextSnapshotMs = 0 then nowMs + p.snapshotPeriodMs else p.nextSnapshotMs := by
  unfold update
  rw [if_neg (by simp [h])]

/-- Stated for any time, so that no scheduled time is evaluated. -/
theorem snapshotPeriodMs_with (p : StatePublisher) (streams : (k : Kind) → Stream k)
    (next : UInt64) :
    ({ p with streams, nextSnapshotMs := next } : StatePublisher).snapshotPeriodMs =
      p.snapshotPeriodMs := rfl

theorem snapshotPeriodMs_update :
    (p.update k v nowMs).2.snapshotPeriodMs = p.snapshotPeriodMs := by
  unfold update
  by_cases h : (!p.changed k v) = true
  · rw [if_pos h]
  · rw [if_neg h, snapshotPeriodMs_with]

theorem snapshotPeriodMs_poll :
    (p.poll nowMs capacity).2.snapshotPeriodMs = p.snapshotPeriodMs := by
  unfold poll
  by_cases hzero : capacity = 0
  · rw [if_pos hzero]
  · by_cases hdue : p.due nowMs = true
    · rw [if_neg hzero, if_pos hdue, snapshotPeriodMs_with]
    · rw [if_neg hzero, if_neg hdue, nextSnapshotMs_deltas.2]

theorem snapshotPeriodMs_step (p : StatePublisher) (op : PublisherOp) :
    (publisherStep p op).snapshotPeriodMs = p.snapshotPeriodMs := by
  cases op with
  | update k v nowMs => exact snapshotPeriodMs_update
  | poll nowMs capacity => exact snapshotPeriodMs_poll

theorem snapshotPeriodMs_run (p₀ : StatePublisher) (ops : List PublisherOp) :
    (run publisherStep p₀ ops).snapshotPeriodMs = p₀.snapshotPeriodMs :=
  run_keeps (fun p op h => (snapshotPeriodMs_step p op).trans h) ops rfl

theorem due_of_returnsSnapshot (h : returnsSnapshot p nowMs capacity = true) :
    capacity ≠ 0 ∧ p.due nowMs = true := by
  unfold returnsSnapshot at h
  obtain ⟨x, hx, hkind⟩ := List.any_eq_true.mp h
  obtain ⟨k, hbuild⟩ := (p.poll_built nowMs capacity).1.exists_build hx
  constructor
  · rintro rfl
    cases hx
  · rw [decide_eq_true_eq, (publishes_of_build hbuild).kind] at hkind
    cases hdue : p.due nowMs with
    | true => rfl
    | false =>
      rw [hdue] at hkind
      cases hkind

theorem due_iff : p.due nowMs = true ↔
    p.nextSnapshotMs ≠ 0 ∧ p.nextSnapshotMs.toNat ≤ nowMs.toNat := by
  simp [due, UInt64.le_iff_toNat_le]

/-! ### Where the next snapshot is -/

/-- What holds of the next snapshot after these operations. If none is scheduled, the period that
began with the first update has not ended on the clock. -/
structure Scheduled (p₀ : StatePublisher) (ops : List PublisherOp) : Prop where
  unscheduled : (run publisherStep p₀ ops).nextSnapshotMs = 0 →
    outputs publisherStep dueAt p₀ ops = [] ∧
      ∀ t₀ ∈ (outputs publisherStep changedAt p₀ ops).head?,
        2 ^ 64 ≤ t₀.toNat + p₀.snapshotPeriodMs.toNat
  first : (run publisherStep p₀ ops).nextSnapshotMs ≠ 0 →
    ∃ t₀ ∈ (outputs publisherStep changedAt p₀ ops).head?,
      t₀.toNat + p₀.snapshotPeriodMs.toNat ≤ (run publisherStep p₀ ops).nextSnapshotMs.toNat
  due : ∀ td ∈ (outputs publisherStep dueAt p₀ ops).getLast?,
    min (td.toNat + p₀.snapshotPeriodMs.toNat) (2 ^ 64 - 1) ≤
      (run publisherStep p₀ ops).nextSnapshotMs.toNat
  returned : ∀ ts ∈ (outputs publisherStep snapshotAt p₀ ops).getLast?,
    ∃ td ∈ (outputs publisherStep dueAt p₀ ops).getLast?, ts ≤ td

theorem scheduled_nil (h : p₀.nextSnapshotMs = 0) : Scheduled p₀ [] := by
  constructor
  · exact fun _ => ⟨rfl, fun t ht => by cases ht⟩
  · exact fun hne => absurd h hne
  all_goals
    intro t ht
    cases ht

theorem Scheduled.idle (h : Scheduled p₀ ops)
    (hnext : (publisherStep (run publisherStep p₀ ops) op).nextSnapshotMs =
      (run publisherStep p₀ ops).nextSnapshotMs)
    (hchanged : changedAt (run publisherStep p₀ ops) op = [])
    (hdue : dueAt (run publisherStep p₀ ops) op = [])
    (hsnapshot : snapshotAt (run publisherStep p₀ ops) op = []) : Scheduled p₀ (ops ++ [op]) := by
  constructor <;> simp only [outputs_concat, run_concat, hnext, hchanged, hdue, hsnapshot,
    List.append_nil]
  exacts [h.unscheduled, h.first, h.due, h.returned]

theorem mem_head?_concat {α : Type} {l : List α} {a b : α} :
    a ∈ (l ++ [b]).head? ↔ a ∈ l.head? ∨ l = [] ∧ a = b := by
  cases l with
  | nil => simp [eq_comm]
  | cons c l => simp

theorem Scheduled.update_again (h : Scheduled p₀ ops)
    (hc : (run publisherStep p₀ ops).changed k v = true)
    (hz : (run publisherStep p₀ ops).nextSnapshotMs ≠ 0) :
    Scheduled p₀ (ops ++ [.update k v nowMs]) := by
  have hnext : (publisherStep (run publisherStep p₀ ops) (.update k v nowMs)).nextSnapshotMs =
      (run publisherStep p₀ ops).nextSnapshotMs := (nextSnapshotMs_update hc).trans (if_neg hz)
  have hchanged : changedAt (run publisherStep p₀ ops) (.update k v nowMs) = [nowMs] := if_pos hc
  have hdue : dueAt (run publisherStep p₀ ops) (.update k v nowMs) = [] := rfl
  have hsnapshot : snapshotAt (run publisherStep p₀ ops) (.update k v nowMs) = [] := rfl
  constructor <;> simp only [outputs_concat, run_concat, hnext, hchanged, hdue, hsnapshot,
    List.append_nil]
  · exact fun hzero => absurd hzero hz
  · intro _
    obtain ⟨t₀, ht₀, hle⟩ := h.first hz
    exact ⟨t₀, mem_head?_concat.mpr (Or.inl ht₀), hle⟩
  · exact h.due
  · exact h.returned

/-- A change while none is scheduled: the first one, or one at the very end of the clock. -/
theorem Scheduled.update_first (h : Scheduled p₀ ops) (hperiod : p₀.snapshotPeriodMs ≠ 0)
    (hforward : Forward (ops ++ [.update k v nowMs])) (hclock : OnClock p₀ ops (.update k v nowMs))
    (hc : (run publisherStep p₀ ops).changed k v = true)
    (hz : (run publisherStep p₀ ops).nextSnapshotMs = 0) :
    Scheduled p₀ (ops ++ [.update k v nowMs]) := by
  have hpos : p₀.snapshotPeriodMs.toNat ≠ 0 := fun hz => hperiod (UInt64.toNat_inj.mp hz)
  have hnext : (publisherStep (run publisherStep p₀ ops) (.update k v nowMs)).nextSnapshotMs =
      nowMs + p₀.snapshotPeriodMs := by
    rw [← snapshotPeriodMs_run p₀ ops]
    exact (nextSnapshotMs_update hc).trans (if_pos hz)
  have hnextNat : (nowMs + p₀.snapshotPeriodMs).toNat =
      (nowMs.toNat + p₀.snapshotPeriodMs.toNat) % 2 ^ 64 := UInt64.toNat_add ..
  have hchanged : changedAt (run publisherStep p₀ ops) (.update k v nowMs) = [nowMs] := if_pos hc
  have hdue : dueAt (run publisherStep p₀ ops) (.update k v nowMs) = [] := rfl
  have hsnapshot : snapshotAt (run publisherStep p₀ ops) (.update k v nowMs) = [] := rfl
  obtain ⟨hnone, hfirst⟩ := h.unscheduled hz
  have hsum := hclock hc hz
  constructor <;> simp only [outputs_concat, run_concat, hnext, hchanged, hdue, hsnapshot,
    List.append_nil]
  · refine fun hzero => ⟨hnone, fun t₀ ht₀ => ?_⟩
    rcases mem_head?_concat.mp ht₀ with hold | ⟨-, rfl⟩
    · exact hfirst t₀ hold
    · rw [hzero, UInt64.toNat_zero] at hnextNat
      omega
  · intro hne
    have hfits : nowMs.toNat + p₀.snapshotPeriodMs.toNat < 2 ^ 64 := by
      by_contra hge
      have hzero : nowMs + p₀.snapshotPeriodMs = 0 := by
        rw [← UInt64.toNat_inj, hnextNat, show nowMs.toNat + p₀.snapshotPeriodMs.toNat = 2 ^ 64
          by omega, Nat.mod_self, UInt64.toNat_zero]
      exact hne hzero
    rw [hnextNat, Nat.mod_eq_of_lt hfits]
    refine ⟨nowMs, mem_head?_concat.mpr (Or.inr ⟨?_, rfl⟩), le_rfl⟩
    -- an earlier update would have been made too late for this one to be in time
    rw [← List.head?_eq_none_iff, Option.eq_none_iff_forall_not_mem]
    intro t₀ ht₀
    obtain ⟨o, ho, rfl⟩ := nowOf_of_mem_outputs eq_nowOf_of_mem_changedAt
      (List.mem_of_mem_head? ht₀)
    have hle : (nowOf o).toNat ≤ nowMs.toNat :=
      UInt64.le_iff_toNat_le.mp ((forward_concat.mp hforward).2 o ho)
    have hlate := hfirst _ ht₀
    omega
  · rw [hnone]
    intro td htd
    cases htd
  · exact h.returned

theorem Scheduled.update (h : Scheduled p₀ ops) (hperiod : p₀.snapshotPeriodMs ≠ 0)
    (hforward : Forward (ops ++ [.update k v nowMs])) (hclock : OnClock p₀ ops (.update k v nowMs))
    (hc : (run publisherStep p₀ ops).changed k v = true) :
    Scheduled p₀ (ops ++ [.update k v nowMs]) := by
  by_cases hz : (run publisherStep p₀ ops).nextSnapshotMs = 0
  · exact h.update_first hperiod hforward hclock hc hz
  · exact h.update_again hc hz

theorem Scheduled.poll (h : Scheduled p₀ ops)
    (hforward : Forward (ops ++ [.poll nowMs capacity])) (hcapacity : capacity ≠ 0)
    (hdue : (run publisherStep p₀ ops).due nowMs = true) :
    Scheduled p₀ (ops ++ [.poll nowMs capacity]) := by
  have hnow : nowMs.toNat < 2 ^ 64 := UInt64.toNat_lt nowMs
  obtain ⟨hnz, hle⟩ := due_iff.mp hdue
  have hnext : (publisherStep (run publisherStep p₀ ops) (.poll nowMs capacity)).nextSnapshotMs =
      (run publisherStep p₀ ops).scheduleNextSnapshot nowMs :=
    (nextSnapshotMs_poll _ nowMs capacity).trans (if_pos ⟨hcapacity, hdue⟩)
  have hnextNat := toNat_scheduleNextSnapshot (run publisherStep p₀ ops) nowMs
  rw [snapshotPeriodMs_run] at hnextNat
  have hchanged : changedAt (run publisherStep p₀ ops) (.poll nowMs capacity) = [] := rfl
  have hdueAt : dueAt (run publisherStep p₀ ops) (.poll nowMs capacity) = [nowMs] :=
    if_pos ⟨hcapacity, hdue⟩
  have hlater : nowMs.toNat ≤ ((run publisherStep p₀ ops).scheduleNextSnapshot nowMs).toNat := by
    omega
  obtain ⟨t₀, ht₀, hfirst⟩ := h.first hnz
  constructor <;> simp only [outputs_concat, run_concat, hnext, hchanged, hdueAt, List.append_nil]
  · intro hzero
    have hpos : (run publisherStep p₀ ops).nextSnapshotMs.toNat ≠ 0 :=
      fun hz => hnz (UInt64.toNat_inj.mp hz)
    rw [hzero, UInt64.toNat_zero] at hlater
    omega
  · exact fun _ => ⟨t₀, ht₀, by omega⟩
  · intro td htd
    rw [List.getLast?_concat, Option.mem_some_iff] at htd
    rw [← htd, hnextNat]
  · intro ts hts
    refine ⟨nowMs, by rw [List.getLast?_concat]; rfl, ?_⟩
    rw [← outputs_concat] at hts
    obtain ⟨o, ho, rfl⟩ := nowOf_of_mem_outputs eq_nowOf_of_mem_snapshotAt
      (List.mem_of_getLast? hts)
    rcases List.mem_append.mp ho with ho | ho
    · exact (forward_concat.mp hforward).2 o ho
    · rw [List.mem_singleton.mp ho]
      exact UInt64.le_refl nowMs

theorem scheduled_step (h : Scheduled p₀ ops) (hperiod : p₀.snapshotPeriodMs ≠ 0)
    (hforward : Forward (ops ++ [op])) (hclock : OnClock p₀ ops op) :
    Scheduled p₀ (ops ++ [op]) := by
  cases op with
  | update k v nowMs =>
    by_cases hc : (run publisherStep p₀ ops).changed k v = true
    · exact h.update hperiod hforward hclock hc
    · have hsame : publisherStep (run publisherStep p₀ ops) (.update k v nowMs) =
          run publisherStep p₀ ops := update_of_not_changed _ nowMs (by simpa using hc)
      exact h.idle (by rw [hsame]) (if_neg hc) rfl rfl
  | poll nowMs capacity =>
    by_cases hdue : capacity ≠ 0 ∧ (run publisherStep p₀ ops).due nowMs = true
    · exact h.poll hforward hdue.1 hdue.2
    · exact h.idle ((nextSnapshotMs_poll _ nowMs capacity).trans (if_neg hdue)) rfl (if_neg hdue)
        (if_neg fun hreturns => hdue (due_of_returnsSnapshot hreturns))

/-- **Where the next snapshot is**, in every run on a clock that does not go back and whose end is
not passed. -/
theorem scheduled_run (hnext : p₀.nextSnapshotMs = 0) (hperiod : p₀.snapshotPeriodMs ≠ 0)
    (hforward : Forward ops) (hclock : AlongHistory (OnClock p₀) ops) : Scheduled p₀ ops := by
  induction ops using List.reverseRecOn with
  | nil => exact scheduled_nil hnext
  | append_singleton ops op ih =>
    obtain ⟨hops, hop⟩ := alongHistory_concat.mp hclock
    exact scheduled_step (ih (forward_concat.mp hforward).1 hops) hperiod hforward hop

theorem snapshotPeriodMs_init_ne_zero (sourceId destinationId : UInt16) (period : UInt64) :
    (init sourceId destinationId period).snapshotPeriodMs ≠ 0 := by
  unfold init
  dsimp only
  split_ifs with h
  · decide
  · exact h

/-- **Snapshots are spaced**, in every run on a clock that does not go back and on which every time
that is scheduled lies: a poll returns them only a full period after the first update that changed
something and after the last poll that returned some. -/
theorem snapshots_spaced (sourceId destinationId : UInt16) (period : UInt64)
    (ops : List PublisherOp) (nowMs : UInt64) (capacity : ℕ)
    (hforward : Forward (ops ++ [.poll nowMs capacity]))
    (hclock : AlongHistory (OnClock (init sourceId destinationId period))
      (ops ++ [.poll nowMs capacity])) :
    Spaced (init sourceId destinationId period) ops nowMs capacity := by
  intro hreturns
  obtain ⟨hops, hpoll⟩ := alongHistory_concat.mp hclock
  obtain ⟨hnz, hle⟩ := due_iff.mp (due_of_returnsSnapshot hreturns).2
  have h := scheduled_run rfl (snapshotPeriodMs_init_ne_zero sourceId destinationId period)
    (forward_concat.mp hforward).1 hops
  constructor
  · obtain ⟨t₀, ht₀, hfirst⟩ := h.first hnz
    exact ⟨t₀, ht₀, hfirst.trans hle⟩
  · intro ts hts
    obtain ⟨td, htd, hts⟩ := h.returned ts hts
    have hdue := h.due td htd
    have htsd := UInt64.le_iff_toNat_le.mp hts
    have hnow : nowMs.toNat < 2 ^ 64 := UInt64.toNat_lt nowMs
    by_cases hend : nowMs = kUint64Max
    · have hin := hpoll hend td htd
      omega
    · have hne : nowMs.toNat ≠ 2 ^ 64 - 1 := fun heq => hend (UInt64.toNat_inj.mp heq)
      omega

/-- A snapshot one period after the first position. -/
theorem snapshots_spaced_first :
    let ops : List PublisherOp :=
      [.update .position { stateMeta := { resourceId := 42, sourceId := 1 } } 0]
    returnsSnapshot (run publisherStep (init 1 3 0) ops) 10000 1 = true ∧
      Spaced (init 1 3 0) ops 10000 1 := by
  intro ops
  have hclock : AlongHistory (OnClock (init 1 3 0)) ([] ++ ops) :=
    alongHistory_concat.mpr ⟨alongHistory_nil, fun _ _ => by decide⟩
  exact ⟨by decide +kernel, snapshots_spaced 1 3 0 ops 10000 1 (by decide)
    (alongHistory_concat.mpr ⟨hclock, fun hend => absurd hend (by decide)⟩)⟩

/-- With a period of the whole clock, the first update wraps the time of the snapshot around: the
snapshot is due at once. -/
theorem snapshot_too_soon : ¬ ∀ (sourceId destinationId : UInt16) (period : UInt64)
    (ops : List PublisherOp) (nowMs : UInt64) (capacity : ℕ),
    Forward (ops ++ [.poll nowMs capacity]) →
      Spaced (init sourceId destinationId period) ops nowMs capacity := by
  intro h
  let ops : List PublisherOp :=
    [.update .position { stateMeta := { resourceId := 42, sourceId := 1 } } 10]
  obtain ⟨⟨t₀, ht₀, hlate⟩, -⟩ := h 1 3 kUint64Max ops 10 1 (by decide) (by decide +kernel)
  obtain rfl : 10 = t₀ := Option.some.inj ht₀
  revert hlate
  decide

end NewMavlink.State.Snapshots
