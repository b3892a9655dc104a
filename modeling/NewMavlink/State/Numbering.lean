import NewMavlink.State.Agreement
import NewMavlink.State.PublisherRuns

/-! # What the generations tell apart

Every update that changes something moves its stream on by one generation, up to the last 32-bit
number; there the generation stays.

* `toNat_generations`: the generation of every update, in any run: its place among the updates of
  its stream, or the last number.
* `unique_of_few`, `newer_of_few`: while there are numbers left, a generation stands for one value,
  and the proxy does not take a later value for an old one.
* `identifies_iff`: so the generations of a stream identify its values exactly as long as it is
  updated fewer than `2 ^ 32` times, and `generation_repeats` is a run that is too long. -/

namespace NewMavlink.State.Numbering

open NewMavlink.Lib.Buffer NewMavlink.Lib.Tables NewMavlink.Lib.Runs
open NewMavlink.Wire NewMavlink.State.Messages NewMavlink.State.Publisher
open NewMavlink.State.Publisher.StatePublisher NewMavlink.State.PublisherRuns
open NewMavlink.State.Agreement NewMavlink.Record.SealOpen
open NewMavlink.Proxy.Queue hiding streamKey
open NewMavlink.Proxy.Links NewMavlink.Proxy.Ingest

/-! ### The numbers of a stream -/

/-- The generation that an operation gives to a stream. -/
def renewed (k : Kind) (p : StatePublisher) (op : PublisherOp) : List UInt32 :=
  match op with
  | .update k' v _ =>
    if k' = k ∧ p.changed k' v = true then [((publisherStep p op).streams k).generation] else []
  | .poll _ _ => []

/-- The generations that the updates of a run gave to a stream. -/
def generations (k : Kind) (p : StatePublisher) (ops : List PublisherOp) : List UInt32 :=
  outputs publisherStep (renewed k) p ops

/-- A poll of the run, after the operations `before`, returned a message of this kind with this
value. -/
def PolledAt (k : Kind) (p : StatePublisher) (ops before : List PublisherOp)
    (x : PublishedMessage) (v : k.Value) : Prop :=
  ∃ nowMs capacity, before ++ [.poll nowMs capacity] <+: ops ∧
    x ∈ ((run publisherStep p before).poll nowMs capacity).1 ∧
    x.message.header.type = k.type ∧ k.decode (.data x.message.bytes) = some v

/-- **The generations of a stream identify its values**: each is greater than all before it, what is
published under one of them is one value, and a proxy that holds an earlier value of the stream does
not discard a later one. -/
structure Identifies (k : Kind) (p : StatePublisher) (ops : List PublisherOp) : Prop where
  increasing : (generations k p ops).Pairwise (· < ·)
  unique : ∀ {before before' x x' v v'}, PolledAt k p ops before x v →
    PolledAt k p ops before' x' v' → (k.stateMeta v).generation = (k.stateMeta v').generation →
    SameValue k v v'
  newer : ∀ {before before' x x' v v'}, PolledAt k p ops before x v →
    PolledAt k p ops before' x' v' →
    (generations k p before).length < (generations k p before').length →
    ∀ (q : NativeProxy) (l : UInt16) (r : OpenRecord) (nowMs : UInt64) (cached : NativeMessage),
      Carries r x'.message → q.cache.lookup (streamKey (messageOf r)) = some cached →
      cached.bytes = x.message.bytes → q.ingest l r nowMs ≠ (true, q)

variable {p : StatePublisher} {op : PublisherOp} {ops before before' : List PublisherOp} {k : Kind}
  {v v' : k.Value} {x x' : PublishedMessage} {sourceId destinationId : UInt16} {period : UInt64}

/-- **What a step does to a stream and to its numbers.** -/
theorem renewed_cases (p : StatePublisher) (op : PublisherOp) (k : Kind) :
    (renewed k p op = [] ∧
      ∃ dirty, (publisherStep p op).streams k = { p.streams k with dirty }) ∨
    renewed k p op = [nextGeneration (p.streams k).generation] ∧
      ((publisherStep p op).streams k).has = true ∧
      ((publisherStep p op).streams k).generation = nextGeneration (p.streams k).generation := by
  rcases stream_cases p op k with ⟨dirty, heq, -, hsame⟩ | ⟨v, nowMs, rfl, hc, heq⟩
  · refine Or.inl ⟨?_, dirty, heq⟩
    cases op with
    | update k' v nowMs =>
      refine if_neg ?_
      rintro ⟨rfl, hc⟩
      rw [hsame v nowMs rfl] at hc
      cases hc
    | poll nowMs capacity => rfl
  · refine Or.inr ⟨?_, by rw [heq], by rw [heq]⟩
    unfold renewed
    dsimp only
    rw [if_pos ⟨rfl, hc⟩, heq]

theorem generations_append (k : Kind) (p : StatePublisher) (ops ops' : List PublisherOp) :
    generations k p (ops ++ ops') =
      generations k p ops ++ generations k (run publisherStep p ops) ops' := outputs_append ..

/-- The generation of the `n`-th update. -/
def numberOf (n : ℕ) : ℕ := min n (2 ^ 32 - 1)

/-- **The generation of a stream** is the number of its updates, up to the last number there is; and
it has a value if it was updated. -/
theorem numbered_run (sourceId destinationId : UInt16) (period : UInt64) (ops : List PublisherOp)
    (k : Kind) :
    ((run publisherStep (init sourceId destinationId period) ops).streams k).generation.toNat =
        numberOf (generations k (init sourceId destinationId period) ops).length ∧
      (((run publisherStep (init sourceId destinationId period) ops).streams k).has = true ↔
        0 < (generations k (init sourceId destinationId period) ops).length) := by
  induction ops using List.reverseRecOn with
  | nil => exact ⟨rfl, by simp [generations, init]⟩
  | append_singleton ops op ih =>
    obtain ⟨hgen, hhas⟩ := ih
    rw [run_concat, generations, outputs_concat, ← generations]
    rcases renewed_cases (run publisherStep (init sourceId destinationId period) ops) op k with
      ⟨hnone, dirty, heq⟩ | ⟨hone, hset, hnext⟩
    · rw [hnone, List.append_nil, heq]
      exact ⟨hgen, hhas⟩
    · rw [hone, List.length_append, List.length_singleton, hnext, toNat_nextGeneration, hgen]
      refine ⟨?_, iff_of_true hset (Nat.succ_pos _)⟩
      unfold numberOf
      omega

/-- **The generations of a run** are those numbers, one after another. -/
theorem toNat_generations (sourceId destinationId : UInt16) (period : UInt64)
    (ops : List PublisherOp) (k : Kind) :
    (generations k (init sourceId destinationId period) ops).map UInt32.toNat =
      (List.range (generations k (init sourceId destinationId period) ops).length).map
        (fun i => numberOf (i + 1)) := by
  induction ops using List.reverseRecOn with
  | nil => rfl
  | append_singleton ops op ih =>
    obtain ⟨hgen, -⟩ := numbered_run sourceId destinationId period ops k
    rw [generations, outputs_concat, ← generations]
    rcases renewed_cases (run publisherStep (init sourceId destinationId period) ops) op k with
      ⟨hnone, -⟩ | ⟨hone, -⟩
    · rw [hnone, List.append_nil, ih]
    · rw [hone, List.length_append, List.length_singleton, List.range_succ, List.map_append,
        List.map_append, ih, List.map_singleton, List.map_singleton, toNat_nextGeneration, hgen]
      unfold numberOf
      congr 2
      omega

/-- **When the generations increase**: exactly while there are numbers left. -/
theorem increasing_iff (sourceId destinationId : UInt16) (period : UInt64)
    (ops : List PublisherOp) (k : Kind) :
    (generations k (init sourceId destinationId period) ops).Pairwise (· < ·) ↔
      (generations k (init sourceId destinationId period) ops).length < 2 ^ 32 := by
  have hnumbers := toNat_generations sourceId destinationId period ops k
  set gs := generations k (init sourceId destinationId period) ops
  have hnat : gs.Pairwise (· < ·) ↔
      ((List.range gs.length).map fun i => numberOf (i + 1)).Pairwise (· < ·) := by
    rw [← hnumbers, List.pairwise_map]
    exact Iff.rfl
  rw [hnat, List.pairwise_map]
  constructor
  · intro h
    by_contra hge
    -- the last number is given twice
    have hlast := List.pairwise_iff_getElem.mp h (2 ^ 32 - 2) (2 ^ 32 - 1)
      (by rw [List.length_range]; omega) (by rw [List.length_range]; omega) (by omega)
    rw [List.getElem_range, List.getElem_range] at hlast
    unfold numberOf at hlast
    omega
  · intro hlt
    refine List.pairwise_lt_range.imp_of_mem fun {i j} hi hj hij => ?_
    have hj' := List.mem_range.mp hj
    unfold numberOf
    omega

/-! ### What is published under a number -/

theorem few_of_run (h : before <+: ops) :
    (generations k p before).length ≤ (generations k p ops).length := by
  obtain ⟨rest, rfl⟩ := h
  rw [generations_append, List.length_append]
  exact Nat.le_add_right _ _

/-- A message that was published is one of the current value. -/
theorem build_of_polledAt (h : PolledAt k p ops before x v) :
    before <+: ops ∧ ∃ snapshot, (run publisherStep p before).build k snapshot = some x ∧
      v = (run publisherStep p before).outgoing k snapshot := by
  obtain ⟨nowMs, capacity, hbefore, hx, htype, hdecode⟩ := h
  obtain ⟨k', hbuild⟩ := ((run publisherStep p before).poll_built nowMs capacity).1.exists_build hx
  obtain rfl := kind_of_build hbuild htype
  have hcarries := (build_eq_some hbuild).2.2.2
  exact ⟨(List.prefix_append _ _).trans hbefore, _, hbuild,
    Option.some.inj (hdecode.symm.trans hcarries)⟩

/-- **The generation of a message** is the number of updates before it. -/
theorem generation_of_polledAt (h : PolledAt k (init sourceId destinationId period) ops before x v)
    (hfew : (generations k (init sourceId destinationId period) ops).length < 2 ^ 32) :
    (k.stateMeta v).generation.toNat =
      (generations k (init sourceId destinationId period) before).length := by
  obtain ⟨hbefore, snapshot, hbuild, rfl⟩ := build_of_polledAt h
  obtain ⟨-, -, hhas, -⟩ := build_eq_some hbuild
  obtain ⟨-, hgen⟩ := (publisherInv_run sourceId destinationId period before k).generation hhas
  have hle := few_of_run (k := k) (p := init sourceId destinationId period) hbefore
  have hsame : (k.stateMeta ((run publisherStep (init sourceId destinationId period)
      before).outgoing k snapshot)).generation = _ := (same_outgoing _ snapshot).generation_eq
  rw [hsame, hgen, (numbered_run sourceId destinationId period before k).1]
  unfold numberOf
  omega

theorem value_of_silent (h : generations k p ops = []) :
    ((run publisherStep p ops).streams k).value = (p.streams k).value := by
  induction ops using List.reverseRecOn with
  | nil => rfl
  | append_singleton ops op ih =>
    rw [generations, outputs_concat, ← generations, List.append_eq_nil_iff] at h
    rw [run_concat]
    rcases renewed_cases (run publisherStep p ops) op k with ⟨-, dirty, heq⟩ | ⟨hone, -⟩
    · rw [heq]
      exact ih h.1
    · rw [h.2] at hone
      cases hone

theorem value_of_run (h : before <+: before')
    (heq : (generations k p before).length = (generations k p before').length) :
    ((run publisherStep p before').streams k).value =
      ((run publisherStep p before).streams k).value := by
  obtain ⟨mid, rfl⟩ := h
  rw [generations_append, List.length_append] at heq
  rw [run_append]
  exact value_of_silent (List.length_eq_zero_iff.mp (by omega))

/-- **A generation stands for one value** while there are numbers left. -/
theorem unique_of_few
    (hfew : (generations k (init sourceId destinationId period) ops).length < 2 ^ 32)
    (h : PolledAt k (init sourceId destinationId period) ops before x v)
    (h' : PolledAt k (init sourceId destinationId period) ops before' x' v')
    (heq : (k.stateMeta v).generation = (k.stateMeta v').generation) : SameValue k v v' := by
  have hlen := (generation_of_polledAt h hfew).symm.trans
    ((congrArg UInt32.toNat heq).trans (generation_of_polledAt h' hfew))
  obtain ⟨hbefore, snapshot, -, rfl⟩ := build_of_polledAt h
  obtain ⟨hbefore', snapshot', -, rfl⟩ := build_of_polledAt h'
  have hvalue : ((run publisherStep (init sourceId destinationId period) before').streams k).value =
      ((run publisherStep (init sourceId destinationId period) before).streams k).value := by
    rcases List.prefix_or_prefix_of_prefix hbefore hbefore' with hle | hle
    · exact value_of_run hle hlen
    · exact (value_of_run hle hlen.symm).symm
  have hsame := same_outgoing (k := k)
    (run publisherStep (init sourceId destinationId period) before') snapshot'
  rw [hvalue] at hsame
  exact (same_outgoing _ snapshot).trans hsame.symm

/-- **A later value is not taken for an old one** while there are numbers left. -/
theorem newer_of_few {q : NativeProxy} {l : UInt16} {r : OpenRecord} {nowMs : UInt64}
    {cached : NativeMessage}
    (hfew : (generations k (init sourceId destinationId period) ops).length < 2 ^ 32)
    (h : PolledAt k (init sourceId destinationId period) ops before x v)
    (h' : PolledAt k (init sourceId destinationId period) ops before' x' v')
    (hlater : (generations k (init sourceId destinationId period) before).length <
      (generations k (init sourceId destinationId period) before').length)
    (hr : Carries r x'.message) (hcached : q.cache.lookup (streamKey (messageOf r)) = some cached)
    (hbytes : cached.bytes = x.message.bytes) : q.ingest l r nowMs ≠ (true, q) := by
  have hgen := generation_of_polledAt h hfew
  have hgen' := generation_of_polledAt h' hfew
  obtain ⟨-, -, -, -, htype, hdecode⟩ := h
  obtain ⟨-, snapshot, hbuild, rfl⟩ := build_of_polledAt h'
  have haddr := addressed_of_build hbuild
  have hold : metaOf cached = some (k.stateMeta v) :=
    metaOf_of_decode (by rw [hbytes]; exact hdecode)
  have hnew := metaOf_of_decode (hr.decode_messageOf haddr)
  have hlt : ¬ (k.stateMeta ((run publisherStep (init sourceId destinationId period)
      before').outgoing k snapshot)).generation ≤ (k.stateMeta v).generation := by
    rw [UInt32.le_iff_toNat_le]
    omega
  intro hdiscard
  have hcache := lookup_cache_ingest q l r nowMs (streamKey (messageOf r))
  rw [hdiscard, hcached] at hcache
  rw [ingest_eq] at hdiscard
  cases hd : disposition q l r with
  | rejected => simp [hd] at hdiscard
  | gap request => simp [hd] at hdiscard
  | old =>
    obtain ⟨-, -, heq⟩ := disposition_eq_cache (p := q) (l := l) (r := r) (by simp [hd])
      (by simp [hd])
    rw [hd, hcached, cacheDisposition_of_meta hold hnew] at heq
    split_ifs at heq
  | stored =>
    -- then it is cached in place of the earlier one
    rw [if_pos ⟨hd, rfl⟩] at hcache
    obtain rfl := Option.some.inj hcache
    rw [hnew] at hold
    exact hlt (Option.some.inj hold ▸ UInt32.le_refl _)
  | passed =>
    have hstate := stateType_of_passed hd
    rw [hr.type, haddr.type, k.stateType_type] at hstate
    cases hstate

/-- **When the generations identify the values of a stream**: in every run in which the stream is
updated fewer than `2 ^ 32` times, and in no other. -/
theorem identifies_iff (sourceId destinationId : UInt16) (period : UInt64)
    (ops : List PublisherOp) (k : Kind) :
    Identifies k (init sourceId destinationId period) ops ↔
      (generations k (init sourceId destinationId period) ops).length < 2 ^ 32 := by
  rw [← increasing_iff]
  refine ⟨Identifies.increasing, fun h => ⟨h, ?_, ?_⟩⟩
  all_goals rw [increasing_iff] at h
  · exact unique_of_few h
  · intro _ _ _ _ _ _ hx hx' hlater q l r nowMs cached
    exact newer_of_few h hx hx' hlater

/-! ### A run that is too long -/

/-- A position that is another one every time. -/
def side (n : ℕ) : Position where
  stateMeta := { resourceId := 42, sourceId := 1 }
  latitudeE7 := if n % 2 = 0 then 0 else 1

/-- So many updates, each of which changes the position. -/
def alternate (n : ℕ) : List PublisherOp :=
  (List.range n).map fun i => .update .position (side i) 0

theorem alternate_succ (n : ℕ) :
    alternate (n + 1) = alternate n ++ [.update .position (side n) 0] := by
  unfold alternate
  rw [List.range_succ, List.map_append]
  rfl

theorem changed_side {n : ℕ} (h : (p.streams .position).has = true →
    ∃ m, n = m + 1 ∧ ((p.streams .position).value : Position).latitudeE7 = (side m).latitudeE7) :
    p.changed .position (side n) = true := by
  unfold changed
  cases hhas : (p.streams .position).has with
  | false => rfl
  | true =>
    obtain ⟨m, rfl, hlat⟩ := h hhas
    have hne : (side m).latitudeE7 ≠ (side (m + 1)).latitudeE7 := by
      unfold side
      rcases Nat.mod_two_eq_zero_or_one m with hm | hm
      · simp [hm, Nat.add_mod]
      · simp [hm, Nat.add_mod]
    simp [differs, hlat, hne]

theorem alternate_run (n : ℕ) :
    (generations .position (init 1 3 0) (alternate n)).length = n ∧
      (((run publisherStep (init 1 3 0) (alternate n)).streams .position).has = true →
        ∃ m, n = m + 1 ∧ (((run publisherStep (init 1 3 0) (alternate n)).streams
          .position).value : Position).latitudeE7 = (side m).latitudeE7) := by
  induction n with
  | zero => exact ⟨rfl, fun h => by cases h⟩
  | succ n ih =>
    obtain ⟨hlen, hlast⟩ := ih
    have hc := changed_side hlast
    have hstep : (publisherStep (run publisherStep (init 1 3 0) (alternate n))
        (.update .position (side n) 0)).streams = _ := streams_update hc
    rw [alternate_succ, generations, outputs_concat, ← generations, run_concat]
    rcases renewed_cases (run publisherStep (init 1 3 0) (alternate n))
      (.update .position (side n) 0) .position with ⟨hnone, -⟩ | ⟨hone, -⟩
    · rw [renewed, if_pos ⟨rfl, hc⟩] at hnone
      cases hnone
    · refine ⟨by rw [hone, List.length_append, hlen, List.length_singleton], fun _ => ⟨n, rfl, ?_⟩⟩
      rw [hstep, Function.update_self]
      rfl

/-- After `2 ^ 32` updates the last two have the same generation. -/
theorem generation_repeats : ¬ ∀ (sourceId destinationId : UInt16) (period : UInt64)
    (ops : List PublisherOp) (k : Kind), Identifies k (init sourceId destinationId period) ops := by
  intro h
  have hfew := (increasing_iff 1 3 0 (alternate (2 ^ 32)) .position).mp
    (h 1 3 0 (alternate (2 ^ 32)) .position).increasing
  rw [(alternate_run (2 ^ 32)).1] at hfew
  exact lt_irrefl _ hfew

end NewMavlink.State.Numbering
