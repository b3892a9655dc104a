import NewMavlink.Lib.Runs
import NewMavlink.State.Publisher

/-! # Runs of the publisher

A publisher is updated and polled in any order, with any values, clock readings and capacities.

* `stream_cases`, `publisherInv_run`: what a step does to a stream, and what holds of every stream
  that was reached.
* `poll_publishes`: what a poll returns is the state, one message for each of some of the kinds.
* `poll_loses_nothing_iff`: a poll takes the dirty flags of exactly what it returns, unless a
  snapshot is due: then it clears all of them, whether the messages were encoded and found room or
  not (`poll_loses`).
* `unchanged_iff`: an update with the same value changes nothing, unless the value leaves it to the
  publisher to fill in the source: the value is compared before it is filled in
  (`unchanged_published_again`). -/

namespace NewMavlink.State.PublisherRuns

open NewMavlink.Lib.Buffer NewMavlink.Lib.Runs NewMavlink.Wire
open NewMavlink.State.Messages NewMavlink.State.Publisher NewMavlink.State.Publisher.StatePublisher

/-- A call on the publisher. -/
inductive PublisherOp where
  | update (k : Kind) (value : k.Value) (nowMs : UInt64)
  | poll (nowMs : UInt64) (capacity : ℕ)

/-- The publisher after an operation. -/
def publisherStep (p : StatePublisher) : PublisherOp → StatePublisher
  | .update k value nowMs => (p.update k value nowMs).2
  | .poll nowMs capacity => (p.poll nowMs capacity).2

variable {p : StatePublisher} {op : PublisherOp} {k : Kind} {v : k.Value} {nowMs : UInt64}
  {capacity : ℕ} {snapshot : Bool} {x : PublishedMessage}

/-! ### The streams -/

theorem dirty_deltas {ks : List Kind} {out : List PublishedMessage}
    (h : ((deltas capacity ks out p).2.streams k).dirty = true) : (p.streams k).dirty = true := by
  induction ks generalizing out p with
  | nil => exact h
  | cons k' ks ih =>
    rcases deltas_cases capacity k' ks out p with ⟨-, hskip⟩ | ⟨m, -, -, -, hpublish⟩
    · rw [hskip] at h
      exact ih h
    · rw [hpublish] at h
      have hclean := ih h
      rw [clean_streams] at hclean
      exact Bool.and_elim_left hclean

theorem dirty_poll (h : ((p.poll nowMs capacity).2.streams k).dirty = true) :
    (p.streams k).dirty = true := by
  unfold poll at h
  split_ifs at h
  · exact h
  · exact dirty_deltas h

/-- **What a step does to a stream**: it clears its dirty flag, or is an update of it that changes
something. -/
theorem stream_cases (p : StatePublisher) (op : PublisherOp) (k : Kind) :
    (∃ dirty, (publisherStep p op).streams k = { p.streams k with dirty } ∧
      (dirty = true → (p.streams k).dirty = true) ∧
      ∀ v nowMs, op = .update k v nowMs → p.changed k v = false) ∨
    ∃ v nowMs, op = .update k v nowMs ∧ p.changed k v = true ∧ (publisherStep p op).streams k = {
      has := true
      value := p.stored k v
      generation := nextGeneration (p.streams k).generation
      dirty := true } := by
  cases op with
  | update k' v nowMs =>
    have hstep : publisherStep p (.update k' v nowMs) = (p.update k' v nowMs).2 := rfl
    rw [hstep]
    by_cases hc : p.changed k' v = true
    · rw [streams_update hc]
      by_cases hk : k = k'
      · subst hk
        exact Or.inr ⟨v, nowMs, rfl, hc, Function.update_self ..⟩
      · refine Or.inl ⟨_, Function.update_of_ne hk _ _, id, fun v' nowMs' heq => ?_⟩
        exact absurd (PublisherOp.update.inj heq).1.symm hk
    · have hsame : p.changed k' v = false := by simpa using hc
      rw [p.update_of_not_changed nowMs hsame]
      refine Or.inl ⟨_, rfl, id, fun v' nowMs' heq => ?_⟩
      obtain ⟨rfl, hv, -⟩ := PublisherOp.update.inj heq
      rwa [eq_of_heq hv] at hsame
  | poll nowMs capacity =>
    exact Or.inl ⟨_, (p.sameState_poll nowMs capacity).2.2 k, dirty_poll, fun _ _ => nofun⟩

theorem sourceId_publisherStep (p : StatePublisher) (op : PublisherOp) :
    (publisherStep p op).sourceId = p.sourceId := by
  cases op with
  | update k v nowMs => exact sourceId_update
  | poll nowMs capacity => exact (p.sameState_poll nowMs capacity).1

/-- A stream without a value is as it was at first; otherwise the value carries the generation of
the stream, is no snapshot, and names a source if the publisher has one. -/
structure StreamInv (p : StatePublisher) (k : Kind) : Prop where
  unset : (p.streams k).has = false →
    (p.streams k).dirty = false ∧ (p.streams k).generation = 0
  generation : (p.streams k).has = true → (p.streams k).generation ≠ 0 ∧
    (k.stateMeta (p.streams k).value).generation = (p.streams k).generation
  snapshot : (p.streams k).has = true → (k.stateMeta (p.streams k).value).snapshot = 0
  source : (p.streams k).has = true → (k.stateMeta (p.streams k).value).sourceId = 0 →
    p.sourceId = 0

/-- What holds of every publisher that is reached. -/
def PublisherInv (p : StatePublisher) : Prop := ∀ k, StreamInv p k

theorem nextGeneration_ne_zero (g : UInt32) : nextGeneration g ≠ 0 := by
  intro h
  have hnat := toNat_nextGeneration g
  rw [h] at hnat
  have hlt : g.toNat < 2 ^ 32 := UInt32.toNat_lt g
  simp only [UInt32.toNat_zero] at hnat
  omega

theorem publisherInv_step (p : StatePublisher) (op : PublisherOp) (h : PublisherInv p) :
    PublisherInv (publisherStep p op) := by
  intro k
  have hsource := sourceId_publisherStep p op
  rcases stream_cases p op k with ⟨dirty, heq, hdirty, -⟩ | ⟨v, nowMs, -, -, heq⟩
  · constructor <;> rw [heq]
    · intro hhas
      obtain ⟨hclean, hgen⟩ := (h k).unset hhas
      refine ⟨?_, hgen⟩
      by_contra hd
      rw [hdirty (by simpa using hd)] at hclean
      cases hclean
    · exact (h k).generation
    · exact (h k).snapshot
    · rw [hsource]
      exact (h k).source
  · constructor <;> rw [heq]
    · intro hhas
      cases hhas
    · exact fun _ => ⟨nextGeneration_ne_zero _, by simp [stored]⟩
    · exact fun _ => by simp [stored]
    · intro _ hzero
      rw [hsource]
      simp only [stored, Kind.stateMeta_withMeta] at hzero
      split_ifs at hzero with hv
      · exact hzero
      · exact absurd hzero hv

theorem publisherInv_init (sourceId destinationId : UInt16) (period : UInt64) :
    PublisherInv (init sourceId destinationId period) := by
  intro k
  constructor
  · exact fun _ => ⟨rfl, rfl⟩
  all_goals
    intro hhas
    cases hhas

theorem publisherInv_run (sourceId destinationId : UInt16) (period : UInt64)
    (ops : List PublisherOp) :
    PublisherInv (run publisherStep (init sourceId destinationId period) ops) :=
  run_keeps publisherInv_step ops (publisherInv_init sourceId destinationId period)

/-! ### What a poll returns -/

/-- The state of a stream, as a message of this sort publishes it. -/
def published (p : StatePublisher) (sort : PublishKind) (k : Kind) : k.Value :=
  let value := (p.streams k).value
  match sort with
  | .helpfulSnapshot =>
    k.withMeta value { k.stateMeta value with snapshot := 1, baseGeneration := 0 }
  | .onChange => k.withMeta value { k.stateMeta value with snapshot := 0 }

/-- The flags of a message of this sort. -/
def flagsOf : PublishKind → UInt8
  | .helpfulSnapshot => kFlagSnapshot
  | .onChange => kFlagDelta

/-- The message publishes the state of a stream. -/
structure Publishes (p : StatePublisher) (sort : PublishKind) (k : Kind) (x : PublishedMessage) :
    Prop where
  kind : x.kind = sort
  type : x.message.header.type = k.type
  flags : x.message.header.flags = flagsOf sort
  has : (p.streams k).has = true
  length : x.message.length = k.bytes
  decodes : k.decode (.data x.message.bytes) = some (published p sort k)

/-- The sort of a message that is a snapshot or not. -/
def kindOf (snapshot : Bool) : PublishKind := if snapshot then .helpfulSnapshot else .onChange

/-- **A message that is built publishes the state of its stream.** -/
theorem publishes_of_build (h : p.build k snapshot = some x) :
    Publishes p (kindOf snapshot) k x := by
  obtain ⟨hheader, hlength, hhas, hdecodes⟩ := build_eq_some h
  have hkind : x.kind = kindOf snapshot := by
    unfold build at h
    rw [if_neg (by simp [hhas])] at h
    obtain ⟨payload, -, rfl⟩ := Option.map_eq_some_iff.mp h
    rfl
  have hvalue : p.outgoing k snapshot = published p (kindOf snapshot) k := by
    cases snapshot <;> rfl
  have hflags : x.message.header.flags = flagsOf (kindOf snapshot) := by
    rw [hheader]
    cases snapshot <;> rfl
  exact ⟨hkind, by rw [hheader]; rfl, hflags, hhas, hlength, hvalue ▸ hdecodes⟩

/-- **What a poll publishes is the state**, in every run: at most three messages and no more than
there is room for, of one sort, at most one for each kind and in their order; and the state stays as
it is. -/
theorem poll_publishes (sourceId destinationId : UInt16) (period : UInt64) (ops : List PublisherOp)
    (nowMs : UInt64) (capacity : ℕ) :
    let p := run publisherStep (init sourceId destinationId period) ops
    (p.poll nowMs capacity).1.length ≤ min capacity 3 ∧
      (∃ sort ks, ks.Sublist [Kind.position, .attitude, .battery] ∧
        List.Forall₂ (Publishes p sort) ks (p.poll nowMs capacity).1) ∧
      ∀ k, ((p.poll nowMs capacity).2.streams k).has = (p.streams k).has ∧
        ((p.poll nowMs capacity).2.streams k).value = (p.streams k).value := by
  intro p
  obtain ⟨⟨ks, hsub, hbuilt⟩, hroom⟩ := p.poll_built nowMs capacity
  have hpublishes := hbuilt.imp fun k x => publishes_of_build
  have hstate := (p.sameState_poll nowMs capacity).2.2
  refine ⟨le_min hroom ?_, ⟨_, ks, hsub, hpublishes⟩, fun k => ?_⟩
  · rw [← hbuilt.length_eq]
    exact hsub.length_le
  · rw [hstate k]
    exact ⟨rfl, rfl⟩

/-! ### What a poll loses -/

/-- The kinds that a poll goes through before this one. -/
def earlier : Kind → List Kind
  | .position => []
  | .attitude => [.position]
  | .battery => [.position, .attitude]

/-- The stream has a value that its encoder accepts. -/
def encodes (p : StatePublisher) (k : Kind) : Bool :=
  let value := (p.streams k).value
  let m := k.stateMeta value
  (p.streams k).has &&
    decide (m.resourceId ≠ 0 ∧ m.sourceId ≠ 0 ∧ m.reserved = 0 ∧ k.Plausible value)

/-- A snapshot of the stream can be encoded, and those of the kinds before it leave room for it. -/
def Fits (p : StatePublisher) (capacity : ℕ) (k : Kind) : Prop :=
  encodes p k = true ∧ (earlier k).countP (encodes p) < capacity

/-- The message is of the stream's type and carries its current generation and values. -/
def CarriesState (p : StatePublisher) (k : Kind) (x : PublishedMessage) : Prop :=
  x.message.header.type = k.type ∧ ∃ sort, k.decode (.data x.message.bytes) =
    some (published p sort k) ∧
      (k.stateMeta (published p sort k)).generation = (p.streams k).generation

/-- Whenever the poll clears a dirty flag, it returns a message that carries the stream's state. -/
def LosesNothing (p : StatePublisher) (nowMs : UInt64) (capacity : ℕ) : Prop :=
  ∀ k, (p.streams k).dirty = true → ((p.poll nowMs capacity).2.streams k).dirty = false →
    ∃ x ∈ (p.poll nowMs capacity).1, CarriesState p k x

theorem build_isSome (h : StreamInv p k) (snapshot : Bool) :
    (p.build k snapshot).isSome = encodes p k := by
  rw [Bool.eq_iff_iff, build_isSome_iff]
  unfold encodes outgoing
  dsimp only
  rw [Bool.and_eq_true, decide_eq_true_eq, Kind.stateMeta_withMeta, Kind.plausible_withMeta]
  refine and_congr_right fun hhas => ?_
  constructor
  · rintro ⟨hm, hv⟩
    exact ⟨hm.resource, hm.source, hm.reserved, hv⟩
  · rintro ⟨hresource, hsource, hreserved, hv⟩
    obtain ⟨hne, hgen⟩ := h.generation hhas
    exact ⟨⟨hresource, by rwa [hgen], hsource, by cases snapshot <;> simp, hreserved⟩, hv⟩

theorem carriesState_of_build (h : StreamInv p k) (hx : p.build k snapshot = some x) :
    CarriesState p k x := by
  have hpub := publishes_of_build hx
  refine ⟨hpub.type, _, hpub.decodes, ?_⟩
  rw [← (h.generation hpub.has).2]
  cases snapshot <;> simp [published, kindOf]

theorem kind_of_build {k' : Kind} (hx : p.build k' snapshot = some x)
    (h : x.message.header.type = k.type) : k' = k :=
  Kind.type_injective ((publishes_of_build hx).type.symm.trans h)

theorem mem_take_append_cons {α : Type} {l₁ l₂ : List α} {a : α} {n : ℕ} (h : a ∉ l₁) :
    a ∈ (l₁ ++ a :: l₂).take n ↔ l₁.length < n := by
  rw [List.take_append]
  constructor
  · intro hmem
    by_contra hn
    rw [Nat.sub_eq_zero_of_le (by omega), List.take_zero, List.append_nil] at hmem
    exact h (List.mem_of_mem_take hmem)
  · intro hn
    obtain ⟨i, hi⟩ : ∃ i, n - l₁.length = i + 1 := ⟨n - l₁.length - 1, by omega⟩
    rw [hi, List.take_succ_cons]
    exact List.mem_append_right _ List.mem_cons_self

/-- **Which streams a due poll publishes.** -/
theorem snapshot_published_iff (h : PublisherInv p) (capacity : ℕ) (k : Kind) :
    (∃ x ∈ (Kind.all.filterMap (p.build · true)).take capacity, CarriesState p k x) ↔
      Fits p capacity k := by
  have hsplit : ∃ later, Kind.all = earlier k ++ k :: later := by
    cases k
    exacts [⟨_, rfl⟩, ⟨_, rfl⟩, ⟨_, rfl⟩]
  have hbefore : k ∉ earlier k := by cases k <;> decide
  obtain ⟨later, hall⟩ := hsplit
  have hcount : ((earlier k).filterMap (p.build · true)).length =
      (earlier k).countP (encodes p) := by
    rw [List.length_filterMap_eq_countP]
    exact List.countP_congr fun k' _ => by rw [build_isSome (h k')]
  have hplace : ∀ {x}, p.build k true = some x →
      (x ∈ (Kind.all.filterMap (p.build · true)).take capacity ↔
        (earlier k).countP (encodes p) < capacity) := by
    intro x hx
    have hnot : x ∉ (earlier k).filterMap (p.build · true) := by
      intro hmem
      obtain ⟨k', hk', hx'⟩ := List.mem_filterMap.mp hmem
      exact hbefore (kind_of_build hx' (publishes_of_build hx).type ▸ hk')
    rw [hall, List.filterMap_append, List.filterMap_cons_some (f := (p.build · true)) hx,
      mem_take_append_cons hnot, hcount]
  constructor
  · rintro ⟨x, hmem, htype, -⟩
    obtain ⟨k', -, hx⟩ := List.mem_filterMap.mp (List.mem_of_mem_take hmem)
    obtain rfl := kind_of_build hx htype
    refine ⟨?_, (hplace hx).mp hmem⟩
    rw [← build_isSome (h k') true, hx]
    rfl
  · rintro ⟨hencodes, hroom⟩
    rw [← build_isSome (h k) true] at hencodes
    obtain ⟨x, hx⟩ := Option.isSome_iff_exists.mp hencodes
    exact ⟨x, (hplace hx).mpr hroom, carriesState_of_build (h k) hx⟩

theorem cleared_deltas {ks : List Kind} {out : List PublishedMessage} (h : out.length ≤ capacity)
    (hd : (p.streams k).dirty = true)
    (hclear : ((deltas capacity ks out p).2.streams k).dirty = false) :
    ∃ x, p.build k false = some x ∧ x ∈ (deltas capacity ks out p).1 := by
  induction ks generalizing out p with
  | nil => cases hd.symm.trans hclear
  | cons k' ks ih =>
    rcases deltas_cases capacity k' ks out p with ⟨-, hskip⟩ | ⟨m, -, hroom, hm, hpublish⟩
    · rw [hskip] at hclear ⊢
      exact ih h hd hclear
    · rw [hpublish] at hclear ⊢
      have hlen : (out ++ [m]).length ≤ capacity := by
        rw [List.length_append, List.length_singleton]
        omega
      by_cases hk : k = k'
      · subst hk
        obtain ⟨new, heq, -⟩ := (p.clean k).deltas_built ks (out ++ [m]) hlen
        refine ⟨m, hm, ?_⟩
        rw [heq]
        simp
      · have hd' : ((p.clean k').streams k).dirty = true := by
          rw [clean_streams]
          simp [hd, hk]
        obtain ⟨x, hx, hmem⟩ := ih hlen hd' hclear
        exact ⟨x, (sameState_clean.build_eq k false).symm.trans hx, hmem⟩

/-- **When a poll loses nothing**: if no snapshot is due, or the snapshot of every dirty stream can
be encoded and finds room. -/
theorem losesNothing_iff (h : PublisherInv p) (hcapacity : 1 ≤ capacity) :
    LosesNothing p nowMs capacity ↔
      p.due nowMs = false ∨ ∀ k, (p.streams k).dirty = true → Fits p capacity k := by
  have hpoll : p.poll nowMs capacity = if p.due nowMs = true then
      (p.snapshots capacity Kind.all [], { p with
        streams := fun k => { p.streams k with dirty := false }
        nextSnapshotMs := p.scheduleNextSnapshot nowMs })
      else deltas capacity Kind.all [] p := if_neg (by omega)
  unfold LosesNothing
  rw [hpoll]
  cases hdue : p.due nowMs with
  | true =>
    rw [if_pos rfl, snapshots_eq (Nat.zero_le _), List.nil_append]
    simp only [snapshot_published_iff h, Bool.true_eq_false, false_or, forall_const]
  | false =>
    rw [if_neg Bool.false_ne_true]
    refine iff_of_true (fun k hd hclear => ?_) (Or.inl rfl)
    obtain ⟨x, hx, hmem⟩ := cleared_deltas (Nat.zero_le capacity) hd hclear
    exact ⟨x, hmem, carriesState_of_build (h k) hx⟩

/-- **When the polls lose nothing**, in every run. -/
theorem poll_loses_nothing_iff (sourceId destinationId : UInt16) (period : UInt64)
    (ops : List PublisherOp) :
    Along publisherStep (fun p op => ∀ nowMs capacity, op = .poll nowMs capacity → 1 ≤ capacity →
      (LosesNothing p nowMs capacity ↔
        p.due nowMs = false ∨ ∀ k, (p.streams k).dirty = true → Fits p capacity k))
      (init sourceId destinationId period) ops := by
  have hany : Along publisherStep (fun _ _ => True) (init sourceId destinationId period) ops :=
    along_of_forall (fun _ _ => trivial) _ _
  refine along_of_invariant (fun p op h _ => publisherInv_step p op h) ?_
    (publisherInv_init sourceId destinationId period) hany
  rintro p op hinv - nowMs capacity rfl hcapacity
  exact losesNothing_iff hinv hcapacity

/-- An attitude that changed finds no room in a poll that is due: its flag is cleared, and it is
not returned. -/
theorem poll_loses : ¬ ∀ (sourceId destinationId : UInt16) (period : UInt64)
    (ops : List PublisherOp) (nowMs : UInt64) (capacity : ℕ), 1 ≤ capacity →
      LosesNothing (run publisherStep (init sourceId destinationId period) ops) nowMs capacity := by
  intro h
  let ops : List PublisherOp := [.update .position { stateMeta := { resourceId := 42 } } 0,
    .update .attitude { stateMeta := { resourceId := 43 } } 0]
  have hinv := publisherInv_run 1 3 10000 ops
  rcases (losesNothing_iff hinv le_rfl).mp (h 1 3 10000 ops 10000 1 le_rfl) with hdue | hfits
  · revert hdue
    decide +kernel
  · have hroom := (hfits .attitude rfl).2
    revert hroom
    decide +kernel

/-! ### Updates with the same value -/

theorem sourceId_run (sourceId destinationId : UInt16) (period : UInt64)
    (ops : List PublisherOp) :
    (run publisherStep (init sourceId destinationId period) ops).sourceId = sourceId :=
  run_keeps (fun p op h => (sourceId_publisherStep p op).trans h) ops rfl

/-- An update leaves the publisher alone exactly if it returns false. -/
theorem update_eq_self_iff : p.update k v nowMs = (false, p) ↔ p.changed k v = false := by
  constructor
  · intro h
    exact fst_update.symm.trans (congrArg Prod.fst h)
  · intro h
    exact Prod.ext (fst_update.trans h) (p.update_of_not_changed nowMs h)

/-- The stored value differs from the one that was given at most in the source that was filled
in. -/
theorem differs_stored (p : StatePublisher) (k : Kind) (v : k.Value) :
    differs k (p.stored k v) v = false ↔ (k.stateMeta v).sourceId ≠ 0 ∨ p.sourceId = 0 := by
  have hsource : differs k (p.stored k v) v =
      ((if (k.stateMeta v).sourceId = 0 then p.sourceId else (k.stateMeta v).sourceId) !=
        (k.stateMeta v).sourceId) := by
    cases k <;> simp [differs, stored, Kind.withMeta, Kind.stateMeta]
  rw [hsource]
  by_cases hv : (k.stateMeta v).sourceId = 0
  · simp [hv]
  · simp [hv]

theorem source_of_not_differs {w : k.Value} (h : differs k w v = false) :
    (k.stateMeta w).sourceId = (k.stateMeta v).sourceId := by
  cases k <;> simp_all [differs, Kind.stateMeta]

/-- **When an update with the same value changes nothing**, in every run: if the value names its
source, or the publisher has none to fill in. -/
theorem unchanged_iff (sourceId destinationId : UInt16) (period : UInt64) (ops : List PublisherOp)
    (k : Kind) (v : k.Value) (t₁ t₂ : UInt64) :
    let p := run publisherStep (init sourceId destinationId period) (ops ++ [.update k v t₁])
    p.update k v t₂ = (false, p) ↔ (k.stateMeta v).sourceId ≠ 0 ∨ sourceId = 0 := by
  intro p
  set p₀ := run publisherStep (init sourceId destinationId period) ops with hp₀
  have hinv : StreamInv p₀ k := publisherInv_run sourceId destinationId period ops k
  have hsource : p₀.sourceId = sourceId := sourceId_run sourceId destinationId period ops
  have hp : p = (p₀.update k v t₁).2 := run_concat _ ops _
  rw [update_eq_self_iff, hp]
  by_cases hc : p₀.changed k v = true
  · have hchanged : (p₀.update k v t₁).2.changed k v = differs k (p₀.stored k v) v := by
      unfold changed
      rw [streams_update hc, Function.update_self]
      rfl
    rw [hchanged, differs_stored, hsource]
  · have hsame : p₀.changed k v = false := by simpa using hc
    rw [p₀.update_of_not_changed t₁ hsame]
    refine iff_of_true hsame ?_
    -- the stored value names the same source, and it names none only if there is none
    unfold changed at hsame
    rw [Bool.or_eq_false_iff, Bool.not_eq_false'] at hsame
    obtain ⟨hhas, hdiffers⟩ := hsame
    by_cases hv : (k.stateMeta v).sourceId = 0
    · exact Or.inr (hsource ▸ hinv.source hhas ((source_of_not_differs hdiffers).trans hv))
    · exact Or.inl hv

/-- A position without a source is published again at every update. -/
theorem unchanged_published_again : ¬ ∀ (sourceId destinationId : UInt16) (period : UInt64)
    (ops : List PublisherOp) (k : Kind) (v : k.Value) (t₁ t₂ : UInt64),
    let p := run publisherStep (init sourceId destinationId period) (ops ++ [.update k v t₁])
    p.update k v t₂ = (false, p) := by
  intro h
  have hcond := (unchanged_iff 1 3 10000 [] .position { stateMeta := { resourceId := 42 } } 0 0).mp
    (h 1 3 10000 [] .position _ 0 0)
  revert hcond
  decide

end NewMavlink.State.PublisherRuns
