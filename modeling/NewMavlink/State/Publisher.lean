import NewMavlink.State.Messages

/-! # The state publisher

`StatePublisher` of `publisher.cpp`: the current value of each kind of state with its generation,
published on change as a difference and now and then as a snapshot. The members of the source for a
`Position`, an `Attitude` and a `Battery` are the same code but for the fields they compare, so each
is one definition with the kind as an argument.

* `streams_update`: an update that changes something moves its stream on by one generation.
* `build_eq_some`: a message that is built carries the current value, as a snapshot or a difference.
* `poll_built`, `mem_poll`: what a poll publishes was built from the current values, one kind after
  the other.
* `poll_of_room`: with room for three messages, which are published, and that no stream of them is
  dirty afterwards. -/

namespace NewMavlink.State.Publisher

open NewMavlink.Lib.Buffer NewMavlink.Wire NewMavlink.State.Messages

/-- The snapshot period, if none is given. -/
abbrev kHelpfulSnapshotPeriodMs : UInt64 := 10000
/-- The last generation. -/
abbrev kUint32Max : UInt32 := 0xFFFFFFFF
/-- The last time. -/
abbrev kUint64Max : UInt64 := 0xFFFFFFFFFFFFFFFF

/-- Why a message is published: its value has changed, or a snapshot is due. -/
inductive PublishKind where
  | onChange
  | helpfulSnapshot
deriving DecidableEq, Repr

/-- `PublishedMessage`. -/
structure PublishedMessage where
  message : NativeMessage
  kind : PublishKind

/-- A kind of state that the publisher has been given no value of yet. -/
def zeroValue : (k : Kind) → k.Value
  | .position => {}
  | .attitude => {}
  | .battery => {}

/-- `has_position`, `position`, `position_generation_` and `position_dirty_`, and the same for the
other kinds. -/
structure Stream (k : Kind) where
  has : Bool := false
  value : k.Value := zeroValue k
  generation : UInt32 := 0
  dirty : Bool := false

/-- The publisher: the state of its three streams, and when the next snapshot is due. -/
structure StatePublisher where
  sourceId : UInt16
  destinationId : UInt16
  snapshotPeriodMs : UInt64
  nextSnapshotMs : UInt64 := 0
  streams : (k : Kind) → Stream k := fun _ => {}

/-- `next_generation`. -/
def nextGeneration (current : UInt32) : UInt32 :=
  if current = kUint32Max then current else current + 1

theorem toNat_nextGeneration (g : UInt32) :
    (nextGeneration g).toNat = min (g.toNat + 1) (2 ^ 32 - 1) := by
  have hlt : g.toNat < 2 ^ 32 := UInt32.toNat_lt g
  have hmax : kUint32Max.toNat = 2 ^ 32 - 1 := rfl
  unfold nextGeneration
  by_cases hg : g = kUint32Max
  · rw [if_pos hg, hg, hmax]
    omega
  · have hne : g.toNat ≠ kUint32Max.toNat := fun h => hg (UInt32.toNat_inj.mp h)
    rw [if_neg hg, UInt32.toNat_add, UInt32.toNat_one, Nat.mod_eq_of_lt (by omega)]
    omega

/-- `prepare_header`. -/
def prepareHeader (type : MessageType) (source destination : UInt16) (snapshot : Bool) :
    RecordHeader where
  type := type
  qos := .stateLatest
  sourceId := source
  destinationId := destination
  flags := if snapshot then kFlagSnapshot else kFlagDelta

/-- The fields that `changed_position`, `changed_attitude` and `changed_battery` compare. -/
def differs : (k : Kind) → k.Value → k.Value → Bool
  | .position, old, value => old.stateMeta.resourceId != value.stateMeta.resourceId ||
      old.stateMeta.sourceId != value.stateMeta.sourceId ||
      old.latitudeE7 != value.latitudeE7 || old.longitudeE7 != value.longitudeE7 ||
      old.altitudeMm != value.altitudeMm
  | .attitude, old, value => old.stateMeta.resourceId != value.stateMeta.resourceId ||
      old.stateMeta.sourceId != value.stateMeta.sourceId ||
      old.rollUrad != value.rollUrad || old.pitchUrad != value.pitchUrad ||
      old.yawUrad != value.yawUrad
  | .battery, old, value => old.stateMeta.resourceId != value.stateMeta.resourceId ||
      old.stateMeta.sourceId != value.stateMeta.sourceId ||
      old.voltageMv != value.voltageMv || old.currentMa != value.currentMa ||
      old.remainingPermille != value.remainingPermille

/-- An array of a message, with a value encoded into it. -/
def encodePayload (k : Kind) (value : k.Value) : Option (List.Vector UInt8 kMaxPayloadBytes) :=
  match h : k.encode value (.data (List.replicate kMaxPayloadBytes 0)) with
  | none => none
  | some p => some ⟨p, (take_of_encode h).1.trans (by simp)⟩

namespace StatePublisher

/-- The constructor. -/
def init (sourceId destinationId : UInt16) (snapshotPeriodMs : UInt64) : StatePublisher where
  sourceId := sourceId
  destinationId := destinationId
  snapshotPeriodMs := if snapshotPeriodMs = 0 then kHelpfulSnapshotPeriodMs else snapshotPeriodMs

variable (p : StatePublisher)

/-- `changed_position`, `changed_attitude`, `changed_battery`. -/
def changed (k : Kind) (value : k.Value) : Bool :=
  !(p.streams k).has || differs k (p.streams k).value value

/-- `changed_position`. -/
def changedPosition := p.changed .position
/-- `changed_attitude`. -/
def changedAttitude := p.changed .attitude
/-- `changed_battery`. -/
def changedBattery := p.changed .battery

/-- The value that an update stores. -/
def stored (k : Kind) (value : k.Value) : k.Value :=
  let m := k.stateMeta value
  k.withMeta value { m with
    sourceId := if m.sourceId = 0 then p.sourceId else m.sourceId
    generation := nextGeneration (p.streams k).generation
    baseGeneration := if (p.streams k).has then (p.streams k).generation else 0
    snapshot := 0 }

/-- `update_position`, `update_attitude`, `update_battery`. -/
def update (k : Kind) (value : k.Value) (nowMs : UInt64) : Bool × StatePublisher :=
  if !p.changed k value then (false, p)
  else (true, { p with
    streams := Function.update p.streams k {
      has := true
      value := p.stored k value
      generation := nextGeneration (p.streams k).generation
      dirty := true }
    nextSnapshotMs := if p.nextSnapshotMs = 0 then nowMs + p.snapshotPeriodMs
      else p.nextSnapshotMs })

/-- `update_position`. -/
def updatePosition (value : Position) := p.update .position value
/-- `update_attitude`. -/
def updateAttitude (value : Attitude) := p.update .attitude value
/-- `update_battery`. -/
def updateBattery (value : Battery) := p.update .battery value

/-- The value that is published: a snapshot names no base. -/
def outgoing (k : Kind) (snapshot : Bool) : k.Value :=
  let value := (p.streams k).value
  let m := k.stateMeta value
  k.withMeta value { m with
    snapshot := if snapshot then 1 else 0
    baseGeneration := if snapshot then 0 else m.baseGeneration }

/-- `build_position`, `build_attitude`, `build_battery`. -/
def build (k : Kind) (snapshot : Bool) : Option PublishedMessage :=
  if !(p.streams k).has then none
  else
    (encodePayload k (p.outgoing k snapshot)).map fun payload => {
      message := {
        header := prepareHeader k.type p.sourceId p.destinationId snapshot
        payload
        length := k.bytes }
      kind := if snapshot then .helpfulSnapshot else .onChange }

/-- `build_position`. -/
def buildPosition := p.build .position
/-- `build_attitude`. -/
def buildAttitude := p.build .attitude
/-- `build_battery`. -/
def buildBattery := p.build .battery

/-- `schedule_next_snapshot`. -/
def scheduleNextSnapshot (nowMs : UInt64) : UInt64 :=
  if nowMs > kUint64Max - p.snapshotPeriodMs then kUint64Max else nowMs + p.snapshotPeriodMs

/-- The snapshots of `poll`, one kind after the other while there is room. -/
def snapshots (capacity : ℕ) : List Kind → List PublishedMessage → List PublishedMessage
  | [], out => out
  | k :: ks, out =>
    snapshots capacity ks (if out.length < capacity then out ++ (p.build k true).toList else out)

/-- The publisher with the dirty flag of one stream cleared. -/
def clean (k : Kind) : StatePublisher :=
  { p with streams := Function.update p.streams k { p.streams k with dirty := false } }

/-- The differences of `poll`, one kind after the other; a stream stays dirty if its message does
not fit or is not built. -/
def deltas (capacity : ℕ) : List Kind → List PublishedMessage → StatePublisher →
    List PublishedMessage × StatePublisher
  | [], out, p => (out, p)
  | k :: ks, out, p =>
    if (p.streams k).dirty ∧ out.length < capacity then
      match p.build k false with
      | some m => deltas capacity ks (out ++ [m]) (p.clean k)
      | none => deltas capacity ks out p
    else deltas capacity ks out p

/-- A snapshot is due. -/
def due (nowMs : UInt64) : Bool := p.nextSnapshotMs != 0 && nowMs ≥ p.nextSnapshotMs

/-- `poll`, with an output array of `capacity` messages (none, if there is no array). -/
def poll (nowMs : UInt64) (capacity : ℕ) : List PublishedMessage × StatePublisher :=
  if capacity = 0 then ([], p)
  else if p.due nowMs then
    (p.snapshots capacity Kind.all [], { p with
      streams := fun k => { p.streams k with dirty := false }
      nextSnapshotMs := p.scheduleNextSnapshot nowMs })
  else deltas capacity Kind.all [] p

/-! ### Updates -/

variable {p} {k k' : Kind} {v : k.Value} {nowMs : UInt64} {snapshot : Bool} {capacity : ℕ}
  {x : PublishedMessage}

@[simp] theorem sourceId_update : (p.update k v nowMs).2.sourceId = p.sourceId := by
  unfold update
  split_ifs <;> rfl

@[simp] theorem destinationId_update :
    (p.update k v nowMs).2.destinationId = p.destinationId := by
  unfold update
  split_ifs <;> rfl

@[simp] theorem fst_update : (p.update k v nowMs).1 = p.changed k v := by
  unfold update
  by_cases h : p.changed k v = true
  · rw [if_neg (by simp [h])]
    exact h.symm
  · rw [if_pos (by simpa using h)]
    simpa using h

theorem update_of_not_changed (p : StatePublisher) (nowMs : UInt64)
    (h : p.changed k v = false) : (p.update k v nowMs).2 = p := by
  unfold update
  rw [if_pos (by simp [h])]

/-- **An update that changes something** moves its stream on by one generation. -/
theorem streams_update (h : p.changed k v = true) : (p.update k v nowMs).2.streams =
    Function.update p.streams k {
      has := true
      value := p.stored k v
      generation := nextGeneration (p.streams k).generation
      dirty := true } := by
  unfold update
  rw [if_neg (by simp [h])]

/-! ### Messages -/

theorem encodePayload_eq_some {payload : List.Vector UInt8 kMaxPayloadBytes}
    (h : encodePayload k v = some payload) :
    payload.toList.take k.bytes = stateBytes k v ∧ (k.stateMeta v).Valid ∧ k.Plausible v := by
  unfold encodePayload at h
  split at h
  · cases h
  · next q hq =>
    obtain rfl := Option.some.inj h
    exact ⟨(take_of_encode hq).2.2, valid_of_encode hq, (encode_eq_some_iff.mp hq).1.2.2.2.2⟩

theorem encodePayload_isSome_iff :
    (encodePayload k v).isSome = true ↔ (k.stateMeta v).Valid ∧ k.Plausible v := by
  have hroom : k.bytes ≤ (List.replicate kMaxPayloadBytes (0 : UInt8)).length := by
    rw [List.length_replicate]
    cases k <;> decide
  rw [← encode_isSome_iff hroom]
  unfold encodePayload
  split
  · next hq => simp [hq]
  · next q hq => exact iff_of_true rfl (Option.isSome_iff_exists.mpr ⟨q, hq⟩)

/-- **What a message carries** that is built: the current value, as a snapshot or a difference. -/
theorem build_eq_some (h : p.build k snapshot = some x) :
    x.message.header = prepareHeader k.type p.sourceId p.destinationId snapshot ∧
      x.message.length = k.bytes ∧ (p.streams k).has = true ∧
      k.decode (.data x.message.bytes) = some (p.outgoing k snapshot) := by
  unfold build at h
  by_cases hhas : (!(p.streams k).has) = true
  · rw [if_pos hhas] at h
    cases h
  rw [if_neg hhas] at h
  obtain ⟨payload, hp, rfl⟩ := Option.map_eq_some_iff.mp h
  obtain ⟨hbytes, hvalid, hplausible⟩ := encodePayload_eq_some hp
  refine ⟨rfl, rfl, by simpa using hhas, ?_⟩
  rw [NativeMessage.bytes, hbytes]
  exact decode_stateBytes hvalid hplausible

theorem build_isSome_iff : (p.build k snapshot).isSome = true ↔ (p.streams k).has = true ∧
    (k.stateMeta (p.outgoing k snapshot)).Valid ∧ k.Plausible (p.outgoing k snapshot) := by
  unfold build
  by_cases hhas : (p.streams k).has = true
  · rw [if_neg (by simp [hhas]), Option.isSome_map, encodePayload_isSome_iff]
    simp [hhas]
  · rw [if_pos (by simpa using hhas)]
    simp [hhas]

/-! ### Polls -/

theorem clean_streams : (p.clean k).streams k' =
    { p.streams k' with dirty := (p.streams k').dirty && decide (k' ≠ k) } := by
  unfold clean
  by_cases hk : k' = k
  · subst hk
    simp
  · simp [hk]

/-- Only the dirty flags of two publishers differ, and the time of the next snapshot. -/
def SameState (p p' : StatePublisher) : Prop :=
  p'.sourceId = p.sourceId ∧ p'.destinationId = p.destinationId ∧
    ∀ k, p'.streams k = { p.streams k with dirty := (p'.streams k).dirty }

theorem SameState.refl : SameState p p := ⟨rfl, rfl, fun _ => rfl⟩

theorem SameState.trans {p' p'' : StatePublisher} (h : SameState p p') (h' : SameState p' p'') :
    SameState p p'' := by
  refine ⟨h'.1.trans h.1, h'.2.1.trans h.2.1, fun k => ?_⟩
  rw [h'.2.2 k, h.2.2 k]

theorem sameState_dirty (dirty : Kind → Bool) (t : UInt64) : SameState p { p with
    streams := fun k => { p.streams k with dirty := dirty k }
    nextSnapshotMs := t } :=
  ⟨rfl, rfl, fun _ => rfl⟩

theorem sameState_clean : SameState p (p.clean k) := by
  refine ⟨rfl, rfl, fun k' => ?_⟩
  rw [clean_streams]

theorem SameState.build_eq {p' : StatePublisher} (h : SameState p p') (k : Kind)
    (snapshot : Bool) : p'.build k snapshot = p.build k snapshot := by
  obtain ⟨hs, hd, hstreams⟩ := h
  unfold build outgoing
  rw [hstreams k, hs, hd]

/-- **The snapshots of a poll** are those of all the streams that have one, as far as there is
room. -/
theorem snapshots_eq {ks : List Kind} {out : List PublishedMessage} (h : out.length ≤ capacity) :
    p.snapshots capacity ks out = (out ++ ks.filterMap (p.build · true)).take capacity := by
  induction ks generalizing out with
  | nil => simp [snapshots, List.take_of_length_le h]
  | cons k ks ih =>
    unfold snapshots
    by_cases hroom : out.length < capacity
    · have hlen : (p.build k true).toList.length ≤ 1 := by cases p.build k true <;> simp
      rw [if_pos hroom, ih (by rw [List.length_append]; omega)]
      cases hb : p.build k true <;> simp [hb]
    · have hfull : capacity = out.length := by omega
      rw [if_neg hroom, ih h, hfull, List.take_left, List.take_left]

/-- The messages are built of some of these streams, in their order. -/
def BuiltOf (p : StatePublisher) (snapshot : Bool) (ks : List Kind)
    (out : List PublishedMessage) : Prop :=
  ∃ ks', ks'.Sublist ks ∧ List.Forall₂ (fun k x => p.build k snapshot = some x) ks' out

theorem builtOf_nil (ks : List Kind) : p.BuiltOf snapshot ks [] := ⟨[], List.nil_sublist _, .nil⟩

theorem BuiltOf.skip {ks : List Kind} {out : List PublishedMessage}
    (h : p.BuiltOf snapshot ks out) (k : Kind) : p.BuiltOf snapshot (k :: ks) out := by
  obtain ⟨ks', hsub, hbuilt⟩ := h
  exact ⟨ks', hsub.cons k, hbuilt⟩

theorem BuiltOf.cons {ks : List Kind} {out : List PublishedMessage}
    (h : p.BuiltOf snapshot ks out) (hx : p.build k snapshot = some x) :
    p.BuiltOf snapshot (k :: ks) (x :: out) := by
  obtain ⟨ks', hsub, hbuilt⟩ := h
  exact ⟨k :: ks', hsub.cons_cons k, .cons hx hbuilt⟩

theorem BuiltOf.take {ks : List Kind} {out : List PublishedMessage}
    (h : p.BuiltOf snapshot ks out) (n : ℕ) : p.BuiltOf snapshot ks (out.take n) := by
  obtain ⟨ks', hsub, hbuilt⟩ := h
  exact ⟨ks'.take n, (List.take_sublist n ks').trans hsub, List.forall₂_take n hbuilt⟩

theorem BuiltOf.exists_build {ks : List Kind} {out : List PublishedMessage}
    (h : p.BuiltOf snapshot ks out) (hx : x ∈ out) : ∃ k, p.build k snapshot = some x := by
  obtain ⟨ks', -, hbuilt⟩ := h
  induction hbuilt with
  | nil => cases hx
  | cons hb _ ih =>
    rcases List.mem_cons.mp hx with rfl | hx
    · exact ⟨_, hb⟩
    · exact ih hx

theorem builtOf_filterMap (p : StatePublisher) (snapshot : Bool) (ks : List Kind) :
    p.BuiltOf snapshot ks (ks.filterMap (p.build · snapshot)) := by
  induction ks with
  | nil => exact builtOf_nil []
  | cons k ks ih =>
    cases hb : p.build k snapshot with
    | none =>
      rw [List.filterMap_cons_none (f := (p.build · snapshot)) hb]
      exact ih.skip k
    | some x =>
      rw [List.filterMap_cons_some (f := (p.build · snapshot)) hb]
      exact ih.cons hb

/-- **What `poll` does with one kind** when it goes through the differences: it passes it over, or
publishes its message and clears its flag. -/
theorem deltas_cases (capacity : ℕ) (k : Kind) (ks : List Kind) (out : List PublishedMessage)
    (p : StatePublisher) :
    ((out.length < capacity → (p.streams k).dirty = true → p.build k false = none) ∧
      deltas capacity (k :: ks) out p = deltas capacity ks out p) ∨
    ∃ m, (p.streams k).dirty = true ∧ out.length < capacity ∧ p.build k false = some m ∧
      deltas capacity (k :: ks) out p = deltas capacity ks (out ++ [m]) (p.clean k) := by
  rw [deltas]
  split_ifs with hroom
  · cases hb : p.build k false with
    | none => exact Or.inl ⟨fun _ _ => rfl, rfl⟩
    | some m => exact Or.inr ⟨m, hroom.1, hroom.2, rfl, rfl⟩
  · exact Or.inl ⟨fun hlt hdirty => absurd ⟨hdirty, hlt⟩ hroom, rfl⟩

theorem sameState_deltas {ks : List Kind} {out : List PublishedMessage} :
    SameState p (deltas capacity ks out p).2 := by
  induction ks generalizing out p with
  | nil => exact .refl
  | cons k ks ih =>
    rcases deltas_cases capacity k ks out p with ⟨-, hskip⟩ | ⟨m, -, -, -, hpublish⟩
    · rw [hskip]
      exact ih
    · rw [hpublish]
      exact sameState_clean.trans ih

/-- The differences of a poll, as far as there is room. -/
theorem deltas_built (p : StatePublisher) (ks : List Kind) (out : List PublishedMessage)
    (h : out.length ≤ capacity) :
    ∃ new, (deltas capacity ks out p).1 = out ++ new ∧ p.BuiltOf false ks new ∧
      (out ++ new).length ≤ capacity := by
  induction ks generalizing out p with
  | nil => exact ⟨[], (List.append_nil out).symm, builtOf_nil [], by simpa using h⟩
  | cons k ks ih =>
    rcases deltas_cases capacity k ks out p with ⟨-, hskip⟩ | ⟨m, -, hroom, hm, hpublish⟩
    · obtain ⟨new, heq, hbuilt, hlen⟩ := ih p out h
      rw [hskip]
      exact ⟨new, heq, hbuilt.skip k, hlen⟩
    · obtain ⟨new, heq, ⟨ks', hsub, hbuilt⟩, hlen⟩ := ih (p.clean k) (out ++ [m])
        (by rw [List.length_append, List.length_singleton]; omega)
      have hbuilt' : p.BuiltOf false ks new :=
        ⟨ks', hsub, hbuilt.imp fun k' x hx => (sameState_clean.build_eq k' false).symm.trans hx⟩
      rw [List.append_assoc, List.singleton_append] at heq hlen
      rw [hpublish]
      exact ⟨m :: new, heq, hbuilt'.cons hm, hlen⟩

theorem sameState_poll (p : StatePublisher) (nowMs : UInt64) (capacity : ℕ) :
    SameState p (p.poll nowMs capacity).2 := by
  unfold poll
  split_ifs
  · exact .refl
  · exact sameState_dirty (fun _ => false) _
  · exact sameState_deltas

/-- **What a poll publishes** are messages of some of the streams in order, as many as there is room
for: snapshots if one is due, else differences. -/
theorem poll_built (p : StatePublisher) (nowMs : UInt64) (capacity : ℕ) :
    p.BuiltOf (p.due nowMs) Kind.all (p.poll nowMs capacity).1 ∧
      (p.poll nowMs capacity).1.length ≤ capacity := by
  unfold poll
  split_ifs with hzero hdue
  · exact ⟨builtOf_nil _, Nat.zero_le _⟩
  · rw [snapshots_eq (Nat.zero_le _), List.nil_append, hdue]
    exact ⟨(p.builtOf_filterMap true _).take capacity, List.length_take_le _ _⟩
  · obtain ⟨new, heq, hbuilt, hlen⟩ := p.deltas_built Kind.all [] (Nat.zero_le capacity)
    have hfalse : p.due nowMs = false := by simpa using hdue
    rw [heq, hfalse]
    exact ⟨hbuilt, hlen⟩

theorem mem_poll (h : x ∈ (p.poll nowMs capacity).1) :
    ∃ k snapshot, p.build k snapshot = some x := by
  obtain ⟨k, hk⟩ := (p.poll_built nowMs capacity).1.exists_build h
  exact ⟨k, _, hk⟩

/-! ### Polls with room for every message -/

/-- The difference that a poll publishes of a stream. -/
def pending (p : StatePublisher) (k : Kind) : Option PublishedMessage :=
  if (p.streams k).dirty then p.build k false else none

theorem pending_clean {k' : Kind} (hne : k' ≠ k) : (p.clean k).pending k' = p.pending k' := by
  unfold pending
  rw [clean_streams, sameState_clean.build_eq]
  simp [hne]

theorem deltas_of_room (p : StatePublisher) {ks : List Kind} (out : List PublishedMessage)
    (hks : ks.Nodup) (h : out.length + ks.length ≤ capacity) :
    (deltas capacity ks out p).1 = out ++ ks.filterMap p.pending ∧
      ∀ k, ((deltas capacity ks out p).2.streams k).dirty =
        ((p.streams k).dirty && !(decide (k ∈ ks) && (p.pending k).isSome)) := by
  induction ks generalizing out p with
  | nil => simp [deltas]
  | cons k ks ih =>
    obtain ⟨hk, hks⟩ := List.nodup_cons.mp hks
    rw [List.length_cons] at h
    rcases deltas_cases capacity k ks out p with ⟨hnot, hskip⟩ | ⟨m, hdirty, -, hm, hpublish⟩
    · have hp : p.pending k = none := by
        unfold pending
        split_ifs with hdirty
        · exact hnot (by omega) hdirty
        · rfl
      obtain ⟨hout, hclean⟩ := ih p out hks (by omega)
      rw [hskip]
      refine ⟨?_, fun k' => ?_⟩
      · rw [hout, List.filterMap_cons_none hp]
      · rw [hclean]
        by_cases hk' : k' = k
        · subst hk'
          simp [hp]
        · simp [hk']
    · have hp : p.pending k = some m := (if_pos hdirty).trans hm
      have hrest : ∀ k' ∈ ks, (p.clean k).pending k' = p.pending k' := fun k' hk' =>
        pending_clean fun he => hk (he ▸ hk')
      have hroom : (out ++ [m]).length + ks.length ≤ capacity := by
        rw [List.length_append, List.length_singleton]
        omega
      obtain ⟨hout, hclean⟩ := ih (p.clean k) (out ++ [m]) hks hroom
      rw [hpublish]
      refine ⟨?_, fun k' => ?_⟩
      · rw [hout, List.filterMap_congr hrest, List.filterMap_cons_some hp, List.append_assoc,
          List.singleton_append]
      · rw [hclean, clean_streams]
        by_cases hk' : k' = k
        · subst hk'
          simp [hp]
        · by_cases hmem : k' ∈ ks
          · simp [hk', hmem, hrest k' hmem]
          · simp [hk', hmem]

/-- **A poll with room for every message** publishes a snapshot of each stream if one is due, else
the differences of the dirty ones, and no stream of which something was published stays dirty. -/
theorem poll_of_room (p : StatePublisher) (nowMs : UInt64) (h : 3 ≤ capacity) :
    (p.poll nowMs capacity).1 =
        (if p.due nowMs then Kind.all.filterMap (p.build · true)
          else Kind.all.filterMap p.pending) ∧
      ∀ k, ((p.poll nowMs capacity).2.streams k).dirty =
        (!p.due nowMs && (p.streams k).dirty && (p.pending k).isNone) := by
  unfold poll
  rw [if_neg (by omega)]
  by_cases hdue : p.due nowMs = true
  · have hlen : (Kind.all.filterMap (p.build · true)).length ≤ capacity :=
      (List.length_filterMap_le _ _).trans h
    rw [if_pos hdue, if_pos hdue, snapshots_eq (Nat.zero_le _), List.nil_append,
      List.take_of_length_le hlen]
    simp [hdue]
  · rw [if_neg hdue, if_neg hdue]
    obtain ⟨hout, hclean⟩ := p.deltas_of_room [] (show Kind.all.Nodup by decide)
      (by simpa [Kind.all] using h)
    refine ⟨by rw [hout, List.nil_append], fun k => ?_⟩
    rw [hclean, decide_eq_true (Kind.mem_all k)]
    have hfalse : p.due nowMs = false := by simpa using hdue
    simp [hfalse]

end StatePublisher

end NewMavlink.State.Publisher
