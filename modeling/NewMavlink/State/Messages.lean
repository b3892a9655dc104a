import NewMavlink.Wire

/-! # Typed state messages

The state messages of `messages.cpp` and their codecs: a `StateMeta` of sixteen bytes, then the
fields of a `Position`, an `Attitude` or a `Battery`. An encoder returns the array after the call if
it returns true; a call that returns false has written nothing. What a failed decoder leaves in its
output argument is not modelled.

`Kind` names the three families, so that what holds of all of them is said once.

* `take_of_encode`, `decode_stateBytes`: what an encoder writes, and that the decoder of its kind
  reads it back.
* `encode_isSome_iff`, `valid_of_decode`: what an encoder accepts, and that a decoder accepts no
  more.
* `metaOf`: the meta at the head of a message, if it is long enough and decodes. -/

namespace NewMavlink.State.Messages

open NewMavlink.Lib.Buffer NewMavlink.Wire

/-- The size of an encoded `ResyncRequest`. -/
abbrev kResyncBytes : ℕ := 8
/-- The size of an encoded `Position`. -/
abbrev kPositionBytes : ℕ := 28
/-- The size of an encoded `Attitude`. -/
abbrev kAttitudeBytes : ℕ := 28
/-- The size of an encoded `Battery`. -/
abbrev kBatteryBytes : ℕ := 24

/-- `Subscription`: a type of one source. -/
structure Subscription where
  type : MessageType := .position
  qos : Qos := .stateLatest
  sourceId : UInt16 := 0
  intervalMs : UInt16 := 0
  flags : UInt32 := 0
deriving DecidableEq, Repr, Inhabited

/-- `ResyncRequest`: a stream that has a gap. -/
structure ResyncRequest where
  type : MessageType := .position
  sourceId : UInt16 := 0
  resourceId : UInt32 := 0
deriving DecidableEq, Repr, Inhabited

/-- `StateMeta`: the stream of a state message, and its place in it. -/
structure StateMeta where
  resourceId : UInt32 := 0
  generation : UInt32 := 0
  baseGeneration : UInt32 := 0
  sourceId : UInt16 := 0
  snapshot : UInt8 := 0
  reserved : UInt8 := 0
deriving DecidableEq, Repr, Inhabited

/-- `Position`. -/
structure Position where
  stateMeta : StateMeta := {}
  latitudeE7 : Int32 := 0
  longitudeE7 : Int32 := 0
  altitudeMm : Int32 := 0
deriving DecidableEq

/-- `Attitude`. -/
structure Attitude where
  stateMeta : StateMeta := {}
  rollUrad : Int32 := 0
  pitchUrad : Int32 := 0
  yawUrad : Int32 := 0
deriving DecidableEq

/-- `Battery`. -/
structure Battery where
  stateMeta : StateMeta := {}
  voltageMv : UInt16 := 0
  currentMa : UInt16 := 0
  remainingPermille : UInt16 := 0
  reserved : UInt16 := 0
deriving DecidableEq

/-! ### Codecs -/

/-- `encode_resync`: the array after the call, and the length. -/
def encodeResync (value : ResyncRequest) (out : Span UInt8) : Option (List UInt8 × ℕ) :=
  if out.isNull ∨ out.length < kResyncBytes ∨ !stateType value.type ∨ value.sourceId = 0 ∨
      value.resourceId = 0 then none
  else
    let p := put8 out.elems 0 value.type.code
    let p := put8 p 1 0
    let p := put16 p 2 value.sourceId
    let p := put32 p 4 value.resourceId
    some (p, kResyncBytes)

/-- `decode_resync`. -/
def decodeResync (bytes : Span UInt8) : Option ResyncRequest :=
  let p := bytes.elems
  if bytes.isNull ∨ bytes.length ≠ kResyncBytes ∨ get8 p 1 ≠ 0 ∨ !stateType ⟨get8 p 0⟩ then none
  else
    let value : ResyncRequest := ⟨⟨get8 p 0⟩, get16 p 2, get32 p 4⟩
    if value.sourceId ≠ 0 ∧ value.resourceId ≠ 0 then some value else none

/-- `encode_state_meta`. -/
def encodeStateMeta (value : StateMeta) (out : Span UInt8) : Option (List UInt8) :=
  if out.isNull ∨ out.length < 16 ∨ value.resourceId = 0 ∨ value.generation = 0 ∨
      value.sourceId = 0 then none
  else
    let p := put32 out.elems 0 value.resourceId
    let p := put32 p 4 value.generation
    let p := put32 p 8 value.baseGeneration
    let p := put16 p 12 value.sourceId
    let p := put8 p 14 value.snapshot
    some (put8 p 15 value.reserved)

/-- The fields `decode_state_meta` reads, before its checks. -/
def readStateMeta (p : List UInt8) : StateMeta :=
  ⟨get32 p 0, get32 p 4, get32 p 8, get16 p 12, get8 p 14, get8 p 15⟩

/-- `decode_state_meta`. -/
def decodeStateMeta (bytes : Span UInt8) : Option StateMeta :=
  if bytes.isNull ∨ bytes.length ≠ 16 then none
  else
    let value := readStateMeta bytes.elems
    if value.resourceId ≠ 0 ∧ value.generation ≠ 0 ∧ value.sourceId ≠ 0 ∧ value.snapshot ≤ 1 ∧
        value.reserved = 0 then some value
    else none

/-- `encode_position`. -/
def encodePosition (value : Position) (out : Span UInt8) : Option (List UInt8) :=
  if out.isNull ∨ out.length < kPositionBytes ∨ value.stateMeta.snapshot > 1 ∨
      value.stateMeta.reserved ≠ 0 ∨ value.latitudeE7 < -900000000 ∨ value.latitudeE7 > 900000000 ∨
      value.longitudeE7 < -1800000000 ∨ value.longitudeE7 > 1800000000 then none
  else
    (encodeStateMeta value.stateMeta out).map fun p =>
      let p := put32 p 16 value.latitudeE7.toUInt32
      let p := put32 p 20 value.longitudeE7.toUInt32
      put32 p 24 value.altitudeMm.toUInt32

/-- `decode_position`. -/
def decodePosition (bytes : Span UInt8) : Option Position :=
  if bytes.isNull ∨ bytes.length ≠ kPositionBytes then none
  else
    (decodeStateMeta (.data (bytes.elems.take 16))).bind fun m =>
      let p := bytes.elems
      let value : Position :=
        ⟨m, (get32 p 16).toInt32, (get32 p 20).toInt32, (get32 p 24).toInt32⟩
      if value.latitudeE7 ≥ -900000000 ∧ value.latitudeE7 ≤ 900000000 ∧
          value.longitudeE7 ≥ -1800000000 ∧ value.longitudeE7 ≤ 1800000000 then some value
      else none

/-- `encode_attitude`. -/
def encodeAttitude (value : Attitude) (out : Span UInt8) : Option (List UInt8) :=
  if out.isNull ∨ out.length < kAttitudeBytes ∨ value.stateMeta.snapshot > 1 ∨
      value.stateMeta.reserved ≠ 0 then none
  else
    (encodeStateMeta value.stateMeta out).map fun p =>
      let p := put32 p 16 value.rollUrad.toUInt32
      let p := put32 p 20 value.pitchUrad.toUInt32
      put32 p 24 value.yawUrad.toUInt32

/-- `decode_attitude`. -/
def decodeAttitude (bytes : Span UInt8) : Option Attitude :=
  if bytes.isNull ∨ bytes.length ≠ kAttitudeBytes then none
  else
    (decodeStateMeta (.data (bytes.elems.take 16))).bind fun m =>
      let p := bytes.elems
      some ⟨m, (get32 p 16).toInt32, (get32 p 20).toInt32, (get32 p 24).toInt32⟩

/-- `encode_battery`. -/
def encodeBattery (value : Battery) (out : Span UInt8) : Option (List UInt8) :=
  if out.isNull ∨ out.length < kBatteryBytes ∨ value.stateMeta.snapshot > 1 ∨
      value.stateMeta.reserved ≠ 0 ∨ value.remainingPermille > 1000 ∨ value.reserved ≠ 0 then none
  else
    (encodeStateMeta value.stateMeta out).map fun p =>
      let p := put16 p 16 value.voltageMv
      let p := put16 p 18 value.currentMa
      let p := put16 p 20 value.remainingPermille
      put16 p 22 value.reserved

/-- `decode_battery`. -/
def decodeBattery (bytes : Span UInt8) : Option Battery :=
  if bytes.isNull ∨ bytes.length ≠ kBatteryBytes then none
  else
    (decodeStateMeta (.data (bytes.elems.take 16))).bind fun m =>
      let p := bytes.elems
      let value : Battery := ⟨m, get16 p 16, get16 p 18, get16 p 20, get16 p 22⟩
      if value.remainingPermille ≤ 1000 ∧ value.reserved = 0 then some value else none

/-! ### The three families -/

/-- The state messages that have a codec. -/
inductive Kind where
  | position
  | attitude
  | battery
deriving DecidableEq, Repr

namespace Kind

/-- The kinds, in the order in which a publisher goes through them. -/
def all : List Kind := [.position, .attitude, .battery]

/-- The values of a kind. -/
abbrev Value : Kind → Type
  | position => Position
  | attitude => Attitude
  | battery => Battery

/-- The message type of a kind. -/
def type : Kind → MessageType
  | position => .position
  | attitude => .attitude
  | battery => .battery

/-- The size of a payload of the kind. -/
def bytes : Kind → ℕ
  | position => kPositionBytes
  | attitude => kAttitudeBytes
  | battery => kBatteryBytes

/-- The `meta` of a value. -/
def stateMeta : (k : Kind) → k.Value → StateMeta
  | position, v => v.stateMeta
  | attitude, v => v.stateMeta
  | battery, v => v.stateMeta

/-- The value with another meta. -/
def withMeta : (k : Kind) → k.Value → StateMeta → k.Value
  | position, v, m => { v with stateMeta := m }
  | attitude, v, m => { v with stateMeta := m }
  | battery, v, m => { v with stateMeta := m }

/-- The encoder of a kind. -/
def encode : (k : Kind) → k.Value → Span UInt8 → Option (List UInt8)
  | position => encodePosition
  | attitude => encodeAttitude
  | battery => encodeBattery

/-- The decoder of a kind. -/
def decode : (k : Kind) → Span UInt8 → Option k.Value
  | position => decodePosition
  | attitude => decodeAttitude
  | battery => decodeBattery

/-- What an encoder asks of the fields that a publisher does not set itself. -/
def Plausible : (k : Kind) → k.Value → Prop
  | position, v => -900000000 ≤ v.latitudeE7 ∧ v.latitudeE7 ≤ 900000000 ∧
      -1800000000 ≤ v.longitudeE7 ∧ v.longitudeE7 ≤ 1800000000
  | attitude, _ => True
  | battery, v => v.remainingPermille ≤ 1000 ∧ v.reserved = 0

instance : (k : Kind) → DecidablePred k.Plausible
  | position => fun v => inferInstanceAs (Decidable (-900000000 ≤ v.latitudeE7 ∧
      v.latitudeE7 ≤ 900000000 ∧ -1800000000 ≤ v.longitudeE7 ∧ v.longitudeE7 ≤ 1800000000))
  | attitude => fun _ => inferInstanceAs (Decidable True)
  | battery => fun v => inferInstanceAs (Decidable (v.remainingPermille ≤ 1000 ∧ v.reserved = 0))

@[simp] theorem stateMeta_withMeta (k : Kind) (v : k.Value) (m : StateMeta) :
    k.stateMeta (k.withMeta v m) = m := by
  cases k <;> rfl

@[simp] theorem withMeta_withMeta (k : Kind) (v : k.Value) (m m' : StateMeta) :
    k.withMeta (k.withMeta v m) m' = k.withMeta v m' := by
  cases k <;> rfl

@[simp] theorem plausible_withMeta (k : Kind) (v : k.Value) (m : StateMeta) :
    k.Plausible (k.withMeta v m) ↔ k.Plausible v := by
  cases k <;> rfl

theorem mem_all (k : Kind) : k ∈ all := by
  cases k <;> simp [all]

theorem type_injective : Function.Injective type := by
  intro k k' h
  cases k <;> cases k' <;> first | rfl | exact absurd h (by decide)

theorem stateType_type (k : Kind) : stateType k.type = true := by
  cases k <;> rfl

theorem knownType_type (k : Kind) : knownType k.type = true := by
  cases k <;> rfl

end Kind

/-! ### The bytes of a state message -/

/-- The sixteen bytes of a meta. -/
def metaBytes (m : StateMeta) : List UInt8 :=
  leBytes 4 m.resourceId.toNat ++ leBytes 4 m.generation.toNat ++
    leBytes 4 m.baseGeneration.toNat ++ leBytes 2 m.sourceId.toNat ++
    leBytes 1 m.snapshot.toNat ++ leBytes 1 m.reserved.toNat

/-- The bytes behind the meta. -/
def fieldBytes : (k : Kind) → k.Value → List UInt8
  | .position, v => leBytes 4 v.latitudeE7.toUInt32.toNat ++
      leBytes 4 v.longitudeE7.toUInt32.toNat ++ leBytes 4 v.altitudeMm.toUInt32.toNat
  | .attitude, v => leBytes 4 v.rollUrad.toUInt32.toNat ++
      leBytes 4 v.pitchUrad.toUInt32.toNat ++ leBytes 4 v.yawUrad.toUInt32.toNat
  | .battery, v => leBytes 2 v.voltageMv.toNat ++ leBytes 2 v.currentMa.toNat ++
      leBytes 2 v.remainingPermille.toNat ++ leBytes 2 v.reserved.toNat

/-- A meta that both codecs accept. -/
structure StateMeta.Valid (m : StateMeta) : Prop where
  resource : m.resourceId ≠ 0
  generation : m.generation ≠ 0
  source : m.sourceId ≠ 0
  snapshot : m.snapshot ≤ 1
  reserved : m.reserved = 0

@[simp] theorem length_metaBytes (m : StateMeta) : (metaBytes m).length = 16 := by
  simp [metaBytes]

theorem length_fieldBytes (k : Kind) (v : k.Value) : 16 + (fieldBytes k v).length = k.bytes := by
  cases k <;> simp [fieldBytes, Kind.bytes]

theorem decodeStateMeta_metaBytes {m : StateMeta} (h : m.Valid) :
    decodeStateMeta (.data (metaBytes m)) = some m := by
  unfold decodeStateMeta
  rw [if_neg (by simp)]
  have hread : readStateMeta (metaBytes m) = m := by
    simp [readStateMeta, metaBytes, get8, get16, get32, getLE_leBytes_append, getLE_append_of_le,
      getLE_leBytes]
  rw [Span.elems_data, hread]
  exact if_pos ⟨h.resource, h.generation, h.source, h.snapshot, h.reserved⟩

theorem valid_of_decodeStateMeta {bytes : Span UInt8} {m : StateMeta}
    (h : decodeStateMeta bytes = some m) : m.Valid := by
  unfold decodeStateMeta at h
  dsimp only at h
  split_ifs at h with _ hv
  obtain rfl := Option.some.inj h
  exact ⟨hv.1, hv.2.1, hv.2.2.1, hv.2.2.2.1, hv.2.2.2.2⟩

theorem encodeStateMeta_eq_some {m : StateMeta} {out : Span UInt8} {p : List UInt8}
    (h : encodeStateMeta m out = some p) :
    16 ≤ out.elems.length ∧ p.length = out.elems.length ∧ p.take 16 = metaBytes m := by
  unfold encodeStateMeta at h
  split_ifs at h with hc
  push Not at hc
  obtain ⟨hnull, hlen, -⟩ := hc
  obtain rfl := Option.some.inj h
  have hout : 16 ≤ out.elems.length := by
    cases out with
    | null n => exact absurd rfl hnull
    | data l => exact hlen
  refine ⟨hout, by simp, ?_⟩
  simp only [metaBytes, put8, put16, put32]
  iterate 5
    refine take_putLE_eq (by norm_num) (by simp only [length_putLE]; omega) ?_
  rw [take_putLE_eq (by norm_num) (by omega) List.take_zero, List.nil_append]

/-- The bytes of a state message: its meta, then its fields. -/
def stateBytes (k : Kind) (v : k.Value) : List UInt8 := metaBytes (k.stateMeta v) ++ fieldBytes k v

@[simp] theorem length_stateBytes (k : Kind) (v : k.Value) :
    (stateBytes k v).length = k.bytes := by
  rw [stateBytes, List.length_append, length_metaBytes, length_fieldBytes]

theorem take_stateBytes (k : Kind) (v : k.Value) :
    (stateBytes k v).take 16 = metaBytes (k.stateMeta v) :=
  List.take_left' (length_metaBytes _)

/-- The fields of a value, written behind its meta. -/
def putFields : (k : Kind) → k.Value → List UInt8 → List UInt8
  | .position, v, p => put32 (put32 (put32 p 16 v.latitudeE7.toUInt32) 20 v.longitudeE7.toUInt32) 24
      v.altitudeMm.toUInt32
  | .attitude, v, p => put32 (put32 (put32 p 16 v.rollUrad.toUInt32) 20 v.pitchUrad.toUInt32) 24
      v.yawUrad.toUInt32
  | .battery, v, p => put16 (put16 (put16 (put16 p 16 v.voltageMv) 18 v.currentMa) 20
      v.remainingPermille) 22 v.reserved

theorem length_putFields (k : Kind) (v : k.Value) (p : List UInt8) :
    (putFields k v p).length = p.length := by
  cases k <;> simp [putFields]

theorem take_putFields {k : Kind} {v : k.Value} {p : List UInt8} (hl : k.bytes ≤ p.length)
    (hm : p.take 16 = metaBytes (k.stateMeta v)) :
    (putFields k v p).take k.bytes = stateBytes k v := by
  cases k
  case battery =>
    have hl : 24 ≤ p.length := hl
    simp only [putFields, stateBytes, fieldBytes, put16, Kind.bytes, ← List.append_assoc]
    iterate 3
      refine take_putLE_eq (by norm_num) (by simp only [length_putLE]; omega) ?_
    exact take_putLE_eq (by norm_num) (by omega) hm
  all_goals
    have hl : 28 ≤ p.length := hl
    simp only [putFields, stateBytes, fieldBytes, put32, Kind.bytes, ← List.append_assoc]
    iterate 2
      refine take_putLE_eq (by norm_num) (by simp only [length_putLE]; omega) ?_
    exact take_putLE_eq (by norm_num) (by omega) hm

/-- What the encoder of a kind checks beside what `encode_state_meta` does. -/
def Encodable (k : Kind) (v : k.Value) (out : Span UInt8) : Prop :=
  out.isNull = false ∧ k.bytes ≤ out.length ∧ (k.stateMeta v).snapshot ≤ 1 ∧
    (k.stateMeta v).reserved = 0 ∧ k.Plausible v

theorem guarded_map_eq_some_iff {α β : Type} {c : Prop} [Decidable c] {o : Option α} {f : α → β}
    {b : β} : (if c then none else o.map f) = some b ↔ ¬ c ∧ ∃ a, o = some a ∧ f a = b := by
  by_cases h : c <;> simp [h]

/-- **When an encoder writes, and what.** -/
theorem encode_eq_some_iff {k : Kind} {v : k.Value} {out : Span UInt8} {p : List UInt8} :
    k.encode v out = some p ↔ Encodable k v out ∧
      ∃ q, encodeStateMeta (k.stateMeta v) out = some q ∧ putFields k v q = p := by
  cases k
  case position =>
    refine guarded_map_eq_some_iff.trans (and_congr ?_ Iff.rfl)
    simp only [Encodable, Kind.Plausible, Kind.stateMeta, Kind.bytes, not_or, Nat.not_lt,
      UInt8.not_lt, Int32.not_lt, ne_eq, not_not, gt_iff_lt, Bool.not_eq_true]
  case attitude =>
    refine guarded_map_eq_some_iff.trans (and_congr ?_ Iff.rfl)
    simp only [Encodable, Kind.Plausible, Kind.stateMeta, Kind.bytes, not_or, Nat.not_lt,
      UInt8.not_lt, ne_eq, not_not, gt_iff_lt, Bool.not_eq_true, and_true]
  case battery =>
    refine guarded_map_eq_some_iff.trans (and_congr ?_ Iff.rfl)
    simp only [Encodable, Kind.Plausible, Kind.stateMeta, Kind.bytes, not_or, Nat.not_lt,
      UInt8.not_lt, UInt16.not_lt, ne_eq, not_not, gt_iff_lt, Bool.not_eq_true]

theorem take_of_encode {k : Kind} {v : k.Value} {out : Span UInt8} {p : List UInt8}
    (h : k.encode v out = some p) :
    p.length = out.elems.length ∧ k.bytes ≤ p.length ∧ p.take k.bytes = stateBytes k v := by
  obtain ⟨⟨hnull, hlen, -⟩, q, hq, rfl⟩ := encode_eq_some_iff.mp h
  obtain ⟨-, hql, hqm⟩ := encodeStateMeta_eq_some hq
  have hout : out.elems.length = out.length := Span.length_elems (by simp [hnull])
  have hb : k.bytes ≤ q.length := by omega
  exact ⟨by rw [length_putFields, hql], by rwa [length_putFields], take_putFields hb hqm⟩

theorem valid_of_encode {k : Kind} {v : k.Value} {out : Span UInt8} {p : List UInt8}
    (h : k.encode v out = some p) : (k.stateMeta v).Valid := by
  obtain ⟨⟨-, -, hs, hr, -⟩, q, hq, -⟩ := encode_eq_some_iff.mp h
  unfold encodeStateMeta at hq
  split_ifs at hq with hc
  push Not at hc
  exact ⟨hc.2.2.1, hc.2.2.2.1, hc.2.2.2.2, hs, hr⟩

/-! ### Reading a state message back -/

/-- The value that a decoder reads behind the meta, before its checks. -/
def readValue : (k : Kind) → StateMeta → List UInt8 → k.Value
  | .position, m, p => ⟨m, (get32 p 16).toInt32, (get32 p 20).toInt32, (get32 p 24).toInt32⟩
  | .attitude, m, p => ⟨m, (get32 p 16).toInt32, (get32 p 20).toInt32, (get32 p 24).toInt32⟩
  | .battery, m, p => ⟨m, get16 p 16, get16 p 18, get16 p 20, get16 p 22⟩

@[simp] theorem stateMeta_readValue (k : Kind) (m : StateMeta) (p : List UInt8) :
    k.stateMeta (readValue k m p) = m := by
  cases k <;> rfl

theorem readValue_stateBytes (k : Kind) (v : k.Value) :
    readValue k (k.stateMeta v) (stateBytes k v) = v := by
  cases k <;>
    simp [readValue, Kind.stateMeta, stateBytes, fieldBytes, get16, get32, getLE_leBytes_append,
      getLE_append_of_le, getLE_leBytes]

theorem guarded_bind_eq_some_iff {α β : Type} {c : Prop} [Decidable c] {o : Option α}
    {f : α → Option β} {b : β} :
    (if c then none else o.bind f) = some b ↔ ¬ c ∧ ∃ a, o = some a ∧ f a = some b := by
  by_cases h : c <;> simp [h, Option.bind_eq_some_iff]

theorem checked_eq_some_iff {α : Type} {c : α → Prop} [DecidablePred c] {a b : α} :
    (if c a then some a else none) = some b ↔ a = b ∧ c b := by
  by_cases h : c a
  · rw [if_pos h, Option.some.injEq]
    exact ⟨fun he => ⟨he, he ▸ h⟩, fun he => he.1⟩
  · rw [if_neg h]
    refine ⟨fun he => (by cases he), fun he => absurd (he.1 ▸ he.2) h⟩

/-- **What a decoder accepts, and what it reads.** -/
theorem decode_eq_some_iff {k : Kind} {bytes : Span UInt8} {v : k.Value} :
    k.decode bytes = some v ↔ (bytes.isNull = false ∧ bytes.length = k.bytes) ∧
      ∃ m, decodeStateMeta (.data (bytes.elems.take 16)) = some m ∧
        readValue k m bytes.elems = v ∧ k.Plausible v := by
  have hguard : ∀ n, ¬ (bytes.isNull = true ∨ bytes.length ≠ n) ↔
      bytes.isNull = false ∧ bytes.length = n := by simp
  have hcheck : ∀ m, (if k.Plausible (readValue k m bytes.elems) then
      some (readValue k m bytes.elems) else none) = some v ↔
        readValue k m bytes.elems = v ∧ k.Plausible v := fun _ => checked_eq_some_iff
  cases k
  case position =>
    exact guarded_bind_eq_some_iff.trans
      (and_congr (hguard _) (exists_congr fun m => and_congr Iff.rfl (hcheck m)))
  case attitude =>
    have hplain : ∀ m, some (readValue .attitude m bytes.elems) = some v ↔
        readValue .attitude m bytes.elems = v ∧ Kind.Plausible .attitude v := fun m => by
      rw [Option.some.injEq]
      exact (and_iff_left trivial).symm
    exact guarded_bind_eq_some_iff.trans
      (and_congr (hguard _) (exists_congr fun m => and_congr Iff.rfl (hplain m)))
  case battery =>
    exact guarded_bind_eq_some_iff.trans
      (and_congr (hguard _) (exists_congr fun m => and_congr Iff.rfl (hcheck m)))

/-- **Bytes of a plausible value are read back exactly.** -/
theorem decode_stateBytes {k : Kind} {v : k.Value} (hm : (k.stateMeta v).Valid)
    (hv : k.Plausible v) : k.decode (.data (stateBytes k v)) = some v := by
  refine decode_eq_some_iff.mpr ⟨⟨rfl, length_stateBytes k v⟩, k.stateMeta v, ?_,
    readValue_stateBytes k v, hv⟩
  rw [Span.elems_data, take_stateBytes]
  exact decodeStateMeta_metaBytes hm

theorem decodeStateMeta_of_decode {k : Kind} {bytes : Span UInt8} {v : k.Value}
    (h : k.decode bytes = some v) :
    decodeStateMeta (.data (bytes.elems.take 16)) = some (k.stateMeta v) := by
  obtain ⟨-, m, hm, rfl, -⟩ := decode_eq_some_iff.mp h
  rw [hm, stateMeta_readValue]

/-- **What a decoder accepts is well formed**: the encoders accept it too. -/
theorem valid_of_decode {k : Kind} {bytes : Span UInt8} {v : k.Value}
    (h : k.decode bytes = some v) : (k.stateMeta v).Valid ∧ k.Plausible v := by
  obtain ⟨-, m, -, -, hv⟩ := decode_eq_some_iff.mp h
  exact ⟨valid_of_decodeStateMeta (decodeStateMeta_of_decode h), hv⟩

/-- **What an encoder accepts** that has room to write. -/
theorem encode_isSome_iff {k : Kind} {v : k.Value} {out : List UInt8} (hl : k.bytes ≤ out.length) :
    (k.encode v (.data out)).isSome = true ↔ (k.stateMeta v).Valid ∧ k.Plausible v := by
  constructor
  · intro h
    obtain ⟨p, hp⟩ := Option.isSome_iff_exists.mp h
    exact ⟨valid_of_encode hp, (encode_eq_some_iff.mp hp).1.2.2.2.2⟩
  · rintro ⟨hm, hv⟩
    have hlen : 16 ≤ out.length := by
      have := length_fieldBytes k v
      omega
    obtain ⟨q, hq⟩ : ∃ q, encodeStateMeta (k.stateMeta v) (.data out) = some q := by
      refine ⟨_, if_neg ?_⟩
      push Not
      exact ⟨Bool.false_ne_true, hlen, hm.resource, hm.generation, hm.source⟩
    exact Option.isSome_iff_exists.mpr ⟨_, encode_eq_some_iff.mpr
      ⟨⟨rfl, hl, hm.snapshot, hm.reserved, hv⟩, q, hq, rfl⟩⟩

/-! ### Resync requests -/

/-- A request that names a stream: a state type, a source and a resource. -/
structure ResyncRequest.Valid (r : ResyncRequest) : Prop where
  type : stateType r.type = true
  source : r.sourceId ≠ 0
  resource : r.resourceId ≠ 0

/-- The eight bytes of a request. -/
def resyncBytes (r : ResyncRequest) : List UInt8 :=
  leBytes 1 r.type.code.toNat ++ leBytes 1 (0 : UInt8).toNat ++ leBytes 2 r.sourceId.toNat ++
    leBytes 4 r.resourceId.toNat

@[simp] theorem length_resyncBytes (r : ResyncRequest) : (resyncBytes r).length = kResyncBytes := by
  simp [resyncBytes]

/-! ### Messages -/

/-- `NativeMessage`: the payload stands in the first `length` bytes of its array. -/
structure NativeMessage where
  header : RecordHeader := {}
  payload : List.Vector UInt8 kMaxPayloadBytes := List.Vector.replicate _ 0
  length : ℕ := 0
deriving DecidableEq

/-- The payload of a message. -/
def NativeMessage.bytes (m : NativeMessage) : List UInt8 := m.payload.toList.take m.length

/-- The meta at the head of a message, if the message is long enough and the meta decodes. -/
def metaOf (m : NativeMessage) : Option StateMeta :=
  if m.length ≥ 16 then decodeStateMeta (.data (m.payload.toList.take 16)) else none

theorem metaOf_eq_some_iff {m : NativeMessage} {sm : StateMeta} :
    metaOf m = some sm ↔ 16 ≤ m.length ∧ decodeStateMeta (.data (m.bytes.take 16)) = some sm := by
  unfold metaOf NativeMessage.bytes
  by_cases h : 16 ≤ m.length
  · rw [if_pos h, List.take_take, Nat.min_eq_left h]
    simp [h]
  · rw [if_neg h]
    simp [h]

theorem metaOf_of_decode {m : NativeMessage} {k : Kind} {v : k.Value}
    (h : k.decode (.data m.bytes) = some v) : metaOf m = some (k.stateMeta v) := by
  have hb := length_fieldBytes k v
  have hlen : m.bytes.length = k.bytes := (decode_eq_some_iff.mp h).1.2
  refine metaOf_eq_some_iff.mpr ⟨?_, decodeStateMeta_of_decode h⟩
  have hle : m.bytes.length ≤ m.length := by simp [NativeMessage.bytes]
  omega

end NewMavlink.State.Messages
