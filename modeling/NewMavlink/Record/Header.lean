import NewMavlink.Crc16

/-! # The record header

`encode_header` and `decode_header` of `record.cpp`: forty bytes, the CRC of the first thirty-six
stored at 36, two reserved bytes at the end.

* `take_encodeHeader`: the forty bytes do not depend on what the output held before, and the first
  thirty-six not on the CRC field.
* `decodeHeader_headerBytes`: a header that carries its own CRC is read back exactly, whatever
  follows it.
* `decodeHeader_iff`: nothing else is accepted. -/

namespace NewMavlink.Record.Header

open NewMavlink.Lib.Buffer NewMavlink.Wire NewMavlink.Crc16

/-- `encode_header`. -/
def encodeHeader (h : RecordHeader) (out : List UInt8) (withCrc : Bool) : List UInt8 :=
  let out := put8 out 0 h.version
  let out := put8 out 1 h.flags
  let out := put8 out 2 h.type.code
  let out := put8 out 3 h.qos.code
  let out := put16 out 4 h.sourceId
  let out := put16 out 6 h.destinationId
  let out := put64 out 8 h.sessionId
  let out := put64 out 16 h.epoch
  let out := put64 out 24 h.sequence
  let out := put16 out 32 h.payloadLen
  let out := put16 out 34 h.deadlineMs
  let out := put16 out 36 (if withCrc then h.headerCrc16 else 0)
  put16 out 38 0

/-- The fields `decode_header` reads, before its checks. -/
def readHeader (p : List UInt8) : RecordHeader where
  version := get8 p 0
  flags := get8 p 1
  type := ⟨get8 p 2⟩
  qos := ⟨get8 p 3⟩
  sourceId := get16 p 4
  destinationId := get16 p 6
  sessionId := get64 p 8
  epoch := get64 p 16
  sequence := get64 p 24
  payloadLen := get16 p 32
  deadlineMs := get16 p 34
  headerCrc16 := get16 p 36

/-- `decode_header`. -/
def decodeHeader (input : Span UInt8) : Option RecordHeader :=
  if input.isNull then none
  else
    let h := readHeader input.elems
    if get8 input.elems 38 ≠ 0 ∨ get8 input.elems 39 ≠ 0 then none
    else if crc16Ccitt (.data (input.elems.take 36)) = h.headerCrc16 then some h else none

/-! ### The bytes of a header -/

/-- The bytes of a header up to its CRC. -/
def headerPrefix (h : RecordHeader) : List UInt8 :=
  leBytes 1 h.version.toNat ++ leBytes 1 h.flags.toNat ++ leBytes 1 h.type.code.toNat ++
    leBytes 1 h.qos.code.toNat ++ leBytes 2 h.sourceId.toNat ++ leBytes 2 h.destinationId.toNat ++
    leBytes 8 h.sessionId.toNat ++ leBytes 8 h.epoch.toNat ++ leBytes 8 h.sequence.toNat ++
    leBytes 2 h.payloadLen.toNat ++ leBytes 2 h.deadlineMs.toNat

/-- The forty bytes of a header. -/
def headerBytes (h : RecordHeader) : List UInt8 :=
  headerPrefix h ++ leBytes 2 h.headerCrc16.toNat ++ leBytes 2 0

/-- The CRC that a header should carry. -/
def headerCrc (h : RecordHeader) : UInt16 := crc16Ccitt (.data (headerPrefix h))

@[simp] theorem length_headerPrefix (h : RecordHeader) : (headerPrefix h).length = 36 := by
  simp [headerPrefix]

@[simp] theorem length_headerBytes (h : RecordHeader) : (headerBytes h).length = 40 := by
  simp [headerBytes]

@[simp] theorem length_encodeHeader (h : RecordHeader) (out : List UInt8) (c : Bool) :
    (encodeHeader h out c).length = out.length := by
  simp [encodeHeader]

theorem take_encodeHeader_eq (h : RecordHeader) {out : List UInt8} (c : Bool)
    (hl : 40 ≤ out.length) : (encodeHeader h out c).take 40 =
      headerPrefix h ++ leBytes 2 (if c then h.headerCrc16 else 0).toNat ++ leBytes 2 0 := by
  simp only [encodeHeader, headerPrefix, put8, put16, put64]
  iterate 12
    refine take_putLE_eq (by norm_num) (by simp only [length_putLE]; omega) ?_
  rw [take_putLE_eq (by norm_num) (by omega) List.take_zero]
  simp

/-- **The forty bytes of a header** do not depend on what the output held before. -/
theorem take_encodeHeader (h : RecordHeader) {out : List UInt8} (hl : 40 ≤ out.length) :
    (encodeHeader h out true).take 40 = headerBytes h := by
  rw [take_encodeHeader_eq h true hl]
  rfl

theorem take_encodeHeader_prefix (h : RecordHeader) {out : List UInt8} (c : Bool)
    (hl : 40 ≤ out.length) : (encodeHeader h out c).take 36 = headerPrefix h := by
  have := congrArg (List.take 36) (take_encodeHeader_eq h c hl)
  rwa [List.take_take, List.append_assoc, List.take_left' (length_headerPrefix h)] at this

/-! ### Reading a header back -/

theorem readHeader_headerBytes (h : RecordHeader) (rest : List UInt8) :
    readHeader (headerBytes h ++ rest) = h := by
  simp [readHeader, headerBytes, headerPrefix, get8, get16, get64, getLE_leBytes_append,
    getLE_append_of_le]

theorem reserved_headerBytes (h : RecordHeader) (rest : List UInt8) :
    get8 (headerBytes h ++ rest) 38 = 0 ∧ get8 (headerBytes h ++ rest) 39 = 0 := by
  have hz : leBytes 2 0 = leBytes 1 0 ++ leBytes 1 0 := rfl
  simp [headerBytes, hz, get8, getLE_leBytes_append, getLE_append_of_le]

/-- **A header that carries its own CRC is read back exactly**, whatever follows it. -/
theorem decodeHeader_headerBytes {h : RecordHeader} (hc : headerCrc h = h.headerCrc16)
    (rest : List UInt8) : decodeHeader (.data (headerBytes h ++ rest)) = some h := by
  have hpre : (headerBytes h ++ rest).take 36 = headerPrefix h := by
    rw [headerBytes, List.append_assoc, List.append_assoc,
      List.take_left' (length_headerPrefix h)]
  obtain ⟨h38, h39⟩ := reserved_headerBytes h rest
  have hcrc : crc16Ccitt (.data (headerPrefix h)) = h.headerCrc16 := hc
  unfold decodeHeader
  rw [Span.isNull_data, if_neg Bool.false_ne_true, Span.elems_data, readHeader_headerBytes, hpre]
  rw [if_neg (by simp [h38, h39]), if_pos hcrc]

theorem decodeHeader_eq_some {input : Span UInt8} {h : RecordHeader}
    (hd : decodeHeader input = some h) : h = readHeader input.elems := by
  simp only [decodeHeader] at hd
  split_ifs at hd
  exact (Option.some.inj hd).symm

theorem headerBytes_readHeader {p : List UInt8} (hl : 40 ≤ p.length) (h38 : get8 p 38 = 0)
    (h39 : get8 p 39 = 0) : headerBytes (readHeader p) = p.take 40 := by
  have hz : leBytes 2 0 = leBytes 1 0 ++ leBytes 1 0 := rfl
  rw [headerBytes, headerPrefix, hz, ← List.append_assoc]
  symm
  refine take_getLE_eq 39 rfl hl (by rw [← toNat_get8, h39]; rfl) ?_
  refine take_getLE_eq 38 rfl (by omega) (by rw [← toNat_get8, h38]; rfl) ?_
  refine take_getLE_eq 36 rfl (by omega) toNat_get16.symm ?_
  refine take_getLE_eq 34 rfl (by omega) toNat_get16.symm ?_
  refine take_getLE_eq 32 rfl (by omega) toNat_get16.symm ?_
  refine take_getLE_eq 24 rfl (by omega) toNat_get64.symm ?_
  refine take_getLE_eq 16 rfl (by omega) toNat_get64.symm ?_
  refine take_getLE_eq 8 rfl (by omega) toNat_get64.symm ?_
  refine take_getLE_eq 6 rfl (by omega) toNat_get16.symm ?_
  refine take_getLE_eq 4 rfl (by omega) toNat_get16.symm ?_
  refine take_getLE_eq 3 rfl (by omega) toNat_get8.symm ?_
  refine take_getLE_eq 2 rfl (by omega) toNat_get8.symm ?_
  refine take_getLE_eq 1 rfl (by omega) toNat_get8.symm ?_
  exact take_getLE_eq 0 rfl (by omega) toNat_get8.symm List.take_zero

theorem checks_of_decodeHeader {p : List UInt8} {h : RecordHeader}
    (hd : decodeHeader (.data p) = some h) :
    get8 p 38 = 0 ∧ get8 p 39 = 0 ∧ crc16Ccitt (.data (p.take 36)) = get16 p 36 := by
  unfold decodeHeader at hd
  rw [Span.isNull_data, if_neg Bool.false_ne_true, Span.elems_data] at hd
  dsimp only at hd
  split_ifs at hd with hz hc
  push Not at hz
  exact ⟨hz.1, hz.2, hc⟩

/-- **What `decode_header` accepts**: the forty bytes of a header that carries its own CRC. -/
theorem decodeHeader_iff {p : List UInt8} {h : RecordHeader} (hl : 40 ≤ p.length) :
    decodeHeader (.data p) = some h ↔ p.take 40 = headerBytes h ∧ headerCrc h = h.headerCrc16 := by
  constructor
  · intro hd
    obtain ⟨h38, h39, hc⟩ := checks_of_decodeHeader hd
    have hread := decodeHeader_eq_some hd
    rw [Span.elems_data] at hread
    subst hread
    have hbytes := headerBytes_readHeader hl h38 h39
    have hpre : headerPrefix (readHeader p) = p.take 36 := by
      have := congrArg (List.take 36) hbytes
      rwa [headerBytes, List.append_assoc, List.take_left' (length_headerPrefix _),
        List.take_take] at this
    exact ⟨hbytes.symm, by rw [headerCrc, hpre, hc]; rfl⟩
  · rintro ⟨hbytes, hc⟩
    rw [← List.take_append_drop 40 p, hbytes]
    exact decodeHeader_headerBytes hc _

end NewMavlink.Record.Header
