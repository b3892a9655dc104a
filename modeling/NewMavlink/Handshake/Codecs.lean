import NewMavlink.Handshake.Messages
import NewMavlink.Lib.Codec

/-! # The wire form of the handshake

The codecs of `session.cpp` for the second and the third message, beside that of the first. All
three decoders read the fields at the front, then a CRC of the bytes of the fields, and do not look
at what is behind it; `encode_accept` and `encode_finish` fill that with zeros.

* `encodeChecked_eq_some`, `decodeChecked_eq_some`: what each of the two shared bodies accepts, as
  the bytes of a value.
* `accept_finish_round_trip`: an `Accept` and a `Finish` are read back exactly as they were written.
* `wire_form_iff`: a string that is accepted is what its value is encoded to exactly if it has
  zeros behind the CRC; for a `Hello` it never is. -/

namespace NewMavlink.Handshake.Codecs

open NewMavlink.Lib.Buffer NewMavlink.Lib.Codec NewMavlink.Wire NewMavlink.Crc16
open NewMavlink.Handshake.Messages

/-- The size of an encoded `Accept`. -/
abbrev kAcceptBytes : ℕ := 64
/-- The size of an encoded `Finish`. -/
abbrev kFinishBytes : ℕ := 48

/-! ### The functions -/

/-- The sixteen bytes from `off` on. -/
def getBlock (p : List UInt8) (off : ℕ) : Block :=
  ⟨(List.range 16).map fun i => p.getD (off + i) 0, by simp⟩

/-- The checks that `encode_accept` and `decode_accept` make of the fields. -/
def validAccept (v : Accept Block) : Bool :=
  validIds v.initiatorId v.responderId && v.clientNonce != 0 && v.serverNonce != 0 &&
    v.sessionId != 0 && v.epoch != 0

/-- The checks that `encode_finish` and `decode_finish` make of the fields. -/
def validFinish (v : Finish Block) : Bool :=
  validIds v.initiatorId v.responderId && v.sessionId != 0 && v.epoch != 0

section Checked

variable {α : Type}

/-- The body of `encode_accept` and `encode_finish`: an array of zeros, the fields, and at `cover`
the CRC of the bytes before it. -/
def encodeChecked (size cover : ℕ) (valid : α → Bool) (put : List UInt8 → α → List UInt8) (v : α) :
    Option (List UInt8) :=
  if !valid v then none
  else
    let out := put (List.replicate size 0) v
    some (put16 out cover (crc16Ccitt (.data (out.take cover))))

/-- The body of the three decoders. -/
def decodeChecked (size cover : ℕ) (valid : α → Bool) (read : List UInt8 → α)
    (bytes : Span UInt8) : Option α :=
  if bytes.isNull ∨ bytes.length ≠ size ∨
      get16 bytes.elems cover ≠ crc16Ccitt (.data (bytes.elems.take cover)) then none
  else if valid (read bytes.elems) then some (read bytes.elems) else none

end Checked

/-- The fields of an `Accept`, written into an array. -/
def putAccept (out : List UInt8) (v : Accept Block) : List UInt8 :=
  let out := put16 out 0 v.initiatorId
  let out := put16 out 2 v.responderId
  let out := put64 out 4 v.clientNonce
  let out := put64 out 12 v.serverNonce
  let out := put64 out 20 v.sessionId
  let out := put64 out 28 v.epoch
  blit out 36 v.authenticator.toList

/-- The fields of an `Accept`, as they stand in an array. -/
def readAccept (p : List UInt8) : Accept Block :=
  ⟨get16 p 0, get16 p 2, get64 p 4, get64 p 12, get64 p 20, get64 p 28, getBlock p 36⟩

/-- `encode_accept`: the array, if the call returns true. -/
def encodeAccept : Accept Block → Option (List UInt8) :=
  encodeChecked kAcceptBytes 52 validAccept putAccept

/-- `decode_accept`. -/
def decodeAccept : Decoder (Accept Block) := decodeChecked kAcceptBytes 52 validAccept readAccept

/-- The fields of a `Finish`, written into an array. -/
def putFinish (out : List UInt8) (v : Finish Block) : List UInt8 :=
  let out := put16 out 0 v.initiatorId
  let out := put16 out 2 v.responderId
  let out := put64 out 4 v.sessionId
  let out := put64 out 12 v.epoch
  blit out 20 v.authenticator.toList

/-- The fields of a `Finish`, as they stand in an array. -/
def readFinish (p : List UInt8) : Finish Block :=
  ⟨get16 p 0, get16 p 2, get64 p 4, get64 p 12, getBlock p 20⟩

/-- `encode_finish`: the array, if the call returns true. -/
def encodeFinish : Finish Block → Option (List UInt8) :=
  encodeChecked kFinishBytes 36 validFinish putFinish

/-- `decode_finish`. -/
def decodeFinish : Decoder (Finish Block) := decodeChecked kFinishBytes 36 validFinish readFinish

/-! ### What the shared bodies accept -/

section Checked

variable {α : Type} {F : Format α} {put : List UInt8 → α → List UInt8} {read : List UInt8 → α}
  {valid : α → Bool} {size : ℕ} {v w : α} {out : List UInt8} {bytes : Span UInt8}

/-- The bytes of a value and their CRC. -/
def checkedBytes (F : Format α) (v : α) : List UInt8 :=
  F.bytes v ++ leBytes 2 (crc16Ccitt (.data (F.bytes v))).toNat

@[simp] theorem length_checkedBytes (F : Format α) (v : α) :
    (checkedBytes F v).length = F.size + 2 := by
  rw [checkedBytes, List.length_append, length_leBytes, F.length_bytes]

theorem encodeChecked_eq_some (hf : Fields F put read) (hsize : F.size + 2 ≤ size) :
    encodeChecked size F.size valid put v = some out ↔
      valid v = true ∧ out = checkedBytes F v ++ List.replicate (size - (F.size + 2)) 0 := by
  have hroom : F.size ≤ (List.replicate size (0 : UInt8)).length := by
    rw [List.length_replicate]; omega
  have hput := hf.put_eq hroom v
  have hlen : (put (List.replicate size 0) v).length = size := by
    rw [hput, List.length_append, F.length_bytes, List.length_drop, List.length_replicate]
    omega
  have htake := hf.take_put (List.replicate size 0) v hroom
  have hcrc : put16 (put (List.replicate size 0) v) F.size (crc16Ccitt (.data (F.bytes v))) =
      checkedBytes F v ++ List.replicate (size - (F.size + 2)) 0 := by
    have hfront := take_putLE_eq (v := (crc16Ccitt (.data (F.bytes v))).toNat) (k := F.size + 2) rfl
      (by omega) htake
    have hback : (put16 (put (List.replicate size 0) v) F.size
        (crc16Ccitt (.data (F.bytes v)))).drop (F.size + 2) =
          List.replicate (size - (F.size + 2)) 0 := by
      rw [put16, drop_putLE le_rfl, ← List.drop_drop, hf.drop_put, List.drop_replicate,
        List.drop_replicate, Nat.sub_sub]
    rw [checkedBytes, ← hfront, ← hback]
    exact (List.take_append_drop _ _).symm
  unfold encodeChecked
  cases hv : valid v with
  | false => simp
  | true => simp only [Bool.not_true, Bool.false_eq_true, if_false, htake, hcrc, Option.some.injEq,
      true_and, eq_comm]

theorem decodeChecked_eq_some (hf : Fields F put read) (hsize : F.size + 2 ≤ size) :
    decodeChecked size F.size valid read bytes = some v ↔
      ∃ tail, bytes = .data (checkedBytes F v ++ tail) ∧ F.size + 2 + tail.length = size ∧
        valid v = true := by
  constructor
  · intro h
    unfold decodeChecked at h
    split_ifs at h with hc hv
    obtain rfl := Option.some.inj h
    push Not at hc
    obtain ⟨hnull, hlen, hcrc⟩ := hc
    cases bytes with
    | null n => exact absurd rfl hnull
    | data l =>
      rw [Span.elems_data] at hcrc hv ⊢
      rw [Span.length_data] at hlen
      have hbytes : F.bytes (read l) = l.take F.size := hf.bytes_read l (by omega)
      have hstored : getLE 2 l F.size = (crc16Ccitt (.data (F.bytes (read l)))).toNat := by
        rw [hbytes, ← hcrc, toNat_get16]
      have hfront : l.take (F.size + 2) = checkedBytes F (read l) :=
        take_getLE_eq F.size rfl (by omega) hstored hbytes.symm
      refine ⟨l.drop (F.size + 2), ?_, ?_, hv⟩
      · rw [← hfront, List.take_append_drop]
      · rw [List.length_drop]; omega
  · rintro ⟨tail, rfl, hlen, hv⟩
    have happ : checkedBytes F v ++ tail =
        F.bytes v ++ (leBytes 2 (crc16Ccitt (.data (F.bytes v))).toNat ++ tail) := by
      rw [checkedBytes, List.append_assoc]
    have hread : read (checkedBytes F v ++ tail) = v := by rw [happ, hf.read_append]
    have htake : (checkedBytes F v ++ tail).take F.size = F.bytes v := by
      rw [happ, List.take_left' (F.length_bytes v)]
    have hcrc : get16 (checkedBytes F v ++ tail) F.size = crc16Ccitt (.data (F.bytes v)) := by
      rw [happ, get16, getLE_append_of_le (by rw [F.length_bytes]), F.length_bytes, Nat.sub_self,
        getLE_leBytes_append]
      simp
    unfold decodeChecked
    rw [if_neg, Span.elems_data, hread, if_pos hv]
    simp only [Span.isNull_data, Span.length_data, Span.elems_data, htake, hcrc, List.length_append,
      length_checkedBytes, hlen]
    simp

/-- **What is encoded is read back exactly.** -/
theorem decodeChecked_of_encodeChecked (hf : Fields F put read) (hsize : F.size + 2 ≤ size)
    (h : encodeChecked size F.size valid put v = some out) :
    decodeChecked size F.size valid read (.data out) = some v := by
  obtain ⟨hv, rfl⟩ := (encodeChecked_eq_some hf hsize).mp h
  refine (decodeChecked_eq_some hf hsize).mpr ⟨_, rfl, ?_, hv⟩
  rw [List.length_replicate]
  omega

/-- **When a string is what its value is encoded to**: it has zeros behind the CRC. -/
theorem encodeChecked_of_decodeChecked_iff (hf : Fields F put read) (hsize : F.size + 2 ≤ size)
    (h : decodeChecked size F.size valid read bytes = some v) :
    encodeChecked size F.size valid put v = some bytes.elems ↔
      bytes.elems.drop (F.size + 2) = List.replicate (size - (F.size + 2)) 0 := by
  obtain ⟨tail, rfl, -, hv⟩ := (decodeChecked_eq_some hf hsize).mp h
  rw [encodeChecked_eq_some hf hsize, Span.elems_data,
    List.drop_left' (length_checkedBytes F v), and_iff_right hv, List.append_cancel_left_eq]

theorem eq_of_decodeChecked_iff (hf : Fields F put read) (hsize : F.size + 2 ≤ size)
    {bytes' : Span UInt8} (h : decodeChecked size F.size valid read bytes = some v)
    (h' : decodeChecked size F.size valid read bytes' = some v) :
    bytes = bytes' ↔ bytes.elems.drop (F.size + 2) = bytes'.elems.drop (F.size + 2) := by
  obtain ⟨tail, rfl, -, -⟩ := (decodeChecked_eq_some hf hsize).mp h
  obtain ⟨tail', rfl, -, -⟩ := (decodeChecked_eq_some hf hsize).mp h'
  rw [Span.elems_data, Span.elems_data, List.drop_left' (length_checkedBytes F v),
    List.drop_left' (length_checkedBytes F v), Span.data.injEq, List.append_cancel_left_eq]

end Checked

/-! ### The fields of the three messages -/

/-- The checks that `encode_hello` and `decode_hello` make of the fields. -/
def validHello (v : Hello) : Bool := validIds v.initiatorId v.responderId && v.clientNonce != 0

/-- The fields that `decode_hello` reads. -/
def readHello (p : List UInt8) : Hello := ⟨get16 p 0, get16 p 2, get64 p 4, get32 p 12⟩

/-- The bytes of a `Hello` before its CRC. -/
def helloFormat : Format Hello where
  size := 16
  bytes v := leBytes 2 v.initiatorId.toNat ++ leBytes 2 v.responderId.toNat ++
    leBytes 8 v.clientNonce.toNat ++ leBytes 4 v.capabilities.toNat
  length_bytes v := by simp

theorem room_hello : helloFormat.size + 2 ≤ kHelloBytes := by decide

/-- `decode_hello` is the shared body, `encode_hello` is not: it does not store the CRC. -/
theorem decodeHello_eq :
    decodeHello = decodeChecked kHelloBytes helloFormat.size validHello readHello := by
  funext bytes
  unfold decodeHello decodeChecked
  refine if_congr Iff.rfl rfl (if_congr ?_ rfl rfl)
  simp only [validHello, readHello, Bool.and_eq_true, bne_iff_ne]

theorem fields_hello : Fields helloFormat putHello readHello where
  take_put p v hl := by
    have hl : 16 ≤ p.length := hl
    simp only [helloFormat, putHello, put16, put32, put64]
    iterate 3
      refine take_putLE_eq (by norm_num) (by simp only [length_putLE]; omega) ?_
    rw [take_putLE_eq (by norm_num) (by omega) List.take_zero, List.nil_append]
  drop_put p v := by
    simp only [helloFormat, putHello, put16, put32, put64]
    iterate 4
      rw [drop_putLE (by decide)]
  read_append v rest := by
    simp [readHello, helloFormat, get16, get32, get64, getLE_leBytes_append, getLE_append_of_le]
  bytes_read p hl := by
    have hl : 16 ≤ p.length := hl
    symm
    refine take_getLE_eq 12 rfl (by omega) toNat_get32.symm ?_
    refine take_getLE_eq 4 rfl (by omega) toNat_get64.symm ?_
    refine take_getLE_eq 2 rfl (by omega) toNat_get16.symm ?_
    exact take_getLE_eq 0 rfl (by omega) toNat_get16.symm List.take_zero

theorem toList_getBlock {p : List UInt8} {off : ℕ} (h : off + 16 ≤ p.length) :
    (getBlock p off).toList = slice p off 16 := by
  refine List.ext_getElem? fun i => ?_
  rw [getElem?_slice, getBlock, List.Vector.toList_mk, List.getElem?_map]
  by_cases hi : i < 16
  · rw [if_pos hi, List.getElem?_range hi, Option.map_some, List.getD_eq_getElem?_getD,
      List.getElem?_eq_getElem (by omega : off + i < p.length), Option.getD_some]
  · rw [if_neg hi, List.getElem?_eq_none (by simpa using hi), Option.map_none]

theorem getBlock_append {pre : List UInt8} {off : ℕ} (hpre : pre.length = off) (a : Block)
    (rest : List UInt8) : getBlock (pre ++ (a.toList ++ rest)) off = a := by
  have ha : a.toList.length = 16 := a.toList_length
  refine List.Vector.eq _ _ ?_
  rw [toList_getBlock (by simp only [List.length_append]; omega), slice, List.drop_left' hpre,
    List.take_left' ha]

theorem take_getBlock_eq {off k : ℕ} {p pre : List UInt8} (hk : k = off + 16)
    (hl : k ≤ p.length) (hp : p.take off = pre) : p.take k = pre ++ (getBlock p off).toList := by
  subst hk
  rw [toList_getBlock hl, ← hp, slice, List.take_add]

/-- The bytes of an `Accept` before its CRC. -/
def acceptFormat : Format (Accept Block) where
  size := 52
  bytes v := leBytes 2 v.initiatorId.toNat ++ leBytes 2 v.responderId.toNat ++
    leBytes 8 v.clientNonce.toNat ++ leBytes 8 v.serverNonce.toNat ++ leBytes 8 v.sessionId.toNat ++
    leBytes 8 v.epoch.toNat ++ v.authenticator.toList
  length_bytes v := by
    have ha : v.authenticator.toList.length = 16 := v.authenticator.toList_length
    simp [ha]

theorem room_accept : acceptFormat.size + 2 ≤ kAcceptBytes := by decide

theorem encodeAccept_eq :
    encodeAccept = encodeChecked kAcceptBytes acceptFormat.size validAccept putAccept := rfl

theorem decodeAccept_eq :
    decodeAccept = decodeChecked kAcceptBytes acceptFormat.size validAccept readAccept := rfl

theorem fields_accept : Fields acceptFormat putAccept readAccept where
  take_put p v hl := by
    have hl : 52 ≤ p.length := hl
    have ha : v.authenticator.toList.length = 16 := v.authenticator.toList_length
    simp only [acceptFormat, putAccept, put16, put64]
    refine take_blit_eq (by omega) (by simp only [length_putLE]; omega) ?_
    iterate 5
      refine take_putLE_eq (by norm_num) (by simp only [length_putLE]; omega) ?_
    rw [take_putLE_eq (by norm_num) (by omega) List.take_zero, List.nil_append]
  drop_put p v := by
    have ha : v.authenticator.toList.length = 16 := v.authenticator.toList_length
    simp only [acceptFormat, putAccept, put16, put64]
    rw [drop_blit (by omega)]
    iterate 6
      rw [drop_putLE (by decide)]
  read_append v rest := by
    have hauth : getBlock (acceptFormat.bytes v ++ rest) 36 = v.authenticator := by
      simp only [acceptFormat]
      rw [List.append_assoc]
      exact getBlock_append (by simp) _ _
    unfold readAccept
    rw [hauth]
    simp [acceptFormat, get16, get64, getLE_leBytes_append, getLE_append_of_le]
  bytes_read p hl := by
    have hl : 52 ≤ p.length := hl
    simp only [acceptFormat, readAccept]
    symm
    refine take_getBlock_eq (by norm_num) hl ?_
    refine take_getLE_eq 28 rfl (by omega) toNat_get64.symm ?_
    refine take_getLE_eq 20 rfl (by omega) toNat_get64.symm ?_
    refine take_getLE_eq 12 rfl (by omega) toNat_get64.symm ?_
    refine take_getLE_eq 4 rfl (by omega) toNat_get64.symm ?_
    refine take_getLE_eq 2 rfl (by omega) toNat_get16.symm ?_
    exact take_getLE_eq 0 rfl (by omega) toNat_get16.symm List.take_zero

/-- The bytes of a `Finish` before its CRC. -/
def finishFormat : Format (Finish Block) where
  size := 36
  bytes v := leBytes 2 v.initiatorId.toNat ++ leBytes 2 v.responderId.toNat ++
    leBytes 8 v.sessionId.toNat ++ leBytes 8 v.epoch.toNat ++ v.authenticator.toList
  length_bytes v := by
    have ha : v.authenticator.toList.length = 16 := v.authenticator.toList_length
    simp [ha]

theorem room_finish : finishFormat.size + 2 ≤ kFinishBytes := by decide

theorem encodeFinish_eq :
    encodeFinish = encodeChecked kFinishBytes finishFormat.size validFinish putFinish := rfl

theorem decodeFinish_eq :
    decodeFinish = decodeChecked kFinishBytes finishFormat.size validFinish readFinish := rfl

theorem fields_finish : Fields finishFormat putFinish readFinish where
  take_put p v hl := by
    have hl : 36 ≤ p.length := hl
    have ha : v.authenticator.toList.length = 16 := v.authenticator.toList_length
    simp only [finishFormat, putFinish, put16, put64]
    refine take_blit_eq (by omega) (by simp only [length_putLE]; omega) ?_
    iterate 3
      refine take_putLE_eq (by norm_num) (by simp only [length_putLE]; omega) ?_
    rw [take_putLE_eq (by norm_num) (by omega) List.take_zero, List.nil_append]
  drop_put p v := by
    have ha : v.authenticator.toList.length = 16 := v.authenticator.toList_length
    simp only [finishFormat, putFinish, put16, put64]
    rw [drop_blit (by omega)]
    iterate 4
      rw [drop_putLE (by decide)]
  read_append v rest := by
    have hauth : getBlock (finishFormat.bytes v ++ rest) 20 = v.authenticator := by
      simp only [finishFormat]
      rw [List.append_assoc]
      exact getBlock_append (by simp) _ _
    unfold readFinish
    rw [hauth]
    simp [finishFormat, get16, get64, getLE_leBytes_append, getLE_append_of_le]
  bytes_read p hl := by
    have hl : 36 ≤ p.length := hl
    simp only [finishFormat, readFinish]
    symm
    refine take_getBlock_eq (by norm_num) hl ?_
    refine take_getLE_eq 12 rfl (by omega) toNat_get64.symm ?_
    refine take_getLE_eq 4 rfl (by omega) toNat_get64.symm ?_
    refine take_getLE_eq 2 rfl (by omega) toNat_get16.symm ?_
    exact take_getLE_eq 0 rfl (by omega) toNat_get16.symm List.take_zero

/-! ### Round trips -/

theorem decodeAccept_of_encodeAccept {v : Accept Block} {out : List UInt8}
    (h : encodeAccept v = some out) : decodeAccept (.data out) = some v := by
  rw [encodeAccept_eq] at h
  rw [decodeAccept_eq]
  exact decodeChecked_of_encodeChecked fields_accept room_accept h

theorem decodeFinish_of_encodeFinish {v : Finish Block} {out : List UInt8}
    (h : encodeFinish v = some out) : decodeFinish (.data out) = some v := by
  rw [encodeFinish_eq] at h
  rw [decodeFinish_eq]
  exact decodeChecked_of_encodeChecked fields_finish room_finish h

/-- **An `Accept` and a `Finish` are read back exactly**, and no two of them are encoded to the same
bytes. -/
theorem accept_finish_round_trip :
    (∀ v out, encodeAccept v = some out → decodeAccept (.data out) = some v) ∧
      (∀ v out, encodeFinish v = some out → decodeFinish (.data out) = some v) ∧
      (∀ v w out, encodeAccept v = some out → encodeAccept w = some out → v = w) ∧
      ∀ v w out, encodeFinish v = some out → encodeFinish w = some out → v = w := by
  refine ⟨fun v out => decodeAccept_of_encodeAccept, fun v out => decodeFinish_of_encodeFinish,
    fun v w out hv hw => ?_, fun v w out hv hw => ?_⟩
  · have hsame := (decodeAccept_of_encodeAccept hv).symm.trans (decodeAccept_of_encodeAccept hw)
    exact Option.some.inj hsame
  · have hsame := (decodeFinish_of_encodeFinish hv).symm.trans (decodeFinish_of_encodeFinish hw)
    exact Option.some.inj hsame

/-- An `Accept` of the ids of `session_test.cpp`. -/
def testAccept : Accept Block :=
  ⟨10, 20, 0x1122334455667788, 0x8877665544332211, 0x99551111551199, 1, List.Vector.replicate 16 7⟩

/-- And a `Finish` of the same session. -/
def testFinish : Finish Block :=
  ⟨10, 20, 0x99551111551199, 1, List.Vector.replicate 16 9⟩

theorem encodeAccept_testAccept : encodeAccept testAccept =
    some (checkedBytes acceptFormat testAccept ++ List.replicate 10 0) := by
  rw [encodeAccept_eq]
  exact (encodeChecked_eq_some fields_accept room_accept).mpr ⟨by decide, rfl⟩

theorem decodeAccept_testAccept {tail : List UInt8} (h : tail.length = 10) :
    decodeAccept (.data (checkedBytes acceptFormat testAccept ++ tail)) = some testAccept := by
  have hsize : acceptFormat.size + 2 + tail.length = kAcceptBytes := by rw [h]; rfl
  rw [decodeAccept_eq]
  exact (decodeChecked_eq_some fields_accept room_accept).mpr ⟨tail, rfl, hsize, by decide⟩

theorem encodeFinish_testFinish : encodeFinish testFinish =
    some (checkedBytes finishFormat testFinish ++ List.replicate 10 0) := by
  rw [encodeFinish_eq]
  exact (encodeChecked_eq_some fields_finish room_finish).mpr ⟨by decide, rfl⟩

theorem decodeFinish_testFinish {tail : List UInt8} (h : tail.length = 10) :
    decodeFinish (.data (checkedBytes finishFormat testFinish ++ tail)) = some testFinish := by
  have hsize : finishFormat.size + 2 + tail.length = kFinishBytes := by rw [h]; rfl
  rw [decodeFinish_eq]
  exact (decodeChecked_eq_some fields_finish room_finish).mpr ⟨tail, rfl, hsize, by decide⟩

/-- The test messages are read back. -/
theorem accept_finish_read_back :
    (∃ out, encodeAccept testAccept = some out ∧ decodeAccept (.data out) = some testAccept) ∧
      ∃ out, encodeFinish testFinish = some out ∧ decodeFinish (.data out) = some testFinish := by
  obtain ⟨haccept, hfinish, -, -⟩ := accept_finish_round_trip
  exact ⟨⟨_, encodeAccept_testAccept, haccept _ _ encodeAccept_testAccept⟩,
    ⟨_, encodeFinish_testFinish, hfinish _ _ encodeFinish_testFinish⟩⟩

/-! ### One wire form -/

/-- What is accepted is what its value is encoded to, and no other string has that value. -/
def OneWireForm {α : Type} (encode : α → Option (List UInt8)) (decode : Decoder α) : Prop :=
  (∀ b v, decode b = some v → encode v = some b.elems) ∧
    ∀ b b' v, decode b = some v → decode b' = some v → b = b'

theorem encodeHello_ne_of_decodeHello {b : Span UInt8} {v : Hello} (h : decodeHello b = some v) :
    encodeHello v ≠ some b.elems := by
  intro he
  cases b with
  | null n => simp [decodeHello] at h
  | data l =>
    rw [Span.elems_data] at he
    rw [decodeHello_of_encodeHello he] at h
    cases h

/-- **When a handshake message has its one wire form**: an `Accept` or a `Finish` if the bytes
behind its CRC are zero, a `Hello` never. Two strings of one value differ in those bytes only. -/
theorem wire_form_iff (b b' : Span UInt8) :
    (∀ v, decodeHello b = some v → encodeHello v ≠ some b.elems) ∧
      (∀ v, decodeAccept b = some v →
        (encodeAccept v = some b.elems ↔ b.elems.drop 54 = List.replicate 10 0)) ∧
      (∀ v, decodeFinish b = some v →
        (encodeFinish v = some b.elems ↔ b.elems.drop 38 = List.replicate 10 0)) ∧
      (∀ v, decodeHello b = some v → decodeHello b' = some v →
        (b = b' ↔ b.elems.drop 18 = b'.elems.drop 18)) ∧
      (∀ v, decodeAccept b = some v → decodeAccept b' = some v →
        (b = b' ↔ b.elems.drop 54 = b'.elems.drop 54)) ∧
      ∀ v, decodeFinish b = some v → decodeFinish b' = some v →
        (b = b' ↔ b.elems.drop 38 = b'.elems.drop 38) := by
  refine ⟨fun v => encodeHello_ne_of_decodeHello, fun v h => ?_, fun v h => ?_, fun v h h' => ?_,
    fun v h h' => ?_, fun v h h' => ?_⟩
  · rw [decodeAccept_eq] at h
    rw [encodeAccept_eq]
    exact encodeChecked_of_decodeChecked_iff fields_accept room_accept h
  · rw [decodeFinish_eq] at h
    rw [encodeFinish_eq]
    exact encodeChecked_of_decodeChecked_iff fields_finish room_finish h
  · rw [decodeHello_eq] at h h'
    exact eq_of_decodeChecked_iff fields_hello room_hello h h'
  · rw [decodeAccept_eq] at h h'
    exact eq_of_decodeChecked_iff fields_accept room_accept h h'
  · rw [decodeFinish_eq] at h h'
    exact eq_of_decodeChecked_iff fields_finish room_finish h h'

/-- The test messages have zeros behind their CRC, so they are written again as they were read. -/
theorem zeros_wire_form :
    (∃ b, decodeAccept (.data b) = some testAccept ∧ encodeAccept testAccept = some b) ∧
      ∃ b, decodeFinish (.data b) = some testFinish ∧ encodeFinish testFinish = some b := by
  have haccept : decodeAccept (.data (checkedBytes acceptFormat testAccept ++
      List.replicate 10 0)) = some testAccept := decodeAccept_testAccept List.length_replicate
  have hfinish : decodeFinish (.data (checkedBytes finishFormat testFinish ++
      List.replicate 10 0)) = some testFinish := decodeFinish_testFinish List.length_replicate
  have haccepts : (checkedBytes acceptFormat testAccept ++ List.replicate 10 0).drop 54 =
      List.replicate 10 0 := List.drop_left' (length_checkedBytes acceptFormat testAccept)
  have hfinishes : (checkedBytes finishFormat testFinish ++ List.replicate 10 0).drop 38 =
      List.replicate 10 0 := List.drop_left' (length_checkedBytes finishFormat testFinish)
  exact ⟨⟨_, haccept, ((wire_form_iff _ (.data [])).2.1 _ haccept).mpr haccepts⟩,
    ⟨_, hfinish, ((wire_form_iff _ (.data [])).2.2.1 _ hfinish).mpr hfinishes⟩⟩

/-- An accepted `Hello` is not what is encoded, nor is an accepted `Accept` whose last byte is not
zero; and that one has the value of another string. -/
theorem not_one_wire_form :
    let hello : Hello := ⟨10, 20, 0x1122334455667788, 0⟩
    let b := checkedBytes helloFormat hello ++ List.replicate 6 0
    let a := checkedBytes acceptFormat testAccept ++ (List.replicate 9 0 ++ [1])
    let a' := checkedBytes acceptFormat testAccept ++ List.replicate 10 0
    decodeHello (.data b) = some hello ∧ encodeHello hello ≠ some b ∧
      decodeAccept (.data a) = some testAccept ∧ encodeAccept testAccept ≠ some a ∧
      decodeAccept (.data a') = some testAccept ∧ a ≠ a' ∧
      ¬ OneWireForm encodeHello decodeHello ∧ ¬ OneWireForm encodeAccept decodeAccept := by
  intro hello b a a'
  have hb : decodeHello (.data b) = some hello := by
    rw [decodeHello_eq]
    exact (decodeChecked_eq_some fields_hello room_hello).mpr ⟨_, rfl, by decide, by decide⟩
  have hne : encodeHello hello ≠ some b := encodeHello_ne_of_decodeHello hb
  have ha : decodeAccept (.data a) = some testAccept := decodeAccept_testAccept rfl
  have ha' : decodeAccept (.data a') = some testAccept := decodeAccept_testAccept rfl
  have htail : a ≠ a' := by
    intro h
    have htails := List.append_cancel_left h
    exact absurd htails (by decide)
  have hane : encodeAccept testAccept ≠ some a := by
    rw [encodeAccept_testAccept]
    exact fun h => htail (Option.some.inj h).symm
  exact ⟨hb, hne, ha, hane, ha', htail, fun h => hne (h.1 _ _ hb), fun h => hane (h.1 _ _ ha)⟩

end NewMavlink.Handshake.Codecs
