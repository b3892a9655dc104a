import NewMavlink.Lib.Buffer

/-! # Codecs of a fixed length

A `Format` says what the bytes of a value are, all of one length. An encoder that follows it
(`Writes`) stores the bytes of the values it accepts at the start of its output, if there is room,
and leaves the rest of the output alone; a decoder that follows it (`Reads`) accepts exactly the
bytes of the values it accepts.

* `exact_of_writes`: an encoder and a decoder that accept the same values are inverse to each other.
* `roundTrips_iff`: otherwise the decoder reads a value back exactly if it accepts the value.
* `Fields`: a value whose bytes are stored at the front of an array, and read from there. -/

namespace NewMavlink.Lib.Codec

open NewMavlink.Lib.Buffer

variable {α : Type}

/-- An encoder returns the array after the call and the length it has written. -/
abbrev Encoder (α : Type) : Type := α → Span UInt8 → Option (List UInt8 × ℕ)

/-- A decoder returns the value, if it accepts the bytes. -/
abbrev Decoder (α : Type) : Type := Span UInt8 → Option α

/-- The bytes of a value. -/
structure Format (α : Type) where
  size : ℕ
  bytes : α → List UInt8
  length_bytes : ∀ v, (bytes v).length = size

/-- What the encoder writes: the bytes of the values `V`. -/
def Writes (F : Format α) (V : α → Prop) (encode : Encoder α) : Prop :=
  ∀ v out p n, encode v out = some (p, n) ↔
    (out.isNull = false ∧ F.size ≤ out.length ∧ V v) ∧
      p = F.bytes v ++ out.elems.drop F.size ∧ n = F.size

/-- What the decoder accepts: the bytes of the values `V`. -/
def Reads (F : Format α) (V : α → Prop) (decode : Decoder α) : Prop :=
  ∀ b v, decode b = some v ↔ b = .data (F.bytes v) ∧ V v

/-- If the encoder accepts the value, the decoder accepts the bytes written and returns the same
value. -/
def RoundTrips (encode : Encoder α) (decode : Decoder α) (v : α) (out : Span UInt8) : Prop :=
  ∀ p n, encode v out = some (p, n) → decode (.data (p.take n)) = some v

/-- What is encoded has this length and is read back; and what is decoded, the encoder accepts and
writes again, byte for byte, into any array with room for it. -/
structure Exact (size : ℕ) (encode : Encoder α) (decode : Decoder α) : Prop where
  length : ∀ v out p n, encode v out = some (p, n) → n = size ∧ (p.take n).length = size
  roundTrips : ∀ v out, RoundTrips encode decode v out
  rewrites : ∀ b v out, decode b = some v → out.isNull = false → size ≤ out.length →
    encode v out = some (b.elems ++ out.elems.drop size, size)

variable {F : Format α} {V W : α → Prop} {encode : Encoder α} {decode : Decoder α}

/-- An encoder that checks its arguments and then stores field after field. -/
theorem writes_of_put (put : α → List UInt8 → List UInt8) {check : α → Span UInt8 → Prop}
    [∀ v out, Decidable (check v out)]
    (hencode : ∀ v out, encode v out = if check v out then none else some (put v out.elems, F.size))
    (hcheck : ∀ v out, ¬ check v out ↔ out.isNull = false ∧ F.size ≤ out.length ∧ V v)
    (htake : ∀ v p, F.size ≤ p.length → (put v p).take F.size = F.bytes v)
    (hdrop : ∀ v p, (put v p).drop F.size = p.drop F.size) : Writes F V encode := by
  intro v out p n
  rw [hencode, ← hcheck]
  by_cases hc : check v out
  · simp [hc]
  · have hroom : F.size ≤ out.elems.length := by
      obtain ⟨hnull, hlen, -⟩ := (hcheck v out).mp hc
      rwa [Span.length_elems (by simp [hnull])]
    have hput : put v out.elems = F.bytes v ++ out.elems.drop F.size := by
      rw [← htake v _ hroom, ← hdrop v, List.take_append_drop]
    rw [if_neg hc, Option.some.injEq, Prod.mk.injEq, hput, and_iff_right hc, eq_comm,
      eq_comm (a := F.size)]

/-- A decoder that checks the length and the bytes it ignores (`C`), reads field after field and
checks what it has read. -/
theorem reads_of_read (read : List UInt8 → α) (C : List UInt8 → Prop)
    (hdecode : ∀ b v, decode b = some v ↔
      (b.isNull = false ∧ b.length = F.size ∧ C b.elems) ∧ read b.elems = v ∧ V v)
    (hread : ∀ v, C (F.bytes v) ∧ read (F.bytes v) = v)
    (hbytes : ∀ b, b.length = F.size → C b → b.take F.size = F.bytes (read b)) :
    Reads F V decode := by
  intro b v
  rw [hdecode]
  constructor
  · rintro ⟨⟨hnull, hlen, hc⟩, rfl, hv⟩
    refine ⟨?_, hv⟩
    cases b with
    | null n => cases hnull
    | data l =>
      rw [Span.elems_data] at hc ⊢
      rw [← hbytes l hlen hc, List.take_of_length_le hlen.le]
  · rintro ⟨rfl, hv⟩
    exact ⟨⟨rfl, F.length_bytes v, (hread v).1⟩, (hread v).2, hv⟩

theorem take_of_writes (hw : Writes F V encode) {v : α} {out : Span UInt8} {p : List UInt8} {n : ℕ}
    (h : encode v out = some (p, n)) : n = F.size ∧ p.take n = F.bytes v := by
  obtain ⟨-, rfl, rfl⟩ := (hw v out p n).mp h
  exact ⟨rfl, List.take_left' (F.length_bytes v)⟩

/-- **When a value is read back**: if the encoder refuses it, or the decoder accepts it. -/
theorem roundTrips_iff (hw : Writes F V encode) (hr : Reads F W decode) (v : α)
    (out : Span UInt8) : RoundTrips encode decode v out ↔
      (out.isNull = false ∧ F.size ≤ out.length ∧ V v → W v) := by
  constructor
  · intro h hv
    have henc := (hw v out _ _).mpr ⟨hv, rfl, rfl⟩
    have hdec := h _ _ henc
    rw [(take_of_writes hw henc).2] at hdec
    exact ((hr _ v).mp hdec).2
  · intro h p n henc
    rw [(take_of_writes hw henc).2]
    exact (hr _ v).mpr ⟨rfl, h ((hw v out p n).mp henc).1⟩

/-- **An encoder and a decoder that accept the same values** are inverse to each other. -/
theorem exact_of_writes (hw : Writes F V encode) (hr : Reads F V decode) :
    Exact F.size encode decode := by
  refine ⟨fun v out p n h => ?_, fun v out => ?_, fun b v out h hnull hroom => ?_⟩
  · obtain ⟨hn, hp⟩ := take_of_writes hw h
    exact ⟨hn, by rw [hp, F.length_bytes]⟩
  · exact (roundTrips_iff hw hr v out).mpr fun hv => hv.2.2
  · obtain ⟨rfl, hv⟩ := (hr b v).mp h
    exact (hw v out _ _).mpr ⟨⟨hnull, hroom, hv⟩, rfl, rfl⟩

/-- The bytes of the format are what `put` stores at the front of an array and what `read` looks
at. -/
structure Fields (F : Format α) (put : List UInt8 → α → List UInt8) (read : List UInt8 → α) :
    Prop where
  take_put : ∀ p v, F.size ≤ p.length → (put p v).take F.size = F.bytes v
  drop_put : ∀ p v, (put p v).drop F.size = p.drop F.size
  read_append : ∀ v rest, read (F.bytes v ++ rest) = v
  bytes_read : ∀ p, F.size ≤ p.length → F.bytes (read p) = p.take F.size

/-- An array holds the bytes stored in it, and what it held behind them. -/
theorem Fields.put_eq {put : List UInt8 → α → List UInt8} {read : List UInt8 → α}
    (hf : Fields F put read) {p : List UInt8} (hl : F.size ≤ p.length) (v : α) :
    put p v = F.bytes v ++ p.drop F.size := by
  rw [← hf.take_put p v hl, ← hf.drop_put p v, List.take_append_drop]

/-- An encoder that leaves it to its callers to know the length. -/
def sized (size : ℕ) (encode : α → Span UInt8 → Option (List UInt8)) : Encoder α := fun v out =>
  (encode v out).map fun p => (p, size)

end NewMavlink.Lib.Codec
