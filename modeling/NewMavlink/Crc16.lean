import NewMavlink.Wire

/-! # CRC-16

`crc16_ccitt` of `crc16.cpp`: polynomial `0x1021`, initial value `0xFFFF`, most significant bit of
each byte first. -/

namespace NewMavlink.Crc16

open NewMavlink.Lib.Buffer

/-- The body of the loop over the bits of a byte. -/
def crcBit (crc : UInt16) : UInt16 :=
  if crc &&& 0x8000 ≠ 0 then (crc <<< 1) ^^^ 0x1021 else crc <<< 1

/-- The body of the loop over the bytes. -/
def crcByte (crc : UInt16) (b : UInt8) : UInt16 := crcBit^[8] (crc ^^^ (b.toUInt16 <<< 8))

/-- `crc16_ccitt`. -/
def crc16Ccitt (bytes : Span UInt8) : UInt16 :=
  if bytes.isNull ∧ bytes.length ≠ 0 then 0 else bytes.elems.foldl crcByte 0xFFFF

/-- The check value of the polynomial with this initial value: the CRC of `"123456789"`. -/
example : crc16Ccitt (.data [0x31, 0x32, 0x33, 0x34, 0x35, 0x36, 0x37, 0x38, 0x39]) = 0x29B1 := by
  decide +kernel

end NewMavlink.Crc16
