import MicroStore.Library.Bytes

/-!
# `Utility.h`: the checksum

The CRC-32 that every record carries.  The source passes a data pointer and a length, and answers
`0` for a null pointer before it looks at the length, so the pointer is part of the argument here:
a `Buf` is either null or points at some bytes.

## What is here

* `Buf` — a `(const uint8_t*, length)` argument, as the operations of the stores take them, too.
* `crcRound`, `crcByte`, `crc32` — the three levels of the source: one bit, one byte, all the data.

What the checksum is mathematically, a remainder of polynomials, is in `Crc.lean`; which readers of a
record look at it at all is in `Checksum.lean`.  The other half of `Utility.h`, the clock, is in
`Rollover.lean`.
-/

set_option autoImplicit false

namespace MicroStore

/-- A `(const uint8_t*, length)` argument.  A null pointer comes with no bytes. -/
inductive Buf
  | null
  | «at» (bytes : Bytes)
  deriving DecidableEq, Repr

/-- The bytes an argument stands for. -/
def Buf.bytes : Buf → Bytes
  | .null => []
  | .at bs => bs

/-- One round of the inner loop: shift out a bit and fold the polynomial back in. -/
def crcRound (crc : UInt32) : UInt32 :=
  (crc >>> 1) ^^^ (0xEDB88320 &&& (0 - (crc &&& 1)))

/-- The body of the outer loop, for one byte of data. -/
def crcByte (crc : UInt32) (b : UInt8) : UInt32 :=
  let crc := crc ^^^ b.toUInt32
  crcRound (crcRound (crcRound (crcRound (crcRound (crcRound (crcRound (crcRound crc)))))))

/-- `crc32(crc, data, len)`. -/
def crc32 (crc : UInt32) : Buf → UInt32
  | .null => 0
  | .at bs => ~~~(bs.foldl crcByte (~~~crc))

end MicroStore
