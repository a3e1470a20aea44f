import Mathlib.Data.List.DropRight
import MicroStore.Library.ShiftRegister
import MicroStore.RunningCrc
import MicroStore.Checksum

/-!
# What the CRC tells apart

`crc32` drives a shift register of 32 bits, whose taps are the constant of its inner loop, with the bits
of the data, every byte from its lowest bit on.  So the library on shift registers says what it
computes: the complement of a remainder (`toBitVec_crc32`), which no burst of 32 bits leaves as it was
(`crc32_ne_of_burst`).

Cut into chunks, the data has the same CRC unless a chunk comes with a null pointer: then `crc32`
forgets what it was given and answers `0`.  That is the right answer just when the chunks in front leave
the register unmoved, and `put`, which hands over the header, the key and the value one after the other,
depends on it where the key or the value is empty (`crc_of_chunks`).

## What is here

* `crcRegister`, `bits` — the register of this CRC, and the bits of some data in the order they are fed
  to it.
* `toBitVec_crcRound`, `toBitVec_crcByte`, `toBitVec_crc32` — the loop of the source, level by level,
  drives the register.
* `crc32_eq_iff` — two pieces of data have the same CRC exactly if they leave the register in the same
  state.
* `crc32_ne_of_burst` — so they have not, if they are of one length and differ within 32 consecutive
  bits, at any place, also across bytes.
* `crcChunks`, `uptoNull`, `pastNull`, `Unmoved` — the CRC of chunks, and what a null pointer does to
  it.
* `crcChunks_eq_iff`, `crc_putHeader` — when the chunks have the CRC of all the data, and the same for
  the record of a put.
* `crc_of_chunks` — both together; `null_chunk_forgets` — chunks for which it fails.
-/

set_option autoImplicit false

namespace MicroStore

open Polynomial

/-- The register that `crc32` drives. -/
def crcRegister : ShiftRegister 32 where
  taps := 0xEDB88320#32
  msb_taps := rfl

/-- The bits of a byte, in the order in which the inner loop takes them in. -/
def byteBits (b : UInt8) : List Bool := (List.range 8).map b.toBitVec.getLsbD

/-- The bits of the data, in the order in which the loop takes them in. -/
def bits (bs : Bytes) : List Bool := bs.flatMap byteBits

/-- Eight of them. -/
@[simp] theorem length_byteBits (b : UInt8) : (byteBits b).length = 8 := by simp [byteBits]

/-- The bits of the first byte come first. -/
@[simp] theorem bits_cons (b : UInt8) (bs : Bytes) : bits (b :: bs) = byteBits b ++ bits bs :=
  List.flatMap_cons

@[simp] theorem length_bits (bs : Bytes) : (bits bs).length = 8 * bs.length := by
  induction bs with
  | nil => rfl
  | cons b bs ih =>
    rw [bits_cons, List.length_append, length_byteBits, ih, List.length_cons]
    omega

/-- A byte is its bits. -/
theorem byteBits_injective {a b : UInt8} (h : byteBits a = byteBits b) : a = b := by
  refine UInt8.toBitVec_inj.1 (BitVec.eq_of_getLsbD_eq fun i hi => ?_)
  exact List.map_inj_left.1 h i (List.mem_range.2 hi)

/-- So is a piece of data. -/
theorem bits_injective {x y : Bytes} (h : bits x = bits y) : x = y := by
  induction x generalizing y with
  | nil =>
    have hlen := congrArg List.length h
    rw [length_bits, length_bits] at hlen
    exact (List.length_eq_zero_iff.1 (by simpa using hlen.symm)).symm
  | cons a x ih =>
    cases y with
    | nil => simpa using congrArg List.length h
    | cons b y =>
      rw [bits_cons, bits_cons] at h
      obtain ⟨hhead, htail⟩ := List.append_inj h (by simp)
      rw [byteBits_injective hhead, ih htail]

/-! ## The loop drives the register

The source shifts to the right, so the register is the word as it stands, with the lowest bit leaving
first. -/

/-- One bit. -/
theorem toBitVec_crcRound (crc : UInt32) :
    (crcRound crc).toBitVec = crcRegister.shift crc.toBitVec := by
  -- `-(crc & 1)` is all ones or zero
  have hmask : (0 - (crc &&& 1)).toBitVec
      = if crc.toBitVec.getLsbD 0 then 0xFFFFFFFF#32 else 0#32 := by
    rw [UInt32.toBitVec_sub, UInt32.toBitVec_and]
    have hbit : crc.toBitVec &&& (1 : UInt32).toBitVec
        = (BitVec.ofBool (crc.toBitVec.getLsbD 0)).setWidth 32 :=
      BitVec.and_one_eq_setWidth_ofBool_getLsbD
    rw [hbit]
    cases crc.toBitVec.getLsbD 0 <;> rfl
  rw [crcRound, ShiftRegister.shift, UInt32.toBitVec_xor, UInt32.toBitVec_and, hmask]
  cases crc.toBitVec.getLsbD 0 <;> rfl

/-- One byte. -/
theorem toBitVec_crcByte (crc : UInt32) (b : UInt8) :
    (crcByte crc b).toBitVec = crcRegister.feedAll crc.toBitVec (byteBits b) := by
  have hb : ∀ i, b.toUInt32.toBitVec.getLsbD i = b.toBitVec.getLsbD i := by
    intro i
    rw [UInt8.toBitVec_toUInt32, BitVec.getLsbD_setWidth]
    by_cases hi : i < 32
    · simp [hi]
    · rw [BitVec.getLsbD_of_ge _ _ (by omega), Bool.and_false]
  have hrounds := crcRegister.iterate_shift_xor (k := 8) (v := b.toUInt32.toBitVec)
    (fun i hi => by rw [hb, BitVec.getLsbD_of_ge _ _ hi]) crc.toBitVec
  rw [byteBits, ← funext hb, ← hrounds]
  simp only [crcByte, toBitVec_crcRound, UInt32.toBitVec_xor]
  rfl

/-- All bytes. -/
theorem toBitVec_foldl_crcByte (crc : UInt32) (bs : Bytes) :
    (bs.foldl crcByte crc).toBitVec = crcRegister.feedAll crc.toBitVec (bits bs) := by
  induction bs generalizing crc with
  | nil => rfl
  | cons b bs ih =>
    rw [List.foldl_cons, ih, toBitVec_crcByte, bits_cons, ShiftRegister.feedAll_append]

/-- **The CRC is a remainder**, up to the complement: that of the bits behind what the register held
before, on division by the generator. -/
theorem toBitVec_crc32 (crc : UInt32) (bs : Bytes) :
    ShiftRegister.poly (~~~crc32 crc (.at bs)).toBitVec
      = (X ^ (8 * bs.length) * ShiftRegister.poly (~~~crc).toBitVec
          + X ^ 32 * ShiftRegister.message (bits bs)) %ₘ crcRegister.generator := by
  rw [crc32, UInt32.not_not, toBitVec_foldl_crcByte, ShiftRegister.poly_feedAll, length_bits]

/-- Equal CRCs come of registers that hold the same. -/
theorem crc32_eq_iff {crc crc' : UInt32} {x y : Bytes} :
    crc32 crc (.at x) = crc32 crc' (.at y) ↔
      crcRegister.feedAll (~~~crc).toBitVec (bits x)
        = crcRegister.feedAll (~~~crc').toBitVec (bits y) := by
  rw [← toBitVec_foldl_crcByte, ← toBitVec_foldl_crcByte, UInt32.toBitVec_inj, crc32, crc32,
    UInt32.not_inj]

/-! ## Bursts

A burst is a difference within as many consecutive bits as the register has.  The library proves the
theorem on bursts for any register; here the bits are those of bytes. -/

/-- **No burst of 32 bits goes unseen.**  Of two strings of the same length whose bits differ, but only
within 32 places of each other, the CRCs are different. -/
theorem crc32_ne_of_burst (crc : UInt32) {x y : Bytes} (hlen : x.length = y.length) (hne : x ≠ y)
    {k : Nat} (hburst : ∀ i, (bits x)[i]? ≠ (bits y)[i]? → k ≤ i ∧ i < k + 32) :
    crc32 crc (.at x) ≠ crc32 crc (.at y) := by
  intro h
  have hbits : (bits x).length = (bits y).length := by rw [length_bits, length_bits, hlen]
  exact hne (bits_injective (crcRegister.eq_of_feedAll_eq hbits hburst (crc32_eq_iff.1 h)))

/-- Two bits in error, the first and the last of 32 that lie across five bytes. -/
theorem crc32_ne_of_straddling :
    crc32 7 (.at [0, 0, 0, 0, 0, 0]) ≠ crc32 7 (.at [0, 0x10, 0, 0, 0, 8]) := by
  refine crc32_ne_of_burst 7 rfl (by decide) (k := 12) fun i hi => ?_
  have hlt : i < 48 := by
    by_contra hge
    refine hi ?_
    rw [List.getElem?_eq_none (by rw [length_bits]; exact Nat.not_lt.1 hge),
      List.getElem?_eq_none (by rw [length_bits]; exact Nat.not_lt.1 hge)]
  have hbits : ∀ i, i < 48 → (bits [0, 0, 0, 0, 0, 0])[i]? ≠ (bits [0, 0x10, 0, 0, 0, 8])[i]? →
      12 ≤ i ∧ i < 12 + 32 := by decide
  exact hbits i hlt hi

/-! ## Chunks

`crc32` takes the CRC of what came before and goes on with it; a null pointer is not the same as no
bytes. -/

/-- `crc32` of chunks, one call after the other. -/
def crcChunks (crc : UInt32) (chunks : List Buf) : UInt32 := chunks.foldl crc32 crc

/-- All bytes of the chunks. -/
def joined (chunks : List Buf) : Bytes := chunks.flatMap Buf.bytes

/-- The chunks up to the last null pointer, if there is one. -/
def uptoNull (chunks : List Buf) : List Buf := chunks.rdropWhile (· ≠ .null)

/-- The chunks behind the last null pointer. -/
def pastNull (chunks : List Buf) : List Buf := chunks.rtakeWhile (· ≠ .null)

/-- The bytes leave a fresh register unmoved: behind the ones it holds at first, they come to the same
remainder as these. -/
def Unmoved (bs : Bytes) : Prop :=
  crcRegister.generator ∣ X ^ (8 * bs.length) * ShiftRegister.poly (BitVec.allOnes 32)
    + X ^ 32 * ShiftRegister.message (bits bs) - ShiftRegister.poly (BitVec.allOnes 32)

/-- No bytes leave the register unmoved. -/
theorem unmoved_nil : Unmoved [] := by
  simp [Unmoved, bits, ShiftRegister.message]

/-- From zero on, a CRC of zero means that the register is as it was. -/
theorem crc32_eq_zero_iff {bs : Bytes} : crc32 0 (.at bs) = 0 ↔ Unmoved bs := by
  have hreg : crc32 0 (.at bs) = crc32 0 (.at []) ↔
      crcRegister.feedAll (BitVec.allOnes 32) (bits bs) = BitVec.allOnes 32 := crc32_eq_iff
  rw [FileCall.crc32_nil] at hreg
  rw [hreg, ShiftRegister.feedAll_eq_iff, length_bits, Unmoved]

/-- Different CRCs stay different when the same bytes follow. -/
theorem crc32_injective {crc crc' : UInt32} {bs : Bytes}
    (h : crc32 crc (.at bs) = crc32 crc' (.at bs)) : crc = crc' := by
  have hreg := crcRegister.feedAll_injective (crc32_eq_iff.1 h)
  exact UInt32.not_inj.1 (UInt32.toBitVec_inj.1 hreg)

@[simp] theorem joined_nil : joined [] = [] := rfl

@[simp] theorem joined_cons (c : Buf) (chunks : List Buf) :
    joined (c :: chunks) = c.bytes ++ joined chunks := List.flatMap_cons

/-- The bytes of more chunks. -/
theorem joined_append (x y : List Buf) : joined (x ++ y) = joined x ++ joined y :=
  List.flatMap_append

/-- What stands in front of the last null pointer is forgotten. -/
theorem crcChunks_zero (chunks : List Buf) :
    crcChunks 0 chunks = crc32 0 (.at (joined (pastNull chunks))) := by
  induction chunks using List.reverseRecOn with
  | nil => exact (FileCall.crc32_nil 0).symm
  | append_singleton chunks c ih =>
    have hlast : crcChunks 0 (chunks ++ [c]) = crc32 (crcChunks 0 chunks) c := by simp [crcChunks]
    rw [hlast, ih]
    cases c with
    | null =>
      have hpast : pastNull (chunks ++ [.null]) = [] := by simp [pastNull]
      rw [hpast]
      exact (FileCall.crc32_nil 0).symm
    | «at» bs =>
      have hpast : pastNull (chunks ++ [.at bs]) = pastNull chunks ++ [.at bs] := by simp [pastNull]
      rw [hpast, joined_append, FileCall.crc32_append]
      simp [joined, Buf.bytes]

/-- Up to the last null pointer, and behind it. -/
theorem uptoNull_append (chunks : List Buf) : uptoNull chunks ++ pastNull chunks = chunks := by
  rw [uptoNull, pastNull, List.rdropWhile, List.rtakeWhile, ← List.reverse_append,
    List.takeWhile_append_dropWhile, List.reverse_reverse]

/-- One call after the other gives the CRC of the whole just when what is forgotten has none. -/
theorem crcChunks_eq_iff (chunks : List Buf) :
    crcChunks 0 chunks = crc32 0 (.at (joined chunks)) ↔ Unmoved (joined (uptoNull chunks)) := by
  have hwhole : crc32 0 (.at (joined chunks))
      = crc32 (crc32 0 (.at (joined (uptoNull chunks)))) (.at (joined (pastNull chunks))) := by
    rw [FileCall.crc32_append, ← joined_append, uptoNull_append]
  rw [crcChunks_zero, hwhole, ← crc32_eq_zero_iff]
  exact ⟨fun h => (crc32_injective h).symm, fun h => by rw [h]⟩

/-! ## The record that `put` writes

Three chunks: the header without its CRC, the key and the value.  The pointers are those of the
caller. -/

/-- The part of a header that goes into the checksum. -/
def checked (hdr : RecordHeader) : Bytes := hdr.encode.take (headerSize - 4)

/-- The checksum itself is not in it. -/
theorem checked_crc (hdr : RecordHeader) (crc : UInt32) :
    checked { hdr with crc := crc } = checked hdr := by
  simp only [checked, RecordHeader.encode, ← List.append_assoc]
  rw [List.take_left' (by simp [headerSize]), List.take_left' (by simp [headerSize])]

/-- The checksum of the header that `put` writes. -/
theorem crc_putHeader (key data : Buf) (ttl ts : UInt32) (priority : UInt8) :
    (putHeader key data ttl ts priority).crc
      = crcChunks 0 [.at (checked (putHeader key data ttl ts priority)), key, data] := by
  rw [← checked_crc (putHeader key data ttl ts priority) 0]
  rfl

/-- The part of the header of a record that goes into its checksum. -/
def checkedHeader (key : Key) (data : Value) (ttl ts : UInt32) (priority : UInt8) : Bytes :=
  checked (putHeader (.at key) (.at data) ttl ts priority)

/-- The pointers do not go into it. -/
theorem checked_putHeader (key data : Buf) (ttl ts : UInt32) (priority : UInt8) :
    checked (putHeader key data ttl ts priority)
      = checkedHeader key.bytes data.bytes ttl ts priority := by
  rw [checkedHeader, ← checked_crc _ 0,
    ← checked_crc (putHeader (.at key.bytes) _ ttl ts priority) 0]
  rfl

/-- What is in front of the last null pointer, where there are a header, a key and a value. -/
theorem joined_uptoNull (hdr : Bytes) (key data : Buf) :
    joined (uptoNull [.at hdr, key, data])
      = if data = .null then hdr ++ key.bytes else if key = .null then hdr else [] := by
  cases key <;> cases data <;> simp [uptoNull, List.rdropWhile, Buf.bytes]

/-- When the CRC in the header is that of the record. -/
theorem crc_putHeader_eq_iff (key data : Buf) (ttl ts : UInt32) (priority : UInt8) :
    (putHeader key data ttl ts priority).crc = crc32 0 (.at
        (checkedHeader key.bytes data.bytes ttl ts priority ++ key.bytes ++ data.bytes)) ↔
      Unmoved (if data = .null then checkedHeader key.bytes data.bytes ttl ts priority ++ key.bytes
        else if key = .null then checkedHeader key.bytes data.bytes ttl ts priority else []) := by
  have hall (hdr : Bytes) : hdr ++ key.bytes ++ data.bytes = joined [.at hdr, key, data] := by
    simp [Buf.bytes]
  rw [crc_putHeader, checked_putHeader, ← joined_uptoNull, hall]
  exact crcChunks_eq_iff _

/-- **When a CRC is that of the data.**  Chunks that are folded in one after the other have the CRC of
the whole just when the bytes in front of the last null pointer leave the register unmoved.  So the
checksum that `put` stores is that of header, key and value, whatever pointers an overload hands over,
just when an empty key finds the register unmoved, and so does an empty value. -/
theorem crc_of_chunks (chunks : List Buf) (key : Key) (data : Value) (ttl ts : UInt32)
    (priority : UInt8) :
    (crcChunks 0 chunks = crc32 0 (.at (joined chunks)) ↔ Unmoved (joined (uptoNull chunks))) ∧
      ((∀ k d : Buf, k.bytes = key → d.bytes = data →
          (putHeader k d ttl ts priority).crc
            = crc32 0 (.at (checkedHeader key data ttl ts priority ++ key ++ data))) ↔
        (key = [] → Unmoved (checkedHeader key data ttl ts priority)) ∧
          (data = [] → Unmoved (checkedHeader key data ttl ts priority ++ key))) := by
  refine ⟨crcChunks_eq_iff chunks, fun h => ⟨?_, ?_⟩, ?_⟩
  · rintro rfl
    have hnull := (crc_putHeader_eq_iff .null (.at data) ttl ts priority).1 (h _ _ rfl rfl)
    rwa [if_neg (by simp), if_pos rfl] at hnull
  · rintro rfl
    have hnull := (crc_putHeader_eq_iff (.at key) .null ttl ts priority).1 (h _ _ rfl rfl)
    rwa [if_pos rfl] at hnull
  · rintro ⟨hkey, hdata⟩ k d rfl rfl
    refine (crc_putHeader_eq_iff k d ttl ts priority).2 ?_
    split
    · next hnull => exact hdata (by rw [hnull]; rfl)
    · split
      · next hnull => exact hkey (by rw [hnull]; rfl)
      · exact unmoved_nil

/-- A chunk from an empty vector, and a value from one. -/
theorem null_chunk_forgets : (¬∀ chunks, crcChunks 0 chunks = crc32 0 (.at (joined chunks))) ∧
    ¬∀ (key key' data data' : Buf) (ttl ts : UInt32) (priority : UInt8),
      key.bytes = key'.bytes → data.bytes = data'.bytes →
      (putHeader key data ttl ts priority).crc = (putHeader key' data' ttl ts priority).crc := by
  constructor
  · intro h
    exact absurd (h [.at [1], .null]) (by decide +kernel)
  · intro h
    exact absurd (h (.at [107]) (.at [107]) .null (.at []) 0 0 0 rfl rfl) (by decide +kernel)

end MicroStore
