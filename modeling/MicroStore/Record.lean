import MicroStore.Utility

/-!
# The bytes on disk

`FileStore.h` writes three kinds of packed little-endian structures: the log records (a
`RecordHeader`, the key, the value and a `RecordCommit`), the entries of the index file, and the
compaction `Journal`.  Here are their fields, their bytes and the readers of those bytes.

## What is here

* the constants of the formats, under the source's names;
* `RecordHeader` with `encode` and `decode`, 21 bytes in the order of the packed struct;
* `Record` — a log record whose header agrees with its key and value, and whose lengths are within the
  limits.  The agreement is a field, so a record that a reader of the log would refuse cannot be built;
* `IndexEntry` — an entry of the index file, whose key fits the buffer it is read into;
* `Journal` and `JournalState` — what a compaction writes down of its progress.

## What is not here

That decoding undoes encoding is proved beside each format.  What a scan makes of arbitrary bytes, which
need not be records at all, is in `Scan.lean` and `Grammar.lean`.
-/

set_option autoImplicit false

namespace MicroStore

/-! ## Constants -/

/-- `MAGIC_RECORD`. -/
def magicRecord : UInt32 := 0xC0DEC0DE

/-- `MAGIC_COMMIT`. -/
def magicCommit : UInt32 := 0xFACEB00C

/-- `FLAG_DELETE`. -/
def flagDelete : UInt8 := 1

/-- `JOURNAL_MAGIC`. -/
def journalMagic : UInt32 := 0x4B564A4E

/-- `USTORE_MAX_KEY_LEN`. -/
def maxKeyLen : Nat := 64

/-- `USTORE_MAX_VALUE_LEN`. -/
def maxValueLen : Nat := 1024

/-- `sizeof(RecordHeader)`, packed. -/
def headerSize : Nat := 21

/-- `sizeof(RecordCommit)`. -/
def commitSize : Nat := 4

/-! ## Record headers -/

/-- `RecordHeader`. -/
structure RecordHeader where
  /-- What a scan looks for. -/
  magic : UInt32
  /-- A record or a deletion. -/
  flags : UInt8
  /-- How long the key is. -/
  keyLen : UInt8
  /-- How long the value is. -/
  length : UInt16
  /-- When it was put. -/
  timestamp : UInt32
  /-- Its own TTL, or zero. -/
  ttl : UInt32
  /-- Its priority. -/
  priority : UInt8
  /-- The CRC of the other fields, the key and the value. -/
  crc : UInt32
  deriving DecidableEq, Repr

namespace RecordHeader

/-- The packed bytes of a header. -/
def encode (h : RecordHeader) : Bytes :=
  toLE 4 h.magic.toNat ++ (toLE 1 h.flags.toNat ++ (toLE 1 h.keyLen.toNat ++
    (toLE 2 h.length.toNat ++ (toLE 4 h.timestamp.toNat ++ (toLE 4 h.ttl.toNat ++
      (toLE 1 h.priority.toNat ++ toLE 4 h.crc.toNat))))))

/-- The header these bytes hold. -/
def decode (bs : Bytes) : RecordHeader where
  magic := UInt32.ofNat (field bs 0 4)
  flags := UInt8.ofNat (field bs 4 1)
  keyLen := UInt8.ofNat (field bs 5 1)
  length := UInt16.ofNat (field bs 6 2)
  timestamp := UInt32.ofNat (field bs 8 4)
  ttl := UInt32.ofNat (field bs 12 4)
  priority := UInt8.ofNat (field bs 16 1)
  crc := UInt32.ofNat (field bs 17 4)

@[simp] theorem length_encode (h : RecordHeader) : h.encode.length = headerSize := by
  simp [encode, headerSize]

@[simp] theorem decode_encode (h : RecordHeader) : decode h.encode = h := by
  have hlast : field (toLE 4 h.crc.toNat) 0 4 = h.crc.toNat % 256 ^ 4 := by
    simpa using @field_toLE 4 h.crc.toNat []
  simp [decode, encode, field_toLE_append, field_toLE, hlast]

end RecordHeader

/-- The bytes of a `RecordCommit`. -/
def commitBytes : Bytes := toLE 4 magicCommit.toNat

/-- The `magic` of the `RecordCommit` these bytes hold. -/
def commitMagic (bs : Bytes) : UInt32 := UInt32.ofNat (field bs 0 4)

/-! ## Records -/

/-- A log record: a header that describes the key and the value behind it, within the limits the
readers of the log enforce. -/
structure Record where
  /-- The header. -/
  hdr : RecordHeader
  /-- The key. -/
  key : Bytes
  /-- The value, which is not there for a deletion. -/
  value : Bytes
  /-- The header is one. -/
  magic_eq : hdr.magic = magicRecord
  /-- It tells the length of the key. -/
  keyLen_eq : hdr.keyLen.toNat = key.length
  /-- And that of the value. -/
  length_eq : hdr.length.toNat = value.length
  /-- The key is within its limit. -/
  key_le : key.length ≤ maxKeyLen
  /-- And so is the value. -/
  value_le : value.length ≤ maxValueLen

namespace Record

/-- The bytes of a record. -/
def bytes (r : Record) : Bytes := r.hdr.encode ++ (r.key ++ (r.value ++ commitBytes))

/-- The number of bytes of a record. -/
def size (r : Record) : Nat := headerSize + r.key.length + r.value.length + commitSize

@[simp] theorem length_bytes (r : Record) : r.bytes.length = r.size := by
  simp [bytes, size, commitBytes, commitSize]
  omega

theorem size_pos (r : Record) : 0 < r.size := by
  simp only [size, headerSize]
  omega

/-- Does the record delete its key? -/
def deletes (r : Record) : Prop := r.hdr.flags &&& flagDelete ≠ 0

instance (r : Record) : Decidable r.deletes := inferInstanceAs (Decidable (_ ≠ _))

end Record

/-- The bytes of a run of records. -/
def recordsBytes (rs : List Record) : Bytes := rs.flatMap Record.bytes

@[simp] theorem recordsBytes_nil : recordsBytes [] = [] := rfl

@[simp] theorem recordsBytes_cons (r : Record) (rs : List Record) :
    recordsBytes (r :: rs) = r.bytes ++ recordsBytes rs := rfl

@[simp] theorem recordsBytes_append (rs rs' : List Record) :
    recordsBytes (rs ++ rs') = recordsBytes rs ++ recordsBytes rs' := by
  simp [recordsBytes]

/-- A record takes at least 25 bytes. -/
theorem mul_length_le_recordsBytes (rs : List Record) : 25 * rs.length ≤ (recordsBytes rs).length := by
  induction rs with
  | nil => exact Nat.le_refl 0
  | cons r rs ih =>
    rw [recordsBytes_cons, List.length_append, Record.length_bytes, List.length_cons, Record.size,
      headerSize, commitSize]
    omega

theorem length_le_recordsBytes (rs : List Record) : rs.length ≤ (recordsBytes rs).length := by
  have h := mul_length_le_recordsBytes rs
  omega

/-! ## Index entries -/

/-- An entry of the index file. -/
structure IndexEntry where
  /-- The key. -/
  key : Bytes
  /-- The segment its record is in. -/
  seg : UInt32
  /-- Where in the segment it starts. -/
  off : UInt32
  /-- When it was put. -/
  ts : UInt32
  /-- Its own TTL, or zero. -/
  ttl : UInt32
  /-- Its priority. -/
  priority : UInt8
  /-- The key is within its limit. -/
  key_le : key.length ≤ maxKeyLen

namespace IndexEntry

/-- The bytes of an entry. -/
def bytes (e : IndexEntry) : Bytes :=
  UInt8.ofNat e.key.length :: (e.key ++ (toLE 4 e.seg.toNat ++ (toLE 4 e.off.toNat ++
    (toLE 4 e.ts.toNat ++ (toLE 4 e.ttl.toNat ++ [e.priority])))))

/-- The number of bytes of an entry. -/
def size (e : IndexEntry) : Nat := 18 + e.key.length

@[simp] theorem length_bytes (e : IndexEntry) : e.bytes.length = e.size := by
  simp only [bytes, size, List.length_cons, List.length_append, length_toLE, List.length_nil]
  omega

end IndexEntry

/-! ## Journals -/

/-- `JournalState`. -/
inductive JournalState
  | none
  | compacting
  | commit
  deriving DecidableEq, Repr

/-- The number a state is written as. -/
def JournalState.code : JournalState → Nat
  | .none => 0
  | .compacting => 1
  | .commit => 2

/-- `Journal`. -/
structure Journal where
  /-- Tells a journal from anything else. -/
  magic : UInt32
  /-- How far the compaction has come. -/
  state : UInt32
  /-- How many segments have been copied. -/
  nextSeg : UInt32
  /-- How many bytes of the copy are good. -/
  tmpValidSize : UInt32
  deriving DecidableEq, Repr

namespace Journal

/-- `sizeof(Journal)`, packed. -/
def size : Nat := 16

/-- The packed bytes of a journal. -/
def encode (j : Journal) : Bytes :=
  toLE 4 j.magic.toNat ++ (toLE 4 j.state.toNat ++ (toLE 4 j.nextSeg.toNat ++
    toLE 4 j.tmpValidSize.toNat))

/-- The journal these bytes hold. -/
def decode (bs : Bytes) : Journal where
  magic := UInt32.ofNat (field bs 0 4)
  state := UInt32.ofNat (field bs 4 4)
  nextSeg := UInt32.ofNat (field bs 8 4)
  tmpValidSize := UInt32.ofNat (field bs 12 4)

@[simp] theorem length_encode (j : Journal) : j.encode.length = size := by
  simp [encode, size]

@[simp] theorem decode_encode (j : Journal) : decode j.encode = j := by
  have hlast : field (toLE 4 j.tmpValidSize.toNat) 0 4 = j.tmpValidSize.toNat % 256 ^ 4 := by
    simpa using @field_toLE 4 j.tmpValidSize.toNat []
  simp [decode, encode, field_toLE_append, field_toLE, hlast]

end Journal

end MicroStore
