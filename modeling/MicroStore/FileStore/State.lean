import MicroStore.File
import MicroStore.Record
import Mathlib.Data.List.AList

/-!
# The state of a file store

The members of `BasicFileStore` that the program reads or writes, the in-memory index and the names
of the files on disk.

The index is an `std::unordered_map`, whose iteration order the standard leaves open.  It is modelled
by an association list without duplicate keys together with an unspecified rearrangement, a field
of the store, that is applied wherever the source iterates.  A statement about a store is therefore one
about every order its standard library may choose.

## What is here

* `UInt24`, `IndexValue`, `Index` — the index and what it keeps of a record.  The 24 bits are part of the
  model: an offset or a TTL that does not fit is cut, as in the source.
* `IterationOrder` — the order of iteration.
* `StoreFile`, `storePath` — the names of the files, printed into a buffer of `USTORE_MAX_FILENAME_LEN`
  characters and cut to what fits.  Whether different files have different names is a theorem
  (`Names.lean`), not an assumption.
* `Store` — the members, with the constructor and the two policy setters.
* `Clock` — the clock readings one operation takes.  They are arguments, so time may pass, stand still or
  wrap around between any two operations.
-/

set_option autoImplicit false

namespace MicroStore

/-! ## The index -/

/-- A key. -/
abbrev Key := Bytes

/-- A value. -/
abbrev Value := Bytes

/-- `UInt24`: an unsigned integer in three bytes. -/
structure UInt24 where
  /-- The low byte. -/
  b0 : UInt8
  /-- The middle byte. -/
  b1 : UInt8
  /-- The high byte. -/
  b2 : UInt8
  deriving DecidableEq, Repr

namespace UInt24

/-- The conversion operator to `uint32_t`. -/
def toNat (v : UInt24) : Nat := v.b0.toNat ||| v.b1.toNat <<< 8 ||| v.b2.toNat <<< 16

/-- The assignment operator from `uint32_t`. -/
def ofNat (v : Nat) : UInt24 where
  b0 := UInt8.ofNat (v &&& 0xff)
  b1 := UInt8.ofNat (v >>> 8 &&& 0xff)
  b2 := UInt8.ofNat (v >>> 16 &&& 0xff)

theorem toNat_eq (v : UInt24) : v.toNat = v.b0.toNat + 256 * v.b1.toNat + 65536 * v.b2.toNat := by
  have h0 : v.b0.toNat < 2 ^ 8 := v.b0.toNat_lt
  have h1 : v.b1.toNat < 2 ^ 8 := v.b1.toNat_lt
  have h01 : v.b0.toNat ||| v.b1.toNat <<< 8 = v.b1.toNat <<< 8 + v.b0.toNat := by
    rw [Nat.or_comm, Nat.shiftLeft_add_eq_or_of_lt h0]
  have hlt : v.b1.toNat <<< 8 + v.b0.toNat < 2 ^ 16 := by
    rw [Nat.shiftLeft_eq]
    omega
  rw [toNat, h01, Nat.or_comm, ← Nat.shiftLeft_add_eq_or_of_lt hlt, Nat.shiftLeft_eq,
    Nat.shiftLeft_eq]
  omega

@[simp] theorem ofNat_toNat (v : UInt24) : ofNat v.toNat = v := by
  have hmask (n : Nat) : n &&& 0xff = n % 2 ^ 8 := Nat.and_two_pow_sub_one_eq_mod n 8
  cases v with
  | mk b0 b1 b2 =>
    have h0 := b0.toNat_lt
    have h1 := b1.toNat_lt
    have h2 := b2.toNat_lt
    rw [toNat_eq, ofNat]
    simp only [hmask, Nat.shiftRight_eq_div_pow]
    congr
    · apply UInt8.toNat_inj.1
      rw [UInt8.toNat_ofNat']
      omega
    · apply UInt8.toNat_inj.1
      rw [UInt8.toNat_ofNat']
      omega
    · apply UInt8.toNat_inj.1
      rw [UInt8.toNat_ofNat']
      omega

/-- Of any number the low 24 bits are kept. -/
theorem toNat_ofNat_mod (n : Nat) : (ofNat n).toNat = n % 2 ^ 24 := by
  have hmask (n : Nat) : n &&& 0xff = n % 2 ^ 8 := Nat.and_two_pow_sub_one_eq_mod n 8
  rw [toNat_eq, ofNat]
  simp only [hmask, Nat.shiftRight_eq_div_pow, UInt8.toNat_ofNat']
  omega

/-- A number that fits is kept. -/
theorem toNat_ofNat {n : Nat} (h : n < 2 ^ 24) : (ofNat n).toNat = n := by
  rw [toNat_ofNat_mod, Nat.mod_eq_of_lt h]

theorem toNat_lt (v : UInt24) : v.toNat < 2 ^ 24 := by
  have h0 := v.b0.toNat_lt
  have h1 := v.b1.toNat_lt
  have h2 := v.b2.toNat_lt
  rw [toNat_eq]
  omega

end UInt24

/-- `IndexValue`: where the record of a key is, and what the policies need to know of it. -/
structure IndexValue where
  /-- The segment the record is in. -/
  segment : UInt8
  /-- Where in the segment it starts. -/
  offset : UInt24
  /-- When it was put. -/
  timestamp : UInt32
  /-- How long it is to live, where it has a TTL of its own. -/
  ttl : UInt24
  /-- What its age is weighed by when it comes to evicting. -/
  priority : UInt8
  deriving DecidableEq, Repr

/-- `IndexMap`. -/
abbrev Index := AList fun _ : Key => IndexValue

/-- An entry of the index, as iteration yields it. -/
abbrev IndexItem := Sigma fun _ : Key => IndexValue

/-- The unspecified order in which an `unordered_map` is iterated. -/
structure IterationOrder where
  /-- The order in which the entries come. -/
  arrange : List IndexItem → List IndexItem
  /-- Each comes once. -/
  perm : ∀ l, (arrange l).Perm l

/-- The order in which the entries were last written. -/
def IterationOrder.recent : IterationOrder := ⟨id, fun _ => .rfl⟩

/-! ## File names -/

/-- `USTORE_MAX_FILENAME_LEN`. -/
def maxFilenameLen : Nat := 64

/-- The files a store keeps under its prefix. -/
inductive StoreFile
  | segment (id : Nat)
  | index
  | journal
  | tmp
  deriving DecidableEq, Repr

/-- What the `snprintf` formats put after the prefix and the separator. -/
def StoreFile.suffix : StoreFile → Path
  | .segment id => ['s', 'e', 'g'] ++ (Nat.toDigits 10 id ++ ['.', 'd', 'a', 't'])
  | .index => ['i', 'n', 'd', 'e', 'x', '.', 'd', 'a', 't']
  | .journal => ['j', 'o', 'u', 'r', 'n', 'a', 'l', '.', 'd', 'a', 't']
  | .tmp => ['c', 'o', 'm', 'p', 'a', 'c', 't', '.', 't', 'm', 'p']

/-- `prefix_sep`: nothing in directory mode, an underscore otherwise. -/
def prefixSep (pre : Path) : Path := if pre.getLast? = some '/' then [] else ['_']

/-- The name of a store file, cut to what fits the `char[USTORE_MAX_FILENAME_LEN]` it is printed
into. -/
def storePath (pre : Path) (f : StoreFile) : Path :=
  (pre ++ (prefixSep pre ++ f.suffix)).take (maxFilenameLen - 1)

/-! ## The store -/

/-- `USTORE_WRITE_BUFFER_SIZE`. -/
def writeBufferSize : Nat := 512

/-- `USTORE_COMPACT_RETRY_MS`. -/
def compactRetryMs : Nat := 60000

/-- `USTORE_COMPACT_THRESHOLD`. -/
def compactThreshold : Nat := 25

/-- The members of a `BasicFileStore`.  `writeBuf` is the part of the write buffer in use, so its
length is `write_buf_pos`. -/
structure Store where
  /-- Has `_filesystem` been set by `init`? -/
  valid : Bool
  /-- `base_prefix`: what the file names start with. -/
  basePrefix : Path
  /-- `_segment_size`: the size at which a segment is full. -/
  segmentSize : UInt32
  /-- `_segment_count`: how many segments there may be. -/
  segmentCount : UInt8
  /-- `active_file`: the segment that is written to. -/
  activeFile : File
  /-- `index_file`: the index file, open for appending. -/
  indexFile : File
  /-- `current_segment`: the number of the active segment. -/
  currentSegment : Nat
  /-- `current_offset`: where the next record goes. -/
  currentOffset : Nat
  /-- `compact_in_cooldown`: has an attempt failed? -/
  compactInCooldown : Bool
  /-- `compact_cooldown_start_ms`: when that was. -/
  compactCooldownStartMs : UInt32
  /-- `_dead_since_compact`: how many records have died since the last compaction. -/
  deadSinceCompact : Nat
  /-- `policy_ttl_secs`: the TTL of records without one of their own. -/
  policyTtlSecs : UInt32
  /-- `policy_max_recs`: the limit on the records, or zero for none. -/
  policyMaxRecs : UInt32
  /-- `write_buf`, up to `write_buf_pos`. -/
  writeBuf : Bytes
  /-- `_index`: where the record of each key is. -/
  index : Index
  /-- The order in which `_index` is iterated. -/
  order : IterationOrder

/-- The clock readings an operation takes: `time()`, and `millis()` before and after a compaction
attempt. -/
structure Clock where
  /-- `time()`, in seconds. -/
  time : UInt32
  /-- `millis()`, before a compaction. -/
  millis : UInt32
  /-- `millis()`, after it. -/
  millisAfter : UInt32
  deriving DecidableEq, Repr

namespace Store

/-- The constructor. -/
def new (segmentSize : UInt32) (segmentCount : UInt8) (order : IterationOrder) : Store where
  valid := false
  basePrefix := []
  segmentSize := segmentSize
  segmentCount := segmentCount
  activeFile := none
  indexFile := none
  currentSegment := 0
  currentOffset := 0
  compactInCooldown := false
  compactCooldownStartMs := 0
  deadSinceCompact := 0
  policyTtlSecs := 0
  policyMaxRecs := 0
  writeBuf := []
  index := ∅
  order := order

/-- `set_ttl_secs`. -/
def setTtlSecs (st : Store) (ttl : UInt32) : Store := { st with policyTtlSecs := ttl }

/-- `set_max_recs`. -/
def setMaxRecs (st : Store) (maxRecs : UInt32) : Store := { st with policyMaxRecs := maxRecs }

/-- The entries of the index in iteration order. -/
def items (st : Store) : List IndexItem := st.order.arrange st.index.entries

/-- `_index.size()`. -/
def indexSize (st : Store) : Nat := st.index.keys.length

/-- `segment_count` as a number. -/
def count (st : Store) : Nat := st.segmentCount.toNat

/-- `segment_name`. -/
abbrev segmentName (st : Store) (id : Nat) : Path := storePath st.basePrefix (.segment id)

/-- `index_name`. -/
abbrev indexName (st : Store) : Path := storePath st.basePrefix .index

/-- `journal_name`. -/
abbrev journalName (st : Store) : Path := storePath st.basePrefix .journal

/-- `tmp_name`. -/
abbrev tmpName (st : Store) : Path := storePath st.basePrefix .tmp

end Store

end MicroStore
