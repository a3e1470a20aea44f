import MicroStore.FileStore.Compaction

/-!
# The operations of a file store

`FileStore.h`, the public half: `init`, `close`, `clear`, `put`, `get`, `remove`, `exists`, `size`
and iteration.

## What is here

* opening and closing.  `Store.init` sets the configuration (`Store.configured`) and then works on the
  files (`Store.initFiles`), which recovers, loads or rebuilds the index (`Store.initIndex`) and goes on in
  the highest segment it finds;
* `Store.put` and `Store.remove`.  A removal writes a header whose `ttl` and `priority` the source leaves
  uninitialised, so what they hold is an argument;
* `Store.get`, with the buffer of the caller and its size, and `Store.getValue`, the overload that reads
  into a vector;
* `Store.exists`, `Store.size` and a whole pass of the iterator (`Store.iterate`), whose reads are not
  checked: a file that ends early leaves zeros.

The overloads that take C strings and vectors pass their arguments on and are in `Overloads.lean`.
-/

set_option autoImplicit false

namespace MicroStore

namespace Store

/-! ## Opening and closing -/

/-- `close`. -/
def close (st : Store) : FsM Store := do
  let (_, st) ← st.flushBuffer
  closeFile st.indexFile
  closeFile st.activeFile
  pure { st with indexFile := none, activeFile := none }

/-- `clear`. -/
def clear (st : Store) : FsM Store := do
  if !st.valid then pure st
  else
    let (_, st) ← st.flushBuffer
    let indexOpen := st.indexFile.isSome
    closeFile st.indexFile
    let activeOpen := st.activeFile.isSome
    closeFile st.activeFile
    let st := { st with indexFile := none, activeFile := none }
    st.removeSegments st.count 0
    let _ ← removeFile st.indexName
    let st := { st with
      index := ∅
      deadSinceCompact := 0
      currentSegment := 0
      currentOffset := 0
      writeBuf := [] }
    let st ← if indexOpen then st.openIndexForAppend else pure st
    let (_, st) ← if activeOpen then st.openSegment 0 else pure (true, st)
    pure st

/-- The loop of `init` that looks for the highest segment on disk, with `n` segments to go from `i`
on. -/
def resumeLoop (st : Store) : Nat → Nat → Nat → FsM Nat
  | 0, _, resumeSeg => pure resumeSeg
  | n + 1, i, resumeSeg => do
    match ← openFile (st.segmentName i) .read with
    | none => resumeLoop st n (i + 1) resumeSeg
    | some f =>
      f.close
      resumeLoop st n (i + 1) i

/-- `init`. -/
def init (st : Store) (pre : Path) (clearOnInit : Bool) (segmentSize : UInt32)
    (segmentCount : UInt8) : FsM (Bool × Store) := do
  let st := { st with
    segmentSize := if segmentSize ≠ 0 then segmentSize else st.segmentSize
    segmentCount := if segmentCount ≠ 0 then segmentCount else st.segmentCount
    valid := true
    basePrefix := pre.take (maxFilenameLen - 1) }
  let _ ← if st.basePrefix.getLast? = some '/' then makeDir st.basePrefix.dropLast else pure true
  let st ← if clearOnInit then st.clear else pure st
  let st ← st.recoverIfNeeded
  let (loaded, st) ← st.loadIndex
  let st ← if loaded then pure st else st.rebuildIndexFromSegments
  let (pruned, st) := st.pruneIndexToMaxRecs
  if 0 < pruned then
    let _ ← removeFile st.indexName
    let _ ← st.writeIndexBulk
    pure ()
  let st ← st.openIndexForAppend
  let resumeSeg ← st.resumeLoop st.count 0 0
  let (_, st) ← st.openSegment resumeSeg
  pure (true, st)

/-! ## Writing -/

/-- `_dead_since_compact++` when the key is in the index. -/
def countDead (st : Store) (key : Key) : Store :=
  if (st.indexFind key).isSome then
    { st with deadSinceCompact := wrap32 (st.deadSinceCompact + 1) }
  else st

end Store

/-- The header `put` writes, with its checksum. -/
def putHeader (key data : Buf) (ttl ts : UInt32) (priority : UInt8) : RecordHeader :=
  let hdr : RecordHeader :=
    { magic := magicRecord
      flags := 0
      keyLen := UInt8.ofNat key.bytes.length
      length := UInt16.ofNat data.bytes.length
      timestamp := ts
      ttl := ttl
      priority := priority
      crc := 0 }
  let crc := crc32 0 (.at (hdr.encode.take (headerSize - 4)))
  let crc := crc32 crc key
  let crc := crc32 crc data
  { hdr with crc := crc }

/-- The header `remove` writes.  The source leaves its `ttl` and `priority` uninitialised, so they
hold whatever `ttl` and `priority` say. -/
def removeHeader (key : Buf) (ttl : UInt32) (priority : UInt8) : RecordHeader :=
  let hdr : RecordHeader :=
    { magic := magicRecord
      flags := flagDelete
      keyLen := UInt8.ofNat key.bytes.length
      length := 0
      timestamp := 0
      ttl := ttl
      priority := priority
      crc := 0 }
  let crc := crc32 0 (.at (hdr.encode.take (headerSize - 4)))
  let crc := crc32 crc key
  { hdr with crc := crc }

namespace Store

/-- `put`. -/
def put (st : Store) (clk : Clock) (key data : Buf) (ttl ts : UInt32) (priority : UInt8) :
    FsM (Bool × Store) := do
  if !st.valid then pure (false, st)
  else if maxKeyLen < key.bytes.length then pure (false, st)
  else if maxValueLen < data.bytes.length then pure (false, st)
  else
    let (_, st) ← st.rotateSegmentIfNeeded clk data.bytes.length
    let hdr := putHeader key data ttl ts priority
    let offset := st.currentOffset
    let st ← st.appendBuffer hdr.encode
    let st ← st.appendBuffer key.bytes
    let st ← st.appendBuffer data.bytes
    let st ← st.appendBuffer commitBytes
    let (flushed, st) ← st.flushBuffer
    if !flushed then pure (false, st)
    else
      let st := st.countDead key.bytes
      let st := st.indexInsert key.bytes st.currentSegment offset ts ttl.toNat priority
      let st := if st.policyMaxRecs.toNat > 0 ∧ st.indexSize > st.policyMaxRecs.toNat then
          st.pruneIndexToMaxRecs.2
        else st
      let (_, st) ← st.persistIndexEntry key.bytes st.currentSegment offset ts.toNat ttl.toNat
        priority
      let st := { st with
        currentOffset := wrap32 (st.currentOffset + headerSize + key.bytes.length
          + data.bytes.length + commitSize) }
      let st ← st.compactIfThreshold clk.time
      pure (true, st)

/-- `remove`.  `junkTtl` and `junkPriority` are what the header's uninitialised fields hold. -/
def remove (st : Store) (clk : Clock) (key : Buf) (junkTtl : UInt32) (junkPriority : UInt8) :
    FsM (Bool × Store) := do
  if !st.valid then pure (false, st)
  else if maxKeyLen < key.bytes.length then pure (false, st)
  else
    let hdr := removeHeader key junkTtl junkPriority
    let st ← st.appendBuffer hdr.encode
    let st ← st.appendBuffer key.bytes
    let st ← st.appendBuffer commitBytes
    let (_, st) ← st.flushBuffer
    let st := st.countDead key.bytes
    let st := st.indexRemove key.bytes
    let (_, st) ← st.persistIndexEntry key.bytes deletedSeg 0 0 0 0
    let st := { st with
      currentOffset := wrap32 (st.currentOffset + headerSize + key.bytes.length + commitSize) }
    let st ← st.compactIfThreshold clk.time
    pure (true, st)

/-! ## Reading -/

/-- The part of `get` after the lookup: what it reads at an index entry.  `out` says whether the
caller passed a buffer, `size` is the room in it.  The answer is the bytes stored in the buffer and
the length of the value. -/
def getAt (st : Store) (e : IndexValue) (out : Bool) (size : Nat) : FsM (Option (Bytes × Nat)) := do
  match ← openFile (st.segmentName e.segment.toNat) .read with
  | none => pure none
  | some f =>
    let f ← f.seek e.offset.toNat .set
    let (h, f) ← f.readBytes headerSize
    if h.length ≠ headerSize then
      f.close
      pure none
    else
    let hdr := RecordHeader.decode h
    if hdr.magic ≠ magicRecord ∨ maxKeyLen < hdr.keyLen.toNat ∨ maxValueLen < hdr.length.toNat then
      f.close
      pure none
    else if !out then
      f.close
      pure (some ([], hdr.length.toNat))
    else
    let f ← f.seek (e.offset.toNat + headerSize + hdr.keyLen.toNat) .set
    let n := min hdr.length.toNat size
    let (val, f) ← f.readBytes n
    if val.length ≠ n then
      f.close
      pure none
    else
      f.close
      pure (some (val, hdr.length.toNat))

/-- `get` with a buffer of `size` bytes (or none, when `out` is false). -/
def get (st : Store) (clk : Clock) (key : Buf) (out : Bool) (size : Nat) :
    FsM (Option (Bytes × Nat) × Store) := do
  if !st.valid then pure (none, st)
  else if maxKeyLen < key.bytes.length then pure (none, st)
  else
    let (_, st) ← st.flushBuffer
    match st.indexFind key.bytes with
    | none => pure (none, st)
    | some e =>
      if st.isTtlExpired clk.time e.timestamp e.ttl.toNat then
        pure (none, st.indexRemove key.bytes)
      else
        let r ← st.getAt e out size
        pure (r, st)

/-- `get` into a vector: a buffer of `USTORE_MAX_VALUE_LEN` bytes, cut to the length of the value
afterwards. -/
def getValue (st : Store) (clk : Clock) (key : Buf) : FsM (Option Value × Store) := do
  let (r, st) ← st.get clk key true maxValueLen
  pure (r.map fun r => r.1.take r.2, st)

/-- `exists`. -/
def «exists» (st : Store) (clk : Clock) (key : Buf) : Bool × Store :=
  if !st.valid then (false, st)
  else if maxKeyLen < key.bytes.length then (false, st)
  else
    match st.indexFind key.bytes with
    | none => (false, st)
    | some e =>
      if st.isTtlExpired clk.time e.timestamp e.ttl.toNat then (false, st.indexRemove key.bytes)
      else (true, st)

/-- `size`. -/
def size (st : Store) : Nat := if !st.valid then 0 else st.indexSize

end Store

/-- `Entry`, as iteration yields it. -/
structure Entry where
  /-- The key. -/
  key : Key
  /-- Its value. -/
  value : Value
  /-- The timestamp of the record. -/
  timestamp : UInt32
  /-- Its own TTL, or zero. -/
  ttl : Nat
  deriving DecidableEq, Repr

namespace Store

/-- `iterator::load_value`.  None of the reads is checked: a file that ends early leaves the rest of
the header as it was (zeros, here) and the rest of the value zero. -/
def loadValue (st : Store) (v : IndexValue) : FsM Value := do
  match ← openFile (st.segmentName v.segment.toNat) .read with
  | none => pure []
  | some f =>
    let f ← f.seek v.offset.toNat .set
    let (h, f) ← f.readBytes headerSize
    let hdr := RecordHeader.decode h
    let f ← f.seek (v.offset.toNat + headerSize + hdr.keyLen.toNat) .set
    let (val, f) ← if hdr.length ≠ 0 then f.readBytes hdr.length.toNat else pure ([], f)
    f.close
    pure (val ++ List.replicate (hdr.length.toNat - val.length) 0)

/-- The body of a loop over the store that dereferences every iterator. -/
def iterateLoop (st : Store) : List IndexItem → FsM (List Entry)
  | [] => pure []
  | ⟨key, v⟩ :: rest => do
    let value ← st.loadValue v
    let entries ← st.iterateLoop rest
    pure (⟨key, value, v.timestamp, v.ttl.toNat⟩ :: entries)

/-- A full iteration, from `begin()` to `end()`. -/
def iterate (st : Store) : FsM (List Entry × Store) := do
  let (_, st) ← st.flushBuffer
  let entries ← st.iterateLoop st.items
  pure (entries, st)

end Store

end MicroStore
