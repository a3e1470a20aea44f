import MicroStore.FileStore.State

/-!
# Buffered writes, the index and the index file

`FileStore.h`, from `append_buffer` to `open_segment`: the write buffer in front of the active
segment, the operations on the in-memory index, the log of index entries in the index file, and the
opening of files.

The members are passed along explicitly: a function that changes the store takes it and returns the
new one.  A `while (true)` loop that reads a file to its end runs on a supply of `loopFuel` rounds,
more than there are positions in any file a `uint32_t` offset can address.

## What is here

* the calls of `File` as programs (`Handle.readBytes`, `Handle.writeBytes` and so on), each of which
  answers the handle with its new position;
* `Store.appendBuffer` and `Store.flushBuffer`, where the count a write returns is dropped as in the
  source;
* `Store.indexInsert` and the other accesses of the index;
* `Store.persistIndexEntry`, `Store.writeIndexBulk` and `Store.loadIndex`, the three functions that write
  and read the index file;
* `Store.openSegment`, which makes a segment the active one.
-/

set_option autoImplicit false

namespace MicroStore

/-! ## Calls on open files -/

/-- Make a filesystem call. -/
def call (c : Call) : FsM c.Reply := Prog.perform c

namespace Handle

/-- `File::read`: the bytes transferred, at most `n`. -/
def readBytes (f : Handle) (n : Nat) : FsM (Bytes × Handle) := call (.read f n)

/-- `File::write`: the number of bytes transferred. -/
def writeBytes (f : Handle) (bs : Bytes) : FsM (Nat × Handle) := call (.write f bs)

/-- `File::seek`. -/
def seek (f : Handle) (pos : Nat) (mode : SeekMode) : FsM Handle := call (.seek f pos mode)

/-- `File::tell`. -/
def tell (f : Handle) : FsM Nat := call (.tell f)

/-- `File::flush`. -/
def flush (f : Handle) : FsM Unit := call (.flush f)

/-- `File::close`. -/
def close (f : Handle) : FsM Unit := call (.close f)

/-- Several writes in a row, and the sum of the bytes they transferred. -/
def writeAll (f : Handle) : List Bytes → FsM (Nat × Handle)
  | [] => pure (0, f)
  | bs :: rest => do
    let (n, f) ← f.writeBytes bs
    let (m, f) ← f.writeAll rest
    pure (n + m, f)

end Handle

/-- `FileSystem::open`. -/
def openFile (p : Path) (mode : Mode) : FsM File := call (.open p mode)

/-- `FileSystem::remove`. -/
def removeFile (p : Path) : FsM Bool := call (.remove p)

/-- `FileSystem::rename`. -/
def renameFile (src dst : Path) : FsM Bool := call (.rename src dst)

/-- `FileSystem::mkdir`. -/
def makeDir (p : Path) : FsM Bool := call (.mkdir p)

/-- `if (file) file.close()`. -/
def closeFile : File → FsM Unit
  | none => pure ()
  | some f => f.close

/-- The rounds a reading loop may take. -/
def loopFuel : Nat := 2 ^ 32

/-- The wrap-around of `uint32_t`. -/
def wrap32 (n : Nat) : Nat := n % 2 ^ 32

namespace Store

/-! ## The write buffer -/

/-- `flush_buffer`.  The count the write returns is not looked at. -/
def flushBuffer (st : Store) : FsM (Bool × Store) :=
  if st.writeBuf = [] then pure (true, st)
  else
    match st.activeFile with
    | none => pure (false, { st with writeBuf := [] })
    | some f => do
      let (_, f) ← f.writeBytes st.writeBuf
      f.flush
      pure (true, { st with activeFile := some f, writeBuf := [] })

/-- The loop of `append_buffer`, with as many rounds to go as there are bytes left at most. -/
def appendLoop : Nat → Store → Bytes → FsM Store
  | 0, st, _ => pure st
  | fuel + 1, st, data =>
    if data = [] then pure st
    else do
      let space := writeBufferSize - st.writeBuf.length
      let n := if data.length < space then data.length else space
      let st := { st with writeBuf := st.writeBuf ++ data.take n }
      let (_, st) ← if st.writeBuf.length = writeBufferSize then st.flushBuffer else pure (true, st)
      appendLoop fuel st (data.drop n)

/-- `append_buffer`. -/
def appendBuffer (st : Store) (data : Bytes) : FsM Store := appendLoop data.length st data

/-! ## The index -/

/-- `index_find`. -/
def indexFind (st : Store) (key : Key) : Option IndexValue := st.index.lookup key

end Store

/-- The assignments of `index_insert`: every field is cut to the width it is kept in. -/
def indexValue (seg off : Nat) (ts : UInt32) (ttl : Nat) (priority : UInt8) : IndexValue where
  segment := UInt8.ofNat seg
  offset := UInt24.ofNat off
  timestamp := ts
  ttl := UInt24.ofNat ttl
  priority := priority

namespace Store

/-- `index_insert`. -/
def indexInsert (st : Store) (key : Key) (seg off : Nat) (ts : UInt32) (ttl : Nat)
    (priority : UInt8) : Store :=
  { st with index := st.index.insert key (indexValue seg off ts ttl priority) }

/-- `index_remove`. -/
def indexRemove (st : Store) (key : Key) : Store := { st with index := st.index.erase key }

end Store

/-! ## The index file -/

/-- The writes that make up one entry of the index file. -/
def entryFields (key : Key) (seg off ts ttl : Nat) (priority : UInt8) : List Bytes :=
  [[UInt8.ofNat key.length], key, toLE 4 seg, toLE 4 off, toLE 4 ts, toLE 4 ttl, [priority]]

/-- The `seg` of an entry that deletes its key. -/
def deletedSeg : Nat := 0xFFFFFFFF

namespace Store

/-- `persist_index_entry`. -/
def persistIndexEntry (st : Store) (key : Key) (seg off ts ttl : Nat) (priority : UInt8) :
    FsM (Bool × Store) :=
  match st.indexFile with
  | none => pure (false, st)
  | some f => do
    let (_, f) ← f.writeAll (entryFields key seg off ts ttl priority)
    f.flush
    pure (true, { st with indexFile := some f })

/-- The loop of `write_index_bulk`. -/
def bulkLoop : List IndexItem → Handle → FsM Handle
  | [], f => pure f
  | ⟨key, v⟩ :: rest, f => do
    let (_, f) ← f.writeAll (entryFields key v.segment.toNat v.offset.toNat v.timestamp.toNat
      v.ttl.toNat v.priority)
    bulkLoop rest f

/-- `write_index_bulk`. -/
def writeIndexBulk (st : Store) : FsM Bool := do
  match ← openFile st.indexName .append with
  | none => pure false
  | some f =>
    let f ← bulkLoop st.items f
    f.flush
    f.close
    pure true

/-- The loop of `load_index`. -/
def loadLoop : Nat → Handle → Index → FsM Index
  | 0, _, idx => pure idx
  | fuel + 1, f, idx => do
    let (b, f) ← f.readBytes 1
    if b.length ≠ 1 then pure idx else
    let keyLen := ofLE b
    if maxKeyLen < keyLen then pure idx else
    let (key, f) ← f.readBytes keyLen
    if key.length ≠ keyLen then pure idx else
    let (seg, f) ← f.readBytes 4
    if seg.length ≠ 4 then pure idx else
    let (off, f) ← f.readBytes 4
    if off.length ≠ 4 then pure idx else
    let (ts, f) ← f.readBytes 4
    if ts.length ≠ 4 then pure idx else
    let (ttl, f) ← f.readBytes 4
    if ttl.length ≠ 4 then pure idx else
    let (pri, f) ← f.readBytes 1
    if pri.length ≠ 1 then pure idx else
    if ofLE seg = deletedSeg then loadLoop fuel f (idx.erase key)
    else
      loadLoop fuel f (idx.insert key (indexValue (ofLE seg) (ofLE off) (UInt32.ofNat (ofLE ts))
        (ofLE ttl) (UInt8.ofNat (ofLE pri))))

/-- `load_index`. -/
def loadIndex (st : Store) : FsM (Bool × Store) := do
  match ← openFile st.indexName .read with
  | none => pure (false, st)
  | some f =>
    let idx ← loadLoop loopFuel f st.index
    f.close
    pure (true, { st with index := idx })

/-- `open_index_for_append`. -/
def openIndexForAppend (st : Store) : FsM Store := do
  let f ← openFile st.indexName .append
  pure { st with indexFile := f }

/-! ## Segments -/

/-- `open_segment`. -/
def openSegment (st : Store) (id : Nat) : FsM (Bool × Store) := do
  closeFile st.activeFile
  match ← openFile (st.segmentName id) .readAppend with
  | none => pure (false, { st with activeFile := none })
  | some f =>
    let f ← f.seek 0 .end
    let off ← f.tell
    pure (true, { st with activeFile := some f, currentSegment := id, currentOffset := wrap32 off })

end Store

end MicroStore
