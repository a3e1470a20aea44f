import MicroStore.FileStore.Buffer
import Mathlib.Data.List.Sort

/-!
# Policies, journal, recovery and compaction

`FileStore.h`, from `is_ttl_expired_` to `prune_index_to_max_recs_` and from
`rotate_segment_if_needed` to `compact`.

The scan loops of `finalize_compaction` and `rebuild_index_from_segments` are one loop: they
differ in the segment they record and in what they do with a tombstone, which the first ignores and
the second obeys.

## What is here

* `Store.isTtlExpired` and `evictsBefore`, the two policies, in the 32-bit arithmetic of the source;
* `Store.pruneIndexToMaxRecs`, which evicts by a scan when one entry has to go and by a partial sort when
  several have to;
* `Store.writeJournal` and `Store.clearJournal`;
* `scanLoop` and what is built on it: `Store.finalizeCompaction`, `Store.rebuildIndexFromSegments`;
* `Store.recoverIfNeeded`, what `init` does with a journal it finds;
* `Store.compact` with its two loops, over the segments and over the live records of one, and its two
  callers `Store.compactIfThreshold` and `Store.rotateSegmentIfNeeded`.

Every error path of the source is a branch here: a `compact.tmp` that cannot be opened, a write that falls
short, a rename that fails.
-/

set_option autoImplicit false

namespace MicroStore

namespace Store

/-! ## Policies -/

/-- `is_ttl_expired_`. -/
def isTtlExpired (st : Store) (now ts : UInt32) (recordTtl : Nat) : Bool :=
  let effectiveTtl := if 0 < recordTtl then recordTtl else st.policyTtlSecs.toNat
  decide (0 < effectiveTtl ∧ ts < now ∧ effectiveTtl ≤ (now - ts).toNat)

end Store

/-- The penalty of the `evicts_before` comparison, in 32-bit arithmetic. -/
def ttlPenalty (priority : UInt8) (ttl : UInt32) : UInt32 :=
  ttl / (priority.toUInt32 + 3) * priority.toUInt32 * 10

/-- The `evicts_before` comparison. -/
def evictsBefore (aPriority : UInt8) (aTs aTtl : UInt32) (bPriority : UInt8)
    (bTs bTtl : UInt32) : Bool :=
  decide (aTs.toNat + (ttlPenalty bPriority bTtl).toNat
    < bTs.toNat + (ttlPenalty aPriority aTtl).toNat)

namespace Store

/-- The effective TTL eviction ranks an entry by. -/
def effectiveTtl (st : Store) (v : IndexValue) : UInt32 :=
  if 0 < v.ttl.toNat then UInt32.ofNat v.ttl.toNat else st.policyTtlSecs

/-- `evicts_before` on index entries. -/
def itemEvictsBefore (st : Store) (a b : IndexItem) : Bool :=
  evictsBefore a.2.priority a.2.timestamp (st.effectiveTtl a.2) b.2.priority b.2.timestamp
    (st.effectiveTtl b.2)

/-- `prune_index_to_max_recs_`: a scan for the first entry to evict when one has to go, a partial
sort when several have to. -/
def pruneIndexToMaxRecs (st : Store) : Nat × Store :=
  let maxRecs := st.policyMaxRecs.toNat
  if maxRecs = 0 ∨ st.indexSize ≤ maxRecs then (0, st)
  else
    let toEvict := st.indexSize - maxRecs
    let evicted : List IndexItem :=
      if toEvict = 1 then
        match st.items with
        | [] => []
        | first :: rest =>
          [rest.foldl (fun evict it => if st.itemEvictsBefore it evict then it else evict) first]
      else
        (st.items.insertionSort fun a b => !st.itemEvictsBefore b a).take toEvict
    let index := evicted.foldl (fun idx it => idx.erase it.1) st.index
    (toEvict, { st with index := index, deadSinceCompact := wrap32 (st.deadSinceCompact + toEvict) })

/-! ## The journal -/

/-- `write_journal`. -/
def writeJournal (st : Store) (state : JournalState) (nextSeg tmpValidSize : Nat) : FsM Unit := do
  match ← openFile st.journalName .write with
  | none => pure ()
  | some f =>
    let j : Journal := ⟨journalMagic, UInt32.ofNat state.code, UInt32.ofNat nextSeg,
      UInt32.ofNat tmpValidSize⟩
    let (_, f) ← f.writeBytes j.encode
    f.flush
    f.close

/-- `clear_journal`. -/
def clearJournal (st : Store) : FsM Unit := do
  let _ ← removeFile st.journalName
  pure ()

end Store

/-! ## Scanning a segment -/

/-- The `while (true)` loop over the records of a segment.  `onDelete` is what a tombstone does to
the index, `seg` the segment the records are recorded under. -/
def scanLoop (onDelete : Key → Index → Index) (seg : Nat) :
    Nat → Handle → Nat → Index → FsM (Handle × Index)
  | 0, f, _, idx => pure (f, idx)
  | fuel + 1, f, scanOffset, idx => do
    let (h, f) ← f.readBytes headerSize
    if h.length ≠ headerSize then pure (f, idx) else
    let hdr := RecordHeader.decode h
    if hdr.magic ≠ magicRecord ∨ hdr.keyLen = 0 ∨ maxKeyLen < hdr.keyLen.toNat
      ∨ maxValueLen < hdr.length.toNat then pure (f, idx) else
    let (key, f) ← f.readBytes hdr.keyLen.toNat
    if key.length ≠ hdr.keyLen.toNat then pure (f, idx) else
    let f ← f.seek (wrap32 (scanOffset + headerSize + hdr.keyLen.toNat + hdr.length.toNat)) .set
    let (c, f) ← f.readBytes commitSize
    if c.length ≠ commitSize then pure (f, idx) else
    if commitMagic c ≠ magicCommit then pure (f, idx) else
    let idx := if hdr.flags &&& flagDelete ≠ 0 then onDelete key idx
      else idx.insert key
        (indexValue seg scanOffset hdr.timestamp hdr.ttl.toNat hdr.priority)
    let scanOffset :=
      wrap32 (scanOffset + headerSize + hdr.keyLen.toNat + hdr.length.toNat + commitSize)
    scanLoop onDelete seg fuel f scanOffset idx

namespace Store

/-- Remove the files of the segments `i, …, i + n - 1`. -/
def removeSegments (st : Store) : Nat → Nat → FsM Unit
  | 0, _ => pure ()
  | n + 1, i => do
    let _ ← removeFile (st.segmentName i)
    removeSegments st n (i + 1)

/-- `finalize_compaction`. -/
def finalizeCompaction (st : Store) : FsM Store := do
  st.removeSegments st.count 0
  let renamed ← renameFile st.tmpName (st.segmentName 0)
  if !renamed then
    let _ ← removeFile st.tmpName
    pure st
  else
    let st := { st with index := ∅ }
    let st ← match ← openFile (st.segmentName 0) .read with
      | none => pure st
      | some f => do
        let (f, idx) ← scanLoop (fun _ idx => idx) 0 loopFuel f 0 st.index
        f.close
        pure { st with index := idx }
    closeFile st.indexFile
    let _ ← removeFile st.indexName
    let _ ← st.writeIndexBulk
    let st ← st.openIndexForAppend
    pure { st with currentSegment := 0 }

/-- The segment loop of `rebuild_index_from_segments`, with `n` segments to go from `seg` on. -/
def rebuildLoop (st : Store) : Nat → Nat → Index → FsM Index
  | 0, _, idx => pure idx
  | n + 1, seg, idx => do
    match ← openFile (st.segmentName seg) .read with
    | none => rebuildLoop st n (seg + 1) idx
    | some f =>
      let (f, idx) ← scanLoop (fun key idx => idx.erase key) seg loopFuel f 0 idx
      f.close
      rebuildLoop st n (seg + 1) idx

/-- `rebuild_index_from_segments`. -/
def rebuildIndexFromSegments (st : Store) : FsM Store := do
  let idx ← st.rebuildLoop st.count 0 ∅
  let st := { st with index := idx }
  closeFile st.indexFile
  let _ ← removeFile st.indexName
  let _ ← st.writeIndexBulk
  pure { st with indexFile := none }

/-- `recover_if_needed`. -/
def recoverIfNeeded (st : Store) : FsM Store := do
  match ← openFile st.journalName .read with
  | none => pure st
  | some f =>
    let (bs, f) ← f.readBytes Journal.size
    f.close
    let j := Journal.decode bs
    if bs.length ≠ Journal.size ∨ j.magic ≠ journalMagic then
      let _ ← removeFile st.journalName
      pure st
    else if j.state.toNat = JournalState.commit.code then
      let st ← st.finalizeCompaction
      let _ ← removeFile st.journalName
      pure st
    else if j.nextSeg = 0 then
      let _ ← removeFile st.tmpName
      let _ ← removeFile st.journalName
      pure st
    else
      let renamed ← renameFile st.tmpName (st.segmentName 0)
      if !renamed then pure st
      else
        let _ ← removeFile st.journalName
        pure st

/-! ## Compaction -/

/-- The offsets of the live records of segment `s`, sorted. -/
def liveOffsets (st : Store) (now : UInt32) (s : Nat) : List Nat :=
  ((st.items.filter fun it => it.2.segment.toNat = s &&
    !st.isTtlExpired now it.2.timestamp it.2.ttl.toNat).map fun it => it.2.offset.toNat).insertionSort
      (· ≤ ·)

end Store

/-- The record loop of `compact`: copy the records at these offsets of `src` to `outf`.  A record
that cannot be read is skipped; a write that falls short ends the loop. -/
def copyRecords : List Nat → Handle → Handle → FsM (Bool × Handle × Handle)
  | [], src, outf => pure (true, src, outf)
  | off :: offsets, src, outf => do
    let src ← src.seek off .set
    let (h, src) ← src.readBytes headerSize
    if h.length ≠ headerSize then copyRecords offsets src outf else
    let hdr := RecordHeader.decode h
    if hdr.magic ≠ magicRecord ∨ maxKeyLen < hdr.keyLen.toNat ∨ maxValueLen < hdr.length.toNat then
      copyRecords offsets src outf
    else
    let (key, src) ← src.readBytes hdr.keyLen.toNat
    if key.length ≠ hdr.keyLen.toNat then copyRecords offsets src outf else
    let (val, src) ← if hdr.length ≠ 0 then src.readBytes hdr.length.toNat else pure ([], src)
    if val.length ≠ hdr.length.toNat then copyRecords offsets src outf else
    let expected := headerSize + hdr.keyLen.toNat + hdr.length.toNat + commitSize
    let (written, outf) ← outf.writeAll
      ([hdr.encode, key] ++ (if hdr.length ≠ 0 then [val] else []) ++ [commitBytes])
    if written ≠ expected then pure (false, src, outf) else copyRecords offsets src outf

namespace Store

/-- The segment loop of `compact`, with `n` segments to go from `s` on.  It returns `write_ok` and
the number of segments committed, which the loop counts in step with `s`. -/
def compactLoop (st : Store) (now : UInt32) : Nat → Nat → Handle → FsM (Bool × Nat × Handle)
  | 0, s, outf => pure (true, s, outf)
  | n + 1, s, outf => do
    let offsets := st.liveOffsets now s
    let (writeOk, outf) ←
      if offsets.isEmpty then pure (true, outf)
      else match ← openFile (st.segmentName s) .read with
        | none => pure (true, outf)
        | some src => do
          let (writeOk, src, outf) ← copyRecords offsets src outf
          src.close
          pure (writeOk, outf)
    if !writeOk then pure (false, s, outf)
    else
      -- the journal is written before the source segment goes
      outf.flush
      let validSize ← outf.tell
      st.writeJournal .compacting (s + 1) validSize
      let _ ← removeFile (st.segmentName s)
      compactLoop st now n (s + 1) outf

/-- `compact`. -/
def compact (st : Store) (now : UInt32) : FsM (Bool × Store) := do
  st.writeJournal .compacting 0 0
  match ← openFile st.tmpName .write with
  | none =>
    st.clearJournal
    pure (false, st)
  | some outf =>
    let (_, st) := st.pruneIndexToMaxRecs
    let (writeOk, committedSegs, outf) ← st.compactLoop now st.count 0 outf
    outf.flush
    outf.close
    if !writeOk then
      if committedSegs = 0 then
        let _ ← removeFile st.tmpName
        st.clearJournal
        pure (false, st)
      else pure (false, st)
    else
      st.writeJournal .commit 0 0
      let st ← st.finalizeCompaction
      st.clearJournal
      pure (true, { st with deadSinceCompact := 0 })

/-- `compact_if_threshold`. -/
def compactIfThreshold (st : Store) (now : UInt32) : FsM Store := do
  let total := wrap32 (st.indexSize + st.deadSinceCompact)
  if 0 < total ∧ compactThreshold ≤ wrap32 (st.deadSinceCompact * 100) / total then
    let (ok, st) ← st.compact now
    if ok then
      let st := { st with currentSegment := 1 }
      let (_, st) ← st.openSegment st.currentSegment
      pure st
    else pure st
  else pure st

/-- `_segment_count - 1`, as a `uint32_t`. -/
def lastSegment (st : Store) : Nat := wrap32 (st.count + (2 ^ 32 - 1))

/-- `rotate_segment_if_needed`. -/
def rotateSegmentIfNeeded (st : Store) (clk : Clock) (writeSize : Nat) : FsM (Bool × Store) := do
  if wrap32 (st.currentOffset + writeSize) + headerSize + commitSize < st.segmentSize.toNat then
    pure (true, st)
  else
    let (_, st) ← st.flushBuffer
    closeFile st.activeFile
    let st := { st with activeFile := none, currentSegment := wrap32 (st.currentSegment + 1) }
    if st.currentSegment < st.count then
      let (_, st) ← st.openSegment st.currentSegment
      pure (true, st)
    else if st.compactInCooldown ∧
        (clk.millis - st.compactCooldownStartMs).toNat < compactRetryMs then
      let st := { st with currentSegment := st.lastSegment }
      let (_, st) ← st.openSegment st.currentSegment
      pure (false, st)
    else
      let (ok, st) ← st.compact clk.time
      if !ok then
        let st := { st with
          compactInCooldown := true
          compactCooldownStartMs := clk.millisAfter
          currentSegment := st.lastSegment }
        let (_, st) ← st.openSegment st.currentSegment
        pure (false, st)
      else
        let st := { st with compactInCooldown := false, currentSegment := 1 }
        let (_, st) ← st.openSegment st.currentSegment
        pure (true, st)

end Store

end MicroStore
