import MicroStore.Library.Lockstep
import MicroStore.Finalizing
import MicroStore.FileStore.Ops

/-!
# Who checks the checksum

Every record carries a CRC, and no reader looks at it.  The scan loops are run here with a list that
records what they insert into the index (`scanLoopLog`, which is `scanLoop` once the list is dropped),
and `frames` is what they take for records: magic, lengths and the commit marker decide.  So a scan
admits intact records only if all frames happen to be intact, and `get` returns the value of an intact
record only if the record at the index entry happens to be (`admits_intact_iff`).

## What is here

* `recordCrc` — the CRC of a record as `put` computes it, over the header without its CRC, the key and
  the value.
* `Admitted` — a place that a scan takes for a record, with the header and the key read there;
  `Admitted.Intact` says that the CRC in the header is that of the record.
* `scanLoopLog`, `Store.rebuildIndexLog`, `Store.finalizeLog` — the scans, with a list of what they
  admit; each is in lockstep with the function of the source.
* `frames` — the frames in the bytes of a segment, by a plain recursion over the bytes.
* `Store.PointsAt`, `Admitted.Accepted` — the place an index entry names, and the checks of `get` there.
* `mem_frames_of_rebuildIndex`, `mem_frames_of_finalize`, `get_isSome_iff` — what the readers admit,
  exactly.
* `admits_intact_iff` — the result, for arbitrary bytes on disk; `admits_flipped` — a record with one
  byte changed, which all three readers admit.
-/

set_option autoImplicit false

namespace MicroStore

/-! ## The checksum of a record

`put` computes it; nothing in the source compares it. -/

/-- The CRC over the header without its `crc` field, the key and the value. -/
def recordCrc (hdr : RecordHeader) (key : Key) (value : Value) : UInt32 :=
  crc32 (crc32 (crc32 0 (.at (hdr.encode.take (headerSize - 4)))) (.at key)) (.at value)

/-- A record that a scan inserts into the index. -/
structure Admitted where
  /-- The segment. -/
  seg : Nat
  /-- The offset of the record. -/
  off : Nat
  /-- The header that was read. -/
  hdr : RecordHeader
  /-- The key that was read. -/
  key : Key
  deriving DecidableEq

/-- The value of the record, in the file it was found in. -/
def Admitted.value (a : Admitted) (file : Bytes) : Value :=
  (file.drop (a.off + headerSize + a.hdr.keyLen.toNat)).take a.hdr.length.toNat

/-- The stored checksum is that of the record. -/
def Admitted.Intact (a : Admitted) (file : Bytes) : Prop :=
  a.hdr.crc = recordCrc a.hdr a.key (a.value file)

instance (a : Admitted) (file : Bytes) : Decidable (a.Intact file) :=
  inferInstanceAs (Decidable (_ = _))

/-! ## The scans, with a list of what they insert -/

/-- `scanLoop`, listing the records it inserts. -/
def scanLoopLog (onDelete : Key → Index → Index) (seg : Nat) :
    Nat → Handle → Nat → Index → List Admitted → FsM ((Handle × Index) × List Admitted)
  | 0, f, _, idx, log => pure ((f, idx), log)
  | fuel + 1, f, scanOffset, idx, log => do
    let (h, f) ← f.readBytes headerSize
    if h.length ≠ headerSize then pure ((f, idx), log) else
    let hdr := RecordHeader.decode h
    if hdr.magic ≠ magicRecord ∨ hdr.keyLen = 0 ∨ maxKeyLen < hdr.keyLen.toNat
      ∨ maxValueLen < hdr.length.toNat then pure ((f, idx), log) else
    let (key, f) ← f.readBytes hdr.keyLen.toNat
    if key.length ≠ hdr.keyLen.toNat then pure ((f, idx), log) else
    let f ← f.seek (wrap32 (scanOffset + headerSize + hdr.keyLen.toNat + hdr.length.toNat)) .set
    let (c, f) ← f.readBytes commitSize
    if c.length ≠ commitSize then pure ((f, idx), log) else
    if commitMagic c ≠ magicCommit then pure ((f, idx), log) else
    let idx' := if hdr.flags &&& flagDelete ≠ 0 then onDelete key idx
      else idx.insert key
        (indexValue seg scanOffset hdr.timestamp hdr.ttl.toNat hdr.priority)
    let log := if hdr.flags &&& flagDelete ≠ 0 then log else log ++ [⟨seg, scanOffset, hdr, key⟩]
    let scanOffset :=
      wrap32 (scanOffset + headerSize + hdr.keyLen.toNat + hdr.length.toNat + commitSize)
    scanLoopLog onDelete seg fuel f scanOffset idx' log

/-- Apart from the list, it is the scan loop. -/
theorem lockstep_scanLoopLog (onDelete : Key → Index → Index) (seg fuel : Nat) (f : Handle) (off : Nat)
    (idx : Index) (log : List Admitted) :
    Prog.Lockstep (fun x y => x.1 = y) (scanLoopLog onDelete seg fuel f off idx log)
      (scanLoop onDelete seg fuel f off idx) := by
  induction fuel generalizing f off idx log with
  | zero => exact .pure rfl
  | succ fuel ih =>
    rw [scanLoop, scanLoopLog]
    refine .seq ?_
    rintro ⟨h, f⟩
    dsimp only
    split
    · exact .pure rfl
    split
    · exact .pure rfl
    refine .seq ?_
    rintro ⟨key, f⟩
    dsimp only
    split
    · exact .pure rfl
    refine .seq fun f => .seq ?_
    rintro ⟨c, f⟩
    dsimp only
    split
    · exact .pure rfl
    split
    · exact .pure rfl
    exact ih _ _ _ _

namespace Store

/-- `rebuildLoop`, listing the records it inserts. -/
def rebuildLoopLog (st : Store) : Nat → Nat → Index → List Admitted → FsM (Index × List Admitted)
  | 0, _, idx, log => pure (idx, log)
  | n + 1, seg, idx, log => do
    match ← openFile (st.segmentName seg) .read with
    | none => rebuildLoopLog st n (seg + 1) idx log
    | some f =>
      let ((f, idx), log) ← scanLoopLog (fun key idx => idx.erase key) seg loopFuel f 0 idx log
      f.close
      rebuildLoopLog st n (seg + 1) idx log

/-- Without the list it is the loop over the segments. -/
theorem lockstep_rebuildLoopLog (st : Store) (n seg : Nat) (idx : Index) (log : List Admitted) :
    Prog.Lockstep (fun x y => x.1 = y) (st.rebuildLoopLog n seg idx log)
      (st.rebuildLoop n seg idx) := by
  induction n generalizing seg idx log with
  | zero => exact .pure rfl
  | succ n ih =>
    rw [rebuildLoopLog, rebuildLoop]
    refine .seq fun f => ?_
    cases f with
    | none => exact ih _ _ _
    | some f =>
      refine (lockstep_scanLoopLog _ seg loopFuel f 0 idx log).bind ?_
      rintro ⟨x, log⟩ y rfl
      exact .seq fun _ => ih _ _ _

/-- `rebuild_index_from_segments`, listing the records it inserts. -/
def rebuildIndexLog (st : Store) : FsM (Store × List Admitted) := do
  let (idx, log) ← st.rebuildLoopLog st.count 0 ∅ []
  let st := { st with index := idx }
  closeFile st.indexFile
  let _ ← removeFile st.indexName
  let _ ← st.writeIndexBulk
  pure ({ st with indexFile := none }, log)

/-- Without the list it is `rebuild_index_from_segments`. -/
theorem lockstep_rebuildIndexLog (st : Store) :
    Prog.Lockstep (fun x y => x.1 = y) st.rebuildIndexLog st.rebuildIndexFromSegments := by
  rw [rebuildIndexLog, rebuildIndexFromSegments]
  refine (lockstep_rebuildLoopLog st st.count 0 ∅ []).bind ?_
  rintro ⟨idx, log⟩ _ rfl
  exact .seq fun _ => .seq fun _ => .seq fun _ => .pure rfl

/-- `finalize_compaction`, listing the records it inserts. -/
def finalizeLog (st : Store) : FsM (Store × List Admitted) := do
  st.removeSegments st.count 0
  let renamed ← renameFile st.tmpName (st.segmentName 0)
  if !renamed then
    let _ ← removeFile st.tmpName
    pure (st, [])
  else
    let st := { st with index := ∅ }
    let (st, log) ← match ← openFile (st.segmentName 0) .read with
      | none => pure (st, [])
      | some f => do
        let ((f, idx), log) ← scanLoopLog (fun _ idx => idx) 0 loopFuel f 0 st.index []
        f.close
        pure ({ st with index := idx }, log)
    closeFile st.indexFile
    let _ ← removeFile st.indexName
    let _ ← st.writeIndexBulk
    let st ← st.openIndexForAppend
    pure ({ st with currentSegment := 0 }, log)

/-- Without the list it is `finalize_compaction`. -/
theorem lockstep_finalizeLog (st : Store) :
    Prog.Lockstep (fun x y => x.1 = y) st.finalizeLog st.finalizeCompaction := by
  rw [finalizeLog, finalizeCompaction]
  refine .seq fun _ => .seq fun renamed => ?_
  cases renamed with
  | false => exact .seq fun _ => .pure rfl
  | true =>
    -- the part after the scan
    have rest (st : Store) (log : List Admitted) : Prog.Lockstep (fun x y => x.1 = y)
        (do
          closeFile st.indexFile
          let _ ← removeFile st.indexName
          let _ ← st.writeIndexBulk
          let st ← st.openIndexForAppend
          pure ({ st with currentSegment := 0 }, log))
        (do
          closeFile st.indexFile
          let _ ← removeFile st.indexName
          let _ ← st.writeIndexBulk
          let st ← st.openIndexForAppend
          pure { st with currentSegment := 0 }) :=
      .seq fun _ => .seq fun _ => .seq fun _ => .seq fun _ => .pure rfl
    refine .seq fun f => ?_
    cases f with
    | none => exact rest _ []
    | some f =>
      refine (lockstep_scanLoopLog _ 0 loopFuel f 0 ∅ []).bind ?_
      rintro ⟨⟨f, idx⟩, log⟩ _ rfl
      exact .seq fun _ => rest _ log

end Store

/-- What a scan takes for records in a file, from the position on whose rest is given. -/
def framesFrom (seg : Nat) (file : Bytes) : Nat → Bytes → Nat → List Admitted
  | 0, _, _ => []
  | fuel + 1, rest, off =>
    let hdr := RecordHeader.decode (rest.take headerSize)
    let key := (rest.drop headerSize).take hdr.keyLen.toNat
    let marker := file.drop (wrap32 (off + headerSize + hdr.keyLen.toNat + hdr.length.toNat))
    if headerSize ≤ rest.length ∧ hdr.magic = magicRecord ∧ hdr.keyLen ≠ 0 ∧
        hdr.keyLen.toNat ≤ maxKeyLen ∧ hdr.length.toNat ≤ maxValueLen ∧
        key.length = hdr.keyLen.toNat ∧ commitSize ≤ marker.length ∧
        commitMagic (marker.take commitSize) = magicCommit then
      (if hdr.flags &&& flagDelete ≠ 0 then [] else [⟨seg, off, hdr, key⟩]) ++
        framesFrom seg file fuel (marker.drop commitSize)
          (wrap32 (off + headerSize + hdr.keyLen.toNat + hdr.length.toNat + commitSize))
    else []

/-- What a scan takes for records in a file. -/
def frames (seg : Nat) (file : Bytes) : List Admitted := framesFrom seg file loopFuel file 0

section scanning

variable {E : Env} {fs : FileSystem}

/-- A scan inserts the frames of the file. -/
theorem wp_scanLoopLog (hE : E.Reads fs) {onDelete : Key → Index → Index} {seg : Nat} (fuel : Nat)
    {f : Handle} (hf : f.mode.canRead = true) {off : Nat} {idx : Index} {log : List Admitted}
    {Q : (Handle × Index) × List Admitted → FileSystem → Prop}
    (hQ : ∀ f' idx', Q ((f', idx'), log ++ framesFrom seg (fs.data f.ino) fuel (f.rest fs) off) fs) :
    E.wp (scanLoopLog onDelete seg fuel f off idx log) Q fs := by
  induction fuel generalizing f off idx log with
  | zero => exact Env.wp_ret (by simpa only [framesFrom, List.append_nil] using hQ f idx)
  | succ fuel ih =>
    rw [framesFrom] at hQ
    generalize hbs : f.rest fs = bs at hQ
    rw [scanLoopLog]
    dsimp only at hQ ⊢
    refine wp_readExact hE (by exact hf) (fun h x _ _ => ?_) fun h1 f1 hino hmode hrest1 => ?_
    · rw [if_neg (fun hc => absurd hc.1 (by rw [← hbs]; omega)), List.append_nil] at hQ
      exact Env.wp_ret (hQ _ _)
    rw [hbs] at h1 hrest1 ⊢
    generalize hhdr : RecordHeader.decode (bs.take headerSize) = hdr at hQ ⊢
    split
    · next h2 =>
      rw [if_neg (fun hc => ?_), List.append_nil] at hQ
      · exact Env.wp_ret (hQ _ _)
      · rcases h2 with h2 | h2 | h2 | h2
        · exact h2 hc.2.1
        · exact hc.2.2.1 h2
        · exact absurd hc.2.2.2.1 (Nat.not_le.2 h2)
        · exact absurd hc.2.2.2.2.1 (Nat.not_le.2 h2)
    next h2 =>
    simp only [not_or, not_not, Nat.not_lt] at h2
    obtain ⟨hmagic, hkey0, hkeyLen, hvalueLen⟩ := h2
    refine wp_readExact hE (by rw [hmode]; exact hf) (fun h x _ _ => ?_) fun h2 f2 hino2 hmode2 _ => ?_
    · rw [hrest1] at h
      rw [if_neg (fun hc => ?_), List.append_nil] at hQ
      · exact Env.wp_ret (hQ _ _)
      · have hkey := hc.2.2.2.2.2.1
        rw [List.length_take] at hkey
        omega
    rw [hrest1] at h2 ⊢
    refine wp_seekSet hE ?_
    have hrest3 (n : Nat) : Handle.rest { f2 with pos := n } fs = (fs.data f.ino).drop n := by
      change (fs.data f2.ino).drop _ = _
      rw [hino2, hino]
    refine wp_readExact hE (by rw [hmode2, hmode]; exact hf) (fun h x _ _ => ?_)
      fun h3 f3 hino3 hmode3 hrest4 => ?_
    · rw [hrest3] at h
      rw [if_neg (fun hc => absurd hc.2.2.2.2.2.2.1 (by omega)), List.append_nil] at hQ
      exact Env.wp_ret (hQ _ _)
    rw [hrest3] at h3 hrest4 ⊢
    split
    · next h5 =>
      rw [if_neg (fun hc => h5 hc.2.2.2.2.2.2.2), List.append_nil] at hQ
      exact Env.wp_ret (hQ _ _)
    next h5 =>
    rw [not_not] at h5
    rw [if_pos ⟨h1, hmagic, hkey0, hkeyLen, hvalueLen, by rw [List.length_take]; omega, h3, h5⟩] at hQ
    have hino' : f3.ino = f.ino := by rw [hino3]; exact hino2.trans hino
    refine ih (by rw [hmode3]; exact hmode2 ▸ hmode ▸ hf) fun f' idx' => ?_
    rw [hrest4, hino']
    have h := hQ f' idx'
    split at h
    · next hd =>
      rw [if_pos hd]
      exact h
    · next hd =>
      rw [if_neg hd, List.append_assoc]
      exact h

/-- What the loop admits are frames of the segments. -/
theorem mem_frames_of_rebuild (hE : E.Reads fs) {st : Store} {n seg : Nat} {idx : Index}
    {log : List Admitted} {Q : Index × List Admitted → FileSystem → Prop}
    (hQ : ∀ idx' log', (∀ a, a ∈ log' ↔ a ∈ log ∨ ∃ s, seg ≤ s ∧ s < seg + n ∧
      ∃ bs, fs.file (st.segmentName s) = some bs ∧ a ∈ frames s bs) → Q (idx', log') fs) :
    E.wp (st.rebuildLoopLog n seg idx log) Q fs := by
  induction n generalizing seg idx log with
  | zero =>
    refine Env.wp_ret (hQ idx log fun a => ⟨.inl, ?_⟩)
    rintro (h | ⟨s, h1, h2, -⟩)
    · exact h
    · omega
  | succ n ih =>
    rw [Store.rebuildLoopLog]
    -- one segment more
    have step (log₁ log' : List Admitted) (h₁ : ∀ a, a ∈ log₁ ↔ a ∈ log ∨
        ∃ bs, fs.file (st.segmentName seg) = some bs ∧ a ∈ frames seg bs)
        (h' : ∀ a, a ∈ log' ↔ a ∈ log₁ ∨ ∃ s, seg + 1 ≤ s ∧ s < seg + 1 + n ∧
          ∃ bs, fs.file (st.segmentName s) = some bs ∧ a ∈ frames s bs) (a : Admitted) :
        a ∈ log' ↔ a ∈ log ∨ ∃ s, seg ≤ s ∧ s < seg + (n + 1) ∧
          ∃ bs, fs.file (st.segmentName s) = some bs ∧ a ∈ frames s bs := by
      rw [h', h₁, or_assoc]
      refine or_congr_right ⟨?_, ?_⟩
      · rintro (h | ⟨s, h1, h2, h⟩)
        · exact ⟨seg, Nat.le_refl _, by omega, h⟩
        · exact ⟨s, by omega, by omega, h⟩
      · rintro ⟨s, h1, h2, h⟩
        by_cases hs : s = seg
        · exact .inl (hs ▸ h)
        · exact .inr ⟨s, by omega, by omega, h⟩
    refine wp_openRead hE (fun hnone => ?_) fun i hi _ => ?_
    · refine ih fun idx' log' h' => hQ idx' log' (step log log' (fun a => ⟨.inl, ?_⟩) h')
      rw [FileSystem.file_eq_none.2 hnone]
      rintro (h | ⟨bs, hbs, -⟩)
      · exact h
      · cases hbs
    · refine Prog.wp_bind.2 (wp_scanLoopLog hE loopFuel rfl fun f' idx₁ => wp_close hE ?_)
      refine ih fun idx' log' h' => hQ idx' log' (step _ log' (fun a => ?_) h')
      rw [List.mem_append, FileSystem.file_eq_some hi]
      refine or_congr_right ⟨fun h => ⟨_, rfl, h⟩, ?_⟩
      rintro ⟨bs, hbs, h⟩
      cases hbs
      exact h

/-- `rebuild_index_from_segments` inserts the frames of the segments. -/
theorem mem_frames_of_rebuildIndex {st : Store} :
    Env.plain.wp st.rebuildIndexLog (fun x _ => ∀ a, a ∈ x.2 ↔
      ∃ s < st.count, ∃ bs, fs.file (st.segmentName s) = some bs ∧ a ∈ frames s bs) fs := by
  rw [Store.rebuildIndexLog]
  refine Prog.wp_bind.2 (mem_frames_of_rebuild (Env.plain_reads fs) fun idx log hlog => ?_)
  refine wp_closeFile (Env.plain_reads fs) (Env.wp_call trivial id fun _ => ?_)
  refine Env.wp_seq (Env.plain_wp _ _) fun _ _ _ => Env.wp_ret fun a => ?_
  rw [hlog]
  simp

/-- `finalize_compaction` inserts the frames of `compact.tmp`. -/
theorem mem_frames_of_finalize {st : Store} (hn : NamesOk st.basePrefix) :
    Env.plain.wp st.finalizeLog (fun x _ => ∀ a, a ∈ x.2 ↔
      ∃ bs, fs.file st.tmpName = some bs ∧ a ∈ frames 0 bs) fs := by
  have hlt : st.count < 256 := st.segmentCount.toNat_lt
  have hzero : (0 : Nat) < 256 := by decide
  have htmp := hn.not_mem (S := StoreFile.below st.count) .tmp trivial id
  rw [Store.finalizeLog]
  refine Prog.wp_bind.2 (wp_removeSegments (Nat.zero_add _) (Nat.le_of_lt hlt) (fun s fs' _ => Env.plain_ok _ _)
    fun fs1 hf1 _ _ => ?_)
  cases hi : fs.dir st.tmpName with
  | none =>
    refine wp_rename_missing ((hf1.dir htmp).trans hi) (Env.plain_ok _ _) ?_
    refine Env.wp_call trivial id fun _ => Env.wp_ret fun a => ⟨nofun, ?_⟩
    rintro ⟨bs, hbs, -⟩
    cases (FileSystem.file_eq_none.2 hi).symm.trans hbs
  | some i =>
    refine wp_rename (a := .tmp) (b := .segment 0) trivial hzero (hn.ne trivial hzero (by simp))
      ((hf1.dir htmp).trans hi) (Env.plain_ok _ _) fun fs2 _ _ hi2 hdata2 => ?_
    rw [if_neg (by decide)]
    refine wp_openRead (Env.plain_reads fs2) (fun h => absurd (hi2.symm.trans h) (by simp))
      fun j hj _ => ?_
    obtain rfl : i = j := Option.some.inj (hi2.symm.trans hj)
    refine Prog.wp_bind.2 (wp_scanLoopLog (Env.plain_reads fs2) loopFuel rfl fun f' idx => ?_)
    have hdata : fs2.data i = fs.data i := by rw [hdata2, hf1.data htmp hi]
    rw [List.nil_append, show Handle.rest ⟨i, 0, .read⟩ fs2 = fs.data i from hdata, hdata]
    refine wp_close (Env.plain_reads fs2) (wp_closeFile (Env.plain_reads fs2) ?_)
    refine Env.wp_call trivial id fun _ => Env.wp_seq (Env.plain_wp _ _) fun _ _ _ => ?_
    refine Env.wp_seq (Env.plain_wp _ _) fun _ _ _ => Env.wp_ret fun a => ?_
    refine ⟨fun h => ⟨_, FileSystem.file_eq_some hi, h⟩, ?_⟩
    rintro ⟨bs, hbs, h⟩
    obtain rfl : fs.data i = bs := Option.some.inj ((FileSystem.file_eq_some hi).symm.trans hbs)
    exact h

end scanning

/-- A frame is in the segment it was found in. -/
theorem seg_of_mem_framesFrom {seg : Nat} {file : Bytes} {fuel : Nat} {rest : Bytes} {off : Nat}
    {a : Admitted} (h : a ∈ framesFrom seg file fuel rest off) : a.seg = seg := by
  induction fuel generalizing rest off with
  | zero => cases h
  | succ fuel ih =>
    rw [framesFrom] at h
    split at h
    · rcases List.mem_append.1 h with h | h
      · split at h
        · cases h
        · rw [List.mem_singleton.1 h]
      · exact ih h
    · cases h

/-! ## Reading at an index entry

`get` reads the header at the place and checks magic and lengths; the value is what follows. -/

/-- The record at this offset of a segment file. -/
def recordAt (seg : Nat) (file : Bytes) (off : Nat) : Admitted :=
  let hdr := RecordHeader.decode ((file.drop off).take headerSize)
  ⟨seg, off, hdr, (file.drop (off + headerSize)).take hdr.keyLen.toNat⟩

/-- The checks `get` makes, with a buffer of `size` bytes. -/
def Admitted.Accepted (a : Admitted) (file : Bytes) (size : Nat) : Prop :=
  headerSize ≤ (file.drop a.off).length ∧ a.hdr.magic = magicRecord ∧
    a.hdr.keyLen.toNat ≤ maxKeyLen ∧ a.hdr.length.toNat ≤ maxValueLen ∧
    min a.hdr.length.toNat size ≤ (file.drop (a.off + headerSize + a.hdr.keyLen.toNat)).length

/-- The record an index entry points at, with the file it is in. -/
def Store.PointsAt (st : Store) (fs : FileSystem) (e : IndexValue) (a : Admitted) (file : Bytes) :
    Prop :=
  fs.file (st.segmentName e.segment.toNat) = some file ∧
    a = recordAt e.segment.toNat file e.offset.toNat

section reading

variable {E : Env} {st : Store} {fs : FileSystem}

/-- It returns something exactly if the checks succeed. -/
theorem wp_getAt_isSome (hE : E.Reads fs) {e : IndexValue} {size : Nat} :
    E.wp (st.getAt e true size)
      (fun r _ => r.isSome ↔ ∃ a file, st.PointsAt fs e a file ∧ a.Accepted file size) fs := by
  rw [Store.getAt]
  refine wp_openRead hE (fun hdir => ?_) fun i hdir _ => ?_
  · refine Env.wp_ret ⟨by rintro ⟨⟩, ?_⟩
    rintro ⟨a, file, ⟨hfile, -⟩, -⟩
    cases (FileSystem.file_eq_none.2 hdir).symm.trans hfile
  have hiff {r : Option (Bytes × Nat)}
      (h : r.isSome ↔ (recordAt e.segment.toNat (fs.data i) e.offset.toNat).Accepted (fs.data i) size) :
      r.isSome ↔ ∃ a file, st.PointsAt fs e a file ∧ a.Accepted file size := by
    rw [h]
    refine ⟨fun h => ⟨_, _, ⟨FileSystem.file_eq_some hdir, rfl⟩, h⟩, ?_⟩
    rintro ⟨a, file, ⟨hfile, rfl⟩, h⟩
    obtain rfl : fs.data i = file := Option.some.inj ((FileSystem.file_eq_some hdir).symm.trans hfile)
    exact h
  have hrest0 : Handle.rest ⟨i, e.offset.toNat, .read⟩ fs = (fs.data i).drop e.offset.toNat := rfl
  refine wp_seekSet hE ?_
  refine wp_readExact hE rfl (fun h x _ _ => ?_) fun h1 f1 hino hmode _ => ?_
  · exact wp_close hE (Env.wp_ret (hiff ⟨by rintro ⟨⟩, fun hc => absurd hc.1 (Nat.not_le.2 h)⟩))
  dsimp only at hino hmode
  rw [hrest0] at h1 ⊢
  dsimp only
  have hacc (hdr : RecordHeader)
      (h : RecordHeader.decode (((fs.data i).drop e.offset.toNat).take headerSize) = hdr) :
      (recordAt e.segment.toNat (fs.data i) e.offset.toNat).Accepted (fs.data i) size ↔
        headerSize ≤ ((fs.data i).drop e.offset.toNat).length ∧ hdr.magic = magicRecord ∧
          hdr.keyLen.toNat ≤ maxKeyLen ∧ hdr.length.toNat ≤ maxValueLen ∧
          min hdr.length.toNat size
            ≤ ((fs.data i).drop (e.offset.toNat + headerSize + hdr.keyLen.toNat)).length := by
    rw [← h]
    exact Iff.rfl
  generalize hhdr : RecordHeader.decode (((fs.data i).drop e.offset.toNat).take headerSize) = hdr
  specialize hacc hdr hhdr
  split
  · next h2 =>
    refine wp_close hE (Env.wp_ret (hiff ⟨by rintro ⟨⟩, fun hc => ?_⟩))
    obtain ⟨-, hmagic, hkeyLen, hvalueLen, -⟩ := hacc.1 hc
    rcases h2 with h2 | h2 | h2
    · exact absurd hmagic h2
    · exact absurd hkeyLen (Nat.not_le.2 h2)
    · exact absurd hvalueLen (Nat.not_le.2 h2)
  next h2 =>
  simp only [not_or, not_not, Nat.not_lt] at h2
  obtain ⟨hmagic, hkeyLen, hvalueLen⟩ := h2
  simp only [Bool.not_true, Bool.false_eq_true, if_false]
  refine wp_seekSet hE ?_
  have hrest2 : Handle.rest { f1 with pos := e.offset.toNat + headerSize + hdr.keyLen.toNat } fs
      = (fs.data i).drop (e.offset.toNat + headerSize + hdr.keyLen.toNat) := by
    change (fs.data f1.ino).drop _ = _
    rw [hino]
  refine wp_readExact hE (by rw [hmode]; rfl) (fun h x _ _ => ?_) fun h3 f3 _ _ _ => ?_
  · rw [hrest2] at h
    exact wp_close hE (Env.wp_ret (hiff ⟨by rintro ⟨⟩, fun hc =>
      absurd (hacc.1 hc).2.2.2.2 (Nat.not_le.2 h)⟩))
  · rw [hrest2] at h3
    exact wp_close hE (Env.wp_ret (hiff ⟨fun _ => hacc.2 ⟨h1, hmagic, hkeyLen, hvalueLen, h3⟩,
      fun _ => rfl⟩))

/-- The flush before it changes the buffer and the handle alone. -/
theorem flushBuffer_spec (st : Store) (fs : FileSystem) : ∃ f,
    (Prog.exec posix st.flushBuffer fs).1.2 = { st with activeFile := f, writeBuf := [] } := by
  rw [Store.flushBuffer]
  split
  · next h => exact ⟨st.activeFile, by rw [← h]; rfl⟩
  · cases st.activeFile with
    | none => exact ⟨none, rfl⟩
    | some f => exact ⟨_, rfl⟩

/-- `get` answers when it finds an index entry that is not expired and a record there that passes its
checks. -/
theorem get_isSome_iff {clk : Clock} {key : Buf} {size : Nat} :
    (Prog.exec posix (st.get clk key true size) fs).1.1.isSome ↔
      st.valid = true ∧ key.bytes.length ≤ maxKeyLen ∧ ∃ e, st.indexFind key.bytes = some e ∧
        st.isTtlExpired clk.time e.timestamp e.ttl.toNat = false ∧
        ∃ a file, st.PointsAt (Prog.exec posix st.flushBuffer fs).2 e a file ∧
          a.Accepted file size := by
  rw [Store.get]
  cases hvalid : st.valid with
  | false => exact ⟨nofun, fun h => nomatch h.1⟩
  | true =>
  rw [if_neg (by decide)]
  split
  · next hkey => exact ⟨nofun, fun h => absurd h.2.1 (Nat.not_le.2 hkey)⟩
  next hkey =>
  obtain ⟨f, hf⟩ := flushBuffer_spec st fs
  rw [Prog.exec_bind]
  generalize hr : Prog.exec posix st.flushBuffer fs = r at hf ⊢
  obtain ⟨⟨b, st1⟩, fs1⟩ := r
  obtain rfl : st1 = _ := hf
  dsimp only
  have hfind : Store.indexFind { st with activeFile := f, writeBuf := [] } key.bytes
      = st.indexFind key.bytes := rfl
  rw [hfind]
  cases he : st.indexFind key.bytes with
  | none =>
    refine ⟨nofun, ?_⟩
    rintro ⟨-, -, e, h, -⟩
    cases h
  | some e =>
    dsimp only
    have hexp : Store.isTtlExpired { st with activeFile := f, writeBuf := [] } clk.time e.timestamp
        e.ttl.toNat = st.isTtlExpired clk.time e.timestamp e.ttl.toNat := rfl
    rw [hexp]
    split
    · next h =>
      refine ⟨nofun, ?_⟩
      rintro ⟨-, -, e', he', h', -⟩
      cases he'
      exact absurd h (by rw [h']; decide)
    next h =>
    have hget := @Env.plain_exec _ _ (fun (r : Option (Bytes × Nat)) _ => r.isSome ↔
      ∃ a file, st.PointsAt fs1 e a file ∧ a.Accepted file size) fs1
      (@wp_getAt_isSome _ { st with activeFile := f, writeBuf := [] } fs1 (Env.plain_reads fs1) e size)
    rw [Prog.exec_bind]
    refine hget.trans ⟨fun h' => ⟨rfl, Nat.not_lt.1 hkey, e, rfl, Bool.not_eq_true _ ▸ h, h'⟩, ?_⟩
    rintro ⟨-, -, e', h1, -, h2⟩
    cases h1
    exact h2

end reading

/-! ## When only intact records are admitted

The two conditions are on the bytes: the frames of the segments, and the place an entry names. -/

/-- **No reader checks the CRC.**  A scan of the segments, or of `compact.tmp` in a commit, inserts
intact records only exactly if all that it takes for records in these files is intact, and the value
`get` returns is that of an intact record exactly if the record at the index entry, should it pass the
checks on magic and lengths, is intact. -/
theorem admits_intact_iff (st : Store) (hn : NamesOk st.basePrefix) (fs : FileSystem) (clk : Clock)
    (key : Buf) (size : Nat) :
    ((∀ a ∈ (Prog.exec posix st.rebuildIndexLog fs).1.2, ∀ file,
        fs.file (st.segmentName a.seg) = some file → a.Intact file) ↔
      ∀ s < st.count, ∀ file, fs.file (st.segmentName s) = some file →
        ∀ a ∈ frames s file, a.Intact file) ∧
    ((∀ a ∈ (Prog.exec posix st.finalizeLog fs).1.2, ∀ file,
        fs.file st.tmpName = some file → a.Intact file) ↔
      ∀ file, fs.file st.tmpName = some file → ∀ a ∈ frames 0 file, a.Intact file) ∧
    (((Prog.exec posix (st.get clk key true size) fs).1.1.isSome →
        ∀ e a file, st.indexFind key.bytes = some e →
          st.PointsAt (Prog.exec posix st.flushBuffer fs).2 e a file → a.Intact file) ↔
      ∀ e a file, st.valid = true → key.bytes.length ≤ maxKeyLen →
        st.indexFind key.bytes = some e →
        st.isTtlExpired clk.time e.timestamp e.ttl.toNat = false →
        st.PointsAt (Prog.exec posix st.flushBuffer fs).2 e a file → a.Accepted file size →
        a.Intact file) := by
  refine ⟨?_, ?_, ?_⟩
  · have hlog := @Env.plain_exec _ _ (fun (x : Store × List Admitted) _ => ∀ a, a ∈ x.2 ↔
      ∃ s < st.count, ∃ bs, fs.file (st.segmentName s) = some bs ∧ a ∈ frames s bs) fs
      mem_frames_of_rebuildIndex
    constructor
    · intro h s hs file hfile a ha
      have hseg := seg_of_mem_framesFrom ha
      exact h a ((hlog a).2 ⟨s, hs, file, hfile, ha⟩) file (hseg.symm ▸ hfile)
    · intro h a ha file hfile
      obtain ⟨s, hs, bs, hbs, ha⟩ := (hlog a).1 ha
      have hseg := seg_of_mem_framesFrom ha
      obtain rfl : bs = file := Option.some.inj (hbs.symm.trans (hseg ▸ hfile))
      exact h s hs bs hbs a ha
  · have hlog := @Env.plain_exec _ _ (fun (x : Store × List Admitted) _ => ∀ a, a ∈ x.2 ↔
      ∃ bs, fs.file st.tmpName = some bs ∧ a ∈ frames 0 bs) fs (mem_frames_of_finalize hn)
    constructor
    · intro h file hfile a ha
      exact h a ((hlog a).2 ⟨file, hfile, ha⟩) file hfile
    · intro h a ha file hfile
      obtain ⟨bs, hbs, ha⟩ := (hlog a).1 ha
      obtain rfl : bs = file := Option.some.inj (hbs.symm.trans hfile)
      exact h bs hbs a ha
  · constructor
    · intro h e a file hvalid hkey he hexp hat hacc
      exact h (get_isSome_iff.2 ⟨hvalid, hkey, e, he, hexp, a, file, hat, hacc⟩) e a file he hat
    · intro h hsome e a file he hat
      obtain ⟨hvalid, hkey, e', he', hexp, a', file', hat', hacc⟩ := get_isSome_iff.1 hsome
      obtain rfl : e = e' := Option.some.inj (he.symm.trans he')
      obtain rfl : file = file' := Option.some.inj (hat.1.symm.trans hat'.1)
      obtain rfl : a = a' := hat.2.trans hat'.2.symm
      exact h e a file hvalid hkey he hexp hat hacc

/-- A store with one record, key 97 and value 1, and its files. -/
def oneRecord : Store × FileSystem :=
  let s := Prog.exec posix ((Store.new 65536 8 .recent).init ['a'] false 0 4) .empty
  let s := Prog.exec posix (s.1.2.put ⟨0, 0, 0⟩ (.at [97]) (.at [1]) 0 0 0) s.2
  (s.1.2, s.2)

/-- The same files with a `compact.tmp` that holds what segment 0 does. -/
def scratched : FileSystem :=
  let fs := oneRecord.2.create oneRecord.1.tmpName
  fs.setData oneRecord.2.next ((fs.file (oneRecord.1.segmentName 0)).getD [])

/-- The record is intact wherever it stands, so either scan admits intact records only, and the value `get`
returns is that of an intact record. -/
theorem admits_intact_iff_sample :
    (∀ a ∈ (Prog.exec posix oneRecord.1.rebuildIndexLog scratched).1.2, ∀ file,
        scratched.file (oneRecord.1.segmentName a.seg) = some file → a.Intact file) ∧
      (∀ a ∈ (Prog.exec posix oneRecord.1.finalizeLog scratched).1.2, ∀ file,
        scratched.file oneRecord.1.tmpName = some file → a.Intact file) ∧
      ((Prog.exec posix oneRecord.1.finalizeLog scratched).1.2.length = 1 ∧
        (Prog.exec posix (oneRecord.1.get ⟨0, 0, 0⟩ (.at [97]) true maxValueLen) scratched).1.1.isSome) ∧
      ∀ e a file, oneRecord.1.indexFind [97] = some e →
        oneRecord.1.PointsAt (Prog.exec posix oneRecord.1.flushBuffer scratched).2 e a file →
        a.Intact file := by
  have h := admits_intact_iff oneRecord.1 (namesOk_of_length_le (by decide +kernel)) scratched
    ⟨0, 0, 0⟩ (.at [97]) maxValueLen
  have hframes : ∀ s < oneRecord.1.count, ∀ file ∈ scratched.file (oneRecord.1.segmentName s),
      ∀ a ∈ frames s file, a.Intact file := by
    decide +kernel
  have htmp : ∀ file ∈ scratched.file oneRecord.1.tmpName, ∀ a ∈ frames 0 file, a.Intact file := by
    decide +kernel
  have hat : ∀ e ∈ oneRecord.1.indexFind [97],
      ∀ file ∈ (Prog.exec posix oneRecord.1.flushBuffer scratched).2.file
        (oneRecord.1.segmentName e.segment.toNat),
      (recordAt e.segment.toNat file e.offset.toNat).Intact file := by
    decide +kernel
  have hread : (Prog.exec posix (oneRecord.1.get ⟨0, 0, 0⟩ (.at [97]) true maxValueLen)
      scratched).1.1.isSome := by
    decide +kernel
  exact ⟨h.1.2 hframes, h.2.1.2 htmp, ⟨by decide +kernel, hread⟩,
    h.2.2.2 (fun e a file _ _ he _ hpoints _ => hpoints.2 ▸ hat e he file hpoints.1) hread⟩

/-- The files with the value of the record overwritten by 2. -/
def flipped : FileSystem :=
  let i := (oneRecord.2.dir (oneRecord.1.segmentName 0)).getD 0
  oneRecord.2.setData i ((oneRecord.2.data i).set (headerSize + 1) 2)

/-- The overwritten record is inserted by a scan, and its value is returned. -/
theorem admits_flipped :
    ¬(∀ a ∈ (Prog.exec posix oneRecord.1.rebuildIndexLog flipped).1.2, ∀ file,
        flipped.file (oneRecord.1.segmentName a.seg) = some file → a.Intact file) ∧
      (Prog.exec posix (oneRecord.1.getValue ⟨0, 0, 0⟩ (.at [97])) flipped).1.1 = some [2] := by
  constructor
  · intro h
    have h' : ∀ a ∈ (Prog.exec posix oneRecord.1.rebuildIndexLog flipped).1.2,
        ∀ file ∈ flipped.file (oneRecord.1.segmentName a.seg), a.Intact file := h
    revert h'
    decide +kernel
  · decide +kernel

end MicroStore
