import MicroStore.FileSpec
import MicroStore.FileStore.Ops

/-!
# What the reading loops compute

The loops that walk over a segment or over the index file read it call by call.  Each of them is shown to
compute a plain function of the bytes in the file, so that whatever is proved later of recovery, of
compaction or of a lookup is about bytes and not about handles.

## The readers

A record is read in three ways by three parts of the source, and they look at different bytes of it:

* `scanFrame` — the scans of `finalize_compaction` and `rebuild_index_from_segments`.  The value is skipped,
  the commit marker is checked, an empty key ends the scan;
* `readRecord` — the loop of `compact` that copies records.  Key and value are read, the marker is not;
* `readValue` — `get`, which has the key from the index and reads neither the key nor the marker.

None of them compares the checksum.  `readEntry` is the reader of the index file.

## The loops

`scan` repeats `scanFrame` over a segment, `load` repeats `readEntry` over an index file; `scanRecords` is
the loop of both scans with a parameter for what they do about a record.  `wp_scanLoop`, `wp_loadLoop` and
`wp_loadValue` are the statements that the source's loops compute these functions; every one of them
only reads, so they hold in any circumstances in which reads go well (`Env.Reads`).

## What is not here

The bytes may be anything: that they are whole records is nowhere assumed, apart from the section on what
was written.
-/

set_option autoImplicit false

namespace MicroStore

/-! ## Records

The readers of a record as functions of the bytes in front of them.  Each answers `none` where the loop
of the source stops. -/

/-- These bytes begin with a header, this one, and enough bytes behind it for the copy loop of
`compact` to read a record.  The commit marker is not looked at. -/
def RecordHeader.Readable (hdr : RecordHeader) (bs : Bytes) : Prop :=
  headerSize ≤ bs.length ∧ hdr.magic = magicRecord ∧
    hdr.keyLen.toNat = ((bs.drop headerSize).take hdr.keyLen.toNat).length ∧
    hdr.length.toNat
      = ((bs.drop (headerSize + hdr.keyLen.toNat)).take hdr.length.toNat).length ∧
    hdr.keyLen.toNat ≤ maxKeyLen ∧ hdr.length.toNat ≤ maxValueLen

instance (hdr : RecordHeader) (bs : Bytes) : Decidable (hdr.Readable bs) :=
  inferInstanceAs (Decidable (_ ∧ _))

/-- The record at the head of these bytes, as the copy loop reads it. -/
def readRecord (bs : Bytes) : Option Record :=
  let hdr := RecordHeader.decode (bs.take headerSize)
  if h : hdr.Readable bs then
    some
      { hdr := hdr
        key := (bs.drop headerSize).take hdr.keyLen.toNat
        value := (bs.drop (headerSize + hdr.keyLen.toNat)).take hdr.length.toNat
        magic_eq := h.2.1
        keyLen_eq := h.2.2.1
        length_eq := h.2.2.2.1
        key_le := h.2.2.1 ▸ h.2.2.2.2.1
        value_le := h.2.2.2.1 ▸ h.2.2.2.2.2 }
  else none

/-- The copy loop skips what it cannot read. -/
theorem readRecord_eq_none {bs : Bytes} {hdr : RecordHeader}
    (hhdr : RecordHeader.decode (bs.take headerSize) = hdr) (h : ¬hdr.Readable bs) :
    readRecord bs = none := by
  subst hhdr
  exact dif_neg h

/-- What it reads has this header and the bytes behind it. -/
theorem readRecord_eq_some {bs : Bytes} {hdr : RecordHeader}
    (hhdr : RecordHeader.decode (bs.take headerSize) = hdr) (h : hdr.Readable bs) :
    ∃ r, readRecord bs = some r ∧ r.hdr = hdr ∧
      r.key = (bs.drop headerSize).take hdr.keyLen.toNat ∧
      r.value = (bs.drop (headerSize + hdr.keyLen.toNat)).take hdr.length.toNat := by
  subst hhdr
  exact ⟨_, dif_pos h, rfl, rfl, rfl⟩

/-- The value at the head of these bytes, as `get` reads it: neither the key nor the commit marker
is looked at. -/
def readValue (bs : Bytes) : Option Value :=
  let hdr := RecordHeader.decode (bs.take headerSize)
  let value := (bs.drop (headerSize + hdr.keyLen.toNat)).take hdr.length.toNat
  if headerSize ≤ bs.length ∧ hdr.magic = magicRecord ∧ hdr.keyLen.toNat ≤ maxKeyLen ∧
      hdr.length.toNat ≤ maxValueLen ∧ value.length = hdr.length.toNat then some value
  else none

/-- The header and key of the frame at the head of these bytes, as the scan loops read it: the value
is skipped, the commit marker is not. -/
def scanFrame (bs : Bytes) : Option (RecordHeader × Key) :=
  let hdr := RecordHeader.decode (bs.take headerSize)
  let key := (bs.drop headerSize).take hdr.keyLen.toNat
  let commit := (bs.drop (headerSize + hdr.keyLen.toNat + hdr.length.toNat)).take commitSize
  if headerSize ≤ bs.length ∧ hdr.magic = magicRecord ∧ hdr.keyLen ≠ 0 ∧
      hdr.keyLen.toNat ≤ maxKeyLen ∧ hdr.length.toNat ≤ maxValueLen ∧
      key.length = hdr.keyLen.toNat ∧ commit.length = commitSize ∧ commitMagic commit = magicCommit
  then some (hdr, key) else none

/-- The number of bytes of a frame with this header. -/
def RecordHeader.frameSize (hdr : RecordHeader) : Nat :=
  headerSize + hdr.keyLen.toNat + hdr.length.toNat + commitSize

/-- What a scanned frame at offset `off` of segment `seg` does to the index. -/
def scanApply (onDelete : Key → Index → Index) (seg off : Nat) (hdr : RecordHeader) (key : Key)
    (idx : Index) : Index :=
  if hdr.flags &&& flagDelete ≠ 0 then onDelete key idx
  else idx.insert key (indexValue seg off hdr.timestamp hdr.ttl.toNat hdr.priority)

/-- Scan the bytes of a segment from offset `off` on. -/
def scan (onDelete : Key → Index → Index) (seg : Nat) : Nat → Bytes → Nat → Index → Index
  | 0, _, _, idx => idx
  | fuel + 1, bs, off, idx =>
    match scanFrame bs with
    | none => idx
    | some (hdr, key) =>
      scan onDelete seg fuel (bs.drop hdr.frameSize) (off + hdr.frameSize)
        (scanApply onDelete seg off hdr key idx)

/-- A scan that does `accept` at every frame it finds. -/
def scanWith {σ : Type} (accept : Nat → RecordHeader → Key → σ → σ) : Nat → Bytes → Nat → σ → σ
  | 0, _, _, s => s
  | fuel + 1, bs, off, s =>
    match scanFrame bs with
    | none => s
    | some (hdr, key) =>
      scanWith accept fuel (bs.drop hdr.frameSize) (off + hdr.frameSize) (accept off hdr key s)

/-- The two scans are instances of one. -/
theorem scan_eq (onDelete : Key → Index → Index) (seg fuel : Nat) (bs : Bytes) (off : Nat)
    (idx : Index) : scan onDelete seg fuel bs off idx
      = scanWith (scanApply onDelete seg) fuel bs off idx := by
  induction fuel generalizing bs off idx with
  | zero => rfl
  | succ fuel ih =>
    rw [scan, scanWith]
    cases scanFrame bs with
    | none => rfl
    | some x => exact ih _ _ _

/-- The loop of `scanLoop`, with `accept` for what it does about a record. -/
def scanRecords {σ : Type} (accept : Nat → RecordHeader → Key → σ → σ) :
    Nat → Handle → Nat → σ → FsM (Handle × σ)
  | 0, f, _, s => pure (f, s)
  | fuel + 1, f, scanOffset, s => do
    let (h, f) ← f.readBytes headerSize
    if h.length ≠ headerSize then pure (f, s) else
    let hdr := RecordHeader.decode h
    if hdr.magic ≠ magicRecord ∨ hdr.keyLen = 0 ∨ maxKeyLen < hdr.keyLen.toNat
      ∨ maxValueLen < hdr.length.toNat then pure (f, s) else
    let (key, f) ← f.readBytes hdr.keyLen.toNat
    if key.length ≠ hdr.keyLen.toNat then pure (f, s) else
    let f ← f.seek (wrap32 (scanOffset + headerSize + hdr.keyLen.toNat + hdr.length.toNat)) .set
    let (c, f) ← f.readBytes commitSize
    if c.length ≠ commitSize then pure (f, s) else
    if commitMagic c ≠ magicCommit then pure (f, s) else
    let s := accept scanOffset hdr key s
    let scanOffset :=
      wrap32 (scanOffset + headerSize + hdr.keyLen.toNat + hdr.length.toNat + commitSize)
    scanRecords accept fuel f scanOffset s

/-- `scanLoop` is this loop, with the index kept up to date. -/
theorem scanLoop_eq (onDelete : Key → Index → Index) (seg fuel : Nat) (f : Handle) (off : Nat)
    (idx : Index) : scanLoop onDelete seg fuel f off idx
      = scanRecords (scanApply onDelete seg) fuel f off idx := by
  induction fuel generalizing f off idx with
  | zero => rfl
  | succ fuel ih =>
    rw [scanLoop, scanRecords]
    simp only [ih]
    rfl

/-! ## Index entries

An index file is a sequence of entries without any framing: a key length, the key and five fields.  An
entry whose segment is `deletedSeg` is a removal. -/

/-- The entry at the head of these bytes of an index file. -/
def readEntry (bs : Bytes) : Option IndexEntry :=
  let keyLen := ofLE (bs.take 1)
  if h : keyLen ≤ maxKeyLen ∧ 18 + keyLen ≤ bs.length then
    some
      { key := (bs.drop 1).take keyLen
        seg := UInt32.ofNat (field bs (1 + keyLen) 4)
        off := UInt32.ofNat (field bs (5 + keyLen) 4)
        ts := UInt32.ofNat (field bs (9 + keyLen) 4)
        ttl := UInt32.ofNat (field bs (13 + keyLen) 4)
        priority := UInt8.ofNat (field bs (17 + keyLen) 1)
        key_le := Nat.le_trans (List.length_take_le ..) h.1 }
  else none

/-- What replaying an entry does to the index. -/
def IndexEntry.apply (e : IndexEntry) (idx : Index) : Index :=
  if e.seg.toNat = deletedSeg then idx.erase e.key
  else idx.insert e.key (indexValue e.seg.toNat e.off.toNat e.ts e.ttl.toNat e.priority)

/-- Replay the bytes of an index file. -/
def load : Nat → Bytes → Index → Index
  | 0, _, idx => idx
  | fuel + 1, bs, idx =>
    match readEntry bs with
    | none => idx
    | some e => load fuel (bs.drop e.size) (e.apply idx)

/-- The entries a load reads. -/
def loadedEntries : Nat → Bytes → List IndexEntry
  | 0, _ => []
  | fuel + 1, bs =>
    match readEntry bs with
    | none => []
    | some e => e :: loadedEntries fuel (bs.drop e.size)

/-- Loading an index file replays its entries in order. -/
theorem load_eq_foldl (fuel : Nat) (bs : Bytes) (idx : Index) :
    load fuel bs idx = (loadedEntries fuel bs).foldl (fun idx e => e.apply idx) idx := by
  induction fuel generalizing bs idx with
  | zero => rfl
  | succ fuel ih =>
    rw [load, loadedEntries]
    cases readEntry bs with
    | none => rfl
    | some e => exact ih _ _

/-- At its own key, what an entry leaves does not depend on what was there. -/
theorem IndexEntry.apply_self (e : IndexEntry) (i j : Index) :
    (e.apply i).lookup e.key = (e.apply j).lookup e.key := by
  rw [IndexEntry.apply, IndexEntry.apply]
  split
  · rw [AList.lookup_erase, AList.lookup_erase]
  · rw [AList.lookup_insert, AList.lookup_insert]

/-- At other keys it changes nothing. -/
theorem IndexEntry.apply_ne {e : IndexEntry} {k : Key} (h : k ≠ e.key) (i : Index) :
    (e.apply i).lookup k = i.lookup k := by
  rw [IndexEntry.apply]
  split
  · rw [AList.lookup_erase_ne h]
  · rw [AList.lookup_insert_ne h]

/-- Entries of other keys leave a key alone. -/
theorem foldl_apply_lookup_of_ne {es : List IndexEntry} {k : Key} (hk : ∀ e ∈ es, e.key ≠ k)
    (idx : Index) : (es.foldl (fun idx e => e.apply idx) idx).lookup k = idx.lookup k := by
  induction es generalizing idx with
  | nil => rfl
  | cons e es ih =>
    rw [List.foldl_cons, ih fun e' he' => hk e' (List.mem_cons_of_mem _ he')]
    exact IndexEntry.apply_ne (hk e List.mem_cons_self).symm idx

/-- What was in the index before shows at the keys no entry mentions, and only there. -/
theorem foldl_apply_lookup_eq_iff {es : List IndexEntry} {i j : Index} {k : Key} :
    (es.foldl (fun idx e => e.apply idx) i).lookup k
        = (es.foldl (fun idx e => e.apply idx) j).lookup k ↔
      (∀ e ∈ es, e.key ≠ k) → i.lookup k = j.lookup k := by
  induction es generalizing i j with
  | nil => simp
  | cons e es ih =>
    rw [List.foldl_cons, List.foldl_cons, ih, List.forall_mem_cons]
    by_cases hk : k = e.key
    · subst hk
      exact ⟨fun _ h => absurd rfl h.1, fun _ _ => e.apply_self i j⟩
    · rw [IndexEntry.apply_ne hk, IndexEntry.apply_ne hk]
      exact ⟨fun h h' => h h'.2, fun h h' => h ⟨fun he => hk he.symm, h'⟩⟩

/-- Loading over an index that has no more than what is loaded makes no difference. -/
theorem foldl_apply_lookup_over {es : List IndexEntry} {idx : Index}
    (h : ∀ k v, idx.lookup k = some v →
      (es.foldl (fun idx e => e.apply idx) (∅ : Index)).lookup k = some v)
    (k : Key) : (es.foldl (fun idx e => e.apply idx) idx).lookup k
      = (es.foldl (fun idx e => e.apply idx) (∅ : Index)).lookup k := by
  refine foldl_apply_lookup_eq_iff.2 fun hk => ?_
  cases hv : idx.lookup k with
  | none => rfl
  | some v => rw [← h k v hv, foldl_apply_lookup_of_ne hk]

/-! ## Reading what was written

Round trips of the formats: every reader gives back what the writer of the source put there, whatever
follows it, and stops at a frame that was cut off. -/

section written

variable {r : Record} {rest bs : Bytes}

/-- The parts of a record, by their place in its bytes. -/
theorem Record.take_bytes : (r.bytes ++ rest).take headerSize = r.hdr.encode := by
  rw [Record.bytes, List.append_assoc, List.take_left' r.hdr.length_encode]

theorem Record.drop_bytes :
    (r.bytes ++ rest).drop headerSize = r.key ++ (r.value ++ (commitBytes ++ rest)) := by
  rw [Record.bytes, List.append_assoc, List.drop_left' r.hdr.length_encode]
  simp only [List.append_assoc]

theorem Record.key_bytes :
    ((r.bytes ++ rest).drop headerSize).take r.hdr.keyLen.toNat = r.key := by
  rw [drop_bytes, List.take_left' r.keyLen_eq.symm]

theorem Record.value_bytes :
    ((r.bytes ++ rest).drop (headerSize + r.hdr.keyLen.toNat)).take r.hdr.length.toNat
      = r.value := by
  rw [← List.drop_drop, drop_bytes, List.drop_left' r.keyLen_eq.symm,
    List.take_left' r.length_eq.symm]

theorem Record.commit_bytes :
    ((r.bytes ++ rest).drop (headerSize + r.hdr.keyLen.toNat + r.hdr.length.toNat)).take commitSize
      = commitBytes := by
  rw [← List.drop_drop, ← List.drop_drop, drop_bytes, List.drop_left' r.keyLen_eq.symm,
    List.drop_left' r.length_eq.symm]
  exact List.take_left' rfl

theorem Record.headerSize_le : headerSize ≤ (r.bytes ++ rest).length := by
  rw [List.length_append, Record.length_bytes, Record.size]
  omega

theorem Record.frameSize_hdr (r : Record) : r.hdr.frameSize = r.size := by
  rw [RecordHeader.frameSize, r.keyLen_eq, r.length_eq, Record.size]

/-- The copy loop reads back a record. -/
theorem readRecord_bytes : readRecord (r.bytes ++ rest) = some r := by
  have h : r.hdr.Readable (r.bytes ++ rest) := by
    refine ⟨Record.headerSize_le, r.magic_eq, ?_, ?_, ?_, ?_⟩
    · rw [Record.key_bytes]
      exact r.keyLen_eq
    · rw [Record.value_bytes]
      exact r.length_eq
    · rw [r.keyLen_eq]
      exact r.key_le
    · rw [r.length_eq]
      exact r.value_le
  rw [readRecord]
  simp only [Record.take_bytes, RecordHeader.decode_encode, Record.key_bytes, Record.value_bytes]
  exact dif_pos h

/-- `get` reads back the value of a record. -/
theorem readValue_bytes : readValue (r.bytes ++ rest) = some r.value := by
  rw [readValue]
  simp only [Record.take_bytes, RecordHeader.decode_encode, Record.value_bytes]
  exact if_pos ⟨Record.headerSize_le, r.magic_eq, by rw [r.keyLen_eq]; exact r.key_le,
    by rw [r.length_eq]; exact r.value_le, r.length_eq.symm⟩

/-- The scan loops read back the header and the key of a record with a key. -/
theorem scanFrame_bytes (hkey : r.key ≠ []) :
    scanFrame (r.bytes ++ rest) = some (r.hdr, r.key) := by
  have hne : r.hdr.keyLen ≠ 0 := by
    intro h
    have hlen := r.keyLen_eq
    rw [h] at hlen
    exact hkey (List.length_eq_zero_iff.1 hlen.symm)
  rw [scanFrame]
  simp only [Record.take_bytes, RecordHeader.decode_encode, Record.key_bytes, Record.commit_bytes]
  exact if_pos ⟨Record.headerSize_le, r.magic_eq, hne, by rw [r.keyLen_eq]; exact r.key_le,
    by rw [r.length_eq]; exact r.value_le, r.keyLen_eq.symm, rfl, by decide⟩

/-- The scan loops stop at a record with an empty key. -/
theorem scanFrame_of_key_nil (hkey : r.key = []) : scanFrame (r.bytes ++ rest) = none := by
  have hzero : r.hdr.keyLen = 0 := by
    refine UInt8.toNat_inj.1 ?_
    rw [r.keyLen_eq, hkey]
    rfl
  rw [scanFrame]
  simp only [Record.take_bytes, RecordHeader.decode_encode]
  exact if_neg fun h => h.2.2.1 hzero

theorem scanFrame_nil : scanFrame [] = none := by decide

theorem readEntry_nil : readEntry [] = none := by decide

/-- The scan loops stop at a record that was cut off. -/
theorem scanFrame_torn (hpre : bs <+: r.bytes) (hlt : bs.length < r.size) : scanFrame bs = none := by
  obtain ⟨rest, hrest⟩ := hpre
  refine if_neg fun h => ?_
  obtain ⟨hlen, -, -, -, -, hkey, hcommit, -⟩ := h
  have hhdr : RecordHeader.decode (bs.take headerSize) = r.hdr := by
    have htake : bs.take headerSize = r.hdr.encode := by
      have happ : (bs ++ rest).take headerSize = bs.take headerSize :=
        List.take_append_of_le_length hlen
      rw [← happ, hrest]
      simpa using @Record.take_bytes r []
    rw [htake, RecordHeader.decode_encode]
  rw [hhdr] at hcommit
  rw [List.length_take, List.length_drop, r.keyLen_eq, r.length_eq] at hcommit
  rw [Record.size] at hlt
  simp only [commitSize] at hcommit hlt
  omega

/-- The replay loop reads back an entry. -/
theorem readEntry_bytes {e : IndexEntry} : readEntry (e.bytes ++ rest) = some e := by
  have hk : (UInt8.ofNat e.key.length).toNat = e.key.length :=
    Nat.mod_eq_of_lt (Nat.lt_of_le_of_lt e.key_le (by decide))
  have hlen : ofLE ((e.bytes ++ rest).take 1) = e.key.length := by
    simp only [IndexEntry.bytes, List.cons_append, List.take_succ_cons, List.take_zero, ofLE, hk,
      Nat.mul_zero, Nat.add_zero]
  have hdrop (n : Nat) : (e.bytes ++ rest).drop (n + 1 + e.key.length)
      = (toLE 4 e.seg.toNat ++ (toLE 4 e.off.toNat ++ (toLE 4 e.ts.toNat ++
          (toLE 4 e.ttl.toNat ++ (e.priority :: rest))))).drop n := by
    rw [Nat.add_comm n 1, Nat.add_assoc, Nat.add_comm n, ← List.drop_drop, ← List.drop_drop]
    simp only [IndexEntry.bytes, List.cons_append, List.drop_succ_cons, List.drop_zero,
      List.append_assoc, List.drop_left, List.nil_append]
  have hfield (n w : Nat) : field (e.bytes ++ rest) (n + 1 + e.key.length) w
      = field (toLE 4 e.seg.toNat ++ (toLE 4 e.off.toNat ++ (toLE 4 e.ts.toNat ++
          (toLE 4 e.ttl.toNat ++ (e.priority :: rest))))) n w := by
    rw [field, field, hdrop]
  have hpri : field (e.priority :: rest) 0 1 = e.priority.toNat := by
    simp [field, ofLE]
  have hkey : ((e.bytes ++ rest).drop 1).take e.key.length = e.key := by
    simp only [IndexEntry.bytes, List.cons_append, List.drop_succ_cons, List.drop_zero,
      List.append_assoc, List.take_left]
  rw [readEntry]
  simp only [hlen]
  rw [dif_pos ⟨e.key_le, by rw [List.length_append, IndexEntry.length_bytes, IndexEntry.size]; omega⟩]
  simp only [hkey, Option.some.injEq]
  have h0 := hfield 0 4
  have h1 := hfield 4 4
  have h2 := hfield 8 4
  have h3 := hfield 12 4
  have h5 := hfield 16 1
  simp only [Nat.zero_add, Nat.reduceAdd] at h0 h1 h2 h3 h5
  rw [h0, h1, h2, h3, h5]
  simp [field_toLE_append, field_toLE, hpri]

/-- The replay loop stops at an entry that was cut off. -/
theorem readEntry_torn {e : IndexEntry} (hpre : bs <+: e.bytes) (hlt : bs.length < e.size) :
    readEntry bs = none := by
  obtain ⟨rest, hrest⟩ := hpre
  refine dif_neg fun h => ?_
  cases bs with
  | nil => simp at h
  | cons b bs =>
    have hb : b = UInt8.ofNat e.key.length := by
      rw [IndexEntry.bytes, List.cons_append] at hrest
      exact (List.cons.inj hrest).1
    have hk : (UInt8.ofNat e.key.length).toNat = e.key.length :=
      Nat.mod_eq_of_lt (Nat.lt_of_le_of_lt e.key_le (by decide))
    have hlen : ofLE ((b :: bs).take 1) = e.key.length := by
      simp [ofLE, hb, hk]
    rw [hlen] at h
    rw [IndexEntry.size] at hlt
    omega

end written

/-! ## The loops

From here on the loops run against a file.  The handle is followed by what is left of the file behind
its position (`Handle.rest`), and each round of a loop takes a frame off the front of that. -/

/-- The calls that move along a file or read it. -/
def Call.reads : Call → Prop
  | .open _ .read | .read .. | .seek .. | .tell .. | .flush .. | .close .. => True
  | .open .. | .write .. | .remove .. | .rename .. | .mkdir .. => False

/-- Reading these files is harmless and does not fail. -/
def Env.Reads (E : Env) (fs : FileSystem) : Prop :=
  ∀ c : Call, c.reads → E.inv c fs ∧ ¬E.allowed fs c

/-- Reads go well where nothing fails. -/
theorem Env.plain_reads (fs : FileSystem) : Env.plain.Reads fs := fun _ _ => ⟨trivial, id⟩

section loops

variable {E : Env} {α β : Type} {fs : FileSystem}

/-- The part of the file from the handle's position on. -/
def Handle.rest (f : Handle) (fs : FileSystem) : Bytes := (fs.data f.ino).drop f.pos

/-- A read, and the check that it got all it asked for. -/
theorem wp_readExact (hE : E.Reads fs) {f : Handle} (hf : f.mode.canRead = true) {n : Nat}
    {a k : Bytes × Handle → FsM β} {Q : β → FileSystem → Prop}
    (hshort : (f.rest fs).length < n → ∀ x : Bytes × Handle, x.2.ino = f.ino →
      x.2.mode = f.mode → E.wp (a x) Q fs)
    (hfull : n ≤ (f.rest fs).length → ∀ f' : Handle, f'.ino = f.ino → f'.mode = f.mode →
      f'.rest fs = (f.rest fs).drop n → E.wp (k ((f.rest fs).take n, f')) Q fs) :
    E.wp (f.readBytes n >>= fun x => if x.1.length ≠ n then a x else k x) Q fs := by
  have hc := hE (.read f n) trivial
  refine Env.wp_call hc.1 hc.2 fun _ => ?_
  simp only [posix, hf, if_true]
  change E.wp (if ((f.rest fs).take n).length ≠ n then _ else _) Q fs
  by_cases hn : n ≤ (f.rest fs).length
  · have hlen : ((f.rest fs).take n).length = n := by
      rw [List.length_take]
      omega
    rw [if_neg (not_not.2 hlen)]
    refine hfull hn _ rfl rfl ?_
    change (fs.data f.ino).drop (f.pos + ((f.rest fs).take n).length) = _
    rw [hlen, Handle.rest, List.drop_drop]
  · have hlen : ((f.rest fs).take n).length ≠ n := by
      rw [List.length_take]
      omega
    rw [if_pos hlen]
    exact hshort (Nat.not_le.1 hn) _ rfl rfl

theorem wp_seekSet (hE : E.Reads fs) {f : Handle} {n : Nat} {k : Handle → FsM β}
    {Q : β → FileSystem → Prop} (h : E.wp (k { f with pos := n }) Q fs) :
    E.wp (f.seek n .set >>= k) Q fs := by
  have hc := hE (.seek f n .set) trivial
  exact Env.wp_call hc.1 hc.2 fun _ => h

theorem wp_close (hE : E.Reads fs) {f : Handle} {k : Unit → FsM β}
    {Q : β → FileSystem → Prop} (h : E.wp (k ()) Q fs) : E.wp (f.close >>= k) Q fs := by
  have hc := hE (.close f) trivial
  exact Env.wp_call hc.1 hc.2 fun _ => h

theorem wp_flush (hE : E.Reads fs) {f : Handle} {k : Unit → FsM β}
    {Q : β → FileSystem → Prop} (h : E.wp (k ()) Q fs) : E.wp (f.flush >>= k) Q fs := by
  have hc := hE (.flush f) trivial
  exact Env.wp_call hc.1 hc.2 fun _ => h

theorem wrap32_of_lt {n : Nat} (h : n < 2 ^ 32) : wrap32 n = n := Nat.mod_eq_of_lt h

/-- The loop over the records computes `scanWith`. -/
theorem wp_scanRecords (hE : E.Reads fs) {σ : Type} {accept : Nat → RecordHeader → Key → σ → σ}
    (fuel : Nat) {f : Handle} (hf : f.mode.canRead = true)
    (hlen : (fs.data f.ino).length < 2 ^ 31) {off : Nat}
    (hrest : f.rest fs = (fs.data f.ino).drop off) {s : σ} {Q : Handle × σ → FileSystem → Prop}
    (hQ : ∀ f', Q (f', scanWith accept fuel ((fs.data f.ino).drop off) off s) fs) :
    E.wp (scanRecords accept fuel f off s) Q fs := by
  induction fuel generalizing f off s with
  | zero => exact hQ f
  | succ fuel ih =>
    rw [← hrest, scanWith] at hQ
    have hlt : off + (f.rest fs).length < 2 ^ 31 ∨ f.rest fs = [] := by
      rw [hrest, List.length_drop, List.drop_eq_nil_iff]
      omega
    generalize hbs : f.rest fs = bs at hQ hlt hrest
    rw [scanRecords]
    dsimp only
    refine wp_readExact hE (by exact hf) (fun h x _ _ => ?_) fun h1 f1 hino hmode hrest1 => ?_
    · have hnone : scanFrame bs = none := if_neg fun hc => absurd hc.1 (by rw [← hbs]; omega)
      exact Env.wp_ret (by simpa only [hnone] using hQ _)
    rw [hbs] at h1 hrest1 ⊢
    rw [scanFrame] at hQ
    generalize hhdr : RecordHeader.decode (bs.take headerSize) = hdr at hQ ⊢
    dsimp only at hQ ⊢
    split
    · next h2 =>
      rw [if_neg (fun hc => ?_)] at hQ
      · exact hQ _
      · rcases h2 with h2 | h2 | h2 | h2
        · exact h2 hc.2.1
        · exact hc.2.2.1 h2
        · exact absurd hc.2.2.2.1 (Nat.not_le.2 h2)
        · exact absurd hc.2.2.2.2.1 (Nat.not_le.2 h2)
    next h2 =>
    simp only [not_or, not_not, Nat.not_lt] at h2
    obtain ⟨hmagic, hkey0, hkeyLen, hvalueLen⟩ := h2
    -- the frame ends before the offsets wrap around
    have hoff : off < 2 ^ 31 := by
      rcases hlt with hlt | rfl
      · omega
      · exact absurd h1 (by decide)
    have hbound : off + headerSize + hdr.keyLen.toNat + hdr.length.toNat + commitSize < 2 ^ 32 := by
      simp only [maxKeyLen, maxValueLen, headerSize, commitSize] at hkeyLen hvalueLen ⊢
      omega
    rw [wrap32_of_lt hbound, wrap32_of_lt (by omega)]
    refine wp_readExact hE (by rw [hmode]; exact hf) (fun h x _ _ => ?_) fun h2 f2 hino2 hmode2 _ => ?_
    · rw [hrest1] at h
      rw [if_neg (fun hc => ?_)] at hQ
      · exact hQ _
      · have hkey := hc.2.2.2.2.2.1
        rw [List.length_take] at hkey
        omega
    rw [hrest1] at h2 ⊢
    refine wp_seekSet hE ?_
    have hrest3 : Handle.rest { f2 with pos := off + headerSize + hdr.keyLen.toNat +
        hdr.length.toNat } fs = bs.drop (headerSize + hdr.keyLen.toNat + hdr.length.toNat) := by
      change (fs.data f2.ino).drop _ = _
      rw [hrest, List.drop_drop, hino2, hino]
      simp only [Nat.add_assoc]
    refine wp_readExact hE (by rw [hmode2, hmode]; exact hf) (fun h x _ _ => ?_)
      fun h3 f3 hino3 hmode3 hrest4 => ?_
    · rw [hrest3] at h
      rw [if_neg (fun hc => ?_)] at hQ
      · exact hQ _
      · have hcommit := hc.2.2.2.2.2.2.1
        rw [List.length_take] at hcommit
        omega
    rw [hrest3] at h3 hrest4 ⊢
    split
    · next h5 =>
      rw [if_neg (fun hc => h5 hc.2.2.2.2.2.2.2)] at hQ
      exact hQ _
    next h5 =>
    rw [not_not] at h5
    rw [if_pos (by
      refine ⟨h1, hmagic, hkey0, hkeyLen, hvalueLen, ?_, ?_, h5⟩
      · rw [List.length_take]
        omega
      · rw [List.length_take]
        omega)] at hQ
    have hino' : f3.ino = f.ino := by rw [hino3]; exact hino2.trans hino
    have hmode' : f3.mode = f.mode := by rw [hmode3]; exact hmode2.trans hmode
    have hnext : f3.rest fs = (fs.data f3.ino).drop (off + hdr.frameSize) := by
      rw [hrest4, hrest, List.drop_drop, List.drop_drop, hino']
      rfl
    have hoff' : off + headerSize + hdr.keyLen.toNat + hdr.length.toNat + commitSize
        = off + hdr.frameSize := by
      simp only [RecordHeader.frameSize, Nat.add_assoc]
    rw [hoff']
    refine ih (by rw [hmode']; exact hf) (by rw [hino']; exact hlen) hnext fun f' => ?_
    rw [hino', ← List.drop_drop, ← hrest]
    exact hQ f'

/-- The scan loop computes `scan`. -/
theorem wp_scanLoop (hE : E.Reads fs) {onDelete : Key → Index → Index} {seg : Nat} (fuel : Nat)
    {f : Handle} (hf : f.mode.canRead = true) (hlen : (fs.data f.ino).length < 2 ^ 31)
    {off : Nat} (hrest : f.rest fs = (fs.data f.ino).drop off) {idx : Index}
    {Q : Handle × Index → FileSystem → Prop}
    (hQ : ∀ f', Q (f', scan onDelete seg fuel ((fs.data f.ino).drop off) off idx) fs) :
    E.wp (scanLoop onDelete seg fuel f off idx) Q fs := by
  rw [scanLoop_eq]
  refine wp_scanRecords hE fuel hf hlen hrest fun f' => ?_
  rw [← scan_eq]
  exact hQ f'

/-- Opening a file for reading. -/
theorem wp_openRead (hE : E.Reads fs) {p : Path} {k : File → FsM β} {Q : β → FileSystem → Prop}
    (hnone : fs.dir p = none → E.wp (k none) Q fs)
    (hsome : ∀ i, fs.dir p = some i → E.rely fs → E.wp (k (some ⟨i, 0, .read⟩)) Q fs) :
    E.wp (openFile p .read >>= k) Q fs := by
  have hc := hE (.open p .read) trivial
  refine Env.wp_call hc.1 hc.2 fun hr => ?_
  cases hp : fs.dir p with
  | none =>
    have h : posix (.open p .read) fs = (none, fs) := by
      rw [posix, hp]
      rfl
    rw [h]
    exact hnone hp
  | some i =>
    have h : posix (.open p .read) fs = (some ⟨i, 0, .read⟩, fs) := by
      rw [posix, hp]
      rfl
    rw [h]
    exact hsome i hp hr

/-- A read that is not checked. -/
theorem wp_read (hE : E.Reads fs) {f : Handle} (hf : f.mode.canRead = true) {n : Nat}
    {k : Bytes × Handle → FsM β} {Q : β → FileSystem → Prop}
    (h : ∀ f' : Handle, f'.ino = f.ino → f'.mode = f.mode → E.wp (k ((f.rest fs).take n, f')) Q fs) :
    E.wp (f.readBytes n >>= k) Q fs := by
  have hc := hE (.read f n) trivial
  refine Env.wp_call hc.1 hc.2 fun _ => ?_
  simp only [posix, hf, if_true]
  exact h _ rfl rfl

theorem toNat_field (bs : Bytes) (pos : Nat) :
    (UInt32.ofNat (field bs pos 4)).toNat = ofLE ((bs.drop pos).take 4) := by
  refine Nat.mod_eq_of_lt (Nat.lt_of_lt_of_le (ofLE_lt _) ?_)
  exact Nat.pow_le_pow_right (by decide) (List.length_take_le ..)

/-- The replay loop computes `load`. -/
theorem wp_loadLoop (hE : E.Reads fs) (fuel : Nat) {f : Handle} (hf : f.mode.canRead = true)
    {idx : Index} {Q : Index → FileSystem → Prop} (hQ : Q (load fuel (f.rest fs) idx) fs) :
    E.wp (Store.loadLoop fuel f idx) Q fs := by
  induction fuel generalizing f idx with
  | zero => exact hQ
  | succ fuel ih =>
    rw [load] at hQ
    generalize hbs : f.rest fs = bs at hQ
    rw [Store.loadLoop]
    dsimp only
    have hshort (h : ¬18 + ofLE (bs.take 1) ≤ bs.length) : Q idx fs := by
      have hnone : readEntry bs = none := dif_neg fun hc => h hc.2
      simpa only [hnone] using hQ
    refine wp_readExact hE (by exact hf) (fun h x _ _ => ?_) fun h1 f1 _ hm1 hr1 => ?_
    · exact hshort (by rw [← hbs]; omega)
    rw [hbs] at h1 hr1 ⊢
    split
    · next hlong =>
      have hnone : readEntry bs = none := dif_neg fun hc => absurd hc.1 (Nat.not_le.2 hlong)
      exact Env.wp_ret (by simpa only [hnone] using hQ)
    next hkl =>
    generalize hkeyLen : ofLE (bs.take 1) = keyLen at hshort hkl ⊢
    have hlen (n : Nat) : (bs.drop n).length = bs.length - n := List.length_drop
    refine wp_readExact hE (by rw [hm1]; exact hf) (fun h x _ _ => ?_) fun h2 f2 _ hm2 hr2 => ?_
    · exact hshort (by rw [hr1, hlen] at h; omega)
    rw [hr1] at h2 hr2 ⊢
    rw [List.drop_drop] at hr2
    refine wp_readExact hE (by rw [hm2, hm1]; exact hf) (fun h x _ _ => ?_) fun h3 f3 _ hm3 hr3 => ?_
    · exact hshort (by rw [hr2, hlen] at h; omega)
    rw [hr2] at h3 hr3 ⊢
    rw [List.drop_drop] at hr3
    refine wp_readExact hE (by rw [hm3, hm2, hm1]; exact hf) (fun h x _ _ => ?_)
      fun h4 f4 _ hm4 hr4 => ?_
    · exact hshort (by rw [hr3, hlen] at h; omega)
    rw [hr3] at h4 hr4 ⊢
    rw [List.drop_drop] at hr4
    refine wp_readExact hE (by rw [hm4, hm3, hm2, hm1]; exact hf) (fun h x _ _ => ?_)
      fun h5 f5 _ hm5 hr5 => ?_
    · exact hshort (by rw [hr4, hlen] at h; omega)
    rw [hr4] at h5 hr5 ⊢
    rw [List.drop_drop] at hr5
    refine wp_readExact hE (by rw [hm5, hm4, hm3, hm2, hm1]; exact hf) (fun h x _ _ => ?_)
      fun h6 f6 _ hm6 hr6 => ?_
    · exact hshort (by rw [hr5, hlen] at h; omega)
    rw [hr5] at h6 hr6 ⊢
    rw [List.drop_drop] at hr6
    refine wp_readExact hE (by rw [hm6, hm5, hm4, hm3, hm2, hm1]; exact hf) (fun h x _ _ => ?_)
      fun h7 f7 _ hm7 hr7 => ?_
    · exact hshort (by rw [hr6, hlen] at h; omega)
    rw [hr6] at h7 hr7 ⊢
    rw [List.drop_drop] at hr7
    have hf7 : f7.mode.canRead = true := by rw [hm7, hm6, hm5, hm4, hm3, hm2, hm1]; exact hf
    rw [readEntry, dif_pos ⟨by rw [hkeyLen]; exact Nat.not_lt.1 hkl, by
      rw [hkeyLen]
      rw [List.length_drop] at h2 h3 h4 h5 h6 h7
      omega⟩] at hQ
    simp only [hkeyLen, IndexEntry.apply, IndexEntry.size, toNat_field] at hQ
    have hsize : 18 + ((bs.drop 1).take keyLen).length = 1 + keyLen + 4 + 4 + 4 + 4 + 1 := by
      rw [List.length_take]
      omega
    have h5k : 5 + keyLen = 1 + keyLen + 4 := by omega
    have h9k : 9 + keyLen = 1 + keyLen + 4 + 4 := by omega
    have h13k : 13 + keyLen = 1 + keyLen + 4 + 4 + 4 := by omega
    have h17k : 17 + keyLen = 1 + keyLen + 4 + 4 + 4 + 4 := by omega
    rw [hsize, ← hr7, h5k, h9k, h13k, h17k] at hQ
    dsimp only
    split
    · next hdel =>
      rw [if_pos hdel] at hQ
      exact ih hf7 hQ
    · next hdel =>
      rw [if_neg hdel] at hQ
      exact ih hf7 hQ

/-! ## Reading at an index entry -/

/-- What reading at an index entry yields: the value at its offset in the file of its segment. -/
def Store.fetch (st : Store) (fs : FileSystem) (e : IndexValue) : Option Value :=
  (fs.file (st.segmentName e.segment.toNat)).bind fun bs => readValue (bs.drop e.offset.toNat)

/-- `get` computes `fetch` when it is given a buffer that holds every value. -/
theorem wp_getAt (hE : E.Reads fs) {st : Store} {e : IndexValue}
    {Q : Option (Bytes × Nat) → FileSystem → Prop}
    (hQ : Q ((st.fetch fs e).map fun v => (v, v.length)) fs) :
    E.wp (st.getAt e true maxValueLen) Q fs := by
  rw [Store.getAt]
  refine wp_openRead hE (fun hdir => ?_) fun i hdir _ => ?_
  · rw [Store.fetch, FileSystem.file_eq_none.2 hdir] at hQ
    exact hQ
  rw [Store.fetch, FileSystem.file_eq_some hdir, Option.bind_some] at hQ
  generalize hbs : (fs.data i).drop e.offset.toNat = bs at hQ
  have hrest0 : Handle.rest ⟨i, e.offset.toNat, .read⟩ fs = bs := hbs
  rw [readValue] at hQ
  refine wp_seekSet hE ?_
  refine wp_readExact hE rfl (fun h x _ _ => ?_) fun h1 f1 hino hmode hrest => ?_
  · dsimp only at h
    rw [hrest0] at h
    rw [if_neg (fun hc => absurd hc.1 (Nat.not_le.2 h))] at hQ
    exact wp_close hE hQ
  dsimp only at hino hmode
  rw [hrest0] at h1 hrest ⊢
  generalize hhdr : RecordHeader.decode (bs.take headerSize) = hdr at hQ ⊢
  dsimp only at hQ ⊢
  split
  · next h2 =>
    rw [if_neg (fun hc => ?_)] at hQ
    · exact wp_close hE hQ
    · rcases h2 with h2 | h2 | h2
      · exact h2 hc.2.1
      · exact absurd hc.2.2.1 (Nat.not_le.2 h2)
      · exact absurd hc.2.2.2.1 (Nat.not_le.2 h2)
  next h2 =>
  simp only [not_or, not_not, Nat.not_lt] at h2
  obtain ⟨hmagic, hkeyLen, hvalueLen⟩ := h2
  simp only [Bool.not_true, Bool.false_eq_true, if_false, Nat.min_eq_left hvalueLen]
  refine wp_seekSet hE ?_
  have hrest2 : Handle.rest { f1 with pos := e.offset.toNat + headerSize + hdr.keyLen.toNat } fs
      = bs.drop (headerSize + hdr.keyLen.toNat) := by
    change (fs.data f1.ino).drop _ = _
    rw [hino, ← hbs, List.drop_drop, Nat.add_assoc]
  refine wp_readExact hE (by rw [hmode]; rfl) (fun h x _ _ => ?_) fun h3 f3 _ _ _ => ?_
  · rw [hrest2] at h
    rw [if_neg (fun hc => ?_)] at hQ
    · exact wp_close hE hQ
    · have hval := hc.2.2.2.2
      rw [List.length_take] at hval
      omega
  rw [hrest2] at h3 ⊢
  have hval : ((bs.drop (headerSize + hdr.keyLen.toNat)).take hdr.length.toNat).length
      = hdr.length.toNat := by
    rw [List.length_take]
    omega
  rw [if_pos ⟨h1, hmagic, hkeyLen, hvalueLen, hval⟩, Option.map_some, hval] at hQ
  exact wp_close hE hQ

/-- The iterator reads the value of the record it points at. -/
theorem wp_loadValue (hE : E.Reads fs) {st : Store} {e : IndexValue} {i : Nat} {r : Record}
    (hdir : fs.dir (st.segmentName e.segment.toNat) = some i)
    (hr : r.bytes <+: (fs.data i).drop e.offset.toNat) {Q : Value → FileSystem → Prop}
    (hQ : Q r.value fs) : E.wp (st.loadValue e) Q fs := by
  obtain ⟨rest, hrest⟩ := hr
  rw [Store.loadValue]
  refine wp_openRead hE (fun h => absurd (hdir.symm.trans h) (Option.some_ne_none i))
    fun j hj _ => ?_
  obtain rfl : i = j := Option.some.inj (hdir.symm.trans hj)
  refine wp_seekSet hE ?_
  refine wp_read hE rfl fun f1 hino hmode => ?_
  dsimp only at hino hmode ⊢
  have hrest0 : Handle.rest ⟨i, e.offset.toNat, .read⟩ fs = r.bytes ++ rest := hrest.symm
  rw [hrest0, Record.take_bytes, RecordHeader.decode_encode]
  refine wp_seekSet hE ?_
  have hrest2 : Handle.rest { f1 with pos := e.offset.toNat + headerSize + r.hdr.keyLen.toNat } fs
      = (r.bytes ++ rest).drop (headerSize + r.hdr.keyLen.toNat) := by
    change (fs.data f1.ino).drop _ = _
    rw [hino, hrest, List.drop_drop, Nat.add_assoc]
  have hfill : r.value ++ List.replicate (r.hdr.length.toNat - r.value.length) 0 = r.value := by
    rw [r.length_eq, Nat.sub_self, List.replicate_zero, List.append_nil]
  split
  · refine wp_read hE (by rw [hmode]; rfl) fun f2 _ _ => ?_
    rw [hrest2, Record.value_bytes]
    refine wp_close hE ?_
    rw [hfill]
    exact hQ
  · next hlen =>
    rw [not_not] at hlen
    have hnil : r.value = [] := by
      have h := r.length_eq
      rw [hlen] at h
      exact List.length_eq_zero_iff.1 h.symm
    refine wp_close hE ?_
    rw [hnil] at hfill hQ
    dsimp only
    rw [hfill]
    exact hQ

end loops

end MicroStore
